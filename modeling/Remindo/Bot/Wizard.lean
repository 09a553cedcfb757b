import Remindo.Bot.Reminders

namespace Remindo.Bot.Reminders

open Remindo.Domain Remindo.Db Remindo.Services Remindo.Foundation
open Remindo.Bot.Manage (Conversation Update EditField)

section Toggling

variable {α : Type} [LinearOrder α] {values : List α} {value v : α}

theorem mem_toggled : v ∈ toggled values value ↔
    v ∈ values ∧ v ≠ value ∨ v = value ∧ value ∉ values := by
  rw [toggled]
  split
  · simp [*]
  · rename_i hnew
    rw [List.mem_insertionSort, List.mem_append, List.mem_singleton]
    constructor
    · rintro (hold | rfl)
      · exact .inl ⟨hold, fun heq ↦ hnew (heq ▸ hold)⟩
      · exact .inr ⟨rfl, hnew⟩
    · rintro (⟨hold, -⟩ | ⟨rfl, -⟩)
      · exact .inl hold
      · exact .inr rfl

theorem pairwise_toggled (h : values.Pairwise (· < ·)) : (toggled values value).Pairwise (· < ·) := by
  rw [toggled]
  split
  · exact h.filter _
  · rename_i hnew
    have hnodup : (values ++ [value]).Nodup :=
      List.nodup_append.mpr ⟨h.imp ne_of_lt, List.nodup_singleton _, by
        rintro v hv _ hlast rfl
        exact hnew (List.mem_singleton.mp hlast ▸ hv)⟩
    have hsorted := List.pairwise_insertionSort (· ≤ ·) (values ++ [value])
    have hnodup := (List.perm_insertionSort (· ≤ ·) _).nodup_iff.mpr hnodup
    exact hsorted.imp₂ (fun _ _ hle hne ↦ lt_of_le_of_ne hle hne) hnodup

theorem length_toggled_le {top : ℕ} (h : values.length ≤ top)
    (hroom : ¬(value ∉ values ∧ top ≤ values.length)) : (toggled values value).length ≤ top := by
  rw [toggled]
  split
  · exact (List.length_filter_le _ _).trans h
  · rename_i hnew
    rw [List.length_insertionSort, List.length_append, List.length_singleton]
    have := not_le.mp fun hfull ↦ hroom ⟨hnew, hfull⟩
    omega

end Toggling

section Years

variable {d d' now : ℤ}

theorem year_bounds (d : ℤ) :
    ordinal ⟨(civil d).year, 1, 1⟩ ≤ d ∧ d < ordinal ⟨(civil d).year + 1, 1, 1⟩ := by
  obtain ⟨hordinal, hmonth, hday⟩ := ordinal_civil d
  have hfit := sum_daysInMonth_le (civil d).year hmonth
  have hlast := civil_day_le d
  generalize civil d = c at *
  obtain ⟨year, month, dayOfMonth⟩ := c
  simp only [ordinal] at *
  generalize hsum : ((List.range' 1 (month - 1)).map (daysInMonth year)).sum = sum at *
  cases hleap : isLeap year with
  | true =>
    have hleap' : isLeap year = true := hleap
    simp only [isLeap, decide_eq_true_eq] at hleap'
    rw [if_pos hleap] at hfit
    simp
    omega
  | false =>
    rw [if_neg (by simp [hleap])] at hfit
    simp
    omega

/-- A day and the year ahead of it lie in the year of its eve or in one of the
next three. -/
theorem year_near (hlow : d - 1 ≤ d') (hhigh : d' ≤ d + 1 + wizardMaxDaysAhead) :
    (civil d).year - 1 ≤ (civil d').year ∧ (civil d').year ≤ (civil d).year + 2 := by
  have hd := year_bounds d
  have hd' := year_bounds d'
  simp only [ordinal, wizardMaxDaysAhead] at *
  simp at hd hd'
  omega

/-- A time at which neither today nor a year from today leaves the years of
four digits. -/
def Modern (now : ℤ) : Prop :=
  1001 ≤ (civil (dateOf now)).year ∧ (civil (dateOf now)).year ≤ 9997

instance (now : ℤ) : Decidable (Modern now) := inferInstanceAs (Decidable (_ ∧ _))

theorem todayOf_near (db : Database) (now : ℤ) (userId : ℕ) :
    dateOf now - 1 ≤ todayOf db now userId ∧ todayOf db now userId ≤ dateOf now + 1 := by
  rw [todayOf]
  cases db.users userId with
  | none => simp
  | some u =>
    have hnear := astimezone_near now u.timezone.bounded
    simp only [Option.map_some, Option.getD_some, localToday, dateOf, day] at *
    omega

/-- A date inside the horizon has a year of four digits. -/
theorem year_of_horizon (hmodern : Modern now) (hlow : dateOf now - 1 ≤ d)
    (hhigh : d ≤ dateOf now + 1 + wizardMaxDaysAhead) :
    1000 ≤ (civil d).year ∧ (civil d).year ≤ 9999 := by
  have hyear := year_near hlow hhigh
  have hfirst := hmodern.1
  have hlast := hmodern.2
  omega

end Years

section Answers

/-- The days chosen so far. -/
def IsDays (top : ℕ) (days : List ℤ) : Prop :=
  days.Pairwise (· < ·) ∧ ∀ n ∈ days, 1 ≤ n ∧ n ≤ top

/-- The times chosen so far. -/
def IsTimes (times : List Text) : Prop :=
  times.Pairwise (· < ·) ∧ times.length ≤ timesMaxLength ∧ ∀ text ∈ times, ∃ t, formatHhmm t = text

/-- The questions that come before the times have been answered. -/
inductive Ruled (data : FsmData) : Prop
  | daily (kind : data.kind = some ScheduleKind.daily.value)
  | weekly (kind : data.kind = some ScheduleKind.weekly.value)
      (days : IsDays weekdaysMaxLength (storedDays data.weekdays))
      (chosen : storedDays data.weekdays ≠ [])
  | monthly (kind : data.kind = some ScheduleKind.monthly.value)
      (days : IsDays monthDaysMaxLength (storedDays data.monthDays))
      (chosen : storedDays data.monthDays ≠ []) (rule : OnMissingDay)
      (missing : data.onMissing = some rule.value)

/-- A schedule has the times that were chosen. -/
def HasTimes (data : FsmData) (times : Times) : Prop :=
  ∀ t, t ∈ times.values ↔ formatHhmm t ∈ storedTimes data

def HasDays {top : ℕ} (days : Option (List ℤ)) (numbers : DayNumbers top) : Prop :=
  ∀ n : ℕ, n ∈ numbers.values ↔ (n : ℤ) ∈ storedDays days

/-- A schedule is the one that was answered. -/
inductive Made (data : FsmData) : Schedule → Prop
  | once {s : OnceSchedule} (kind : data.kind = some ScheduleKind.once.value)
      (date : data.date = some (formatLocalDate s.date)) : Made data (.once s)
  | daily {s : DailySchedule} (kind : data.kind = some ScheduleKind.daily.value)
      (times : HasTimes data s.times) (every : s.everyNDays = 1) : Made data (.daily s)
  | weekly {s : WeeklySchedule} (kind : data.kind = some ScheduleKind.weekly.value)
      (times : HasTimes data s.times) (days : HasDays data.weekdays s.weekdays) :
      Made data (.weekly s)
  | monthly {s : MonthlySchedule} (kind : data.kind = some ScheduleKind.monthly.value)
      (times : HasTimes data s.times) (days : HasDays data.monthDays s.days)
      (missing : data.onMissing = some s.onMissingDay.value) : Made data (.monthly s)
  | interval {s : IntervalSchedule} (kind : data.kind = some ScheduleKind.interval.value)
      (every : data.everyMinutes = some (s.everyMinutes : ℤ)) : Made data (.interval s)

/-- The questions about the schedule come after these answers. -/
def Based (data : FsmData) : Prop := data.categoryId.isSome ∧ data.title.isSome

/-- A step an interval can have. -/
def ProperStep (n : ℤ) : Prop := (intervalMinMinutes : ℤ) ≤ n ∧ n ≤ intervalMaxMinutes

instance (n : ℤ) : Decidable (ProperStep n) := inferInstanceAs (Decidable (_ ∧ _))

/-- The steps of an interval that are let in are the proper ones at least, and the
one an update brings. -/
structure Admits (digits : Digits) (allowed : ℤ → Prop) (update : Update) : Prop where
  typed : ∀ n, ProperStep n → allowed n
  pressed : ∀ value n, update = .press "every" value → digits.isdigit value = true →
    digits.int value = some n → allowed n

/-- What has been answered by the time a question is asked, with the steps of an
interval that are let in. -/
def Answered (padded : Bool) (allowed : ℤ → Prop) (data : FsmData) : WizardState → Prop
  | .category => data.editReminderId = none
  | .title => data.editReminderId = none ∧ data.categoryId.isSome
  | .kind => Based data
  | .date => Based data ∧ data.kind = some ScheduleKind.once.value
  | .moment => Based data ∧ data.kind = some ScheduleKind.once.value ∧
      ∃ d, data.date = some (formatLocalDate d) ∧ 1000 ≤ (civil d).year ∧ (civil d).year ≤ 9999
  | .times => Based data ∧ IsTimes (storedTimes data) ∧ Ruled data
  | .weekdays => Based data ∧ data.kind = some ScheduleKind.weekly.value ∧
      IsDays weekdaysMaxLength (storedDays data.weekdays)
  | .monthDays => Based data ∧ data.kind = some ScheduleKind.monthly.value ∧
      IsDays monthDaysMaxLength (storedDays data.monthDays)
  | .onMissing => Based data ∧ data.kind = some ScheduleKind.monthly.value ∧
      IsDays monthDaysMaxLength (storedDays data.monthDays) ∧ storedDays data.monthDays ≠ []
  | .everyMinutes => Based data ∧ data.kind = some ScheduleKind.interval.value
  | .window => Based data ∧ data.kind = some ScheduleKind.interval.value ∧
      ∃ n, data.everyMinutes = some n ∧ allowed n
  | .confirm => Based data ∧ ∃ s : Schedule, data.schedule = some (dumpSchedule padded s) ∧
      s.Written padded ∧ Made data s

/-- A screen of somebody else is none of the wizard's. -/
def Foreign : Conversation → Prop
  | .idle | .edit .. | .other => True
  | _ => False

/-- The answers a chat has come by. -/
def Kept (padded : Bool) (allowed : ℤ → Prop) : Chat → Prop
  | .wizard state data => Answered padded allowed data state
  | .elsewhere conversation => Foreign conversation

/-- The chat goes on with a question about the schedule, or with the last one,
and what came before them stays. -/
def Onward (padded : Bool) (allowed : ℤ → Prop) (data : FsmData) : Chat → Prop
  | .wizard state data' => (state ≠ .category ∧ state ≠ .title) ∧ Answered padded allowed data' state ∧
      data'.editReminderId = data.editReminderId ∧ data'.categoryId = data.categoryId
  | .elsewhere _ => False

/-- A handler goes on, or raises one of the faults and leaves the chat as it was. -/
def Settles (padded : Bool) (allowed : ℤ → Prop) (state : WizardState) (data : FsmData) (raises : Fault → Prop) :
    Step → Prop
  | .ok chat => Onward padded allowed data chat
  | .error (fault, chat) => chat = .wizard state data ∧ raises fault

end Answers

section Steps

variable {digits : Digits} {padded : Bool} {allowed : ℤ → Prop} {data : FsmData} {state : WizardState} {today : ℤ}
  {value raw : Text}

theorem onward_same (hstate : state ≠ .category ∧ state ≠ .title) (h : Answered padded allowed data state) :
    Onward padded allowed data (.wizard state data) := ⟨hstate, h, rfl, rfl⟩

theorem settles_same (hstate : state ≠ .category ∧ state ≠ .title)
    (h : Answered padded allowed data state) {raises : Fault → Prop} :
    Settles padded allowed state data raises (.ok (.wizard state data)) := onward_same hstate h

theorem Settles.mono {raises raises' : Fault → Prop} {out : Step} (h : Settles padded allowed state data raises out)
    (himp : ∀ fault, raises fault → raises' fault) : Settles padded allowed state data raises' out := by
  cases out with
  | ok chat => exact h
  | error raised => exact ⟨h.1, himp _ h.2⟩

theorem isDays_nil (top : ℕ) : IsDays top [] := ⟨List.Pairwise.nil, by simp⟩

theorem isTimes_nil : IsTimes [] := ⟨List.Pairwise.nil, Nat.zero_le _, by simp⟩

theorem IsDays.toggleDay {top : ℕ} {days : List ℤ} {n : ℤ} (h : IsDays top days)
    (hn : 1 ≤ n ∧ n ≤ top) : IsDays top (toggleDay days n) := by
  refine ⟨pairwise_toggled h.1, fun m hm ↦ ?_⟩
  obtain ⟨hold, -⟩ | ⟨rfl, -⟩ := mem_toggled.mp hm
  · exact h.2 m hold
  · exact hn

theorem IsTimes.toggle {times : List Text} {t : WallTime} (h : IsTimes times)
    (hroom : ¬(formatHhmm t ∉ times ∧ timesMaxLength ≤ times.length)) :
    IsTimes (toggle times (formatHhmm t)) := by
  refine ⟨pairwise_toggled h.1, length_toggled_le h.2.1 hroom, fun text htext ↦ ?_⟩
  obtain ⟨hold, -⟩ | ⟨rfl, -⟩ := mem_toggled.mp htext
  · exact h.2.2 text hold
  · exact ⟨t, rfl⟩

theorem onward_handleKind (h : Answered padded allowed data .kind) :
    Onward padded allowed data (handleKind value data) := by
  rw [handleKind]
  cases hkind : kindOf value with
  | none => exact onward_same (by decide) h
  | some kind =>
    cases kind with
    | once => exact ⟨by decide, ⟨h, rfl⟩, rfl, rfl⟩
    | daily => exact ⟨by decide, ⟨h, isTimes_nil, .daily rfl⟩, rfl, rfl⟩
    | weekly => exact ⟨by decide, ⟨h, rfl, isDays_nil _⟩, rfl, rfl⟩
    | monthly => exact ⟨by decide, ⟨h, rfl, isDays_nil _⟩, rfl, rfl⟩
    | interval => exact ⟨by decide, ⟨h, rfl⟩, rfl, rfl⟩

theorem onward_rememberDate {d : ℤ} (h : Answered padded allowed data .date)
    (hyear : 1000 ≤ (civil d).year ∧ (civil d).year ≤ 9999) :
    Onward padded allowed data (rememberDate d data) :=
  ⟨by decide, ⟨h.1, h.2, d, rfl, hyear⟩, rfl, rfl⟩

/-- The days of the wizard's horizon can be written. -/
def Horizon (today : ℤ) : Prop :=
  ∀ d, today ≤ d → d ≤ today + wizardMaxDaysAhead → 1000 ≤ (civil d).year ∧ (civil d).year ≤ 9999

theorem onward_handleDateText (htoday : Horizon today) (h : Answered padded allowed data .date) :
    Onward padded allowed data (handleDateText today raw data) := by
  rw [handleDateText]
  split
  · exact onward_same (by decide) h
  · rename_i d hd
    obtain ⟨hlow, hhigh⟩ := parseUserDate_eq_ok hd
    exact onward_rememberDate h (htoday d hlow hhigh)

theorem onward_handleDate (htoday : Horizon today) (h : Answered padded allowed data .date) :
    Onward padded allowed data (handleDate today value data) := by
  have htext : Onward padded allowed data (handleDateText today value data) :=
    onward_handleDateText htoday h
  rw [handleDate]
  split
  · exact onward_same (by decide) h
  split
  · exact onward_rememberDate h (htoday _ le_rfl (by simp [wizardMaxDaysAhead]))
  split
  · exact onward_rememberDate h (htoday _ (by omega) (by simp [wizardMaxDaysAhead]))
  · exact htext

theorem toConfirmation_eq (s : Schedule) (hbased : Based data) : toConfirmation padded s data =
    .ok (.wizard .confirm { data with schedule := some (dumpSchedule padded s) }) := by
  obtain ⟨title, htitle⟩ := Option.isSome_iff_exists.mp hbased.2
  simp only [toConfirmation, htitle]
  rfl

theorem settles_toConfirmation {s : Schedule} {raises : Fault → Prop} (hbased : Based data)
    (hwritten : s.Written padded) (hmade : Made data s) :
    Settles padded allowed state data raises (toConfirmation padded s data) := by
  rw [toConfirmation_eq s hbased]
  refine ⟨by decide, ⟨hbased, s, rfl, hwritten, ?_⟩, rfl, rfl⟩
  cases hmade with
  | once kind date => exact .once kind date
  | daily kind times every => exact .daily kind times every
  | weekly kind times days => exact .weekly kind times days
  | monthly kind times days missing => exact .monthly kind times days missing
  | interval kind every => exact .interval kind every

theorem finishOnce_eq {d : ℤ} (time : WallTime) (hdate : data.date = some (formatLocalDate d))
    (hyear : 1000 ≤ (civil d).year ∧ (civil d).year ≤ 9999) :
    finishOnce padded time data = toConfirmation padded (buildOnceSchedule d time) data := by
  have hread : parseLocalDate (formatLocalDate d) = some d :=
    parseLocalDate_formatLocalDate ⟨by omega, hyear.2⟩
  simp only [finishOnce, hdate, stored, bind, Except.bind, hread, parsed]

theorem settles_finishOnce {raises : Fault → Prop} (time : WallTime)
    (h : Answered padded allowed data .moment) :
    Settles padded allowed .moment data raises (finishOnce padded time data) := by
  obtain ⟨hbased, hkind, d, hdate, hyear⟩ := h
  rw [finishOnce_eq time hdate hyear]
  refine settles_toConfirmation hbased ?_ (.once hkind hdate)
  rintro o ⟨⟩
  exact ⟨⟨le_trans (by decide) hyear.1, hyear.2⟩, .inr hyear.1⟩

theorem settles_handleAt {raises : Fault → Prop} (h : Answered padded allowed data .moment) :
    Settles padded allowed .moment data raises (handleAt digits padded value data) := by
  rw [handleAt]
  split
  · exact settles_same (by decide) h
  split
  · exact settles_same (by decide) h
  · exact settles_finishOnce _ h

theorem settles_handleAtText {raises : Fault → Prop} (h : Answered padded allowed data .moment) :
    Settles padded allowed .moment data raises (handleAtText digits padded raw data) := by
  rw [handleAtText]
  split
  · exact settles_same (by decide) h
  · exact settles_finishOnce _ h

theorem onward_toggleTime (time : WallTime) (h : Answered padded allowed data .times) :
    Onward padded allowed data (toggleTime time data) := by
  rw [toggleTime]
  split
  · exact onward_same (by decide) h
  · rename_i hroom
    simp only [isFull, decide_eq_true_eq] at hroom
    obtain ⟨hbased, htimes, hruled⟩ := h
    refine ⟨by decide, ⟨hbased, htimes.toggle hroom, ?_⟩, rfl, rfl⟩
    cases hruled with
    | daily kind => exact .daily kind
    | weekly kind days chosen => exact .weekly kind days chosen
    | monthly kind days chosen rule missing => exact .monthly kind days chosen rule missing

theorem onward_handleDailyTime (h : Answered padded allowed data .times) :
    Onward padded allowed data (handleDailyTime digits value data) := by
  rw [handleDailyTime]
  split
  · exact onward_same (by decide) h
  split
  · exact onward_same (by decide) h
  · exact onward_toggleTime _ h

theorem onward_handleDailyTimeText (h : Answered padded allowed data .times) :
    Onward padded allowed data (handleDailyTimeText digits raw data) := by
  rw [handleDailyTimeText]
  split
  · exact onward_same (by decide) h
  · exact onward_toggleTime _ h

theorem formatHhmm_injective : Function.Injective formatHhmm := by
  intro t t' h
  have hread := congrArg (parseHhmm .ascii) h
  rw [parseHhmm_formatHhmm, parseHhmm_formatHhmm] at hread
  exact Option.some_inj.mp hread

/-- The times kept are read back. -/
theorem exists_storedTimes (digits : Digits) (h : IsTimes (storedTimes data)) :
    ∃ times : List WallTime, (storedTimes data).mapM (parseHhmm digits) = some times ∧
      times.length ≤ timesMaxLength ∧ ∀ t, t ∈ times ↔ formatHhmm t ∈ storedTimes data := by
  obtain ⟨times, htimes⟩ : storedTimes data ∈ Set.range (List.map formatHhmm) := by
    rw [Set.range_list_map]
    exact h.2.2
  have hlength := h.2.1
  rw [← htimes] at hlength ⊢
  rw [List.length_map] at hlength
  exact ⟨times, mapM_map_eq_some fun t _ ↦ parseHhmm_formatHhmm t, hlength,
    fun t ↦ (List.mem_map_of_injective formatHhmm_injective).symm⟩

theorem kindOf_value (kind : ScheduleKind) : kindOf kind.value = some kind := by
  cases kind <;> decide

theorem missingDayRule_value (rule : OnMissingDay) : missingDayRule rule.value = .ok rule := by
  cases rule <;> rfl

/-- The answers add up to a schedule. -/
theorem scheduleFrom_eq_ok (digits : Digits) (padded : Bool) (left : Chat)
    (htimes : IsTimes (storedTimes data)) (hne : storedTimes data ≠ []) (hruled : Ruled data) :
    ∃ s, scheduleFrom digits left data = .ok s ∧ s.Written padded ∧ Made data s := by
  obtain ⟨times, hread, hlength, hmem⟩ := exists_storedTimes digits htimes
  have hsome : times ≠ [] := by
    rintro rfl
    obtain ⟨text, htext⟩ := List.exists_mem_of_ne_nil _ hne
    obtain ⟨t, rfl⟩ := htimes.2.2 text htext
    exact List.not_mem_nil ((hmem t).mpr htext)
  obtain ⟨wall, hwall, hvalues⟩ := wallTimes_eq_ok hsome hlength
  have hhas : HasTimes data wall := fun t ↦ (hvalues t).trans (hmem t)
  cases hruled with
  | daily kind =>
    refine ⟨.daily ⟨wall, 1, by decide⟩, ?_, by rintro o ⟨⟩, .daily kind hhas rfl⟩
    simp only [scheduleFrom, hread, parsed, kind, stored, kindOf_value, buildDailySchedule, hwall,
      built, bind, Except.bind, pure, Except.pure]
  | weekly kind days chosen =>
    obtain ⟨numbers, hnumbers, hdays⟩ := @dayNumbers_eq_ok _ _ "weekday" chosen days.2
    refine ⟨.weekly ⟨wall, numbers⟩, ?_, by rintro o ⟨⟩, .weekly kind hhas hdays⟩
    simp only [scheduleFrom, hread, parsed, kind, stored, kindOf_value, buildWeeklySchedule, hwall,
      hnumbers, built, bind, Except.bind, pure, Except.pure]
  | monthly kind days chosen rule missing =>
    obtain ⟨numbers, hnumbers, hdays⟩ := @dayNumbers_eq_ok _ _ "day of month" chosen days.2
    refine ⟨.monthly ⟨wall, numbers, rule⟩, ?_, by rintro o ⟨⟩, .monthly kind hhas hdays missing⟩
    simp only [scheduleFrom, hread, parsed, kind, stored, kindOf_value, missing,
      buildMonthlySchedule, missingDayRule_value, hwall, hnumbers, built, bind, Except.bind, pure,
      Except.pure]

theorem settles_handleTimesDone {raises : Fault → Prop} (h : Answered padded allowed data .times) :
    Settles padded allowed .times data raises (handleTimesDone digits padded data) := by
  rw [handleTimesDone]
  split
  · exact settles_same (by decide) h
  · rename_i hne
    obtain ⟨hbased, htimes, hruled⟩ := h
    obtain ⟨s, hs, hwritten, hmade⟩ :=
      scheduleFrom_eq_ok digits padded (.wizard .times data) htimes hne hruled
    rw [hs]
    exact settles_toConfirmation hbased hwritten hmade

theorem onward_handleMissingDay (h : Answered padded allowed data .onMissing) :
    Onward padded allowed data (handleMissingDay value data) := by
  rw [handleMissingDay]
  split
  · exact onward_same (by decide) h
  · rename_i rule _
    obtain ⟨hbased, hkind, hdays, hchosen⟩ := h
    exact ⟨by decide, ⟨hbased, isTimes_nil, .monthly hkind hdays hchosen rule rfl⟩, rfl, rfl⟩

theorem parseUserInterval_eq_ok {n : ℤ} (h : parseUserInterval digits raw = .ok n) :
    ProperStep n := by
  rw [parseUserInterval] at h
  split at h
  · cases h
  · split at h
    · cases h
      assumption
    · cases h

theorem onward_handleIntervalText (hallowed : ∀ n, ProperStep n → allowed n)
    (h : Answered padded allowed data .everyMinutes) :
    Onward padded allowed data (handleIntervalText digits raw data) := by
  rw [handleIntervalText]
  split
  · exact onward_same (by decide) h
  · rename_i n hn
    have hproper := parseUserInterval_eq_ok hn
    exact ⟨by decide, ⟨h.1, h.2, n, rfl, hallowed n hproper⟩, rfl, rfl⟩

end Steps

section Faults

variable (digits : Digits) (lax : LaxInt) (db : Database) (now : ℤ) (userId : ℕ) (data : FsmData)

/-- A text that `isdigit` lets through and `int` does not read. -/
def Misread (value : Text) : Prop := digits.isdigit value = true ∧ digits.int value = none

/-- A step no interval has, off a press that was not checked. -/
def OffRange : Prop := ∃ n ∈ data.everyMinutes, ¬ProperStep n

/-- What an update raises inside the wizard. -/
inductive Raises : WizardState → Update → Fault → Prop
  | weekday {value : Text} (misread : Misread digits value) :
      Raises .weekdays (.press "wday" value) .valueError
  | monthDay {value : Text} (misread : Misread digits value) :
      Raises .monthDays (.press "mday" value) .valueError
  | every {value : Text} (misread : Misread digits value) :
      Raises .everyMinutes (.press "every" value) .valueError
  | window {value : Text} (read : (presetWindow digits value).isSome) (off : OffRange data) :
      Raises .window (.press "window" value) (.validation .interval)
  | windowText {raw : Text} {window : WallTime × WallTime}
      (read : parseUserWindow digits raw = .ok window) (off : OffRange data) :
      Raises .window (.text raw) (.validation .interval)
  | refused {payload : Json} {schedule : Schedule} {error : ServiceError}
      (kept : data.schedule = some payload)
      (read : parseSchedule digits lax payload = some schedule)
      (call : Manage.confirmed db now userId data.editReminderId (data.categoryId.getD 0) schedule =
        .error error)
      (other : error ≠ .scheduleExhausted) :
      Raises .confirm (.press "confirm" "yes".toList) (.service error)

variable {digits} {lax} {db} {now} {userId} {data} {padded : Bool}
  {allowed : ℤ → Prop} {value raw : Text} {left : Chat}
  {high : ℕ}

theorem Misread.ne (h : Misread digits value) {word : String} {c : Char} (hc : c ∈ word.toList)
    (hascii : c.toNat < 128) (hdigit : c.isDigit = false) : value ≠ word.toList :=
  Manage.ne_of_isdigit h.1 hc hascii hdigit

theorem presetDay_misread (h : Misread digits value) :
    presetDay digits left value high = .error (.valueError, left) := by
  rw [presetDay, if_pos h.1, h.2]
  rfl

theorem presetDay_cases (digits : Digits) (left : Chat) (value : Text) (high : ℕ) :
    Misread digits value ∨ ∃ n, presetDay digits left value high = .ok n ∧
      ∀ m ∈ n, 1 ≤ m ∧ m ≤ (high : ℤ) := by
  rw [presetDay]
  split
  · rename_i hdigits
    cases hn : digits.int value with
    | none => exact .inl ⟨hdigits, hn⟩
    | some n =>
      refine .inr ⟨if 1 ≤ n ∧ n ≤ high then some n else none, rfl, fun m hm ↦ ?_⟩
      split at hm
      · cases hm
        assumption
      · cases hm
  · exact .inr ⟨none, rfl, by simp⟩

/-- A question about days ends with a day chosen, and keeps the days in order
until then. -/
theorem settles_handleDays {question : DayQuestion}
    (hstate : question.state ≠ .category ∧ question.state ≠ .title)
    (h : Answered padded allowed data question.state)
    (hdone : storedDays (question.chosen data) ≠ [] →
      Onward padded allowed data (question.onward data))
    (hday : ∀ n, 1 ≤ n ∧ n ≤ (question.high : ℤ) → Onward padded allowed data
      (.wizard question.state (question.choose (toggleDay (storedDays (question.chosen data)) n) data))) :
    Settles padded allowed question.state data
      (fun fault ↦ fault = .valueError ∧ Misread digits value)
      (handleDays digits question value data) := by
  rw [handleDays]
  split
  · split
    · exact settles_same hstate h
    · rename_i hne
      exact hdone hne
  · obtain hmisread | ⟨n, hn, hrange⟩ :=
      presetDay_cases digits (.wizard question.state data) value question.high
    · rw [presetDay_misread hmisread]
      exact ⟨rfl, rfl, hmisread⟩
    · rw [hn]
      cases n with
      | none => exact settles_same hstate h
      | some n => exact hday n (hrange n rfl)

theorem settles_handleWeekdays (h : Answered padded allowed data .weekdays) :
    Settles padded allowed .weekdays data (fun fault ↦ fault = .valueError ∧ Misread digits value)
      (handleWeekdays digits value data) := by
  refine settles_handleDays (by decide) h (fun hne ↦ ?_) fun n hn ↦ ?_
  · exact ⟨by decide, ⟨h.1, isTimes_nil, .weekly h.2.1 h.2.2 hne⟩, rfl, rfl⟩
  · exact ⟨by decide, ⟨h.1, h.2.1, h.2.2.toggleDay hn⟩, rfl, rfl⟩

theorem settles_handleMonthDays (h : Answered padded allowed data .monthDays) :
    Settles padded allowed .monthDays data (fun fault ↦ fault = .valueError ∧ Misread digits value)
      (handleMonthDays digits value data) := by
  refine settles_handleDays (by decide) h (fun hne ↦ ?_) fun n hn ↦ ?_
  · exact ⟨by decide, ⟨h.1, h.2.1, h.2.2, hne⟩, rfl, rfl⟩
  · exact ⟨by decide, ⟨h.1, h.2.1, h.2.2.toggleDay hn⟩, rfl, rfl⟩

theorem settles_handleInterval
    (hallowed : ∀ n, digits.isdigit value = true → digits.int value = some n → allowed n)
    (h : Answered padded allowed data .everyMinutes) :
    Settles padded allowed .everyMinutes data (fun fault ↦ fault = .valueError ∧ Misread digits value)
      (handleInterval digits value data) := by
  rw [handleInterval]
  split
  · exact settles_same (by decide) h
  · rename_i hshape
    have hdigits : digits.isdigit value = true := by simpa using (not_or.mp hshape).2
    cases hn : digits.int value with
    | none => exact ⟨rfl, rfl, hdigits, hn⟩
    | some n => exact ⟨by decide, ⟨h.1, h.2, n, rfl, hallowed n hdigits hn⟩, rfl, rfl⟩

theorem finishInterval_off (h : OffRange data) (window : WallTime × WallTime) :
    finishInterval padded window data = .error (.validation .interval, .wizard .window data) := by
  obtain ⟨n, hn, hoff⟩ := h
  rw [ProperStep] at hoff
  simp only [finishInterval, Option.mem_def.mp hn, stored, bind, Except.bind,
    buildIntervalSchedule, dif_neg hoff, built]

theorem finishInterval_eq {n : ℤ} (hevery : data.everyMinutes = some n) (hproper : ProperStep n)
    (window : WallTime × WallTime) : ∃ s : IntervalSchedule, (s.everyMinutes : ℤ) = n ∧
      finishInterval padded window data = toConfirmation padded (.interval s) data := by
  have hstep : 5 ≤ n.toNat ∧ n.toNat ≤ 1440 := by
    simp only [ProperStep, intervalMinMinutes, intervalMaxMinutes] at hproper
    omega
  refine ⟨⟨n.toNat, window.1, window.2, hstep⟩,
    Int.toNat_of_nonneg (le_trans (by decide) hproper.1), ?_⟩
  rw [ProperStep] at hproper
  simp only [finishInterval, hevery, stored, bind, Except.bind, buildIntervalSchedule,
    dif_pos hproper, built]

theorem settles_finishInterval (h : Answered padded allowed data .window) (window : WallTime × WallTime) :
    Settles padded allowed .window data (fun fault ↦ fault = .validation .interval ∧ OffRange data)
      (finishInterval padded window data) := by
  obtain ⟨hbased, hkind, n, hn, -⟩ := h
  by_cases hrange : ProperStep n
  · obtain ⟨s, hs, hstep⟩ := finishInterval_eq hn hrange window
    rw [hstep]
    exact settles_toConfirmation hbased (by rintro o ⟨⟩) (.interval hkind (hs ▸ hn))
  · have hoff : OffRange data := ⟨n, hn, hrange⟩
    rw [finishInterval_off hoff]
    exact ⟨rfl, rfl, hoff⟩

theorem isdigit_of_presetWindow {window : WallTime × WallTime}
    (h : presetWindow digits value = some window) : digits.isdigit value = true := by
  rw [presetWindow] at h
  split at h
  · rename_i hatom
    exact hatom.2
  · cases h

theorem settles_handleWindow (h : Answered padded allowed data .window) :
    Settles padded allowed .window data (fun fault ↦ fault = .validation .interval ∧
      (presetWindow digits value).isSome ∧ OffRange data) (handleWindow digits padded value data) := by
  rw [handleWindow]
  split
  · exact settles_same (by decide) h
  cases hwindow : presetWindow digits value with
  | none => exact settles_same (by decide) h
  | some window =>
    exact (settles_finishInterval h window).mono fun _ hfault ↦ ⟨hfault.1, rfl, hfault.2⟩

theorem settles_handleWindowText (h : Answered padded allowed data .window) :
    Settles padded allowed .window data (fun fault ↦ fault = .validation .interval ∧
      (∃ window, parseUserWindow digits raw = .ok window) ∧ OffRange data)
        (handleWindowText digits padded raw data) := by
  rw [handleWindowText]
  cases hwindow : parseUserWindow digits raw with
  | error error => exact settles_same (by decide) h
  | ok window =>
    exact (settles_finishInterval h window).mono fun _ hfault ↦ ⟨hfault.1, ⟨window, rfl⟩, hfault.2⟩

end Faults

section Routed

variable {digits : Digits} {padded : Bool} {allowed : ℤ → Prop} {lax : LaxInt} {titles : ℕ → Text} {db : Database}
  {now : ℤ} {userId : ℕ} {data : FsmData} {state : WizardState} {update : Update} {fault : Fault}
  {raises : Fault → Prop}

/-- The questions about the schedule. -/
def WizardState.asksSchedule : WizardState → Bool
  | .category | .title | .confirm => false
  | _ => true

/-- An update no handler of the wizard sees: it leads away from it. -/
def leaves : Update → Bool
  | .new | .elsewhere _ => true
  | .press step value => Manage.isCancel step value
  | _ => false

theorem horizon_todayOf (db : Database) (userId : ℕ) (hmodern : Modern now) : Horizon (todayOf db now userId) := by
  intro d hlow hhigh
  have hnear := todayOf_near db now userId
  exact year_of_horizon hmodern (by omega) (by omega)

/-- An answer that is let in only where it is asked for. -/
theorem settles_asked {p : Prop} [Decidable p] (out : Step)
    (hquestion : state ≠ .category ∧ state ≠ .title) (h : Answered padded allowed data state)
    (hout : p → Settles padded allowed state data raises out) : ∃ out' : Step,
      (if p then out.map (fun chat ↦ (db, chat)) else (.ok (db, .wizard state data) : Outcome)) =
        out'.map (fun chat ↦ (db, chat)) ∧ Settles padded allowed state data raises out' := by
  by_cases hp : p
  · exact ⟨out, if_pos hp, hout hp⟩
  · exact ⟨.ok (.wizard state data), if_neg hp, settles_same hquestion h⟩

theorem settles_press {step : String} {value : Text} (hmodern : Modern now)
    (hadmits : Admits digits allowed (.press step value))
    (hstate : state.asksSchedule = true) (h : Answered padded allowed data state)
    (hstays : Manage.isCancel step value = false) : ∃ out : Step,
      handle digits padded lax titles db now userId (.wizard state data) (.press step value) =
        out.map (fun chat ↦ (db, chat)) ∧ Settles padded allowed state data
          (Raises digits lax db now userId data state (.press step value)) out := by
  have htoday : Horizon (todayOf db now userId) := horizon_todayOf db userId hmodern
  simp only [handle, handlePress, hstays, Bool.false_eq_true, if_false]
  cases state with
  | category | title | confirm => cases hstate
  | kind =>
    exact settles_asked (.ok (handleKind value data)) (by decide) h fun _ ↦ onward_handleKind h
  | date =>
    exact settles_asked (.ok (handleDate _ value data)) (by decide) h fun _ ↦
      onward_handleDate htoday h
  | moment =>
    exact settles_asked (handleAt digits padded value data) (by decide) h fun _ ↦ settles_handleAt h
  | times =>
    by_cases hstep : step = "time"
    · rw [if_pos hstep]
      exact ⟨.ok (handleDailyTime digits value data), rfl, onward_handleDailyTime h⟩
    · rw [if_neg hstep]
      exact settles_asked (handleTimesDone digits padded data) (by decide) h fun _ ↦
        settles_handleTimesDone h
  | weekdays =>
    refine settles_asked (handleWeekdays digits value data) (by decide) h fun hstep ↦ ?_
    subst hstep
    refine (settles_handleWeekdays h).mono fun fault hfault ↦ ?_
    obtain ⟨rfl, hmisread⟩ := hfault
    exact .weekday hmisread
  | monthDays =>
    refine settles_asked (handleMonthDays digits value data) (by decide) h fun hstep ↦ ?_
    subst hstep
    refine (settles_handleMonthDays h).mono fun fault hfault ↦ ?_
    obtain ⟨rfl, hmisread⟩ := hfault
    exact .monthDay hmisread
  | onMissing =>
    exact settles_asked (.ok (handleMissingDay value data)) (by decide) h fun _ ↦
      onward_handleMissingDay h
  | everyMinutes =>
    refine settles_asked (handleInterval digits value data) (by decide) h fun hstep ↦ ?_
    subst hstep
    refine (settles_handleInterval (hadmits.pressed value · rfl) h).mono fun fault hfault ↦ ?_
    obtain ⟨rfl, hmisread⟩ := hfault
    exact .every hmisread
  | window =>
    refine settles_asked (handleWindow digits padded value data) (by decide) h fun hstep ↦ ?_
    subst hstep
    refine (settles_handleWindow h).mono fun fault hfault ↦ ?_
    obtain ⟨rfl, hread, hoff⟩ := hfault
    exact .window hread hoff

theorem settles_text {raw : Text} (hmodern : Modern now)
    (hadmits : Admits digits allowed (.text raw))
    (hstate : state.asksSchedule = true) (h : Answered padded allowed data state) : ∃ out : Step,
      handle digits padded lax titles db now userId (.wizard state data) (.text raw) =
        out.map (fun chat ↦ (db, chat)) ∧ Settles padded allowed state data
          (Raises digits lax db now userId data state (.text raw)) out := by
  have htoday : Horizon (todayOf db now userId) := horizon_todayOf db userId hmodern
  refine ⟨handleText digits padded (todayOf db now userId) raw state data, rfl, ?_⟩
  cases state with
  | category | title | confirm => cases hstate
  | date => exact onward_handleDateText htoday h
  | moment => exact settles_handleAtText h
  | times => exact onward_handleDailyTimeText h
  | everyMinutes => exact onward_handleIntervalText hadmits.typed h
  | window =>
    refine (settles_handleWindowText h).mono fun fault hfault ↦ ?_
    obtain ⟨rfl, ⟨window, hread⟩, hoff⟩ := hfault
    exact .windowText hread hoff
  | kind | weekdays | monthDays | onMissing => exact settles_same (by decide) h

/-- What a question about the schedule does with an update. -/
theorem settles_answer (lax : LaxInt) (titles : ℕ → Text) (db : Database) (userId : ℕ)
    (hmodern : Modern now) (hadmits : Admits digits allowed update) (hstate : state.asksSchedule = true)
    (h : Answered padded allowed data state) (hstays : leaves update = false) :
    ∃ out : Step, handle digits padded lax titles db now userId (.wizard state data) update =
        out.map (fun chat ↦ (db, chat)) ∧
      Settles padded allowed state data (Raises digits lax db now userId data state update) out := by
  have hquestion : state ≠ .category ∧ state ≠ .title := by
    constructor <;> rintro rfl <;> cases hstate
  cases update with
  | press step value => exact settles_press hmodern hadmits hstate h hstays
  | text raw => exact settles_text hmodern hadmits hstate h
  | new | elsewhere form => cases hstays
  | field reminderId field | scheduled schedule =>
    exact ⟨.ok (.wizard state data), rfl, settles_same hquestion h⟩
  | pick categoryId =>
    cases state with
    | category => cases hstate
    | _ => exact ⟨.ok (.wizard _ data), rfl, settles_same hquestion h⟩

/-- The service is called with the schedule that was kept. -/
theorem exists_handleConfirm (digits : Digits) (lax : LaxInt) (db : Database) (now : ℤ) (userId : ℕ)
    (h : Answered padded allowed data .confirm) : ∃ schedule : Schedule,
    data.schedule = some (dumpSchedule padded schedule) ∧
    parseSchedule digits lax (dumpSchedule padded schedule) = some schedule ∧
      handleConfirm digits lax db now userId data = answered db data
        (Manage.confirmed db now userId data.editReminderId (data.categoryId.getD 0) schedule) := by
  obtain ⟨hbased, schedule, hkept, hwritten, -⟩ := h
  obtain ⟨categoryId, hcategory⟩ := Option.isSome_iff_exists.mp hbased.1
  obtain ⟨title, htitle⟩ := Option.isSome_iff_exists.mp hbased.2
  have hread : parseSchedule digits lax (dumpSchedule padded schedule) = some schedule :=
    parseSchedule_dumpSchedule hwritten
  refine ⟨schedule, hkept, hread, ?_⟩
  cases hediting : data.editReminderId with
  | none => simp only [handleConfirm, callConfirmed, hediting, hcategory, htitle, hkept, hread, stored,
      parsed, bind, Except.bind, pure, Except.pure, Option.getD_some]
  | some reminderId => simp only [handleConfirm, callConfirmed, hediting, hkept, hread, stored, parsed,
      bind, Except.bind, pure, Except.pure, Manage.confirmed]

end Routed

section Elsewhere

variable {digits : Digits} {db db' : Database} {now : ℤ} {userId reminderId : ℕ}
  {conversation conversation' : Conversation} {α : Type}

/-- A handler of another screen stays on those screens. -/
def StaysForeign (out : Manage.Outcome) : Prop :=
  ∀ db' conversation', out = .ok (db', conversation') → Foreign conversation'

theorem staysForeign_ok (h : Foreign conversation) : StaysForeign (.ok (db, conversation)) := by
  rintro _ _ ⟨⟩
  exact h

theorem staysForeign_bind {x : Except ServiceError α} {f : α → Manage.Outcome}
    (h : ∀ a, StaysForeign (f a)) : StaysForeign (x >>= f) := by
  intro db' conversation' hout
  obtain ⟨a, -, hf⟩ := bind_eq_ok.mp hout
  exact h a db' conversation' hf

theorem staysForeign_saved {change : Reminders.Change} :
    StaysForeign (Manage.saved db now userId reminderId change) :=
  staysForeign_bind fun _ ↦ staysForeign_ok trivial

theorem staysForeign_refused {question : Manage.Question} :
    StaysForeign (Manage.refused db userId question reminderId) :=
  staysForeign_bind fun _ ↦ staysForeign_ok trivial

theorem staysForeign_handlePress {step : String} {value : Text} (h : Foreign conversation) :
    StaysForeign (Manage.handlePress digits db now userId step value conversation) := by
  cases conversation with
  | idle | other => exact staysForeign_ok trivial
  | edit question reminderId =>
    rw [Manage.handlePress]
    split
    · exact staysForeign_ok trivial
    split
    · rw [Manage.handleNoteClear]
      split
      · exact staysForeign_saved
      · exact staysForeign_ok trivial
    split
    · rw [Manage.handleSnooze]
      split
      · exact staysForeign_ok trivial
      split
      · exact staysForeign_ok trivial
      · exact staysForeign_bind fun _ ↦ staysForeign_saved
    split
    · rw [Manage.handleRepeat]
      split
      · exact staysForeign_ok trivial
      split
      · exact staysForeign_saved
      split
      · exact staysForeign_bind fun _ ↦ staysForeign_saved
      · exact staysForeign_ok trivial
    · exact staysForeign_ok trivial
  | _ => cases h

theorem staysForeign_handlePick {categoryId : ℕ} (h : Foreign conversation) :
    StaysForeign (Manage.handlePick db now userId categoryId conversation) := by
  cases conversation with
  | idle | other => exact staysForeign_ok trivial
  | edit question reminderId =>
    cases question with
    | category => exact staysForeign_saved
    | _ => exact staysForeign_ok trivial
  | _ => cases h

theorem staysForeign_handleText {raw : Text} (h : Foreign conversation) :
    StaysForeign (Manage.handleText digits db now userId raw conversation) := by
  cases conversation with
  | idle | other => exact staysForeign_ok trivial
  | edit question reminderId =>
    cases question with
    | title =>
      rw [Manage.handleText, Manage.handleTitle]
      split
      · exact staysForeign_refused
      · exact staysForeign_saved
    | note =>
      rw [Manage.handleText, Manage.handleNote]
      split
      · exact staysForeign_refused
      · exact staysForeign_saved
    | category => exact staysForeign_ok trivial
    | snooze =>
      rw [Manage.handleText, Manage.handleSnoozeText]
      split
      · exact staysForeign_ok trivial
      · exact staysForeign_saved
    | repeats =>
      rw [Manage.handleText, Manage.handleRepeatText]
      split
      · exact staysForeign_ok trivial
      · exact staysForeign_saved
  | _ => cases h

end Elsewhere

section Kept

variable {digits : Digits} {padded : Bool} {allowed : ℤ → Prop} {lax : LaxInt} {titles : ℕ → Text} {db db' : Database}
  {now : ℤ} {userId : ℕ} {data : FsmData} {state : WizardState} {chat chat' left : Chat}
  {conversation : Conversation} {update : Update} {fault : Fault}

theorem Onward.kept (h : Onward padded allowed data chat) : Kept padded allowed chat := by
  cases chat with
  | wizard state data' => exact h.2.1
  | elsewhere conversation => cases h

/-- A handler keeps the answers in order, and what it raises it raises with the
chat as it was. -/
def Keeps (padded : Bool) (allowed : ℤ → Prop) (chat : Chat) : Outcome → Prop
  | .ok (_, chat') => Kept padded allowed chat'
  | .error (_, left) => left = chat

theorem keeps_outside {out : Manage.Outcome} (h : StaysForeign out) :
    Keeps padded allowed (.elsewhere conversation) (outside conversation out) := by
  cases out with
  | ok result => exact h _ _ rfl
  | error error => exact rfl

theorem keeps_handleEditField {reminderId : ℕ} {field : EditField} :
    Keeps padded allowed (.elsewhere conversation)
      (handleEditField titles db userId reminderId field conversation) := by
  cases field with
  | schedule =>
    rw [handleEditField]
    split
    · exact ⟨rfl, rfl⟩
    · exact rfl
  | menu | ask question => exact keeps_outside (staysForeign_bind fun _ ↦ staysForeign_ok trivial)

theorem keeps_confirm (h : Answered padded allowed data .confirm) :
    Keeps padded allowed (.wizard .confirm data) (handleConfirm digits lax db now userId data) := by
  obtain ⟨schedule, -, -, hcall⟩ := exists_handleConfirm digits lax db now userId h
  rw [hcall]
  unfold answered
  split
  · exact trivial
  · exact h
  · exact rfl

theorem keeps_leaving (hleaves : leaves update = true) :
    Keeps padded allowed (.wizard state data)
      (handle digits padded lax titles db now userId (.wizard state data) update) := by
  cases update with
  | new => exact rfl
  | elsewhere form => cases form <;> exact trivial
  | press step value =>
    have hcancel : Manage.isCancel step value = true := hleaves
    simp only [handle, handlePress, hcancel, if_true]
    exact trivial
  | _ => cases hleaves

theorem kept_handleTitle {raw : Text} (h : Answered padded allowed data .title) :
    Kept padded allowed (handleTitle raw data) := by
  rw [handleTitle]
  split
  · exact h
  · exact ⟨h.2, rfl⟩

/-- The first two questions and the last one. -/
theorem ends_answer (digits : Digits) (lax : LaxInt) (titles : ℕ → Text) (db : Database) (now : ℤ)
    (userId : ℕ) (hstate : state.asksSchedule = false) (h : Answered padded allowed data state)
    (hstays : leaves update = false) :
    (∃ chat', handle digits padded lax titles db now userId (.wizard state data) update =
        .ok (db, chat') ∧ Kept padded allowed chat') ∨
      state = .confirm ∧ update = .press "confirm" "yes".toList ∧
        handle digits padded lax titles db now userId (.wizard state data) update =
          handleConfirm digits lax db now userId data := by
  cases update with
  | new | elsewhere form => cases hstays
  | field reminderId field | scheduled schedule => exact .inl ⟨_, rfl, h⟩
  | pick categoryId =>
    cases state with
    | category => exact .inl ⟨_, rfl, h, rfl⟩
    | title | confirm => exact .inl ⟨_, rfl, h⟩
    | _ => cases hstate
  | text raw =>
    cases state with
    | title => exact .inl ⟨_, rfl, kept_handleTitle h⟩
    | category | confirm => exact .inl ⟨_, rfl, h⟩
    | _ => cases hstate
  | press step value =>
    have hgo : Manage.isCancel step value = false := hstays
    simp only [handle, handlePress, hgo, Bool.false_eq_true, if_false]
    cases state with
    | category | title => exact .inl ⟨_, rfl, h⟩
    | confirm =>
      by_cases hpress : step = "confirm" ∧ value = "yes".toList
      · obtain ⟨rfl, rfl⟩ := hpress
        exact .inr ⟨rfl, rfl, if_pos ⟨rfl, rfl⟩⟩
      · exact .inl ⟨_, if_neg hpress, h⟩
    | _ => cases hstate

theorem keeps_elsewhere (h : Foreign conversation) : Keeps padded allowed (.elsewhere conversation)
    (handle digits padded lax titles db now userId (.elsewhere conversation) update) := by
  cases update with
  | new => exact rfl
  | elsewhere form => cases form <;> exact trivial
  | press step value => exact keeps_outside (staysForeign_handlePress h)
  | pick categoryId => exact keeps_outside (staysForeign_handlePick h)
  | text raw => exact keeps_outside (staysForeign_handleText h)
  | field reminderId field =>
    rw [handle]
    split
    · exact keeps_handleEditField
    · exact h
  | scheduled schedule => exact h

/-- The chat of any update is one whose answers are in order. -/
theorem keeps_handle (hmodern : Modern now)
    (hadmits : ∀ state data, chat = .wizard state data → Admits digits allowed update)
    (h : Kept padded allowed chat) :
    Keeps padded allowed chat (handle digits padded lax titles db now userId chat update) := by
  cases chat with
  | elsewhere conversation => exact keeps_elsewhere h
  | wizard state data =>
    have hadmits : Admits digits allowed update := hadmits state data rfl
    cases hleaves : leaves update with
    | true => exact keeps_leaving hleaves
    | false =>
      cases hstate : state.asksSchedule with
      | true =>
        obtain ⟨out, hout, hsettles⟩ :=
          settles_answer lax titles db userId hmodern hadmits hstate h hleaves
        rw [hout]
        cases out with
        | ok chat => exact hsettles.kept
        | error raised => exact hsettles.1
      | false =>
        obtain ⟨chat', hout, hkept⟩ | ⟨rfl, -, hout⟩ :=
          ends_answer digits lax titles db now userId hstate h hleaves
        · rw [hout]
          exact hkept
        · rw [hout]
          exact keeps_confirm h

theorem handle_leaving (digits : Digits) (padded : Bool) (lax : LaxInt) (titles : ℕ → Text)
    (db : Database) (now : ℤ) (userId : ℕ) (state : WizardState) (data : FsmData)
    (hleaves : leaves update = true) : ∃ chat',
    handle digits padded lax titles db now userId (.wizard state data) update = .ok (db, chat') := by
  cases update with
  | new | elsewhere form => exact ⟨_, rfl⟩
  | press step value =>
    have hcancel : Manage.isCancel step value = true := hleaves
    simp only [handle, handlePress, hcancel, if_true]
    exact ⟨_, rfl⟩
  | _ => cases hleaves

theorem answered_eq_error {call : Except ServiceError Database}
    (h : answered db data call = .error (fault, left)) :
    ∃ error, call = .error error ∧ error ≠ .scheduleExhausted ∧ fault = .service error := by
  unfold answered at h
  split at h
  · cases h
  · cases h
  · rename_i error hother
    cases h
    exact ⟨error, rfl, hother, rfl⟩

/-- What is raised at the last question is an error of the service. -/
theorem raises_confirm (h : Answered padded allowed data .confirm)
    (herror : handleConfirm digits lax db now userId data = .error (fault, left)) :
    Raises digits lax db now userId data .confirm (.press "confirm" "yes".toList) fault := by
  obtain ⟨schedule, hkept, hread, hcall⟩ :=
    exists_handleConfirm digits lax db now userId h
  rw [hcall] at herror
  obtain ⟨error, hcall, hother, rfl⟩ := answered_eq_error herror
  exact .refused hkept hread hcall hother

theorem raises_of_error (hmodern : Modern now) (hadmits : Admits digits allowed update) (h : Answered padded allowed data state)
    (herror : handle digits padded lax titles db now userId (.wizard state data) update =
      .error (fault, left)) : Raises digits lax db now userId data state update fault := by
  cases hleaves : leaves update with
  | true =>
    obtain ⟨chat', hok⟩ :=
      handle_leaving digits padded lax titles db now userId state data hleaves
    cases hok.symm.trans herror
  | false =>
    cases hstate : state.asksSchedule with
    | true =>
      obtain ⟨out, hout, hsettles⟩ :=
          settles_answer lax titles db userId hmodern hadmits hstate h hleaves
      rw [hout] at herror
      cases out with
      | ok chat => cases herror
      | error raised =>
        cases herror
        exact hsettles.2
    | false =>
      obtain ⟨chat', hout, -⟩ | ⟨rfl, rfl, hout⟩ :=
          ends_answer digits lax titles db now userId hstate h hleaves
      · cases hout.symm.trans herror
      · exact raises_confirm h (hout.symm.trans herror)

theorem handleDays_misread (question : DayQuestion) {value : Text} (h : Misread digits value) :
    handleDays digits question value data = .error (.valueError, .wizard question.state data) := by
  have hok : value ≠ "ok".toList := h.ne (c := 'o') (by decide) (by decide) (by decide)
  rw [handleDays, if_neg hok, presetDay_misread h]
  rfl

theorem handleInterval_misread {value : Text} (h : Misread digits value) :
    handleInterval digits value data = .error (.valueError, .wizard .everyMinutes data) := by
  have hman : value ≠ "man".toList := h.ne (c := 'm') (by decide) (by decide) (by decide)
  rw [handleInterval, if_neg (not_or.mpr ⟨hman, by simp [h.1]⟩), h.2]
  rfl

theorem handleWindow_off {value : Text} (hread : (presetWindow digits value).isSome)
    (h : OffRange data) : handleWindow digits padded value data =
      .error (.validation .interval, .wizard .window data) := by
  obtain ⟨window, hwindow⟩ := Option.isSome_iff_exists.mp hread
  have hman : value ≠ "man".toList := Manage.ne_of_isdigit (c := 'm')
    (isdigit_of_presetWindow hwindow) (by decide) (by decide) (by decide)
  rw [handleWindow, if_neg hman, hwindow]
  exact finishInterval_off h window

theorem error_of_raises (h : Answered padded allowed data state)
    (hraises : Raises digits lax db now userId data state update fault) :
    handle digits padded lax titles db now userId (.wizard state data) update =
      .error (fault, .wizard state data) := by
  cases hraises with
  | weekday misread =>
    simp only [handle, handlePress, Manage.isCancel, handleWeekdays, handleDays_misread _ misread]
    rfl
  | monthDay misread =>
    simp only [handle, handlePress, Manage.isCancel, handleMonthDays, handleDays_misread _ misread]
    rfl
  | every misread =>
    simp only [handle, handlePress, Manage.isCancel, handleInterval_misread misread]
    rfl
  | window read off =>
    simp only [handle, handlePress, Manage.isCancel, handleWindow_off read off]
    rfl
  | windowText read off =>
    simp only [handle, handleText, handleWindowText, read, finishInterval_off off]
    rfl
  | refused kept read call other =>
    obtain ⟨schedule, hkept, hread, hcall⟩ :=
      exists_handleConfirm digits lax db now userId h
    obtain rfl := Option.some_inj.mp (kept.symm.trans hkept)
    obtain rfl := Option.some_inj.mp (read.symm.trans hread)
    have hpress : handle digits padded lax titles db now userId (.wizard .confirm data)
        (.press "confirm" "yes".toList) = handleConfirm digits lax db now userId data := rfl
    rw [hpress, hcall, call]
    unfold answered
    split
    · rename_i hok
      cases hok
    · rename_i hexhausted
      exact absurd (Except.error.inj hexhausted) other
    · rename_i hother
      rw [Except.error.inj hother]

end Kept

end Remindo.Bot.Reminders
