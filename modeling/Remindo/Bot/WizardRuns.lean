import Remindo.Bot.Keyboards
import Remindo.Foundation.Runs
import Remindo.Services.Coverage

namespace Remindo.Bot.Reminders

open Remindo.Domain Remindo.Db Remindo.Services Remindo.Foundation
open Remindo.Bot.Manage (Conversation Update)

/-- An update with the database and the time it finds: what happens between two
updates of a chat is left open. -/
structure Moment where
  db : Database
  titles : ℕ → Text
  now : ℤ
  update : Update

section Runs

variable (digits : Digits) (padded : Bool) (lax : LaxInt) (userId : ℕ)

def leftBehind : Outcome → Chat
  | .ok (_, chat) => chat
  | .error (_, chat) => chat

/-- One update of the chat. Whatever it raises, the chat takes the next one. -/
def turn (chat : Chat) (m : Moment) : Option Chat :=
  some (leftBehind (handle digits padded lax m.titles m.db m.now userId chat m.update))

/-- The updates lead to the last question, each off the screen it is shown on,
whatever the database and the clock say by then. -/
def Leads : List Update → Chat → Prop
  | [], chat => ∃ data, chat = .wizard .confirm data
  | update :: updates, chat => (Offered chat update ∧ leaves update = false) ∧
      ∀ db titles now, Modern now → ∃ chat',
        handle digits padded lax titles db now userId chat update = .ok (db, chat') ∧
          Leads updates chat'

variable {digits padded lax userId} {allowed : ℤ → Prop} {chat chat' : Chat} {m : Moment}
  {moments : List Moment} {data : FsmData} {state : WizardState}

theorem admits_all {update : Update} : Admits digits (fun _ ↦ True) update :=
  ⟨fun _ _ ↦ trivial, fun _ _ _ _ _ ↦ trivial⟩

theorem kept_leftBehind {out : Outcome} (hkept : Kept padded allowed chat)
    (h : Keeps padded allowed chat out) : Kept padded allowed (leftBehind out) := by
  cases out with
  | ok result => exact h
  | error raised =>
    have hleft : raised.2 = chat := h
    rw [leftBehind, hleft]
    exact hkept

/-- In a run of any updates the answers are in order. -/
theorem kept_run (hmodern : ∀ m ∈ moments, Modern m.now)
    (hrun : run (turn digits padded lax userId) (.elsewhere .idle) moments = some chat) :
    Kept padded (fun _ ↦ True) chat := by
  have hguard : Guarded (turn digits padded lax userId) (fun _ m ↦ Modern m.now)
      (.elsewhere .idle) moments := .of_mem hmodern
  refine run_invariant (fun chat m chat' hkept hmodern hturn ↦ ?_) hguard hrun trivial
  cases hturn
  exact kept_leftBehind hkept (keeps_handle hmodern (fun _ _ _ ↦ admits_all) hkept)

/-- The row a confirmation leaves, and no other. -/
theorem confirmed_row {db db' : Database} {now : ℤ} {editing : Option ℕ} {categoryId : ℕ}
    {schedule : Schedule}
    (h : Manage.confirmed db now userId editing categoryId schedule = .ok db') :
    ∃ rid r, db'.reminders rid = some r ∧ (r.ownerId = userId ∧ r.schedule = schedule) ∧
      (∀ reminderId ∈ editing, rid = reminderId) ∧
      (editing = none → db.reminders rid = none ∧ r.categoryId = categoryId) ∧
        ∀ j, j ≠ rid → db'.reminders j = db.reminders j := by
  cases editing with
  | none =>
    obtain ⟨user, -, hcreate⟩ := bind_eq_ok.mp h
    obtain ⟨-, rfl⟩ := Reminders.create_eq_ok hcreate
    generalize hdraft : Reminders.reminderRow userId _ _ = row
    have hrow : ∀ j, ((db.run (Db.Reminders.add row)).run
          (Recipients.add ⟨db.reminders.next, userId, .owner, some now⟩)).reminders j =
        if j < db.reminders.next then db.reminders j else [row][j - db.reminders.next]? :=
      fun j ↦ Table.writes_insert ..
    refine ⟨db.reminders.next, row, (hrow _).trans ?_, ?_, by simp, fun _ ↦ ⟨?_, ?_⟩, fun j hj ↦ ?_⟩
    · rw [if_neg (lt_irrefl _), Nat.sub_self]
      rfl
    · subst hdraft
      exact ⟨rfl, rfl⟩
    · exact db.reminders.fresh _ le_rfl
    · subst hdraft
      rfl
    · refine (hrow j).trans ?_
      split
      · rfl
      · rw [db.reminders.fresh j (by omega), List.getElem?_eq_none]
        rw [List.length_singleton]
        omega
  | some reminderId =>
    obtain ⟨r, hr, -, hupdated⟩ := Reminders.update_eq_ok h
    obtain ⟨hrow, howner, -⟩ := Reminders.getEditable_eq_ok hr
    obtain ⟨fired, hdropped⟩ := Reminders.dropQueued_row (r := r) hrow
    generalize hchange : { Manage.untouched with schedule := some schedule } = change at hupdated
    have hschedule : change.schedule = some schedule := by rw [← hchange]
    rw [hschedule, Option.isSome_some, if_pos rfl] at hupdated
    subst hupdated
    refine ⟨reminderId, Reminders.changed change { r with plannedUntil := none, firedCount := fired },
      ?_, ⟨howner, ?_⟩, by simp, by simp, fun j hj ↦ ?_⟩
    · rw [Db.Reminders.reminders_updateFields, if_pos rfl, hdropped]
      rfl
    · rw [Reminders.changed, hschedule, Option.getD_some]
    · rw [Db.Reminders.reminders_updateFields, if_neg hj, Reminders.dropQueued_reminders, if_neg hj]

end Runs

section Leading

variable {digits : Digits} {padded : Bool} {lax : LaxInt} {userId : ℕ}
  {allowed : ℤ → Prop} {data : FsmData} {state : WizardState}

theorem leads_confirm (data : FsmData) :
    Leads digits padded lax userId [] (.wizard .confirm data) := ⟨data, rfl⟩

/-- A button whose effect is the same at all times. -/
theorem leads_press {step : String} {value : Text} {chat : Chat} {updates : List Update}
    (hbutton : (step, value) ∈ buttons state) (hstays : Manage.isCancel step value = false)
    (hpress : ∀ db titles now, handle digits padded lax titles db now userId (.wizard state data)
      (.press step value) = .ok (db, chat))
    (hrest : Leads digits padded lax userId updates chat) :
    Leads digits padded lax userId (.press step value :: updates) (.wizard state data) :=
  ⟨⟨.inl hbutton, hstays⟩, fun db titles now _ ↦ ⟨chat, hpress db titles now, hrest⟩⟩

/-- A button that ends the questions. -/
theorem leads_last {step : String} {value : Text} (schedule : Schedule) (hbased : Based data)
    (hbutton : (step, value) ∈ buttons state) (hstays : Manage.isCancel step value = false)
    (hpress : ∀ db titles now, handle digits padded lax titles db now userId (.wizard state data)
      (.press step value) = (toConfirmation padded schedule data).map fun chat ↦ (db, chat)) :
    Leads digits padded lax userId [.press step value] (.wizard state data) := by
  refine leads_press hbutton hstays (fun db titles now ↦ ?_)
    (leads_confirm { data with schedule := some (dumpSchedule padded schedule) })
  rw [hpress, toConfirmation_eq schedule hbased]
  rfl

theorem presetTime_seven (digits : Digits) : presetTime digits "0700".toList = some ⟨7, 0⟩ := by
  have hformat : unpackWallTime "0700".toList = formatHhmm ⟨7, 0⟩ := by decide
  rw [presetTime, hformat, parseHhmm_formatHhmm]

theorem leads_timesDone (h : Answered padded allowed data .times) (hne : storedTimes data ≠ []) :
    Leads digits padded lax userId [.press "times" "ok".toList] (.wizard .times data) := by
  obtain ⟨hbased, htimes, hruled⟩ := h
  obtain ⟨s, hs, -⟩ := scheduleFrom_eq_ok digits padded (.wizard .times data) htimes hne hruled
  have hdone : handleTimesDone digits padded data = toConfirmation padded s data := by
    rw [handleTimesDone, if_neg hne, hs]
    rfl
  refine leads_last s hbased (by decide) rfl fun db titles now ↦ ?_
  rw [← hdone]
  rfl

/-- With no time chosen yet, one comes first. -/
theorem leads_times (h : Answered padded allowed data .times) (hnone : storedTimes data = []) :
    Leads digits padded lax userId
      [.press "time" "0700".toList, .press "times" "ok".toList] (.wizard .times data) := by
  have hnext : toggleTime ⟨7, 0⟩ data =
      .wizard .times { data with times := some [formatHhmm ⟨7, 0⟩] } := by
    simp [toggleTime, isFull, hnone, toggle, toggled, timesMaxLength]
  have hkept : Onward padded allowed data (toggleTime ⟨7, 0⟩ data) := onward_toggleTime _ h
  rw [hnext] at hkept
  refine leads_press (by decide) rfl (fun db titles now ↦ ?_)
    (leads_timesDone hkept.2.1 (by simp [storedTimes]))
  have hpress : handle digits padded lax titles db now userId (.wizard .times data)
      (.press "time" "0700".toList) = .ok (db, handleDailyTime digits "0700".toList data) := rfl
  rw [hpress, handleDailyTime, if_neg (by decide), presetTime_seven, ← hnext]

theorem exists_leads_times (h : Answered padded allowed data .times) : ∃ updates : List Update,
    updates.length ≤ 2 ∧ Leads digits padded lax userId updates (.wizard .times data) := by
  by_cases hnone : storedTimes data = []
  · exact ⟨_, le_rfl, leads_times h hnone⟩
  · exact ⟨_, by simp, leads_timesDone h hnone⟩

theorem leads_moment (h : Answered padded allowed data .moment) :
    Leads digits padded lax userId [.press "at" "0700".toList] (.wizard .moment data) := by
  obtain ⟨hbased, -, d, hdate, hyear⟩ := h
  refine leads_last (buildOnceSchedule d ⟨7, 0⟩) hbased (by decide) rfl fun db titles now ↦ ?_
  have hpress : handle digits padded lax titles db now userId (.wizard .moment data)
      (.press "at" "0700".toList) =
        (handleAt digits padded "0700".toList data).map fun chat ↦ (db, chat) := rfl
  rw [hpress, handleAt, if_neg (by decide), presetTime_seven, ← finishOnce_eq _ hdate hyear]

/-- The date depends on the day of the press. -/
theorem leads_date (h : Answered padded allowed data .date) :
    Leads digits padded lax userId
      [.press "date" "today".toList, .press "at" "0700".toList] (.wizard .date data) := by
  refine ⟨⟨.inl (by decide), rfl⟩, fun db titles now hnow ↦ ?_⟩
  have hyear := horizon_todayOf db userId hnow _ le_rfl (by simp [wizardMaxDaysAhead])
  exact ⟨rememberDate (todayOf db now userId) data, rfl, 
    leads_moment (onward_rememberDate h hyear).2.1⟩

theorem leads_window (h : Answered padded ProperStep data .window) :
    Leads digits padded lax userId [.press "window" "08002200".toList]
      (.wizard .window data) := by
  obtain ⟨hbased, -, n, hn, hproper⟩ := h
  have hdigits : digits.isdigit "08002200".toList = true := isdigit_of_isDigit (by decide) (by simp)
  have hstart : unpackWallTime ("08002200".toList.take 4) = formatHhmm ⟨8, 0⟩ := by decide
  have hstop : unpackWallTime ("08002200".toList.drop 4) = formatHhmm ⟨22, 0⟩ := by decide
  have hwindow : presetWindow digits "08002200".toList = some (⟨8, 0⟩, ⟨22, 0⟩) := by
    rw [presetWindow, if_pos ⟨rfl, hdigits⟩, show "08002200".toList.length / 2 = 4 from rfl, hstart,
      hstop, parseHhmm_formatHhmm, parseHhmm_formatHhmm]
    rfl
  obtain ⟨s, -, hs⟩ := finishInterval_eq hn hproper (⟨8, 0⟩, ⟨22, 0⟩)
  refine leads_last (.interval s) hbased (by decide) rfl fun db titles now ↦ ?_
  have hpress : handle digits padded lax titles db now userId (.wizard .window data)
      (.press "window" "08002200".toList) =
        (handleWindow digits padded "08002200".toList data).map fun chat ↦ (db, chat) := rfl
  rw [hpress, handleWindow, if_neg (by decide), hwindow, ← hs]

theorem leads_everyMinutes (h : Answered padded allowed data .everyMinutes) :
    Leads digits padded lax userId
      [.press "every" "30".toList, .press "window" "08002200".toList]
      (.wizard .everyMinutes data) := by
  have hdigits : digits.isdigit "30".toList = true := isdigit_of_isDigit (by decide) (by simp)
  have hread : ¬("30".toList = "man".toList ∨ digits.isdigit "30".toList = false) := by
    rw [hdigits]
    decide
  have hint : digits.int "30".toList = some 30 := int_toDigits digits 30
  have hnext : Answered padded ProperStep { data with everyMinutes := some 30 } .window :=
    ⟨h.1, h.2, 30, rfl, by decide⟩
  refine leads_press (by decide) rfl (fun db titles now ↦ ?_) (leads_window hnext)
  have hpress : handle digits padded lax titles db now userId (.wizard .everyMinutes data)
      (.press "every" "30".toList) =
        (handleInterval digits "30".toList data).map fun chat ↦ (db, chat) := rfl
  rw [hpress, handleInterval, if_neg hread, hint]
  rfl

theorem presetDay_one (digits : Digits) (left : Chat) {high : ℕ} (hhigh : 1 ≤ high) :
    presetDay digits left "1".toList high = .ok (some 1) := by
  have hdigits : digits.isdigit "1".toList = true := isdigit_of_isDigit (by decide) (by simp)
  have hint : digits.int "1".toList = some 1 := int_toDigits digits 1
  rw [presetDay, if_pos hdigits, hint]
  simp [parsed, bind, Except.bind, pure, Except.pure, hhigh]

/-- The screen of a question about days shows them with `ok`, and what is pressed
there reaches its handler. -/
structure DayQuestion.IsAsked (digits : Digits) (padded : Bool) (lax : LaxInt) (userId : ℕ)
    (question : DayQuestion) (step : String) : Prop where
  day : (step, "1".toList) ∈ buttons question.state
  done : (step, "ok".toList) ∈ buttons question.state
  stays : ∀ value, Manage.isCancel step value = false
  handled : ∀ value data db titles now, handle digits padded lax titles db now userId
    (.wizard question.state data) (.press step value) =
      (handleDays digits question value data).map fun chat ↦ (db, chat)
  one : 1 ≤ question.high
  chosen : ∀ days data, question.chosen (question.choose days data) = some days

section Days

variable {question : DayQuestion} {step : String} {updates : List Update}

theorem leads_daysDone (hasked : question.IsAsked digits padded lax userId step)
    (hne : storedDays (question.chosen data) ≠ [])
    (hrest : Leads digits padded lax userId updates (question.onward data)) :
    Leads digits padded lax userId (.press step "ok".toList :: updates)
      (.wizard question.state data) := by
  refine leads_press hasked.done (hasked.stays _) (fun db titles now ↦ ?_) hrest
  rw [hasked.handled, handleDays, if_pos rfl, if_neg hne]
  rfl

/-- With no day chosen yet, one comes first. -/
theorem leads_days (hasked : question.IsAsked digits padded lax userId step)
    (hnone : storedDays (question.chosen data) = [])
    (hrest : Leads digits padded lax userId updates (.wizard question.state (question.choose [1] data))) :
    Leads digits padded lax userId (.press step "1".toList :: updates)
      (.wizard question.state data) := by
  have htoggle : toggleDay (storedDays (question.chosen data)) 1 = [1] := by
    simp [toggleDay, toggled, hnone]
  refine leads_press hasked.day (hasked.stays _) (fun db titles now ↦ ?_) hrest
  rw [hasked.handled, handleDays, if_neg (by decide), presetDay_one _ _ hasked.one]
  dsimp only [bind, Except.bind]
  rw [htoggle]
  rfl

theorem exists_leads_days (hasked : question.IsAsked digits padded lax userId step)
    (h : Answered padded allowed data question.state)
    (hone : Answered padded allowed (question.choose [1] data) question.state)
    (hrest : ∀ data, Answered padded allowed data question.state →
      storedDays (question.chosen data) ≠ [] →
        Leads digits padded lax userId updates (question.onward data)) :
    ∃ all : List Update, all.length ≤ updates.length + 2 ∧
      Leads digits padded lax userId all (.wizard question.state data) := by
  by_cases hnone : storedDays (question.chosen data) = []
  · have hchosen : storedDays (question.chosen (question.choose [1] data)) ≠ [] := by
      rw [hasked.chosen]
      exact List.cons_ne_nil _ _
    exact ⟨_, by simp, leads_days hasked hnone (leads_daysDone hasked hchosen (hrest _ hone hchosen))⟩
  · exact ⟨_, by simp, leads_daysDone hasked hnone (hrest _ h hnone)⟩

theorem weekdaysQuestion_isAsked :
    weekdaysQuestion.IsAsked digits padded lax userId "wday" where
  day := by decide
  done := by decide
  stays _ := rfl
  handled _ _ _ _ _ := rfl
  one := by decide
  chosen _ _ := rfl

theorem monthDaysQuestion_isAsked :
    monthDaysQuestion.IsAsked digits padded lax userId "mday" where
  day := by decide
  done := by decide
  stays _ := rfl
  handled _ _ _ _ _ := rfl
  one := by decide
  chosen _ _ := rfl

theorem exists_leads_weekdays (h : Answered padded allowed data .weekdays) : ∃ updates : List Update,
    updates.length ≤ 4 ∧ Leads digits padded lax userId updates (.wizard .weekdays data) := by
  have hone : Answered padded allowed { data with weekdays := some [1] } .weekdays :=
    ⟨h.1, h.2.1, by simp [IsDays, storedDays, weekdaysMaxLength]⟩
  have hrest : ∀ data, Answered padded allowed data .weekdays → storedDays data.weekdays ≠ [] →
      Leads digits padded lax userId [.press "time" "0700".toList, .press "times" "ok".toList]
        (.wizard .times { data with times := some [] }) := by
    intro data h hne
    have hnext : Answered padded allowed { data with times := some [] } .times :=
      ⟨h.1, isTimes_nil, .weekly h.2.1 h.2.2 hne⟩
    exact leads_times hnext rfl
  exact exists_leads_days weekdaysQuestion_isAsked h hone hrest

end Days

theorem leads_onMissing (h : Answered padded allowed data .onMissing) :
    Leads digits padded lax userId
      [.press "miss" "last".toList, .press "time" "0700".toList, .press "times" "ok".toList]
      (.wizard .onMissing data) := by
  obtain ⟨hbased, hkind, hdays, hne⟩ := h
  have hnext : Answered padded allowed
      { data with onMissing := some OnMissingDay.lastDay.value, times := some [] } .times :=
    ⟨hbased, isTimes_nil, .monthly hkind hdays hne .lastDay rfl⟩
  exact leads_press (by decide) rfl (fun db titles now ↦ rfl) (leads_times hnext rfl)

theorem exists_leads_monthDays (h : Answered padded allowed data .monthDays) :
    ∃ updates : List Update, updates.length ≤ 5 ∧
      Leads digits padded lax userId updates (.wizard .monthDays data) := by
  have hone : Answered padded allowed { data with monthDays := some [1] } .monthDays :=
    ⟨h.1, h.2.1, by simp [IsDays, storedDays, monthDaysMaxLength]⟩
  have hrest : ∀ data, Answered padded allowed data .monthDays → storedDays data.monthDays ≠ [] →
      Leads digits padded lax userId
        [.press "miss" "last".toList, .press "time" "0700".toList, .press "times" "ok".toList]
        (.wizard .onMissing data) := by
    intro data h hne
    have hnext : Answered padded allowed data .onMissing := ⟨h.1, h.2.1, h.2.2, hne⟩
    exact leads_onMissing hnext
  exact exists_leads_days monthDaysQuestion_isAsked h hone hrest

theorem leads_kind (h : Answered padded allowed data .kind) :
    Leads digits padded lax userId
      [.press "kind" "daily".toList, .press "time" "0700".toList, .press "times" "ok".toList]
      (.wizard .kind data) := by
  have hnext : Answered padded allowed
      { data with kind := some ScheduleKind.daily.value, times := some [] } .times :=
    ⟨h, isTimes_nil, .daily rfl⟩
  exact leads_press (by decide) rfl (fun db titles now ↦ rfl) (leads_times hnext rfl)

theorem leads_title (h : Answered padded allowed data .title) :
    Leads digits padded lax userId
      [.text "a".toList, .press "kind" "daily".toList, .press "time" "0700".toList,
        .press "times" "ok".toList] (.wizard .title data) := by
  have hnext : Answered padded allowed { data with title := some "a".toList } .kind := ⟨h.2, rfl⟩
  exact ⟨⟨trivial, rfl⟩, fun db titles now _ ↦ ⟨_, rfl, leads_kind hnext⟩⟩

theorem leads_category (h : Answered padded allowed data .category) :
    Leads digits padded lax userId
      [.pick 1, .text "a".toList, .press "kind" "daily".toList, .press "time" "0700".toList,
        .press "times" "ok".toList] (.wizard .category data) := by
  have hnext : Answered padded allowed { data with categoryId := some 1 } .title := ⟨h, rfl⟩
  exact ⟨⟨trivial, rfl⟩, fun db titles now _ ↦ ⟨_, rfl, leads_title hnext⟩⟩

/-- Every question can be answered to the end, but for a window on a step that
was never checked. -/
theorem exists_leads (digits : Digits) (lax : LaxInt) (userId : ℕ)
    (h : Answered padded allowed data state) (hwindow : state = .window → ¬OffRange data) :
    ∃ updates : List Update, updates.length ≤ 5 ∧
      Leads digits padded lax userId updates (.wizard state data) := by
  cases state with
  | category => exact ⟨_, le_rfl, leads_category h⟩
  | title => exact ⟨_, by simp, leads_title h⟩
  | kind => exact ⟨_, by simp, leads_kind h⟩
  | date => exact ⟨_, by simp, leads_date h⟩
  | moment => exact ⟨_, by simp, leads_moment h⟩
  | times => exact (exists_leads_times h).imp fun _ hleads ↦ ⟨hleads.1.trans (by decide), hleads.2⟩
  | weekdays =>
    exact (exists_leads_weekdays h).imp fun _ hleads ↦ ⟨hleads.1.trans (by decide), hleads.2⟩
  | monthDays => exact exists_leads_monthDays h
  | onMissing => exact ⟨_, by simp, leads_onMissing h⟩
  | everyMinutes => exact ⟨_, by simp, leads_everyMinutes h⟩
  | window =>
    obtain ⟨hbased, hkind, n, hn, -⟩ := h
    have hproper : ProperStep n := by
      by_contra hoff
      exact hwindow rfl ⟨n, hn, hoff⟩
    exact ⟨_, by simp, leads_window ⟨hbased, hkind, n, hn, hproper⟩⟩
  | confirm => exact ⟨[], by simp, leads_confirm data⟩

/-- No answer to the window question is taken then. -/
theorem window_stuck {db db' : Database} {titles : ℕ → Text} {now : ℤ} {update : Update} {chat : Chat}
    (hoff : OffRange data) (hstays : leaves update = false)
    (h : handle digits padded lax titles db now userId (.wizard .window data) update =
      .ok (db', chat)) : chat = .wizard .window data := by
  cases update with
  | new | elsewhere form => cases hstays
  | field reminderId field | scheduled schedule | pick categoryId =>
    cases h
    rfl
  | text raw =>
    simp only [handle, handleText, handleWindowText] at h
    cases hread : parseUserWindow digits raw with
    | error error =>
      rw [hread] at h
      cases h
      rfl
    | ok window =>
      rw [hread] at h
      dsimp only at h
      rw [finishInterval_off hoff] at h
      cases h
  | press step value =>
    have hgo : Manage.isCancel step value = false := hstays
    simp only [handle, handlePress, hgo, Bool.false_eq_true, if_false] at h
    split at h
    · by_cases hread : (presetWindow digits value).isSome = true
      · rw [handleWindow_off hread hoff] at h
        cases h
      · rw [Option.not_isSome_iff_eq_none] at hread
        simp only [handleWindow, hread, ite_self] at h
        cases h
        rfl
    · cases h
      rfl

/-- From wherever any updates have led, five
answers at most lead to the last question, whatever happens meanwhile; all but
where a press that was never offered has brought a step no interval has. -/
theorem wizard_finishes_iff {moments : List Moment} (hmodern : ∀ m ∈ moments, Modern m.now)
    (hrun : run (turn digits padded lax userId) (.elsewhere .idle) moments =
      some (.wizard state data)) :
    (∃ updates : List Update, updates.length ≤ 5 ∧
        Leads digits padded lax userId updates (.wizard state data)) ↔
      ¬(state = .window ∧ OffRange data) := by
  have hkept : Answered padded (fun _ ↦ True) data state := kept_run hmodern hrun
  constructor
  · rintro ⟨updates, -, hleads⟩ ⟨rfl, hoff⟩
    induction updates with
    | nil =>
      obtain ⟨_, hconfirm⟩ := hleads
      cases hconfirm
    | cons update updates ih =>
      obtain ⟨⟨-, hstays⟩, hnext⟩ := hleads
      obtain ⟨chat, hhandle, hrest⟩ := hnext (.initial .empty .empty) (fun _ ↦ []) 1780000000000000 (by decide)
      rw [window_stuck hoff hstays hhandle] at hrest
      exact ih hrest
  · exact fun hfree ↦ exists_leads digits lax userId hkept fun hwindow hoff ↦
      hfree ⟨hwindow, hoff⟩

end Leading

section Sample

def sampleDb : Database := .initial (.ofList [{ timezone := .utc }])
  (.ofList [{ ownerId := none, code := "task".toList, title := "Task".toList, emoji := "📌".toList }])

def sampleNow : ℤ := 1780000000000000

def sampleMoments (updates : List Update) : List Moment :=
  updates.map fun update ↦ ⟨sampleDb, fun _ ↦ [], sampleNow, update⟩

theorem modern_sample (updates : List Update) : ∀ m ∈ sampleMoments updates, Modern m.now := by
  have hnow : Modern sampleNow := by decide
  simpa [sampleMoments] using fun _ _ ↦ hnow

/-- A step of one minute, off a button nobody was shown. -/
def sampleForged : List Update :=
  [.new, .pick 0, .text "Water".toList, .press "kind" "interval".toList, .press "every" "1".toList]

def sampleStuck : FsmData :=
  { categoryId := some 0, title := some "Water".toList, kind := some "interval".toList,
    everyMinutes := some 1 }

/-- Tomorrow at seven, by the buttons. -/
def samplePressed : List Update :=
  [.new, .pick 0, .text "Water".toList, .press "kind" "once".toList, .press "date" "tmrw".toList,
    .press "at" "0700".toList]

def sampleAnswers : FsmData :=
  { categoryId := some 0, title := some "Water".toList, kind := some "once".toList,
    date := some "2026-05-29".toList,
    schedule := some (.obj [("kind", .str "once".toList), ("at", .str "2026-05-29T07:00".toList)]) }

theorem wizard_finishes_iff_sample : ¬∃ updates : List Update, updates.length ≤ 5 ∧
    Leads .ascii true .strict 0 updates (.wizard .window sampleStuck) := by
  intro hleads
  exact (wizard_finishes_iff (modern_sample sampleForged) rfl).mp hleads
    ⟨rfl, 1, rfl, by decide⟩

def isIdle : Outcome → Bool
  | .ok (_, .elsewhere .idle) => true
  | _ => false

theorem exists_of_isIdle {out : Outcome} (h : isIdle out = true) :
    ∃ db, out = .ok (db, .elsewhere .idle) := by
  unfold isIdle at h
  split at h
  · exact ⟨_, rfl⟩
  · cases h

end Sample

end Remindo.Bot.Reminders
