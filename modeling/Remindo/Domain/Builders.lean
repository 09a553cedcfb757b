import Remindo.Domain.Payloads

namespace Remindo.Domain

open Remindo.Foundation

/-- `ValidationError` of an answer of the wizard, by the message it is raised with. -/
inductive BuildError
  /-- `a schedule needs 1..12 times` -/
  | times
  /-- `a schedule needs at least one weekday`, `… one day of month` -/
  | noDays (what : String)
  /-- `weekday must be 1..7`, `day of month must be 1..31` -/
  | dayRange (what : String) (low high : ℕ)
  /-- `unknown missing-day rule: ` and the text -/
  | missingRule (raw : Text)
  /-- `interval must be 5..1440 minutes` -/
  | interval
  /-- `unclear interval: `, `unclear window: `, `unclear wall-clock time: `, and the raw text -/
  | unclear (what : String) (raw : Text)
  deriving DecidableEq

def weekdaysMaxLength : ℕ := 7
def monthDaysMaxLength : ℕ := 31
def intervalMinMinutes : ℕ := 5
def intervalMaxMinutes : ℕ := 1440

section Building

/-- `_times`: unique, sorted, bounded. -/
def wallTimes (values : List WallTime) : Except BuildError Times :=
  let unique := sortedSet WallTime.micros values
  if h : 1 ≤ unique.length ∧ unique.length ≤ timesMaxLength then
    .ok ⟨unique, pairwise_sortedSet WallTime.micros_injective values,
      List.ne_nil_of_length_pos h.1, h.2⟩
  else .error .times

theorem pairwise_days (values : List ℤ) :
    (sortedSet id (values.map Int.toNat)).Pairwise (· < ·) :=
  pairwise_sortedSet Function.injective_id _

/-- `_day_numbers`: unique, sorted, from one to `top`. -/
def dayNumbers (values : List ℤ) (top : ℕ) (what : String) : Except BuildError (DayNumbers top) :=
  if hne : values = [] then .error (.noDays what)
  else if h : ∀ n ∈ values, 1 ≤ n ∧ n ≤ top then
    .ok ⟨sortedSet id (values.map Int.toNat), pairwise_days values,
      sortedSet_ne_nil (by simpa using hne), by
        intro n hn
        rw [mem_sortedSet, List.mem_map] at hn
        obtain ⟨m, hm, rfl⟩ := hn
        have := h m hm
        omega⟩
  else .error (.dayRange what 1 top)

theorem one_inRange : 1 ≤ 1 ∧ 1 ≤ 366 := by decide

def buildDailySchedule (times : List WallTime) : Except BuildError Schedule := do
  let times ← wallTimes times
  return .daily ⟨times, 1, one_inRange⟩

def buildWeeklySchedule (times : List WallTime) (weekdays : List ℤ) :
    Except BuildError Schedule := do
  let times ← wallTimes times
  let weekdays ← dayNumbers weekdays weekdaysMaxLength "weekday"
  return .weekly ⟨times, weekdays⟩

def missingDayRule (raw : Text) : Except BuildError OnMissingDay :=
  if raw = OnMissingDay.value .lastDay then .ok .lastDay
  else if raw = OnMissingDay.value .skip then .ok .skip
  else .error (.missingRule raw)

def buildMonthlySchedule (times : List WallTime) (days : List ℤ) (onMissingDay : Text) :
    Except BuildError Schedule := do
  let rule ← missingDayRule onMissingDay
  let times ← wallTimes times
  let days ← dayNumbers days monthDaysMaxLength "day of month"
  return .monthly ⟨times, days, rule⟩

def buildIntervalSchedule (everyMinutes : ℤ) (windowStart windowEnd : WallTime) :
    Except BuildError Schedule :=
  if h : (intervalMinMinutes : ℤ) ≤ everyMinutes ∧ everyMinutes ≤ intervalMaxMinutes then
    .ok (.interval ⟨everyMinutes.toNat, windowStart, windowEnd, by
      simp only [intervalMinMinutes, intervalMaxMinutes] at h
      omega⟩)
  else .error .interval

end Building

section Typed

variable (digits : Digits)

/-- A hand-typed `HH:MM`. -/
def parseWallTime (raw : Text) : Except BuildError WallTime :=
  match parseHhmm digits (Text.strip raw) with
  | none => .error (.unclear "wall-clock time" raw)
  | some t => .ok t

/-- A hand-typed step in minutes. -/
def parseUserInterval (raw : Text) : Except BuildError ℤ :=
  match digits.int (Text.strip raw) with
  | none => .error (.unclear "interval" raw)
  | some n =>
    if (intervalMinMinutes : ℤ) ≤ n ∧ n ≤ intervalMaxMinutes then .ok n else .error .interval

/-- `str.partition`: what stands before the first separator and what after it. -/
def partition (separator : Char) (raw : Text) : Option (Text × Text) :=
  match raw.dropWhile (· ≠ separator) with
  | [] => none
  | _ :: rest => some (raw.takeWhile (· ≠ separator), rest)

/-- A hand-typed `HH:MM-HH:MM` window. -/
def parseUserWindow (raw : Text) : Except BuildError (WallTime × WallTime) :=
  match partition '-' (Text.strip raw) with
  | none => .error (.unclear "window" raw)
  | some (start, stop) =>
    match parseHhmm digits (Text.strip start), parseHhmm digits (Text.strip stop) with
    | some start, some stop => .ok (start, stop)
    | _, _ => .error (.unclear "window" raw)

/-- Inverse of `parse_local_date`: `isoformat` pads the year on every platform. -/
def formatLocalDate (d : ℤ) : Text :=
  zfill 4 (civil d).year.toNat ++ '-' :: (zfill 2 (civil d).month ++ '-' :: zfill 2 (civil d).day)

end Typed

section RoundTrip

variable {digits : Digits} {d : ℤ}

theorem number_zfill (width n : ℕ) : number (zfill width n) = some n := by
  have hdigits : ∀ c ∈ zfill width n, c.isDigit = true := fun c hc ↦ isDigit_zfill hc
  rw [number, if_pos (List.all_eq_true.mpr hdigits)]
  exact congrArg some (ofDigitChars_zfill width n)

/-- A stored date is read back. -/
theorem parseLocalDate_formatLocalDate (h : 1 ≤ (civil d).year ∧ (civil d).year ≤ 9999) :
    parseLocalDate (formatLocalDate d) = some d := by
  have hvalid := civil_valid h
  obtain ⟨hordinal, hmonth, hday⟩ := ordinal_civil d
  have hlast := civil_day_le_31 d
  obtain ⟨y₁, y₂, y₃, y₄, hyear⟩ : ∃ y₁ y₂ y₃ y₄, zfill 4 (civil d).year.toNat = [y₁, y₂, y₃, y₄] :=
    List.length_eq_four.mp (length_zfill (by decide) (by omega))
  obtain ⟨m₁, m₂, hmonths⟩ : ∃ m₁ m₂, zfill 2 (civil d).month = [m₁, m₂] :=
    List.length_eq_two.mp (length_zfill (by decide) (by omega))
  obtain ⟨d₁, d₂, hdays⟩ : ∃ d₁ d₂, zfill 2 (civil d).day = [d₁, d₂] :=
    List.length_eq_two.mp (length_zfill (by decide) (by omega))
  have hformat : formatLocalDate d = [y₁, y₂, y₃, y₄, '-', m₁, m₂, '-', d₁, d₂] := by
    rw [formatLocalDate, hyear, hmonths, hdays]
    rfl
  have hcivil : (⟨((civil d).year.toNat : ℕ), (civil d).month, (civil d).day⟩ : Civil) = civil d := by
    rw [Int.toNat_of_nonneg (by omega)]
  have hreadYear : number [y₁, y₂, y₃, y₄] = some (civil d).year.toNat := hyear ▸ number_zfill _ _
  have hreadMonth : number [m₁, m₂] = some (civil d).month := hmonths ▸ number_zfill _ _
  have hreadDay : number [d₁, d₂] = some (civil d).day := hdays ▸ number_zfill _ _
  rw [hformat]
  simp only [parseLocalDate, hreadYear, hreadMonth, hreadDay, Option.bind_eq_bind,
    Option.bind_some, hcivil, if_pos hvalid, hordinal]

end RoundTrip

section Built

variable {times : List WallTime} {days : List ℤ} {top : ℕ} {what : String}

theorem wallTimes_eq_ok (hne : times ≠ []) (hle : times.length ≤ timesMaxLength) :
    ∃ t, wallTimes times = .ok t ∧ ∀ x, x ∈ t.values ↔ x ∈ times := by
  have hlength : 1 ≤ (sortedSet WallTime.micros times).length ∧
      (sortedSet WallTime.micros times).length ≤ timesMaxLength :=
    ⟨List.length_pos_of_ne_nil (sortedSet_ne_nil hne), length_sortedSet_le.trans hle⟩
  exact ⟨_, dif_pos hlength, fun _ ↦ mem_sortedSet⟩

theorem dayNumbers_eq_ok (hne : days ≠ []) (hrange : ∀ n ∈ days, 1 ≤ n ∧ n ≤ top) :
    ∃ t, dayNumbers days top what = .ok t ∧ ∀ n : ℕ, n ∈ t.values ↔ (n : ℤ) ∈ days := by
  refine ⟨_, by rw [dayNumbers, dif_neg hne, dif_pos hrange], fun n ↦ ?_⟩
  rw [mem_sortedSet, List.mem_map]
  constructor
  · rintro ⟨m, hm, rfl⟩
    rwa [Int.toNat_of_nonneg (by have := hrange m hm; omega)]
  · exact fun hn ↦ ⟨n, hn, Int.toNat_natCast n⟩

end Built

end Remindo.Domain
