import Remindo.Domain.Hhmm
import Remindo.Domain.Wizard
import Remindo.Foundation.Json
import Remindo.Foundation.Listing

namespace Remindo.Domain

open Remindo.Foundation
open Regex (seq alt char lit rep)

section LocalDatetimes

variable (digits : Digits)

/-- `_LOCAL_DT`. -/
def localDtPattern : Regex :=
  seq (rep 4 digits.isDecimal) (seq (lit '-') (seq (rep 2 digits.isDecimal) (seq (lit '-')
    (seq (rep 2 digits.isDecimal) (seq (lit 'T') (hhmmPattern digits))))))

/-- `%m`, as `strptime` looks for it. -/
def monthPattern : Regex :=
  alt (seq (lit '1') (char fun c ↦ decide ('0' ≤ c ∧ c ≤ '2')))
    (seq (lit '0') (char fun c ↦ decide ('1' ≤ c ∧ c ≤ '9')))

def dayPattern : Regex :=
  alt (seq (lit '3') (char fun c ↦ decide ('0' ≤ c ∧ c ≤ '1')))
    (alt (seq (char fun c ↦ decide ('1' ≤ c ∧ c ≤ '2')) (char digits.isDecimal))
      (seq (lit '0') (char fun c ↦ decide ('1' ≤ c ∧ c ≤ '9'))))

/-- `%Y-%m-%dT%H:%M`. The alternatives of one digit are left out, which no text
of `_LOCAL_DT` has room for. -/
def strptimePattern : Regex :=
  seq (rep 4 digits.isDecimal) (seq (lit '-') (seq monthPattern (seq (lit '-')
    (seq (dayPattern digits) (seq (lit 'T') (hhmmPattern digits))))))

/-- `datetime.strptime(value, "%Y-%m-%dT%H:%M")`, its groups by their places. -/
def strptime (raw : Text) : Option (ℤ × WallTime) :=
  if (strptimePattern digits).fullmatch raw then do
    let year ← digits.int (raw.take 4)
    let month ← digits.int ((raw.drop 5).take 2)
    let dayOfMonth ← digits.int ((raw.drop 8).take 2)
    let hour ← digits.int ((raw.drop 11).take 2)
    let minute ← digits.int ((raw.drop 14).take 2)
    let time ← WallTime.make hour minute
    let c : Civil := ⟨year, month.toNat, dayOfMonth.toNat⟩
    if c.Valid then some (ordinal c, time) else none
  else none

def parseLocalDatetime (raw : Text) : Option (ℤ × WallTime) :=
  if (localDtPattern digits).accepts raw then strptime digits raw else none

/-- `%Y` of `strftime`: whether a short year is padded is left to the platform. -/
def formatYear (padded : Bool) (year : ℕ) : Text :=
  if padded then zfill 4 year else Nat.toDigits 10 year

def formatLocalDatetime (padded : Bool) (d : ℤ) (t : WallTime) : Text :=
  formatYear padded (civil d).year.toNat ++ '-' :: (zfill 2 (civil d).month ++
    '-' :: (zfill 2 (civil d).day ++ 'T' :: formatHhmm t))

end LocalDatetimes

section Contract

inductive ScheduleKind
  | once | interval | daily | weekly | monthly
  deriving DecidableEq, Repr

namespace ScheduleKind

def all : List ScheduleKind := [once, interval, daily, weekly, monthly]

def value : ScheduleKind → Text
  | once => "once".toList
  | interval => "interval".toList
  | daily => "daily".toList
  | weekly => "weekly".toList
  | monthly => "monthly".toList

/-- The fields of the model a kind stands for. -/
def fields : ScheduleKind → List String
  | once => ["kind", "at"]
  | interval => ["kind", "every_minutes", "window_start", "window_end"]
  | daily => ["times", "kind", "every_n_days"]
  | weekly => ["times", "kind", "weekdays"]
  | monthly => ["times", "kind", "days", "on_missing_day"]

end ScheduleKind

def OnMissingDay.value : OnMissingDay → Text
  | .lastDay => "last_day".toList
  | .skip => "skip".toList

/-- What pydantic reads as an `int` where one is asked for. -/
structure LaxInt where
  read : Json → Option ℤ
  read_int : ∀ n, read (.int n) = some n

def timesMaxLength : ℕ := 12

def Times.make (values : List WallTime) : Option Times :=
  if h : values ≠ [] ∧ values.length ≤ timesMaxLength then
    some ⟨sortedSet WallTime.micros values, pairwise_sortedSet WallTime.micros_injective values,
      sortedSet_ne_nil h.1, length_sortedSet_le.trans h.2⟩
  else none

/-- The numbers of a list field, each from one to `top`, which bounds the length as well. -/
def DayNumbers.make (top : ℕ) (values : List ℤ) : Option (DayNumbers top) :=
  if h : (values ≠ [] ∧ values.length ≤ top) ∧ ∀ n ∈ values, 1 ≤ n ∧ n ≤ top then
    some ⟨sortedSet id (values.map Int.toNat), pairwise_sortedSet Function.injective_id _,
      sortedSet_ne_nil (by simpa using h.1.1), by
        intro n hn
        rw [mem_sortedSet, List.mem_map] at hn
        obtain ⟨m, hm, rfl⟩ := hn
        have := h.2 m hm
        omega⟩
  else none

variable (digits : Digits) (lax : LaxInt)

/-- `parse_hhmm` of a JSON value. -/
def coerceTime : Json → Option WallTime
  | .str raw => parseHhmm digits raw
  | _ => none

def coerceTimes : Json → Option Times
  | .arr items => items.mapM (coerceTime digits) >>= Times.make
  | _ => none

def coerceNumbers (top : ℕ) : Json → Option (DayNumbers top)
  | .arr items => items.mapM lax.read >>= DayNumbers.make top
  | _ => none

def coerceLocalDatetime : Json → Option (ℤ × WallTime)
  | .str raw => parseLocalDatetime digits raw
  | _ => none

/-- An `int` between two bounds. -/
def coerceBounded (low high : ℕ) (value : Json) : Option {n : ℕ // low ≤ n ∧ n ≤ high} := do
  let n ← lax.read value
  if h : (low : ℤ) ≤ n ∧ n ≤ high then some ⟨n.toNat, by omega⟩ else none

def coerceOnMissingDay : Json → Option OnMissingDay
  | .str raw => [OnMissingDay.lastDay, .skip].find? fun v ↦ v.value = raw
  | _ => none

def coerceKind : Json → Option ScheduleKind
  | .str raw => ScheduleKind.all.find? fun kind ↦ kind.value = raw
  | _ => none

def OnceSchedule.parse (members : List (String × Json)) : Option OnceSchedule := do
  let moment ← Json.get? members "at" >>= coerceLocalDatetime digits
  some ⟨moment.1, moment.2⟩

def IntervalSchedule.parse (members : List (String × Json)) : Option IntervalSchedule := do
  let everyMinutes ← Json.get? members "every_minutes" >>= coerceBounded lax 5 1440
  let windowStart ← Json.get? members "window_start" >>= coerceTime digits
  let windowEnd ← Json.get? members "window_end" >>= coerceTime digits
  some ⟨everyMinutes.val, windowStart, windowEnd, everyMinutes.property⟩

def DailySchedule.parse (members : List (String × Json)) : Option DailySchedule := do
  let times ← Json.get? members "times" >>= coerceTimes digits
  let everyNDays ← coerceBounded lax 1 366 ((Json.get? members "every_n_days").getD (.int 1))
  some ⟨times, everyNDays.val, everyNDays.property⟩

def WeeklySchedule.parse (members : List (String × Json)) : Option WeeklySchedule := do
  let times ← Json.get? members "times" >>= coerceTimes digits
  let weekdays ← Json.get? members "weekdays" >>= coerceNumbers lax 7
  some ⟨times, weekdays⟩

def MonthlySchedule.parse (members : List (String × Json)) : Option MonthlySchedule := do
  let times ← Json.get? members "times" >>= coerceTimes digits
  let days ← Json.get? members "days" >>= coerceNumbers lax 31
  let onMissingDay ← coerceOnMissingDay
    ((Json.get? members "on_missing_day").getD (.str OnMissingDay.lastDay.value))
  some ⟨times, days, onMissingDay⟩

def ScheduleKind.parse (kind : ScheduleKind) (members : List (String × Json)) : Option Schedule :=
  match kind with
  | once => (OnceSchedule.parse digits members).map .once
  | interval => (IntervalSchedule.parse digits lax members).map .interval
  | daily => (DailySchedule.parse digits lax members).map .daily
  | weekly => (WeeklySchedule.parse digits lax members).map .weekly
  | monthly => (MonthlySchedule.parse digits lax members).map .monthly

/-- Validate a JSONB payload against the contract; `none` where the source raises. -/
def parseSchedule : Json → Option Schedule
  | .obj members => do
    let kind ← Json.get? members "kind" >>= coerceKind
    if Json.OnlyKeys kind.fields members then kind.parse digits lax members else none
  | _ => none

def dumpTime (t : WallTime) : Json := .str (formatHhmm t)

def dumpTimes (times : Times) : Json := .arr (times.values.map dumpTime)

def dumpNumbers {top : ℕ} (numbers : DayNumbers top) : Json :=
  .arr (numbers.values.map fun n : ℕ ↦ Json.int n)

def dumpKind (kind : ScheduleKind) : String × Json := ("kind", .str kind.value)

/-- Render a schedule back into its JSONB representation. -/
def dumpSchedule (padded : Bool) : Schedule → Json
  | .once s => .obj [dumpKind .once, ("at", .str (formatLocalDatetime padded s.date s.time))]
  | .interval s =>
    .obj [dumpKind .interval, ("every_minutes", .int s.everyMinutes),
      ("window_start", dumpTime s.windowStart), ("window_end", dumpTime s.windowEnd)]
  | .daily s =>
    .obj [("times", dumpTimes s.times), dumpKind .daily, ("every_n_days", .int s.everyNDays)]
  | .weekly s =>
    .obj [("times", dumpTimes s.times), dumpKind .weekly, ("weekdays", dumpNumbers s.weekdays)]
  | .monthly s =>
    .obj [("times", dumpTimes s.times), dumpKind .monthly, ("days", dumpNumbers s.days),
      ("on_missing_day", .str s.onMissingDay.value)]

end Contract

section RoundTrip

variable {digits : Digits} {raw : Text} {d : ℤ} {t : WallTime} {padded : Bool}

theorem isDecimal_of_mem_zfill {width n : ℕ} {c : Char} (h : c ∈ zfill width n) :
    digits.isDecimal c = true := Digits.isDecimal_of_isDigit (isDigit_zfill h)

theorem fits_monthPattern {n : ℕ} (h : 1 ≤ n ∧ n ≤ 12) : monthPattern.Fits (zfill 2 n) := by
  have hall : ∀ n ≤ 12, 1 ≤ n → monthPattern.fullmatch (zfill 2 n) = true := by decide
  exact Regex.fullmatch_iff.mp (hall n h.2 h.1)

theorem fits_dayPattern {n : ℕ} (h : 1 ≤ n ∧ n ≤ 31) : (dayPattern digits).Fits (zfill 2 n) := by
  have hunit : ∀ k < 10, 1 ≤ k → '1' ≤ k.digitChar ∧ k.digitChar ≤ '9' := by decide
  have hten : ∀ k ≤ 2, 1 ≤ k → '1' ≤ k.digitChar ∧ k.digitChar ≤ '2' := by decide
  have hthirty : ∀ k ≤ 1, '0' ≤ k.digitChar ∧ k.digitChar ≤ '1' := by decide
  rw [zfill_two (by omega)]
  simp only [dayPattern, Regex.fits_alt, Regex.fits_seq, Regex.fits_char, Regex.fits_lit,
    decide_eq_true_eq]
  rcases Nat.lt_or_ge n 10 with hlow | hlow
  · refine .inr (.inr ⟨_, _, rfl, ⟨_, hunit n hlow h.1, rfl⟩, ?_⟩)
    rw [Nat.div_eq_of_lt hlow, Nat.mod_eq_of_lt hlow]
    rfl
  rcases Nat.lt_or_ge n 30 with hhigh | hhigh
  · refine .inr (.inl ⟨_, _, ⟨_, hten (n / 10) (by omega) (by omega), rfl⟩, ⟨_, ?_, rfl⟩, rfl⟩)
    exact Digits.isDecimal_of_isDigit (Nat.isDigit_digitChar.trans (decide_eq_true (by omega)))
  · refine .inl ⟨_, _, rfl, ⟨_, hthirty (n % 10) (by omega), rfl⟩, ?_⟩
    rw [show n / 10 = 3 by omega]
    rfl

theorem formatYear_eq_zfill {n : ℕ} (h : padded = true ∨ 1000 ≤ n) :
    formatYear padded n = zfill 4 n := by
  cases padded with
  | true => rfl
  | false =>
    have hlong : ¬(Nat.toDigits 10 n).length ≤ 3 := by
      rw [Nat.length_toDigits_le_iff (by decide) (by decide)]
      have := h.resolve_left (by decide)
      omega
    rw [zfill, List.leftpad, Nat.sub_eq_zero_of_le (by omega)]
    rfl

theorem fits_zfill {width n : ℕ} (hwidth : 0 < width) (hn : n < 10 ^ width) :
    (rep width digits.isDecimal).Fits (zfill width n) :=
  ⟨length_zfill hwidth hn, fun _ ↦ isDecimal_of_mem_zfill⟩

/-- A date and a time of the calendar are written as both patterns want them. -/
theorem fits_localDatetime (digits : Digits) {n m k : ℕ} (hn : n < 10 ^ 4) (hm : 1 ≤ m ∧ m ≤ 12)
    (hk : 1 ≤ k ∧ k ≤ 31)
    (heq : raw = zfill 4 n ++ '-' :: (zfill 2 m ++ '-' :: (zfill 2 k ++ 'T' :: formatHhmm t))) :
    (localDtPattern digits).Fits raw ∧ (strptimePattern digits).Fits raw := by
  have htime : (hhmmPattern digits).Fits (formatHhmm t) := fits_of_isHhmm (isHhmm_formatHhmm t)
  have hyear : (rep 4 digits.isDecimal).Fits (zfill 4 n) := fits_zfill (by decide) hn
  have hmonth : (rep 2 digits.isDecimal).Fits (zfill 2 m) := fits_zfill (by decide) (by omega)
  have hday : (rep 2 digits.isDecimal).Fits (zfill 2 k) := fits_zfill (by decide) (by omega)
  simp only [localDtPattern, strptimePattern, Regex.fits_seq, Regex.fits_lit]
  constructor
  · exact ⟨_, _, hyear, ⟨_, _, rfl, ⟨_, _, hmonth, ⟨_, _, rfl, ⟨_, _, hday, ⟨_, _, rfl, htime, rfl⟩,
      rfl⟩, rfl⟩, rfl⟩, rfl⟩, heq⟩
  · exact ⟨_, _, hyear, ⟨_, _, rfl, ⟨_, _, fits_monthPattern hm, ⟨_, _, rfl, ⟨_, _, fits_dayPattern hk,
      ⟨_, _, rfl, htime, rfl⟩, rfl⟩, rfl⟩, rfl⟩, rfl⟩, heq⟩

theorem length_of_strptimePattern (h : (strptimePattern digits).Fits raw) : raw.length = 16 := by
  simp only [strptimePattern, monthPattern, dayPattern, Regex.fits_seq, Regex.fits_alt, Regex.fits_lit,
    Regex.fits_char, Regex.fits_rep] at h
  obtain ⟨year, _, ⟨hyear, -⟩, ⟨_, _, rfl, ⟨month, _, hmonth, ⟨_, _, rfl, ⟨days, _, hday, ⟨_, time, rfl,
    htime, rfl⟩, rfl⟩, rfl⟩, rfl⟩, rfl⟩, rfl⟩ := h
  have hmonth : month.length = 2 := by
    rcases hmonth with ⟨_, _, rfl, ⟨_, -, rfl⟩, rfl⟩ | ⟨_, _, rfl, ⟨_, -, rfl⟩, rfl⟩ <;> rfl
  have hday : days.length = 2 := by
    rcases hday with ⟨_, _, rfl, ⟨_, -, rfl⟩, rfl⟩ | ⟨_, _, ⟨_, -, rfl⟩, ⟨_, -, rfl⟩, rfl⟩ |
      ⟨_, _, rfl, ⟨_, -, rfl⟩, rfl⟩ <;> rfl
  obtain ⟨_, _, _, _, -, rfl⟩ := fits_hhmmPattern.mp htime
  simp only [List.length_append, List.length_cons, List.length_nil, hyear, hmonth, hday]

theorem strptime_parts {year month days hours minutes : Text}
    (hyear : year.length = 4) (hmonth : month.length = 2) (hday : days.length = 2)
    (hhour : hours.length = 2) (hminute : minutes.length = 2)
    (heq : raw = year ++ '-' :: (month ++ '-' :: (days ++ 'T' :: (hours ++ ':' :: minutes)))) :
    raw.take 4 = year ∧ (raw.drop 5).take 2 = month ∧ (raw.drop 8).take 2 = days ∧
      (raw.drop 11).take 2 = hours ∧ (raw.drop 14).take 2 = minutes := by
  subst heq
  obtain ⟨_, _, _, _, rfl⟩ := List.length_eq_four.mp hyear
  obtain ⟨_, _, rfl⟩ := List.length_eq_two.mp hmonth
  obtain ⟨_, _, rfl⟩ := List.length_eq_two.mp hday
  obtain ⟨_, _, rfl⟩ := List.length_eq_two.mp hhour
  obtain ⟨_, _, rfl⟩ := List.length_eq_two.mp hminute
  exact ⟨rfl, rfl, rfl, rfl, rfl⟩

theorem civil_day_le_31 (d : ℤ) : (civil d).day ≤ 31 := by
  refine (civil_day_le d).trans ?_
  rw [daysInMonth]
  split
  · split <;> omega
  · split <;> omega

theorem parseLocalDatetime_format (hyear : 1 ≤ (civil d).year ∧ (civil d).year ≤ 9999)
    (hpad : padded = true ∨ 1000 ≤ (civil d).year) :
    parseLocalDatetime digits (formatLocalDatetime padded d t) = some (d, t) := by
  obtain ⟨hordinal, hmonth, hday⟩ := ordinal_civil d
  have hlast := civil_day_le_31 d
  have hhour := t.hour.isLt
  have hminute := t.minute.isLt
  have hformat : formatYear padded (civil d).year.toNat = zfill 4 (civil d).year.toNat :=
    formatYear_eq_zfill (hpad.imp_right fun h ↦ by omega)
  have hraw : formatLocalDatetime padded d t = zfill 4 (civil d).year.toNat ++ '-' ::
      (zfill 2 (civil d).month ++ '-' :: (zfill 2 (civil d).day ++ 'T' :: formatHhmm t)) := by
    rw [formatLocalDatetime, hformat]
  obtain ⟨hshape, hfits⟩ := fits_localDatetime digits (by omega) hmonth
    ⟨hday, hlast⟩ hraw
  obtain ⟨htake, htake', htake'', htakeh, htakem⟩ := strptime_parts
    (length_zfill (by decide) (by omega)) (length_zfill (by decide) (by omega))
    (length_zfill (by decide) (by omega)) (length_zfill (by decide) (by omega))
    (length_zfill (by decide) (by omega)) hraw
  have hmake : WallTime.make (t.hour : ℕ) (t.minute : ℕ) = some t :=
    dif_pos ⟨⟨by omega, by omega⟩, by omega, by omega⟩
  have hcivil : (⟨((civil d).year.toNat : ℤ), ((civil d).month : ℤ).toNat, ((civil d).day : ℤ).toNat⟩ :
      Civil) = civil d := by
    rw [Int.toNat_of_nonneg (by omega), Int.toNat_natCast, Int.toNat_natCast]
  rw [parseLocalDatetime, if_pos (Regex.accepts_iff.mpr (.inl hshape)), strptime,
    if_pos (Regex.fullmatch_iff.mpr hfits), htake, htake', htake'', htakeh, htakem]
  simp only [int_zfill, Option.bind_eq_bind, Option.bind_some, hmake, hcivil, hordinal]
  exact if_pos (civil_valid hyear)

/-- What is read lies in a year of the calendar, the one its first four characters name. -/
theorem year_of_parseLocalDatetime (h : parseLocalDatetime digits raw = some (d, t)) :
    digits.int (raw.take 4) = some (civil d).year ∧
      1 ≤ (civil d).year ∧ (civil d).year ≤ 9999 := by
  rw [parseLocalDatetime] at h
  split at h
  · rw [strptime] at h
    split at h
    · obtain ⟨year, hyear, h⟩ := Option.bind_eq_some_iff.mp h
      obtain ⟨month, -, h⟩ := Option.bind_eq_some_iff.mp h
      obtain ⟨dayOfMonth, -, h⟩ := Option.bind_eq_some_iff.mp h
      obtain ⟨hour, -, h⟩ := Option.bind_eq_some_iff.mp h
      obtain ⟨minute, -, h⟩ := Option.bind_eq_some_iff.mp h
      obtain ⟨time, -, h⟩ := Option.bind_eq_some_iff.mp h
      dsimp only at h
      split at h
      · rename_i hvalid
        obtain ⟨rfl, rfl⟩ := Prod.mk.inj (Option.some_inj.mp h)
        rw [civil_ordinal hvalid]
        exact ⟨hyear, hvalid.1, hvalid.2.1⟩
      · cases h
    · cases h
  · cases h

theorem length_formatLocalDatetime :
    (formatLocalDatetime padded d t).length = (formatYear padded (civil d).year.toNat).length + 12 := by
  obtain ⟨-, hmonth, -⟩ := ordinal_civil d
  have hday := civil_day_le_31 d
  have hmonth : (zfill 2 (civil d).month).length = 2 := length_zfill (by decide) (by omega)
  have hday : (zfill 2 (civil d).day).length = 2 := length_zfill (by decide) (by omega)
  obtain ⟨_, _, _, _, -, htime⟩ := isHhmm_formatHhmm t
  simp only [formatLocalDatetime, htime, List.length_append, List.length_cons, List.length_nil, hmonth,
    hday]

/-- A year of three digits leaves too short a text. -/
theorem parseLocalDatetime_short (hyear : 1 ≤ (civil d).year ∧ (civil d).year < 1000) :
    parseLocalDatetime digits (formatLocalDatetime false d t) = none := by
  have hshort : (formatLocalDatetime false d t).length ≠ 16 := by
    have hdigits : (Nat.toDigits 10 (civil d).year.toNat).length ≤ 3 :=
      (Nat.length_toDigits_le_iff (by decide) (by decide)).mpr (by omega)
    rw [length_formatLocalDatetime, formatYear, if_neg Bool.false_ne_true]
    omega
  rw [parseLocalDatetime, strptime, if_neg (c := (strptimePattern digits).fullmatch _ = true), ite_self]
  exact fun hfits ↦ hshort (length_of_strptimePattern (Regex.fullmatch_iff.mp hfits))

end RoundTrip

section Payloads

variable {digits : Digits} {lax : LaxInt} {padded : Bool} {s : Schedule} {t t' : WallTime}

/-- An array of times in order and without repetitions, each as `HH:MM`. -/
def IsTimeList (value : Json) : Prop :=
  ∃ texts : List Text, value = .arr (texts.map .str) ∧ (∀ text ∈ texts, IsHhmm text) ∧
    texts.Pairwise (· < ·)

def IsNumberList (value : Json) : Prop :=
  ∃ numbers : List ℤ, value = .arr (numbers.map .int) ∧ numbers.Pairwise (· < ·)

def CanonicalMember (key : String) (value : Json) : Prop :=
  (key = "times" → IsTimeList value) ∧ (key = "weekdays" ∨ key = "days" → IsNumberList value) ∧
    (key = "window_start" ∨ key = "window_end" → ∃ text, value = .str text ∧ IsHhmm text) ∧
      (key = "at" → ∃ date text, value = .str (date ++ 'T' :: text) ∧ IsHhmm text)

def Canonical : Json → Prop
  | .obj members => ∀ m ∈ members, CanonicalMember m.1 m.2
  | _ => False

/-- The year a payload of `once` begins with. -/
def atYear (digits : Digits) : Json → Option ℤ
  | .obj members =>
    match Json.get? members "at" with
    | some (.str raw) => digits.int (raw.take 4)
    | _ => none
  | _ => none

/-- The order of the texts is that of the times. -/
theorem formatHhmm_lt (h : t.micros < t'.micros) : formatHhmm t < formatHhmm t' := by
  have hdigit : ∀ i < 10, ∀ j < 10, (Nat.digitChar i < Nat.digitChar j ↔ i < j) ∧
      (Nat.digitChar i = Nat.digitChar j ↔ i = j) := by decide
  have hlt := fun {i j} (hi : i < 10) (hj : j < 10) ↦ (hdigit i hi j hj).1
  have heq := fun {i j} (hi : i < 10) (hj : j < 10) ↦ (hdigit i hi j hj).2
  have hhour := t.hour.isLt
  have hhour' := t'.hour.isLt
  have hminute := t.minute.isLt
  have hminute' := t'.minute.isLt
  rw [formatHhmm, formatHhmm, zfill_two (by omega), zfill_two (by omega), zfill_two (by omega),
    zfill_two (by omega)]
  simp only [List.cons_append, List.nil_append, List.cons_lt_cons_iff, true_and,
    List.not_lt_nil, and_false, or_false]
  rw [hlt (by omega) (by omega), hlt (by omega) (by omega), hlt (by omega) (by omega),
    hlt (by omega) (by omega), heq (by omega) (by omega), heq (by omega) (by omega),
    heq (by omega) (by omega)]
  simp only [WallTime.micros, hour, minute] at h
  omega

theorem isTimeList_dumpTimes (times : Times) : IsTimeList (dumpTimes times) := by
  refine ⟨times.values.map formatHhmm, ?_, ?_, ?_⟩
  · rw [List.map_map]
    rfl
  · intro text htext
    obtain ⟨t, -, rfl⟩ := List.mem_map.mp htext
    exact isHhmm_formatHhmm t
  · exact List.pairwise_map.mpr (times.sorted.imp formatHhmm_lt)

theorem isNumberList_dumpNumbers {top : ℕ} (numbers : DayNumbers top) :
    IsNumberList (dumpNumbers numbers) := by
  refine ⟨numbers.values.map Int.ofNat, ?_, ?_⟩
  · rw [List.map_map]
    rfl
  · exact List.pairwise_map.mpr (numbers.sorted.imp Int.ofNat_lt.mpr)

theorem canonical_dumpSchedule (padded : Bool) (s : Schedule) : Canonical (dumpSchedule padded s) := by
  have htime : ∀ t, ∃ text, dumpTime t = .str text ∧ IsHhmm text := fun t ↦
    ⟨formatHhmm t, rfl, isHhmm_formatHhmm t⟩
  cases s with
  | once s =>
    have hmoment : ∃ date text, formatLocalDatetime padded s.date s.time = date ++ 'T' :: text ∧
        IsHhmm text := by
      refine ⟨formatYear padded (civil s.date).year.toNat ++ '-' :: (zfill 2 (civil s.date).month ++
        '-' :: zfill 2 (civil s.date).day), formatHhmm s.time, ?_, isHhmm_formatHhmm s.time⟩
      simp only [formatLocalDatetime, List.append_assoc, List.cons_append]
    simp only [Canonical, dumpSchedule, dumpKind, List.forall_mem_cons]
    simp [CanonicalMember, hmoment]
  | interval s =>
    simp only [Canonical, dumpSchedule, dumpKind, List.forall_mem_cons]
    simp [CanonicalMember, htime]
  | daily s =>
    simp only [Canonical, dumpSchedule, dumpKind, List.forall_mem_cons]
    simp [CanonicalMember, isTimeList_dumpTimes]
  | weekly s =>
    simp only [Canonical, dumpSchedule, dumpKind, List.forall_mem_cons]
    simp [CanonicalMember, isTimeList_dumpTimes, isNumberList_dumpNumbers]
  | monthly s =>
    simp only [Canonical, dumpSchedule, dumpKind, List.forall_mem_cons]
    simp [CanonicalMember, isTimeList_dumpTimes, isNumberList_dumpNumbers]

theorem coerceTimes_dumpTimes (times : Times) : coerceTimes digits (dumpTimes times) = some times := by
  have hread : (times.values.map dumpTime).mapM (coerceTime digits) = some times.values :=
    mapM_map_eq_some fun t _ ↦ parseHhmm_formatHhmm t
  have hmake : Times.make times.values = some times := by
    rw [Times.make, dif_pos ⟨times.nonempty, times.bounded⟩]
    simp only [sortedSet_eq_self times.sorted]
  rw [dumpTimes, coerceTimes, hread]
  exact hmake

theorem DayNumbers.length_le {top : ℕ} (numbers : DayNumbers top) : numbers.values.length ≤ top := by
  have hnodup : numbers.values.Nodup := numbers.sorted.imp fun hlt ↦ hlt.ne
  have hsub : numbers.values ⊆ List.range' 1 top := by
    intro n hn
    have := numbers.inRange n hn
    rw [List.mem_range'_1]
    omega
  simpa using (hnodup.subperm hsub).length_le

theorem coerceNumbers_dumpNumbers {top : ℕ} (numbers : DayNumbers top) :
    coerceNumbers lax top (dumpNumbers numbers) = some numbers := by
  have hread : (numbers.values.map fun n : ℕ ↦ Json.int n).mapM lax.read =
      some (numbers.values.map Int.ofNat) := by
    have hmap : (numbers.values.map fun n : ℕ ↦ Json.int n) =
        (numbers.values.map Int.ofNat).map Json.int := by
      rw [List.map_map]
      rfl
    rw [hmap]
    exact mapM_map_eq_some fun n _ ↦ lax.read_int n
  have hback : (numbers.values.map Int.ofNat).map Int.toNat = numbers.values := by
    rw [List.map_map]
    exact List.map_id _
  have hrange : ∀ n ∈ numbers.values.map Int.ofNat, 1 ≤ n ∧ n ≤ top := by
    intro n hn
    obtain ⟨m, hm, rfl⟩ := List.mem_map.mp hn
    have := numbers.inRange m hm
    exact ⟨Int.ofNat_le.mpr this.1, Int.ofNat_le.mpr this.2⟩
  have hsorted : sortedSet id numbers.values = numbers.values := sortedSet_eq_self numbers.sorted
  have hmake : DayNumbers.make top (numbers.values.map Int.ofNat) = some numbers := by
    rw [DayNumbers.make, dif_pos ⟨⟨by simpa using numbers.nonempty,
      by simpa using numbers.length_le⟩, hrange⟩]
    simp only [hback, hsorted]
  rw [dumpNumbers, coerceNumbers, hread]
  exact hmake

theorem coerceBounded_int {low high n : ℕ} (h : low ≤ n ∧ n ≤ high) :
    coerceBounded lax low high (.int n) = some ⟨n, h⟩ := by
  rw [coerceBounded, lax.read_int]
  exact dif_pos ⟨Int.ofNat_le.mpr h.1, Int.ofNat_le.mpr h.2⟩

/-- A moment the platform writes in full. -/
def Schedule.Written (padded : Bool) (s : Schedule) : Prop :=
  ∀ o, s = .once o → (1 ≤ (civil o.date).year ∧ (civil o.date).year ≤ 9999) ∧
    (padded = true ∨ 1000 ≤ (civil o.date).year)

theorem parseSchedule_obj (kind : ScheduleKind) {members : List (String × Json)}
    (hkind : Json.get? members "kind" = some (.str kind.value))
    (hkeys : members.map Prod.fst = kind.fields) :
    parseSchedule digits lax (.obj members) = kind.parse digits lax members := by
  have hvalue : ∀ kind : ScheduleKind, coerceKind (.str kind.value) = some kind := by
    intro kind
    cases kind <;> decide
  have honly : Json.OnlyKeys kind.fields members := hkeys ▸ Json.onlyKeys_map
  simp only [parseSchedule, hkind, Option.bind_eq_bind, Option.bind_some, hvalue]
  exact if_pos honly

theorem parseSchedule_dumpSchedule (h : s.Written padded) :
    parseSchedule digits lax (dumpSchedule padded s) = some s := by
  have htime : ∀ t, coerceTime digits (dumpTime t) = some t := parseHhmm_formatHhmm
  have hmissing : ∀ v : OnMissingDay, coerceOnMissingDay (.str v.value) = some v := by
    intro v
    cases v <;> decide
  cases s with
  | once s =>
    obtain ⟨hyear, hpad⟩ := h s rfl
    have hmoment : coerceLocalDatetime digits (.str (formatLocalDatetime padded s.date s.time)) =
      some (s.date, s.time) := parseLocalDatetime_format hyear hpad
    rw [dumpSchedule, parseSchedule_obj .once rfl rfl]
    simp only [ScheduleKind.parse, OnceSchedule.parse, dumpKind, Json.get?_cons, String.reduceEq,
      if_true, if_false, hmoment, Option.bind_eq_bind, Option.bind_some, Option.map_some]
  | interval s =>
    rw [dumpSchedule, parseSchedule_obj .interval rfl rfl]
    simp only [ScheduleKind.parse, IntervalSchedule.parse, dumpKind, Json.get?_cons,
      String.reduceEq, if_true, if_false, htime, coerceBounded_int s.inRange, Option.bind_eq_bind,
      Option.bind_some, Option.map_some]
  | daily s =>
    rw [dumpSchedule, parseSchedule_obj .daily rfl rfl]
    simp only [ScheduleKind.parse, DailySchedule.parse, dumpKind, Json.get?_cons, String.reduceEq,
      if_true, if_false, coerceTimes_dumpTimes, coerceBounded_int s.inRange, Option.getD_some,
      Option.bind_eq_bind, Option.bind_some, Option.map_some]
  | weekly s =>
    rw [dumpSchedule, parseSchedule_obj .weekly rfl rfl]
    simp only [ScheduleKind.parse, WeeklySchedule.parse, dumpKind, Json.get?_cons, String.reduceEq,
      if_true, if_false, coerceTimes_dumpTimes, coerceNumbers_dumpNumbers, Option.bind_eq_bind,
      Option.bind_some, Option.map_some]
  | monthly s =>
    rw [dumpSchedule, parseSchedule_obj .monthly rfl rfl]
    simp only [ScheduleKind.parse, MonthlySchedule.parse, dumpKind, Json.get?_cons, String.reduceEq,
      if_true, if_false, coerceTimes_dumpTimes, coerceNumbers_dumpNumbers, hmissing,
      Option.getD_some, Option.bind_eq_bind, Option.bind_some, Option.map_some]

theorem atYear_of_parseSchedule {payload : Json} (h : parseSchedule digits lax payload = some s) :
    (∀ o, s = .once o → atYear digits payload = some (civil o.date).year ∧
        1 ≤ (civil o.date).year ∧ (civil o.date).year ≤ 9999) ∧
      ((∀ o, s ≠ .once o) → atYear digits payload = none) := by
  cases payload with
  | obj members =>
    obtain ⟨kind, -, h⟩ := Option.bind_eq_some_iff.mp h
    split at h
    · rename_i honly
      have hnone : "at" ∉ kind.fields → atYear digits (.obj members) = none := by
        intro hforbidden
        rw [atYear, Json.get?_eq_none honly hforbidden]
      cases kind with
      | once =>
        obtain ⟨o, ho, rfl⟩ := Option.map_eq_some_iff.mp h
        obtain ⟨moment, hmoment, ho⟩ := Option.bind_eq_some_iff.mp ho
        obtain ⟨value, hvalue, hmoment⟩ := Option.bind_eq_some_iff.mp hmoment
        cases ho
        cases value with
        | str raw =>
          have hyear := year_of_parseLocalDatetime hmoment
          refine ⟨fun o ho ↦ ?_, fun hnot ↦ absurd rfl (hnot _)⟩
          cases ho
          rw [atYear, hvalue]
          exact hyear
        | _ => cases hmoment
      | interval | daily | weekly | monthly =>
        obtain ⟨o, -, rfl⟩ := Option.map_eq_some_iff.mp h
        exact ⟨fun o ho ↦ (by cases ho), fun _ ↦ hnone (by decide)⟩
    · cases h
  | _ => cases h

theorem parseSchedule_short {o : OnceSchedule}
    (hyear : 1 ≤ (civil o.date).year ∧ (civil o.date).year < 1000) :
    parseSchedule digits lax (dumpSchedule false (.once o)) = none := by
  have hmoment : coerceLocalDatetime digits (.str (formatLocalDatetime false o.date o.time)) = none :=
    parseLocalDatetime_short hyear
  rw [dumpSchedule, parseSchedule_obj .once rfl rfl]
  simp only [ScheduleKind.parse, OnceSchedule.parse, dumpKind, Json.get?_cons, String.reduceEq, if_true,
    if_false, Option.bind_eq_bind, Option.bind_some, hmoment, Option.bind_none, Option.map_none]

/-- A schedule that is written is read back; what is written of a payload is in
order and stable, exactly unless the platform shortens the year of its moment. -/
theorem schedule_round_trip_iff (digits : Digits) (lax : LaxInt) (padded : Bool) :
    (∀ s : Schedule, (∀ o, s = .once o → 1000 ≤ (civil o.date).year ∧ (civil o.date).year ≤ 9999) →
        parseSchedule digits lax (dumpSchedule padded s) = some s) ∧
      ∀ payload s, parseSchedule digits lax payload = some s →
        ((Canonical (dumpSchedule padded s) ∧
            (parseSchedule digits lax (dumpSchedule padded s)).map (dumpSchedule padded) =
              some (dumpSchedule padded s)) ↔
          padded = true ∨ ∀ year, atYear digits payload = some year → 1000 ≤ year) := by
  constructor
  · intro s hyears
    refine parseSchedule_dumpSchedule fun o ho ↦ ?_
    have := hyears o ho
    exact ⟨⟨by omega, this.2⟩, .inr this.1⟩
  · intro payload s hs
    obtain ⟨hyear, hnone⟩ := atYear_of_parseSchedule hs
    constructor
    · rintro ⟨-, hdump⟩
      refine or_iff_not_imp_left.mpr fun hpad year hat ↦ ?_
      rw [Bool.not_eq_true] at hpad
      subst hpad
      cases s with
      | once o =>
        obtain ⟨hyear, hfirst, -⟩ := hyear o rfl
        obtain rfl := Option.some_inj.mp (hyear.symm.trans hat)
        by_contra hshort
        rw [parseSchedule_short ⟨hfirst, not_le.mp hshort⟩] at hdump
        cases hdump
      | interval o | daily o | weekly o | monthly o =>
        cases (hnone fun _ ↦ Schedule.noConfusion).symm.trans hat
    · intro hwhole
      have hwritten : s.Written padded := by
        intro o ho
        obtain ⟨hyear, hrange⟩ := hyear o ho
        exact ⟨hrange, hwhole.imp_right fun h ↦ h _ hyear⟩
      rw [parseSchedule_dumpSchedule hwritten]
      exact ⟨canonical_dumpSchedule padded s, rfl⟩

/-- No `int` but what JSON has as one. -/
def LaxInt.strict : LaxInt where
  read
    | .int n => some n
    | _ => none
  read_int _ := rfl

/-- The first of January of the year 999. -/
def earlyYear : OnceSchedule := ⟨ordinal ⟨999, 1, 1⟩, .oclock 8⟩

/-- The year 999 comes back with three digits, which nobody reads. -/
theorem year_999_is_written_short :
    parseSchedule .ascii .strict (.obj
        [("kind", .str "once".toList), ("at", .str "0999-01-01T08:00".toList)]) =
      some (.once earlyYear) ∧
    parseSchedule .ascii .strict (dumpSchedule false (.once earlyYear)) = none := by
  have hread : parseSchedule .ascii .strict
      (.obj [("kind", .str "once".toList), ("at", .str "0999-01-01T08:00".toList)]) =
        some (.once earlyYear) := by
    decide +kernel
  exact ⟨hread, parseSchedule_short (by decide +kernel)⟩

end Payloads

end Remindo.Domain
