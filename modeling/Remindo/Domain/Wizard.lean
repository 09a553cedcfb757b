import Mathlib.Tactic.IntervalCases
import Remindo.Domain.LocalDates
import Remindo.Domain.Planning
import Remindo.Domain.UserText

namespace Remindo.Domain

open Remindo.Foundation

section Days

/-- `date.toordinal`, counted from the epoch. -/
def ordinal (c : Civil) : ℤ :=
  let y := c.year - 1
  y * 365 + y / 4 - y / 100 + y / 400 +
    ((List.range' 1 (c.month - 1)).map (daysInMonth c.year)).sum + c.day - 719163

/-- What the constructor of `date` accepts. -/
def Civil.Valid (c : Civil) : Prop :=
  1 ≤ c.year ∧ c.year ≤ 9999 ∧ 1 ≤ c.month ∧ c.month ≤ 12 ∧ 1 ≤ c.day ∧
    c.day ≤ daysInMonth c.year c.month

instance (c : Civil) : Decidable c.Valid := inferInstanceAs (Decidable (_ ∧ _))

theorem civilInYear_sum {year : ℤ} {r : ℕ} (k fuel month : ℕ)
    (h : r < daysInMonth year (month + k)) :
    civilInYear year (((List.range' month k).map (daysInMonth year)).sum + r) (k + fuel) month =
      ⟨year, month + k, r + 1⟩ := by
  induction k generalizing month with
  | zero =>
    cases fuel with
    | zero => simp [civilInYear]
    | succ fuel => simp_all [civilInYear]
  | succ k ih =>
    have hnext := ih (month + 1) (by rwa [Nat.add_assoc, Nat.add_comm 1 k])
    rw [List.range'_succ, List.map_cons, List.sum_cons, Nat.add_right_comm k 1 fuel, civilInYear,
      if_neg (by omega), Nat.add_assoc (daysInMonth year month), Nat.add_sub_cancel_left, hnext]
    simp [Nat.add_assoc, Nat.add_comm 1 k]

theorem sum_daysInMonth_le (year : ℤ) {month : ℕ} (h : 1 ≤ month ∧ month ≤ 12) :
    ((List.range' 1 (month - 1)).map (daysInMonth year)).sum + daysInMonth year month ≤
      if isLeap year then 366 else 365 := by
  obtain ⟨hlow, hhigh⟩ := h
  interval_cases month <;> cases hleap : isLeap year <;> simp [daysInMonth, hleap, List.range']

/-- The cycles of 400, 100, 4 and 1 years a day stands in. -/
theorem civil_of_cycles {d a b c e : ℤ} {r : ℕ}
    (hd : d + 719162 = a * 146097 + b * 36524 + c * 1461 + e * 365 + r) (hb : 0 ≤ b ∧ b ≤ 3)
    (hc : 0 ≤ c ∧ c ≤ 24) (he : 0 ≤ e ∧ e ≤ 3) (hr : r ≤ 365)
    (hleap : r = 365 → e = 3 ∧ (c = 24 → b = 3)) :
    civil d = civilInYear (a * 400 + b * 100 + c * 4 + e + 1) r 11 1 := by
  have ha : (d + 719162) / 146097 = a := by omega
  have hrest : (d + 719162) % 146097 = b * 36524 + c * 1461 + e * 365 + r := by omega
  have hcentury : min ((b * 36524 + c * 1461 + e * 365 + r) / 36524) 3 = b := by omega
  have hfour : (b * 36524 + c * 1461 + e * 365 + r - b * 36524) / 1461 = c := by omega
  have hrest' : (b * 36524 + c * 1461 + e * 365 + r - b * 36524) % 1461 = e * 365 + r := by omega
  have hone : min ((e * 365 + (r : ℤ)) / 365) 3 = e := by omega
  have hday : (e * 365 + (r : ℤ) - e * 365).toNat = r := by omega
  rw [civil, ha, hrest, hcentury, hfour, hrest', hone, hday]

theorem civil_ordinal {c : Civil} (h : c.Valid) : civil (ordinal c) = c := by
  obtain ⟨-, -, hmonth, hdecember, hday, hlast⟩ := h
  obtain ⟨year, month, d⟩ := c
  dsimp only at hmonth hdecember hday hlast
  have hfit := sum_daysInMonth_le year ⟨hmonth, hdecember⟩
  have hwalk := @civilInYear_sum year (d - 1) (month - 1) (12 - month) 1 (by
    rw [Nat.add_sub_cancel' hmonth]; omega)
  rw [Nat.add_sub_cancel' hmonth, Nat.sub_add_cancel hday,
    show month - 1 + (12 - month) = 11 by omega] at hwalk
  generalize hsum : ((List.range' 1 (month - 1)).map (daysInMonth year)).sum = sum at hfit hwalk
  have hlong : sum + (d - 1) = 365 → isLeap year = true := by
    intro hlong
    by_contra hleap
    rw [if_neg hleap] at hfit
    omega
  simp only [isLeap, decide_eq_true_eq] at hlong
  have hshort : sum + (d - 1) ≤ 365 := by split at hfit <;> omega
  have hyear : year = (year - 1) / 400 * 400 + (year - 1) % 400 / 100 * 100 +
      (year - 1) % 100 / 4 * 4 + (year - 1) % 4 + 1 := by omega
  have hcycles := @civil_of_cycles (ordinal ⟨year, month, d⟩) ((year - 1) / 400)
    ((year - 1) % 400 / 100) ((year - 1) % 100 / 4) ((year - 1) % 4) (sum + (d - 1))
    (by simp only [ordinal, hsum]; omega) (by omega) (by omega) (by omega) hshort (by omega)
  rw [hcycles, ← hyear, hwalk]

/-- The month a walk of `n` days ends in, and how far into it. -/
theorem exists_civilInYear {year : ℤ} {n fuel month : ℕ} (h : n < daysLeft year fuel month) :
    ∃ k r, k ≤ fuel ∧ r < daysInMonth year (month + k) ∧
      civilInYear year n fuel month = ⟨year, month + k, r + 1⟩ ∧
        ((List.range' month k).map (daysInMonth year)).sum + r = n := by
  induction fuel generalizing n month with
  | zero => exact ⟨0, n, le_rfl, h, rfl, by simp⟩
  | succ fuel ih =>
    rw [civilInYear]
    split
    · exact ⟨0, n, Nat.zero_le _, ‹_›, rfl, by simp⟩
    · rw [daysLeft] at h
      obtain ⟨k, r, hk, hr, hwalk, hsum⟩ := @ih (n - daysInMonth year month) (month + 1) (by omega)
      rw [Nat.add_right_comm] at hr hwalk
      refine ⟨k + 1, r, by omega, hr, hwalk, ?_⟩
      rw [List.range'_succ, List.map_cons, List.sum_cons]
      omega

theorem ordinal_civil (d : ℤ) : ordinal (civil d) = d ∧
    (1 ≤ (civil d).month ∧ (civil d).month ≤ 12) ∧ 1 ≤ (civil d).day := by
  obtain ⟨a, b, c, e, n, hd, hb, hc, he, hn, hcivil⟩ := exists_cycles d
  obtain ⟨k, r, hk, -, hwalk, hsum⟩ := exists_civilInYear hn
  rw [hcivil, hwalk]
  refine ⟨?_, ⟨Nat.le_add_right 1 k, by dsimp only; omega⟩, Nat.le_add_left 1 r⟩
  simp only [ordinal, Nat.add_sub_cancel_left]
  omega

theorem civil_valid {d : ℤ} (h : 1 ≤ (civil d).year ∧ (civil d).year ≤ 9999) : (civil d).Valid := by
  obtain ⟨-, ⟨hmonth, hdecember⟩, hday⟩ := ordinal_civil d
  exact ⟨h.1, h.2, hmonth, hdecember, hday, civil_day_le d⟩

end Days

section Input

/-- `ValidationError` of a typed date, by the message it is raised with. -/
inductive DateError
  /-- `unclear date: ` and the raw text -/
  | unclear (raw : Text)
  /-- `date outside the wizard horizon: ` and the date -/
  | outsideHorizon (d : ℤ)
  deriving DecidableEq

/-- The user's current calendar day. -/
def localToday (now : ℤ) (tz : WallClock) : ℤ := dateOf (astimezone now tz)

/-- A decimal number. The pattern takes every `\d`, `fromisoformat` the ASCII
ones only. -/
def number (text : Text) : Option ℕ :=
  if text.all Char.isDigit then some (text.foldl (fun n c ↦ 10 * n + (c.toNat - 48)) 0) else none

/-- A calendar date as `YYYY-MM-DD`; `none` where the source raises. -/
def parseLocalDate : Text → Option ℤ
  | [y₁, y₂, y₃, y₄, '-', m₁, m₂, '-', d₁, d₂] => do
    let year ← number [y₁, y₂, y₃, y₄]
    let month ← number [m₁, m₂]
    let dayOfMonth ← number [d₁, d₂]
    let c : Civil := ⟨year, month, dayOfMonth⟩
    if c.Valid then some (ordinal c) else none
  | _ => none

/-- A day inside `[today, today + max_days_ahead]`. -/
def parseUserDate (raw : Text) (today : ℤ) : Except DateError ℤ :=
  match parseLocalDate (Text.strip raw) with
  | none => .error (.unclear raw)
  | some d => if today ≤ d ∧ d ≤ today + wizardMaxDaysAhead then .ok d else .error (.outsideHorizon d)

/-- A single wall-clock moment. -/
def buildOnceSchedule (d : ℤ) (time : WallTime) : Schedule := .once ⟨d, time⟩

example : parseUserDate " 2027-06-02\n".toList 20605 = .ok 20971 ∧
    parseUserDate "2027-06-03".toList 20605 = .error (.outsideHorizon 20972) ∧
    parseUserDate "2027-02-29".toList 20605 = .error (.unclear "2027-02-29".toList) := by
  decide

theorem parseUserDate_eq_ok {raw : Text} {today d : ℤ} (h : parseUserDate raw today = .ok d) :
    today ≤ d ∧ d ≤ today + wizardMaxDaysAhead := by
  rw [parseUserDate] at h
  split at h
  · cases h
  · split at h
    · cases h
      assumption
    · cases h

end Input

section Horizon

variable {d now : ℤ} {time : WallTime}

theorem firstFireAt_once (d : ℤ) (time : WallTime) (tz : WallClock) (now : ℤ) :
    firstFireAt (buildOnceSchedule d time) tz now =
      if now ≤ toUtc (combine d time) tz ∧
          toUtc (combine d time) tz ≤ now + wizardMaxDaysAhead * day then
        some (toUtc (combine d time) tz) else none := by
  have hopen : ¬(1 = 0 ∨ now + wizardMaxDaysAhead * day ≤ now - boundary) := by
    simp only [wizardMaxDaysAhead, boundary, day]
    omega
  have hstart : now - boundary < toUtc (combine d time) tz ↔ now ≤ toUtc (combine d time) tz := by
    rw [boundary]
    omega
  rw [firstFireAt, buildOnceSchedule, nextOccurrences, if_neg hopen]
  simp only [OnceSchedule.naive, hstart]
  split <;> rfl

/-- Days, zones and offsets apart, the search reaches 363 days ahead. -/
theorem combine_le_astimezone {tz : WallClock} (hbounded : tz.Bounded)
    (hd : d ≤ localToday now tz + 363) :
    combine d time ≤ astimezone (now + wizardMaxDaysAhead * day) tz := by
  have hnow := astimezone_near now hbounded
  have hlate := astimezone_near (now + wizardMaxDaysAhead * day) hbounded
  have htime := time.micros_lt_day
  simp only [combine, localToday, dateOf, wizardMaxDaysAhead, day] at *
  omega

end Horizon

end Remindo.Domain
