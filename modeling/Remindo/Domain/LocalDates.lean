import Remindo.Domain.Recurrence

namespace Remindo.Domain

open Remindo.Foundation

section Civil

/-- The days from the first of `month` to the end of the year, `fuel` months on. -/
def daysLeft (year : ℤ) : ℕ → ℕ → ℕ
  | 0, month => daysInMonth year month
  | fuel + 1, month => daysInMonth year month + daysLeft year fuel (month + 1)

theorem civilInYear_day_le {year : ℤ} {n fuel month : ℕ} (h : n < daysLeft year fuel month) :
    (civilInYear year n fuel month).day ≤
      daysInMonth (civilInYear year n fuel month).year (civilInYear year n fuel month).month := by
  induction fuel generalizing n month with
  | zero => exact h
  | succ fuel ih =>
    rw [civilInYear]
    split
    · assumption
    · rw [daysLeft] at h
      exact ih (by omega)

theorem daysLeft_january (year : ℤ) : daysLeft year 11 1 = if isLeap year then 366 else 365 := by
  cases h : isLeap year <;> simp [daysLeft, daysInMonth, h]

theorem isLeap_of_last_day {q a b r : ℤ} (ha : 0 ≤ a ∧ a ≤ 3) (hb : 0 ≤ b ∧ b ≤ 24)
    (hr : r < 1461) (hcycle : a < 3 → b * 1461 + r < 36524)
    (hlast : 365 ≤ r - min (r / 365) 3 * 365) :
    isLeap (q * 400 + a * 100 + b * 4 + min (r / 365) 3 + 1) = true := by
  rw [show min (r / 365) 3 = 3 by omega] at hlast ⊢
  simp only [isLeap, decide_eq_true_eq]
  rcases hb.2.eq_or_lt with rfl | hb24
  · obtain rfl : a = 3 := by omega
    omega
  · omega

/-- The cycles of 400, 100, 4 and 1 years a day stands in, and its day of the year. -/
theorem exists_cycles (d : ℤ) : ∃ (a b c e : ℤ) (r : ℕ),
    d + 719162 = a * 146097 + b * 36524 + c * 1461 + e * 365 + r ∧ (0 ≤ b ∧ b ≤ 3) ∧
      (0 ≤ c ∧ c ≤ 24) ∧ (0 ≤ e ∧ e ≤ 3) ∧ r < daysLeft (a * 400 + b * 100 + c * 4 + e + 1) 11 1 ∧
        civil d = civilInYear (a * 400 + b * 100 + c * 4 + e + 1) r 11 1 := by
  refine ⟨_, _, _, _, _, ?_, ?_, ?_, ?_, ?_, rfl⟩
  · omega
  · omega
  · omega
  · omega
  · rw [daysLeft_january]
    split
    · omega
    · rename_i hleap
      by_contra hlong
      refine hleap (isLeap_of_last_day ?_ ?_ ?_ ?_ (by simpa using hlong)) <;> omega

theorem civil_day_le (d : ℤ) : (civil d).day ≤ daysInMonth (civil d).year (civil d).month := by
  obtain ⟨a, b, c, e, r, -, -, -, -, hr, hcivil⟩ := exists_cycles d
  rw [hcivil]
  exact civilInYear_day_le hr

end Civil

section Calendar

variable {schedule : Schedule} {tz : WallClock} {d m : ℤ}

namespace Schedule

/-- The schedules that fire at wall-clock times of selected dates. -/
def isCalendar : Schedule → Bool
  | .daily _ | .weekly _ | .monthly _ => true
  | .interval _ | .once _ => false

def times : Schedule → List WallTime
  | .daily s => s.times.values
  | .weekly s => s.times.values
  | .monthly s => s.times.values
  | .interval _ | .once _ => []

def Selects (schedule : Schedule) (d : ℤ) : Prop :=
  match schedule with
  | .daily s => d % s.everyNDays = 0
  | .weekly s => isoweekday d ∈ s.weekdays.values
  | .monthly s =>
    (civil d).day ∈ s.days.values ∨ s.onMissingDay = .lastDay ∧
      (civil d).day = daysInMonth (civil d).year (civil d).month ∧
        ∃ wanted ∈ s.days.values, daysInMonth (civil d).year (civil d).month < wanted
  | .interval _ | .once _ => False

end Schedule

theorem mem_monthlyWanted {s : MonthlySchedule} {n k : ℕ} (hk : k ≤ n) :
    k ∈ monthlyWanted s n ↔ k ∈ s.days.values ∨
      s.onMissingDay = .lastDay ∧ k = n ∧ ∃ wanted ∈ s.days.values, n < wanted := by
  rw [monthlyWanted, List.mem_filterMap]
  constructor
  · rintro ⟨wanted, hwanted, h⟩
    split at h
    · cases h
      exact .inl hwanted
    · split at h
      · cases h
        exact .inr ⟨‹_›, rfl, wanted, hwanted, not_le.mp ‹_›⟩
      · cases h
  · rintro (hwanted | ⟨hlast, rfl, wanted, hwanted, hlt⟩)
    · exact ⟨k, hwanted, if_pos hk⟩
    · exact ⟨wanted, hwanted, by rw [if_neg (not_le.mpr hlt), hlast]⟩

theorem mem_momentsForDay_iff (h : schedule.isCalendar = true) :
    m ∈ momentsForDay schedule tz d ↔
      schedule.Selects d ∧ ∃ t ∈ schedule.times, m = toUtc (combine d t) tz := by
  have hat : ∀ times : Times, m ∈ atTimes times tz d ↔
      ∃ t ∈ times.values, m = toUtc (combine d t) tz := by
    intro times
    simp only [atTimes, List.mem_map, eq_comm]
  have hif : ∀ {p : Prop} [Decidable p] (times : Times), m ∈ (if p then atTimes times tz d else []) ↔
      p ∧ ∃ t ∈ times.values, m = toUtc (combine d t) tz := by
    intro p _ times
    by_cases hp : p
    · rw [if_pos hp, hat]
      simp [hp]
    · simp [hp]
  cases schedule with
  | interval s | once s => cases h
  | daily s | weekly s => exact hif s.times
  | monthly s =>
    refine (hif s.times).trans (and_congr_left' ?_)
    exact mem_monthlyWanted (civil_day_le d)

/-- The date of the moment is selected, and its time is wanted or the first
there is of that date after a wanted one. -/
def KeepsWallClock (schedule : Schedule) (tz : WallClock) (m : ℤ) : Prop :=
  schedule.Selects (dateOf (astimezone m tz)) ∧
    ∃ t ∈ schedule.times, timeOf (astimezone m tz) = t.micros ∨
      Skips tz m (combine (dateOf (astimezone m tz)) t)

/-- At `m` the clock jumps over a wanted time and on to another date, one that
is not selected or none of whose wanted times it has reached. -/
def Strays (schedule : Schedule) (tz : WallClock) (m : ℤ) : Prop :=
  (∃ d, schedule.Selects d ∧ (∃ t ∈ schedule.times, Skips tz m (combine d t)) ∧
      dateOf (astimezone m tz) ≠ d) ∧
    (schedule.Selects (dateOf (astimezone m tz)) →
      ∀ t ∈ schedule.times, timeOf (astimezone m tz) < t.micros)

theorem combine_dateOf_lt_iff {n : ℤ} {t : WallTime} :
    combine (dateOf n) t < n ↔ t.micros < timeOf n := by
  simp only [combine, dateOf, timeOf, day]
  omega

theorem eq_combine_iff {n d : ℤ} {t : WallTime} :
    n = combine d t ↔ dateOf n = d ∧ timeOf n = t.micros := by
  have := t.micros_nonneg
  have := t.micros_lt_day
  simp only [combine, dateOf, timeOf, day] at *
  omega

/-- A moment of a selected date keeps to the wall clock unless it strays. -/
theorem keepsWallClock_iff {t : WallTime} (hselects : schedule.Selects d) (ht : t ∈ schedule.times)
    (hm : m = toUtc (combine d t) tz) : KeepsWallClock schedule tz m ↔ ¬Strays schedule tz m := by
  constructor
  · rintro ⟨hdate, s, hs, htime⟩ ⟨-, hnone⟩
    have hlate := hnone hdate s hs
    rcases htime with heq | ⟨-, hskips⟩
    · omega
    · have := combine_dateOf_lt_iff.mp hskips
      omega
  · intro hstays
    subst hm
    by_cases hshown : astimezone (toUtc (combine d t) tz) tz = combine d t
    · obtain ⟨hdate, htime⟩ := eq_combine_iff.mp hshown
      exact ⟨by rwa [hdate], t, ht, .inl htime⟩
    have hskips := skips_toUtc (second_dvd_combine d t) hshown
    by_cases hsame : dateOf (astimezone (toUtc (combine d t) tz) tz) = d
    · exact ⟨by rwa [hsame], t, ht, .inr (by rwa [hsame])⟩
    -- The jump ends on a later date, where a wanted time has been reached.
    have hlater : d < dateOf (astimezone (toUtc (combine d t) tz) tz) := by
      have := t.micros_nonneg
      have hlt := hskips.2
      simp only [combine, dateOf, day] at hlt hsame ⊢
      omega
    obtain ⟨hdate, s, hs, hle⟩ : schedule.Selects (dateOf (astimezone (toUtc (combine d t) tz) tz)) ∧
        ∃ s ∈ schedule.times, s.micros ≤ timeOf (astimezone (toUtc (combine d t) tz) tz) := by
      by_contra hnone
      push Not at hnone
      exact hstays ⟨⟨d, hselects, ⟨t, ht, hskips⟩, hsame⟩, hnone⟩
    refine ⟨hdate, s, hs, hle.eq_or_lt.imp Eq.symm fun hlt ↦ ⟨?_, ?_⟩⟩
    · exact hskips.1.trans_le (combine_le_combine hlater)
    · exact combine_dateOf_lt_iff.mpr hlt

theorem mem_nextOccurrences_calendar {after til : ℤ} {limit : ℕ} (h : schedule.isCalendar = true)
    (hm : m ∈ nextOccurrences schedule tz after til limit) :
    ∃ d, schedule.Selects d ∧ ∃ t ∈ schedule.times, m = toUtc (combine d t) tz := by
  have hfires := (mem_nextOccurrences hm).1
  cases schedule with
  | interval s | once s => cases h
  | daily s | weekly s | monthly s =>
    obtain ⟨d, hd⟩ := hfires
    exact ⟨d, (mem_momentsForDay_iff h).mp hd⟩

theorem nextOccurrences_calendar (h : schedule.isCalendar = true) (after til : ℤ) (limit : ℕ) :
    nextOccurrences schedule tz after til limit = if limit = 0 ∨ til ≤ after then [] else
      ((collect (momentsForDay schedule tz) after til (limit + safetyBuffer)
        (localDays tz after til) []).insertionSort (· ≤ ·)).take limit := by
  cases schedule with
  | interval s | once s => cases h
  | daily s | weekly s | monthly s => rfl

/-- The instant of a jump over a wanted time is returned where it is asked for. -/
theorem mem_nextOccurrences_of_skips {t : WallTime} (h : schedule.isCalendar = true)
    (hbounded : tz.Bounded) (hselects : schedule.Selects d) (ht : t ∈ schedule.times)
    (hskips : Skips tz m (combine d t)) : m ∈ nextOccurrences schedule tz (m - 1) m 1 := by
  have hm : m ∈ momentsForDay schedule tz d :=
    (mem_momentsForDay_iff h).mpr ⟨hselects, t, ht, (hskips.toUtc_eq (second_dvd_combine d t)).symm⟩
  have hd : d ∈ localDays tz (m - 1) m := by
    obtain ⟨hlow, hhigh⟩ := hskips
    have := t.micros_nonneg
    have := t.micros_lt_day
    rw [mem_localDays hbounded (by simp only [day]; omega)]
    simp only [combine, dateOf, day] at *
    omega
  obtain ⟨gone, rest, hsplit, -, hmem, hrest⟩ := collect_spec (momentsForDay schedule tz)
    (m - 1) m (1 + safetyBuffer) (localDays tz (m - 1) m) [] List.nodup_nil
  rw [nextOccurrences_calendar h, if_neg (by omega)]
  generalize collect (momentsForDay schedule tz) (m - 1) m (1 + safetyBuffer)
    (localDays tz (m - 1) m) [] = found at hmem hrest
  have honly : ∀ x ∈ found, x = m := by
    intro x hx
    obtain hnil | ⟨-, -, -, hrange⟩ := (hmem x).mp hx
    · cases hnil
    · omega
  have hfound : m ∈ found := by
    rcases hrest with rfl | hcap
    · rw [List.append_nil] at hsplit
      exact (hmem m).mpr (.inr ⟨d, hsplit ▸ hd, hm, by omega, le_rfl⟩)
    · obtain ⟨x, hx⟩ := List.exists_mem_of_length_pos (show 0 < found.length by omega)
      exact honly x hx ▸ hx
  rw [← List.mem_insertionSort (· ≤ ·)] at hfound
  cases hsorted : found.insertionSort (· ≤ ·) with
  | nil =>
    rw [hsorted] at hfound
    cases hfound
  | cons x xs =>
    have hx : x ∈ found.insertionSort (· ≤ ·) := hsorted ▸ List.mem_cons_self
    rw [honly x ((List.mem_insertionSort _).mp hx)]
    exact List.mem_cons_self

/-- A calendar schedule keeps to the wall clock of its dates in whatever it
returns, exactly if the clock never takes one of its moments astray. -/
theorem keepsWallClock_iff_never_strays (h : schedule.isCalendar = true) (hbounded : tz.Bounded) :
    (∀ (after til : ℤ) (limit : ℕ), ∀ m ∈ nextOccurrences schedule tz after til limit,
        KeepsWallClock schedule tz m) ↔ ∀ m, ¬Strays schedule tz m := by
  constructor
  · intro hkeeps m hstrays
    obtain ⟨d, hselects, ⟨t, ht, hskips⟩, -⟩ := hstrays.1
    have hm := (hskips.toUtc_eq (second_dvd_combine d t)).symm
    refine (keepsWallClock_iff hselects ht hm).mp ?_ hstrays
    exact hkeeps _ _ _ m (mem_nextOccurrences_of_skips h hbounded hselects ht hskips)
  · intro hstays after til limit m hm
    obtain ⟨d, hselects, t, ht, heq⟩ := mem_nextOccurrences_calendar h hm
    exact (keepsWallClock_iff hselects ht heq).mpr (hstays m)

/-- Every morning, whatever the clock does in spring. -/
theorem keepsWallClock_iff_never_strays_spring :
    (∀ (after til : ℤ) (limit : ℕ), ∀ m ∈ nextOccurrences everyMorning springForward after til limit,
        KeepsWallClock everyMorning springForward m) ↔ ∀ m, ¬Strays everyMorning springForward m :=
  keepsWallClock_iff_never_strays rfl springForward.bounded

/-- On a Friday that was left out, a reminder of Fridays fires on the Saturday. -/
theorem friday_fires_on_saturday :
    1325239200 * second ∈ nextOccurrences (weeklyFrom 15338 (.oclock 8)) dateLine
        (1325239200 * second - 1) (1325239200 * second) 1 ∧
      ¬KeepsWallClock (weeklyFrom 15338 (.oclock 8)) dateLine (1325239200 * second) := by
  have hskips : Skips dateLine (1325239200 * second) (combine 15338 (.oclock 8)) := by decide
  refine ⟨mem_nextOccurrences_of_skips rfl dateLine.bounded
    (show isoweekday 15338 ∈ [isoweekday 15338] by simp) List.mem_cons_self hskips, fun hkeeps ↦ ?_⟩
  have hdate : isoweekday (dateOf (astimezone (1325239200 * second) dateLine)) ∈
      [isoweekday 15338] := hkeeps.1
  revert hdate
  decide

end Calendar

end Remindo.Domain
