import Remindo.Foundation.LocalClock

namespace Remindo.Domain

open Remindo.Foundation
open LocalClock (Change reading firstReach Spaced JumpsWithin OffsetsAll)

/-! An aware `datetime` is its microseconds since the epoch in UTC, a naive one
the same count as a wall clock shows it, and a date the days since 1970-01-01. -/

abbrev second : ℤ := 1000000
abbrev minute : ℤ := 60000000
abbrev hour : ℤ := 3600000000
abbrev day : ℤ := 86400000000

/-- A naive, minute-precise `time`. -/
structure WallTime where
  hour : Fin 24
  minute : Fin 60
  deriving DecidableEq, Repr

namespace WallTime

/-- Microseconds since midnight. -/
def micros (t : WallTime) : ℤ := t.hour * Domain.hour + t.minute * Domain.minute

/-- A full hour. -/
def oclock (hour : ℕ) : WallTime := ⟨⟨hour % 24, by omega⟩, ⟨0, by omega⟩⟩

/-- `time(hour=hour)`. -/
def ofHour (hour : Fin 24) : WallTime := ⟨hour, ⟨0, by omega⟩⟩

theorem micros_nonneg (t : WallTime) : 0 ≤ t.micros := by
  simp only [micros, Domain.hour, Domain.minute]; omega

theorem micros_lt_day (t : WallTime) : t.micros < day := by
  have := t.hour.isLt
  have := t.minute.isLt
  simp only [micros, Domain.hour, Domain.minute, day]; omega

theorem second_dvd_micros (t : WallTime) : second ∣ t.micros := by
  simp only [micros, Domain.hour, Domain.minute, second]; omega

theorem micros_injective : Function.Injective micros := by
  intro t t' h
  have := t.minute.isLt
  have := t'.minute.isLt
  simp only [micros, Domain.hour, Domain.minute] at h
  obtain ⟨⟨_, _⟩, _⟩ := t
  obtain ⟨⟨_, _⟩, _⟩ := t'
  simp only [WallTime.mk.injEq, Fin.ext_iff] at *
  omega

end WallTime

/-- `datetime.combine`. -/
def combine (d : ℤ) (t : WallTime) : ℤ := d * day + t.micros

def dateOf (n : ℤ) : ℤ := n / day

/-- The time of day, in microseconds since midnight. -/
def timeOf (n : ℤ) : ℤ := n % day

theorem second_dvd_combine (d : ℤ) (t : WallTime) : second ∣ combine d t := by
  have := t.second_dvd_micros
  simp only [combine, second, day] at *; omega

theorem combine_le_combine {d d' : ℤ} {t t' : WallTime} (h : d < d') :
    combine d t ≤ combine d' t' := by
  have := t.micros_lt_day
  have := t'.micros_nonneg
  simp only [combine, day] at *; omega

theorem combine_le_combine_of_le {d d' : ℤ} {t t' : WallTime} (h : d ≤ d')
    (ht : t.micros ≤ t'.micros) : combine d t ≤ combine d' t' := by
  simp only [combine, day]; omega

section Calendar

def isLeap (year : ℤ) : Bool := year % 4 = 0 ∧ (year % 100 ≠ 0 ∨ year % 400 = 0)

/-- `calendar.monthrange(year, month)[1]`. -/
def daysInMonth (year : ℤ) (month : ℕ) : ℕ :=
  if month = 2 then (if isLeap year then 29 else 28)
  else if month = 4 ∨ month = 6 ∨ month = 9 ∨ month = 11 then 30
  else 31

structure Civil where
  year : ℤ
  month : ℕ
  day : ℕ
  deriving DecidableEq, Repr

/-- Walk the months of a year, `n` days counted from the first of `month`. -/
def civilInYear (year : ℤ) (n : ℕ) : ℕ → ℕ → Civil
  | 0, month => ⟨year, month, n + 1⟩
  | fuel + 1, month =>
    if n < daysInMonth year month then ⟨year, month, n + 1⟩
    else civilInYear year (n - daysInMonth year month) fuel (month + 1)

/-- The proleptic Gregorian date, by the cycles of 400, 100, 4 and 1 years
that start on 0001-01-01. -/
def civil (d : ℤ) : Civil :=
  let n := d + 719162
  let n400 := n / 146097
  let n := n % 146097
  let n100 := min (n / 36524) 3
  let n := n - n100 * 36524
  let n4 := n / 1461
  let n := n % 1461
  let n1 := min (n / 365) 3
  let n := n - n1 * 365
  civilInYear (n400 * 400 + n100 * 100 + n4 * 4 + n1 + 1) n.toNat 11 1

/-- `date.isoweekday`: Monday is 1. The epoch was a Thursday. -/
def isoweekday (d : ℤ) : ℕ := ((d + 3) % 7).toNat + 1

example : civil 0 = ⟨1970, 1, 1⟩ ∧ civil 11016 = ⟨2000, 2, 29⟩ ∧ civil 20453 = ⟨2025, 12, 31⟩ := by
  decide

end Calendar

/-- A wall clock as `zoneinfo` knows it: whole-second changes of the offset,
which never crowd each other's readings. -/
structure WallClock where
  base : ℤ
  changes : List Change
  spaced : Spaced base changes

/-- `datetime` refuses offsets of a day or more. -/
def WallClock.Bounded (tz : WallClock) : Prop :=
  OffsetsAll (fun o ↦ |o| < 86400) tz.base tz.changes

instance (tz : WallClock) : Decidable tz.Bounded := inferInstanceAs (Decidable (_ ∧ _))

/-- A time zone: no change turns the clock farther than by a day. -/
structure Zone extends WallClock where
  jumps : JumpsWithin 86400 base changes
  bounded : toWallClock.Bounded

namespace Zone

instance : Coe Zone WallClock := ⟨toWallClock⟩

/-- The zone that never leaves UTC. -/
def utc : Zone := ⟨⟨0, [], trivial⟩, trivial, by decide⟩

end Zone

/-- `moment.astimezone(tz)`, read as a wall clock. -/
def astimezone (moment : ℤ) (tz : WallClock) : ℤ :=
  moment + LocalClock.offsetAt tz.base tz.changes (moment / second) * second

/-- `datetime.fold`: which pass of a repeated reading is meant. -/
inductive Fold
  | zero | one
  deriving DecidableEq, Repr

/-- `naive.replace(tzinfo=tz, fold=fold).utcoffset()`. On the wall a change
sits at its later reading for the first pass and at its earlier one for the
second. -/
def utcoffset (naive : ℤ) (tz : WallClock) : Fold → ℤ
  | .zero => LocalClock.wallOffset max tz.base tz.changes (naive / second) * second
  | .one => LocalClock.wallOffset min tz.base tz.changes (naive / second) * second

theorem astimezone_ediv (u : ℤ) (tz : WallClock) :
    astimezone u tz / second = reading tz.base tz.changes (u / second) := by
  rw [astimezone, Int.add_mul_ediv_right _ _ (by decide), reading]

/-- A whole-second reading is reached at an instant exactly when its second
is. -/
theorem le_astimezone_iff {n : ℤ} (hn : second ∣ n) (u : ℤ) (tz : WallClock) :
    n ≤ astimezone u tz ↔ n / second ≤ reading tz.base tz.changes (u / second) := by
  rw [← astimezone_ediv]
  simp only [second] at *; omega

theorem astimezone_emod (u : ℤ) (tz : WallClock) : astimezone u tz % second = u % second := by
  rw [astimezone, Int.add_mul_emod_self_right]

/-- The wall clock never falls back by more than a day. -/
theorem astimezone_le_add {u v : ℤ} (tz : Zone) (h : u ≤ v) :
    astimezone u tz ≤ astimezone v tz + day := by
  by_cases hsame : u / second = v / second
  · simp only [astimezone, hsame, day]; omega
  have hlt : u / second < v / second := by simp only [second] at *; omega
  have hdrop := LocalClock.reading_lt_add tz.spaced tz.jumps (by decide) hlt
  rw [← astimezone_ediv, ← astimezone_ediv] at hdrop
  have hu := astimezone_emod u tz
  have hv := astimezone_emod v tz
  simp only [second, day] at *; omega

/-- The wall clock gets ahead of the time passed by nothing but its rises. -/
theorem astimezone_sub_le {u v : ℤ} (tz : WallClock) (h : u ≤ v) :
    astimezone v tz - astimezone u tz ≤
      v - u + LocalClock.rises tz.base tz.changes (u / second) (v / second) * second := by
  have hrise := LocalClock.reading_sub_le tz.spaced (Int.ediv_le_ediv (by decide : 0 < second) h)
  simp only [reading, astimezone, second] at *
  omega

theorem astimezone_near (u : ℤ) {tz : WallClock} (h : tz.Bounded) :
    u - day < astimezone u tz ∧ astimezone u tz < u + day := by
  have h := abs_lt.mp (h.offsetAt (u / second))
  simp only [astimezone, second, day] at *; omega

end Remindo.Domain
