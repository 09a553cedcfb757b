import Remindo.Domain.Time

namespace Remindo.Domain

/-- The `times` of a schedule as its validators leave them: sorted, without
repetitions, one to twelve. -/
structure Times where
  values : List WallTime
  sorted : values.Pairwise fun a b ↦ a.micros < b.micros
  nonempty : values ≠ []
  bounded : values.length ≤ 12
  deriving DecidableEq

structure DayNumbers (top : ℕ) where
  values : List ℕ
  sorted : values.Pairwise (· < ·)
  nonempty : values ≠ []
  inRange : ∀ n ∈ values, 1 ≤ n ∧ n ≤ top
  deriving DecidableEq

inductive OnMissingDay
  | lastDay | skip
  deriving DecidableEq, Repr

structure OnceSchedule where
  date : ℤ
  time : WallTime
  deriving DecidableEq

structure IntervalSchedule where
  everyMinutes : ℕ
  windowStart : WallTime
  windowEnd : WallTime
  inRange : 5 ≤ everyMinutes ∧ everyMinutes ≤ 1440
  deriving DecidableEq

structure DailySchedule where
  times : Times
  everyNDays : ℕ
  inRange : 1 ≤ everyNDays ∧ everyNDays ≤ 366
  deriving DecidableEq

structure WeeklySchedule where
  times : Times
  weekdays : DayNumbers 7
  deriving DecidableEq

structure MonthlySchedule where
  times : Times
  days : DayNumbers 31
  onMissingDay : OnMissingDay
  deriving DecidableEq

inductive Schedule
  | once (s : OnceSchedule)
  | interval (s : IntervalSchedule)
  | daily (s : DailySchedule)
  | weekly (s : WeeklySchedule)
  | monthly (s : MonthlySchedule)
  deriving DecidableEq

def OnceSchedule.naive (s : OnceSchedule) : ℤ := combine s.date s.time

end Remindo.Domain
