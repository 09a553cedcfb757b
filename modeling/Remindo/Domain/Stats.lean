import Mathlib.Data.Finset.Lattice.Fold
import Mathlib.Data.List.Sort
import Mathlib.Order.Lattice.Nat
import Remindo.Domain.Contracts
import Remindo.Domain.Time

namespace Remindo.Domain

/-- How far back the journal is read, in days. -/
def statsHistoryDays : ℤ := 30

structure ActionRecord where
  happenedAt : ℤ
  kind : ActionKind
  categoryId : ℕ := 0
  deriving DecidableEq

structure PeriodStats where
  completed : ℕ
  total : ℕ
  deriving DecidableEq

structure CategoryStats where
  categoryId : ℕ
  currentStreak : ℕ
  longestStreak : ℕ
  last7Days : PeriodStats
  last30Days : PeriodStats
  deriving DecidableEq

structure StatsSummary where
  currentStreak : ℕ
  longestStreak : ℕ
  last7Days : PeriodStats
  last30Days : PeriodStats
  byCategory : List CategoryStats
  deriving DecidableEq

/-- The rolling window `(now - days, now]`. -/
def inPeriod (now days happenedAt : ℤ) : Bool :=
  decide (now - days * day < happenedAt ∧ happenedAt ≤ now)

def period (records : List ActionRecord) (now days : ℤ) : PeriodStats :=
  let window := records.filter fun r ↦ inPeriod now days r.happenedAt
  ⟨window.countP fun r ↦ decide (r.kind = .done), window.length⟩

/-- Days in a row that are in the set, from `cursor` on in steps of `step`; no
run is longer than the set, which bounds the loop. -/
def runLength (doneDays : Finset ℤ) (step : ℤ) : ℕ → ℤ → ℕ
  | 0, _ => 0
  | fuel + 1, cursor =>
    if cursor ∈ doneDays then runLength doneDays step fuel (cursor + step) + 1 else 0

/-- An empty today does not break the streak until the day is over. -/
def currentStreak (doneDays : Finset ℤ) (today : ℤ) : ℕ :=
  runLength doneDays (-1) doneDays.card (if today ∈ doneDays then today else today - 1)

def longestStreak (doneDays : Finset ℤ) : ℕ :=
  doneDays.sup fun d ↦ if d - 1 ∈ doneDays then 0 else runLength doneDays 1 doneDays.card d

def doneDays (outcomes : List ActionRecord) (tz : WallClock) : Finset ℤ :=
  ((outcomes.filter fun r ↦ decide (r.kind = .done)).map fun r ↦
    dateOf (astimezone r.happenedAt tz)).toFinset

/-- One entry per category with an outcome, ordered by id. -/
def breakdown (outcomes : List ActionRecord) (tz : WallClock) (now : ℤ) : List CategoryStats :=
  ((outcomes.map ActionRecord.categoryId).dedup.insertionSort (· ≤ ·)).map fun categoryId ↦
    let slice := outcomes.filter fun r ↦ decide (r.categoryId = categoryId)
    { categoryId := categoryId
      currentStreak := currentStreak (doneDays slice tz) (dateOf (astimezone now tz))
      longestStreak := longestStreak (doneDays slice tz)
      last7Days := period slice now 7
      last30Days := period slice now 30 }

def buildSummary (records : List ActionRecord) (tz : WallClock) (now : ℤ) : StatsSummary :=
  let outcomes := records.filter fun r ↦ r.kind.isOutcome
  { currentStreak := currentStreak (doneDays outcomes tz) (dateOf (astimezone now tz))
    longestStreak := longestStreak (doneDays outcomes tz)
    last7Days := period outcomes now 7
    last30Days := period outcomes now 30
    byCategory := breakdown outcomes tz now }

end Remindo.Domain
