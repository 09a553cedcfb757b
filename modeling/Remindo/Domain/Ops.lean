import Mathlib.Data.Rat.Defs
import Remindo.Domain.Time

namespace Remindo.Domain

inductive AlertState
  | clear | firing
  deriving DecidableEq, Repr

/-- The edge worth one message. -/
inductive AlertKind
  | raised | cleared
  deriving DecidableEq, Repr

/-- One reading of the delivery queue, taken at a single moment. -/
structure QueueSnapshot where
  dueDeliveries : ℕ := 0
  oldestDueAt : Option ℤ := none
  delivered : ℕ := 0
  failed : ℕ := 0
  deriving DecidableEq

structure OpsReport where
  takenAt : ℤ
  queueSize : ℕ
  lag : ℤ
  errorRatio : ℚ
  deriving DecidableEq

structure AlertDecision where
  state : AlertState
  notify : Option AlertKind := none
  deriving DecidableEq

/-- A queue whose next attempt is in the future lags by zero. -/
def queueLag (snapshot : QueueSnapshot) (now : ℤ) : ℤ :=
  match snapshot.oldestDueAt with
  | none => 0
  | some oldest => max (now - oldest) 0

/-- An empty window is zero rather than one. -/
def errorRatio (snapshot : QueueSnapshot) : ℚ :=
  if snapshot.delivered + snapshot.failed ≤ 0 then 0
  else snapshot.failed / (snapshot.delivered + snapshot.failed : ℕ)

def buildReport (snapshot : QueueSnapshot) (now : ℤ) : OpsReport :=
  ⟨now, snapshot.dueDeliveries, queueLag snapshot now, errorRatio snapshot⟩

/-- A lag of exactly the threshold has not crossed it yet. -/
def decideAlert (state : AlertState) (lag threshold : ℤ) : AlertDecision :=
  match decide (threshold < lag), state with
  | true, .clear => ⟨.firing, some .raised⟩
  | false, .firing => ⟨.clear, some .cleared⟩
  | _, state => ⟨state, none⟩

namespace AlertKind

def opposite : AlertKind → AlertKind
  | raised => cleared
  | cleared => raised

/-- What the monitor believes once the edge has been reported. -/
def state : AlertKind → AlertState
  | raised => .firing
  | cleared => .clear

@[simp] theorem opposite_opposite (kind : AlertKind) : kind.opposite.opposite = kind := by
  cases kind <;> rfl

theorem eq_or_eq_opposite (kind kind' : AlertKind) : kind' = kind ∨ kind' = kind.opposite := by
  cases kind <;> cases kind' <;> simp [opposite]

theorem opposite_ne (kind : AlertKind) : kind.opposite ≠ kind := by cases kind <;> simp [opposite]

theorem state_injective {kind kind' : AlertKind} (h : kind.state = kind'.state) : kind = kind' := by
  cases kind <;> cases kind' <;> first | rfl | cases h

end AlertKind

/-- An edge is owed by the opposite belief, and without one nothing changes. -/
theorem decideAlert_cases (state : AlertState) (lag threshold : ℤ) :
    decideAlert state lag threshold = ⟨state, none⟩ ∨
      ∃ kind : AlertKind, state = kind.opposite.state ∧
        decideAlert state lag threshold = ⟨kind.state, some kind⟩ := by
  cases hlate : decide (threshold < lag) <;> cases state <;> simp only [decideAlert, hlate]
  · exact .inl trivial
  · exact .inr ⟨.cleared, rfl, rfl⟩
  · exact .inr ⟨.raised, rfl, rfl⟩
  · exact .inl trivial

end Remindo.Domain
