import Remindo.Domain.Contracts
import Remindo.Domain.QuietHours

namespace Remindo.Domain

/-- Why a tap changes nothing. -/
inductive RejectReason
  | alreadyHandled | expired
  deriving DecidableEq, Repr

/-- What the service writes back for one accepted tap. -/
structure Reaction where
  kind : ActionKind
  status : DeliveryStatus
  reactedAt : Option ℤ
  snoozedUntil : Option ℤ
  deriving DecidableEq

def Reaction.isTerminal (reaction : Reaction) : Bool := reaction.status.isTerminal

def terminalStatus : ActionKind → Option DeliveryStatus
  | .done => some .done
  | .skip => some .skipped
  | .snooze | .autoExpire => none

def occurrenceRollup : ActionKind → Option OccurrenceStatus
  | .done => some .done
  | .skip => some .skipped
  | .snooze | .autoExpire => none

/-- Delivery is waiting out a snooze that has not run out yet. -/
def isPostponed (deliveryStatus : DeliveryStatus) (snoozedUntil : Option ℤ) (now : ℤ) : Bool :=
  decide (deliveryStatus = .snoozed) && snoozedUntil.any fun til ↦ decide (now < til)

def checkReactable (kind : ActionKind) (deliveryStatus : DeliveryStatus)
    (occurrenceStatus : OccurrenceStatus) (expiresAt : ℤ) (snoozedUntil : Option ℤ) (now : ℤ) :
    Option RejectReason :=
  if deliveryStatus.isTerminal then some .alreadyHandled
  else if occurrenceStatus.isTerminal ∨ expiresAt ≤ now then some .expired
  else if kind = .snooze ∧ isPostponed deliveryStatus snoozedUntil now then some .alreadyHandled
  else none

/-- When a snoozed reminder comes back: silence postpones it, but only as far
as the occurrence lives. -/
def postpone (now : ℤ) (snoozeMinutes : ℕ) (quiet : QuietHours) (expiresAt : ℤ) : ℤ :=
  let requested := now + snoozeMinutes * minute
  let postponed := quiet.shift requested
  if expiresAt ≤ postponed then requested else postponed

def decideReaction (kind : ActionKind) (now : ℤ) (snoozeMinutes : ℕ) (quiet : QuietHours)
    (expiresAt : ℤ) : Except ServiceError Reaction :=
  if kind = .snooze then
    if snoozeMinutes < 1 then .error .valueError
    else .ok ⟨kind, .snoozed, none, some (postpone now snoozeMinutes quiet expiresAt)⟩
  else match terminalStatus kind with
    | none => .error .valueError
    | some status => .ok ⟨kind, status, some now, none⟩

/-- A shared occurrence is only closed by the recipient who answers last. -/
def rollUpOccurrence (kind : ActionKind) (everyDeliveryTerminal : Bool) :
    Option OccurrenceStatus :=
  if everyDeliveryTerminal then occurrenceRollup kind else none

theorem checkReactable_eq_none {kind : ActionKind} {deliveryStatus : DeliveryStatus}
    {occurrenceStatus : OccurrenceStatus} {expiresAt now : ℤ} {snoozedUntil : Option ℤ}
    (h : checkReactable kind deliveryStatus occurrenceStatus expiresAt snoozedUntil now = none) :
    deliveryStatus.isTerminal = false ∧ occurrenceStatus.isTerminal = false ∧ now < expiresAt := by
  unfold checkReactable at h
  split at h
  · cases h
  · split at h
    · cases h
    · rename_i hdelivery hopen
      rw [not_or, Bool.not_eq_true, not_le] at hopen
      exact ⟨eq_false_of_ne_true hdelivery, hopen⟩

/-- A snooze that has not run out refuses the next one. -/
theorem not_isPostponed_of_checkReactable {deliveryStatus : DeliveryStatus}
    {occurrenceStatus : OccurrenceStatus} {expiresAt now : ℤ} {snoozedUntil : Option ℤ}
    (h : checkReactable .snooze deliveryStatus occurrenceStatus expiresAt snoozedUntil now = none) :
    isPostponed deliveryStatus snoozedUntil now = false := by
  unfold checkReactable at h
  split at h
  · cases h
  · split at h
    · cases h
    · split at h
      · cases h
      · rename_i hfree
        exact eq_false_of_ne_true fun hpostponed ↦ hfree ⟨rfl, hpostponed⟩

theorem le_postpone (now : ℤ) (snoozeMinutes : ℕ) (quiet : QuietHours) (expiresAt : ℤ) :
    now + snoozeMinutes * minute ≤ postpone now snoozeMinutes quiet expiresAt := by
  rw [postpone]
  split
  · exact le_rfl
  · exact quiet.le_shift _

theorem postpone_lt {now : ℤ} {snoozeMinutes : ℕ} (quiet : QuietHours) {expiresAt : ℤ}
    (h : now + snoozeMinutes * minute < expiresAt) :
    postpone now snoozeMinutes quiet expiresAt < expiresAt := by
  rw [postpone]
  split
  · exact h
  · exact not_le.mp ‹_›

/-- An accepted tap is either a snooze, which answers nothing, or an answer
that leaves its outcome in both tables. -/
theorem decideReaction_eq_ok {kind : ActionKind} {now : ℤ} {snoozeMinutes : ℕ}
    {quiet : QuietHours} {expiresAt : ℤ} {reaction : Reaction}
    (h : decideReaction kind now snoozeMinutes quiet expiresAt = .ok reaction) :
    reaction.kind = kind ∧
      (kind = .snooze ∧ reaction.status = .snoozed ∨
        kind.isOutcome = true ∧ reaction.status.isAnswer = true ∧
          ∃ status, occurrenceRollup kind = some status ∧ (status = .done ∨ status = .skipped)) := by
  cases kind with
  | snooze =>
    rw [decideReaction, if_pos rfl] at h
    split at h
    · cases h
    · cases h
      exact ⟨rfl, .inl ⟨rfl, rfl⟩⟩
  | done =>
    cases h
    exact ⟨rfl, .inr ⟨rfl, rfl, _, rfl, .inl rfl⟩⟩
  | skip =>
    cases h
    exact ⟨rfl, .inr ⟨rfl, rfl, _, rfl, .inr rfl⟩⟩
  | autoExpire => cases h

end Remindo.Domain
