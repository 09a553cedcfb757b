import Mathlib.Data.Nat.Notation

namespace Remindo.Domain

inductive ReminderStatus
  | active | paused | archived
  deriving DecidableEq, Repr

inductive OccurrenceStatus
  | pending | dispatching | sent | done | skipped | expired | failed
  deriving DecidableEq, Repr

inductive DeliveryStatus
  | pending | sent | done | skipped | snoozed | failed | blocked
  deriving DecidableEq, Repr

inductive RecipientRole
  | owner | watcher
  deriving DecidableEq, Repr

inductive ActionKind
  | done | snooze | skip | autoExpire
  deriving DecidableEq, Repr

/-- The transport failures the retry policy tells apart. -/
inductive ErrorClass
  | retryAfter | forbidden | badRequest | transient
  deriving DecidableEq, Repr

/-- `TERMINAL_DELIVERY_STATUSES`: further reactions are no-ops. -/
def DeliveryStatus.isTerminal : DeliveryStatus → Bool
  | .done | .skipped | .failed | .blocked => true
  | .pending | .sent | .snoozed => false

/-- `TERMINAL_OCCURRENCE_STATUSES`. -/
def OccurrenceStatus.isTerminal : OccurrenceStatus → Bool
  | .done | .skipped | .expired | .failed => true
  | .pending | .dispatching | .sent => false

/-- The statuses a recipient's answer leaves behind. -/
def DeliveryStatus.isAnswer : DeliveryStatus → Bool
  | .done | .skipped => true
  | _ => false

/-- The actions that settle a delivery in the journal; a snooze does not. -/
def ActionKind.isOutcome : ActionKind → Bool
  | .done | .skip | .autoExpire => true
  | .snooze => false

theorem DeliveryStatus.isTerminal_iff {s : DeliveryStatus} :
    s.isTerminal = true ↔ s = .done ∨ s = .skipped ∨ s = .failed ∨ s = .blocked := by
  cases s <;> simp [isTerminal]

theorem DeliveryStatus.isTerminal_of_isAnswer {s : DeliveryStatus} (h : s.isAnswer = true) :
    s.isTerminal = true := by
  cases s <;> first | rfl | cases h

theorem DeliveryStatus.not_isAnswer {s : DeliveryStatus} (h : s.isTerminal = false) :
    s.isAnswer = false := by
  cases s <;> first | rfl | cases h

def categoryTitleMaxLength : ℕ := 64
def reminderTitleMaxLength : ℕ := 120
def reminderWatchersMax : ℕ := 10
def inviteTtlHours : ℕ := 72
def wizardMaxDaysAhead : ℕ := 366

/-- `app.domain.errors`; a `ValueError` and a constraint the database refuses
end a call the same way. -/
inductive ServiceError
  | notFound | permissionDenied | scheduleExhausted | inviteExpired | recipientLimit
  | categoryExists | categoryInUse | validation | valueError | integrity
  deriving DecidableEq, Repr

end Remindo.Domain
