import Remindo.Domain.Contracts
import Remindo.Domain.QuietHours

namespace Remindo.Domain

section Retry

def baseBackoff : ℤ := 30 * second
def maxBackoff : ℤ := 30 * minute
def maxAttempts : ℕ := 5

/-- `FATAL_ERRORS`: failures that never get another attempt. -/
def ErrorClass.isFatal : ErrorClass → Bool
  | .forbidden | .badRequest => true
  | .retryAfter | .transient => false

def shouldRetry (attempts : ℕ) (errorClass : ErrorClass) : Bool :=
  if errorClass.isFatal then false
  else if errorClass = .retryAfter then true
  else decide (attempts < maxAttempts)

theorem not_isFatal_of_shouldRetry {attempts : ℕ} {errorClass : ErrorClass}
    (h : shouldRetry attempts errorClass = true) : errorClass.isFatal = false := by
  by_contra hfatal
  rw [Bool.not_eq_false] at hfatal
  rw [shouldRetry, if_pos hfatal] at h
  cases h

/-- Moment of the next attempt. The source raises on a fatal failure, which
has none; here it cannot be asked for one. -/
def nextAttempt (attempts : ℕ) (errorClass : ErrorClass) (now : ℤ) (retryAfter : Option ℤ)
    (_h : errorClass.isFatal = false) : ℤ :=
  if errorClass = .retryAfter then now + (max (retryAfter.getD 0) 0 + 1) * second
  else
    let exponent := min (max attempts 1 - 1) 16
    now + min (baseBackoff * 2 ^ exponent) maxBackoff

end Retry

section Verdicts

inductive AbortReason
  | occurrenceClosed | userBlocked | contextMissing
  deriving DecidableEq, Repr

def AbortReason.value : AbortReason → String
  | .occurrenceClosed => "occurrence_closed"
  | .userBlocked => "user_blocked"
  | .contextMissing => "context_missing"

/-- What the service writes back after one attempt. -/
structure Verdict where
  status : DeliveryStatus
  attempts : ℕ
  nextAttemptAt : Option ℤ
  errorCode : Option String
  blocksUser : Bool
  deriving DecidableEq

def checkDeliverable (occurrenceStatus : OccurrenceStatus) (userBlocked : Bool) :
    Option AbortReason :=
  if occurrenceStatus.isTerminal then some .occurrenceClosed
  else if userBlocked then some .userBlocked
  else none

theorem checkDeliverable_eq_none {occurrenceStatus : OccurrenceStatus} {userBlocked : Bool} :
    checkDeliverable occurrenceStatus userBlocked = none ↔
      occurrenceStatus.isTerminal = false ∧ userBlocked = false := by
  unfold checkDeliverable
  split <;> simp_all

def refund (attempts : ℕ) : ℕ := attempts - 1

def decideAbort (reason : AbortReason) (attempts : ℕ) : Verdict where
  status := if reason = .userBlocked then .blocked else .failed
  attempts := refund attempts
  nextAttemptAt := none
  errorCode := some reason.value
  blocksUser := false

def decideSuccess : Verdict := ⟨.sent, 0, none, none, false⟩

def decideFailure (attempts : ℕ) (errorClass : ErrorClass) (now : ℤ) (errorCode : String)
    (retryAfter : Option ℤ) : Verdict :=
  if errorClass = .forbidden then ⟨.blocked, attempts, none, some errorCode, true⟩
  else if h : shouldRetry attempts errorClass = true then
    let kept := if errorClass = .retryAfter then refund attempts else attempts
    let moment := nextAttempt attempts errorClass now retryAfter (not_isFatal_of_shouldRetry h)
    ⟨.pending, kept, some moment, some errorCode, false⟩
  else ⟨.failed, attempts, none, some errorCode, false⟩

end Verdicts

section Sweeping

def isOverdue (status : OccurrenceStatus) (expiresAt now : ℤ) : Bool :=
  if status.isTerminal then false else decide (expiresAt < now)

/-- Moment an unanswered reminder is sent again, if it is. -/
def decideRepeat (sentAt : Option ℤ) (repeatAfterMinutes : Option ℕ) (repeatsSent maxRepeats : ℕ)
    (expiresAt : ℤ) (quiet : QuietHours) (now : ℤ) : Option ℤ :=
  match repeatAfterMinutes, sentAt with
  | some repeatAfterMinutes, some sentAt =>
    if maxRepeats ≤ repeatsSent then none
    else if now < sentAt + repeatAfterMinutes * minute then none
    else
      let moment := quiet.shift now
      -- Silence outlasts the occurrence: the repeat is dropped, not deferred.
      if expiresAt ≤ moment then none else some moment
  | _, _ => none

theorem decideRepeat_eq_some {sentAt : Option ℤ} {repeatAfterMinutes : Option ℕ}
    {repeatsSent maxRepeats : ℕ} {expiresAt now moment : ℤ} {quiet : QuietHours}
    (h : decideRepeat sentAt repeatAfterMinutes repeatsSent maxRepeats expiresAt quiet now =
      some moment) : repeatsSent < maxRepeats ∧
        ∃ minutes sent, repeatAfterMinutes = some minutes ∧ sentAt = some sent ∧
          sent + minutes * minute ≤ now := by
  unfold decideRepeat at h
  split at h
  · split at h
    · cases h
    · split at h
      · cases h
      · exact ⟨by omega, _, _, rfl, rfl, by omega⟩
  · cases h

end Sweeping

end Remindo.Domain
