import Remindo.Domain.UserText
import Remindo.Foundation.Numerals

namespace Remindo.Domain

open Remindo.Foundation

section Answers

/-- `ValidationError` of an answer to an edit question, by the message it is
raised with. -/
inductive AnswerError
  /-- `reminder note must be at most 1000 chars` -/
  | note
  /-- `unclear snooze: ` or `unclear repeat: `, and the raw text -/
  | unclear (what : String) (raw : Text)
  /-- `snooze must be 1..1440 minutes`, `repeat must be 5..1440 minutes` -/
  | outOfRange (what : String) (low high : ℕ)
  deriving DecidableEq

def reminderNoteMaxLength : ℕ := 1000
def snoozeMinMinutes : ℕ := 1
def snoozeMaxMinutes : ℕ := 1440
def repeatMinMinutes : ℕ := 5
def repeatMaxMinutes : ℕ := 1440

/-- An optional note. Whitespace alone is not a note. -/
def normalizeNote (raw : Text) : Except AnswerError (Option Text) :=
  let note := Text.strip raw
  if note = [] then .ok none
  else if reminderNoteMaxLength < note.length then .error .note
  else .ok (some note)

variable (digits : Digits)

/-- `_minutes`: a hand-typed count of minutes inside a closed range. -/
def typedMinutes (raw : Text) (low high : ℕ) (what : String) : Except AnswerError ℕ :=
  match digits.int (Text.strip raw) with
  | none => .error (.unclear what raw)
  | some n => if low ≤ n ∧ n ≤ high then .ok n.toNat else .error (.outOfRange what low high)

def parseUserSnooze (raw : Text) : Except AnswerError ℕ :=
  typedMinutes digits raw snoozeMinMinutes snoozeMaxMinutes "snooze"

def parseUserRepeat (raw : Text) : Except AnswerError ℕ :=
  typedMinutes digits raw repeatMinMinutes repeatMaxMinutes "repeat"

variable {digits} {raw : Text} {low high n : ℕ} {what : String}

theorem typedMinutes_eq_ok (h : typedMinutes digits raw low high what = .ok n) :
    low ≤ n ∧ n ≤ high := by
  rw [typedMinutes] at h
  split at h
  · cases h
  · split at h
    · cases h
      omega
    · cases h

end Answers

end Remindo.Domain
