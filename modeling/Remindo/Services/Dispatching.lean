import Remindo.Db.Repositories
import Remindo.Domain.Dispatching

namespace Remindo.Services

open Remindo.Domain Remindo.Db

/-- What the gateway answers to one message. -/
inductive SendResult
  | delivered (messageId : ℕ)
  | failed (errorClass : ErrorClass) (retryAfter : Option ℤ) (errorCode : String)
  deriving DecidableEq

/-- A reminder message that reached the transport. -/
structure Message where
  deliveryId : ℕ
  occurrenceId : ℕ
  reminderId : ℕ
  userId : ℕ
  sentAt : ℤ
  deriving DecidableEq

namespace Dispatching

/-- A claimed delivery and what the batch load found for it. -/
structure Work where
  id : ℕ
  row : Delivery
  context : Option Deliveries.SendContext

/-- How the session's own updates have changed the loaded rows: occurrences it
set to `sent`, users it marked blocked. -/
structure Memory where
  sent : List ℕ
  blocked : List ℕ

namespace Memory

def empty : Memory := ⟨[], []⟩

def occurrenceStatus (memory : Memory) (c : Deliveries.SendContext) : OccurrenceStatus :=
  if c.occurrence.1 ∈ memory.sent then .sent else c.occurrence.2.status

def userBlocked (memory : Memory) (c : Deliveries.SendContext) : Bool :=
  decide (c.user.1 ∈ memory.blocked) || c.user.2.isBlocked

end Memory

/-- `_SENDABLE_OCCURRENCE_STATUSES`. -/
def isSendable : OccurrenceStatus → Bool
  | .pending | .dispatching => true
  | _ => false

theorem not_isTerminal_of_isSendable {status : OccurrenceStatus} (h : isSendable status = true) :
    status.isTerminal = false := by
  cases status <;> first | rfl | cases h

theorem eq_sent_of_not_isSendable {status : OccurrenceStatus} (hopen : status.isTerminal = false)
    (h : isSendable status = false) : status = .sent := by
  cases status with
  | sent => rfl
  | pending | dispatching => exact absurd h (by decide)
  | done | skipped | expired | failed => cases hopen

def loadWork (db : Database) (claimed : List (ℕ × Delivery)) : List Work :=
  claimed.map fun d ↦ ⟨d.1, d.2, Deliveries.loadSendContext db d.1⟩

/-- The verdict on one attempt, with the message when it was sent and the
context `_apply` is then handed. -/
structure Outcome where
  verdict : Verdict
  ref : Option ℕ
  context : Option Deliveries.SendContext

def conclude (memory : Memory) (w : Work) (result : SendResult) (now : ℤ) : Outcome :=
  match w.context with
  | none => ⟨decideAbort .contextMissing w.row.attempts, none, none⟩
  | some c =>
    match checkDeliverable (memory.occurrenceStatus c) (memory.userBlocked c) with
    | some abort => ⟨decideAbort abort w.row.attempts, none, none⟩
    | none =>
      match result with
      | .failed errorClass retryAfter errorCode =>
        ⟨decideFailure w.row.attempts errorClass now errorCode retryAfter, none, none⟩
      | .delivered messageId => ⟨decideSuccess, some messageId, some c⟩

/-- A message goes out only when the checks let it. -/
theorem conclude_sent {memory : Memory} {w : Work} {result : SendResult} {now : ℤ}
    {c : Deliveries.SendContext} (h : (conclude memory w result now).context = some c) : w.context = some c ∧
      checkDeliverable (memory.occurrenceStatus c) (memory.userBlocked c) = none ∧
        ∃ messageId, result = .delivered messageId := by
  unfold conclude at h
  cases hc : w.context with
  | none => simp [hc] at h
  | some c' =>
    rw [hc] at h
    dsimp only at h
    split at h
    · cases h
    · rename_i hnone
      cases result with
      | failed errorClass retryAfter errorCode => cases h
      | delivered messageId =>
        cases h
        exact ⟨rfl, hnone, messageId, rfl⟩

/-- The attempt is the last one this delivery gets. -/
def givesUp (memory : Memory) (w : Work) (result : SendResult) : Bool :=
  match w.context with
  | none => true
  | some c =>
    (checkDeliverable (memory.occurrenceStatus c) (memory.userBlocked c)).isSome ||
      match result with
      | .failed errorClass _ _ => !shouldRetry w.row.attempts errorClass
      | .delivered _ => false

/-- An attempt ends the delivery, puts it off, or sends it for an occurrence
that is open as far as the session knows. -/
theorem conclude_cases (memory : Memory) (w : Work) (result : SendResult) (now : ℤ) :
    (conclude memory w result now).context = none ∧ givesUp memory w result = true ∧
        (conclude memory w result now).verdict.status.isTerminal = true ∧
        (conclude memory w result now).verdict.status.isAnswer = false ∨
      (conclude memory w result now).context = none ∧ givesUp memory w result = false ∧
        (conclude memory w result now).verdict.status = .pending ∨
      ∃ c messageId, w.context = some c ∧ (memory.occurrenceStatus c).isTerminal = false ∧
        conclude memory w result now = ⟨decideSuccess, some messageId, some c⟩ := by
  have habort : ∀ reason, (decideAbort reason w.row.attempts).status.isTerminal = true ∧
      (decideAbort reason w.row.attempts).status.isAnswer = false := by
    intro reason
    cases reason <;> exact ⟨rfl, rfl⟩
  unfold conclude givesUp
  cases w.context with
  | none => exact .inl ⟨rfl, rfl, habort _⟩
  | some c =>
    dsimp only
    cases hcheck : checkDeliverable (memory.occurrenceStatus c) (memory.userBlocked c) with
    | some abort => exact .inl ⟨rfl, rfl, habort abort⟩
    | none =>
      have hopen : (memory.occurrenceStatus c).isTerminal = false :=
        (checkDeliverable_eq_none.mp hcheck).1
      cases result with
      | delivered messageId => exact .inr (.inr ⟨c, messageId, rfl, hopen, rfl⟩)
      | failed errorClass retryAfter errorCode =>
        dsimp only [decideFailure]
        by_cases hforbidden : errorClass = .forbidden
        · rw [if_pos hforbidden, hforbidden]
          exact .inl ⟨rfl, rfl, rfl, rfl⟩
        · rw [if_neg hforbidden]
          by_cases hretry : shouldRetry w.row.attempts errorClass = true
          · rw [dif_pos hretry, hretry]
            exact .inr (.inl ⟨rfl, rfl, rfl⟩)
          · rw [dif_neg hretry, eq_false_of_ne_true hretry]
            exact .inl ⟨rfl, rfl, rfl, rfl⟩

/-- The columns a verdict writes back; the lease is released with it. -/
def verdictValues (outcome : Outcome) (now : ℤ) (d : Delivery) : Delivery :=
  { d with
    status := outcome.verdict.status
    attempts := outcome.verdict.attempts
    errorCode := outcome.verdict.errorCode
    lockedUntil := none
    nextAttemptAt := outcome.verdict.nextAttemptAt.getD d.nextAttemptAt
    sentAt := if outcome.ref.isSome then some now else d.sentAt
    tgMessageId := outcome.ref <|> d.tgMessageId }

/-- The occurrence a verdict moves to `sent`, by the status held in memory. -/
def Outcome.marks (outcome : Outcome) (memory : Memory) : Option ℕ :=
  outcome.context.bind fun c ↦
    if isSendable (memory.occurrenceStatus c) then some c.occurrence.1 else none

def Memory.after (memory : Memory) (w : Work) (outcome : Outcome) : Memory where
  sent := (outcome.marks memory).toList ++ memory.sent
  blocked := if outcome.verdict.blocksUser then w.row.userId :: memory.blocked else memory.blocked

/-- Nobody the session has marked is unmarked by its next verdict. -/
theorem Memory.userBlocked_of_after {memory : Memory} {w : Work} {outcome : Outcome}
    {c : Deliveries.SendContext} (h : (memory.after w outcome).userBlocked c = false) :
    memory.userBlocked c = false := by
  obtain ⟨hmarked, hrow⟩ := Bool.or_eq_false_iff.mp h
  refine Bool.or_eq_false_iff.mpr ⟨decide_eq_false fun hmem ↦ of_decide_eq_false hmarked ?_, hrow⟩
  rw [Memory.after]
  split
  · exact List.mem_cons_of_mem _ hmem
  · exact hmem

def writeVerdict (db : Database) (w : Work) (outcome : Outcome) (now : ℤ) : Database :=
  let db := db.run (Deliveries.updateFields w.id (verdictValues outcome now))
  if outcome.verdict.blocksUser then db.run (Users.markBlocked w.row.userId true) else db

/-- Write one verdict back and release the lease. -/
def applyVerdict (db : Database) (memory : Memory) (w : Work) (outcome : Outcome) (now : ℤ) :
    Database :=
  let db := writeVerdict db w outcome now
  match outcome.marks memory with
  | some occurrenceId => db.run (Occurrences.setStatus occurrenceId .sent)
  | none => db

theorem deliveries_writeVerdict (db : Database) (w : Work) (outcome : Outcome) (now : ℤ) :
    (writeVerdict db w outcome now).deliveries =
      (db.run (Deliveries.updateFields w.id (verdictValues outcome now))).deliveries := by
  rw [writeVerdict]
  split <;> rfl

theorem occurrences_writeVerdict (db : Database) (w : Work) (outcome : Outcome) (now : ℤ) :
    (writeVerdict db w outcome now).occurrences = db.occurrences := by
  rw [writeVerdict]
  split <;> rfl

theorem deliveries_applyVerdict (db : Database) (memory : Memory) (w : Work) (outcome : Outcome)
    (now : ℤ) (j : ℕ) : (applyVerdict db memory w outcome now).deliveries j =
      if j = w.id then (db.deliveries w.id).map (verdictValues outcome now)
      else db.deliveries j := by
  rw [← Deliveries.deliveries_updateFields db w.id (verdictValues outcome now) j,
    ← deliveries_writeVerdict, applyVerdict]
  split <;> rfl

theorem occurrences_applyVerdict (db : Database) (memory : Memory) (w : Work) (outcome : Outcome)
    (now : ℤ) (i : ℕ) : (applyVerdict db memory w outcome now).occurrences i =
      if outcome.marks memory = some i then
        (db.occurrences i).map fun o ↦ { o with status := .sent }
      else db.occurrences i := by
  rw [applyVerdict]
  cases outcome.marks memory with
  | none => rw [if_neg (by simp), occurrences_writeVerdict]
  | some k =>
    dsimp only
    rw [Occurrences.occurrences_setStatus, occurrences_writeVerdict]
    by_cases hk : i = k
    · rw [if_pos hk, if_pos (by rw [hk]), hk]
    · rw [if_neg hk, if_neg fun h ↦ hk (Option.some_inj.mp h).symm]

def Outcome.message (outcome : Outcome) (w : Work) (now : ℤ) : Option Message :=
  outcome.context.map fun c ↦ ⟨w.id, c.occurrence.1, c.reminder.1, w.row.userId, now⟩

/-- The answers the transport gives to the attempts of one cycle, and when. -/
abbrev Gateway := ℕ → SendResult × ℤ

/-- The attempts of one batch, in queue order. -/
def deliverAll (gateway : Gateway) : List Work → Memory → Database → List Message × Database
  | [], _, db => ([], db)
  | w :: rest, memory, db =>
    let (result, now) := gateway w.id
    let outcome := conclude memory w result now
    let (messages, db) := deliverAll gateway rest (memory.after w outcome)
      (applyVerdict db memory w outcome now)
    ((outcome.message w now).toList ++ messages, db)

/-- One dispatcher cycle. -/
def deliver (db : Database) (now lockFor : ℤ) (batch : ℕ) (gateway : Gateway) :
    List Message × Database :=
  let claimed := Deliveries.claimDue now lockFor batch (fun _ ↦ false) db
  let db := db.apply (Deliveries.claimed claimed)
  deliverAll gateway (loadWork db claimed) .empty db

end Dispatching

namespace Reaper

def autoExpire (now : ℤ) (d : ℕ × Delivery) : DeliveryAction where
  deliveryId := d.1
  userId := d.2.userId
  kind := .autoExpire
  minutes := none
  createdAt := now

/-- Journal the silence of one occurrence. The keyboard edits that go with it
leave the database alone. -/
def journalSilence (now : ℤ) : List (ℕ × Delivery) → Database → Database
  | [], db => db
  | d :: rest, db => journalSilence now rest (db.run (Deliveries.addAction (autoExpire now d)))

def expireAll (now : ℤ) : List (ℕ × Occurrence) → Database → Database
  | [], db => db
  | o :: rest, db =>
    expireAll now rest ((journalSilence now (Deliveries.listSentForOccurrence db o.1) db).run
      (Occurrences.setStatus o.1 .expired))

def overdue (db : Database) (now : ℤ) (limit : ℕ) : List (ℕ × Occurrence) :=
  (Occurrences.listExpired db now limit).filter fun o ↦ isOverdue o.2.status o.2.expiresAt now

/-- When a candidate is sent again; its occurrence still carries the budget
read at the start of the sweep. -/
def repeatAt (now : ℤ) (c : Deliveries.RepeatCandidate) : Option ℤ :=
  decideRepeat c.delivery.2.sentAt c.reminder.repeatAfterMinutes c.occurrence.2.repeatsSent
    c.reminder.maxRepeats c.occurrence.2.expiresAt (quietHoursOf c.user) now

def requeue (moment : ℤ) (d : Delivery) : Delivery :=
  { d with status := .pending, nextAttemptAt := moment, lockedUntil := none }

/-- One sweep costs one repeat however many recipients it reaches. -/
def repeatAll (now : ℤ) : List Deliveries.RepeatCandidate → List ℕ → Database → Database
  | [], _, db => db
  | c :: rest, bumped, db =>
    match repeatAt now c with
    | none => repeatAll now rest bumped db
    | some moment =>
      let db := db.run (Deliveries.updateFields c.delivery.1 (requeue moment))
      if c.occurrence.1 ∈ bumped then repeatAll now rest bumped db
      else
        repeatAll now rest (c.occurrence.1 :: bumped)
          (db.run (Occurrences.bumpRepeats c.occurrence.1))

def sweep (db : Database) (now : ℤ) (batch : ℕ) : Database :=
  let db := expireAll now (overdue db now batch) db
  let db := repeatAll now (Deliveries.listRepeatCandidates db now batch) [] db
  db.run (Deliveries.releaseStaleLocks now)

/-- What putting one delivery back in the queue and spending one repeat preserve,
the repeats of a sweep preserve. -/
theorem repeatAll_preserves {P : Database → Prop}
    (hrequeue : ∀ db i moment, P db → P (db.run (Deliveries.updateFields i (requeue moment))))
    (hbump : ∀ db i, P db → P (db.run (Occurrences.bumpRepeats i))) (now : ℤ)
    (candidates : List Deliveries.RepeatCandidate) (bumped : List ℕ) {db : Database} (h : P db) :
    P (repeatAll now candidates bumped db) := by
  induction candidates generalizing bumped db with
  | nil => exact h
  | cons c rest ih =>
    rw [repeatAll]
    split
    · exact ih bumped h
    · rename_i moment _
      have hqueued := hrequeue db c.delivery.1 moment h
      dsimp only
      split
      · exact ih bumped hqueued
      · exact ih _ (hbump _ c.occurrence.1 hqueued)

theorem repeatAll_tables (now : ℤ) (candidates : List Deliveries.RepeatCandidate)
    (bumped : List ℕ) (db : Database) :
    (repeatAll now candidates bumped db).users = db.users ∧
      (repeatAll now candidates bumped db).categories = db.categories ∧
      (repeatAll now candidates bumped db).actions = db.actions ∧
      (repeatAll now candidates bumped db).recipients = db.recipients ∧
      (repeatAll now candidates bumped db).invites = db.invites :=
  repeatAll_preserves (P := fun db' ↦ db'.users = db.users ∧ db'.categories = db.categories ∧
    db'.actions = db.actions ∧ db'.recipients = db.recipients ∧ db'.invites = db.invites)
    (fun _ _ _ h ↦ h) (fun _ _ h ↦ h) now candidates bumped ⟨rfl, rfl, rfl, rfl, rfl⟩

end Reaper

end Remindo.Services
