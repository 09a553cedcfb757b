import Remindo.Db.Locks
import Remindo.Services.Dispatching
import Remindo.Services.Reactions

namespace Remindo.Concurrent

open Remindo.Domain Remindo.Db Remindo.Services Remindo.Foundation.ReadCommitted

/-! The transactions of the queue, one stage for each point between two
statements; no next stage is the end of the session. -/

/-- A statement that writes nothing. -/
def read {S : Type} (next : S) : Move Writes Lock (Option S) := .exec {} [] [] [] (some next)

/-- A foreign key keeps the delivery an action refers to. -/
def journal {S : Type} (action : DeliveryAction) (db : Database) (next : S) :
    Move Writes Lock (Option S) :=
  .exec (Deliveries.addAction action db) [] [.deliveryParent action.deliveryId] [] (some next)

/-- `FOR UPDATE` of a delivery. -/
def forUpdate (deliveryId : ℕ) : List Lock := [.delivery deliveryId, .deliveryParent deliveryId]

namespace Reacting

structure Tap where
  now : ℤ
  deliveryId : ℕ
  userId : ℕ
  action : Action
  deriving DecidableEq

inductive Stage
  | locked (tap : Tap) (d : Delivery)
  | opened (tap : Tap) (d : Delivery) (o : Occurrence)
  | timed (tap : Tap) (d : Delivery) (o : Occurrence) (snoozeMinutes : ℕ)
  | decided (tap : Tap) (d : Delivery) (reaction : Reaction) (snoozeMinutes : ℕ)
  | written (tap : Tap) (d : Delivery) (reaction : Reaction) (snoozeMinutes : ℕ)
  | journaled (tap : Tap) (d : Delivery) (reaction : Reaction)
  | counted (tap : Tap) (d : Delivery) (status : Option OccurrenceStatus)
  | closed (tap : Tap) (d : Delivery)

def Stage.tap : Stage → Tap
  | .locked tap .. | .opened tap .. | .timed tap .. | .decided tap .. | .written tap ..
  | .journaled tap .. | .counted tap .. | .closed tap .. => tap

/-- The delivery as it was when the transaction locked it. -/
def Stage.row : Stage → Delivery
  | .locked _ d | .opened _ d _ | .timed _ d _ _ | .decided _ d _ _ | .written _ d _ _
  | .journaled _ d _ | .counted _ d _ | .closed _ d => d

def start (tap : Tap) (db : Database) : Move Writes Lock (Option Stage) :=
  match db.deliveries tap.deliveryId with
  | none => .rollback none
  | some d => .exec {} (forUpdate tap.deliveryId) [] [] (some (.locked tap d))

def move : Stage → Database → Move Writes Lock (Option Stage)
  | .locked tap d, db =>
    if d.userId ≠ tap.userId then .rollback none
    else match db.occurrences d.occurrenceId with
      | none => .rollback none
      | some o => read (.opened tap d o)
  | .opened tap d o, db =>
    match checkReactable tap.action.kind d.status o.status o.expiresAt d.snoozedUntil tap.now with
    -- Nothing was written; the commit only releases the row lock.
    | some _ => .commit none
    | none =>
      match db.reminders o.reminderId with
      | none => .rollback none
      | some r => read (.timed tap d o r.snoozeMinutes)
  | .timed tap d o snoozeMinutes, db =>
    match db.users tap.userId with
    | none => .rollback none
    | some u =>
      match decideReaction tap.action.kind tap.now snoozeMinutes (quietHoursOf u) o.expiresAt with
      | .error _ => .rollback none
      | .ok reaction => read (.decided tap d reaction snoozeMinutes)
  | .decided tap d reaction snoozeMinutes, db =>
    .exec (Deliveries.updateFields tap.deliveryId (Reactions.values reaction) db) [] [] []
      (some (.written tap d reaction snoozeMinutes))
  | .written tap d reaction snoozeMinutes, db =>
    journal (Reactions.journalEntry tap.deliveryId tap.userId reaction tap.now snoozeMinutes) db
      (.journaled tap d reaction)
  | .journaled tap d reaction, db =>
    if reaction.isTerminal then
      read (.counted tap d (rollUpOccurrence reaction.kind
        (Occurrences.allDeliveriesTerminal db d.occurrenceId)))
    else .commit none
  | .counted _ _ none, _ => .commit none
  | .counted tap d (some status), db =>
    .exec (Occurrences.setStatus d.occurrenceId status db) [] [] [] (some (.closed tap d))
  | .closed .., _ => .commit none

end Reacting

namespace Delivering

open Dispatching

inductive Stage
  | claimed (rows : List (ℕ × Delivery))
  | leased (rows : List (ℕ × Delivery))
  | ready (batch : List Work) (memory : Memory)
  | concluded (w : Work) (outcome : Outcome) (now : ℤ) (rest : List Work) (memory : Memory)
  | written (w : Work) (outcome : Outcome) (rest : List Work) (memory : Memory)
  | flagged (w : Work) (outcome : Outcome) (rest : List Work) (memory : Memory)
  | marked (w : Work) (outcome : Outcome) (rest : List Work) (memory : Memory)

/-- `SKIP LOCKED` passes over whatever somebody else holds. -/
def start (lockFor : ℤ) (batch : ℕ) (now : ℤ) (locked : Lock → Bool) (db : Database) :
    Move Writes Lock (Option Stage) :=
  let rows := Deliveries.claimDue now lockFor batch
    (fun i ↦ (forUpdate i).any locked) db
  .exec (Deliveries.claimed rows) (rows.flatMap fun d ↦ forUpdate d.1) [] []
    (some (.claimed rows))

/-- An attempt waits for the answer of the gateway. -/
def move : Stage → Option (SendResult × ℤ) → Database → Option (Move Writes Lock (Option Stage))
  | .claimed rows, _, _ => some (.commit (some (.leased rows)))
  | .leased rows, _, db => some (read (.ready (loadWork db rows) .empty))
  | .ready [] _, _, _ => some (.rollback none)
  | .ready (w :: rest) memory, some (result, now), _ =>
    some (read (.concluded w (conclude memory w result now) now rest memory))
  | .ready (_ :: _) _, none, _ => none
  | .concluded w outcome now rest memory, _, db =>
    some (.exec (Deliveries.updateFields w.id (verdictValues outcome now) db) [] [] []
      (some (.written w outcome rest memory)))
  | .written w outcome rest memory, _, db =>
    if outcome.verdict.blocksUser then
      some (.exec (Users.markBlocked w.row.userId true db) [] [] []
        (some (.flagged w outcome rest memory)))
    else some (read (.flagged w outcome rest memory))
  | .flagged w outcome rest memory, _, db =>
    match outcome.marks memory with
    | none => some (read (.marked w outcome rest memory))
    | some i =>
      some (.exec (Occurrences.setStatus i .sent db) [] [] []
        (some (.marked w outcome rest memory)))
  | .marked w outcome rest memory, _, _ =>
    some (.commit (some (.ready rest (memory.after w outcome))))

end Delivering

namespace Sweeping

open Reaper

/-- `told` are the deliveries whose silence the sweep has journaled so far. -/
inductive Stage
  | expiring (now : ℤ) (told : List (ℕ × Delivery)) (rest : List (ℕ × Occurrence))
  | journaling (now : ℤ) (told : List (ℕ × Delivery)) (o : ℕ × Occurrence)
      (sent : List (ℕ × Delivery)) (rest : List (ℕ × Occurrence))
  | repeating (now : ℤ) (told : List (ℕ × Delivery))
      (candidates : List Deliveries.RepeatCandidate) (bumped : List ℕ)
  | bumping (now : ℤ) (told : List (ℕ × Delivery)) (i : ℕ)
      (candidates : List Deliveries.RepeatCandidate) (bumped : List ℕ)
  | released (told : List (ℕ × Delivery))

def start (batch : ℕ) (now : ℤ) (db : Database) : Move Writes Lock (Option Stage) :=
  read (.expiring now [] (overdue db now batch))

def move (batch : ℕ) : Stage → Database → Move Writes Lock (Option Stage)
  | .expiring now told [], db =>
    read (.repeating now told (Deliveries.listRepeatCandidates db now batch) [])
  | .expiring now told (o :: rest), db =>
    read (.journaling now told o (Deliveries.listSentForOccurrence db o.1) rest)
  | .journaling now told o (d :: sent) rest, db =>
    journal (autoExpire now d) db (.journaling now (d :: told) o sent rest)
  | .journaling now told o [] rest, db =>
    .exec (Occurrences.setStatus o.1 .expired db) [] [] [] (some (.expiring now told rest))
  | .repeating now told [] _, db =>
    .exec (Deliveries.releaseStaleLocks now db) [] [] [] (some (.released told))
  | .repeating now told (c :: rest) bumped, db =>
    match repeatAt now c with
    | none => read (.repeating now told rest bumped)
    | some moment =>
      .exec (Deliveries.updateFields c.delivery.1 (requeue moment) db) [] [] []
        (some (if c.occurrence.1 ∈ bumped then .repeating now told rest bumped
          else .bumping now told c.occurrence.1 rest bumped))
  | .bumping now told i rest bumped, db =>
    .exec (Occurrences.bumpRepeats i db) [] [] [] (some (.repeating now told rest (i :: bumped)))
  | .released _, _ => .commit none

end Sweeping

end Remindo.Concurrent
