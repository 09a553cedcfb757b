import Remindo.Concurrent.Queue
import Remindo.Services.Planning
import Remindo.Services.Sharing

namespace Remindo.Concurrent

open Remindo.Domain Remindo.Db Remindo.Services Remindo.Foundation.ReadCommitted

/-! The transactions that plan, share and change a reminder. -/

/-- `ON CONFLICT DO NOTHING` waits for the keys it meets; the foreign key wants
the occurrence of every row that goes in, and keeps it. -/
def enqueue {S : Type} (rows : List Delivery) (db : Database) (next : S) :
    Move Writes Lock (Option S) :=
  let w := Deliveries.insertMissing rows db
  let parents := w.deliveries.filterMap fun r ↦ r.2.map Delivery.occurrenceId
  if ∀ i ∈ parents, (db.occurrences i).isSome = true then
    .exec w [] (parents.map .occurrenceParent) (rows.map fun d ↦ .deliveryKey d.key) (some next)
  else .rollback none

namespace Materializing

open Planning

/-- Where the loop over the batch stands. -/
structure Turn where
  horizonEnd : ℤ
  done : List (ℕ × Reminder)
  current : ℕ × Reminder
  rest : List (ℕ × Reminder)

def Turn.moments (turn : Turn) (before : ℕ) : List ℤ :=
  momentsOf turn.current.2 turn.horizonEnd before

def Turn.outcome (turn : Turn) (before firedCount : ℕ) : PlanOutcome :=
  settlePlan (boundsOf turn.current.2) (windowOf turn.current.2 turn.horizonEnd before)
    (turn.moments before) firedCount

/-- `before` is the budget read at first, `firedCount` what the insertion made
of it. -/
inductive Stage
  | next (horizonEnd : ℤ) (done rest : List (ℕ × Reminder))
  | owned (turn : Turn) (owner : User)
  | counted (turn : Turn) (owner : User) (before : ℕ)
  | inserted (turn : Turn) (before firedCount : ℕ)
  | joined (turn : Turn) (before firedCount : ℕ) (userIds : List ℕ)
  | listed (turn : Turn) (before firedCount : ℕ) (rows : List Delivery)
  | settling (turn : Turn) (before firedCount : ℕ)
  | settled (turn : Turn) (exhausted : Bool)

def start (settings : Planning.Settings) (now : ℤ) (db : Database) :
    Move Writes Lock (Option Stage) :=
  let horizonEnd := now + settings.horizon
  read (.next horizonEnd [] (Db.Reminders.dueForPlanning db horizonEnd settings.batchSize))

def Turn.finish (turn : Turn) : Stage :=
  .next turn.horizonEnd (turn.current :: turn.done) turn.rest

def move (settings : Planning.Settings) : Stage → Database → Move Writes Lock (Option Stage)
  | .next _ _ [], _ => .commit none
  | .next horizonEnd done (r :: rest), db =>
    match db.users r.2.ownerId with
    | none => read (.next horizonEnd done rest)
    | some owner => read (.owned ⟨horizonEnd, done, r, rest⟩ owner)
  | .owned turn owner, db =>
    read (.counted turn owner (Occurrences.countForReminder db turn.current.1))
  | .counted turn owner before, db =>
    let rows := (turn.moments before).map
      (occurrenceRow turn.current.1 (quietHoursOf owner) settings.ttl)
    let w := Occurrences.insertMissing rows db
    .exec w [] [] (rows.map fun o ↦ .occurrenceKey o.key)
      (some (.inserted turn before (before + w.occurrences.length)))
  | .inserted turn before firedCount, db =>
    if turn.moments before = [] then read (.settling turn before firedCount)
    else
      read (.joined turn before firedCount
        (Recipients.listAcceptedUserIds db turn.current.1))
  | .joined turn before firedCount userIds, db =>
    read (.listed turn before firedCount (deliveryRows
      (Occurrences.listForSchedule db turn.current.1 (turn.moments before)) userIds))
  | .listed turn before firedCount rows, db =>
    enqueue rows db (.settling turn before firedCount)
  | .settling turn before firedCount, db =>
    let outcome := turn.outcome before firedCount
    .exec (Db.Reminders.setPlanningState turn.current.1 outcome.plannedUntil firedCount db)
      [] [] [] (some (.settled turn outcome.exhausted))
  | .settled turn exhausted, db =>
    if exhausted then
      .exec (Db.Reminders.setStatus turn.current.1 .archived db) [] [] [] (some turn.finish)
    else read turn.finish

end Materializing

namespace Joining

structure Request where
  now : ℤ
  userId : ℕ
  reminderId : ℕ
  deriving DecidableEq

inductive Stage
  | found (request : Request)
  | participating (request : Request)
  | accepted (request : Request) (updated : Bool)
  | listed (request : Request) (upcoming : List (ℕ × Occurrence))
  | queued (request : Request)

def start (request : Request) (db : Database) : Move Writes Lock (Option Stage) :=
  match Recipients.get db request.reminderId request.userId with
  | none => .rollback none
  | some r => if r.2.role = .watcher then read (.found request) else .rollback none

def move : Stage → Database → Move Writes Lock (Option Stage)
  | .found request, db =>
    match db.reminders request.reminderId with
    | none => .rollback none
    | some _ => read (.participating request)
  | .participating request, db =>
    let w := Recipients.accept request.reminderId request.userId request.now db
    .exec w [] [] [] (some (.accepted request (decide (w.recipients ≠ []))))
  | .accepted _ false, _ => .commit none
  | .accepted request true, db =>
    read (.listed request (Occurrences.listUpcoming db request.reminderId request.now))
  | .listed request upcoming, db =>
    enqueue (upcoming.map fun o ↦ Deliveries.queued o.1 request.userId o.2.fireAt) db
      (.queued request)
  | .queued _, _ => .commit none

end Joining

namespace Editing

open Reminders

inductive Request
  | setStatus (ownerId reminderId : ℕ) (status : ReminderStatus)
  | update (now : ℤ) (ownerId reminderId : ℕ) (change : Change)

def Request.ownerId : Request → ℕ
  | .setStatus ownerId .. | .update _ ownerId .. => ownerId

def Request.reminderId : Request → ℕ
  | .setStatus _ reminderId _ | .update _ _ reminderId _ => reminderId

/-- Leaving `active`, or another schedule, takes the queue back. -/
def Request.drops : Request → Bool
  | .setStatus _ _ status => decide (status ≠ .active)
  | .update _ _ _ change => change.schedule.isSome

def Request.allowed (db : Database) (r : Reminder) : Request → Bool
  | .setStatus .. => true
  | .update now ownerId _ change =>
    (change.categoryId.all fun categoryId ↦ (checkedCategory db ownerId categoryId).isOk) &&
      change.schedule.all fun schedule ↦ canReplace r schedule now

/-- The reminder as the call leaves it in memory. -/
def Request.edited : Request → Reminder → Reminder
  | .setStatus _ _ status, r => { r with status := status }
  | .update _ _ _ change, r => changed change r

/-- A commit flushes the attributes that differ from what was loaded. -/
def flushed (loaded edited r : Reminder) : Reminder :=
  { r with
    categoryId :=
      if edited.categoryId = loaded.categoryId then r.categoryId else edited.categoryId
    status := if edited.status = loaded.status then r.status else edited.status
    schedule := if edited.schedule = loaded.schedule then r.schedule else edited.schedule
    firedCount :=
      if edited.firedCount = loaded.firedCount then r.firedCount else edited.firedCount
    snoozeMinutes :=
      if edited.snoozeMinutes = loaded.snoozeMinutes then r.snoozeMinutes else edited.snoozeMinutes
    repeatAfterMinutes :=
      if edited.repeatAfterMinutes = loaded.repeatAfterMinutes then r.repeatAfterMinutes
      else edited.repeatAfterMinutes }

def isDirty (loaded edited : Reminder) : Bool :=
  decide (edited.categoryId ≠ loaded.categoryId) || decide (edited.status ≠ loaded.status) ||
    decide (edited.schedule ≠ loaded.schedule) ||
    decide (edited.firedCount ≠ loaded.firedCount) ||
    decide (edited.snoozeMinutes ≠ loaded.snoozeMinutes) ||
    decide (edited.repeatAfterMinutes ≠ loaded.repeatAfterMinutes)

inductive Stage
  | editing (request : Request) (r : Reminder)
  | dropped (request : Request) (r : Reminder) (count : ℕ)
  | reset (request : Request) (loaded edited : Reminder)
  | flushed (request : Request)

def start (request : Request) (db : Database) : Move Writes Lock (Option Stage) :=
  match getEditable db request.ownerId request.reminderId with
  | .error _ => .rollback none
  | .ok r => if request.allowed db r then read (.editing request r) else .rollback none

/-- A deleted row holds back its children, and its key. -/
def dropLocks (w : Writes) (db : Database) : List Lock :=
  w.occurrences.flatMap (fun r ↦
    .occurrenceParent r.1 :: ((db.occurrences r.1).map fun o ↦ Lock.occurrenceKey o.key).toList) ++
  w.deliveries.flatMap (fun r ↦
    .deliveryParent r.1 :: ((db.deliveries r.1).map fun d ↦ Lock.deliveryKey d.key).toList)

def move : Stage → Database → Move Writes Lock (Option Stage)
  | .editing request r, db =>
    if request.drops then
      let w := Occurrences.deleteUnsent request.reminderId db
      .exec w (dropLocks w db) [] [] (some (.dropped request r w.occurrences.length))
    else read (.reset request r (request.edited r))
  | .dropped request r count, db =>
    -- the statement moves the loaded row along, and the count is taken off once more
    let loaded := { r with plannedUntil := none, firedCount := r.firedCount - count }
    let edited := { request.edited loaded with firedCount := loaded.firedCount - count }
    .exec (Db.Reminders.resetPlanning request.reminderId loaded.firedCount db) [] [] []
      (some (.reset request loaded edited))
  | .reset request loaded edited, db =>
    if isDirty loaded edited then
      .exec (Db.Reminders.updateFields request.reminderId (flushed loaded edited) db) [] [] []
        (some (.flushed request))
    else read (.flushed request)
  | .flushed _, _ => .commit none

end Editing

end Remindo.Concurrent
