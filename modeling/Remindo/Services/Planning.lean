import Remindo.Db.Repositories
import Remindo.Domain.Planning

namespace Remindo.Services.Planning

open Remindo.Domain Remindo.Db

/-- What the service is constructed with. -/
structure Settings where
  horizon : ℤ
  ttl : ℤ
  batchSize : ℕ

def boundsOf (r : Reminder) : PlanBounds where
  startsAt := r.startsAt
  plannedUntil := r.plannedUntil
  endsAt := r.endsAt
  maxOccurrences := r.maxOccurrences
  lastMoment := lastMomentOf r.schedule r.timezone

def windowOf (r : Reminder) (horizonEnd : ℤ) (firedCount : ℕ) : PlanWindow :=
  planWindow (boundsOf r) horizonEnd firedCount

/-- The moments one cycle materialises for a reminder. -/
def momentsOf (r : Reminder) (horizonEnd : ℤ) (firedCount : ℕ) : List ℤ :=
  expand r.schedule r.timezone (windowOf r horizonEnd firedCount)

/-- Quiet hours belong to the owner: one occurrence, one `fireAt`. -/
def occurrenceRow (reminderId : ℕ) (quiet : QuietHours) (ttl moment : ℤ) : Occurrence where
  reminderId := reminderId
  scheduledFor := moment
  fireAt := quiet.shift moment
  status := .pending
  repeatsSent := 0
  expiresAt := quiet.shift moment + ttl

def deliveryRows (occurrences : List (ℕ × Occurrence)) (userIds : List ℕ) : List Delivery :=
  occurrences.flatMap fun o ↦ userIds.map fun u ↦ Deliveries.queued o.1 u o.2.fireAt

/-- The deliveries a cycle asks for: pre-existing occurrences of its moments
are covered again. -/
def wantedDeliveries (reminderId : ℕ) (moments : List ℤ) (db : Database) : List Delivery :=
  if moments = [] then []
  else
    deliveryRows (Occurrences.listForSchedule db reminderId moments)
      (Recipients.listAcceptedUserIds db reminderId)

def createDeliveries (reminderId : ℕ) (moments : List ℤ) (db : Database) : Database :=
  db.run (Deliveries.insertMissing (wantedDeliveries reminderId moments db))

def settle (reminderId : ℕ) (outcome : PlanOutcome) (firedCount : ℕ) (db : Database) : Database :=
  let db := db.run (Reminders.setPlanningState reminderId outcome.plannedUntil firedCount)
  if outcome.exhausted then db.run (Reminders.setStatus reminderId .archived) else db

def materializeOne (settings : Settings) (horizonEnd : ℤ) (reminder : ℕ × Reminder) (owner : User)
    (db : Database) : Database :=
  let firedCount := Occurrences.countForReminder db reminder.1
  let moments := momentsOf reminder.2 horizonEnd firedCount
  let writes := Occurrences.insertMissing
    (moments.map (occurrenceRow reminder.1 (quietHoursOf owner) settings.ttl)) db
  let db := createDeliveries reminder.1 moments (db.apply writes)
  let firedCount' := firedCount + writes.occurrences.length
  let outcome := settlePlan (boundsOf reminder.2) (windowOf reminder.2 horizonEnd firedCount)
    moments firedCount'
  settle reminder.1 outcome firedCount' db

def materializeAll (settings : Settings) (horizonEnd : ℤ) :
    List (ℕ × Reminder) → Database → Database
  | [], db => db
  | r :: rest, db =>
    match db.users r.2.ownerId with
    | none => materializeAll settings horizonEnd rest db
    | some owner =>
      materializeAll settings horizonEnd rest (materializeOne settings horizonEnd r owner db)

/-- One planner cycle, in one transaction. -/
def materialize (settings : Settings) (now : ℤ) (db : Database) : Database :=
  let horizonEnd := now + settings.horizon
  materializeAll settings horizonEnd
    (Reminders.dueForPlanning db horizonEnd settings.batchSize) db

end Remindo.Services.Planning

namespace Remindo.Services

/-- What the workers are configured with. -/
structure Settings where
  planning : Planning.Settings
  lockFor : ℤ
  dispatcherBatch : ℕ
  reaperBatch : ℕ

end Remindo.Services
