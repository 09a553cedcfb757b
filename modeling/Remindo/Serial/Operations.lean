import Remindo.Foundation.Runs
import Remindo.Services.Dispatching
import Remindo.Services.Planning
import Remindo.Services.Sharing

namespace Remindo.Serial

open Remindo.Domain Remindo.Db Remindo.Services Remindo.Foundation

/-- One service call, taken as a whole. -/
inductive Operation
  | create (now : ℤ) (ownerId : ℕ) (draft : Reminders.Draft)
  | materialize (now : ℤ)
  | deliver (now : ℤ) (gateway : Dispatching.Gateway)
  | react (now : ℤ) (deliveryId userId : ℕ) (action : Action)
  | sweep (now : ℤ)
  | setStatus (now : ℤ) (ownerId reminderId : ℕ) (status : ReminderStatus)
  | update (now : ℤ) (ownerId reminderId : ℕ) (change : Reminders.Change)
  | issueInvite (now : ℤ) (ownerId reminderId : ℕ) (token : String)
  | revokeInvite (now : ℤ) (ownerId reminderId : ℕ)
  | openInvite (now : ℤ) (token : String) (userId : ℕ)
  | accept (now : ℤ) (userId reminderId : ℕ)
  | decline (now : ℤ) (userId reminderId : ℕ)
  | leave (now : ℤ) (userId reminderId : ℕ)

def Operation.now : Operation → ℤ
  | .create now .. | .materialize now | .deliver now _ | .react now .. | .sweep now
  | .setStatus now .. | .update now .. | .issueInvite now .. | .revokeInvite now ..
  | .openInvite now .. | .accept now .. | .decline now .. | .leave now .. => now

/-- The database, and the messages that have left it so far. -/
structure World where
  db : Database
  outbox : List Message

def World.initial (users : Table User) (categories : Table Category) : World :=
  ⟨.initial users categories, []⟩

def World.over (w : World) (db : Except ServiceError Database) : Option World :=
  match db with
  | .ok db => some { w with db := db }
  | .error _ => none

/-- A call the service refuses is not a step. -/
def perform (settings : Settings) (w : World) : Operation → Option World
  | .create now ownerId draft => w.over (Reminders.create w.db now ownerId draft)
  | .materialize now => some { w with db := Planning.materialize settings.planning now w.db }
  | .deliver now gateway =>
    let (messages, db) :=
      Dispatching.deliver w.db now settings.lockFor settings.dispatcherBatch gateway
    some ⟨db, w.outbox ++ messages⟩
  | .react now deliveryId userId action =>
    w.over ((Reactions.react w.db now deliveryId userId action).map Prod.snd)
  | .sweep now => some { w with db := Reaper.sweep w.db now settings.reaperBatch }
  | .setStatus _ ownerId reminderId status =>
    w.over (Reminders.setStatus w.db ownerId reminderId status)
  | .update now ownerId reminderId change =>
    w.over (Reminders.update w.db now ownerId reminderId change)
  | .issueInvite now ownerId reminderId token =>
    w.over (Sharing.issueInvite w.db now ownerId reminderId token)
  | .revokeInvite now ownerId reminderId =>
    w.over (Sharing.revokeInvite w.db now ownerId reminderId)
  | .openInvite now token userId => w.over (Sharing.openInvite w.db now token userId)
  | .accept now userId reminderId => w.over (Sharing.accept w.db now userId reminderId)
  | .decline _ userId reminderId => some { w with db := Sharing.decline w.db userId reminderId }
  | .leave _ userId reminderId => some { w with db := Sharing.leave w.db userId reminderId }

theorem over_eq_some {w w' : World} {db : Except ServiceError Database}
    (h : w.over db = some w') : ∃ db', db = .ok db' ∧ w' = { w with db := db' } := by
  cases db with
  | error e => cases h
  | ok db' =>
    cases h
    exact ⟨db', rfl, rfl⟩

theorem over_snd_eq_some {α : Type} {w w' : World} {out : Except ServiceError (α × Database)}
    (h : w.over (out.map Prod.snd) = some w') :
    ∃ a db', out = .ok (a, db') ∧ w' = { w with db := db' } := by
  cases out with
  | error e => cases h
  | ok out =>
    cases h
    exact ⟨out.1, out.2, rfl, rfl⟩

end Remindo.Serial
