import Remindo.Domain.Sharing
import Remindo.Services.Reminders

namespace Remindo.Services.Sharing

open Remindo.Domain Remindo.Db

/-- Mint a link, taking the previous one back. A token that is not new breaks
`uq_reminder_invites_token`. -/
def issueInvite (db : Database) (now : ℤ) (ownerId reminderId : ℕ) (token : String) :
    Except ServiceError Database := do
  let _ ← Reminders.getOwned db ownerId reminderId
  demand (Invites.getByToken db token).isNone .integrity
  let db := db.run (Invites.revokeLive reminderId now)
  return db.run (Invites.add ⟨reminderId, token, now + inviteTtlHours * hour, none⟩)

def revokeInvite (db : Database) (now : ℤ) (ownerId reminderId : ℕ) :
    Except ServiceError Database := do
  let _ ← Reminders.getOwned db ownerId reminderId
  return db.run (Invites.revokeLive reminderId now)

/-- A pending recipient row is left behind, unless the user already has one. -/
def openInvite (db : Database) (now : ℤ) (token : String) (userId : ℕ) :
    Except ServiceError Database := do
  let (_, invite) ← require (Invites.getByToken db token)
  demand (inviteState invite.expiresAt invite.revokedAt now = .live) .inviteExpired
  let _ ← require (db.reminders invite.reminderId)
  let existing := Recipients.get db invite.reminderId userId
  checkJoin (existing.map fun r ↦ r.2.role) (Recipients.countWatchers db invite.reminderId)
    reminderWatchersMax
  if existing.isNone then
    return db.run (Recipients.add ⟨invite.reminderId, userId, .watcher, none⟩)
  else return db

/-- The reminder a user watches, with the row that says so. -/
def participation (db : Database) (userId reminderId : ℕ) :
    Except ServiceError (Reminder × Recipient) := do
  let (_, recipient) ← require (Recipients.get db reminderId userId)
  demand (recipient.role = .watcher) .notFound
  let reminder ← require (db.reminders reminderId)
  return (reminder, recipient)

/-- Queue what the planner materialised before this recipient joined. -/
def backfillDeliveries (reminderId userId : ℕ) (now : ℤ) (db : Database) : Database :=
  let upcoming := Occurrences.listUpcoming db reminderId now
  db.run (Deliveries.insertMissing (upcoming.map fun o ↦ Deliveries.queued o.1 userId o.2.fireAt))

/-- Start receiving the reminder, and catch up on what is queued. -/
def accept (db : Database) (now : ℤ) (userId reminderId : ℕ) : Except ServiceError Database := do
  let _ ← participation db userId reminderId
  let writes := Recipients.accept reminderId userId now db
  let db := db.apply writes
  return if writes.recipients = [] then db else backfillDeliveries reminderId userId now db

/-- Refuse a pending invitation. -/
def decline (db : Database) (userId reminderId : ℕ) : Database :=
  db.run (Recipients.removeWatcher reminderId userId)

/-- Stop receiving a shared reminder. -/
def leave (db : Database) (userId reminderId : ℕ) : Database :=
  (db.run (Deliveries.deletePendingForRecipient reminderId userId)).run
    (Recipients.removeWatcher reminderId userId)

section Outcomes

variable {db db' : Database} {now : ℤ} {ownerId userId reminderId : ℕ} {token : String}

theorem issueInvite_eq_ok (h : issueInvite db now ownerId reminderId token = .ok db') :
    db' = (db.run (Invites.revokeLive reminderId now)).run
      (Invites.add ⟨reminderId, token, now + inviteTtlHours * hour, none⟩) := by
  obtain ⟨_, -, h⟩ := bind_eq_ok.mp h
  obtain ⟨_, -, h⟩ := bind_eq_ok.mp h
  cases h
  rfl

theorem revokeInvite_eq_ok (h : revokeInvite db now ownerId reminderId = .ok db') :
    db' = db.run (Invites.revokeLive reminderId now) := by
  obtain ⟨_, -, h⟩ := bind_eq_ok.mp h
  cases h
  rfl

/-- Whoever opens a link is invited once. -/
theorem openInvite_eq_ok (h : openInvite db now token userId = .ok db') :
    db' = db ∨ ∃ reminderId, Recipients.get db reminderId userId = none ∧
      db' = db.run (Recipients.add ⟨reminderId, userId, .watcher, none⟩) := by
  obtain ⟨⟨_, invite⟩, -, h⟩ := bind_eq_ok.mp h
  obtain ⟨_, -, h⟩ := bind_eq_ok.mp h
  obtain ⟨_, -, h⟩ := bind_eq_ok.mp h
  obtain ⟨_, -, h⟩ := bind_eq_ok.mp h
  split at h
  · rename_i hnone
    cases h
    exact .inr ⟨invite.reminderId, Option.isNone_iff_eq_none.mp hnone, rfl⟩
  · cases h
    exact .inl rfl

end Outcomes

end Remindo.Services.Sharing
