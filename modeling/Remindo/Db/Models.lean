import Remindo.Domain.QuietHours
import Remindo.Domain.Contracts
import Remindo.Foundation.Table
import Remindo.Foundation.Text

namespace Remindo.Db

open Remindo.Domain Remindo.Foundation

/-! The rows of the schema, with the columns the services read or write. A
timezone column holds the zone its name resolves to. -/

structure User where
  timezone : Zone
  quietStart : Option WallTime := none
  quietEnd : Option WallTime := none
  isBlocked : Bool := false
  onboardedAt : Option ℤ := none
  digestEnabled : Bool := true
  digestSentAt : Option ℤ := none

/-- A category without an owner is a system preset. -/
structure Category where
  ownerId : Option ℕ
  code : Text
  title : Text
  emoji : Text
  archivedAt : Option ℤ := none
  deriving DecidableEq

structure Reminder where
  ownerId : ℕ
  categoryId : ℕ
  status : ReminderStatus
  schedule : Schedule
  timezone : Zone
  startsAt : ℤ
  endsAt : Option ℤ
  maxOccurrences : Option ℕ
  firedCount : ℕ
  snoozeMinutes : ℕ
  repeatAfterMinutes : Option ℕ
  maxRepeats : ℕ
  plannedUntil : Option ℤ

structure Recipient where
  reminderId : ℕ
  userId : ℕ
  role : RecipientRole
  acceptedAt : Option ℤ
  deriving DecidableEq

structure Invite where
  reminderId : ℕ
  token : String
  expiresAt : ℤ
  revokedAt : Option ℤ
  deriving DecidableEq

structure Occurrence where
  reminderId : ℕ
  scheduledFor : ℤ
  fireAt : ℤ
  status : OccurrenceStatus
  repeatsSent : ℕ
  expiresAt : ℤ
  deriving DecidableEq

structure Delivery where
  occurrenceId : ℕ
  userId : ℕ
  status : DeliveryStatus
  attempts : ℕ
  nextAttemptAt : ℤ
  lockedUntil : Option ℤ
  tgMessageId : Option ℕ
  sentAt : Option ℤ
  reactedAt : Option ℤ
  snoozedUntil : Option ℤ
  errorCode : Option String
  deriving DecidableEq

structure DeliveryAction where
  deliveryId : ℕ
  userId : ℕ
  kind : ActionKind
  /-- The `minutes` of the payload, on a snooze. -/
  minutes : Option ℕ
  createdAt : ℤ
  deriving DecidableEq

/-- `uq_occurrences_reminder_scheduled`. -/
def Occurrence.key (o : Occurrence) : ℕ × ℤ := (o.reminderId, o.scheduledFor)

/-- `uq_deliveries_occurrence_user`. -/
def Delivery.key (d : Delivery) : ℕ × ℕ := (d.occurrenceId, d.userId)

/-- `uq_reminder_recipients_reminder_user`. -/
def Recipient.key (r : Recipient) : ℕ × ℕ := (r.reminderId, r.userId)

structure Database where
  users : Table User
  categories : Table Category
  reminders : Table Reminder
  recipients : Table Recipient
  invites : Table Invite
  occurrences : Table Occurrence
  deliveries : Table Delivery
  actions : Table DeliveryAction

/-- The row versions one statement writes; `none` is a deleted row. -/
structure Writes where
  users : List (ℕ × Option User) := []
  categories : List (ℕ × Option Category) := []
  reminders : List (ℕ × Option Reminder) := []
  recipients : List (ℕ × Option Recipient) := []
  invites : List (ℕ × Option Invite) := []
  occurrences : List (ℕ × Option Occurrence) := []
  deliveries : List (ℕ × Option Delivery) := []
  actions : List (ℕ × Option DeliveryAction) := []

namespace Database

/-- The database before anybody has written a reminder. -/
def initial (users : Table User) (categories : Table Category) : Database :=
  ⟨users, categories, .empty, .empty, .empty, .empty, .empty, .empty⟩

def apply (db : Database) (w : Writes) : Database where
  users := db.users.writes w.users
  categories := db.categories.writes w.categories
  reminders := db.reminders.writes w.reminders
  recipients := db.recipients.writes w.recipients
  invites := db.invites.writes w.invites
  occurrences := db.occurrences.writes w.occurrences
  deliveries := db.deliveries.writes w.deliveries
  actions := db.actions.writes w.actions

/-- Sequences move on with the statement, whatever becomes of its rows. -/
def touch (db : Database) (w : Writes) : Database where
  users := db.users.touches w.users
  categories := db.categories.touches w.categories
  reminders := db.reminders.touches w.reminders
  recipients := db.recipients.touches w.recipients
  invites := db.invites.touches w.invites
  occurrences := db.occurrences.touches w.occurrences
  deliveries := db.deliveries.touches w.deliveries
  actions := db.actions.touches w.actions

variable (db : Database) (w : Writes)

@[simp] theorem users_apply : (db.apply w).users = db.users.writes w.users := rfl

@[simp] theorem categories_apply :
    (db.apply w).categories = db.categories.writes w.categories := rfl

@[simp] theorem reminders_apply : (db.apply w).reminders = db.reminders.writes w.reminders := rfl

@[simp] theorem recipients_apply :
    (db.apply w).recipients = db.recipients.writes w.recipients := rfl

@[simp] theorem invites_apply : (db.apply w).invites = db.invites.writes w.invites := rfl

@[simp] theorem occurrences_apply :
    (db.apply w).occurrences = db.occurrences.writes w.occurrences := rfl

@[simp] theorem deliveries_apply :
    (db.apply w).deliveries = db.deliveries.writes w.deliveries := rfl

@[simp] theorem actions_apply : (db.apply w).actions = db.actions.writes w.actions := rfl

end Database

/-- A statement reads the database and leaves the versions it writes. -/
abbrev Statement := Database → Writes

def Database.run (db : Database) (statement : Statement) : Database := db.apply (statement db)

/-- `quiet_hours_of`: the silence is the recipient's, in their own timezone. -/
def quietHoursOf (user : User) : QuietHours := ⟨user.timezone, user.quietStart, user.quietEnd⟩

end Remindo.Db
