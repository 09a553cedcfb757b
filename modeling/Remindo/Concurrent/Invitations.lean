import Remindo.Concurrent.Calendar

namespace Remindo.Concurrent.Invitations

open Remindo.Domain Remindo.Db Remindo.Services Remindo.Foundation.ReadCommitted

/-! The transactions that share a reminder. -/

namespace Opening

structure Request where
  now : ℤ
  token : String
  userId : ℕ
  deriving DecidableEq

/-- A call, with the invitation its token was resolved to. -/
structure Link where
  request : Request
  inviteId : ℕ
  invite : Invite

/-- The pending row the call leaves behind. -/
def Link.row (link : Link) : Recipient :=
  ⟨link.invite.reminderId, link.request.userId, .watcher, none⟩

inductive Stage
  | found (link : Link)
  | locked (link : Link)
  | looked (link : Link) (existing : Option (ℕ × Recipient))
  | adding (link : Link)
  | added (link : Link)
  | standing (link : Link)

def start (request : Request) (db : Database) : Move Writes Lock (Option Stage) :=
  match Invites.getByToken db request.token with
  | none => .rollback none
  | some (inviteId, invite) =>
    if inviteState invite.expiresAt invite.revokedAt request.now = .live then
      read (.found ⟨request, inviteId, invite⟩)
    else .rollback none

/-- A key that somebody holds is waited for, also where it is taken. -/
def move : Stage → (Lock → Bool) → Database → Option (Move Writes Lock (Option Stage))
  | .found link, _, db =>
    match db.reminders link.invite.reminderId with
    | none => some (.rollback none)
    | some _ => some (.exec {} [.reminder link.invite.reminderId] [] [] (some (.locked link)))
  | .locked link, _, db =>
    some (read (.looked link (Recipients.get db link.invite.reminderId link.request.userId)))
  | .looked link existing, _, db =>
    match checkJoin (existing.map fun r ↦ r.2.role)
        (Recipients.countWatchers db link.invite.reminderId) reminderWatchersMax with
    | .error _ => some (.rollback none)
    | .ok () => some (read (if existing.isNone then .adding link else .standing link))
  | .adding link, locked, db =>
    if (Recipients.get db link.invite.reminderId link.request.userId).isSome then
      if locked (.recipientKey link.row.key) then none else some (.rollback none)
    else some (.exec (Recipients.add link.row db) [] [] [] (some (.added link)))
  | .added _, _, _ | .standing _, _, _ => some (.commit none)

end Opening

namespace Removing

structure Request where
  userId : ℕ
  reminderId : ℕ
  deriving DecidableEq

inductive Stage
  | dropped (request : Request)
  | removed

/-- The key of a deleted row is held back. -/
def removeWatcher (request : Request) (db : Database) : Move Writes Lock (Option Stage) :=
  let w := Recipients.removeWatcher request.reminderId request.userId db
  .exec w (w.recipients.filterMap fun r ↦ (db.recipients r.1).map fun u ↦ .recipientKey u.key)
    [] [] (some .removed)

def decline (request : Request) (db : Database) : Move Writes Lock (Option Stage) :=
  removeWatcher request db

def leave (request : Request) (db : Database) : Move Writes Lock (Option Stage) :=
  let w := Deliveries.deletePendingForRecipient request.reminderId request.userId db
  .exec w (Editing.dropLocks w db) [] [] (some (.dropped request))

def move : Stage → Database → Move Writes Lock (Option Stage)
  | .dropped request, db => removeWatcher request db
  | .removed, _ => .commit none

end Removing

namespace Revoking

structure Request where
  now : ℤ
  ownerId : ℕ
  reminderId : ℕ
  /-- The link to mint, on a re-issue. -/
  token : Option String
  deriving DecidableEq

inductive Stage
  | owned (request : Request)
  | revoked (request : Request)
  | issued

def start (request : Request) (db : Database) : Move Writes Lock (Option Stage) :=
  match Reminders.getOwned db request.ownerId request.reminderId with
  | .error _ => .rollback none
  | .ok _ => read (.owned request)

/-- `uq_reminder_invites_token` or `uq_reminder_invites_live` has the row. -/
def isTaken (db : Database) (reminderId : ℕ) (token : String) : Bool :=
  (db.invites.find fun i ↦ decide (i.token = token) ||
    decide (i.reminderId = reminderId) && i.revokedAt.isNone).isSome

/-- The foreign key keeps the reminder of a new invitation. -/
def move : Stage → (Lock → Bool) → Database → Option (Move Writes Lock (Option Stage))
  | .owned request, _, db =>
    let w := Invites.revokeLive request.reminderId request.now db
    some (.exec w (if w.invites = [] then [] else [.liveInvite request.reminderId]) [] []
      (some (.revoked request)))
  | .revoked ⟨_, _, _, none⟩, _, _ => some (.commit none)
  | .revoked ⟨now, _, reminderId, some token⟩, locked, db =>
    if isTaken db reminderId token then
      if locked (.inviteToken token) || locked (.liveInvite reminderId) then none
      else some (.rollback none)
    else
      some (.exec (Invites.add ⟨reminderId, token, now + inviteTtlHours * hour, none⟩ db)
        [.inviteToken token, .liveInvite reminderId] [.reminder reminderId] [] (some .issued))
  | .issued, _, _ => some (.commit none)

end Revoking

/-- What a session is in the middle of. -/
inductive Stage
  | idle
  | opening (s : Opening.Stage)
  | accepting (s : Joining.Stage)
  | removing (s : Removing.Stage)
  | revoking (s : Revoking.Stage)

inductive Input
  | openInvite (request : Opening.Request)
  | accept (request : Joining.Request)
  | decline (request : Removing.Request)
  | leave (request : Removing.Request)
  | issueInvite (now : ℤ) (ownerId reminderId : ℕ) (token : String)
  | revokeInvite (now : ℤ) (ownerId reminderId : ℕ)
  | go
  deriving DecidableEq

def Stage.of {S : Type} (f : S → Stage) : Option S → Stage
  | none => .idle
  | some s => f s

def program : Program Database Writes Lock Stage Input
  | .idle, .openInvite request, _, db => some ((Opening.start request db).map (.of .opening))
  | .idle, .accept request, _, db => some ((Joining.start request db).map (.of .accepting))
  | .idle, .decline request, _, db => some ((Removing.decline request db).map (.of .removing))
  | .idle, .leave request, _, db => some ((Removing.leave request db).map (.of .removing))
  | .idle, .issueInvite now ownerId reminderId token, _, db =>
    some ((Revoking.start ⟨now, ownerId, reminderId, some token⟩ db).map (.of .revoking))
  | .idle, .revokeInvite now ownerId reminderId, _, db =>
    some ((Revoking.start ⟨now, ownerId, reminderId, none⟩ db).map (.of .revoking))
  | .idle, .go, _, _ => none
  | .opening s, _, locked, db => (Opening.move s locked db).map fun m ↦ m.map (.of .opening)
  | .accepting s, _, _, db => some ((Joining.move s db).map (.of .accepting))
  | .removing s, _, _, db => some ((Removing.move s db).map (.of .removing))
  | .revoking s, _, locked, db => (Revoking.move s locked db).map fun m ↦ m.map (.of .revoking)

abbrev Sessions := System Database Writes Lock Stage

end Remindo.Concurrent.Invitations
