import Remindo.Services.Reactions

namespace Remindo

open Domain Db Foundation

/-- The columns of `users` that say who somebody is and where they are written
to; the others are `User`, under the same id. -/
structure Db.Account where
  tgUserId : ℤ
  tgChatId : ℤ
  firstName : Text
  username : Option Text
  deriving DecidableEq

namespace Db.Users

def add (user : User) : Statement := fun db ↦ { users := db.users.insert [user] }

def updateFields (userId : ℕ) (values : User → User) : Statement := fun db ↦
  { users := db.users.update userId values }

@[simp] theorem users_updateFields (db : Database) (userId : ℕ) (values : User → User) (i : ℕ) :
    (db.run (updateFields userId values)).users i =
      if i = userId then (db.users userId).map values else db.users i := Table.writes_update ..

def getByTgId (accounts : Table Account) (tgUserId : ℤ) : Option (ℕ × Account) :=
  accounts.find fun a ↦ decide (a.tgUserId = tgUserId)

end Db.Users

namespace Services.Onboarding

/-- `MAX_TIMEZONE_LENGTH`. -/
def maxTimezoneLength : ℕ := 64

/-- Accept a name `zoneinfo` can resolve. -/
def normalizeTimezone (zones : Text → Option Zone) (raw : Text) : Except ServiceError Zone :=
  let name := Text.strip raw
  if name = [] ∨ maxTimezoneLength < name.length then .error .validation
  else match zones name with
    | none => .error .validation
    | some timezone => .ok timezone

/-- Both bounds or neither, and never an empty interval. -/
def normalizeQuietHours :
    Option WallTime → Option WallTime → Except ServiceError (Option (WallTime × WallTime))
  | none, none => .ok none
  | some quietStart, some quietEnd =>
    if quietStart = quietEnd then .error .validation else .ok (some (quietStart, quietEnd))
  | _, _ => .error .validation

/-- What an update of Telegram says about its sender. -/
structure Sender where
  tgUserId : ℤ
  tgChatId : ℤ
  firstName : Text
  username : Option Text

def Sender.account (sender : Sender) : Account :=
  ⟨sender.tgUserId, sender.tgChatId, sender.firstName, sender.username⟩

def refreshed (sender : Sender) (a : Account) : Account :=
  { a with
    tgChatId := sender.tgChatId
    firstName := if sender.firstName = [] then a.firstName else sender.firstName
    username := sender.username }

/-- Create the user on first contact, refresh the chat id afterwards. -/
def ensureUser (defaultTimezone : Zone) (accounts : Table Account) (db : Database)
    (sender : Sender) : ℕ × Table Account × Database :=
  match Users.getByTgId accounts sender.tgUserId with
  | none => (accounts.next, accounts.writes (accounts.insert [sender.account]),
      db.run (Users.add { timezone := defaultTimezone }))
  | some (i, _) => (i, accounts.writes (accounts.update i (refreshed sender)),
      db.run (Users.markBlocked i false))

/-- Store the zone and, on first contact, close onboarding. -/
def setTimezone (zones : Text → Option Zone) (db : Database) (now : ℤ) (userId : ℕ) (raw : Text) :
    Except ServiceError Database := do
  let timezone ← normalizeTimezone zones raw
  let _ ← require (db.users userId)
  return db.run (Users.updateFields userId fun u ↦
    { u with timezone := timezone, onboardedAt := u.onboardedAt <|> some now })

/-- Turning the digest back on does not replay the weeks it was off. -/
def setDigest (db : Database) (userId : ℕ) (enabled : Bool) : Except ServiceError Database := do
  let _ ← require (db.users userId)
  return db.run (Users.updateFields userId fun u ↦ { u with digestEnabled := enabled })

def setQuietHours (db : Database) (userId : ℕ) (quietStart quietEnd : Option WallTime) :
    Except ServiceError Database := do
  let interval ← normalizeQuietHours quietStart quietEnd
  let _ ← require (db.users userId)
  return db.run (Users.updateFields userId fun u ↦
    { u with quietStart := interval.map Prod.fst, quietEnd := interval.map Prod.snd })

/-- A silence has both its bounds, and they differ. -/
def IsQuiet (u : User) : Prop :=
  u.quietStart = none ∧ u.quietEnd = none ∨
    ∃ quietStart quietEnd, u.quietStart = some quietStart ∧ u.quietEnd = some quietEnd ∧
      quietStart ≠ quietEnd

section Outcomes

variable {zones : Text → Option Zone} {db db' : Database} {now : ℤ} {userId : ℕ}

theorem setTimezone_eq_ok {raw : Text} (h : setTimezone zones db now userId raw = .ok db') :
    ∃ timezone, db' = db.run (Users.updateFields userId fun u ↦
      { u with timezone := timezone, onboardedAt := u.onboardedAt <|> some now }) := by
  obtain ⟨timezone, -, h⟩ := bind_eq_ok.mp h
  obtain ⟨_, -, h⟩ := bind_eq_ok.mp h
  cases h
  exact ⟨timezone, rfl⟩

theorem setDigest_eq_ok {enabled : Bool} (h : setDigest db userId enabled = .ok db') :
    db' = db.run (Users.updateFields userId fun u ↦ { u with digestEnabled := enabled }) := by
  obtain ⟨_, -, h⟩ := bind_eq_ok.mp h
  cases h
  rfl

theorem setQuietHours_eq_ok {quietStart quietEnd : Option WallTime}
    (h : setQuietHours db userId quietStart quietEnd = .ok db') :
    (∀ u : User, IsQuiet { u with quietStart := quietStart, quietEnd := quietEnd }) ∧
      db' = db.run (Users.updateFields userId fun u ↦
        { u with quietStart := quietStart, quietEnd := quietEnd }) := by
  obtain ⟨interval, hinterval, h⟩ := bind_eq_ok.mp h
  obtain ⟨_, -, h⟩ := bind_eq_ok.mp h
  cases h
  unfold normalizeQuietHours at hinterval
  split at hinterval
  · cases hinterval
    exact ⟨fun _ ↦ .inl ⟨rfl, rfl⟩, rfl⟩
  · rename_i quietStart quietEnd
    split at hinterval
    · cases hinterval
    · rename_i hne
      cases hinterval
      exact ⟨fun _ ↦ .inr ⟨quietStart, quietEnd, rfl, rfl, hne⟩, rfl⟩
  · cases hinterval

end Outcomes

end Services.Onboarding

end Remindo
