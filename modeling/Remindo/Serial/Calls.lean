import Remindo.Serial.Arrival
import Remindo.Serial.Categories
import Remindo.Serial.Digests
import Remindo.Services.Deletion
import Remindo.Services.Onboarding

namespace Remindo.Serial

open Remindo.Domain Remindo.Db Remindo.Services Remindo.Foundation

/-- What the process is configured with. -/
structure Config where
  settings : Services.Settings
  digest : Digests.Setup
  defaultTimezone : Zone
  zones : Text → Option Zone
  alphabet : Alphabet

/-- The whole database, with who its users are, and what has left it. -/
structure Office where
  world : World
  accounts : Table Account
  reports : List Digest.Report

def Office.initial (categories : Table Category) : Office :=
  ⟨.initial .empty categories, .empty, []⟩

/-- A request about reminders or categories, a deletion, a tick of the weekly
digest, an update of Telegram on its way through the middleware, or a change of
somebody's own settings. -/
inductive Call
  | serve (request : Request)
  | delete (ownerId reminderId : ℕ)
  | digest (now : ℤ) (gateway : Digest.Gateway)
  | contact (sender : Onboarding.Sender)
  | setTimezone (now : ℤ) (userId : ℕ) (raw : Text)
  | setDigest (userId : ℕ) (enabled : Bool)
  | setQuietHours (userId : ℕ) (quietStart quietEnd : Option WallTime)

/-- Whatever has to do with nobody's reminders. -/
def Call.isAside : Call → Bool
  | .serve (.other _) | .delete .. => false
  | _ => true

def Office.over (o : Office) (db : Except ServiceError Database) : Option Office :=
  (o.world.over db).map fun w ↦ { o with world := w }

def attend (config : Config) (o : Office) : Call → Option Office
  | .serve request =>
    (serve config.settings config.alphabet o.world request).map fun w ↦ { o with world := w }
  | .delete ownerId reminderId => o.over (Reminders.delete o.world.db ownerId reminderId)
  | .digest now gateway =>
    let (db, _, reports) := Digest.run config.digest.weekday config.digest.hour
      config.digest.batchSize now gateway o.world.db
    some { o with world := { o.world with db := db }, reports := o.reports ++ reports }
  | .contact sender =>
    let (_, accounts, db) :=
      Onboarding.ensureUser config.defaultTimezone o.accounts o.world.db sender
    some { o with world := { o.world with db := db }, accounts := accounts }
  | .setTimezone now userId raw =>
    o.over (Onboarding.setTimezone config.zones o.world.db now userId raw)
  | .setDigest userId enabled => o.over (Onboarding.setDigest o.world.db userId enabled)
  | .setQuietHours userId quietStart quietEnd =>
    o.over (Onboarding.setQuietHours o.world.db userId quietStart quietEnd)

section Digests

variable (weekday : ℕ) (hour : Fin 24) (now : ℤ) (gateway : Digest.Gateway)

theorem digest_one_users (db : Database) (candidate : ℕ × User) : ∃ users : Table User,
    (Digest.one weekday hour now gateway db candidate).db = { db with users := users } ∧
      users.next = db.users.next := by
  have hmark : ∀ (db : Database) (i : ℕ) (moment : ℤ),
      (Digest.mark db i moment).users.next = db.users.next :=
    fun _ _ _ ↦ Table.next_writes_update ..
  rw [Digest.one]
  split
  · exact ⟨_, rfl, rfl⟩
  · dsimp only
    split
    · exact ⟨_, rfl, hmark ..⟩
    · rw [Digest.send]
      split
      · exact ⟨_, rfl, hmark ..⟩
      · rename_i error _
        cases error with
        | retryAfter | transient => exact ⟨_, rfl, rfl⟩
        | forbidden => exact ⟨_, rfl, (hmark ..).trans (Table.next_writes_update ..)⟩
        | badRequest => exact ⟨_, rfl, hmark ..⟩

theorem digest_run_users (batchSize : ℕ) (db : Database) : ∃ users : Table User,
    (Digest.run weekday hour batchSize now gateway db).1 = { db with users := users } ∧
      users.next = db.users.next := by
  have heach : ∀ (candidates : List (ℕ × User)) (db : Database) (result : Digest.DigestResult)
      (reports : List Digest.Report), ∃ users : Table User,
        (Digest.each weekday hour now gateway candidates (db, result, reports)).1 =
          { db with users := users } ∧ users.next = db.users.next := by
    intro candidates
    induction candidates with
    | nil => exact fun db _ _ ↦ ⟨db.users, rfl, rfl⟩
    | cons candidate rest ih =>
      intro db result reports
      rw [Digest.each]
      obtain ⟨users, hone, hnext⟩ := digest_one_users weekday hour now gateway db candidate
      obtain ⟨users', hrest, hnext'⟩ := ih (Digest.one weekday hour now gateway db candidate).db
        (Digest.add result (Digest.one weekday hour now gateway db candidate).result)
        (reports ++ (Digest.one weekday hour now gateway db candidate).sent.toList)
      refine ⟨users', by rw [hrest, hone], hnext'.trans ?_⟩
      rw [hone]
      exact hnext
  exact heach ..

end Digests

/-- Whatever the dispatcher would send is of the kind, and nobody else sends. -/
theorem appends_perform {settings : Services.Settings} {w w' : World} {op : Operation}
    {Q : Message → Prop} (h : perform settings w op = some w')
    (hsent : ∀ now gateway m, m ∈ (Dispatching.deliver w.db now settings.lockFor
      settings.dispatcherBatch gateway).1 → Q m) : Appends Q w.outbox w'.outbox := by
  rcases outbox_perform h with ⟨now, gateway, rfl⟩ | hsame
  · cases h
    exact ⟨_, rfl, hsent now gateway⟩
  · exact .of_eq hsame

section Calls

variable {config : Config} {o o' : Office} {call : Call} {db : Except ServiceError Database}

theorem office_over_eq_some (h : o.over db = some o') :
    ∃ db', db = .ok db' ∧ o' = { o with world := { o.world with db := db' } } := by
  obtain ⟨w, hw, rfl⟩ := Option.map_eq_some_iff.mp h
  obtain ⟨db', hdb, rfl⟩ := over_eq_some hw
  exact ⟨db', hdb, rfl⟩

/-- Users and categories are all that may differ, and no user is lost. -/
def Aside (w w' : World) : Prop :=
  ∃ users categories,
    w' = { w with db := { w.db with users := users, categories := categories } } ∧
      ∀ i, (w.db.users i).isSome = true → (users i).isSome = true

theorem isSome_updateFields (db : Database) (userId : ℕ) (values : User → User) (i : ℕ)
    (h : (db.users i).isSome = true) :
    ((db.run (Users.updateFields userId values)).users i).isSome = true := by
  rw [Users.users_updateFields]
  split
  · rename_i hi
    rwa [Option.isSome_map, ← hi]
  · exact h

theorem isSome_digest_run (setup : Digests.Setup) (now : ℤ) (gateway : Digest.Gateway)
    (db : Database) (i : ℕ) (h : (db.users i).isSome = true) :
    ((Digest.run setup.weekday setup.hour setup.batchSize now gateway db).1.users i).isSome =
      true := by
  obtain ⟨u, hu⟩ := Option.isSome_iff_exists.mp h
  obtain ⟨u', hu', -⟩ := Digest.run_turn setup.weekday setup.hour setup.batchSize now gateway hu
  rw [hu']
  rfl

theorem isSome_add (db : Database) (user : User) (i : ℕ) (h : (db.users i).isSome = true) :
    ((db.run (Users.add user)).users i).isSome = true := by
  obtain ⟨u, hu⟩ := Option.isSome_iff_exists.mp h
  have hrow : (db.run (Users.add user)).users i = some u :=
    (Table.writes_insert ..).trans ((if_pos (Table.lt_next hu)).trans hu)
  rw [hrow]
  rfl

/-- Whoever writes is taken in, or recognised. -/
theorem contact_cases {sender : Onboarding.Sender}
    (h : attend config o (.contact sender) = some o') :
    (∀ i a, o.accounts i = some a → a.tgUserId ≠ sender.tgUserId) ∧
      o' = ⟨{ o.world with
          db := o.world.db.run (Users.add { timezone := config.defaultTimezone }) },
        o.accounts.writes (o.accounts.insert [sender.account]), o.reports⟩ ∨
    ∃ i a, o.accounts i = some a ∧ a.tgUserId = sender.tgUserId ∧
      o' = ⟨{ o.world with db := o.world.db.run (Users.markBlocked i false) },
        o.accounts.writes (o.accounts.update i (Onboarding.refreshed sender)), o.reports⟩ := by
  have heq := Option.some_inj.mp h
  rw [← heq]
  cases hfound : Users.getByTgId o.accounts sender.tgUserId with
  | none =>
    refine .inl ⟨fun i a ha htg ↦ ?_, rfl⟩
    have hother := Table.find_none.mp hfound i a ha
    simp [htg] at hother
  | some found =>
    obtain ⟨i, a⟩ := found
    obtain ⟨ha, htg⟩ := Table.find_some hfound
    exact .inr ⟨i, a, ha, of_decide_eq_true htg, rfl⟩

/-- What a setting of their own changes about a user. -/
structure OwnSetting (values : User → User) : Prop where
  blocked : ∀ u, (values u).isBlocked = u.isBlocked
  quiet : ∀ u, Onboarding.IsQuiet u → Onboarding.IsQuiet (values u)
  onboarded : ∀ u t, u.onboardedAt = some t → (values u).onboardedAt = some t

/-- All a call can come to. -/
inductive Handled (config : Config) (o : Office) : Call → Office → Prop
  | operation {op : Operation} {w : World} (h : perform config.settings o.world op = some w) :
    Handled config o (.serve (.other op)) { o with world := w }
  | categories {call : Call} (categories : Table Category) (hcall : call.isAside = true)
      (hkept : ∀ i c, o.world.db.categories i = some c → ∃ c', categories i = some c') :
    Handled config o call
      { o with world := { o.world with db := { o.world.db with categories := categories } } }
  | delete {ownerId rid : ℕ} {r : Reminder} (hr : o.world.db.reminders rid = some r)
      (howner : r.ownerId = ownerId) : Handled config o (.delete ownerId rid)
        { o with world := { o.world with db := o.world.db.run (Db.Reminders.delete rid) } }
  | digest (now : ℤ) (gateway : Digest.Gateway) {db : Database} {reports : List Digest.Report}
      (hdb : (Digest.run config.digest.weekday config.digest.hour config.digest.batchSize now
        gateway o.world.db).1 = db)
      (hreports : (Digest.run config.digest.weekday config.digest.hour config.digest.batchSize now
        gateway o.world.db).2.2 = reports) : Handled config o (.digest now gateway)
        { o with world := { o.world with db := db }, reports := o.reports ++ reports }
  | newcomer {sender : Onboarding.Sender}
      (hnew : ∀ i a, o.accounts i = some a → a.tgUserId ≠ sender.tgUserId) :
    Handled config o (.contact sender)
      ⟨{ o.world with db := o.world.db.run (Users.add { timezone := config.defaultTimezone }) },
        o.accounts.writes (o.accounts.insert [sender.account]), o.reports⟩
  | known {sender : Onboarding.Sender} {i : ℕ} {a : Account} (ha : o.accounts i = some a)
      (htg : a.tgUserId = sender.tgUserId) : Handled config o (.contact sender)
      ⟨{ o.world with db := o.world.db.run (Users.markBlocked i false) },
        o.accounts.writes (o.accounts.update i (Onboarding.refreshed sender)), o.reports⟩
  | setting {call : Call} (userId : ℕ) {values : User → User} (hvalues : OwnSetting values)
      (hcall : call.isAside = true) : Handled config o call
        { o with world := { o.world with
          db := o.world.db.run (Users.updateFields userId values) } }

theorem categories_kept (db : Database) (categoryId : ℕ) (values : Category → Category) (i : ℕ)
    (c : Category) (hc : db.categories i = some c) :
    ∃ c', (db.run (Db.Categories.updateFields categoryId values)).categories i = some c' := by
  rw [Db.Categories.categories_updateFields]
  split
  · rename_i hi
    exact ⟨values c, by rw [← hi, hc, Option.map_some]⟩
  · exact ⟨c, hc⟩

theorem handled (h : attend config o call = some o') : Handled config o call o' := by
  cases call with
  | serve request =>
    obtain ⟨w, hw, rfl⟩ := Option.map_eq_some_iff.mp h
    cases request with
    | other op => exact .operation hw
    | create userId title emoji =>
      obtain ⟨db', hdb, rfl⟩ := over_eq_some hw
      obtain ⟨c, rfl, -⟩ := Categories.create_eq_ok hdb
      refine .categories _ rfl fun i c' hc' ↦ ⟨c', ?_⟩
      exact (Table.writes_insert ..).trans ((if_pos (Table.lt_next hc')).trans hc')
    | rename userId categoryId title =>
      obtain ⟨db', hdb, rfl⟩ := over_eq_some hw
      obtain ⟨c, cleanTitle, -, -, rfl, -⟩ := Categories.rename_eq_ok hdb
      exact .categories _ rfl (categories_kept o.world.db _ _)
    | archive now userId categoryId =>
      obtain ⟨applied, db', hdb, rfl⟩ := over_snd_eq_some hw
      rcases Categories.archive_eq_ok hdb with rfl | ⟨-, rfl, -⟩
      · exact .categories _ rfl fun i c hc ↦ ⟨c, hc⟩
      · exact .categories _ rfl (categories_kept o.world.db _ _)
  | delete ownerId rid =>
    obtain ⟨db', hdb, rfl⟩ := office_over_eq_some h
    obtain ⟨⟨r, hr, howner⟩, rfl⟩ := Reminders.delete_eq_ok hdb
    exact .delete hr howner
  | digest now gateway =>
    cases h
    exact .digest now gateway rfl rfl
  | contact sender =>
    rcases contact_cases h with ⟨hnew, rfl⟩ | ⟨i, a, ha, htg, rfl⟩
    · exact .newcomer hnew
    · exact .known ha htg
  | setTimezone now userId raw =>
    obtain ⟨db', hdb, rfl⟩ := office_over_eq_some h
    obtain ⟨timezone, rfl⟩ := Onboarding.setTimezone_eq_ok hdb
    refine .setting userId ⟨fun _ ↦ rfl, fun _ ↦ id, fun u t ht ↦ ?_⟩ rfl
    rw [ht]
    rfl
  | setDigest userId enabled =>
    obtain ⟨db', hdb, rfl⟩ := office_over_eq_some h
    obtain rfl := Onboarding.setDigest_eq_ok hdb
    exact .setting userId ⟨fun _ ↦ rfl, fun _ ↦ id, fun _ _ ↦ id⟩ rfl
  | setQuietHours userId quietStart quietEnd =>
    obtain ⟨db', hdb, rfl⟩ := office_over_eq_some h
    obtain ⟨hquiet, rfl⟩ := Onboarding.setQuietHours_eq_ok hdb
    exact .setting userId ⟨fun _ ↦ rfl, fun u _ ↦ hquiet u, fun _ _ ↦ id⟩ rfl

/-- A call is an operation on the reminders, the deletion of one, or leaves them
alone. -/
inductive Attended (settings : Services.Settings) (o o' : Office) : Call → Prop
  | serve {op : Operation} (h : perform settings o.world op = some o'.world)
      (haccounts : o'.accounts = o.accounts) : Attended settings o o' (.serve (.other op))
  | delete {ownerId rid : ℕ} {r : Reminder} (hr : o.world.db.reminders rid = some r)
      (howner : r.ownerId = ownerId)
      (hworld : o'.world = { o.world with db := o.world.db.run (Db.Reminders.delete rid) })
      (haccounts : o'.accounts = o.accounts) : Attended settings o o' (.delete ownerId rid)
  | aside {call : Call} (hworld : Aside o.world o'.world)
      (hcall : call.isAside = true) : Attended settings o o' call

theorem attended (h : attend config o call = some o') : Attended config.settings o o' call := by
  cases handled h with
  | operation hw => exact .serve hw rfl
  | categories _ hcall => exact .aside ⟨_, _, rfl, fun _ h ↦ h⟩ hcall
  | delete hr howner => exact .delete hr howner rfl rfl
  | digest now gateway hdb =>
    obtain ⟨users, hrun, -⟩ := digest_run_users config.digest.weekday config.digest.hour now gateway
      config.digest.batchSize o.world.db
    have hkept := isSome_digest_run config.digest now gateway o.world.db
    rw [hrun] at hkept
    exact .aside ⟨users, o.world.db.categories,
      congrArg (World.mk · o.world.outbox) (hdb.symm.trans hrun), hkept⟩ rfl
  | newcomer => exact .aside ⟨_, _, rfl, isSome_add o.world.db _⟩ rfl
  | @known _ i => exact .aside ⟨_, _, rfl, isSome_updateFields o.world.db i _⟩ rfl
  | setting userId _ hcall =>
    exact .aside ⟨_, _, rfl, isSome_updateFields o.world.db userId _⟩ hcall

end Calls

end Remindo.Serial
