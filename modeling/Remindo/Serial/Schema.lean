import Remindo.Foundation.Constraints
import Remindo.Serial.Calls
import Remindo.Serial.CatchingUp
import Remindo.Serial.Messages

namespace Remindo.Serial

open Remindo.Domain Remindo.Db Remindo.Services Remindo.Foundation

/-- `uq_reminder_recipients_single_owner`. -/
def ownedReminder (x : Recipient) : Option ℕ := if x.role = .owner then some x.reminderId else none

/-- `uq_reminder_invites_live`. -/
def liveReminder (v : Invite) : Option ℕ := if v.revokedAt = none then some v.reminderId else none

theorem ownedReminder_eq_some {x : Recipient} {rid : ℕ} :
    ownedReminder x = some rid ↔ x.role = .owner ∧ x.reminderId = rid := by
  by_cases h : x.role = .owner <;> simp [ownedReminder, h]

theorem liveReminder_eq_some {v : Invite} {rid : ℕ} :
    liveReminder v = some rid ↔ v.revokedAt = none ∧ v.reminderId = rid := by
  by_cases h : v.revokedAt = none <;> simp [liveReminder, h]

/-- The constraints between and within the tables of the reminders. -/
structure Schema (db : Database) : Prop where
  reminders : db.reminders.Refers Reminder.ownerId db.users
  recipients : db.recipients.Refers Recipient.reminderId db.reminders
  invites : db.invites.Refers Invite.reminderId db.reminders
  occurrences : db.occurrences.Refers Occurrence.reminderId db.reminders
  deliveries : db.deliveries.Refers Delivery.occurrenceId db.occurrences
  actions : db.actions.Refers DeliveryAction.deliveryId db.deliveries
  recipientKey : db.recipients.Unique Recipient.key
  singleOwner : db.recipients.UniqueOn ownedReminder
  token : db.invites.Unique Invite.token
  liveInvite : db.invites.UniqueOn liveReminder
  occurrenceKey : db.occurrences.Unique Occurrence.key
  deliveryKey : db.deliveries.Unique Delivery.key

theorem schema_initial (users : Table User) (categories : Table Category) :
    Schema (.initial users categories) := by
  constructor
  all_goals
    intro i
    simp [Database.initial, Table.empty]

section Sharing

variable {settings : Settings} {w w' : World} {op : Operation} {k : ℕ}

theorem live_of_openInvite {db db' : Database} {now : ℤ} {token : String} {userId : ℕ}
    (h : Sharing.openInvite db now token userId = .ok db') : db' = db ∨ ∃ rid,
      (∃ r, db.reminders rid = some r) ∧ Recipients.get db rid userId = none ∧
        db' = db.run (Recipients.add ⟨rid, userId, .watcher, none⟩) := by
  obtain ⟨⟨_, invite⟩, -, h⟩ := bind_eq_ok.mp h
  obtain ⟨_, -, h⟩ := bind_eq_ok.mp h
  obtain ⟨r, hr, h⟩ := bind_eq_ok.mp h
  obtain ⟨_, -, h⟩ := bind_eq_ok.mp h
  split at h
  · rename_i hnone
    cases h
    exact .inr ⟨invite.reminderId, ⟨r, require_eq_ok.mp hr⟩, Option.isNone_iff_eq_none.mp hnone, rfl⟩
  · cases h
    exact .inl rfl

theorem gates_of_issueInvite {db db' : Database} {now : ℤ} {ownerId rid : ℕ} {token : String}
    (h : Sharing.issueInvite db now ownerId rid token = .ok db') :
    (∃ r, db.reminders rid = some r) ∧ ∀ k v, db.invites k = some v → v.token ≠ token := by
  obtain ⟨r, howned, h⟩ := bind_eq_ok.mp h
  obtain ⟨_, hnew, -⟩ := bind_eq_ok.mp h
  obtain ⟨r', hr, -⟩ := bind_eq_ok.mp howned
  refine ⟨⟨r', require_eq_ok.mp hr⟩, fun k v hv heq ↦ ?_⟩
  have hnone := Table.find_none.mp (Option.isNone_iff_eq_none.mp (demand_eq_ok.mp hnew)) k v hv
  simp [heq] at hnone

theorem invites_revokeLive (db : Database) (rid : ℕ) (now : ℤ) (k : ℕ) :
    (db.run (Invites.revokeLive rid now)).invites k = (db.invites k).map fun v ↦
      if decide (v.reminderId = rid) && v.revokedAt.isNone then { v with revokedAt := some now }
      else v :=
  db.invites.writes_updateWhere (fun _ v ↦ decide (v.reminderId = rid) && v.revokedAt.isNone)
    (fun v ↦ { v with revokedAt := some now }) k

/-- A recipient has been there before, owns the newest reminder, or has just been
invited. -/
theorem recipients_back {x : Recipient} (h : perform settings w op = some w')
    (hx : w'.db.recipients k = some x) :
    (∃ x₀, w.db.recipients k = some x₀ ∧ x₀.key = x.key ∧ x₀.role = x.role) ∨
      k = w.db.recipients.next ∧ (x.role = .owner ∧ x.reminderId = w.db.reminders.next ∧
          (∃ r, w'.db.reminders x.reminderId = some r) ∨
        x.role = .watcher ∧ (∀ j y, w.db.recipients j = some y → y.key ≠ x.key) ∧
          ∃ r, w'.db.reminders x.reminderId = some r) := by
  have hsame : w'.db.recipients = w.db.recipients →
      ∃ x₀, w.db.recipients k = some x₀ ∧ x₀.key = x.key ∧ x₀.role = x.role :=
    fun heq ↦ ⟨x, heq ▸ hx, rfl, rfl⟩
  by_cases hop : op.shares = false
  · exact .inl (hsame (sameSharing_perform hop h).recipients)
  cases op with
  | create now ownerId draft =>
    obtain ⟨db', hdb, rfl⟩ := over_eq_some h
    obtain ⟨-, rfl⟩ := Reminders.create_eq_ok hdb
    rcases Table.insert_some hx with hold | ⟨hk, rfl⟩
    · exact .inl ⟨x, hold, rfl, rfl⟩
    · refine .inr ⟨hk, .inl ⟨rfl, rfl, ?_⟩⟩
      refine ⟨Reminders.reminderRow ownerId draft (draft.startsAt.getD now), ?_⟩
      refine (Table.writes_insert ..).trans ?_
      simp
  | issueInvite now ownerId rid token =>
    obtain ⟨db', hdb, rfl⟩ := over_eq_some h
    obtain rfl := Sharing.issueInvite_eq_ok hdb
    exact .inl (hsame rfl)
  | revokeInvite now ownerId rid =>
    obtain ⟨db', hdb, rfl⟩ := over_eq_some h
    obtain rfl := Sharing.revokeInvite_eq_ok hdb
    exact .inl (hsame rfl)
  | openInvite now token userId =>
    obtain ⟨db', hdb, rfl⟩ := over_eq_some h
    rcases live_of_openInvite hdb with rfl | ⟨rid, hreminder, hnone, rfl⟩
    · exact .inl (hsame rfl)
    rcases Table.insert_some hx with hold | ⟨hk, rfl⟩
    · exact .inl ⟨x, hold, rfl, rfl⟩
    · refine .inr ⟨hk, .inr ⟨rfl, fun j y hy hkey ↦ ?_, hreminder⟩⟩
      have hnone := Table.find_none.mp hnone j y hy
      rw [hkey] at hnone
      simp [Recipient.key] at hnone
  | accept now userId rid =>
    obtain ⟨db', hdb, rfl⟩ := over_eq_some h
    obtain ⟨_, -, hdb⟩ := bind_eq_ok.mp hdb
    cases hdb
    have hrow : (w.db.run (Recipients.accept rid userId now)).recipients k = some x := by
      split at hx <;> exact hx
    rw [Recipients.recipients_accept] at hrow
    obtain ⟨x₀, hx₀, rfl⟩ := Option.map_eq_some_iff.mp hrow
    refine .inl ⟨x₀, hx₀, ?_⟩
    split <;> exact ⟨rfl, rfl⟩
  | decline now userId rid =>
    cases h
    have hrow := (Table.writes_deleteWhere ..).symm.trans hx
    exact .inl ⟨x, (Option.filter_eq_some_iff.mp hrow).1, rfl, rfl⟩
  | leave now userId rid =>
    cases h
    have hrow := (Table.writes_deleteWhere ..).symm.trans hx
    exact .inl ⟨x, (Option.filter_eq_some_iff.mp hrow).1, rfl, rfl⟩
  | _ => exact absurd rfl hop

/-- An invite has been there before, or is the only live one of its reminder. -/
theorem invites_back {v : Invite} (h : perform settings w op = some w')
    (hv : w'.db.invites k = some v) :
    (∃ v₀, w.db.invites k = some v₀ ∧ v = { v₀ with revokedAt := v.revokedAt } ∧
        (v.revokedAt = none → v₀.revokedAt = none)) ∨
      k = w.db.invites.next ∧ (∀ j u, w.db.invites j = some u → u.token ≠ v.token) ∧
        (∃ r, w'.db.reminders v.reminderId = some r) ∧
          ∀ j u, w'.db.invites j = some u → j ≠ k → liveReminder u ≠ some v.reminderId := by
  have hsame : w'.db.invites = w.db.invites → ∃ v₀, w.db.invites k = some v₀ ∧
      v = { v₀ with revokedAt := v.revokedAt } ∧ (v.revokedAt = none → v₀.revokedAt = none) :=
    fun heq ↦ ⟨v, heq ▸ hv, rfl, id⟩
  have hkept : ∀ {rid : ℕ} {now : ℤ}, (w.db.run (Invites.revokeLive rid now)).invites k = some v →
      ∃ v₀, w.db.invites k = some v₀ ∧ v = { v₀ with revokedAt := v.revokedAt } ∧
        (v.revokedAt = none → v₀.revokedAt = none) := by
    intro rid now hrow
    rw [invites_revokeLive] at hrow
    obtain ⟨v₀, hv₀, rfl⟩ := Option.map_eq_some_iff.mp hrow
    refine ⟨v₀, hv₀, ?_⟩
    split
    · exact ⟨rfl, fun hnone ↦ by cases hnone⟩
    · exact ⟨rfl, id⟩
  by_cases hop : op.shares = false
  · exact .inl (hsame (sameSharing_perform hop h).invites)
  cases op with
  | create now ownerId draft =>
    obtain ⟨db', hdb, rfl⟩ := over_eq_some h
    obtain ⟨-, rfl⟩ := Reminders.create_eq_ok hdb
    exact .inl (hsame rfl)
  | issueInvite now ownerId rid token =>
    obtain ⟨db', hdb, rfl⟩ := over_eq_some h
    obtain ⟨hreminder, hnew⟩ := gates_of_issueInvite hdb
    obtain rfl := Sharing.issueInvite_eq_ok hdb
    rcases Table.insert_some hv with hold | ⟨hk, rfl⟩
    · exact .inl (hkept hold)
    · have hnext : (w.db.run (Invites.revokeLive rid now)).invites.next = w.db.invites.next :=
        w.db.invites.next_writes_updateWhere (fun _ v ↦ decide (v.reminderId = rid) &&
          v.revokedAt.isNone) fun v ↦ { v with revokedAt := some now }
      refine .inr ⟨hk.trans hnext, hnew, hreminder, fun j u hu hne hlive ↦ ?_⟩
      rcases Table.insert_some hu with hold | ⟨hj, -⟩
      · rw [invites_revokeLive] at hold
        obtain ⟨u₀, -, rfl⟩ := Option.map_eq_some_iff.mp hold
        split at hlive
        · simp [liveReminder] at hlive
        · rename_i hother
          simp_all [liveReminder]
      · exact hne (hj.trans hk.symm)
  | revokeInvite now ownerId rid =>
    obtain ⟨db', hdb, rfl⟩ := over_eq_some h
    obtain rfl := Sharing.revokeInvite_eq_ok hdb
    exact .inl (hkept hv)
  | openInvite now token userId =>
    obtain ⟨db', hdb, rfl⟩ := over_eq_some h
    rcases Sharing.openInvite_eq_ok hdb with rfl | ⟨rid, -, rfl⟩ <;> exact .inl (hsame rfl)
  | accept now userId rid =>
    obtain ⟨db', hdb, rfl⟩ := over_eq_some h
    obtain ⟨_, -, hdb⟩ := bind_eq_ok.mp hdb
    cases hdb
    refine .inl (hsame ?_)
    split <;> rfl
  | decline now userId rid =>
    cases h
    exact .inl (hsame rfl)
  | leave now userId rid =>
    cases h
    exact .inl (hsame rfl)
  | _ => exact absurd rfl hop

end Sharing

section Journal

variable {db : Database}

/-- Every entry of the journal is about a delivery. -/
def Traceable (db : Database) : Prop := db.actions.Refers DeliveryAction.deliveryId db.deliveries

theorem Traceable.congr {db' : Database} (h : Traceable db) (hactions : db'.actions = db.actions)
    (hdeliveries : ∀ j d, db.deliveries j = some d → ∃ d', db'.deliveries j = some d') :
    Traceable db' :=
  Table.Refers.step h (fun _ a ha ↦ .inl ⟨a, hactions ▸ ha, rfl⟩) hdeliveries

theorem Traceable.addAction (h : Traceable db) {a : DeliveryAction} {d : Delivery}
    (hd : db.deliveries a.deliveryId = some d) : Traceable (db.run (Deliveries.addAction a)) := by
  refine Table.Refers.step h (fun k b hb ↦ ?_) fun _ d' hd' ↦ ⟨d', hd'⟩
  rcases Table.insert_some hb with hold | ⟨-, rfl⟩
  · exact .inl ⟨b, hold, rfl⟩
  · exact .inr ⟨d, hd⟩

theorem Traceable.delete (h : Traceable db) (p : ℕ → Delivery → Bool) :
    Traceable (db.run (Deliveries.delete p)) :=
  Table.Refers.cascade h (fun _ ↦ Table.writes_deleteWhere ..) fun _ ↦ Table.writes_deleteWhere ..

theorem Traceable.sameKeys {db' : Database} (h : Traceable db) (hsame : SameKeys db db')
    (hactions : db'.actions = db.actions) : Traceable db' := by
  refine h.congr hactions fun j d hd ↦ ?_
  have hj := hsame j
  rw [hd, Option.map_some] at hj
  obtain ⟨d', hd', -⟩ := Option.map_eq_some_iff.mp hj
  exact ⟨d', hd'⟩

theorem traceable_expireAll (now : ℤ) (overdue : List (ℕ × Occurrence)) (h : Traceable db) :
    Traceable (Reaper.expireAll now overdue db) := by
  have hsilence : ∀ (sent : List (ℕ × Delivery)) (db : Database),
      (∀ x ∈ sent, ∃ d, db.deliveries x.1 = some d) → Traceable db →
        Traceable (Reaper.journalSilence now sent db) := by
    intro sent
    induction sent with
    | nil => exact fun db _ hdb ↦ hdb
    | cons x rest ih =>
      intro db hsent hdb
      obtain ⟨d, hd⟩ := hsent x List.mem_cons_self
      have hjournal : Traceable (db.run (Deliveries.addAction (Reaper.autoExpire now x))) :=
        hdb.addAction hd
      exact ih _ (fun y hy ↦ hsent y (List.mem_cons_of_mem _ hy)) hjournal
  induction overdue generalizing db with
  | nil => exact h
  | cons o rest ih =>
    have hsent : ∀ x ∈ Deliveries.listSentForOccurrence db o.1,
        ∃ d, db.deliveries x.1 = some d :=
      fun x hx ↦ ⟨x.2, (Deliveries.mem_listSentForOccurrence hx).1⟩
    exact ih ((hsilence _ db hsent h).congr rfl fun _ d hd ↦ ⟨d, hd⟩)

variable {settings : Settings} {w w' : World} {op : Operation}

theorem traceable_perform (hw : Traceable w.db) (h : perform settings w op = some w') :
    Traceable w'.db := by
  cases op with
  | deliver now gateway =>
    cases h
    refine hw.sameKeys (sameKeys_deliver _ _ _ _ _) ?_
    exact actions_deliverAll ..
  | react now deliveryId userId action =>
    obtain ⟨result, db', hreact, rfl⟩ := over_snd_eq_some h
    rcases Reactions.react_eq_ok hreact with ⟨-, rfl⟩ | ⟨-, d, o, r, u, reaction, hd, -, -, -, -, -, rfl⟩
    · exact hw
    · have hvalues : Traceable (w.db.run
          (Deliveries.updateFields deliveryId (Reactions.values reaction))) :=
        hw.sameKeys (.of_update (Deliveries.deliveries_updateFields w.db deliveryId _) fun _ ↦ rfl)
          rfl
      have hrow : (w.db.run (Deliveries.updateFields deliveryId
          (Reactions.values reaction))).deliveries deliveryId = some (Reactions.values reaction d) := by
        rw [Deliveries.deliveries_updateFields, if_pos rfl, hd, Option.map_some]
      refine (hvalues.addAction (a := Reactions.journalEntry deliveryId userId reaction now
        r.snoozeMinutes) hrow).congr (Reactions.actions_closeOccurrence ..) fun j d' hd' ↦ ⟨d', ?_⟩
      rw [Reactions.deliveries_closeOccurrence]
      exact hd'
  | sweep now =>
    cases h
    let expired := Reaper.expireAll now (Reaper.overdue w.db now settings.reaperBatch) w.db
    have hexpired : Traceable expired := traceable_expireAll now _ hw
    refine hexpired.sameKeys (fun j ↦ ?_) (Reaper.repeatAll_tables ..).2.2.1
    rw [expireAll_deliveries]
    exact sameKeys_sweep w.db now settings.reaperBatch j
  | setStatus now ownerId rid status =>
    obtain ⟨db', hdb, rfl⟩ := over_eq_some h
    obtain ⟨r, -, rfl⟩ := Reminders.setStatus_eq_ok hdb
    split
    · exact hw.congr rfl fun _ d hd ↦ ⟨d, hd⟩
    · exact (hw.delete _).congr rfl fun _ d hd ↦ ⟨d, hd⟩
  | update now ownerId rid change =>
    obtain ⟨db', hdb, rfl⟩ := over_eq_some h
    obtain ⟨r, -, -, rfl⟩ := Reminders.update_eq_ok hdb
    split
    · exact (hw.delete _).congr rfl fun _ d hd ↦ ⟨d, hd⟩
    · exact hw.congr rfl fun _ d hd ↦ ⟨d, hd⟩
  | leave now userId rid =>
    cases h
    exact (hw.delete fun _ d ↦ Deliveries.isPendingFor w.db rid userId d).congr rfl
      fun _ d hd ↦ ⟨d, hd⟩
  | materialize now =>
    cases h
    have hextends := extends_materializeAll settings.planning
      (now + settings.planning.horizon) (Reminders.dueForPlanning w.db
        (now + settings.planning.horizon) settings.planning.batchSize) w.db
    exact hw.congr hextends.actions fun j d hd ↦ ⟨d, hextends.kept j d hd⟩
  | accept now userId rid =>
    obtain ⟨db', hdb, rfl⟩ := over_eq_some h
    have hextends := extends_accept hdb
    exact hw.congr hextends.actions fun j d hd ↦ ⟨d, hextends.kept j d hd⟩
  | create now ownerId draft =>
    obtain ⟨db', hdb, rfl⟩ := over_eq_some h
    obtain ⟨-, rfl⟩ := Reminders.create_eq_ok hdb
    exact hw
  | issueInvite now ownerId rid token =>
    obtain ⟨db', hdb, rfl⟩ := over_eq_some h
    obtain rfl := Sharing.issueInvite_eq_ok hdb
    exact hw
  | revokeInvite now ownerId rid =>
    obtain ⟨db', hdb, rfl⟩ := over_eq_some h
    obtain rfl := Sharing.revokeInvite_eq_ok hdb
    exact hw
  | openInvite now token userId =>
    obtain ⟨db', hdb, rfl⟩ := over_eq_some h
    rcases Sharing.openInvite_eq_ok hdb with rfl | ⟨rid, -, rfl⟩ <;> exact hw
  | decline now userId rid =>
    cases h
    exact hw

end Journal

section Steps

variable {settings : Settings} {w w' : World} {op : Operation}

theorem unique_occurrences_perform (hw : w.db.occurrences.Unique Occurrence.key)
    (h : perform settings w op = some w') : w'.db.occurrences.Unique Occurrence.key := by
  by_cases hop : ∃ now, op = .materialize now
  · obtain ⟨now, rfl⟩ := hop
    cases h
    have hall : ∀ (due : List (ℕ × Reminder)) (db : Database),
        db.occurrences.Unique Occurrence.key →
          (Planning.materializeAll settings.planning (now + settings.planning.horizon) due
            db).occurrences.Unique Occurrence.key := by
      intro due
      induction due with
      | nil => exact fun db hdb ↦ hdb
      | cons x rest ih =>
        intro db hdb
        rw [Planning.materializeAll]
        split
        · exact ih db hdb
        · exact ih _ (Planning.unique_materializeOne hdb)
    exact hall _ w.db hw
  · refine hw.of_back fun i o' ho' ↦ ?_
    obtain ⟨o, ho, hcont⟩ := perform_occurrences h (fun now heq ↦ hop ⟨now, heq⟩) i o' ho'
    exact ⟨o, ho, by rw [hcont.row]; rfl⟩

/-- An occurrence has been there before, or one of its reminder has come up. -/
theorem occurrences_back {i : ℕ} {o' : Occurrence} (h : perform settings w op = some w')
    (ho' : w'.db.occurrences i = some o') :
    (∃ o, w.db.occurrences i = some o ∧ o.reminderId = o'.reminderId) ∨
      ∃ r, w.db.reminders o'.reminderId = some r := by
  rcases perform_occurrence h ho' with ⟨o, ho, hcont⟩ | ⟨hnone, now, rfl⟩
  · exact .inl ⟨o, ho, hcont.reminderId.symm⟩
  · cases h
    rcases Planning.materializeAll_some ho' with hold | ⟨-, -, x, hx, m, -, hkey, -⟩
    · exact absurd (hold.symm.trans hnone) (by simp)
    · have hrid : o'.reminderId = x.1 := congrArg Prod.fst hkey
      exact .inr ⟨x.2, hrid ▸ (Reminders.mem_dueForPlanning hx).1⟩

theorem refers_of_parented {db : Database} {outbox : List Message}
    (h : Parented (World.mk db outbox).board) :
    db.deliveries.Refers Delivery.occurrenceId db.occurrences := by
  intro j d hd
  obtain ⟨f, hf⟩ := h j _ (World.letters_of hd)
  obtain ⟨o, ho, -⟩ := World.firing_some.mp hf
  exact ⟨o, ho⟩

theorem parented_of_refers (h : w.db.deliveries.Refers Delivery.occurrenceId w.db.occurrences) :
    Parented w.board := by
  intro j l hl
  obtain ⟨d, hd, rfl⟩ := World.letter_some.mp hl
  obtain ⟨o, ho⟩ := h j d hd
  exact ⟨_, World.firings_of ho⟩

theorem schema_perform (hw : Schema w.db) (h : perform settings w op = some w') :
    Schema w'.db := by
  have hreminders : ∀ rid r, w.db.reminders rid = some r → ∃ r', w'.db.reminders rid = some r' := by
    intro rid r hr
    obtain ⟨r', hr', -⟩ := perform_reminder h hr
    exact ⟨r', hr'⟩
  constructor
  · have howned : Owned w.db := fun rid r hr ↦ Option.isSome_iff_exists.mpr (hw.reminders rid r hr)
    exact fun rid r hr ↦ Option.isSome_iff_exists.mp (howned.perform h rid r hr)
  · refine hw.recipients.step (fun k x hx ↦ ?_) hreminders
    rcases recipients_back h hx with ⟨x₀, hx₀, hkey, -⟩ | ⟨-, ⟨-, -, hr⟩ | ⟨-, -, hr⟩⟩
    · exact .inl ⟨x₀, hx₀, congrArg Prod.fst hkey⟩
    · exact .inr hr
    · exact .inr hr
  · refine hw.invites.step (fun k v hv ↦ ?_) hreminders
    rcases invites_back h hv with ⟨v₀, hv₀, heq, -⟩ | ⟨-, -, hr, -⟩
    · exact .inl ⟨v₀, hv₀, by rw [heq]⟩
    · exact .inr hr
  · refine hw.occurrences.step (fun i o' ho' ↦ ?_) hreminders
    refine (occurrences_back h ho').imp_right fun ⟨r, hr⟩ ↦ hreminders _ r hr
  · exact refers_of_parented ((perform_changes (meets_free settings w op) h).invariant
      (fun _ _ hb hchange ↦ hb.change hchange) (parented_of_refers hw.deliveries))
  · exact traceable_perform hw.actions h
  · refine hw.recipientKey.step (n := w.db.recipients.next) fun k x hx ↦ ?_
    rcases recipients_back h hx with ⟨x₀, hx₀, hkey, -⟩ | ⟨hk, ⟨-, hrid, -⟩ | ⟨-, hnew, -⟩⟩
    · exact .inl ⟨x₀, hx₀, hkey⟩
    · refine .inr ⟨hk, fun j y hy hkey ↦ ?_⟩
      obtain ⟨r, hr⟩ := hw.recipients j y hy
      have hlt := Table.lt_next hr
      have hsame : y.reminderId = x.reminderId := congrArg Prod.fst hkey
      omega
    · exact .inr ⟨hk, hnew⟩
  · refine hw.singleOwner.step (n := w.db.recipients.next) fun k x rid hx hrid ↦ ?_
    obtain ⟨howner, hrid⟩ := ownedReminder_eq_some.mp hrid
    rcases recipients_back h hx with ⟨x₀, hx₀, hkey, hrole⟩ | ⟨hk, ⟨-, hnew, -⟩ | ⟨hrole, -⟩⟩
    · refine .inl ⟨x₀, hx₀, ownedReminder_eq_some.mpr ⟨hrole.trans howner, ?_⟩⟩
      exact (congrArg Prod.fst hkey).trans hrid
    · refine .inr ⟨hk, fun j y hy hne howned ↦ ?_⟩
      obtain ⟨hyowner, hyrid⟩ := ownedReminder_eq_some.mp howned
      rcases recipients_back h hy with ⟨y₀, hy₀, hkey, -⟩ | ⟨hj, -⟩
      · obtain ⟨r, hr⟩ := hw.recipients j y₀ hy₀
        have hlt := Table.lt_next hr
        have hsame : y₀.reminderId = y.reminderId := congrArg Prod.fst hkey
        omega
      · exact hne hj
    · rw [howner] at hrole
      cases hrole
  · refine hw.token.step (n := w.db.invites.next) fun k v hv ↦ ?_
    rcases invites_back h hv with ⟨v₀, hv₀, heq, -⟩ | ⟨hk, hnew, -⟩
    · exact .inl ⟨v₀, hv₀, by rw [heq]⟩
    · exact .inr ⟨hk, hnew⟩
  · refine hw.liveInvite.step (n := w.db.invites.next) fun k v rid hv hrid ↦ ?_
    obtain ⟨hlive, rfl⟩ := liveReminder_eq_some.mp hrid
    rcases invites_back h hv with ⟨v₀, hv₀, heq, hlived⟩ | ⟨hk, -, -, honly⟩
    · exact .inl ⟨v₀, hv₀, liveReminder_eq_some.mpr ⟨hlived hlive, by rw [heq]⟩⟩
    · exact .inr ⟨hk, fun j u hu hne ↦ honly j u hu (hk ▸ hne)⟩
  · exact unique_occurrences_perform hw.occurrenceKey h
  · exact unique_perform hw.deliveryKey h

theorem Schema.aside (h : Schema w.db) (haside : Aside w w') : Schema w'.db := by
  obtain ⟨users, categories, rfl, husers⟩ := haside
  obtain ⟨howners, _, _, _, _, _, _, _, _, _, _, _⟩ := h
  constructor
  case reminders =>
    refine howners.step (fun _ r hr ↦ .inl ⟨r, hr, rfl⟩) fun i u hu ↦ ?_
    exact Option.isSome_iff_exists.mp (husers i (by rw [hu]; rfl))
  all_goals assumption

theorem Schema.delete {db : Database} (h : Schema db) (rid : ℕ) :
    Schema (db.run (Db.Reminders.delete rid)) := by
  have hreminders := Reminders.delete_reminders db rid
  have hrecipients := Reminders.delete_recipients db rid
  have hinvites := Reminders.delete_invites db rid
  have hoccurrences := Reminders.delete_occurrences db rid
  have hdeliveries := Reminders.delete_deliveries db rid
  exact {
    reminders := fun i r hr ↦ by
      rw [hreminders] at hr
      split at hr
      · cases hr
      · exact h.reminders i r hr
    recipients := h.recipients.delete hreminders hrecipients
    invites := h.invites.delete hreminders hinvites
    occurrences := h.occurrences.delete hreminders hoccurrences
    deliveries := h.deliveries.cascade hoccurrences hdeliveries
    actions := h.actions.cascade hdeliveries (Reminders.delete_actions db rid)
    recipientKey := h.recipientKey.filter hrecipients
    singleOwner := h.singleOwner.filter hrecipients
    token := h.token.filter hinvites
    liveInvite := h.liveInvite.filter hinvites
    occurrenceKey := h.occurrenceKey.filter hoccurrences
    deliveryKey := h.deliveryKey.filter hdeliveries }

end Steps

section Runs

variable {config : Config} {o o' : Office} {call : Call} {calls : List Call}
  {categories : Table Category}

theorem schema_attend (ho : Schema o.world.db) (h : attend config o call = some o') :
    Schema o'.world.db := by
  cases attended h with
  | serve hop => exact schema_perform ho hop
  | delete hr howner hworld =>
    rw [hworld]
    exact ho.delete _
  | aside haside => exact ho.aside haside

/-- In whatever order the calls come, none breaks a constraint. -/
theorem schema_holds (hrun : run (attend config) (.initial categories) calls = some o) :
    Schema o.world.db :=
  run_preserves (P := fun o ↦ Schema o.world.db) (fun _ _ _ ho h ↦ schema_attend ho h) hrun
    (schema_initial .empty categories)

def sampleConfig : Config where
  settings := sampleSettings
  digest := Digests.mondayNine
  defaultTimezone := .utc
  zones := fun name ↦ if name = "UTC".toList then some .utc else none
  alphabet := sampleAlphabet

def ann : Onboarding.Sender := ⟨7, 7, "Ann".toList, none⟩

def bob : Onboarding.Sender := ⟨8, 8, "Bob".toList, some "bob".toList⟩

/-- Two users share a reminder, and the first answers its first message. -/
def sampleSharing : List Call :=
  [.contact ann, .setTimezone 0 0 "UTC".toList, .contact bob,
    .serve (.create 0 "Sport".toList "⚽".toList),
    .serve (.other (.create 0 0 { sampleDraft with categoryId := 1 })),
    .serve (.other (.issueInvite 0 0 0 "link")), .serve (.other (.openInvite 0 "link" 1)),
    .serve (.other (.accept 0 1 0)), .serve (.other (.materialize 0)),
    .serve (.other (.deliver (5 * day) (answering [] (5 * day)))),
    .serve (.other (.react (5 * day) 0 0 .done))]

theorem sampleSharing_runs :
    (run (attend sampleConfig) (.initial sampleCategories) sampleSharing).isSome = true := by
  decide +kernel

theorem schema_holds_sample :
    let o := (run (attend sampleConfig) (.initial sampleCategories) sampleSharing).get
      sampleSharing_runs
    Schema o.world.db ∧ (o.world.db.actions 0).isSome = true :=
  ⟨schema_holds (Option.some_get _).symm, by decide +kernel⟩

end Runs

end Remindo.Serial
