import Remindo.Foundation.Agreement
import Remindo.Serial.Schema

namespace Remindo.Serial

open Remindo.Domain Remindo.Db Remindo.Services Remindo.Foundation

/-- The users who ask for what an operation does; the workers ask for nobody. -/
def Operation.callers : Operation → List ℕ
  | .create _ ownerId _ | .setStatus _ ownerId .. | .update _ ownerId .. | .issueInvite _ ownerId ..
  | .revokeInvite _ ownerId _ => [ownerId]
  | .react _ _ userId _ | .openInvite _ _ userId | .accept _ userId _ | .decline _ userId _
  | .leave _ userId _ => [userId]
  | .materialize _ | .deliver .. | .sweep _ => []

/-- The call is made by one of the users, or has to do with nobody's reminders. -/
def Call.MadeBy (inner : ℕ → Prop) : Call → Prop
  | .serve (.other op) => ∃ userId ∈ op.callers, inner userId
  | .delete ownerId _ => inner ownerId
  | _ => True

/-- A delivery of the reminder to somebody else than the users. -/
def Theirs (inner : ℕ → Prop) (rid : ℕ) (db : Database) (d : Delivery) : Prop :=
  ¬inner d.userId ∧ Deliveries.isFor db rid d = true

/-- What the reminder is to everybody else, before and after. -/
structure Untouched (inner : ℕ → Prop) (rid : ℕ) (db db' : Database) : Prop where
  reminder : db'.reminders rid = db.reminders rid
  recipients : db.recipients.SameOn (fun x ↦ x.reminderId = rid ∧ ¬inner x.userId) db'.recipients
  invites : db.invites.SameOn (fun v ↦ v.reminderId = rid) db'.invites
  occurrences : ∀ i o, o.reminderId = rid →
    ((db'.occurrences i).map unstated = some o ↔ (db.occurrences i).map unstated = some o)
  deliveries : db.deliveries.SameOn (Theirs inner rid db) db'.deliveries
  actions : db.actions.SameOn
    (fun a ↦ ∃ d, db.deliveries a.deliveryId = some d ∧ Theirs inner rid db d) db'.actions
  /-- An occurrence is not closed before they have all answered. -/
  waiting : ∀ j d, db.deliveries j = some d → Theirs inner rid db d →
    d.status.isTerminal = false → db'.occurrences d.occurrenceId = db.occurrences d.occurrenceId

section Rows

variable {inner : ℕ → Prop} {rid rid' : ℕ} {db db' db'' : Database}

theorem isFor_iff {d : Delivery} : Deliveries.isFor db rid d = true ↔
    ∃ o, (db.occurrences d.occurrenceId).map unstated = some o ∧ o.reminderId = rid := by
  rw [Deliveries.isFor, Option.any_eq_true]
  constructor
  · rintro ⟨o, ho, hrid⟩
    exact ⟨unstated o, by rw [ho, Option.map_some], of_decide_eq_true hrid⟩
  · rintro ⟨o', ho', hrid⟩
    obtain ⟨o, ho, rfl⟩ := Option.map_eq_some_iff.mp ho'
    exact ⟨o, ho, decide_eq_true hrid⟩

theorem Untouched.theirs_iff (h : Untouched inner rid db db') {d : Delivery} :
    Theirs inner rid db' d ↔ Theirs inner rid db d := by
  refine and_congr_right fun _ ↦ ?_
  rw [isFor_iff, isFor_iff]
  exact exists_congr fun o ↦ and_congr_left fun hrid ↦ h.occurrences _ o hrid

theorem Untouched.of_tables (hreminder : db'.reminders rid = db.reminders rid)
    (hrecipients : db.recipients.SameOn (fun x ↦ x.reminderId = rid ∧ ¬inner x.userId) db'.recipients)
    (hinvites : db.invites.SameOn (fun v ↦ v.reminderId = rid) db'.invites)
    (hoccurrences : db'.occurrences = db.occurrences)
    (hdeliveries : db.deliveries.SameOn (Theirs inner rid db) db'.deliveries)
    (hactions : db.actions.SameOn
      (fun a ↦ ∃ d, db.deliveries a.deliveryId = some d ∧ Theirs inner rid db d) db'.actions) :
    Untouched inner rid db db' where
  reminder := hreminder
  recipients := hrecipients
  invites := hinvites
  occurrences i o _ := by rw [hoccurrences]
  deliveries := hdeliveries
  actions := hactions
  waiting j d _ _ _ := by rw [hoccurrences]

theorem Untouched.refl (inner : ℕ → Prop) (rid : ℕ) (db : Database) : Untouched inner rid db db :=
  .of_tables rfl .refl .refl rfl .refl .refl

theorem Untouched.trans (h : Untouched inner rid db db') (h' : Untouched inner rid db' db'') :
    Untouched inner rid db db'' := by
  refine ⟨h'.reminder.trans h.reminder, h.recipients.trans h'.recipients fun _ ↦ id,
    h.invites.trans h'.invites fun _ ↦ id,
    fun i o ho ↦ (h'.occurrences i o ho).trans (h.occurrences i o ho),
    h.deliveries.trans h'.deliveries fun _ ↦ h.theirs_iff.mpr, ?_, fun j d hd htheirs hopen ↦ ?_⟩
  · refine h.actions.trans h'.actions fun a ⟨d, hd, htheirs⟩ ↦ ⟨d, ?_, h.theirs_iff.mpr htheirs⟩
    exact (h.deliveries _ d htheirs).mpr hd
  · exact (h'.waiting j d ((h.deliveries j d htheirs).mpr hd) (h.theirs_iff.mpr htheirs) hopen).trans
      (h.waiting j d hd htheirs hopen)

end Rows

section Statements

variable {inner : ℕ → Prop} {rid rid' : ℕ} {db db' : Database}

theorem untouched_updateReminder (hne : rid ≠ rid') (values : Reminder → Reminder) :
    Untouched inner rid db (db.run (Db.Reminders.updateFields rid' values)) := by
  refine .of_tables ?_ .refl .refl rfl .refl .refl
  rw [Db.Reminders.reminders_updateFields, if_neg hne]

theorem sameOn_actions_delete {p : ℕ → Delivery → Bool}
    (hp : ∀ j d, p j d = true → ¬Theirs inner rid db d) :
    db.actions.SameOn (fun a ↦ ∃ d, db.deliveries a.deliveryId = some d ∧ Theirs inner rid db d)
      (db.run (Deliveries.delete p)).actions := by
  refine Table.sameOn_deleteWhere fun k a hgone ⟨d, hd, htheirs⟩ ↦ ?_
  rw [hd] at hgone
  exact hp _ d hgone htheirs

/-- Deliveries go with their occurrences, and these are another reminder's. -/
theorem Untouched.of_drop {p : ℕ → Occurrence → Bool} (hp : ∀ i o, p i o = true → o.reminderId ≠ rid)
    (hreminder : db'.reminders rid = db.reminders rid)
    (hrecipients : db.recipients.SameOn (fun x ↦ x.reminderId = rid ∧ ¬inner x.userId) db'.recipients)
    (hinvites : db.invites.SameOn (fun v ↦ v.reminderId = rid) db'.invites)
    (hoccurrences : db'.occurrences = db.occurrences.writes (db.occurrences.deleteWhere p))
    (hdeliveries : db'.deliveries = (db.run (Deliveries.delete fun _ d ↦
      (db.occurrences d.occurrenceId).any (p d.occurrenceId))).deliveries)
    (hactions : db'.actions = (db.run (Deliveries.delete fun _ d ↦
      (db.occurrences d.occurrenceId).any (p d.occurrenceId))).actions) :
    Untouched inner rid db db' := by
  have hgone : ∀ (j : ℕ) d, (db.occurrences d.occurrenceId).any (p d.occurrenceId) = true →
      ¬Theirs inner rid db d := by
    intro j d hgone htheirs
    obtain ⟨o, ho, hdrop⟩ := (Option.any_eq_true _ _).mp hgone
    obtain ⟨o', ho', hrid⟩ := (Option.any_eq_true _ _).mp htheirs.2
    cases ho.symm.trans ho'
    exact hp _ o hdrop (of_decide_eq_true hrid)
  have hkept : ∀ i, db'.occurrences i = (db.occurrences i).filter fun o ↦ !p i o := by
    intro i
    rw [hoccurrences, Table.writes_deleteWhere]
  refine ⟨hreminder, hrecipients, hinvites, fun i o ho ↦ ?_, ?_, ?_, fun j d hd htheirs _ ↦ ?_⟩
  · rw [hkept]
    cases ho₁ : db.occurrences i with
    | none => simp
    | some o₁ =>
      by_cases hdrop : p i o₁ = true
      · have hne : unstated o₁ ≠ o := by
          intro heq
          exact hp i o₁ hdrop ((congrArg Occurrence.reminderId heq).trans ho)
        simp [Option.filter_some, hdrop, hne]
      · simp [Option.filter_some, hdrop]
  · rw [hdeliveries]
    exact Table.sameOn_deleteWhere hgone
  · rw [hactions]
    exact sameOn_actions_delete hgone
  · rw [hkept]
    cases ho : db.occurrences d.occurrenceId with
    | none => rfl
    | some o =>
      have hdrop : p d.occurrenceId o = false := by
        refine eq_false_of_ne_true fun hdrop ↦ hgone j d ?_ htheirs
        rw [ho]
        exact hdrop
      simp [Option.filter_some, hdrop]

theorem untouched_deleteUnsent (hne : rid ≠ rid') :
    Untouched inner rid db (db.run (Occurrences.deleteUnsent rid')) := by
  refine .of_drop (p := Occurrences.isUnsent db rid') (fun i o hdrop hrid ↦ ?_) rfl .refl
    .refl rfl rfl rfl
  simp only [Occurrences.isUnsent, Bool.and_eq_true, decide_eq_true_eq] at hdrop
  exact hne (hrid.symm.trans hdrop.1.1)

theorem untouched_delete (hne : rid ≠ rid') :
    Untouched inner rid db (db.run (Db.Reminders.delete rid')) := by
  refine .of_drop (p := fun _ o ↦ decide (o.reminderId = rid')) (fun i o hdrop hrid ↦ ?_) ?_ ?_ ?_
    rfl rfl rfl
  · exact hne (hrid.symm.trans (of_decide_eq_true hdrop))
  · rw [Reminders.delete_reminders, if_neg hne]
  · refine Table.sameOn_deleteWhere fun k x hgone hx ↦ ?_
    exact hne (hx.1.symm.trans (of_decide_eq_true hgone))
  · refine Table.sameOn_deleteWhere fun k v hgone hv ↦ ?_
    exact hne (hv.symm.trans (of_decide_eq_true hgone))

theorem untouched_dropQueued (hne : rid ≠ rid') (r : Reminder) :
    Untouched inner rid db (Reminders.dropQueued rid' r db) :=
  ((untouched_deleteUnsent hne).trans (untouched_updateReminder hne _)).trans
    (untouched_updateReminder hne _)

theorem untouched_revokeLive (hne : rid ≠ rid') (now : ℤ) :
    Untouched inner rid db (db.run (Invites.revokeLive rid' now)) := by
  refine .of_tables rfl .refl (db.invites.sameOn_updateWhere
    (fun _ v ↦ decide (v.reminderId = rid') && v.revokedAt.isNone)
    (fun v ↦ { v with revokedAt := some now }) fun k v hlive ↦ ?_) rfl .refl .refl
  have hv := of_decide_eq_true (Bool.and_eq_true_iff.mp hlive).1
  exact ⟨fun hrid ↦ hne (hrid.symm.trans hv), fun hrid ↦ hne (hrid.symm.trans hv)⟩

theorem untouched_addInvite {v : Invite} (hne : rid ≠ v.reminderId) :
    Untouched inner rid db (db.run (Invites.add v)) :=
  .of_tables rfl .refl (Table.sameOn_insert hne.symm) rfl .refl .refl

theorem untouched_addRecipient {x : Recipient} (hx : x.reminderId = rid → inner x.userId) :
    Untouched inner rid db (db.run (Recipients.add x)) := by
  refine .of_tables rfl (Table.sameOn_insert fun h ↦ h.2 (hx h.1)) .refl rfl .refl
    .refl

section Callers

variable {userId : ℕ} (hinner : inner userId)

include hinner

theorem untouched_removeWatcher :
    Untouched inner rid db (db.run (Recipients.removeWatcher rid' userId)) := by
  refine .of_tables rfl (Table.sameOn_deleteWhere fun k x hgone hx ↦ hx.2 ?_) .refl rfl
    .refl .refl
  have hkey : x.userId = userId :=
    congrArg Prod.snd (of_decide_eq_true (Bool.and_eq_true_iff.mp hgone).1)
  exact hkey ▸ hinner

theorem untouched_accepted (now : ℤ) :
    Untouched inner rid db (db.run (Recipients.accept rid' userId now)) := by
  refine .of_tables rfl (db.recipients.sameOn_updateWhere
    (fun _ x ↦ decide (x.key = (rid', userId)) && decide (x.role = .watcher) &&
      x.acceptedAt.isNone)
    (fun x ↦ { x with acceptedAt := some now }) fun k x hpending ↦ ?_) .refl rfl .refl .refl
  simp only [Bool.and_eq_true, decide_eq_true_eq] at hpending
  have hkey : x.userId = userId := congrArg Prod.snd hpending.1.1
  have huser : inner x.userId := hkey ▸ hinner
  exact ⟨fun hx ↦ hx.2 huser, fun hx ↦ hx.2 huser⟩

theorem untouched_backfill (now : ℤ) :
    Untouched inner rid db (Sharing.backfillDeliveries rid' userId now db) := by
  refine .of_tables rfl .refl .refl rfl (Table.sameOn_insertMissing fun d hd htheirs ↦ ?_)
    .refl
  obtain ⟨x, -, rfl⟩ := List.mem_map.mp hd
  exact htheirs.1 hinner

theorem untouched_withdraw :
    Untouched inner rid db (db.run (Deliveries.deletePendingForRecipient rid' userId)) := by
  have hgone : ∀ (j : ℕ) d, Deliveries.isPendingFor db rid' userId d = true →
      ¬Theirs inner rid db d := by
    intro j d hpending htheirs
    simp only [Deliveries.isPendingFor, Bool.and_eq_true, decide_eq_true_eq] at hpending
    exact htheirs.1 (hpending.1.1 ▸ hinner)
  exact .of_tables rfl .refl .refl rfl (Table.sameOn_deleteWhere hgone)
    (sameOn_actions_delete hgone)

theorem untouched_write {j : ℕ} {d : Delivery} (hd : db.deliveries j = some d)
    (huser : d.userId = userId) (reaction : Reaction) (now : ℤ) (minutes : ℕ) :
    Untouched inner rid db (Reactions.write j userId reaction now minutes db) := by
  refine .of_tables rfl .refl .refl rfl (Table.sameOn_update fun d' hd' ↦ ?_)
    (Table.sameOn_insert fun ⟨d', hd', htheirs⟩ ↦ ?_)
  · cases hd.symm.trans hd'
    exact ⟨fun h ↦ h.1 (huser ▸ hinner), fun h ↦ h.1 (huser ▸ hinner)⟩
  · cases hd.symm.trans hd'
    exact htheirs.1 (huser ▸ hinner)

end Callers

/-- Somebody else's open delivery keeps the occurrence from being rolled up. -/
theorem untouched_closeOccurrence (i : ℕ) (reaction : Reaction) :
    Untouched inner rid db (Reactions.closeOccurrence i reaction db) := by
  by_cases hall : Occurrences.allDeliveriesTerminal db i = true
  · rw [Reactions.closeOccurrence]
    split
    · split
      · rename_i status hstatus
        refine ⟨rfl, .refl, .refl, fun k o _ ↦ ?_, .refl, .refl,
          fun j d hd _ hopen ↦ ?_⟩
        · rw [(restated_setStatus db i status).occurrences k]
        · rw [Occurrences.occurrences_setStatus, if_neg]
          intro hi
          rw [Occurrences.allDeliveriesTerminal_iff.mp hall j d hd hi] at hopen
          cases hopen
      · exact .refl ..
    · exact .refl ..
  · have hsame : Reactions.closeOccurrence i reaction db = db := by
      simp [Reactions.closeOccurrence, rollUpOccurrence, hall]
    rw [hsame]
    exact .refl ..

end Statements

section Calls

variable {settings : Services.Settings} {w w' : World} {op : Operation} {inner : ℕ → Prop}
  {rid : ℕ} {r : Reminder}

theorem untouched_perform (hr : w.db.reminders rid = some r) (howner : ¬inner r.ownerId)
    (hop : ∃ userId ∈ op.callers, inner userId) (h : perform settings w op = some w') :
    Untouched inner rid w.db w'.db := by
  obtain ⟨userId, hcaller, hinner⟩ := hop
  have hother : ∀ {rid' : ℕ} {r' : Reminder}, w.db.reminders rid' = some r' →
      r'.ownerId = userId → rid ≠ rid' := by
    intro rid' r' hr' howner' heq
    subst heq
    cases hr.symm.trans hr'
    exact howner (howner' ▸ hinner)
  cases op with
  | create now ownerId draft =>
    obtain ⟨db', hdb, rfl⟩ := over_eq_some h
    obtain ⟨-, rfl⟩ := Reminders.create_eq_ok hdb
    have hlt : rid < w.db.reminders.next := Table.lt_next hr
    have hopened : Untouched inner rid w.db (w.db.run (Db.Reminders.add
        (Reminders.reminderRow ownerId draft (draft.startsAt.getD now)))) :=
      .of_tables ((Table.writes_insert ..).trans (if_pos hlt)) .refl .refl rfl .refl .refl
    exact hopened.trans (untouched_addRecipient fun heq ↦ absurd heq.symm (Nat.ne_of_lt hlt))
  | setStatus now ownerId rid' status =>
    cases List.mem_singleton.mp hcaller
    obtain ⟨db', hdb, rfl⟩ := over_eq_some h
    obtain ⟨r', hr', rfl⟩ := Reminders.setStatus_eq_ok hdb
    obtain ⟨hrow, howner', -⟩ := Reminders.getEditable_eq_ok hr'
    have hne := hother hrow howner'
    split
    · exact untouched_updateReminder hne _
    · exact (untouched_dropQueued hne r').trans (untouched_updateReminder hne _)
  | update now ownerId rid' change =>
    cases List.mem_singleton.mp hcaller
    obtain ⟨db', hdb, rfl⟩ := over_eq_some h
    obtain ⟨r', hr', -, rfl⟩ := Reminders.update_eq_ok hdb
    obtain ⟨hrow, howner', -⟩ := Reminders.getEditable_eq_ok hr'
    have hne := hother hrow howner'
    split
    · exact (untouched_dropQueued hne r').trans (untouched_updateReminder hne _)
    · exact untouched_updateReminder hne _
  | issueInvite now ownerId rid' token =>
    cases List.mem_singleton.mp hcaller
    obtain ⟨db', hdb, rfl⟩ := over_eq_some h
    obtain ⟨r', howned, -⟩ := bind_eq_ok.mp hdb
    obtain rfl := Sharing.issueInvite_eq_ok hdb
    obtain ⟨hrow, howner'⟩ := Reminders.getOwned_eq_ok howned
    have hne := hother hrow howner'
    exact (untouched_revokeLive hne now).trans (untouched_addInvite hne)
  | revokeInvite now ownerId rid' =>
    cases List.mem_singleton.mp hcaller
    obtain ⟨db', hdb, rfl⟩ := over_eq_some h
    obtain ⟨r', howned, -⟩ := bind_eq_ok.mp hdb
    obtain rfl := Sharing.revokeInvite_eq_ok hdb
    obtain ⟨hrow, howner'⟩ := Reminders.getOwned_eq_ok howned
    exact untouched_revokeLive (hother hrow howner') now
  | openInvite now token userId =>
    cases List.mem_singleton.mp hcaller
    obtain ⟨db', hdb, rfl⟩ := over_eq_some h
    rcases Sharing.openInvite_eq_ok hdb with rfl | ⟨rid', -, rfl⟩
    · exact .refl ..
    · exact untouched_addRecipient fun _ ↦ hinner
  | accept now userId rid' =>
    cases List.mem_singleton.mp hcaller
    obtain ⟨db', hdb, rfl⟩ := over_eq_some h
    obtain ⟨_, -, hdb⟩ := bind_eq_ok.mp hdb
    cases hdb
    split
    · exact untouched_accepted hinner now
    · exact (untouched_accepted hinner now).trans (untouched_backfill hinner now)
  | decline now userId rid' =>
    cases List.mem_singleton.mp hcaller
    cases h
    exact untouched_removeWatcher hinner
  | leave now userId rid' =>
    cases List.mem_singleton.mp hcaller
    cases h
    exact (untouched_withdraw hinner).trans (untouched_removeWatcher hinner)
  | react now deliveryId userId action =>
    cases List.mem_singleton.mp hcaller
    obtain ⟨result, db', hreact, rfl⟩ := over_snd_eq_some h
    rcases Reactions.react_eq_ok hreact with
      ⟨-, rfl⟩ | ⟨-, d, o, r', u, reaction, hd, huser, -, -, -, -, rfl⟩
    · exact .refl ..
    · exact (untouched_write hinner hd huser ..).trans (untouched_closeOccurrence ..)
  | materialize | deliver | sweep => cases hcaller

variable {config : Config} {o o' : Office} {call : Call} {calls : List Call}

theorem untouched_attend (hr : o.world.db.reminders rid = some r) (howner : ¬inner r.ownerId)
    (hcall : call.MadeBy inner) (h : attend config o call = some o') :
    Untouched inner rid o.world.db o'.world.db ∧ o'.world.outbox = o.world.outbox := by
  cases attended h with
  | serve hw =>
    refine ⟨untouched_perform hr howner hcall hw, ?_⟩
    rcases outbox_perform hw with ⟨now, gateway, rfl⟩ | hsame
    · obtain ⟨userId, hcaller, -⟩ := hcall
      cases hcaller
    · exact hsame
  | @delete ownerId rid' r' hr' howner' hworld =>
    rw [hworld]
    refine ⟨untouched_delete ?_, rfl⟩
    intro heq
    subst heq
    cases hr.symm.trans hr'
    exact howner (howner' ▸ hcall)
  | aside haside =>
    obtain ⟨users, categories, hworld, -⟩ := haside
    rw [hworld]
    exact ⟨.of_tables rfl .refl .refl rfl .refl .refl, rfl⟩

/-- Whatever a reminder's watchers and strangers do, the reminder, its links and
what the others have of it stay as they are. -/
theorem others_untouched (hr : o.world.db.reminders rid = some r) (howner : ¬inner r.ownerId)
    (hcalls : ∀ call ∈ calls, call.MadeBy inner) (hrun : run (attend config) o calls = some o') :
    Untouched inner rid o.world.db o'.world.db ∧ o'.world.outbox = o.world.outbox := by
  refine run_invariant (P := fun o' ↦ Untouched inner rid o.world.db o'.world.db ∧
    o'.world.outbox = o.world.outbox) (fun o₁ call o₂ h hcall hstep ↦ ?_) (.of_mem hcalls) hrun
      ⟨.refl .., rfl⟩
  obtain ⟨huntouched, hsame⟩ := untouched_attend (h.1.reminder.trans hr) howner hcall hstep
  exact ⟨h.1.trans huntouched, hsame.trans h.2⟩

/-- The watcher answers, leaves, and keeps a reminder of their own for a while. -/
def sampleWatching : List Call :=
  [.contact bob, .serve (.other (.react (6 * day) 1 1 .done)),
    .serve (.other (.leave (6 * day) 1 0)), .serve (.other (.create (6 * day) 1 sampleDraft)),
    .serve (.other (.setStatus (7 * day) 1 1 .paused)), .delete 1 1]

theorem sampleWatching_madeBy (call : Call) (h : call ∈ sampleWatching) :
    call.MadeBy fun userId ↦ userId = 1 := by
  simp only [sampleWatching, List.mem_cons, List.not_mem_nil, or_false] at h
  rcases h with rfl | rfl | rfl | rfl | rfl | rfl <;> simp [Call.MadeBy, Operation.callers]

theorem others_untouched_sample : ∃ o o' : Office,
    run (attend sampleConfig) (.initial sampleCategories) sampleSharing = some o ∧
      run (attend sampleConfig) o sampleWatching = some o' ∧
        Untouched (fun userId ↦ userId = 1) 0 o.world.db o'.world.db ∧
          o'.world.outbox = o.world.outbox := by
  have hruns : (run (attend sampleConfig) (.initial sampleCategories) sampleSharing).any (fun o ↦
      (o.world.db.reminders 0).any (fun r ↦ decide (r.ownerId = 0)) &&
        (run (attend sampleConfig) o sampleWatching).isSome) = true := by
    decide +kernel
  obtain ⟨o, hrun, hruns⟩ := (Option.any_eq_true _ _).mp hruns
  obtain ⟨howned, hruns⟩ := Bool.and_eq_true_iff.mp hruns
  obtain ⟨r, hr, howner⟩ := (Option.any_eq_true _ _).mp howned
  obtain ⟨o', hafter⟩ := Option.isSome_iff_exists.mp hruns
  have hother : ¬r.ownerId = 1 := by
    rw [of_decide_eq_true howner]
    decide
  exact ⟨o, o', hrun, hafter, others_untouched hr hother sampleWatching_madeBy hafter⟩

end Calls

end Remindo.Serial
