import Remindo.Serial.Schema

namespace Remindo.Serial

open Remindo.Domain Remindo.Db Remindo.Services Remindo.Foundation

/-- No row is about the reminder. -/
structure Forgotten (db : Database) (rid : ℕ) : Prop where
  reminder : db.reminders rid = none
  recipients : ∀ k x, db.recipients k = some x → x.reminderId ≠ rid
  invites : ∀ k v, db.invites k = some v → v.reminderId ≠ rid
  occurrences : ∀ i o, db.occurrences i = some o → o.reminderId ≠ rid
  deliveries : ∀ j d, db.deliveries j = some d → Deliveries.isFor db rid d = false
  actions : ∀ k a, db.actions k = some a →
    ∃ d, db.deliveries a.deliveryId = some d ∧ Deliveries.isFor db rid d = false

/-- The rows that are not about the reminder are those of before. -/
structure Spares (rid : ℕ) (db db' : Database) : Prop where
  users : db'.users = db.users
  categories : db'.categories = db.categories
  reminders : ∀ i, i ≠ rid → db'.reminders i = db.reminders i
  recipients : ∀ k x, db'.recipients k = some x ↔ db.recipients k = some x ∧ x.reminderId ≠ rid
  invites : ∀ k v, db'.invites k = some v ↔ db.invites k = some v ∧ v.reminderId ≠ rid
  occurrences : ∀ i o, db'.occurrences i = some o ↔ db.occurrences i = some o ∧ o.reminderId ≠ rid
  deliveries : ∀ j d, db'.deliveries j = some d ↔
    db.deliveries j = some d ∧ Deliveries.isFor db rid d = false
  actions : ∀ k a, db'.actions k = some a ↔ db.actions k = some a ∧
    ∀ d, db.deliveries a.deliveryId = some d → Deliveries.isFor db rid d = false

section Deletion

variable {db : Database} {rid : ℕ}

theorem spares_delete (db : Database) (rid : ℕ) :
    Spares rid db (db.run (Db.Reminders.delete rid)) := by
  refine ⟨rfl, rfl, fun i hi ↦ ?_, fun k x ↦ ?_, fun k v ↦ ?_, fun i o ↦ ?_, fun j d ↦ ?_,
    fun k a ↦ ?_⟩
  · rw [Reminders.delete_reminders, if_neg hi]
  · simp [Option.filter_eq_some_iff]
  · simp [Option.filter_eq_some_iff]
  · simp [Option.filter_eq_some_iff]
  · simp [Option.filter_eq_some_iff]
  · simp only [Reminders.delete_actions, Option.filter_eq_some_iff]
    refine and_congr_right fun _ ↦ ?_
    cases db.deliveries a.deliveryId <;> simp

theorem forgotten_of_none (hdb : Schema db) (hnone : db.reminders rid = none) :
    Forgotten db rid := by
  have habsent : ∀ {i : ℕ}, (∃ r, db.reminders i = some r) → i ≠ rid := by
    rintro i ⟨r, hr⟩ rfl
    rw [hnone] at hr
    cases hr
  have hdeliveries : ∀ j d, db.deliveries j = some d → Deliveries.isFor db rid d = false := by
    intro j d hd
    obtain ⟨o, ho⟩ := hdb.deliveries j d hd
    simp [Deliveries.isFor, ho, habsent (hdb.occurrences _ o ho)]
  refine ⟨hnone, fun k x hx ↦ habsent (hdb.recipients k x hx),
    fun k v hv ↦ habsent (hdb.invites k v hv), fun i o ho ↦ habsent (hdb.occurrences i o ho),
    hdeliveries, fun k a ha ↦ ?_⟩
  obtain ⟨d, hd⟩ := hdb.actions k a ha
  exact ⟨d, hd, hdeliveries _ d hd⟩

theorem spent_materializeAll (settings : Planning.Settings) (horizonEnd : ℤ)
    (due : List (ℕ × Reminder)) (h : db.reminders.Spent rid) :
    (Planning.materializeAll settings horizonEnd due db).reminders.Spent rid := by
  induction due generalizing db with
  | nil => exact h
  | cons x rest ih =>
    rw [Planning.materializeAll]
    split
    · exact ih h
    · refine ih ?_
      rw [Planning.materializeOne_eq, Planning.settle]
      split
      · exact (h.update _ _).update _ _
      · exact h.update _ _

end Deletion

section Runs

variable {settings : Services.Settings} {w w' : World} {op : Operation} {rid : ℕ}

theorem spent_perform (hw : w.db.reminders.Spent rid) (h : perform settings w op = some w') :
    w'.db.reminders.Spent rid := by
  by_cases hop : op.movesCalendar = false
  · rw [(sameCalendar_perform hop h).1]
    exact hw
  cases op with
  | create now ownerId draft =>
    obtain ⟨db', hdb, rfl⟩ := over_eq_some h
    obtain ⟨-, rfl⟩ := Reminders.create_eq_ok hdb
    exact hw.insert _
  | materialize now =>
    cases h
    exact spent_materializeAll _ _ _ hw
  | setStatus now ownerId rid' status =>
    obtain ⟨db', hdb, rfl⟩ := over_eq_some h
    obtain ⟨r, -, rfl⟩ := Reminders.setStatus_eq_ok hdb
    split
    · exact hw.update _ _
    · exact ((hw.update _ _).update _ _).update _ _
  | update now ownerId rid' change =>
    obtain ⟨db', hdb, rfl⟩ := over_eq_some h
    obtain ⟨r, -, -, rfl⟩ := Reminders.update_eq_ok hdb
    split
    · exact ((hw.update _ _).update _ _).update _ _
    · exact hw.update _ _
  | _ => exact absurd rfl hop

variable {config : Config} {o o₁ o' : Office} {call : Call} {calls later : List Call}
  {categories : Table Category} {ownerId : ℕ}

/-- A deleted reminder does not come back, and nothing is sent about it. -/
theorem spent_attend (ho : Schema o.world.db) (hspent : o.world.db.reminders.Spent rid)
    (h : attend config o call = some o') : o'.world.db.reminders.Spent rid ∧
      Appends (fun m ↦ m.reminderId ≠ rid) o.world.outbox o'.world.outbox := by
  cases attended h with
  | serve hop =>
    refine ⟨spent_perform hspent hop, appends_perform hop fun now gateway m hm hrid ↦ ?_⟩
    obtain ⟨x, -, d, c, -, -, -, -, -, hc, hcrid, -⟩ := mem_deliver hm
    exact (forgotten_of_none ho hspent.1).occurrences _ c hc (hcrid.trans hrid)
  | delete hr howner hworld =>
    rw [hworld]
    exact ⟨hspent.deleteWhere _, .of_eq rfl⟩
  | aside haside =>
    obtain ⟨users, categories, hworld, -⟩ := haside
    rw [hworld]
    exact ⟨hspent, .of_eq rfl⟩

/-- Deleting a reminder is its owner's, takes every row about it and no other,
and is final. -/
theorem deletion_is_final (hbefore : run (attend config) (.initial categories) calls = some o)
    (hdelete : attend config o (.delete ownerId rid) = some o₁)
    (hafter : run (attend config) o₁ later = some o') :
    (∃ r, o.world.db.reminders rid = some r ∧ r.ownerId = ownerId) ∧
      Spares rid o.world.db o₁.world.db ∧ Forgotten o'.world.db rid ∧
        Appends (fun m ↦ m.reminderId ≠ rid) o.world.outbox o'.world.outbox := by
  have hschema := schema_attend (schema_holds hbefore) hdelete
  cases attended hdelete with
  | aside haside hcall => cases hcall
  | @delete ownerId rid r hr howner hworld =>
    have hkept : Schema o'.world.db ∧ o'.world.db.reminders.Spent rid ∧
        Appends (fun m ↦ m.reminderId ≠ rid) o₁.world.outbox o'.world.outbox := by
      refine run_preserves (P := fun o' ↦ Schema o'.world.db ∧ o'.world.db.reminders.Spent rid ∧
          Appends (fun m ↦ m.reminderId ≠ rid) o₁.world.outbox o'.world.outbox)
        (fun o₂ call o₃ h hstep ↦ ?_) hafter ⟨hschema, ?_, .of_eq rfl⟩
      · obtain ⟨hspent, hsilent⟩ := spent_attend h.1 h.2.1 hstep
        exact ⟨schema_attend h.1 hstep, hspent, h.2.2.trans hsilent⟩
      · rw [hworld]
        exact Table.spent_deleteWhere hr (decide_eq_true rfl)
    refine ⟨⟨r, hr, howner⟩, ?_, forgotten_of_none hkept.1 hkept.2.1.1, .trans ?_ hkept.2.2⟩
    · rw [hworld]
      exact spares_delete _ _
    · rw [hworld]
      exact .of_eq rfl

/-- What happens after the shared reminder is deleted. -/
def sampleAftermath : List Call :=
  [.serve (.other (.create (6 * day) 0 sampleDraft)), .serve (.other (.materialize (6 * day))),
    .serve (.other (.deliver (12 * day) (answering [] (12 * day))))]

theorem deletion_is_final_sample : ∃ o o₁ o' : Office,
    run (attend sampleConfig) (.initial sampleCategories) sampleSharing = some o ∧
      o.world.outbox.length = 2 ∧ o'.world.outbox.length = 3 ∧
      Spares 0 o.world.db o₁.world.db ∧ Forgotten o'.world.db 0 ∧
        Appends (fun m ↦ m.reminderId ≠ 0) o.world.outbox o'.world.outbox := by
  have hruns : (run (attend sampleConfig) (.initial sampleCategories) sampleSharing).any (fun o ↦
      decide (o.world.outbox.length = 2) && (attend sampleConfig o (.delete 0 0)).any fun o₁ ↦
        (run (attend sampleConfig) o₁ sampleAftermath).any fun o' ↦
          decide (o'.world.outbox.length = 3)) = true := by
    decide +kernel
  obtain ⟨o, hrun, hruns⟩ := (Option.any_eq_true _ _).mp hruns
  obtain ⟨hbefore, hruns⟩ := Bool.and_eq_true_iff.mp hruns
  obtain ⟨o₁, hdelete, hruns⟩ := (Option.any_eq_true _ _).mp hruns
  obtain ⟨o', hafter, hlength⟩ := (Option.any_eq_true _ _).mp hruns
  obtain ⟨-, hspares, hforgotten, hsilent⟩ := deletion_is_final hrun hdelete hafter
  exact ⟨o, o₁, o', hrun, of_decide_eq_true hbefore, of_decide_eq_true hlength, hspares, hforgotten,
    hsilent⟩

end Runs

end Remindo.Serial
