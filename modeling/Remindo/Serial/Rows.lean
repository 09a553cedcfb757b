import Remindo.Serial.Strides

namespace Remindo.Serial

open Remindo.Domain Remindo.Db Remindo.Services Remindo.Foundation

section Rows

/-- What is queued gets ids of its own, is nobody's yet, belongs to an occurrence
and is not in the journal. -/
structure Extends (db db' : Database) : Prop where
  next : db.deliveries.next ≤ db'.deliveries.next
  actions : db'.actions = db.actions
  occurrences : ∀ i o, db.occurrences i = some o → db'.occurrences i = some o
  kept : ∀ j d, db.deliveries j = some d → db'.deliveries j = some d
  back : ∀ j d, db'.deliveries j = some d → db.deliveries j = some d ∨
    db.deliveries.next ≤ j ∧ d.lockedUntil = none ∧
      ∃ o, db'.occurrences d.occurrenceId = some o

variable {db db' db'' : Database}

theorem Extends.refl (db : Database) : Extends db db :=
  ⟨le_rfl, rfl, fun _ _ h ↦ h, fun _ _ h ↦ h, fun _ _ h ↦ .inl h⟩

theorem Extends.trans (h : Extends db db') (h' : Extends db' db'') : Extends db db'' := by
  refine ⟨h.next.trans h'.next, h'.actions.trans h.actions,
    fun i o ho ↦ h'.occurrences i o (h.occurrences i o ho),
    fun j d hd ↦ h'.kept j d (h.kept j d hd), fun j d hd ↦ ?_⟩
  rcases h'.back j d hd with hd | ⟨hnext, hfree, hparent⟩
  · refine (h.back j d hd).imp_right fun ⟨hnext, hfree, o, ho⟩ ↦ ⟨hnext, hfree, o, ?_⟩
    exact h'.occurrences _ o ho
  · exact .inr ⟨h.next.trans hnext, hfree, hparent⟩

theorem extends_insertMissing {rows : List Delivery}
    (hrows : ∀ d ∈ rows, d.lockedUntil = none ∧ ∃ o, db'.occurrences d.occurrenceId = some o)
    (hoccurrences : ∀ i o, db.occurrences i = some o → db'.occurrences i = some o)
    (hdeliveries : db'.deliveries = (db.run (Deliveries.insertMissing rows)).deliveries)
    (hactions : db'.actions = db.actions) : Extends db db' := by
  refine ⟨?_, hactions, hoccurrences, fun j d hd ↦ ?_, fun j d hd ↦ ?_⟩
  · rw [hdeliveries]
    exact Table.next_le_writes ..
  · rw [hdeliveries]
    exact Table.insertMissing_kept hd
  · rw [hdeliveries] at hd
    rcases Table.insertMissing_new hd with hold | hnext
    · exact .inl hold
    · rcases Table.insertMissing_some hd with hold | ⟨-, hmem, -⟩
      · exact .inl hold
      · exact .inr ⟨hnext, hrows d hmem⟩

theorem mem_wantedDeliveries {rid : ℕ} {moments : List ℤ} {d : Delivery}
    (hd : d ∈ Planning.wantedDeliveries rid moments db) :
    d.lockedUntil = none ∧ ∃ o, db.occurrences d.occurrenceId = some o := by
  rw [Planning.wantedDeliveries] at hd
  split at hd
  · cases hd
  · obtain ⟨x, hx, hd⟩ := List.mem_flatMap.mp hd
    obtain ⟨u, -, rfl⟩ := List.mem_map.mp hd
    exact ⟨rfl, x.2, (Table.mem_select.mp hx).1⟩

theorem extends_materializeOne (settings : Planning.Settings) (horizonEnd : ℤ) (x : ℕ × Reminder)
    (owner : User) (db : Database) :
    Extends db (Planning.materializeOne settings horizonEnd x owner db) := by
  let planned := db.apply (Planning.planWrites settings horizonEnd x.1 x.2 owner db)
  refine @extends_insertMissing db _ (Planning.wantedDeliveries x.1
    (Planning.plan horizonEnd x.1 x.2 db) planned) (fun d hd ↦ ?_)
    (fun i o ho ↦ Planning.materializeOne_kept ho) ?_ ?_
  · rw [Planning.materializeOne_occurrences]
    exact mem_wantedDeliveries hd
  all_goals
    rw [Planning.materializeOne_eq, Planning.settle]
    split <;> rfl

theorem extends_materializeAll (settings : Planning.Settings) (horizonEnd : ℤ)
    (due : List (ℕ × Reminder)) (db : Database) :
    Extends db (Planning.materializeAll settings horizonEnd due db) := by
  induction due generalizing db with
  | nil => exact .refl db
  | cons x rest ih =>
    rw [Planning.materializeAll]
    split
    · exact ih db
    · exact (extends_materializeOne ..).trans (ih _)

theorem extends_accept {now : ℤ} {userId rid : ℕ} (h : Sharing.accept db now userId rid = .ok db') :
    Extends db db' := by
  obtain ⟨_, -, h⟩ := bind_eq_ok.mp h
  cases h
  split
  · exact ⟨le_rfl, rfl, fun _ _ h ↦ h, fun _ _ h ↦ h, fun _ _ h ↦ .inl h⟩
  · refine extends_insertMissing (fun d hd ↦ ?_) (fun _ _ ho ↦ ho) rfl rfl
    obtain ⟨x, hx, rfl⟩ := List.mem_map.mp hd
    exact ⟨rfl, x.2, (Occurrences.mem_listUpcoming.mp hx).1⟩

theorem next_deliverAll (gateway : Dispatching.Gateway) (batch : List Dispatching.Work)
    (memory : Dispatching.Memory) (db : Database) :
    db.deliveries.next ≤ (Dispatching.deliverAll gateway batch memory db).2.deliveries.next := by
  induction batch generalizing memory db with
  | nil => exact le_rfl
  | cons w rest ih =>
    refine le_trans ?_ (ih _ _)
    rw [Dispatching.applyVerdict]
    split
    · change _ ≤ (Dispatching.writeVerdict ..).deliveries.next
      rw [Dispatching.deliveries_writeVerdict]
      exact Table.next_le_writes ..
    · rw [Dispatching.deliveries_writeVerdict]
      exact Table.next_le_writes ..

theorem expireAll_deliveries (now : ℤ) (overdue : List (ℕ × Occurrence)) (db : Database) :
    (Reaper.expireAll now overdue db).deliveries = db.deliveries := by
  induction overdue generalizing db with
  | nil => rfl
  | cons x rest ih => exact (ih _).trans (journalSilence_tables ..).2

theorem next_repeatAll (now : ℤ) (candidates : List Deliveries.RepeatCandidate) (bumped : List ℕ)
    (db : Database) :
    db.deliveries.next ≤ (Reaper.repeatAll now candidates bumped db).deliveries.next :=
  Reaper.repeatAll_preserves (P := fun db' ↦ db.deliveries.next ≤ db'.deliveries.next)
    (fun _ _ _ h ↦ h.trans (Table.next_le_writes ..)) (fun _ _ h ↦ h) now candidates bumped le_rfl

theorem next_sweep (db : Database) (now : ℤ) (batch : ℕ) :
    db.deliveries.next ≤ (Reaper.sweep db now batch).deliveries.next := by
  refine le_trans ?_ (Table.next_le_writes ..)
  refine le_trans ?_ (next_repeatAll ..)
  rw [expireAll_deliveries]

/-- The operations that work through the queue. -/
def Operation.isQueueing : Operation → Bool
  | .deliver .. | .react .. | .sweep .. => true
  | _ => false

variable {settings : Settings} {w w' : World} {op : Operation}

/-- Whatever does not work through the queue adds deliveries, or takes some
away. -/
theorem perform_rows (hop : op.isQueueing = false) (h : perform settings w op = some w') :
    Extends w.db w'.db ∨ w.db.deliveries.next ≤ w'.db.deliveries.next ∧
      ∃ p, ∀ j, w'.db.deliveries j = (w.db.deliveries j).filter p := by
  have haside : ∀ {db' : Database}, db'.deliveries = w.db.deliveries →
      db'.occurrences = w.db.occurrences → db'.actions = w.db.actions → Extends w.db db' :=
    fun hd ho ha ↦ ⟨by rw [hd], ha, fun _ _ h ↦ by rw [ho, h], fun _ _ h ↦ by rw [hd, h],
      fun _ _ h ↦ .inl (by rw [← hd, h])⟩
  cases op with
  | create now ownerId draft =>
    obtain ⟨db', hdb, rfl⟩ := over_eq_some h
    obtain ⟨-, rfl⟩ := Reminders.create_eq_ok hdb
    exact .inl (haside rfl rfl rfl)
  | materialize now =>
    cases h
    exact .inl (extends_materializeAll ..)
  | setStatus now ownerId rid status =>
    obtain ⟨db', hdb, rfl⟩ := over_eq_some h
    obtain ⟨r, -, rfl⟩ := Reminders.setStatus_eq_ok hdb
    split
    · exact .inl (haside rfl rfl rfl)
    · exact .inr ⟨Table.next_le_writes .., _, Occurrences.deliveries_deleteUnsent w.db rid⟩
  | update now ownerId rid change =>
    obtain ⟨db', hdb, rfl⟩ := over_eq_some h
    obtain ⟨r, -, -, rfl⟩ := Reminders.update_eq_ok hdb
    split
    · exact .inr ⟨Table.next_le_writes .., _, Occurrences.deliveries_deleteUnsent w.db rid⟩
    · exact .inl (haside rfl rfl rfl)
  | issueInvite now ownerId rid token =>
    obtain ⟨db', hdb, rfl⟩ := over_eq_some h
    obtain rfl := Sharing.issueInvite_eq_ok hdb
    exact .inl (haside rfl rfl rfl)
  | revokeInvite now ownerId rid =>
    obtain ⟨db', hdb, rfl⟩ := over_eq_some h
    obtain rfl := Sharing.revokeInvite_eq_ok hdb
    exact .inl (haside rfl rfl rfl)
  | openInvite now token userId =>
    obtain ⟨db', hdb, rfl⟩ := over_eq_some h
    rcases Sharing.openInvite_eq_ok hdb with rfl | ⟨rid, -, rfl⟩
    · exact .inl (haside rfl rfl rfl)
    · exact .inl (haside rfl rfl rfl)
  | accept now userId rid =>
    obtain ⟨db', hdb, rfl⟩ := over_eq_some h
    exact .inl (extends_accept hdb)
  | decline now userId rid =>
    cases h
    exact .inl (haside rfl rfl rfl)
  | leave now userId rid =>
    cases h
    exact .inr ⟨Table.next_le_writes .., _, fun _ ↦ Table.writes_deleteWhere ..⟩
  | deliver | react | sweep => cases hop

theorem next_perform (h : perform settings w op = some w') :
    w.db.deliveries.next ≤ w'.db.deliveries.next := by
  by_cases hop : op.isQueueing = false
  · exact (perform_rows hop h).elim Extends.next And.left
  cases op with
  | deliver now gateway =>
    cases h
    refine le_trans ?_ (next_deliverAll ..)
    exact Table.next_le_writes ..
  | react now deliveryId userId action =>
    obtain ⟨result, db', hreact, rfl⟩ := over_snd_eq_some h
    rcases Reactions.react_eq_ok hreact with ⟨-, heq⟩ | ⟨-, d, o, r, u, reaction, -, -, -, -, -, -, heq⟩
    · exact heq ▸ le_rfl
    · change _ ≤ db'.deliveries.next
      rw [heq, Reactions.deliveries_closeOccurrence]
      exact Table.next_le_writes ..
  | sweep now =>
    cases h
    exact next_sweep ..
  | _ => exact absurd rfl hop

end Rows

end Remindo.Serial
