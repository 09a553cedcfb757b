import Remindo.Serial.Watermark

namespace Remindo.Serial

open Remindo.Domain Remindo.Db Remindo.Services Remindo.Foundation
open Remindo.Db.Occurrences (countForReminder)
open Remindo.Services.Reminders (droppedCount)

/-- No occurrence is without a reminder, and none is beyond its budget. -/
structure Accounted (db : Database) : Prop where
  none : ∀ rid, db.reminders rid = none → countForReminder db rid = 0
  budget : ∀ rid r top, db.reminders rid = some r → r.maxOccurrences = some top →
    countForReminder db rid ≤ top

/-- The column is the number of the reminder's occurrences. -/
def FiredCounted (db : Database) : Prop :=
  ∀ rid r, db.reminders rid = some r → r.firedCount = countForReminder db rid

/-- The column is right, and the budget is kept. -/
def BudgetAccounted (db : Database) : Prop :=
  ∀ rid r, db.reminders rid = some r → r.firedCount = countForReminder db rid ∧
    ∀ top, r.maxOccurrences = some top → countForReminder db rid ≤ top

/-- What may be taken back of the reminder is all it has, or nothing. -/
def AllOrNone (db : Database) (rid : ℕ) : Prop :=
  (∀ i o, db.occurrences i = some o → o.reminderId = rid → Occurrences.isUnsent db rid i o = true) ∨
    ∀ i o, db.occurrences i = some o → Occurrences.isUnsent db rid i o = false

/-- Leaving `active` and another schedule find all occurrences of the reminder
unsent, or none. -/
def Operation.DropsEvenly (w : World) : Operation → Prop
  | .setStatus _ _ rid status => status ≠ .active → AllOrNone w.db rid
  | .update _ _ rid change => change.schedule.isSome = true → AllOrNone w.db rid
  | _ => True

/-- Nothing has gone out. -/
structure Unsent (db : Database) : Prop where
  occurrences : ∀ i o, db.occurrences i = some o → o.status = .pending
  deliveries : ∀ j d, db.deliveries j = some d → d.status = .pending

/-- Other reminders keep their row and the number of their occurrences. -/
def SameBeside (rid : ℕ) (db db' : Database) : Prop :=
  ∀ rid', rid' ≠ rid → db'.reminders rid' = db.reminders rid' ∧
    countForReminder db' rid' = countForReminder db rid'

section Rows

variable {db db' : Database} {rid : ℕ} {r' : Reminder}

theorem Accounted.replace (h : Accounted db) (hother : SameBeside rid db db')
    (hself : db'.reminders rid = some r')
    (hbudget : ∀ top, r'.maxOccurrences = some top → countForReminder db' rid ≤ top) :
    Accounted db' := by
  refine ⟨fun rid' hnone ↦ ?_, fun rid' r top hr htop ↦ ?_⟩
  all_goals by_cases hrid : rid' = rid
  · rw [hrid, hself] at hnone
    cases hnone
  · rw [(hother rid' hrid).1] at hnone
    rw [(hother rid' hrid).2, h.none rid' hnone]
  · rw [hrid, hself] at hr
    cases hr
    rw [hrid]
    exact hbudget top htop
  · rw [(hother rid' hrid).1] at hr
    rw [(hother rid' hrid).2]
    exact h.budget rid' r top hr htop

theorem counted_replace_iff (h : FiredCounted db) (hother : SameBeside rid db db')
    (hself : db'.reminders rid = some r') :
    FiredCounted db' ↔ r'.firedCount = countForReminder db' rid := by
  refine ⟨fun hcounted ↦ hcounted rid r' hself, fun hfired rid' r hr ↦ ?_⟩
  by_cases hrid : rid' = rid
  · rw [hrid, hself] at hr
    cases hr
    rw [hrid, hfired]
  · rw [(hother rid' hrid).1] at hr
    rw [(hother rid' hrid).2, h rid' r hr]

theorem SameCalendar.accounted (hsame : SameCalendar db db') (h : Accounted db) : Accounted db' := by
  refine ⟨fun rid hrow ↦ ?_, fun rid r top hr htop ↦ ?_⟩
  all_goals rw [hsame.countForReminder]
  · exact h.none rid (hsame.1 ▸ hrow)
  · exact h.budget rid r top (hsame.1 ▸ hr) htop

theorem SameCalendar.counted (hsame : SameCalendar db db') (h : FiredCounted db) : FiredCounted db' := by
  intro rid r hr
  rw [hsame.countForReminder]
  exact h rid r (hsame.1 ▸ hr)

end Rows

section Planner

variable {settings : Planning.Settings} {horizonEnd : ℤ} {rid : ℕ} {r : Reminder} {owner : User}
  {db : Database}

theorem firedAfter_le {top : ℕ} (htop : r.maxOccurrences = some top)
    (hbudget : countForReminder db rid ≤ top) :
    Planning.firedAfter settings horizonEnd rid r owner db ≤ top := by
  have hplan : (Planning.plan horizonEnd rid r db).length ≤ top - countForReminder db rid :=
    @length_expand_le r.schedule r.timezone (Planning.boundsOf r) horizonEnd _ top htop
  have hwrites := Table.length_missing_le Occurrence.key
    (fun k ↦ (db.occurrences.find fun o ↦ Occurrence.key o = k).isSome)
    ((Planning.plan horizonEnd rid r db).map
      (Planning.occurrenceRow rid (quietHoursOf owner) settings.ttl))
  rw [List.length_map] at hwrites
  simp only [Planning.firedAfter, Planning.planWrites, Occurrences.insertMissing, Table.insertMissing,
    Table.insert, List.length_mapIdx]
  omega

theorem sameBeside_materializeOne :
    SameBeside rid db (Planning.materializeOne settings horizonEnd (rid, r) owner db) := by
  refine fun rid' hne ↦ ⟨?_, Planning.countForReminder_materializeOne_of_ne hne⟩
  rw [Planning.materializeOne_reminders, if_neg hne]

theorem row_materializeOne (hr : db.reminders rid = some r) :
    (Planning.materializeOne settings horizonEnd (rid, r) owner db).reminders rid =
      some (Planning.replanned r (Planning.planOutcome settings horizonEnd rid r owner db)
        (Planning.firedAfter settings horizonEnd rid r owner db)) := by
  rw [Planning.materializeOne_reminders, if_pos rfl, hr, Option.map_some]

theorem Accounted.materializeOne (h : Accounted db) (hr : db.reminders rid = some r) :
    Accounted (Planning.materializeOne settings horizonEnd (rid, r) owner db) := by
  refine h.replace sameBeside_materializeOne (row_materializeOne hr) fun top htop ↦ ?_
  rw [Planning.countForReminder_materializeOne]
  exact firedAfter_le htop (h.budget rid r top hr htop)

/-- The planner counts the rows anew. -/
theorem FiredCounted.materializeOne (h : FiredCounted db) (hr : db.reminders rid = some r) :
    FiredCounted (Planning.materializeOne settings horizonEnd (rid, r) owner db) :=
  (counted_replace_iff h sameBeside_materializeOne (row_materializeOne hr)).mpr
    Planning.countForReminder_materializeOne.symm

theorem materialize_preserves {P : Database → Prop} (hone : ∀ {db : Database} {rid : ℕ}
    {r : Reminder} {owner : User}, P db → db.reminders rid = some r →
      P (Planning.materializeOne settings horizonEnd (rid, r) owner db)) (limit : ℕ) (h : P db) :
    P (Planning.materializeAll settings horizonEnd
      (Db.Reminders.dueForPlanning db horizonEnd limit) db) :=
  Planning.materializeAll_preserves hone h (fun _ hx ↦ (Db.Reminders.mem_dueForPlanning hx).1)
    (Db.Reminders.nodup_dueForPlanning _ _ _)

end Planner

section Editing

variable {rid : ℕ} {r : Reminder} {db : Database}

theorem droppedCount_eq_zero : droppedCount rid db = 0 ↔
    ∀ i o, db.occurrences i = some o → Occurrences.isUnsent db rid i o = false := by
  rw [droppedCount, List.length_eq_zero_iff]
  change List.map _ _ = [] ↔ _
  rw [List.map_eq_nil_iff, List.eq_nil_iff_forall_not_mem]
  constructor
  · exact fun h i o ho ↦ eq_false_of_ne_true fun hunsent ↦
      h (i, o) (Table.mem_select.mpr ⟨ho, hunsent⟩)
  · intro h x hx
    obtain ⟨ho, hunsent⟩ := Table.mem_select.mp hx
    exact absurd hunsent (ne_true_of_eq_false (h x.1 x.2 ho))

theorem count_dropQueued (rid : ℕ) (r : Reminder) (db : Database) :
    countForReminder (Reminders.dropQueued rid r db) rid + droppedCount rid db =
      countForReminder db rid :=
  Table.count_writes_deleteWhere db.occurrences fun i o hunsent ↦ by
    simp only [Occurrences.isUnsent, Bool.and_eq_true] at hunsent
    exact hunsent.1.1

theorem count_dropQueued_eq_zero : countForReminder (Reminders.dropQueued rid r db) rid = 0 ↔
    ∀ i o, db.occurrences i = some o → o.reminderId = rid →
      Occurrences.isUnsent db rid i o = true := by
  rw [countForReminder, Table.count_eq_zero]
  constructor
  · intro h i o ho hrid
    by_contra hkeep
    have hkept := Reminders.dropQueued_kept r ho (eq_false_of_ne_true hkeep)
    exact absurd hrid (of_decide_eq_false (h i o hkept))
  · intro h i o ho
    rw [Reminders.dropQueued_occurrences, Option.filter_eq_some_iff, Bool.not_eq_true'] at ho
    refine decide_eq_false fun hrid ↦ ?_
    rw [h i o ho.1 hrid] at ho
    cases ho.2

theorem sameBeside_dropQueued : SameBeside rid db (Reminders.dropQueued rid r db) := by
  refine fun rid' hne ↦ ⟨?_, Reminders.dropQueued_count hne⟩
  rw [Reminders.dropQueued_reminders, if_neg hne]

theorem row_dropQueued (hr : db.reminders rid = some r) :
    (Reminders.dropQueued rid r db).reminders rid = some
      { r with
        plannedUntil := none
        firedCount := r.firedCount - droppedCount rid db - droppedCount rid db } := by
  rw [Reminders.dropQueued_reminders, if_pos rfl, hr, Option.map_some]

theorem Accounted.dropQueued (h : Accounted db) (hr : db.reminders rid = some r) :
    Accounted (Reminders.dropQueued rid r db) := by
  refine h.replace sameBeside_dropQueued (row_dropQueued hr) fun top htop ↦ ?_
  have hcount := count_dropQueued rid r db
  have hbudget := h.budget rid r top hr htop
  omega

/-- The rows that go are taken off the column twice, which shows unless none or
all of them go. -/
theorem counted_dropQueued_iff (h : FiredCounted db) (hr : db.reminders rid = some r) :
    FiredCounted (Reminders.dropQueued rid r db) ↔ AllOrNone db rid := by
  have hcount := count_dropQueued rid r db
  have hfired := h rid r hr
  rw [counted_replace_iff h sameBeside_dropQueued (row_dropQueued hr), AllOrNone,
    ← droppedCount_eq_zero, ← count_dropQueued_eq_zero (r := r)]
  dsimp only
  omega

theorem sameBeside_updateFields (values : Reminder → Reminder) :
    SameBeside rid db (db.run (Db.Reminders.updateFields rid values)) := by
  refine fun rid' hne ↦ ⟨?_, rfl⟩
  rw [Db.Reminders.reminders_updateFields, if_neg hne]

theorem row_updateFields (hr : db.reminders rid = some r) (values : Reminder → Reminder) :
    (db.run (Db.Reminders.updateFields rid values)).reminders rid = some (values r) := by
  rw [Db.Reminders.reminders_updateFields, if_pos rfl, hr, Option.map_some]

theorem Accounted.updateFields (h : Accounted db) (hr : db.reminders rid = some r)
    {values : Reminder → Reminder} (hmax : (values r).maxOccurrences = r.maxOccurrences) :
    Accounted (db.run (Db.Reminders.updateFields rid values)) :=
  h.replace (sameBeside_updateFields values) (row_updateFields hr values) fun top htop ↦
    h.budget rid r top hr (hmax ▸ htop)

theorem counted_updateFields_iff (hr : db.reminders rid = some r) {values : Reminder → Reminder}
    (hfired : (values r).firedCount = r.firedCount) :
    FiredCounted (db.run (Db.Reminders.updateFields rid values)) ↔ FiredCounted db := by
  have hrow := row_updateFields hr values
  constructor
  · intro h rid' r' hr'
    by_cases hrid : rid' = rid
    · subst hrid
      cases hr.symm.trans hr'
      exact hfired.symm.trans (h rid' _ hrow)
    · exact h rid' r' ((sameBeside_updateFields values rid' hrid).1.trans hr')
  · intro h
    exact (counted_replace_iff h (sameBeside_updateFields values) hrow).mpr
      (hfired.trans (h rid r hr))

end Editing

section Queue

variable {db : Database}

theorem Unsent.allOrNone (h : Unsent db) (rid : ℕ) : AllOrNone db rid := by
  refine .inl fun i o ho hrid ↦ ?_
  have hqueued : Occurrences.answered db i = false := by
    refine eq_false_of_ne_true fun hanswered ↦ ?_
    obtain ⟨j, d, hd, -, hstatus⟩ := Occurrences.answered_iff.mp hanswered
    exact hstatus (h.deliveries j d hd)
  simp [Occurrences.isUnsent, hrid, h.occurrences i o ho, hqueued]

theorem unsent_materializeOne {settings : Planning.Settings} {horizonEnd : ℤ} {rid : ℕ}
    {r : Reminder} {owner : User} (h : Unsent db) :
    Unsent (Planning.materializeOne settings horizonEnd (rid, r) owner db) := by
  refine ⟨fun i o ho ↦ ?_, fun j d hd ↦ ?_⟩
  · rcases Planning.materializeOne_some ho with hold | ⟨-, m, -, rfl, -⟩
    · exact h.occurrences i o hold
    · rfl
  · rcases Planning.materializeOne_deliveries hd with hold | hqueued
    · exact h.deliveries j d hold
    · exact hqueued

theorem Unsent.dropQueued (h : Unsent db) (rid : ℕ) (r : Reminder) :
    Unsent (Reminders.dropQueued rid r db) := by
  refine ⟨fun i o ho ↦ h.occurrences i o ?_, fun j d hd ↦ h.deliveries j d ?_⟩
  · exact (Option.filter_eq_some_iff.mp ((Reminders.dropQueued_occurrences rid r db i).symm.trans ho)).1
  · exact (Option.filter_eq_some_iff.mp ((Reminders.dropQueued_deliveries rid r db j).symm.trans hd)).1

end Queue

section Runs

variable {settings : Settings} {w w' : World}

theorem accounted_initial (users : Table User) (categories : Table Category) :
    Accounted (.initial users categories) := by
  refine ⟨fun rid _ ↦ Table.count_eq_zero.mpr fun i o h ↦ ?_, fun rid r top h ↦ ?_⟩
  all_goals cases h

theorem sameBeside_create {r : Reminder} :
    SameBeside w.db.reminders.next w.db (w.db.run (Db.Reminders.add r)) := by
  refine fun rid hne ↦ ⟨(Table.writes_insert ..).trans ?_, rfl⟩
  split
  · rfl
  · rw [List.getElem?_eq_none (by simp; omega), w.db.reminders.fresh rid (by omega)]

theorem row_create {r : Reminder} :
    (w.db.run (Db.Reminders.add r)).reminders w.db.reminders.next = some r :=
  (Table.writes_insert ..).trans (by simp)

theorem sameCalendar_addRecipient (db : Database) (x : Recipient) :
    SameCalendar db (db.run (Recipients.add x)) := .of_tables rfl rfl

theorem accounted_perform {op : Operation} (h : Accounted w.db) (hstep : perform settings w op = some w') :
    Accounted w'.db := by
  by_cases hop : op.movesCalendar = false
  · exact (sameCalendar_perform hop hstep).accounted h
  cases op with
  | create now ownerId draft =>
    obtain ⟨db', hdb, rfl⟩ := over_eq_some hstep
    obtain ⟨-, rfl⟩ := Reminders.create_eq_ok hdb
    have hnew := h.none w.db.reminders.next (w.db.reminders.fresh _ le_rfl)
    have hrow : Accounted (w.db.run (Db.Reminders.add
        (Reminders.reminderRow ownerId draft (draft.startsAt.getD now)))) :=
      h.replace sameBeside_create row_create fun top _ ↦ hnew.le.trans (Nat.zero_le top)
    exact (sameCalendar_addRecipient _ _).accounted hrow
  | materialize now =>
    cases hstep
    exact materialize_preserves Accounted.materializeOne _ h
  | setStatus now ownerId rid status =>
    obtain ⟨db', hdb, rfl⟩ := over_eq_some hstep
    obtain ⟨r, hr, rfl⟩ := Reminders.setStatus_eq_ok hdb
    have hrow := (Reminders.getEditable_eq_ok hr).1
    split
    · exact h.updateFields hrow rfl
    · exact (h.dropQueued hrow).updateFields (row_dropQueued hrow) rfl
  | update now ownerId rid change =>
    obtain ⟨db', hdb, rfl⟩ := over_eq_some hstep
    obtain ⟨r, hr, -, rfl⟩ := Reminders.update_eq_ok hdb
    have hrow := (Reminders.getEditable_eq_ok hr).1
    split
    · exact (h.dropQueued hrow).updateFields (row_dropQueued hrow) rfl
    · exact h.updateFields hrow rfl
  | _ => exact absurd rfl hop

theorem accounted_run {users : Table User} {categories : Table Category} {ops : List Operation}
    (hrun : run (perform settings) (.initial users categories) ops = some w) : Accounted w.db :=
  run_preserves (P := fun w : World ↦ Accounted w.db)
    (fun _ _ _ h hstep ↦ accounted_perform h hstep) hrun (accounted_initial users categories)

theorem counted_perform_iff {op : Operation} (haccounted : Accounted w.db) (h : FiredCounted w.db)
    (hstep : perform settings w op = some w') : FiredCounted w'.db ↔ op.DropsEvenly w := by
  by_cases hop : op.movesCalendar = false
  · refine iff_of_true ((sameCalendar_perform hop hstep).counted h) ?_
    cases op with
    | setStatus | update => cases hop
    | _ => trivial
  cases op with
  | create now ownerId draft =>
    refine iff_of_true ?_ trivial
    obtain ⟨db', hdb, rfl⟩ := over_eq_some hstep
    obtain ⟨-, rfl⟩ := Reminders.create_eq_ok hdb
    have hnew := haccounted.none w.db.reminders.next (w.db.reminders.fresh _ le_rfl)
    have hrow : FiredCounted (w.db.run (Db.Reminders.add
        (Reminders.reminderRow ownerId draft (draft.startsAt.getD now)))) :=
      (counted_replace_iff h sameBeside_create row_create).mpr hnew.symm
    exact (sameCalendar_addRecipient _ _).counted hrow
  | materialize now =>
    refine iff_of_true ?_ trivial
    cases hstep
    exact materialize_preserves FiredCounted.materializeOne _ h
  | setStatus now ownerId rid status =>
    obtain ⟨db', hdb, rfl⟩ := over_eq_some hstep
    obtain ⟨r, hr, rfl⟩ := Reminders.setStatus_eq_ok hdb
    have hrow := (Reminders.getEditable_eq_ok hr).1
    by_cases hactive : status = .active
    · rw [if_pos hactive]
      exact iff_of_true ((counted_updateFields_iff hrow rfl).mpr h) fun hne ↦ absurd hactive hne
    · rw [if_neg hactive]
      exact (counted_updateFields_iff (row_dropQueued hrow) rfl).trans
        ((counted_dropQueued_iff h hrow).trans ⟨fun hall _ ↦ hall, fun hall ↦ hall hactive⟩)
  | update now ownerId rid change =>
    obtain ⟨db', hdb, rfl⟩ := over_eq_some hstep
    obtain ⟨r, hr, -, rfl⟩ := Reminders.update_eq_ok hdb
    have hrow := (Reminders.getEditable_eq_ok hr).1
    by_cases hschedule : change.schedule.isSome = true
    · rw [if_pos hschedule]
      exact (counted_updateFields_iff (row_dropQueued hrow) rfl).trans
        ((counted_dropQueued_iff h hrow).trans ⟨fun hall _ ↦ hall, fun hall ↦ hall hschedule⟩)
    · rw [if_neg hschedule]
      exact iff_of_true ((counted_updateFields_iff hrow rfl).mpr h) fun hsome ↦
        absurd hsome hschedule
  | _ => exact absurd rfl hop

/-- Planning and editing send nothing. -/
theorem unsent_perform {op : Operation} (hop : op.movesCalendar = true) (h : Unsent w.db)
    (hstep : perform settings w op = some w') : Unsent w'.db := by
  cases op with
  | create now ownerId draft =>
    obtain ⟨db', hdb, rfl⟩ := over_eq_some hstep
    obtain ⟨-, rfl⟩ := Reminders.create_eq_ok hdb
    exact ⟨h.occurrences, h.deliveries⟩
  | materialize now =>
    cases hstep
    exact materialize_preserves (fun h _ ↦ unsent_materializeOne h) _ h
  | setStatus now ownerId rid status =>
    obtain ⟨db', hdb, rfl⟩ := over_eq_some hstep
    obtain ⟨r, -, rfl⟩ := Reminders.setStatus_eq_ok hdb
    split
    · exact ⟨h.occurrences, h.deliveries⟩
    · exact ⟨(h.dropQueued rid r).occurrences, (h.dropQueued rid r).deliveries⟩
  | update now ownerId rid change =>
    obtain ⟨db', hdb, rfl⟩ := over_eq_some hstep
    obtain ⟨r, -, -, rfl⟩ := Reminders.update_eq_ok hdb
    split
    · exact ⟨(h.dropQueued rid r).occurrences, (h.dropQueued rid r).deliveries⟩
    · exact ⟨h.occurrences, h.deliveries⟩
  | _ => cases hop

variable {users : Table User} {categories : Table Category} {ops : List Operation}

theorem dropsEvenly_of_unsent (h : Unsent w.db) (op : Operation) : op.DropsEvenly w := by
  cases op with
  | setStatus now ownerId rid status => exact fun _ ↦ h.allOrNone rid
  | update now ownerId rid change => exact fun _ ↦ h.allOrNone rid
  | _ => trivial

/-- As long as nothing is sent, all that a reminder has may be taken back. -/
theorem dropsEvenly_run (h : Unsent w.db) (hops : ∀ op ∈ ops, op.movesCalendar = true) :
    Guarded (perform settings) (fun w op ↦ op.DropsEvenly w) w ops := by
  induction ops generalizing w with
  | nil => trivial
  | cons op ops ih =>
    obtain ⟨hop, hops⟩ := List.forall_mem_cons.mp hops
    exact ⟨dropsEvenly_of_unsent h op, fun w' hstep ↦ ih (unsent_perform hop h hstep) hops⟩

/-- The number of occurrences is always within the budget. The column is that
number all along a run exactly if whatever is taken back of a reminder is all of
it, or nothing; which it is where nothing is ever sent. -/
theorem budget_accounted_iff
    (hrun : run (perform settings) (.initial users categories) ops = some w) :
    (∀ rid r top, w.db.reminders rid = some r → r.maxOccurrences = some top →
      countForReminder w.db rid ≤ top) ∧
    (Guarded (perform settings) (fun w op ↦ op.DropsEvenly w) (.initial users categories) ops ↔
      ∀ early late w', ops = early ++ late →
        run (perform settings) (.initial users categories) early = some w' →
          BudgetAccounted w'.db) ∧
    ((∀ op ∈ ops, op.movesCalendar = true) → BudgetAccounted w.db) := by
  have hstep : ∀ (w : World) op w', Accounted w.db ∧ FiredCounted w.db →
      perform settings w op = some w' → (Accounted w'.db ∧ FiredCounted w'.db ↔ op.DropsEvenly w) :=
    fun w op w' h hstep ↦
      (and_iff_right (accounted_perform h.1 hstep)).trans (counted_perform_iff h.1 h.2 hstep)
  have hinitial : FiredCounted (.initial users categories) := by
    intro rid r hr
    cases hr
  have hiff : Guarded (perform settings) (fun w op ↦ op.DropsEvenly w)
      (.initial users categories) ops ↔ ∀ early late w', ops = early ++ late →
        run (perform settings) (.initial users categories) early = some w' →
          BudgetAccounted w'.db := by
    refine (guarded_iff_of_run hstep hrun ⟨accounted_initial users categories, hinitial⟩).trans
      (forall₅_congr fun early late w' _ hearly ↦ ?_)
    constructor
    · exact fun h rid r hr ↦ ⟨h.2 rid r hr, fun top htop ↦ h.1.budget rid r top hr htop⟩
    · exact fun h ↦ ⟨accounted_run hearly, fun rid r hr ↦ (h rid r hr).1⟩
  have hunsent : Unsent (.initial users categories) := by
    refine ⟨fun i o ho ↦ ?_, fun j d hd ↦ ?_⟩
    · cases ho
    · cases hd
  exact ⟨(accounted_run hrun).budget, hiff, fun hops ↦
    hiff.mp (dropsEvenly_run hunsent hops) ops [] w (List.append_nil ops).symm hrun⟩

/-- A reminder of three Mondays, planned, paused, resumed and moved to Saturdays. -/
def budgetLife : List Operation :=
  .create 0 0 { sampleDraft with maxOccurrences := some 3 } :: sampleLife.tail

theorem budgetLife_runs :
    (run (perform sampleSettings) (.initial sampleUsers sampleCategories) budgetLife).isSome = true := by
  decide +kernel

theorem budget_accounted_iff_sample :
    let w := (run (perform sampleSettings) (.initial sampleUsers sampleCategories) budgetLife).get
      budgetLife_runs
    (∀ rid r top, w.db.reminders rid = some r → r.maxOccurrences = some top →
      countForReminder w.db rid ≤ top) ∧
    (Guarded (perform sampleSettings) (fun w op ↦ op.DropsEvenly w)
        (.initial sampleUsers sampleCategories) budgetLife ↔
      ∀ early late w', budgetLife = early ++ late →
        run (perform sampleSettings) (.initial sampleUsers sampleCategories) early = some w' →
          BudgetAccounted w'.db) ∧
    ((∀ op ∈ budgetLife, op.movesCalendar = true) → BudgetAccounted w.db) :=
  budget_accounted_iff (Option.some_get _).symm

/-- Of two Mondays the first is out when the reminder is paused. -/
def pausedBetween : List Operation :=
  [.create 0 0 sampleDraft, .materialize 0, .deliver (5 * day) fun _ ↦ (.delivered 0, 5 * day),
    .setStatus (6 * day) 0 0 .paused]

/-- One occurrence is left, and the column says none. -/
theorem pause_miscounts : ∃ w r,
    run (perform sampleSettings) (.initial sampleUsers sampleCategories) pausedBetween = some w ∧
      w.db.reminders 0 = some r ∧ r.firedCount = 0 ∧ countForReminder w.db 0 = 1 ∧
        ¬BudgetAccounted w.db := by
  have hruns : (run (perform sampleSettings) (.initial sampleUsers sampleCategories)
      pausedBetween).any (fun w ↦ (w.db.reminders 0).any (fun r ↦ decide (r.firedCount = 0)) &&
        decide (countForReminder w.db 0 = 1)) = true := by
    decide +kernel
  obtain ⟨w, hrun, hruns⟩ := (Option.any_eq_true _ _).mp hruns
  obtain ⟨hcolumn, hcount⟩ := Bool.and_eq_true_iff.mp hruns
  obtain ⟨r, hr, hcolumn⟩ := (Option.any_eq_true _ _).mp hcolumn
  have hnone := of_decide_eq_true hcolumn
  have hone := of_decide_eq_true hcount
  refine ⟨w, r, hrun, hr, hnone, hone, fun h ↦ ?_⟩
  have hsame := (h 0 r hr).1
  rw [hnone, hone] at hsame
  cases hsame

end Runs

end Remindo.Serial
