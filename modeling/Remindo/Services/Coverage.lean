import Remindo.Services.Planning
import Remindo.Services.Reminders

namespace Remindo.Services.Planning

open Remindo.Domain Remindo.Db Remindo.Foundation

/-- The moments a reminder is meant to fire at. -/
def lifetime (r : Reminder) : Set ℤ :=
  {m | m ∈ firings r.schedule r.timezone ∧ (boundsOf r).admits m}

def Materialised (db : Database) (reminderId : ℕ) (m : ℤ) : Prop :=
  ∃ i o, db.occurrences i = some o ∧ o.key = (reminderId, m)

def BudgetSpent (db : Database) (reminderId : ℕ) (r : Reminder) : Prop :=
  ∃ top, r.maxOccurrences = some top ∧ top ≤ Occurrences.countForReminder db reminderId

def Covers (db : Database) (reminderId : ℕ) (r : Reminder) (p : ℤ) : Prop :=
  ∀ m ∈ lifetime r, m ≤ p → Materialised db reminderId m

/-- Behind the watermark nothing is missing, unless the budget ran out. -/
def OnWatermark (db : Database) (reminderId : ℕ) (r : Reminder) : Prop :=
  ∀ p, r.plannedUntil = some p → BudgetSpent db reminderId r ∨ Covers db reminderId r p

theorem Materialised.unique {db : Database} {reminderId : ℕ} {m : ℤ}
    (hunique : db.occurrences.Unique Occurrence.key) (h : Materialised db reminderId m) :
    ∃! i, ∃ o, db.occurrences i = some o ∧ o.key = (reminderId, m) := by
  obtain ⟨i, o, ho, hkey⟩ := h
  refine ⟨i, ⟨o, ho, hkey⟩, fun j ⟨o', ho', hkey'⟩ ↦ ?_⟩
  exact hunique j i o' o ho' ho (hkey'.trans hkey.symm)

/-- The row a planner cycle leaves of a reminder. -/
def replanned (r : Reminder) (outcome : PlanOutcome) (firedCount : ℕ) : Reminder :=
  { r with
    plannedUntil := some outcome.plannedUntil
    firedCount := firedCount
    status := if outcome.exhausted then .archived else r.status }

section MaterializeOne

variable (settings : Settings) (horizonEnd : ℤ) (rid : ℕ) (r : Reminder) (owner : User)
  (db : Database)

/-- The moments a cycle over this database expands for the reminder. -/
def plan : List ℤ := momentsOf r horizonEnd (Occurrences.countForReminder db rid)

def planWrites : Writes :=
  Occurrences.insertMissing
    ((plan horizonEnd rid r db).map (occurrenceRow rid (quietHoursOf owner) settings.ttl)) db

def firedAfter : ℕ :=
  Occurrences.countForReminder db rid +
    (planWrites settings horizonEnd rid r owner db).occurrences.length

def planOutcome : PlanOutcome :=
  settlePlan (boundsOf r) (windowOf r horizonEnd (Occurrences.countForReminder db rid))
    (plan horizonEnd rid r db) (firedAfter settings horizonEnd rid r owner db)

theorem createDeliveries_reminders (moments : List ℤ) :
    (createDeliveries rid moments db).reminders = db.reminders := rfl

theorem createDeliveries_occurrences (moments : List ℤ) :
    (createDeliveries rid moments db).occurrences = db.occurrences := rfl

theorem createDeliveries_users (moments : List ℤ) :
    (createDeliveries rid moments db).users = db.users := rfl

theorem materializeOne_eq :
    materializeOne settings horizonEnd (rid, r) owner db =
      settle rid (planOutcome settings horizonEnd rid r owner db)
        (firedAfter settings horizonEnd rid r owner db)
        (createDeliveries rid (plan horizonEnd rid r db)
          (db.apply (planWrites settings horizonEnd rid r owner db))) := rfl

theorem settle_reminders (outcome : PlanOutcome) (firedCount j : ℕ) :
    (settle rid outcome firedCount db).reminders j =
      if j = rid then (db.reminders rid).map fun r ↦ replanned r outcome firedCount
      else db.reminders j := by
  rw [settle]
  by_cases hexhausted : outcome.exhausted = true
  · rw [if_pos hexhausted, Db.Reminders.setStatus, Db.Reminders.reminders_updateFields,
      Db.Reminders.setPlanningState, Db.Reminders.reminders_updateFields,
      Db.Reminders.reminders_updateFields]
    split
    · rw [if_pos rfl, Option.map_map]
      simp [Function.comp_def, replanned, hexhausted]
    · rfl
  · rw [if_neg hexhausted, Db.Reminders.setPlanningState, Db.Reminders.reminders_updateFields]
    split
    · simp [replanned, hexhausted]
    · rfl

theorem settle_occurrences (outcome : PlanOutcome) (firedCount : ℕ) :
    (settle rid outcome firedCount db).occurrences = db.occurrences := by
  rw [settle]
  split <;> rfl

theorem settle_users (outcome : PlanOutcome) (firedCount : ℕ) :
    (settle rid outcome firedCount db).users = db.users := by
  rw [settle]
  split <;> rfl

theorem materializeOne_reminders (j : ℕ) :
    (materializeOne settings horizonEnd (rid, r) owner db).reminders j =
      if j = rid then (db.reminders rid).map fun r' ↦
        replanned r' (planOutcome settings horizonEnd rid r owner db)
          (firedAfter settings horizonEnd rid r owner db)
      else db.reminders j := by
  rw [materializeOne_eq, settle_reminders, createDeliveries_reminders]
  rfl

theorem materializeOne_occurrences :
    (materializeOne settings horizonEnd (rid, r) owner db).occurrences =
      db.occurrences.writes (planWrites settings horizonEnd rid r owner db).occurrences := by
  rw [materializeOne_eq, settle_occurrences, createDeliveries_occurrences]
  rfl

theorem materializeOne_users :
    (materializeOne settings horizonEnd (rid, r) owner db).users = db.users := by
  rw [materializeOne_eq, settle_users, createDeliveries_users]
  rfl

end MaterializeOne

section Effects

variable {settings : Settings} {horizonEnd : ℤ} {rid : ℕ} {r : Reminder} {owner : User}
  {db : Database}

theorem materializeOne_kept {i : ℕ} {o : Occurrence} (h : db.occurrences i = some o) :
    (materializeOne settings horizonEnd (rid, r) owner db).occurrences i = some o := by
  rw [materializeOne_occurrences]
  exact Table.insertMissing_kept h

/-- A row that was not there is a planned moment that had none. -/
theorem materializeOne_some {i : ℕ} {o : Occurrence}
    (h : (materializeOne settings horizonEnd (rid, r) owner db).occurrences i = some o) :
    db.occurrences i = some o ∨ db.occurrences i = none ∧
      ∃ m ∈ plan horizonEnd rid r db, o = occurrenceRow rid (quietHoursOf owner) settings.ttl m ∧
        ¬Materialised db rid m := by
  rw [materializeOne_occurrences] at h
  rcases Table.insertMissing_some h with hold | ⟨hnone, hmem, hnew⟩
  · exact .inl hold
  · obtain ⟨m, hm, rfl⟩ := List.mem_map.mp hmem
    exact .inr ⟨hnone, m, hm, rfl, fun ⟨j, o, ho, hkey⟩ ↦ hnew j o ho hkey⟩

/-- What is inserted is queued. -/
theorem materializeOne_deliveries {j : ℕ} {d : Delivery}
    (h : (materializeOne settings horizonEnd (rid, r) owner db).deliveries j = some d) :
    db.deliveries j = some d ∨ d.status = .pending := by
  have hrow : (db.deliveries.writes (db.deliveries.insertMissing Delivery.key
      (wantedDeliveries rid (plan horizonEnd rid r db)
        (db.apply (planWrites settings horizonEnd rid r owner db))))) j = some d := by
    rw [materializeOne_eq, settle] at h
    split at h <;> exact h
  rcases Table.insertMissing_some hrow with hold | ⟨-, hmem, -⟩
  · exact .inl hold
  · rw [wantedDeliveries] at hmem
    split at hmem
    · cases hmem
    · obtain ⟨x, -, hmem⟩ := List.mem_flatMap.mp hmem
      obtain ⟨u, -, rfl⟩ := List.mem_map.mp hmem
      exact .inr rfl

theorem Materialised.materializeOne {rid' : ℕ} {m : ℤ} (h : Materialised db rid' m) :
    Materialised (materializeOne settings horizonEnd (rid, r) owner db) rid' m := by
  obtain ⟨i, o, ho, hkey⟩ := h
  exact ⟨i, o, materializeOne_kept ho, hkey⟩

theorem materialised_of_mem_plan {m : ℤ} (h : m ∈ plan horizonEnd rid r db) :
    Materialised (materializeOne settings horizonEnd (rid, r) owner db) rid m := by
  obtain ⟨i, o, ho, hkey⟩ : ∃ i o,
      db.occurrences.writes (planWrites settings horizonEnd rid r owner db).occurrences i = some o ∧
        o.key = (rid, m) :=
    Table.insertMissing_covers
      (List.mem_map_of_mem (f := occurrenceRow rid (quietHoursOf owner) settings.ttl) h)
  exact ⟨i, o, by rw [materializeOne_occurrences]; exact ho, hkey⟩

theorem unique_materializeOne (h : db.occurrences.Unique Occurrence.key) :
    (materializeOne settings horizonEnd (rid, r) owner db).occurrences.Unique Occurrence.key := by
  rw [materializeOne_occurrences]
  exact h.insertMissing _

theorem countForReminder_materializeOne :
    Occurrences.countForReminder (materializeOne settings horizonEnd (rid, r) owner db) rid =
      firedAfter settings horizonEnd rid r owner db := by
  rw [Occurrences.countForReminder, materializeOne_occurrences]
  refine (Table.count_writes_insert _ _ _).trans (congrArg _ ?_)
  rw [planWrites, Occurrences.insertMissing, Table.insertMissing, Table.insert, List.length_mapIdx,
    List.countP_eq_length]
  intro o ho
  obtain ⟨m, -, rfl⟩ := List.mem_map.mp (Table.mem_of_mem_missing ho).1
  exact decide_eq_true rfl

theorem OnWatermark.materializeOne (h : OnWatermark db rid r)
    (hspan : planUntil (boundsOf r) horizonEnd - planAfter (boundsOf r) ≤ 3650 * day) :
    OnWatermark (materializeOne settings horizonEnd (rid, r) owner db) rid
      (replanned r (planOutcome settings horizonEnd rid r owner db)
        (firedAfter settings horizonEnd rid r owner db)) := by
  intro p hp
  cases hp
  refine or_iff_not_imp_left.mpr fun hbudget m hm hle ↦ ?_
  have hspent : ∀ top, r.maxOccurrences = some top → ¬top ≤ Occurrences.countForReminder db rid := by
    intro top htop hcount
    refine hbudget ⟨top, htop, ?_⟩
    rw [countForReminder_materializeOne]
    exact hcount.trans (Nat.le_add_right _ _)
  rcases planned_of_le_plannedUntil hspan hm.1 hm.2.1 hle with ⟨p, hp, hold⟩ | hnew | hlimit
  · rcases h p hp with ⟨top, htop, hcount⟩ | hcovers
    · exact absurd hcount (hspent top htop)
    · exact (hcovers m hm hold).materializeOne
  · exact materialised_of_mem_plan hnew
  · obtain ⟨top, htop, hcount⟩ := planWindow_limit_eq_zero.mp hlimit
    exact absurd hcount (hspent top htop)

/-- A cycle archives a reminder only when it is spent or has nothing left. -/
theorem finished_of_exhausted
    (h : OnWatermark (materializeOne settings horizonEnd (rid, r) owner db) rid
      (replanned r (planOutcome settings horizonEnd rid r owner db)
        (firedAfter settings horizonEnd rid r owner db)))
    (hexhausted : (planOutcome settings horizonEnd rid r owner db).exhausted = true) :
    BudgetSpent (materializeOne settings horizonEnd (rid, r) owner db) rid r ∨
      ∀ m ∈ lifetime r,
        Materialised (materializeOne settings horizonEnd (rid, r) owner db) rid m := by
  refine or_iff_not_imp_left.mpr fun hbudget m hm ↦ ?_
  refine (h _ rfl).resolve_left hbudget m hm ?_
  change isExhausted (boundsOf r) _ (firedAfter settings horizonEnd rid r owner db) = true
    at hexhausted
  simp only [isExhausted, Bool.or_eq_true, Option.any_eq_true, decide_eq_true_eq] at hexhausted
  rcases hexhausted with (⟨top, htop, hcount⟩ | ⟨e, he, hend⟩) | ⟨last, hlast, hend⟩
  · refine absurd ⟨top, htop, ?_⟩ hbudget
    rw [countForReminder_materializeOne]
    exact hcount
  · exact (hm.2.2 e he).trans hend
  · exact (eq_of_lastMomentOf hlast hm.1).le.trans hend

theorem plan_eq_nil_of_budgetSpent (h : BudgetSpent db rid r) : plan horizonEnd rid r db = [] := by
  have hlimit : (windowOf r horizonEnd (Occurrences.countForReminder db rid)).limit = 0 :=
    planWindow_limit_eq_zero.mpr h
  rw [plan, momentsOf, expand, PlanWindow.isEmpty, hlimit]
  simp

theorem OnWatermark.congr {db' : Database} (h : OnWatermark db rid r)
    (hkept : ∀ m, Materialised db rid m → Materialised db' rid m)
    (hcount : Occurrences.countForReminder db rid ≤ Occurrences.countForReminder db' rid) :
    OnWatermark db' rid r := by
  intro p hp
  rcases h p hp with ⟨top, htop, hle⟩ | hcovers
  · exact .inl ⟨top, htop, hle.trans hcount⟩
  · exact .inr fun m hm hle ↦ hkept m (hcovers m hm hle)

theorem countForReminder_materializeOne_of_ne {rid' : ℕ} (hne : rid' ≠ rid) :
    Occurrences.countForReminder (materializeOne settings horizonEnd (rid, r) owner db) rid' =
      Occurrences.countForReminder db rid' := by
  rw [Occurrences.countForReminder, materializeOne_occurrences]
  refine (Table.count_writes_insert _ _ _).trans ?_
  rw [List.countP_eq_zero.mpr, Nat.add_zero]
  · rfl
  · intro o ho
    obtain ⟨m, -, rfl⟩ := List.mem_map.mp (Table.mem_of_mem_missing ho).1
    exact fun heq ↦ hne (of_decide_eq_true heq).symm

theorem countForReminder_le_materializeOne {rid' : ℕ} :
    Occurrences.countForReminder db rid' ≤
      Occurrences.countForReminder (materializeOne settings horizonEnd (rid, r) owner db) rid' := by
  by_cases hrid : rid' = rid
  · rw [hrid, countForReminder_materializeOne]
    exact Nat.le_add_right _ _
  · exact (countForReminder_materializeOne_of_ne hrid).ge

end Effects

section Cycle

variable {settings : Settings} {horizonEnd : ℤ}

/-- What a processed reminder looks like after the cycle. -/
structure Advanced (db : Database) (rid : ℕ) (r r' : Reminder) : Prop where
  finished : r'.status = .archived →
    BudgetSpent db rid r ∨ ∀ m ∈ lifetime r, Materialised db rid m
  moves : r'.status = .archived ∨
    ∃ p', r'.plannedUntil = some p' ∧ ∀ p, r.plannedUntil = some p → p < p'

/-- Every reminder is on its watermark, and no moment has two rows. -/
structure Watermark (db : Database) : Prop where
  unique : db.occurrences.Unique Occurrence.key
  onWatermark : ∀ rid r, db.reminders rid = some r → OnWatermark db rid r

theorem watermark_initial (users : Table User) (categories : Table Category) : Watermark (.initial users categories) := by
  refine ⟨fun _ _ _ _ h ↦ ?_, fun _ _ h ↦ ?_⟩
  · cases h
  · cases h

theorem Watermark.materializeOne {db : Database} {rid : ℕ} {r : Reminder} {owner : User}
    (h : Watermark db) (hr : db.reminders rid = some r)
    (hspan : planUntil (boundsOf r) horizonEnd - planAfter (boundsOf r) ≤ 3650 * day) :
    Watermark (materializeOne settings horizonEnd (rid, r) owner db) := by
  refine ⟨unique_materializeOne h.unique, fun rid' r' hr' ↦ ?_⟩
  rw [materializeOne_reminders] at hr'
  by_cases hrid : rid' = rid
  · subst hrid
    rw [if_pos rfl, hr] at hr'
    cases hr'
    exact (h.onWatermark rid' r hr).materializeOne hspan
  · rw [if_neg hrid] at hr'
    exact (h.onWatermark rid' r' hr').congr (fun m hm ↦ hm.materializeOne)
      (countForReminder_materializeOne_of_ne hrid).ge

theorem Advanced.materializeOne {db : Database} {rid rid' : ℕ} {r r₁ r₁' : Reminder} {owner : User}
    (h : Advanced db rid' r₁ r₁') (hne : rid' ≠ rid) :
    Advanced (materializeOne settings horizonEnd (rid, r) owner db) rid' r₁ r₁' := by
  refine ⟨fun harchived ↦ ?_, h.moves⟩
  rcases h.finished harchived with ⟨top, htop, hcount⟩ | hall
  · refine .inl ⟨top, htop, ?_⟩
    rwa [countForReminder_materializeOne_of_ne hne]
  · exact .inr fun m hm ↦ (hall m hm).materializeOne

theorem replanned_archived {r : Reminder} (hactive : r.status = .active) (outcome : PlanOutcome)
    (firedCount : ℕ) :
    (replanned r outcome firedCount).status = .archived ↔ outcome.exhausted = true := by
  rw [replanned]
  by_cases hexhausted : outcome.exhausted = true
  · simp [hexhausted]
  · simp [hexhausted, hactive]

theorem advanced_materializeOne {db : Database} {rid : ℕ} {r : Reminder} {owner : User}
    (h : Watermark db) (hr : db.reminders rid = some r) (hdue : Db.Reminders.isDue horizonEnd r)
    (hspan : planUntil (boundsOf r) horizonEnd - planAfter (boundsOf r) ≤ 3650 * day) :
    Advanced (materializeOne settings horizonEnd (rid, r) owner db) rid r
      (replanned r (planOutcome settings horizonEnd rid r owner db)
        (firedAfter settings horizonEnd rid r owner db)) := by
  have hactive : r.status = .active ∧ ∀ p, r.plannedUntil = some p → p < horizonEnd := by
    simp only [Db.Reminders.isDue, Bool.and_eq_true, decide_eq_true_eq, Option.all_eq_true] at hdue
    exact ⟨hdue.1.1, hdue.2⟩
  have hstatus := replanned_archived hactive.1 (planOutcome settings horizonEnd rid r owner db)
    (firedAfter settings horizonEnd rid r owner db)
  refine ⟨fun harchived ↦ ?_, ?_⟩
  · exact finished_of_exhausted ((h.onWatermark rid r hr).materializeOne hspan)
      (hstatus.mp harchived)
  · rw [hstatus]
    refine or_iff_not_imp_left.mpr fun hopen ↦ ⟨_, rfl, fun p hp ↦ ?_⟩
    exact (lt_plannedUntil_or_exhausted hp (hactive.2 p hp)).resolve_right hopen

/-- The whole batch: rows of later reminders are untouched by earlier ones. -/
theorem materializeAll_spec {due : List (ℕ × Reminder)} {db : Database} (h : Watermark db)
    (hrows : ∀ x ∈ due, db.reminders x.1 = some x.2 ∧ Db.Reminders.isDue horizonEnd x.2 = true ∧
      planUntil (boundsOf x.2) horizonEnd - planAfter (boundsOf x.2) ≤ 3650 * day)
    (hnodup : (due.map Prod.fst).Nodup) :
    let db' := materializeAll settings horizonEnd due db
    Watermark db' ∧
      (∀ rid, (∀ x ∈ due, x.1 = rid → db.users x.2.ownerId = none) →
        db'.reminders rid = db.reminders rid ∧
          ∀ r r', Advanced db rid r r' → Advanced db' rid r r') ∧
      ∀ x ∈ due, (db.users x.2.ownerId).isSome = true →
        ∃ r', db'.reminders x.1 = some r' ∧ Advanced db' x.1 x.2 r' := by
  induction due generalizing db with
  | nil =>
    refine ⟨h, fun _ _ ↦ ⟨rfl, fun _ _ h ↦ h⟩, fun x hx ↦ ?_⟩
    cases hx
  | cons x rest ih =>
    obtain ⟨rid, r⟩ := x
    rw [List.map_cons, List.nodup_cons] at hnodup
    obtain ⟨hr, hdue, hspan⟩ := hrows _ List.mem_cons_self
    have hrest := fun x hx ↦ hrows x (List.mem_cons_of_mem _ hx)
    cases howner : db.users r.ownerId with
    | none =>
      have heq : materializeAll settings horizonEnd ((rid, r) :: rest) db =
          materializeAll settings horizonEnd rest db := by rw [materializeAll, howner]
      rw [heq]
      obtain ⟨hwater, hother, hdone⟩ := ih h hrest hnodup.2
      refine ⟨hwater, fun rid' hrid' ↦
        hother rid' fun x hx ↦ hrid' x (List.mem_cons_of_mem _ hx), fun x hx hsome ↦ ?_⟩
      rcases List.mem_cons.mp hx with rfl | hx
      · rw [howner] at hsome
        cases hsome
      · exact hdone x hx hsome
    | some owner =>
      have heq : materializeAll settings horizonEnd ((rid, r) :: rest) db =
          materializeAll settings horizonEnd rest
            (materializeOne settings horizonEnd (rid, r) owner db) := by rw [materializeAll, howner]
      rw [heq]
      have hrow : ∀ rid', rid' ≠ rid →
          (materializeOne settings horizonEnd (rid, r) owner db).reminders rid' =
            db.reminders rid' := by
        intro rid' hne
        rw [materializeOne_reminders, if_neg hne]
      obtain ⟨hwater, hother, hdone⟩ := ih (h.materializeOne hr hspan) (fun x hx ↦ by
        rw [hrow x.1 fun heq ↦ hnodup.1 (heq ▸ List.mem_map.mpr ⟨x, hx, rfl⟩)]
        exact hrest x hx) hnodup.2
      refine ⟨hwater, fun rid' hrid' ↦ ?_, fun x hx hsome ↦ ?_⟩
      · have hne : rid' ≠ rid := fun heq ↦ by
          have hnone := hrid' _ List.mem_cons_self heq.symm
          rw [howner] at hnone
          cases hnone
        obtain ⟨hsame, hadvanced⟩ := hother rid' fun x hx heq ↦ by
          rw [materializeOne_users]
          exact hrid' x (List.mem_cons_of_mem _ hx) heq
        exact ⟨hsame.trans (hrow rid' hne),
          fun r₁ r₁' h₁ ↦ hadvanced r₁ r₁' (h₁.materializeOne hne)⟩
      · rcases List.mem_cons.mp hx with rfl | hx
        · obtain ⟨hsame, hadvanced⟩ := hother rid fun x hx heq ↦
            absurd (List.mem_map.mpr ⟨x, hx, heq⟩) hnodup.1
          refine ⟨_, hsame.trans ?_, hadvanced _ _ (advanced_materializeOne h hr hdue hspan)⟩
          rw [materializeOne_reminders, if_pos rfl, hr, Option.map_some]
        · refine hdone x hx ?_
          rw [materializeOne_users]
          exact hsome

theorem Materialised.materializeAll {due : List (ℕ × Reminder)} {db : Database} {rid : ℕ} {m : ℤ}
    (h : Materialised db rid m) :
    Materialised (materializeAll settings horizonEnd due db) rid m := by
  induction due generalizing db with
  | nil => exact h
  | cons x rest ih =>
    rw [Planning.materializeAll]
    split
    · exact ih h
    · exact ih h.materializeOne

theorem countForReminder_le_materializeAll {due : List (ℕ × Reminder)} {db : Database} {rid : ℕ} :
    Occurrences.countForReminder db rid ≤
      Occurrences.countForReminder (materializeAll settings horizonEnd due db) rid := by
  induction due generalizing db with
  | nil => exact le_rfl
  | cons x rest ih =>
    rw [materializeAll]
    split
    · exact ih
    · exact countForReminder_le_materializeOne.trans ih

/-- What a cycle may make of a reminder. -/
def IsReplanned (r r' : Reminder) : Prop :=
  ∃ status plannedUntil firedCount,
    r' = { r with status := status, plannedUntil := plannedUntil, firedCount := firedCount } ∧
      (status = r.status ∨ status = .archived)

theorem IsReplanned.trans {r r' r'' : Reminder} (h : IsReplanned r r') (h' : IsReplanned r' r'') :
    IsReplanned r r'' := by
  obtain ⟨status, plannedUntil, firedCount, rfl, hstatus⟩ := h
  obtain ⟨status', plannedUntil', firedCount', rfl, hstatus'⟩ := h'
  refine ⟨status', plannedUntil', firedCount', rfl, ?_⟩
  rcases hstatus' with rfl | harchived
  · exact hstatus
  · exact .inr harchived

theorem isReplanned_replanned (r : Reminder) (outcome : PlanOutcome) (firedCount : ℕ) :
    IsReplanned r (replanned r outcome firedCount) := by
  refine ⟨_, _, _, rfl, ?_⟩
  split
  · exact .inr rfl
  · exact .inl rfl

/-- A cycle rewrites the rows of reminders, each on its own. -/
theorem materializeAll_rows {due : List (ℕ × Reminder)} {db : Database} {rid : ℕ} :
    ∃ f, (materializeAll settings horizonEnd due db).reminders rid = (db.reminders rid).map f ∧
      ∀ r, IsReplanned r (f r) := by
  induction due generalizing db with
  | nil => exact ⟨id, by simp [materializeAll], fun r ↦ ⟨_, _, _, rfl, .inl rfl⟩⟩
  | cons x rest ih =>
    rw [materializeAll]
    split
    · exact ih
    · rename_i owner howner
      obtain ⟨f, hf, hkept⟩ := @ih (materializeOne settings horizonEnd x owner db)
      rw [hf, materializeOne_reminders]
      by_cases hrid : rid = x.1
      · rw [if_pos hrid, Option.map_map, ← hrid]
        exact ⟨_, rfl, fun r ↦ (isReplanned_replanned r _ _).trans (hkept _)⟩
      · rw [if_neg hrid]
        exact ⟨f, rfl, hkept⟩

/-- A cycle changes neither what a reminder fires at nor its budget, and
activates nothing. -/
theorem materializeAll_reminders {due : List (ℕ × Reminder)} {db : Database} {rid : ℕ}
    {r : Reminder} (h : db.reminders rid = some r) :
    ∃ r', (materializeAll settings horizonEnd due db).reminders rid = some r' ∧
      lifetime r' = lifetime r ∧ r'.maxOccurrences = r.maxOccurrences ∧
      (r'.status = .active → r.status = .active) := by
  obtain ⟨f, hf, hkept⟩ := @materializeAll_rows settings horizonEnd due db rid
  obtain ⟨status, plannedUntil, firedCount, hrow, hstatus⟩ := hkept r
  rw [h, Option.map_some, hrow] at hf
  refine ⟨_, hf, rfl, rfl, ?_⟩
  rintro rfl
  rcases hstatus with hsame | harchived
  · exact hsame.symm
  · cases harchived

/-- What planning one reminder keeps, the whole batch keeps. -/
theorem materializeAll_preserves {P : Database → Prop} (hone : ∀ {db : Database} {rid : ℕ}
    {r : Reminder} {owner : User}, P db → db.reminders rid = some r →
      P (materializeOne settings horizonEnd (rid, r) owner db))
    {due : List (ℕ × Reminder)} {db : Database} (h : P db)
    (hrows : ∀ x ∈ due, db.reminders x.1 = some x.2) (hnodup : (due.map Prod.fst).Nodup) :
    P (materializeAll settings horizonEnd due db) := by
  induction due generalizing db with
  | nil => exact h
  | cons x rest ih =>
    obtain ⟨hfresh, hrest⟩ := List.nodup_cons.mp hnodup
    have hlater := fun y hy ↦ hrows y (List.mem_cons_of_mem _ hy)
    rw [materializeAll]
    split
    · exact ih h hlater hrest
    · refine ih (hone h (hrows x List.mem_cons_self)) (fun y hy ↦ ?_) hrest
      have hne : y.1 ≠ x.1 := fun heq ↦ hfresh (heq ▸ List.mem_map_of_mem hy)
      rw [materializeOne_reminders, if_neg hne]
      exact hlater y hy

/-- Only a firing the reminder was missing, with budget left, is inserted. -/
theorem materializeAll_some {due : List (ℕ × Reminder)} {db : Database} {i : ℕ} {o : Occurrence}
    (h : (materializeAll settings horizonEnd due db).occurrences i = some o) :
    db.occurrences i = some o ∨ db.occurrences i = none ∧ o.repeatsSent = 0 ∧
      ∃ x ∈ due, ∃ m ∈ lifetime x.2,
        o.key = (x.1, m) ∧ ¬Materialised db x.1 m ∧ ¬BudgetSpent db x.1 x.2 := by
  induction due generalizing db with
  | nil => exact .inl h
  | cons x rest ih =>
    obtain ⟨rid, r⟩ := x
    rw [materializeAll] at h
    split at h
    · rcases ih h with hold | ⟨hnone, hnew, y, hy, hmissing⟩
      · exact .inl hold
      · exact .inr ⟨hnone, hnew, y, List.mem_cons_of_mem _ hy, hmissing⟩
    · rename_i owner howner
      rcases ih h with hold | ⟨hnone, hnew, y, hy, m, hm, hkey, hmissing, hbudget⟩
      · rcases materializeOne_some hold with hold | ⟨hnone, m, hm, rfl, hmissing⟩
        · exact .inl hold
        · refine .inr ⟨hnone, rfl, (rid, r), List.mem_cons_self, m, admits_of_mem_expand hm, rfl,
            hmissing, fun hspent ↦ ?_⟩
          rw [plan_eq_nil_of_budgetSpent hspent] at hm
          cases hm
      · refine .inr ⟨?_, hnew, y, List.mem_cons_of_mem _ hy, m, hm, hkey,
          fun hold ↦ hmissing hold.materializeOne, fun ⟨top, htop, hcount⟩ ↦ hbudget ⟨top, htop, ?_⟩⟩
        · cases hi : db.occurrences i with
          | none => rfl
          | some o' =>
            rw [materializeOne_kept hi] at hnone
            cases hnone
        · exact hcount.trans countForReminder_le_materializeOne

end Cycle

end Remindo.Services.Planning

namespace Remindo.Services.Reminders

open Remindo.Domain Remindo.Db Remindo.Foundation

/-- How many occurrences a drop takes back. -/
def droppedCount (rid : ℕ) (db : Database) : ℕ :=
  (Occurrences.deleteUnsent rid db).occurrences.length

theorem dropQueued_reminders (rid : ℕ) (r : Reminder) (db : Database) (j : ℕ) :
    (dropQueued rid r db).reminders j =
      if j = rid then (db.reminders rid).map fun r' ↦
        { r' with
          plannedUntil := none
          firedCount := r.firedCount - droppedCount rid db - droppedCount rid db }
      else db.reminders j := by
  have hreset (j : ℕ) := Db.Reminders.reminders_updateFields (db.apply (Occurrences.deleteUnsent rid db))
    rid (fun r' ↦ { r' with plannedUntil := none, firedCount := r.firedCount - droppedCount rid db }) j
  refine (Db.Reminders.reminders_updateFields ..).trans ?_
  split
  · refine (congrArg _ ((hreset rid).trans (if_pos rfl))).trans ?_
    rw [Option.map_map]
    rfl
  · rename_i hj
    exact (hreset j).trans (if_neg hj)

/-- The row a drop leaves: no horizon, and some firings refunded. -/
theorem dropQueued_row {rid : ℕ} {r r' : Reminder} {db : Database}
    (hr : db.reminders rid = some r') :
    ∃ fired, (dropQueued rid r db).reminders rid =
      some { r' with plannedUntil := none, firedCount := fired } := by
  rw [dropQueued_reminders, if_pos rfl, hr]
  exact ⟨_, rfl⟩

theorem dropQueued_occurrences (rid : ℕ) (r : Reminder) (db : Database) (i : ℕ) :
    (dropQueued rid r db).occurrences i =
      (db.occurrences i).filter fun o ↦ !Occurrences.isUnsent db rid i o :=
  Table.writes_deleteWhere ..

theorem dropQueued_deliveries (rid : ℕ) (r : Reminder) (db : Database) (j : ℕ) :
    (dropQueued rid r db).deliveries j = (db.deliveries j).filter fun d ↦
      !(db.occurrences d.occurrenceId).any (Occurrences.isUnsent db rid d.occurrenceId) :=
  Occurrences.deliveries_deleteUnsent db rid j

theorem dropQueued_actions (rid : ℕ) (r : Reminder) (db : Database) (k : ℕ) :
    (dropQueued rid r db).actions k = (db.actions k).filter fun a ↦
      !(db.deliveries a.deliveryId).any fun d ↦
        (db.occurrences d.occurrenceId).any (Occurrences.isUnsent db rid d.occurrenceId) :=
  Table.writes_deleteWhere ..

theorem dropQueued_kept {rid : ℕ} (r : Reminder) {db : Database} {i : ℕ} {o : Occurrence}
    (ho : db.occurrences i = some o) (hkeep : Occurrences.isUnsent db rid i o = false) :
    (dropQueued rid r db).occurrences i = some o := by
  rw [dropQueued_occurrences, ho, Option.filter_some, hkeep]
  rfl

/-- What is dropped belongs to the reminder itself. -/
theorem dropQueued_other {rid rid' : ℕ} (r : Reminder) {db : Database} (hne : rid' ≠ rid) {i : ℕ}
    {o : Occurrence} (ho : db.occurrences i = some o) (hrid : o.reminderId = rid') :
    (dropQueued rid r db).occurrences i = some o := by
  refine dropQueued_kept r ho ?_
  have hno : o.reminderId ≠ rid := fun h ↦ hne (hrid.symm.trans h)
  simp [Occurrences.isUnsent, hno]

theorem dropQueued_materialised {rid rid' : ℕ} {r : Reminder} {db : Database} {m : ℤ}
    (hne : rid' ≠ rid) (h : Planning.Materialised db rid' m) :
    Planning.Materialised (dropQueued rid r db) rid' m := by
  obtain ⟨i, o, ho, hkey⟩ := h
  exact ⟨i, o, dropQueued_other r hne ho (congrArg Prod.fst hkey), hkey⟩

theorem dropQueued_count {rid rid' : ℕ} {r : Reminder} {db : Database} (hne : rid' ≠ rid) :
    Occurrences.countForReminder (dropQueued rid r db) rid' =
      Occurrences.countForReminder db rid' := by
  refine Table.count_congr fun i ↦ ?_
  cases ho : db.occurrences i with
  | none =>
    rw [dropQueued_occurrences, ho]
    rfl
  | some o =>
    by_cases hrid : o.reminderId = rid'
    · rw [dropQueued_other r hne ho hrid]
    · rw [dropQueued_occurrences, ho, Option.filter_some]
      split <;> simp [hrid]

end Remindo.Services.Reminders
