import Mathlib.Algebra.Order.BigOperators.Group.Finset
import Remindo.Serial.FirstMoment
import Remindo.Serial.Users

namespace Remindo.Serial

open Remindo.Domain Remindo.Db Remindo.Services Remindo.Foundation
open Remindo.Services.Planning
  (boundsOf materializeOne materializeAll planOutcome firedAfter replanned lifetime Watermark)

/-- How far the watermark of a due reminder may still have to move. -/
def lag (horizonEnd : ℤ) (r : Reminder) : ℕ :=
  if Db.Reminders.isDue horizonEnd r then
    match r.plannedUntil with
    | none => (horizonEnd - r.startsAt + 2).toNat
    | some p => (horizonEnd - p).toNat
  else 0

/-- What is left to plan, over the first `n` reminders. -/
def backlog (horizonEnd : ℤ) (n : ℕ) (db : Database) : ℕ :=
  ∑ rid ∈ Finset.range n, ((db.reminders rid).map (lag horizonEnd)).getD 0

/-- A step of the planner: the watermark goes on from where its window starts. -/
structure Moved (horizonEnd : ℤ) (r r' : Reminder) : Prop where
  row : ∃ outcome fired, r' = replanned r outcome fired
  after : ∀ p, r'.plannedUntil = some p → planAfter (boundsOf r) ≤ p
  lag : lag horizonEnd r' < lag horizonEnd r

section Lag

variable {settings : Planning.Settings} {horizonEnd : ℤ} {r : Reminder}

theorem isDue_iff : Db.Reminders.isDue horizonEnd r = true ↔ r.status = .active ∧
    r.startsAt ≤ horizonEnd ∧ ∀ p, r.plannedUntil = some p → p < horizonEnd := by
  simp only [Db.Reminders.isDue, Bool.and_eq_true, decide_eq_true_eq, Option.all_eq_true, and_assoc]

theorem lag_pos (hdue : Db.Reminders.isDue horizonEnd r = true) : 0 < lag horizonEnd r := by
  obtain ⟨-, hstart, hplanned⟩ := isDue_iff.mp hdue
  rw [lag, if_pos hdue]
  cases hp : r.plannedUntil with
  | none =>
    dsimp only
    omega
  | some p =>
    have := hplanned p hp
    dsimp only
    omega

theorem planAfter_le_planOutcome (rid : ℕ) (owner : User) (db : Database) :
    planAfter (boundsOf r) ≤ (planOutcome settings horizonEnd rid r owner db).plannedUntil := by
  rcases plannedUntil_cases (boundsOf r)
    (Planning.windowOf r horizonEnd (Occurrences.countForReminder db rid))
    (Planning.plan horizonEnd rid r db) (firedAfter settings horizonEnd rid r owner db) with
    ⟨last, hlast, -, hplanned⟩ | ⟨-, hplanned⟩
  · rw [planOutcome, hplanned]
    exact (mem_expand (List.mem_of_getLast? hlast)).2.1.le
  · rw [planOutcome, hplanned]
    exact le_max_left _ _

/-- A due reminder that is taken up comes closer to the horizon. -/
theorem moved_replanned (hdue : Db.Reminders.isDue horizonEnd r = true) (rid : ℕ) (owner : User)
    (db : Database) : Moved horizonEnd r
      (replanned r (planOutcome settings horizonEnd rid r owner db)
        (firedAfter settings horizonEnd rid r owner db)) := by
  have hafter := @planAfter_le_planOutcome settings horizonEnd r rid owner db
  refine ⟨⟨_, _, rfl⟩, fun p hp ↦ Option.some_inj.mp hp ▸ hafter, ?_⟩
  obtain ⟨hactive, hstart, hplanned⟩ := isDue_iff.mp hdue
  rw [lag]
  split
  · rename_i hdue'
    obtain ⟨hactive', -, hlate⟩ := isDue_iff.mp hdue'
    have hopen : ¬(planOutcome settings horizonEnd rid r owner db).exhausted = true := by
      intro hexhausted
      rw [(Planning.replanned_archived hactive _ _).mpr hexhausted] at hactive'
      cases hactive'
    have hhorizon := hlate _ rfl
    have hbegins := (startsAt_le_planAfter (boundsOf r)).1
    change r.startsAt - boundary ≤ _ at hbegins
    rw [lag, if_pos hdue]
    cases hp : r.plannedUntil with
    | none =>
      have hboundary : boundary = 1 := rfl
      change (horizonEnd - (planOutcome settings horizonEnd rid r owner db).plannedUntil).toNat < _
      dsimp only
      omega
    | some p =>
      have hfurther := (@lt_plannedUntil_or_exhausted _ _ (boundsOf r) _ _ _ _ hp
        (hplanned p hp)).resolve_right hopen
      change p < (planOutcome settings horizonEnd rid r owner db).plannedUntil at hfurther
      change (horizonEnd - (planOutcome settings horizonEnd rid r owner db).plannedUntil).toNat < _
      dsimp only
      omega
  · exact lag_pos hdue

end Lag

section Cycle

variable {settings : Planning.Settings} {horizonEnd : ℤ} {db : Database} {n : ℕ}

/-- A batch moves each of its reminders, and no other. -/
theorem materializeAll_moves {due : List (ℕ × Reminder)} (hrows : ∀ x ∈ due,
    db.reminders x.1 = some x.2 ∧ Db.Reminders.isDue horizonEnd x.2 = true ∧
      (db.users x.2.ownerId).isSome = true) (hnodup : (due.map Prod.fst).Nodup) :
    (∀ x ∈ due, ∃ r', (materializeAll settings horizonEnd due db).reminders x.1 = some r' ∧
      Moved horizonEnd x.2 r') ∧
      ∀ rid, rid ∉ due.map Prod.fst →
        (materializeAll settings horizonEnd due db).reminders rid = db.reminders rid := by
  induction due generalizing db with
  | nil => exact ⟨fun x hx ↦ (by cases hx), fun _ _ ↦ rfl⟩
  | cons x rest ih =>
    obtain ⟨rid, r⟩ := x
    obtain ⟨hr, hdue, howner⟩ := hrows _ List.mem_cons_self
    rw [List.map_cons, List.nodup_cons] at hnodup
    obtain ⟨owner, howner⟩ := Option.isSome_iff_exists.mp howner
    have heq : materializeAll settings horizonEnd ((rid, r) :: rest) db =
        materializeAll settings horizonEnd rest
          (materializeOne settings horizonEnd (rid, r) owner db) := by rw [materializeAll, howner]
    have hother : ∀ rid', rid' ≠ rid → (materializeOne settings horizonEnd (rid, r) owner
        db).reminders rid' = db.reminders rid' := fun rid' hne ↦ by
      rw [Planning.materializeOne_reminders, if_neg hne]
    obtain ⟨hmoved, hsame⟩ := @ih (materializeOne settings horizonEnd (rid, r) owner db)
      (fun y hy ↦ by
        have hne : y.1 ≠ rid := fun h ↦ hnodup.1 (List.mem_map.mpr ⟨y, hy, h⟩)
        rw [hother y.1 hne, Planning.materializeOne_users]
        exact hrows y (List.mem_cons_of_mem _ hy)) hnodup.2
    rw [heq]
    refine ⟨fun y hy ↦ ?_, fun rid' hrid' ↦ ?_⟩
    · rcases List.mem_cons.mp hy with rfl | hy
      · refine ⟨_, ?_, @moved_replanned settings horizonEnd r hdue rid owner db⟩
        rw [hsame rid hnodup.1, Planning.materializeOne_reminders, if_pos rfl, hr, Option.map_some]
      · exact hmoved y hy
    · rw [List.map_cons, List.mem_cons, not_or] at hrid'
      rw [hsame rid' hrid'.2, hother rid' hrid'.1]

/-- Every reminder is its owner's. -/
def Owned (db : Database) : Prop :=
  ∀ rid r, db.reminders rid = some r → (db.users r.ownerId).isSome = true

/-- What is due can be expanded at once. -/
def Expandable (horizonEnd : ℤ) (db : Database) : Prop :=
  ∀ x ∈ db.reminders.select fun _ r ↦ Db.Reminders.isDue horizonEnd r,
    planUntil (boundsOf x.2) horizonEnd - planAfter (boundsOf x.2) ≤ 3650 * day

instance (horizonEnd : ℤ) (db : Database) : Decidable (Expandable horizonEnd db) :=
  inferInstanceAs (Decidable (∀ x ∈ _, _))

/-- What a cycle makes of the rows of reminders. -/
theorem materialize_rows (howned : Owned db) (limit rid : ℕ) :
    let db' := materializeAll settings horizonEnd
      (Db.Reminders.dueForPlanning db horizonEnd limit) db
    db'.reminders rid = db.reminders rid ∨
      ∃ r r', db.reminders rid = some r ∧ Db.Reminders.isDue horizonEnd r = true ∧
        db'.reminders rid = some r' ∧ Moved horizonEnd r r' := by
  intro db'
  obtain ⟨hmoved, hsame⟩ := @materializeAll_moves settings horizonEnd db
    (Db.Reminders.dueForPlanning db horizonEnd limit) (fun x hx ↦ by
      obtain ⟨hrow, hdue⟩ := Db.Reminders.mem_dueForPlanning hx
      exact ⟨hrow, hdue, howned _ _ hrow⟩) (Db.Reminders.nodup_dueForPlanning ..)
  by_cases hrid : rid ∈ (Db.Reminders.dueForPlanning db horizonEnd limit).map Prod.fst
  · obtain ⟨x, hx, rfl⟩ := List.mem_map.mp hrid
    obtain ⟨hrow, hdue⟩ := Db.Reminders.mem_dueForPlanning hx
    obtain ⟨r', hr', hstep⟩ := hmoved x hx
    exact .inr ⟨x.2, r', hrow, hdue, hr', hstep⟩
  · exact .inl (hsame rid hrid)

theorem Owned.materialize (howned : Owned db) (limit : ℕ) :
    Owned (materializeAll settings horizonEnd
      (Db.Reminders.dueForPlanning db horizonEnd limit) db) := by
  intro rid r' hr'
  rw [materializeAll_users]
  rcases @materialize_rows settings horizonEnd db howned limit rid with
    hsame | ⟨r, r₁, hr, -, hr₁, ⟨outcome, fired, rfl⟩, -⟩
  · exact howned rid r' (hsame ▸ hr')
  · cases hr₁.symm.trans hr'
    exact howned rid r hr

theorem Expandable.materialize (hspan : Expandable horizonEnd db) (howned : Owned db)
    (limit : ℕ) : Expandable horizonEnd (materializeAll settings horizonEnd
      (Db.Reminders.dueForPlanning db horizonEnd limit) db) := by
  rintro ⟨rid, r'⟩ hx
  obtain ⟨hr', hdue'⟩ := Table.mem_select.mp hx
  rcases @materialize_rows settings horizonEnd db howned limit rid with
    hsame | ⟨r, r₁, hr, hdue, hr₁, ⟨outcome, fired, rfl⟩, hafter, -⟩
  · exact hspan (rid, r') (Table.mem_select.mpr ⟨hsame ▸ hr', hdue'⟩)
  · cases hr₁.symm.trans hr'
    have hfurther := (startsAt_le_planAfter (boundsOf (replanned r outcome fired))).2 _ rfl
    have hold := hspan (rid, r) (Table.mem_select.mpr ⟨hr, hdue⟩)
    have hwatermark := hafter _ rfl
    change planUntil (boundsOf r) horizonEnd - planAfter (boundsOf r) ≤ _ at hold
    change planUntil (boundsOf r) horizonEnd - planAfter (boundsOf (replanned r outcome fired)) ≤ _
    omega

/-- A cycle that finds anything due leaves less behind. -/
theorem backlog_lt (howned : Owned db) {limit : ℕ} (hrows : ∀ rid r, db.reminders rid = some r →
    rid < n) (hdue : Db.Reminders.dueForPlanning db horizonEnd limit ≠ []) :
    backlog horizonEnd n (materializeAll settings horizonEnd
      (Db.Reminders.dueForPlanning db horizonEnd limit) db) < backlog horizonEnd n db := by
  have hle : ∀ rid, (((materializeAll settings horizonEnd
      (Db.Reminders.dueForPlanning db horizonEnd limit) db).reminders rid).map
        (lag horizonEnd)).getD 0 ≤ ((db.reminders rid).map (lag horizonEnd)).getD 0 := by
    intro rid
    rcases @materialize_rows settings horizonEnd db howned limit rid with
      hsame | ⟨r, r', hr, -, hr', hmoved⟩
    · rw [hsame]
    · rw [hr, hr']
      exact hmoved.lag.le
  obtain ⟨x, hx⟩ := List.exists_mem_of_ne_nil _ hdue
  obtain ⟨hrow, hisDue⟩ := Db.Reminders.mem_dueForPlanning hx
  obtain ⟨r', hr', hmoved⟩ := (@materializeAll_moves settings horizonEnd db
    (Db.Reminders.dueForPlanning db horizonEnd limit) (fun x hx ↦ by
      obtain ⟨hrow, hdue⟩ := Db.Reminders.mem_dueForPlanning hx
      exact ⟨hrow, hdue, howned _ _ hrow⟩) (Db.Reminders.nodup_dueForPlanning ..)).1 x hx
  refine Finset.sum_lt_sum (fun rid _ ↦ hle rid)
    ⟨x.1, Finset.mem_range.mpr (hrows x.1 x.2 hrow), ?_⟩
  rw [hr', hrow]
  exact hmoved.lag

end Cycle

section Runs

variable {settings : Settings} {w w' : World} {now : ℤ}

/-- With the clock standing still, the planner comes to an end. -/
theorem exists_caught_up (hbatch : 0 < settings.planning.batchSize) (howned : Owned w.db)
    (hspan : Expandable (now + settings.planning.horizon) w.db) (hw : Watermark w.db) :
    ∃ k w', cycles settings w (List.replicate k now) = some w' ∧ Watermark w'.db ∧
      ∀ rid r, w'.db.reminders rid = some r →
        ¬Db.Reminders.isDue (now + settings.planning.horizon) r = true := by
  obtain ⟨n, hn⟩ : ∃ n, ∀ rid r, w.db.reminders rid = some r → rid < n :=
    ⟨_, fun _ _ ↦ Table.lt_next⟩
  induction hb : backlog (now + settings.planning.horizon) n w.db using Nat.strong_induction_on
    generalizing w with
  | _ b ih =>
    let due := Db.Reminders.dueForPlanning w.db (now + settings.planning.horizon)
      settings.planning.batchSize
    by_cases hdue : due = []
    · refine ⟨0, w, rfl, hw, fun rid r hr hlate ↦ ?_⟩
      -- A batch that is empty has not been cut short.
      have hall := List.take_eq_nil_iff.mp hdue
      have hqueue := hall.resolve_left (by omega)
      have hmem := (nullsFirst_perm Reminder.plannedUntil (w.db.reminders.select fun _ r ↦
        Db.Reminders.isDue (now + settings.planning.horizon) r)).mem_iff.mpr
          (Table.mem_select.mpr ⟨hr, hlate⟩)
      rw [nullsFirst, hqueue] at hmem
      cases hmem
    · let w₁ : World := { w with db := Planning.materialize settings.planning now w.db }
      have hless : backlog (now + settings.planning.horizon) n w₁.db < b :=
        hb ▸ backlog_lt howned hn hdue
      have hshort : (Operation.materialize now).shortWindows settings w := fun x hx ↦ by
        exact hspan x (Table.mem_select.mpr (Db.Reminders.mem_dueForPlanning hx))
      have hrows : ∀ rid r, w₁.db.reminders rid = some r → rid < n := by
        intro rid r hr
        obtain ⟨f, hf, -⟩ := @Planning.materializeAll_rows settings.planning
          (now + settings.planning.horizon) due w.db rid
        obtain ⟨r₀, hr₀, -⟩ := Option.map_eq_some_iff.mp (hf.symm.trans hr)
        exact hn rid r₀ hr₀
      obtain ⟨k, w', hrun, hrest⟩ := ih _ hless (w := w₁) (howned.materialize _)
        (hspan.materialize howned _) (watermark_perform hw hshort rfl) hrows rfl
      exact ⟨k + 1, w', hrun, hrest⟩

/-- A reminder comes from `create`, and whoever creates one is known. -/
theorem owner_of_new {op : Operation} {rid : ℕ} {r : Reminder} (h : perform settings w op = some w')
    (hr : w'.db.reminders rid = some r) (hnew : w.db.reminders rid = none) :
    (w.db.users r.ownerId).isSome = true := by
  have hnone : w'.db.reminders rid ≠ none := by simp [hr]
  by_cases hop : op.movesCalendar = false
  · rw [(sameCalendar_perform hop h).1] at hnone
    exact absurd hnew hnone
  cases op with
  | create now ownerId draft =>
    obtain ⟨db', hdb, rfl⟩ := over_eq_some h
    have howner := (Reminders.gates_of_create hdb).2
    obtain ⟨-, rfl⟩ := Reminders.create_eq_ok hdb
    rcases Table.insert_some hr with hold | ⟨-, rfl⟩
    · rw [hnew] at hold
      cases hold
    · exact howner
  | materialize now =>
    cases h
    obtain ⟨f, hf, -⟩ := @Planning.materializeAll_rows settings.planning
      (now + settings.planning.horizon) (Db.Reminders.dueForPlanning w.db
        (now + settings.planning.horizon) settings.planning.batchSize) w.db rid
    rw [hnew] at hf
    exact absurd hf hnone
  | setStatus now ownerId rid₀ status =>
    obtain ⟨db', hdb, rfl⟩ := over_eq_some h
    refine absurd ?_ hnone
    obtain ⟨r₀, -, rfl⟩ := Reminders.setStatus_eq_ok hdb
    split <;> by_cases hrid : rid = rid₀ <;> subst_vars <;>
      simp [Db.Reminders.setStatus, Reminders.dropQueued_reminders, *]
  | update now ownerId rid₀ change =>
    obtain ⟨db', hdb, rfl⟩ := over_eq_some h
    refine absurd ?_ hnone
    obtain ⟨r₀, -, -, rfl⟩ := Reminders.update_eq_ok hdb
    split <;> by_cases hrid : rid = rid₀ <;> subst_vars <;>
      simp [Reminders.dropQueued_reminders, *]
  | _ => exact absurd rfl hop

theorem Owned.perform {op : Operation} (howned : Owned w.db)
    (h : Serial.perform settings w op = some w') : Owned w'.db := by
  intro rid r' hr'
  rw [perform_users h]
  cases hr : w.db.reminders rid with
  | none => exact owner_of_new h hr' hr
  | some r =>
    obtain ⟨r₁, hr₁, hamends⟩ := perform_reminder h hr
    cases hr₁.symm.trans hr'
    rw [hamends.ownerId]
    exact howned rid r hr

end Runs

end Remindo.Serial
