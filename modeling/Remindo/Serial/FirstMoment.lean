import Remindo.Serial.Budget

namespace Remindo.Serial

open Remindo.Domain Remindo.Db Remindo.Services Remindo.Foundation
open Remindo.Db.Occurrences (countForReminder)
open Remindo.Services.Planning (Materialised IsReplanned lifetime boundsOf plan planWrites planOutcome
  firedAfter replanned)

/-- The reminder has an occurrence. -/
def Fires (db : Database) (rid : ℕ) : Prop := ∃ m, Materialised db rid m

/-- What holds of a reminder from its creation on: the first moment it is meant
to fire at is not far from its start, and there is room for it. -/
structure Promising (r : Reminder) (first : ℤ) : Prop where
  least : IsLeast (lifetime r) first
  near : first ≤ r.startsAt + wizardMaxDaysAhead * day
  room : ∀ top, r.maxOccurrences = some top → 1 ≤ top

/-- The reminder has not fired, and its watermark has not got to its first moment. -/
structure Awaits (rid : ℕ) (first : ℤ) (r : Reminder) (db : Database) : Prop where
  row : db.reminders rid = some r
  active : r.status = .active
  owner : (db.users r.ownerId).isSome = true
  ahead : ∀ p, r.plannedUntil = some p → p < first
  unfired : countForReminder db rid = 0

theorem not_fires {db : Database} {rid : ℕ} (h : countForReminder db rid = 0) : ¬Fires db rid := by
  rintro ⟨m, i, o, ho, hkey⟩
  have hother := Table.count_eq_zero.mp h i o ho
  exact of_decide_eq_false hother (congrArg Prod.fst hkey)

theorem Promising.of_isReplanned {r r' : Reminder} {first : ℤ} (h : Promising r first)
    (hrow : IsReplanned r r') : Promising r' first := by
  obtain ⟨status, plannedUntil, firedCount, rfl, -⟩ := hrow
  exact ⟨h.least, h.near, h.room⟩

section Planner

variable {settings : Planning.Settings} {horizonEnd first : ℤ} {rid : ℕ} {r : Reminder}
  {owner : User} {db : Database}

theorem Awaits.planAfter_lt (h : Awaits rid first r db) (hstart : r.startsAt ≤ first) :
    planAfter (boundsOf r) < first := by
  by_contra hlate
  obtain ⟨p, hp, hle⟩ := le_plannedUntil_of_le_planAfter
    (show (boundsOf r).startsAt ≤ first from hstart) (not_lt.mp hlate)
  exact absurd (h.ahead p hp) (not_lt.mpr hle)

theorem Promising.plan_eq_nil (h : Promising r first) (hlate : horizonEnd < first) :
    plan horizonEnd rid r db = [] := by
  refine List.eq_nil_iff_forall_not_mem.mpr fun m hm ↦ ?_
  have hfirst : first ≤ m := h.least.2 (admits_of_mem_expand hm)
  have htil : m ≤ planUntil (boundsOf r) horizonEnd := (mem_expand hm).2.2
  have := (planUntil_le (boundsOf r) horizonEnd).1
  omega

theorem Promising.plan_ne_nil (h : Promising r first) (hawaits : Awaits rid first r db)
    (hreached : first ≤ horizonEnd) : plan horizonEnd rid r db ≠ [] := by
  have hlimit : 0 < (Planning.windowOf r horizonEnd (countForReminder db rid)).limit := by
    refine Nat.pos_of_ne_zero fun hzero ↦ ?_
    obtain ⟨top, htop, hle⟩ := planWindow_limit_eq_zero.mp hzero
    have hroom := h.room top htop
    rw [hawaits.unfired] at hle
    omega
  obtain ⟨⟨⟨hfires, hstart, hend⟩, -⟩, hnear, -⟩ := h
  have hafter : planAfter (boundsOf r) < first := hawaits.planAfter_lt hstart
  have htil : first ≤ planUntil (boundsOf r) horizonEnd := le_planUntil hreached hend
  have hspan : first - planAfter (boundsOf r) ≤ 3650 * day := by
    have hlow : r.startsAt - boundary ≤ planAfter (boundsOf r) := (startsAt_le_planAfter _).1
    simp only [boundary, wizardMaxDaysAhead, day] at *
    omega
  have hopen : ¬(Planning.windowOf r horizonEnd (countForReminder db rid)).isEmpty = true := by
    simp only [PlanWindow.isEmpty, decide_eq_true_eq, not_or]
    exact ⟨hlimit.ne', not_le.mpr (hafter.trans_le htil)⟩
  rw [plan, Planning.momentsOf, expand, if_neg hopen]
  exact nextOccurrences_ne_nil hlimit ⟨hfires, hafter, htil⟩ hspan

/-- A cycle that has nothing to plan leaves the reminder waiting. -/
theorem Promising.awaits_materializeOne (h : Promising r first) (hawaits : Awaits rid first r db)
    (hlate : horizonEnd < first) :
    Awaits rid first (replanned r (planOutcome settings horizonEnd rid r owner db)
      (firedAfter settings horizonEnd rid r owner db))
      (Planning.materializeOne settings horizonEnd (rid, r) owner db) := by
  have hnil : plan horizonEnd rid r db = [] := h.plan_eq_nil hlate
  have hfired : firedAfter settings horizonEnd rid r owner db = 0 := by
    rw [firedAfter, planWrites, hnil, hawaits.unfired]
    rfl
  have hplanned : (planOutcome settings horizonEnd rid r owner db).plannedUntil < first := by
    rcases plannedUntil_cases (boundsOf r) (Planning.windowOf r horizonEnd (countForReminder db rid))
      (plan horizonEnd rid r db) (firedAfter settings horizonEnd rid r owner db) with
      ⟨last, hlast, -⟩ | ⟨-, hplanned⟩
    · rw [hnil] at hlast
      cases hlast
    · refine hplanned.trans_lt (max_lt (hawaits.planAfter_lt h.least.1.2.1) ?_)
      exact (planUntil_le (boundsOf r) horizonEnd).1.trans_lt hlate
  have hopen : (planOutcome settings horizonEnd rid r owner db).exhausted = false := by
    change isExhausted (boundsOf r) _ (firedAfter settings horizonEnd rid r owner db) = false
    rw [hfired, ← Bool.not_eq_true, isExhausted]
    simp only [Bool.or_eq_true, Option.any_eq_true, decide_eq_true_eq]
    rintro ((⟨top, htop, hle⟩ | ⟨e, he, hle⟩) | ⟨last, hlast, hle⟩)
    · exact absurd (h.room top htop) (by omega)
    · exact absurd (hplanned.trans_le (h.least.1.2.2 e he)) (not_lt.mpr hle)
    · rw [← eq_of_lastMomentOf hlast h.least.1.1] at hle
      exact absurd hplanned (not_lt.mpr hle)
  refine ⟨?_, ?_, ?_, ?_, ?_⟩
  · rw [Planning.materializeOne_reminders, if_pos rfl, hawaits.row, Option.map_some]
  · rw [replanned, hopen]
    exact hawaits.active
  · rw [Planning.materializeOne_users]
    exact hawaits.owner
  · intro p hp
    cases hp
    exact hplanned
  · rw [Planning.countForReminder_materializeOne, hfired]

/-- The cycle that gets to the first moment writes an occurrence; one before it
leaves the reminder waiting. -/
theorem Promising.materializeOne (h : Promising r first) (hawaits : Awaits rid first r db) :
    Fires (Planning.materializeOne settings horizonEnd (rid, r) owner db) rid ∨
      horizonEnd < first ∧ ∃ r', IsReplanned r r' ∧
        Awaits rid first r' (Planning.materializeOne settings horizonEnd (rid, r) owner db) := by
  rcases le_or_gt first horizonEnd with hreached | hlate
  · obtain ⟨m, hm⟩ := List.exists_mem_of_ne_nil _ (h.plan_ne_nil hawaits hreached)
    exact .inl ⟨m, Planning.materialised_of_mem_plan hm⟩
  · exact .inr ⟨hlate, _, Planning.isReplanned_replanned .., h.awaits_materializeOne hawaits hlate⟩

theorem Awaits.materializeOne_other (h : Awaits rid first r db) {x : ℕ × Reminder} (hne : x.1 ≠ rid) :
    Awaits rid first r (Planning.materializeOne settings horizonEnd x owner db) := by
  refine ⟨?_, h.active, ?_, h.ahead, ?_⟩
  · rw [Planning.materializeOne_reminders, if_neg hne.symm]
    exact h.row
  · rw [Planning.materializeOne_users]
    exact h.owner
  · rw [Planning.countForReminder_materializeOne_of_ne hne.symm]
    exact h.unfired

theorem Fires.materializeAll {due : List (ℕ × Reminder)} (h : Fires db rid) :
    Fires (Planning.materializeAll settings horizonEnd due db) rid := by
  obtain ⟨m, hm⟩ := h
  exact ⟨m, hm.materializeAll⟩

/-- The reminder has an occurrence, or still waits for its first moment. -/
def Promised (rid : ℕ) (first : ℤ) (r : Reminder) (db : Database) : Prop :=
  Fires db rid ∨ ∃ r', IsReplanned r r' ∧ Awaits rid first r' db

theorem Promising.materializeAll (h : Promising r first) (hawaits : Awaits rid first r db)
    {due : List (ℕ × Reminder)} (hrows : ∀ x ∈ due, x.1 = rid → x.2 = r)
    (hnodup : (due.map Prod.fst).Nodup) :
    Promised rid first r (Planning.materializeAll settings horizonEnd due db) ∧
      ((rid, r) ∈ due → first ≤ horizonEnd →
        Fires (Planning.materializeAll settings horizonEnd due db) rid) := by
  induction due generalizing db r with
  | nil => exact ⟨.inr ⟨r, ⟨_, _, _, rfl, .inl rfl⟩, hawaits⟩, fun hmem ↦ by cases hmem⟩
  | cons x rest ih =>
    obtain ⟨hfresh, hrest⟩ := List.nodup_cons.mp hnodup
    have hlater := fun y hy ↦ hrows y (List.mem_cons_of_mem _ hy)
    by_cases hrid : x.1 = rid
    · obtain ⟨owner, howner⟩ := Option.isSome_iff_exists.mp hawaits.owner
      obtain rfl : x = (rid, r) := Prod.ext hrid (hrows x List.mem_cons_self hrid)
      rw [Planning.materializeAll, howner]
      rcases h.materializeOne hawaits with hfires | ⟨hlate, r', hrow, hawaits'⟩
      · exact ⟨.inl hfires.materializeAll, fun _ _ ↦ hfires.materializeAll⟩
      · have hgone : ∀ y ∈ rest, y.1 = rid → y.2 = r' :=
          fun y hy heq ↦ absurd (List.mem_map.mpr ⟨y, hy, heq⟩) hfresh
        obtain ⟨hfires | ⟨r'', hrow', hawaits''⟩, -⟩ := ih (h.of_isReplanned hrow) hawaits' hgone hrest
        · exact ⟨.inl hfires, fun _ _ ↦ hfires⟩
        · exact ⟨.inr ⟨r'', hrow.trans hrow', hawaits''⟩, fun _ hreached ↦ by omega⟩
    · have hmem : (rid, r) ∈ x :: rest → (rid, r) ∈ rest := fun hmem ↦
        (List.mem_cons.mp hmem).resolve_left fun heq ↦ hrid (congrArg Prod.fst heq).symm
      rw [Planning.materializeAll]
      split
      · obtain ⟨hpromised, hfires⟩ := ih h hawaits hlater hrest
        exact ⟨hpromised, fun hx ↦ hfires (hmem hx)⟩
      · obtain ⟨hpromised, hfires⟩ := ih h (hawaits.materializeOne_other hrid) hlater hrest
        exact ⟨hpromised, fun hx ↦ hfires (hmem hx)⟩

/-- The row is the one created, replanned, and what has fired was due to. -/
def Backed (rid : ℕ) (r : Reminder) (db : Database) : Prop :=
  (∃ r', db.reminders rid = some r' ∧ IsReplanned r r') ∧ (Fires db rid → (lifetime r).Nonempty)

theorem lifetime_of_isReplanned {r' : Reminder} (h : IsReplanned r r') : lifetime r' = lifetime r := by
  obtain ⟨status, plannedUntil, firedCount, rfl, -⟩ := h
  rfl

theorem Backed.materializeAll (h : Backed rid r db) {due : List (ℕ × Reminder)}
    (hrows : ∀ x ∈ due, db.reminders x.1 = some x.2) :
    Backed rid r (Planning.materializeAll settings horizonEnd due db) := by
  obtain ⟨⟨r', hr', hrow⟩, hfires⟩ := h
  obtain ⟨f, hf, hkept⟩ := @Planning.materializeAll_rows settings horizonEnd due db rid
  rw [hr', Option.map_some] at hf
  refine ⟨⟨_, hf, hrow.trans (hkept r')⟩, ?_⟩
  rintro ⟨m, i, o, ho, hkey⟩
  rcases Planning.materializeAll_some ho with hold | ⟨-, -, x, hx, m', hm', hkey', -⟩
  · exact hfires ⟨m, i, o, hold, hkey⟩
  · have hrid : x.1 = rid := congrArg Prod.fst (hkey'.symm.trans hkey)
    have hx' := hrows x hx
    rw [hrid, hr'] at hx'
    cases hx'
    exact ⟨m', lifetime_of_isReplanned hrow ▸ hm'⟩

end Planner

section Cycles

variable {settings : Settings} {first : ℤ} {rid : ℕ} {r : Reminder} {w w' : World} {times : List ℤ}

def cycles (settings : Settings) (w : World) (times : List ℤ) : Option World :=
  run (perform settings) w (times.map .materialize)

/-- A cycle whose horizon reaches the moment takes the reminder up. -/
def TakenUp (settings : Settings) (rid : ℕ) (first : ℤ) (w : World) (times : List ℤ) : Prop :=
  ∃ early now late w', times = early ++ now :: late ∧ cycles settings w early = some w' ∧
    first ≤ now + settings.planning.horizon ∧ ∃ r, (rid, r) ∈ Db.Reminders.dueForPlanning w'.db
      (now + settings.planning.horizon) settings.planning.batchSize

theorem cycles_invariant {P : Database → Prop}
    (hstep : ∀ db now, P db → P (Planning.materialize settings.planning now db))
    (hrun : cycles settings w times = some w') (h : P w.db) : P w'.db := by
  induction times generalizing w with
  | nil =>
    cases hrun
    exact h
  | cons now times ih => exact ih hrun (hstep w.db now h)

theorem Promising.materialize (h : Promising r first) {db : Database}
    (hpromised : Promised rid first r db) (now : ℤ) :
    Promised rid first r (Planning.materialize settings.planning now db) ∧
      ∀ r', (rid, r') ∈ Db.Reminders.dueForPlanning db (now + settings.planning.horizon)
          settings.planning.batchSize → first ≤ now + settings.planning.horizon →
        Fires (Planning.materialize settings.planning now db) rid := by
  rcases hpromised with hfires | ⟨r₁, hrow, hawaits⟩
  · exact ⟨.inl hfires.materializeAll, fun _ _ _ ↦ hfires.materializeAll⟩
  have hrows : ∀ x ∈ Db.Reminders.dueForPlanning db (now + settings.planning.horizon)
      settings.planning.batchSize, x.1 = rid → x.2 = r₁ := by
    rintro x hx rfl
    exact Option.some_inj.mp ((Db.Reminders.mem_dueForPlanning hx).1.symm.trans hawaits.row)
  obtain ⟨hcycle, htaken⟩ := @Promising.materializeAll settings.planning
    (now + settings.planning.horizon) first rid r₁ db (h.of_isReplanned hrow) hawaits _ hrows
    (Db.Reminders.nodup_dueForPlanning _ _ _)
  refine ⟨?_, fun r' hmem hreached ↦ htaken ?_ hreached⟩
  · rcases hcycle with hfires | ⟨r₂, hrow', hawaits'⟩
    · exact .inl hfires
    · exact .inr ⟨r₂, hrow.trans hrow', hawaits'⟩
  · rw [← hrows _ hmem rfl]
    exact hmem

theorem Promising.cycles (h : Promising r first) (hpromised : Promised rid first r w.db)
    (hrun : Serial.cycles settings w times = some w') : Promised rid first r w'.db :=
  cycles_invariant (P := Promised rid first r) (fun _ now hp ↦ (h.materialize hp now).1) hrun hpromised

/-- A cycle that has reached the first moment does not leave without an occurrence. -/
theorem Promising.fires_of_takenUp (h : Promising r first) (hpromised : Promised rid first r w.db)
    (htaken : TakenUp settings rid first w times) (hrun : Serial.cycles settings w times = some w') :
    Fires w'.db rid := by
  obtain ⟨early, now, late, w₁, rfl, hearly, hreached, r', hdue⟩ := htaken
  rw [Serial.cycles, List.map_append, run_append, show run _ w _ = some w₁ from hearly,
    Option.bind_some] at hrun
  have hfires := (h.materialize (h.cycles hpromised hearly) now).2 r' hdue hreached
  exact @cycles_invariant settings _ w' late (fun db ↦ Fires db rid)
    (fun _ _ hfires ↦ hfires.materializeAll) hrun hfires

/-- In whatever state of a run it is created, and however the planner goes on from
there: a reminder that is archived, or taken up by a cycle beyond its first
moment, has an occurrence exactly if its schedule fires between its ends. -/
theorem create_agrees_with_planner {users : Table User} {categories : Table Category}
    {ops : List Operation} {w₁ w₂ : World} {now : ℤ} {ownerId : ℕ} {draft : Reminders.Draft}
    (hrun : run (perform settings) (.initial users categories) ops = some w)
    (hcreate : perform settings w (.create now ownerId draft) = some w₁)
    (hbudget : ∀ top, draft.maxOccurrences = some top → 1 ≤ top)
    (hcycles : Serial.cycles settings w₁ times = some w₂)
    (hover : (∃ r, w₂.db.reminders w.db.reminders.next = some r ∧ r.status = .archived) ∨
      ∃ first, firstFireAt draft.schedule draft.timezone (draft.startsAt.getD now) = some first ∧
        TakenUp settings w.db.reminders.next first w₁ times) :
    Fires w₂.db w.db.reminders.next ↔ ∃ m ∈ firings draft.schedule draft.timezone,
      draft.startsAt.getD now ≤ m ∧ ∀ e, draft.endsAt = some e → m ≤ e := by
  obtain ⟨db, hdb, rfl⟩ := over_eq_some hcreate
  obtain ⟨⟨first, hfirst⟩, howner⟩ := Reminders.gates_of_create hdb
  obtain ⟨-, rfl⟩ := Reminders.create_eq_ok hdb
  let r : Reminder := Reminders.reminderRow ownerId draft (draft.startsAt.getD now)
  have hrow : (w.db.reminders.writes (w.db.reminders.insert [r])) w.db.reminders.next = some r :=
    (Table.writes_insert ..).trans (by simp)
  have hunfired := (accounted_run hrun).none w.db.reminders.next (w.db.reminders.fresh _ le_rfl)
  have hself : IsReplanned r r := ⟨_, _, _, rfl, .inl rfl⟩
  constructor
  · intro hfires
    have hstart : Backed w.db.reminders.next r
        ((w.db.run (Db.Reminders.add r)).run (Recipients.add ⟨w.db.reminders.next, ownerId, .owner,
          some now⟩)) := ⟨⟨r, hrow, hself⟩, fun h ↦ absurd h (not_fires hunfired)⟩
    have hbacked := cycles_invariant (fun db now h ↦ h.materializeAll fun x hx ↦
      (Db.Reminders.mem_dueForPlanning hx).1) hcycles hstart
    obtain ⟨m, hm, hstart, hend⟩ := hbacked.2 hfires
    exact ⟨m, hm, hstart, hend⟩
  · rintro ⟨m, hm, hstart, hend⟩
    obtain ⟨⟨⟨hfires, hlow⟩, hleast⟩, hnear⟩ := firstFireAt_isLeast hfirst
    have hpromising : Promising r first := by
      refine ⟨⟨⟨hfires, hlow, fun e he ↦ (hleast ⟨hm, hstart⟩).trans (hend e he)⟩, ?_⟩, hnear, hbudget⟩
      exact fun m' hm' ↦ hleast ⟨hm'.1, hm'.2.1⟩
    have hnew : ∀ p, r.plannedUntil = some p → p < first := by
      intro p hp
      cases hp
    have hpromised : Promised w.db.reminders.next first r
        ((w.db.run (Db.Reminders.add r)).run (Recipients.add ⟨w.db.reminders.next, ownerId, .owner,
          some now⟩)) := .inr ⟨r, hself, hrow, rfl, howner, hnew, hunfired⟩
    rcases hover with ⟨r₁, hr₁, harchived⟩ | ⟨first', hfirst', htaken⟩
    · rcases hpromising.cycles hpromised hcycles with hfires | ⟨r₂, -, hawaits⟩
      · exact hfires
      · cases hr₁.symm.trans hawaits.row
        rw [hawaits.active] at harchived
        cases harchived
    · cases hfirst.symm.trans hfirst'
      exact hpromising.fires_of_takenUp hpromised htaken hcycles

end Cycles

section Sample

/-- Mondays at eight, from a Tuesday on. -/
def tuesdaysDraft (endsAt : ℤ) : Reminders.Draft :=
  { sampleDraft with startsAt := some (5 * day), endsAt := some endsAt }

/-- Up to the second Monday there is one. -/
theorem create_agrees_with_planner_nextWeek : ∃ w₁ w₂,
    perform sampleSettings (.initial sampleUsers sampleCategories)
      (.create (5 * day) 0 (tuesdaysDraft (12 * day))) = some w₁ ∧
    cycles sampleSettings w₁ [5 * day] = some w₂ ∧ (∃ r, w₂.db.reminders 0 = some r ∧
      r.status = .archived) ∧ Fires w₂.db 0 := by
  have hruns : (perform sampleSettings (.initial sampleUsers sampleCategories)
      (.create (5 * day) 0 (tuesdaysDraft (12 * day)))).any (fun w₁ ↦
        (cycles sampleSettings w₁ [5 * day]).any fun w₂ ↦
          (w₂.db.reminders 0).any fun r ↦ decide (r.status = .archived)) = true := by
    decide +kernel
  obtain ⟨w₁, hcreate, hruns⟩ := (Option.any_eq_true _ _).mp hruns
  obtain ⟨w₂, hcycles, hruns⟩ := (Option.any_eq_true _ _).mp hruns
  obtain ⟨r, hr, harchived⟩ := (Option.any_eq_true _ _).mp hruns
  have hover := of_decide_eq_true harchived
  have hmonday : firstFireAt (weeklyFrom 4 (.oclock 8)) Zone.utc (5 * day) =
      some (11 * day + 8 * hour) := by
    decide +kernel
  obtain ⟨⟨⟨hfires, hlow⟩, -⟩, -⟩ := firstFireAt_isLeast hmonday
  have hrun : run (perform sampleSettings) (.initial sampleUsers sampleCategories) [] =
      some (.initial sampleUsers sampleCategories) := rfl
  have hbudget : ∀ top, (tuesdaysDraft (12 * day)).maxOccurrences = some top → 1 ≤ top := by
    intro top htop
    cases htop
  refine ⟨w₁, w₂, hcreate, hcycles, ⟨r, hr, hover⟩, ?_⟩
  refine (create_agrees_with_planner hrun hcreate hbudget hcycles (.inl ⟨r, hr, hover⟩)).mpr
    ⟨_, hfires, hlow, fun e he ↦ ?_⟩
  cases he
  decide

/-- Up to Wednesday there is none: the reminder is archived without having fired. -/
theorem mondays_never_fire : ∃ w₁ w₂ r,
    perform sampleSettings (.initial sampleUsers sampleCategories)
      (.create (5 * day) 0 (tuesdaysDraft (6 * day))) = some w₁ ∧
    cycles sampleSettings w₁ [5 * day] = some w₂ ∧ w₂.db.reminders 0 = some r ∧
      r.status = .archived ∧ ¬Fires w₂.db 0 := by
  have hruns : (perform sampleSettings (.initial sampleUsers sampleCategories)
      (.create (5 * day) 0 (tuesdaysDraft (6 * day)))).any (fun w₁ ↦
        (cycles sampleSettings w₁ [5 * day]).any fun w₂ ↦
          decide (countForReminder w₂.db 0 = 0) &&
            (w₂.db.reminders 0).any fun r ↦ decide (r.status = .archived)) = true := by
    decide +kernel
  obtain ⟨w₁, hcreate, hruns⟩ := (Option.any_eq_true _ _).mp hruns
  obtain ⟨w₂, hcycles, hruns⟩ := (Option.any_eq_true _ _).mp hruns
  rw [Bool.and_eq_true, decide_eq_true_eq] at hruns
  obtain ⟨r, hr, harchived⟩ := (Option.any_eq_true _ _).mp hruns.2
  exact ⟨w₁, w₂, r, hcreate, hcycles, hr, of_decide_eq_true harchived, not_fires hruns.1⟩

end Sample

end Remindo.Serial
