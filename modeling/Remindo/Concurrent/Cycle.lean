import Remindo.Concurrent.System

namespace Remindo.Concurrent

open Remindo.Domain Remindo.Db Remindo.Services Remindo.Foundation Remindo.Foundation.ReadCommitted

namespace Materializing

/-- The reminder fires at the occurrence. -/
def Fires (r : ℕ × Reminder) (o : Occurrence) : Prop :=
  o.reminderId = r.1 ∧ o.scheduledFor ∈ firings r.2.schedule r.2.timezone

/-- The occurrence is one of those the turn has put in. -/
def Turn.Plans (turn : Turn) (before : ℕ) (o : Occurrence) : Prop :=
  o.reminderId = turn.current.1 ∧ o.scheduledFor ∈ turn.moments before

namespace Stage

/-- The reminders the cycle is through with, is at, and is coming to. -/
def batch : Stage → List (ℕ × Reminder)
  | .next _ done rest => done ++ rest
  | .owned turn _ | .counted turn _ _ | .inserted turn _ _ | .joined turn _ _ _
  | .listed turn _ _ _ | .settling turn _ _ | .settled turn _ =>
    turn.done ++ turn.current :: turn.rest

/-- The reminders whose recipients the cycle has read. -/
def passed : Stage → List ℕ
  | .next _ done _ => done.map Prod.fst
  | .owned turn _ | .counted turn _ _ | .inserted turn _ _ => turn.done.map Prod.fst
  | .joined turn _ _ _ | .listed turn _ _ _ | .settling turn _ _ | .settled turn _ =>
    turn.current.1 :: turn.done.map Prod.fst

/-- What the cycle may have put in so far. -/
def Plans : Stage → Occurrence → Prop
  | .next _ done _, o => ∃ r ∈ done, Fires r o
  | .owned turn _, o | .counted turn _ _, o => ∃ r ∈ turn.done, Fires r o
  | .inserted turn before _, o | .joined turn before _ _, o =>
    (∃ r ∈ turn.done, Fires r o) ∨ turn.Plans before o
  | .listed turn _ _ _, o | .settling turn _ _, o | .settled turn _, o =>
    ∃ r ∈ turn.current :: turn.done, Fires r o

end Stage

theorem Turn.Plans.fires {turn : Turn} {before : ℕ} {o : Occurrence} (h : turn.Plans before o) :
    Fires turn.current o := ⟨h.1, (admits_of_mem_expand h.2).1⟩

/-- A cycle keeps what is committed, and what it adds is planned. -/
structure Cycle (view committed : Rows) (r : Stage) : Prop where
  nodup : (r.batch.map Prod.fst).Nodup
  occurrences : ∀ i o, committed.occurrences i = some o → view.occurrences i = some o
  deliveries : ∀ i d, committed.deliveries i = some d → view.deliveries i = some d
  plans : ∀ i o, view.occurrences i = some o → committed.occurrences i = none → r.Plans o

section Moves

variable {settings : Planning.Settings} {db : Database} {view committed view' committed' : Rows}
  {w : Writes} {held shared awaited : List Lock} {now : ℤ} {r : Stage} {next : Option Stage}

/-- The planner adds rows, and changes none of the queue. -/
structure Adds (db : Database) (w : Writes) : Prop where
  occurrences : ∀ i o, db.occurrences i = some o → (apply db w).occurrences i = some o
  deliveries : ∀ i d, db.deliveries i = some d → (apply db w).deliveries i = some d
  actions : w.actions = []

theorem Adds.of_nil (hoccurrences : w.occurrences = []) (hdeliveries : w.deliveries = [])
    (hactions : w.actions = []) : Adds db w where
  occurrences i o ho := by simpa [apply, hoccurrences] using ho
  deliveries i d hd := by simpa [apply, hdeliveries] using hd
  actions := hactions

theorem start_adds (h : start settings now db = .exec w held shared awaited next) :
    ∃ r, next = some r ∧ Adds db w := by
  cases h
  exact ⟨_, rfl, .of_nil rfl rfl rfl⟩

theorem move_adds (h : move settings r db = .exec w held shared awaited next) :
    ∃ r', next = some r' ∧ Adds db w := by
  cases r with
  | next horizonEnd done rest =>
    cases rest with
    | nil => cases h
    | cons r rest =>
      rw [move] at h
      split at h <;> cases h <;> exact ⟨_, rfl, .of_nil rfl rfl rfl⟩
  | owned turn owner =>
    cases h
    exact ⟨_, rfl, .of_nil rfl rfl rfl⟩
  | counted turn owner before =>
    cases h
    exact ⟨_, rfl, fun i o ho ↦ Table.insertMissing_kept ho, fun i d hd ↦ hd, rfl⟩
  | inserted turn before firedCount =>
    rw [move] at h
    split at h <;> cases h <;> exact ⟨_, rfl, .of_nil rfl rfl rfl⟩
  | joined turn before firedCount userIds =>
    cases h
    exact ⟨_, rfl, .of_nil rfl rfl rfl⟩
  | listed turn before firedCount rows =>
    obtain ⟨rfl, rfl⟩ := enqueue_eq_exec h
    exact ⟨_, rfl, fun i o ho ↦ ho, fun i d hd ↦ Table.insertMissing_kept hd, rfl⟩
  | settling turn before firedCount =>
    cases h
    exact ⟨_, rfl, .of_nil rfl rfl rfl⟩
  | settled turn exhausted =>
    rw [move] at h
    split at h <;> cases h <;> exact ⟨_, rfl, .of_nil rfl rfl rfl⟩

theorem move_commit (h : move settings r db = .commit next) :
    ∃ horizonEnd done, r = .next horizonEnd done [] := by
  revert h
  fun_cases move settings r db <;> intro h <;> first
    | exact ⟨_, _, rfl⟩
    | cases h
    | (rw [enqueue] at h; split at h <;> cases h)

theorem move_recipients (h : move settings r db = .exec w held shared awaited next) :
    w.recipients = [] := by
  revert h
  fun_cases move settings r db <;> intro h <;> first
    | exact (Move.exec.inj h).1 ▸ rfl
    | obtain ⟨rfl, -⟩ := enqueue_eq_exec h; rfl
    | cases h

/-- Reminders leave a batch, or move up in it; none comes in. -/
theorem move_batch {r' : Stage} (h : move settings r db = .exec w held shared awaited (some r'))
    (hnodup : (r.batch.map Prod.fst).Nodup) :
    (r'.batch.map Prod.fst).Nodup ∧ r'.batch ⊆ r.batch := by
  have hfinish : ∀ turn : Turn, turn.finish.batch.Perm (turn.done ++ turn.current :: turn.rest) :=
    fun turn ↦ List.perm_middle.symm
  cases r with
  | next horizonEnd done rest =>
    cases rest with
    | nil => cases h
    | cons x rest =>
      rw [move] at h
      split at h
      · cases h
        have hsub : (done ++ rest).Sublist (done ++ x :: rest) :=
          (List.sublist_cons_self x rest).append_left done
        exact ⟨hnodup.sublist (hsub.map _), hsub.subset⟩
      · cases h
        exact ⟨hnodup, List.Subset.refl _⟩
  | owned turn owner =>
    cases h
    exact ⟨hnodup, List.Subset.refl _⟩
  | counted turn owner before =>
    cases h
    exact ⟨hnodup, List.Subset.refl _⟩
  | inserted turn before firedCount =>
    rw [move] at h
    split at h <;> cases h <;> exact ⟨hnodup, List.Subset.refl _⟩
  | joined turn before firedCount userIds =>
    cases h
    exact ⟨hnodup, List.Subset.refl _⟩
  | listed turn before firedCount rows =>
    obtain ⟨rfl, hnext⟩ := enqueue_eq_exec h
    cases hnext
    exact ⟨hnodup, List.Subset.refl _⟩
  | settling turn before firedCount =>
    cases h
    exact ⟨hnodup, List.Subset.refl _⟩
  | settled turn exhausted =>
    have hperm := hfinish turn
    rw [move] at h
    split at h <;> cases h <;>
      exact ⟨(hperm.map _).nodup_iff.mpr hnodup, hperm.subset⟩

/-- What a statement of the cycle adds is planned by then. -/
theorem move_plans {r' : Stage} (h : move settings r db = .exec w held shared awaited (some r'))
    {i : ℕ} {o : Occurrence} (ho : (apply db w).occurrences i = some o) :
    db.occurrences i = some o ∧ (r.Plans o → r'.Plans o) ∨ r'.Plans o := by
  cases r with
  | next horizonEnd done rest =>
    cases rest with
    | nil => cases h
    | cons x rest =>
      rw [move] at h
      split at h <;> cases h <;> exact .inl ⟨ho, id⟩
  | owned turn owner =>
    cases h
    exact .inl ⟨ho, id⟩
  | counted turn owner before =>
    cases h
    rcases Table.insertMissing_some ho with hold | ⟨-, hmem, -⟩
    · exact .inl ⟨hold, .inl⟩
    · obtain ⟨m, hm, rfl⟩ := List.mem_map.mp hmem
      exact .inr (.inr ⟨rfl, hm⟩)
  | inserted turn before firedCount =>
    have hfires : (∃ r ∈ turn.done, Fires r o) ∨ turn.Plans before o →
        ∃ r ∈ turn.current :: turn.done, Fires r o := by
      intro hplans
      rcases hplans with ⟨r, hr, hfires⟩ | hplans
      · exact ⟨r, List.mem_cons_of_mem _ hr, hfires⟩
      · exact ⟨_, List.mem_cons_self, hplans.fires⟩
    rw [move] at h
    split at h
    · cases h
      exact .inl ⟨ho, hfires⟩
    · cases h
      exact .inl ⟨ho, id⟩
  | joined turn before firedCount userIds =>
    cases h
    refine .inl ⟨ho, fun hplans ↦ ?_⟩
    rcases hplans with ⟨r, hr, hfires⟩ | hplans
    · exact ⟨r, List.mem_cons_of_mem _ hr, hfires⟩
    · exact ⟨_, List.mem_cons_self, hplans.fires⟩
  | listed turn before firedCount rows =>
    obtain ⟨rfl, hnext⟩ := enqueue_eq_exec h
    cases hnext
    exact .inl ⟨ho, id⟩
  | settling turn before firedCount =>
    cases h
    exact .inl ⟨ho, id⟩
  | settled turn exhausted =>
    rw [move] at h
    split at h <;> cases h <;> exact .inl ⟨ho, id⟩

theorem Cycle.ne_current {turn : Turn} (h : Cycle view committed r)
    (hbatch : r.batch = turn.done ++ turn.current :: turn.rest) {x : ℕ × Reminder}
    (hx : x ∈ turn.done ∨ x ∈ turn.rest) : x.1 ≠ turn.current.1 := by
  have hnodup := h.nodup
  rw [hbatch, (List.perm_middle.map Prod.fst).nodup_iff, List.map_cons, List.nodup_cons] at hnodup
  exact fun heq ↦ hnodup.1 (heq ▸ List.mem_map_of_mem (List.mem_append.mpr hx))

theorem Cycle.current_notMem {turn : Turn} (h : Cycle view committed r)
    (hbatch : r.batch = turn.done ++ turn.current :: turn.rest) :
    turn.current.1 ∉ turn.done.map Prod.fst := by
  intro hmem
  obtain ⟨x, hx, heq⟩ := List.mem_map.mp hmem
  exact h.ne_current hbatch (.inl hx) heq

theorem Cycle.start (h : start settings now db = .exec w held shared awaited next) :
    ∃ r, next = some r ∧ Cycle (apply db w).rows db.rows r := by
  cases h
  refine ⟨_, rfl, Db.Reminders.nodup_dueForPlanning _ _ _, fun i o ho ↦ ho, fun i d hd ↦ hd,
    fun i o ho hnone ↦ ?_⟩
  cases ho.symm.trans hnone

theorem Cycle.exec (h : Cycle db.rows committed r)
    (hmove : move settings r db = .exec w held shared awaited next) :
    ∃ r', next = some r' ∧ Cycle (apply db w).rows committed r' := by
  obtain ⟨r', rfl, hadds⟩ := move_adds hmove
  refine ⟨r', rfl, (move_batch hmove h.nodup).1, fun i o ho ↦ ?_, fun i d hd ↦ ?_,
    fun i o ho hnone ↦ ?_⟩
  · exact hadds.occurrences i o (h.occurrences i o ho)
  · exact hadds.deliveries i d (h.deliveries i d hd)
  · rcases move_plans hmove ho with ⟨hold, hplans⟩ | hplans
    · exact hplans (h.plans i o hold hnone)
    · exact hplans

theorem Cycle.beside (h : Cycle view committed r) (hbeside : Beside view committed view' committed') :
    Cycle view' committed' r := by
  refine ⟨h.nodup, fun i o ho ↦ ?_, fun i d hd ↦ ?_, fun i o ho hnone ↦ ?_⟩
  · rcases hbeside.occurrences i with ⟨hview, hcommitted⟩ | ⟨hview, -⟩
    · exact hview.trans (h.occurrences i o (hcommitted.symm.trans ho))
    · exact hview.trans ho
  · rcases hbeside.deliveries i with ⟨hview, hcommitted⟩ | ⟨hview, -⟩
    · exact hview.trans (h.deliveries i d (hcommitted.symm.trans hd))
    · exact hview.trans hd
  · rcases hbeside.occurrences i with ⟨hview, hcommitted⟩ | ⟨hview, -⟩
    · exact h.plans i o (hview.symm.trans ho) (hcommitted.symm.trans hnone)
    · cases ho.symm.trans (hview.trans hnone)

end Moves

end Materializing

/-- Where the planner stands in a session. -/
def Stage.cycle : Stage → Option Materializing.Stage
  | .materializing r => some r
  | _ => none

end Remindo.Concurrent
