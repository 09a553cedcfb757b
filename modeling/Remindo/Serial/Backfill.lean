import Remindo.Serial.Watermark

namespace Remindo.Serial

open Remindo.Domain Remindo.Db Remindo.Services Remindo.Foundation
open Remindo.Services.Planning (Materialised BudgetSpent lifetime)

namespace Operation

/-- The reminder whose status or schedule an operation sets. -/
def reschedules : Operation → Option ℕ
  | .setStatus _ _ rid _ => some rid
  | .update _ _ rid change => if change.schedule.isSome then some rid else none
  | _ => none

/-- The reminder an operation resumes or gives another schedule. -/
def restarts : Operation → Option ℕ
  | .setStatus _ _ rid .active => some rid
  | .update _ _ rid change => if change.schedule.isSome then some rid else none
  | _ => none

/-- The occurrences such an operation leaves in place. -/
def keeps (db : Database) : Operation → ℕ → Occurrence → Bool
  | .update _ _ rid _ => fun i o ↦ !Occurrences.isUnsent db rid i o
  | _ => fun _ _ ↦ true

def leaves (r : Reminder) : Operation → Reminder
  | .setStatus _ _ _ status => { r with status := status }
  | .update _ _ _ change => Reminders.changed change r
  | _ => r

/-- A restart that leaves a reminder active finds, among the occurrences it
keeps, every firing of the past, or the whole budget. -/
def NothingMissed (w : World) (op : Operation) : Prop :=
  ∀ rid r, op.restarts = some rid → w.db.reminders rid = some r → (op.leaves r).status = .active →
    (∃ top, r.maxOccurrences = some top ∧ top ≤ (w.db.occurrences.select fun i o ↦
      decide (o.reminderId = rid) && op.keeps w.db i o).length) ∨
    ∀ m ∈ lifetime (op.leaves r), m < op.now →
      ∃ i o, w.db.occurrences i = some o ∧ o.key = (rid, m) ∧ op.keeps w.db i o = true

theorem reschedules_of_restarts {op : Operation} {rid : ℕ} (h : op.restarts = some rid) :
    op.reschedules = some rid := by
  cases op with
  | setStatus now ownerId rid' status =>
    cases status with
    | active => exact h
    | paused | archived => cases h
  | update => exact h
  | _ => cases h

end Operation

/-- A planner cycle comes before the reminder is paused, archived, resumed or
given another schedule. -/
def plannedNext (rid : ℕ) : List Operation → Bool
  | [] => false
  | .materialize _ :: _ => true
  | op :: rest => decide (op.reschedules ≠ some rid) && plannedNext rid rest

theorem plannedNext_cons {rid : ℕ} {op : Operation} {rest : List Operation}
    (hop : op.reschedules ≠ some rid) (hrest : plannedNext rid rest = true) :
    plannedNext rid (op :: rest) = true := by
  have hnext : (decide (op.reschedules ≠ some rid) && plannedNext rid rest) = true := by
    rw [decide_eq_true hop, hrest]
    rfl
  cases op with
  | materialize => rfl
  | _ => exact hnext

theorem plannedNext_of_restarts {rid : ℕ} {op : Operation} {rest : List Operation}
    (hop : op.restarts = some rid) : plannedNext rid (op :: rest) = false := by
  have hnext : (decide (op.reschedules ≠ some rid) && plannedNext rid rest) = false := by
    rw [Operation.reschedules_of_restarts hop]
    simp
  cases op with
  | materialize => cases hop
  | _ => exact hnext

/-- Every restart of a run that a cycle acts on misses nothing. -/
def MissesNothing (settings : Settings) (w₀ : World) (ops : List Operation) : Prop :=
  ∀ before op after rid w, ops = before ++ op :: after →
    run (perform settings) w₀ before = some w → op.restarts = some rid →
      plannedNext rid after = true → op.NothingMissed w

/-- The reminder has caught up with the moment `r`: as long as it is active,
no earlier firing of its is missing, unless the budget is gone. -/
def Caught (rid : ℕ) (r : ℤ) (w : World) : Prop :=
  ∃ row, w.db.reminders rid = some row ∧ (row.status = .active →
    BudgetSpent w.db rid row ∨ ∀ m ∈ lifetime row, m < r → Materialised w.db rid m)

section Steps

variable {settings : Settings} {w w' : World} {op : Operation} {rid : ℕ} {r : ℤ}

theorem Caught.anti {r' : ℤ} (h : Caught rid r' w) (hle : r ≤ r') : Caught rid r w := by
  obtain ⟨row, hrow, hcaught⟩ := h
  exact ⟨row, hrow, fun hactive ↦ (hcaught hactive).imp_right
    fun hall m hm hlt ↦ hall m hm (hlt.trans_le hle)⟩

theorem Caught.congr {db : Database} (h : Caught rid r w) {row : Reminder}
    (hrow : w.db.reminders rid = some row) (row' : Reminder) (hrow' : db.reminders rid = some row')
    (hlife : lifetime row' = lifetime row) (hmax : row'.maxOccurrences = row.maxOccurrences)
    (hactive : row'.status = .active → row.status = .active)
    (hkept : ∀ m, Materialised w.db rid m → Materialised db rid m)
    (hcount : Occurrences.countForReminder w.db rid ≤ Occurrences.countForReminder db rid) :
    Caught rid r { w with db := db } := by
  obtain ⟨row₁, hrow₁, hcaught⟩ := h
  obtain rfl := Option.some_inj.mp (hrow.symm.trans hrow₁)
  refine ⟨row', hrow', fun hstatus ↦ ?_⟩
  rcases hcaught (hactive hstatus) with ⟨top, htop, hle⟩ | hall
  · exact .inl ⟨top, hmax.trans htop, hle.trans hcount⟩
  · rw [hlife]
    exact .inr fun m hm hlt ↦ hkept m (hall m hm hlt)

theorem Caught.updateFields (h : Caught rid r w) {rid' : ℕ} {values : Reminder → Reminder}
    (hvalues : rid = rid' → ∀ row, lifetime (values row) = lifetime row ∧
      (values row).maxOccurrences = row.maxOccurrences ∧
      ((values row).status = .active → row.status = .active)) :
    Caught rid r { w with db := w.db.run (Db.Reminders.updateFields rid' values) } := by
  have hrow := h
  obtain ⟨row, hrow, -⟩ := hrow
  by_cases hrid : rid = rid'
  · obtain ⟨hlife, hmax, hactive⟩ := hvalues hrid row
    refine h.congr hrow (values row) ?_ hlife hmax hactive (fun m hm ↦ hm) le_rfl
    rw [Db.Reminders.reminders_updateFields, if_pos hrid, ← hrid, hrow, Option.map_some]
  · refine h.congr hrow row ?_ rfl rfl id (fun m hm ↦ hm) le_rfl
    rw [Db.Reminders.reminders_updateFields, if_neg hrid, hrow]

theorem Caught.dropQueued (h : Caught rid r w) {rid' : ℕ} (hne : rid ≠ rid') (row' : Reminder) :
    Caught rid r { w with db := Reminders.dropQueued rid' row' w.db } := by
  have hrow := h
  obtain ⟨row, hrow, -⟩ := hrow
  refine h.congr hrow row ?_ rfl rfl id
    (fun m hm ↦ Reminders.dropQueued_materialised hne hm) (Reminders.dropQueued_count hne).ge
  rw [Reminders.dropQueued_reminders, if_neg hne, hrow]

theorem caught_of_restart (hop : op.restarts = some rid) (hmissed : op.NothingMissed w)
    (h : perform settings w op = some w') : Caught rid op.now w' := by
  cases op with
  | setStatus now ownerId rid' status =>
    cases status with
    | active =>
      cases hop
      obtain ⟨db', hdb, rfl⟩ := over_eq_some h
      obtain ⟨row, hrow, rfl⟩ := Reminders.setStatus_eq_ok hdb
      have hrow := (Reminders.getEditable_eq_ok hrow).1
      refine ⟨{ row with status := .active }, ?_, fun hactive ↦ ?_⟩
      · change (w.db.run (Db.Reminders.setStatus rid .active)).reminders rid = _
        rw [Db.Reminders.setStatus, Db.Reminders.reminders_updateFields, if_pos rfl, hrow]
        rfl
      · rcases hmissed rid row rfl hrow rfl with ⟨top, htop, hcount⟩ | hall
        · refine .inl ⟨top, htop, hcount.trans (le_of_eq ?_)⟩
          exact Table.length_select_congr fun i ↦ by simp [Operation.keeps]; rfl
        · refine .inr fun m hm hlt ↦ ?_
          obtain ⟨i, o, ho, hkey, -⟩ := hall m hm hlt
          exact ⟨i, o, ho, hkey⟩
    | paused | archived => cases hop
  | update now ownerId rid' change =>
    simp only [Operation.restarts] at hop
    split at hop
    · rename_i hsome
      cases hop
      obtain ⟨db', hdb, rfl⟩ := over_eq_some h
      obtain ⟨row, hrow, -, rfl⟩ := Reminders.update_eq_ok hdb
      have hrow := (Reminders.getEditable_eq_ok hrow).1
      obtain ⟨fired, hdropped⟩ := Reminders.dropQueued_row (r := row) hrow
      rw [if_pos hsome]
      refine ⟨Reminders.changed change { row with plannedUntil := none, firedCount := fired }, ?_,
        fun hactive ↦ ?_⟩
      · change ((Reminders.dropQueued rid row w.db).run (Db.Reminders.updateFields rid
          (Reminders.changed change))).reminders rid = _
        rw [Db.Reminders.reminders_updateFields, if_pos rfl, hdropped]
        rfl
      · rcases hmissed rid row (by rw [Operation.restarts, if_pos hsome]) hrow hactive with
          ⟨top, htop, hcount⟩ | hall
        · refine .inl ⟨top, htop, hcount.trans (le_of_eq ?_)⟩
          refine Table.length_select_congr fun i ↦ ?_
          change _ = ((Reminders.dropQueued rid row w.db).occurrences i).any _
          rw [Reminders.dropQueued_occurrences]
          cases ho : w.db.occurrences i with
          | none => rfl
          | some o =>
            rw [Option.filter_some]
            cases hkeep : Occurrences.isUnsent w.db rid i o <;>
              simp [Operation.keeps, hkeep]
        · refine .inr fun m hm hlt ↦ ?_
          obtain ⟨i, o, ho, hkey, hkeep⟩ := hall m hm hlt
          have hkept : Planning.Materialised (Reminders.dropQueued rid row w.db) rid m :=
            ⟨i, o, Reminders.dropQueued_kept row ho (by simpa [Operation.keeps] using hkeep), hkey⟩
          exact hkept
    · cases hop
  | _ => cases hop

/-- Whatever is not active has nothing to catch up with. -/
theorem caught_of_stop {now : ℤ} {ownerId : ℕ} {status : ReminderStatus}
    (hstatus : status ≠ .active)
    (h : perform settings w (.setStatus now ownerId rid status) = some w') : Caught rid r w' := by
  obtain ⟨db', hdb, rfl⟩ := over_eq_some h
  obtain ⟨row, hrow, rfl⟩ := Reminders.setStatus_eq_ok hdb
  have hrow := (Reminders.getEditable_eq_ok hrow).1
  rw [if_neg hstatus]
  obtain ⟨fired, hdropped⟩ := Reminders.dropQueued_row (r := row) hrow
  refine ⟨{ row with plannedUntil := none, firedCount := fired, status := status }, ?_,
    fun hactive ↦ absurd hactive hstatus⟩
  change ((Reminders.dropQueued rid row w.db).run
    (Db.Reminders.setStatus rid status)).reminders rid = _
  rw [Db.Reminders.setStatus, Db.Reminders.reminders_updateFields, if_pos rfl, hdropped]
  rfl

theorem caught_perform (hop : op.reschedules ≠ some rid) (hcaught : Caught rid r w)
    (h : perform settings w op = some w') : Caught rid r w' := by
  obtain ⟨row, hrow, hrest⟩ := hcaught
  have hcaught : Caught rid r w := ⟨row, hrow, hrest⟩
  by_cases hmoves : op.movesCalendar = false
  · have hsame := sameCalendar_perform hmoves h
    refine hcaught.congr hrow row ?_ rfl rfl id (fun m hm ↦ hsame.materialised.mpr hm)
      hsame.countForReminder.ge
    rw [hsame.1, hrow]
  cases op with
  | create now ownerId draft =>
    obtain ⟨db', hdb, rfl⟩ := over_eq_some h
    obtain ⟨-, rfl⟩ := Reminders.create_eq_ok hdb
    refine hcaught.congr hrow row ?_ rfl rfl id (fun m hm ↦ hm) le_rfl
    change w.db.reminders.writes (w.db.reminders.insert [_]) rid = some row
    rw [Table.writes_insert, if_pos (Table.lt_next hrow), hrow]
  | materialize now =>
    cases h
    obtain ⟨row', hrow', hlife, hmax, hactive⟩ := Planning.materializeAll_reminders hrow
    exact hcaught.congr hrow row' hrow' hlife hmax hactive (fun m hm ↦ hm.materializeAll)
      Planning.countForReminder_le_materializeAll
  | setStatus now ownerId rid' status =>
    have hrid : rid ≠ rid' := fun heq ↦ hop (congrArg some heq.symm)
    obtain ⟨db', hdb, rfl⟩ := over_eq_some h
    obtain ⟨row', -, rfl⟩ := Reminders.setStatus_eq_ok hdb
    split
    · exact hcaught.updateFields fun heq ↦ absurd heq hrid
    · exact (hcaught.dropQueued hrid row').updateFields fun heq ↦ absurd heq hrid
  | update now ownerId rid' change =>
    obtain ⟨db', hdb, rfl⟩ := over_eq_some h
    obtain ⟨row', hrow', -, rfl⟩ := Reminders.update_eq_ok hdb
    split
    · rename_i hsome
      have hrid : rid ≠ rid' := fun heq ↦ hop (by rw [heq, Operation.reschedules, if_pos hsome])
      exact (hcaught.dropQueued hrid row').updateFields fun heq ↦ absurd heq hrid
    · rename_i hsome
      have hschedule : change.schedule = none := by simpa using hsome
      refine hcaught.updateFields fun _ row ↦ ⟨?_, rfl, id⟩
      have hsame : (Reminders.changed change row).schedule = row.schedule := by
        rw [Reminders.changed, hschedule, Option.getD_none]
      rw [lifetime, lifetime, hsame]
      rfl
  | _ => exact absurd rfl hmoves

/-- Before a cycle, a step keeps the reminder caught up, whatever it was when
no cycle was to come. -/
theorem caught_step {rest : List Operation}
    (hmissed : op.restarts = some rid → op.NothingMissed w) (hle : r ≤ op.now)
    (hcaught : plannedNext rid (op :: rest) = true → Caught rid r w)
    (hnext : plannedNext rid rest = true) (h : perform settings w op = some w') :
    Caught rid r w' := by
  by_cases hrestart : op.restarts = some rid
  · exact (caught_of_restart hrestart (hmissed hrestart) h).anti hle
  by_cases hop : op.reschedules = some rid
  · cases op with
    | setStatus now ownerId rid' status =>
      cases hop
      exact caught_of_stop (fun hstatus ↦ hrestart (by rw [hstatus]; rfl)) h
    | update => exact absurd hop hrestart
    | _ => cases hop
  · exact caught_perform hop (hcaught (plannedNext_cons hop hnext)) h

theorem caught_run {w₀ w₁ : World} {ops before after todo : List Operation}
    (hmissed : MissesNothing settings w₀ ops) (hops : ops = before ++ (after ++ todo))
    (hbefore : run (perform settings) w₀ before = some w₁) (hle : ∀ op ∈ after, r ≤ op.now)
    (hcaught : plannedNext rid (after ++ todo) = true → Caught rid r w₁)
    (hrun : run (perform settings) w₁ after = some w) (hnext : plannedNext rid todo = true) :
    Caught rid r w := by
  induction after generalizing before w₁ with
  | nil =>
    cases hrun
    exact hcaught hnext
  | cons op after ih =>
    obtain ⟨w₂, hop, hrun⟩ := Option.bind_eq_some_iff.mp hrun
    have hlater := fun op hmem ↦ hle op (List.mem_cons_of_mem _ hmem)
    have hdone : run (perform settings) w₀ (before ++ [op]) = some w₂ := by
      rw [run_append, hbefore, Option.bind_some, run, hop]
      rfl
    refine ih (by rw [hops, List.cons_append, List.append_assoc]; rfl) hdone hlater ?_ hrun
    intro hplanned
    exact caught_step (fun hrestart ↦ hmissed before op _ rid w₁ hops hbefore hrestart hplanned)
      (hle op List.mem_cons_self) hcaught hplanned hop

end Steps

/-- Of this reminder, the step from `w` to `w'` inserts nothing before `r`. -/
def InsertsFrom (rid : ℕ) (r : ℤ) (w w' : World) : Prop :=
  ∀ i o, w'.db.occurrences i = some o → w.db.occurrences i = none → o.reminderId = rid →
    r ≤ o.scheduledFor

section Runs

variable {settings : Settings} {users : Table User} {categories : Table Category}
    (before after : List Operation)
  (op : Operation) {w w' : World} {now : ℤ} {rid : ℕ}

theorem insertsFrom_of_caught {r : ℤ} (hcaught : Caught rid r w)
    (h : perform settings w (.materialize now) = some w') : InsertsFrom rid r w w' := by
  cases h
  intro i o ho hnew hrid
  rcases Planning.materializeAll_some ho with hold | ⟨-, -, ⟨rid', row⟩, hdue, m, hm, hkey, hmissing,
    hbudget⟩
  · rw [hnew] at hold
    cases hold
  · cases hkey
    subst hrid
    obtain ⟨hrow, hdue⟩ := Db.Reminders.mem_dueForPlanning hdue
    simp only [Db.Reminders.isDue, Bool.and_eq_true, decide_eq_true_eq] at hdue
    obtain ⟨row', hrow', hall⟩ := hcaught
    obtain rfl := Option.some_inj.mp (hrow.symm.trans hrow')
    by_contra hpast
    exact hmissing ((hall hdue.1.1).resolve_left hbudget _ hm (not_le.mp hpast))

/-- When no restart that a cycle acts on leaves a reminder with a past it has not
fired, no cycle after a restart fires what lay before it. -/
theorem no_backfill
    (hmissed : MissesNothing settings (.initial users categories)
      (before ++ op :: after ++ [.materialize now]))
    (hclock : (before ++ op :: after).Pairwise fun a b ↦ a.now ≤ b.now)
    (hrun : run (perform settings) (.initial users categories) (before ++ op :: after) = some w)
    (hrestart : op.restarts = some rid)
    (h : perform settings w (.materialize now) = some w') : InsertsFrom rid op.now w w' := by
  have hops : before ++ op :: after ++ [.materialize now] =
      before ++ (op :: after ++ [.materialize now]) := List.append_assoc ..
  rw [run_append] at hrun
  obtain ⟨w₁, hbefore, hrun⟩ := Option.bind_eq_some_iff.mp hrun
  have hlater := (List.pairwise_cons.mp (List.pairwise_append.mp hclock).2.1).1
  have hcaught : Caught rid op.now w := by
    refine caught_run hmissed hops hbefore (fun op' hop' ↦ ?_) (fun hplanned ↦ ?_) hrun rfl
    · rcases List.mem_cons.mp hop' with rfl | hop'
      · exact le_rfl
      · exact hlater op' hop'
    · rw [List.cons_append, plannedNext_of_restarts hrestart] at hplanned
      cases hplanned
  exact insertsFrom_of_caught hcaught h

end Runs

section Sample

/-- A restart no later than the first moment of the reminder. -/
def Operation.Early (w : World) (op : Operation) : Prop :=
  ∀ rid ∈ op.restarts, ∀ r ∈ w.db.reminders rid, op.now ≤ r.startsAt

instance (w : World) (op : Operation) : Decidable (op.Early w) :=
  inferInstanceAs (Decidable (∀ _ ∈ _, ∀ _ ∈ _, _))

theorem Operation.NothingMissed.of_early {w : World} {op : Operation} (h : op.Early w) :
    op.NothingMissed w := by
  intro rid r hrestart hr _
  have hstart : (op.leaves r).startsAt = r.startsAt := by cases op <;> rfl
  have hearly := h rid hrestart r hr
  refine .inr fun m hm hlt ↦ absurd hm.2.1 ?_
  change ¬(op.leaves r).startsAt ≤ m
  omega

theorem MissesNothing.of_early {settings : Settings} {w₀ : World} {ops : List Operation}
    (h : Guarded (perform settings) (fun w op ↦ Operation.Early w op) w₀ ops) :
    MissesNothing settings w₀ ops := by
  rintro before op after rid w rfl hbefore - -
  exact .of_early (h.append_right hbefore).1

/-- Planned, paused, resumed and edited, all before its first moment. -/
def earlyLife : List Operation :=
  [.create 0 0 { sampleDraft with startsAt := some (5 * day) }, .materialize 0,
    .setStatus day 0 0 .paused, .setStatus (3 * day) 0 0 .active, .materialize (3 * day),
    .update (4 * day) 0 0 ⟨none, some (weeklyFrom 6 (.oclock 9)), none, none, false⟩]

theorem earlyLife_runs :
    (run (perform sampleSettings) (.initial sampleUsers sampleCategories) earlyLife).isSome = true := by
  decide +kernel

theorem no_backfill_sample :
    let w :=
      (run (perform sampleSettings) (.initial sampleUsers sampleCategories) earlyLife).get
        earlyLife_runs
    InsertsFrom 0 (3 * day) w
      { w with db := Planning.materialize sampleSettings.planning (5 * day) w.db } :=
  no_backfill (earlyLife.take 3) (earlyLife.drop 4) (.setStatus (3 * day) 0 0 .active)
    (.of_early (show Guarded _ _ _ (earlyLife ++ [.materialize (5 * day)]) by decide +kernel))
    (by decide) (Option.some_get _).symm rfl rfl

/-- A reminder paused over three weeks of its firings and then resumed. -/
def longPause : List Operation :=
  [.create 0 0 sampleDraft, .materialize 0, .setStatus day 0 0 .paused,
    .setStatus (30 * day) 0 0 .active]

/-- The cycle after the resume fires what the pause had taken back. -/
theorem backfill_after_resume :
    ∃ w w', run (perform sampleSettings) (.initial sampleUsers sampleCategories) longPause = some w ∧
      perform sampleSettings w (.materialize (30 * day)) = some w' ∧
        ¬InsertsFrom 0 (30 * day) w w' := by
  have hpast : (run (perform sampleSettings) (.initial sampleUsers sampleCategories) longPause).any (fun w ↦
      (w.db.occurrences 2).isNone &&
        ((Planning.materialize sampleSettings.planning (30 * day) w.db).occurrences 2).any
          fun o ↦ decide (o.reminderId = 0 ∧ o.scheduledFor < 30 * day)) = true := by
    decide +kernel
  obtain ⟨w, hrun, hpast⟩ := (Option.any_eq_true _ _).mp hpast
  rw [Bool.and_eq_true, Option.isNone_iff_eq_none, Option.any_eq_true] at hpast
  obtain ⟨hnone, o, ho, hearly⟩ := hpast
  have hearly := of_decide_eq_true hearly
  exact ⟨w, _, hrun, rfl, fun h ↦ not_le.mpr hearly.2 (h 2 o ho hnone hearly.1)⟩

end Sample

end Remindo.Serial
