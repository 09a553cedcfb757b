import Remindo.Serial.Leases

namespace Remindo.Serial

open Remindo.Domain Remindo.Db Remindo.Services Remindo.Foundation

/-- What the workers have done, and how often each delivery has been sent again. -/
structure Tally where
  crew : Crew
  repeats : ℕ → ℕ

def Tally.start (users : Table User) (categories : Table Category) : Tally :=
  ⟨.start users categories, fun _ ↦ 0⟩

def Event.isSweep : Event → Bool
  | .serve (.sweep _) => true
  | _ => false

/-- What was sent waits to be sent again. -/
def isRepeated (db db' : Database) (j : ℕ) : Bool :=
  (db.deliveries j).any (fun d ↦ decide (d.status = .sent)) &&
    (db'.deliveries j).any fun d ↦ decide (d.status = .pending)

def tally (settings : Settings) (t : Tally) (e : Event) : Option Tally :=
  (work settings t.crew e).map fun c ↦ ⟨c, fun j ↦
    t.repeats j + if e.isSweep && isRepeated t.crew.world.db c.world.db j then 1 else 0⟩

/-- The repeats are within the reminder's budget, and no delivery has been sent
again more often than its occurrence has paid for. -/
structure Budgeted (db : Database) (repeats : ℕ → ℕ) : Prop where
  budget : ∀ i o, db.occurrences i = some o →
    ∃ r, db.reminders o.reminderId = some r ∧ o.repeatsSent ≤ r.maxRepeats
  spent : ∀ j d, db.deliveries j = some d →
    ∃ o, db.occurrences d.occurrenceId = some o ∧ repeats j ≤ o.repeatsSent
  unborn : ∀ j, db.deliveries.next ≤ j → repeats j = 0

section Frames

variable {db db' : Database} {repeats : ℕ → ℕ}

/-- Without a repeat an occurrence keeps its count, and starts at nought. -/
theorem Budgeted.step (h : Budgeted db repeats)
    (hreminders : ∀ rid r, db.reminders rid = some r →
      ∃ r', db'.reminders rid = some r' ∧ r'.maxRepeats = r.maxRepeats)
    (hoccurrences : ∀ i o, db'.occurrences i = some o →
      (∃ o', db.occurrences i = some o' ∧ o'.reminderId = o.reminderId ∧
        o'.repeatsSent = o.repeatsSent) ∨
      db.occurrences i = none ∧ o.repeatsSent = 0 ∧ ∃ r, db'.reminders o.reminderId = some r)
    (hdeliveries : ∀ j d, db'.deliveries j = some d → Inherits db j d ∨ db.deliveries.next ≤ j)
    (hparents : ∀ j d, db'.deliveries j = some d → ∃ o, db'.occurrences d.occurrenceId = some o)
    (hnext : db.deliveries.next ≤ db'.deliveries.next) : Budgeted db' repeats := by
  refine ⟨fun i o ho ↦ ?_, fun j d hd ↦ ?_, fun j hj ↦ h.unborn j (hnext.trans hj)⟩
  · rcases hoccurrences i o ho with ⟨o', ho', hreminder, hsent⟩ | ⟨-, hnone, r, hr⟩
    · obtain ⟨r, hr, hle⟩ := h.budget i o' ho'
      obtain ⟨r', hr', hmax⟩ := hreminders _ r hr
      exact ⟨r', hreminder ▸ hr', by omega⟩
    · exact ⟨r, hr, by omega⟩
  · obtain ⟨o, ho⟩ := hparents j d hd
    refine ⟨o, ho, ?_⟩
    rcases hdeliveries j d hd with ⟨d', hd', hparent⟩ | hfresh
    · obtain ⟨o₁, ho₁, hle⟩ := h.spent j d' hd'
      rw [hparent] at ho₁
      rcases hoccurrences _ o ho with ⟨o', ho', -, hsent⟩ | ⟨hnone, -⟩
      · obtain rfl := Option.some_inj.mp (ho₁.symm.trans ho')
        omega
      · rw [ho₁] at hnone
        cases hnone
    · rw [h.unborn j hfresh]
      exact Nat.zero_le _

theorem Restated.exists_some (h : Restated db db') {i : ℕ} {o : Occurrence}
    (ho : db.occurrences i = some o) : ∃ o', db'.occurrences i = some o' ∧
      o'.reminderId = o.reminderId ∧ o'.repeatsSent = o.repeatsSent := by
  have hsame := h.occurrences i
  rw [ho, Option.map_some, Option.map_eq_some_iff] at hsame
  obtain ⟨o', ho', heq⟩ := hsame
  have hreminder : (unstated o').reminderId = (unstated o).reminderId := by rw [heq]
  have hsent : (unstated o').repeatsSent = (unstated o).repeatsSent := by rw [heq]
  exact ⟨o', ho', hreminder, hsent⟩

theorem Restated.symm (h : Restated db db') : Restated db' db :=
  ⟨h.categories.symm, h.reminders.symm, fun i ↦ (h.occurrences i).symm⟩

theorem Budgeted.restated (h : Budgeted db repeats) (hsame : Restated db db')
    (hdeliveries : ∀ j d, db'.deliveries j = some d → Inherits db j d ∨
      db.deliveries.next ≤ j ∧ ∃ o, db'.occurrences d.occurrenceId = some o)
    (hnext : db.deliveries.next ≤ db'.deliveries.next) : Budgeted db' repeats := by
  refine h.step (fun rid r hr ↦ ⟨r, by rw [hsame.reminders, hr], rfl⟩)
    (fun i o ho ↦ .inl (hsame.symm.exists_some ho))
    (fun j d hd ↦ (hdeliveries j d hd).imp_right And.left) (fun j d hd ↦ ?_) hnext
  rcases hdeliveries j d hd with ⟨d', hd', hparent⟩ | ⟨-, hnew⟩
  · obtain ⟨o, ho, -⟩ := h.spent j d' hd'
    obtain ⟨o', ho', -⟩ := hsame.exists_some ho
    exact ⟨o', hparent ▸ ho'⟩
  · exact hnew

end Frames

section Sweeping

open Reaper

variable {db : Database} {now : ℤ} {batch : ℕ} {repeats : ℕ → ℕ}

/-- One of the candidates for the occurrence is sent again. -/
def isPaid (now : ℤ) (candidates : List Deliveries.RepeatCandidate) (i : ℕ) : Bool :=
  candidates.any fun c ↦ (repeatAt now c).isSome && decide (c.occurrence.1 = i)

theorem repeatAll_occurrences {candidates : List Deliveries.RepeatCandidate} {bumped : List ℕ}
    (i : ℕ) : (repeatAll now candidates bumped db).occurrences i =
      if i ∉ bumped ∧ isPaid now candidates i = true then
        (db.occurrences i).map fun o ↦ { o with repeatsSent := o.repeatsSent + 1 }
      else db.occurrences i := by
  induction candidates generalizing bumped db with
  | nil => simp [repeatAll, isPaid]
  | cons c rest ih =>
    rw [repeatAll]
    cases hrepeat : repeatAt now c with
    | none =>
      have hpaid : isPaid now (c :: rest) i = isPaid now rest i := by simp [isPaid, hrepeat]
      rw [hpaid]
      exact ih
    | some moment =>
      have hpaid : isPaid now (c :: rest) i = (decide (c.occurrence.1 = i) || isPaid now rest i) := by
        simp [isPaid, hrepeat]
      dsimp only
      rw [hpaid]
      split
      · rename_i hbumped
        refine ih.trans ?_
        by_cases hi : c.occurrence.1 = i
        · simp [← hi, hbumped]
          rfl
        · simp [hi]
          rfl
      · rename_i hfirst
        refine ih.trans ?_
        rw [Occurrences.occurrences_bumpRepeats]
        by_cases hi : c.occurrence.1 = i
        · simp [← hi, hfirst]
          rfl
        · simp [hi, Ne.symm hi]
          rfl

/-- Whatever pays still had a repeat left. -/
theorem budget_of_isPaid {i : ℕ} {o : Occurrence}
    (hpaid : isPaid now (Deliveries.listRepeatCandidates db now batch) i = true)
    (ho : db.occurrences i = some o) :
    ∃ r, db.reminders o.reminderId = some r ∧ o.repeatsSent < r.maxRepeats := by
  simp only [isPaid, List.any_eq_true, Bool.and_eq_true, decide_eq_true_eq] at hpaid
  obtain ⟨c, hc, hrepeat, rfl⟩ := hpaid
  obtain ⟨-, hrow, hr⟩ := Deliveries.occurrence_of_mem_listRepeatCandidates hc
  obtain rfl := Option.some_inj.mp (ho.symm.trans hrow)
  obtain ⟨moment, hmoment⟩ := Option.isSome_iff_exists.mp hrepeat
  exact ⟨c.reminder, hr, (decideRepeat_eq_some hmoment).1⟩

/-- One sweep costs an occurrence one repeat at most. -/
theorem sweep_repeats {i : ℕ} {o : Occurrence} (ho : db.occurrences i = some o) :
    ∃ o', (sweep db now batch).occurrences i = some o' ∧ o.repeatsSent ≤ o'.repeatsSent ∧
      o'.repeatsSent ≤ o.repeatsSent + 1 := by
  obtain ⟨o₁, ho₁, -, hsent⟩ := (restated_expireAll db now (overdue db now batch)).exists_some ho
  have hrow := @repeatAll_occurrences (expireAll now (overdue db now batch) db) now
    (Deliveries.listRepeatCandidates (expireAll now (overdue db now batch) db) now batch) [] i
  rw [ho₁, Option.map_some] at hrow
  split at hrow
  · refine ⟨_, hrow, ?_, ?_⟩
    · dsimp only
      omega
    · dsimp only
      omega
  · exact ⟨o₁, hrow, by omega, by omega⟩

theorem exists_of_isRepeated {j : ℕ} (h : isRepeated db (sweep db now batch) j = true) :
    ∃ c ∈ Deliveries.listRepeatCandidates (expireAll now (overdue db now batch) db) now batch,
      (repeatAt now c).isSome = true ∧ c.delivery.1 = j := by
  by_contra hnone
  push Not at hnone
  rw [isRepeated, Bool.and_eq_true, Option.any_eq_true, Option.any_eq_true] at h
  obtain ⟨⟨d, hd, hsent⟩, d', hd', hpending⟩ := h
  rw [sweep, Deliveries.deliveries_releaseStaleLocks, repeatAll_other hnone, expireAll_deliveries,
    hd, Option.map_some, Option.some_inj] at hd'
  subst hd'
  simp only [decide_eq_true_eq] at hsent hpending
  split at hpending <;>
  · rw [hsent] at hpending
    cases hpending

/-- What is sent again is paid for by its occurrence. -/
theorem Budgeted.sweep (h : Budgeted db repeats) : Budgeted (sweep db now batch) fun j ↦
    repeats j + if isRepeated db (sweep db now batch) j then 1 else 0 := by
  let expired := expireAll now (overdue db now batch) db
  let candidates := Deliveries.listRepeatCandidates expired now batch
  have hrows : expired.deliveries = db.deliveries := expireAll_deliveries ..
  have hexpired : Budgeted expired repeats :=
    h.restated (restated_expireAll db now _) (fun j d hd ↦ .inl ⟨d, hrows ▸ hd, rfl⟩) (by rw [hrows])
  have hoccurrences : ∀ i, (Reaper.sweep db now batch).occurrences i =
      if isPaid now candidates i = true then
        (expired.occurrences i).map fun o ↦ { o with repeatsSent := o.repeatsSent + 1 }
      else expired.occurrences i := by
    intro i
    refine (@repeatAll_occurrences expired now candidates [] i).trans ?_
    simp only [List.not_mem_nil, not_false_eq_true, true_and]
  have hreminders : (Reaper.sweep db now batch).reminders = expired.reminders :=
    (sameCalendar_repeatAll expired now candidates []).1
  refine ⟨fun i o ho ↦ ?_, fun j d hd ↦ ?_, fun j hj ↦ ?_⟩
  · rw [hoccurrences] at ho
    rw [hreminders]
    split at ho
    · rename_i hpaid
      obtain ⟨o₁, ho₁, rfl⟩ := Option.map_eq_some_iff.mp ho
      exact budget_of_isPaid hpaid ho₁
    · exact hexpired.budget i o ho
  · have hparent : Inherits expired j d := by
      rw [Inherits, hrows]
      exact (sweep_row hd).elim (fun hold ↦ ⟨d, hold, rfl⟩) And.left
    obtain ⟨d', hd', hparent⟩ := hparent
    obtain ⟨o, ho, hle⟩ := hexpired.spent j d' hd'
    have hpaid : isRepeated db (Reaper.sweep db now batch) j = true →
        isPaid now candidates d.occurrenceId = true := by
      intro hrepeated
      obtain ⟨c, hc, hrepeat, rfl⟩ := exists_of_isRepeated hrepeated
      obtain ⟨hrow, -⟩ := Deliveries.mem_listRepeatCandidates hc
      obtain ⟨hoccurrence, -⟩ := Deliveries.occurrence_of_mem_listRepeatCandidates hc
      obtain rfl := Option.some_inj.mp (hd'.symm.trans hrow)
      simp only [isPaid, List.any_eq_true, Bool.and_eq_true, decide_eq_true_eq]
      exact ⟨c, hc, hrepeat, hoccurrence.symm.trans hparent⟩
    rw [← hparent] at hpaid ⊢
    rw [hoccurrences, ho]
    by_cases hrepeated : isRepeated db (Reaper.sweep db now batch) j = true
    · rw [if_pos (hpaid hrepeated), if_pos hrepeated]
      exact ⟨_, rfl, Nat.succ_le_succ hle⟩
    · rw [if_neg hrepeated]
      split
      · exact ⟨_, rfl, hle.trans (Nat.le_succ _)⟩
      · exact ⟨o, rfl, hle⟩
  · have hfresh := (next_sweep db now batch).trans hj
    simp [isRepeated, db.deliveries.fresh j hfresh, h.unborn j hfresh]

end Sweeping

section Runs

variable {settings : Settings} {c c' : Crew} {e : Event} {repeats : ℕ → ℕ}

theorem Budgeted.dropQueued {db : Database} {rid : ℕ} (r : Reminder) (h : Budgeted db repeats) :
    Budgeted (Reminders.dropQueued rid r db) repeats := by
  have hdeliveries : ∀ j d, (Reminders.dropQueued rid r db).deliveries j = some d →
      db.deliveries j = some d ∧
        (db.occurrences d.occurrenceId).any (Occurrences.isUnsent db rid d.occurrenceId) = false := by
    intro j d hd
    have hrow := (Occurrences.deliveries_deleteUnsent db rid j).symm.trans hd
    rw [Option.filter_eq_some_iff] at hrow
    simpa using hrow
  refine h.step (fun rid' r' hr' ↦ ?_) (fun i o ho ↦ ?_)
    (fun j d hd ↦ .inl ⟨d, (hdeliveries j d hd).1, rfl⟩) (fun j d hd ↦ ?_) (Table.next_le_writes ..)
  · rw [Reminders.dropQueued_reminders]
    split
    · rename_i hrid
      rw [← hrid, hr']
      exact ⟨_, rfl, rfl⟩
    · exact ⟨r', hr', rfl⟩
  · rw [Reminders.dropQueued_occurrences, Option.filter_eq_some_iff] at ho
    exact .inl ⟨o, ho.1, rfl, rfl⟩
  · obtain ⟨hrow, hkept⟩ := hdeliveries j d hd
    obtain ⟨o, ho, -⟩ := h.spent j d hrow
    rw [ho, Option.any_some] at hkept
    exact ⟨o, Reminders.dropQueued_kept r ho hkept⟩

theorem Budgeted.updateFields {db : Database} {rid : ℕ} {values : Reminder → Reminder}
    (h : Budgeted db repeats) (hvalues : ∀ r, (values r).maxRepeats = r.maxRepeats) :
    Budgeted (db.run (Db.Reminders.updateFields rid values)) repeats := by
  refine h.step (fun rid' r hr ↦ ?_) (fun i o ho ↦ .inl ⟨o, ho, rfl, rfl⟩)
    (fun j d hd ↦ .inl ⟨d, hd, rfl⟩) (fun j d hd ↦ (h.spent j d hd).imp fun _ ↦ And.left)
    (Table.next_le_writes ..)
  rw [Db.Reminders.reminders_updateFields]
  split
  · rename_i hrid
    rw [← hrid, hr]
    exact ⟨_, rfl, hvalues r⟩
  · exact ⟨r, hr, rfl⟩

/-- Nothing but a sweep counts. -/
theorem Budgeted.event (h : Budgeted c.world.db repeats) (hquiet : e.isSweep = false)
    (hstep : work settings c e = some c') : Budgeted c'.world.db repeats := by
  obtain ⟨hnext, hrows⟩ := work_rows hstep
  have hrestated (hsame : Restated c.world.db c'.world.db) : Budgeted c'.world.db repeats :=
    h.restated hsame (fun j d hd ↦ (hrows j d hd).elim (fun hold ↦ .inl ⟨d, hold, rfl⟩) And.left) hnext
  cases e with
  | claim k now locked =>
    obtain ⟨-, rfl⟩ := work_claim hstep
    exact hrestated (.of_tables rfl rfl rfl)
  | load k =>
    obtain ⟨rows, -, rfl⟩ := work_load hstep
    exact h
  | verdict k result now =>
    obtain ⟨w, rest, memory, -, rfl⟩ := work_verdict hstep
    exact hrestated (restated_applyVerdict ..)
  | stop k =>
    cases hstep
    exact h
  | serve op =>
    obtain ⟨-, w, hw, rfl⟩ := work_serve hstep
    by_cases hop : op.movesCalendar = false
    · refine hrestated (restated_perform hop (fun now hsweep ↦ ?_) hw)
      rw [hsweep] at hquiet
      cases hquiet
    cases op with
    | create now ownerId draft =>
      obtain ⟨db', hdb, rfl⟩ := over_eq_some hw
      obtain ⟨-, rfl⟩ := Reminders.create_eq_ok hdb
      refine h.step (fun rid r hr ↦ ⟨r, ?_, rfl⟩) (fun i o ho ↦ .inl ⟨o, ho, rfl, rfl⟩)
        (fun j d hd ↦ .inl ⟨d, hd, rfl⟩) (fun j d hd ↦ (h.spent j d hd).imp fun _ ↦ And.left) hnext
      exact (Table.writes_insert ..).trans ((if_pos (Table.lt_next hr)).trans hr)
    | materialize now =>
      have hkept (rid : ℕ) (r : Reminder) (hr : c.world.db.reminders rid = some r) :
          ∃ r', w.db.reminders rid = some r' ∧ r'.maxRepeats = r.maxRepeats :=
        (perform_reminder hw hr).imp fun _ hrow ↦ hrow.imp_right Amends.maxRepeats
      cases hw
      have hextends := extends_materializeAll settings.planning (now + settings.planning.horizon)
        (Db.Reminders.dueForPlanning c.world.db (now + settings.planning.horizon)
          settings.planning.batchSize) c.world.db
      refine h.step hkept (fun i o ho ↦ ?_)
        (fun j d hd ↦ (hextends.back j d hd).imp (fun hold ↦ ⟨d, hold, rfl⟩) And.left)
        (fun j d hd ↦ ?_) hnext
      · rcases Planning.materializeAll_some ho with hold | ⟨hnone, hnew, x, hx, m, -, hkey, -⟩
        · exact .inl ⟨o, hold, rfl, rfl⟩
        · obtain ⟨r', hr', -⟩ := hkept x.1 x.2 (Db.Reminders.mem_dueForPlanning hx).1
          rw [← show o.reminderId = x.1 from congrArg Prod.fst hkey] at hr'
          exact .inr ⟨hnone, hnew, r', hr'⟩
      · rcases hextends.back j d hd with hold | ⟨-, -, hparent⟩
        · obtain ⟨o, ho, -⟩ := h.spent j d hold
          exact ⟨o, hextends.occurrences _ o ho⟩
        · exact hparent
    | setStatus now ownerId rid status =>
      obtain ⟨db', hdb, rfl⟩ := over_eq_some hw
      obtain ⟨r, -, rfl⟩ := Reminders.setStatus_eq_ok hdb
      split
      · exact h.updateFields fun _ ↦ rfl
      · exact (h.dropQueued r).updateFields fun _ ↦ rfl
    | update now ownerId rid change =>
      obtain ⟨db', hdb, rfl⟩ := over_eq_some hw
      obtain ⟨r, -, -, rfl⟩ := Reminders.update_eq_ok hdb
      split
      · exact (h.dropQueued r).updateFields fun _ ↦ rfl
      · exact h.updateFields fun _ ↦ rfl
    | _ => exact absurd rfl hop

theorem Budgeted.tally {t t' : Tally} (h : Budgeted t.crew.world.db t.repeats)
    (hstep : tally settings t e = some t') : Budgeted t'.crew.world.db t'.repeats := by
  obtain ⟨c', hwork, rfl⟩ := Option.map_eq_some_iff.mp hstep
  cases hsweep : e.isSweep with
  | false =>
    simp only [Bool.false_and, Bool.false_eq_true, if_false, Nat.add_zero]
    exact h.event hsweep hwork
  | true =>
    cases e with
    | serve op =>
      cases op with
      | sweep now =>
        cases hwork
        exact h.sweep
      | _ => cases hsweep
    | _ => cases hsweep

/-- However the workers, the reaper and everybody else interleave, the repeats
stay within the reminder's budget, a sweep spends one of them at most, and no
delivery is sent again more often than its occurrence has been charged. -/
theorem repeats_budgeted {users : Table User} {categories : Table Category} {events : List Event}
    {t : Tally} (hrun : run (Serial.tally settings) (.start users categories) events = some t) :
    (∀ i o, t.crew.world.db.occurrences i = some o →
      ∃ r, t.crew.world.db.reminders o.reminderId = some r ∧ o.repeatsSent ≤ r.maxRepeats) ∧
    (∀ now i o, t.crew.world.db.occurrences i = some o →
      ∃ o', (Reaper.sweep t.crew.world.db now settings.reaperBatch).occurrences i = some o' ∧
        o.repeatsSent ≤ o'.repeatsSent ∧ o'.repeatsSent ≤ o.repeatsSent + 1) ∧
    ∀ j d, t.crew.world.db.deliveries j = some d →
      ∃ o, t.crew.world.db.occurrences d.occurrenceId = some o ∧ t.repeats j ≤ o.repeatsSent := by
  have hstart : Budgeted (Tally.start users categories).crew.world.db
      (Tally.start users categories).repeats := by
    refine ⟨fun i o ho ↦ ?_, fun j d hd ↦ ?_, fun _ _ ↦ rfl⟩
    · cases ho
    · cases hd
  have hbudgeted := run_preserves (P := fun t : Tally ↦ Budgeted t.crew.world.db t.repeats)
    (fun _ _ _ h hstep ↦ h.tally hstep) hrun hstart
  exact ⟨hbudgeted.budget, fun _ _ _ ↦ sweep_repeats, hbudgeted.spent⟩

/-- The first Monday of the sample, at eight. -/
def firstMonday : ℤ := 4 * day + 8 * hour

/-- Two recipients leave a reminder unanswered for half an hour. -/
def unansweredLife : List Event :=
  [.serve (.create 0 0 { sampleDraft with repeatAfterMinutes := some 30 }),
    .serve (.issueInvite 0 0 0 "token"), .serve (.openInvite 0 "token" 1), .serve (.accept 0 1 0),
    .serve (.materialize 0), .claim 0 firstMonday noneLocked, .load 0,
    .verdict 0 (.delivered 1) firstMonday, .verdict 0 (.delivered 2) firstMonday,
    .serve (.sweep (firstMonday + 30 * minute))]

/-- Both are reminded again, for the price of one repeat. -/
theorem repeats_budgeted_sample :
    ∃ t, run (tally sampleSettings) (.start sampleUsers sampleCategories) unansweredLife = some t ∧
      t.repeats 0 = 1 ∧ t.repeats 1 = 1 ∧
      (∀ i o, t.crew.world.db.occurrences i = some o →
        ∃ r, t.crew.world.db.reminders o.reminderId = some r ∧ o.repeatsSent ≤ r.maxRepeats) ∧
      (∀ now i o, t.crew.world.db.occurrences i = some o →
        ∃ o', (Reaper.sweep t.crew.world.db now sampleSettings.reaperBatch).occurrences i = some o' ∧
          o.repeatsSent ≤ o'.repeatsSent ∧ o'.repeatsSent ≤ o.repeatsSent + 1) ∧
      ∀ j d, t.crew.world.db.deliveries j = some d →
        ∃ o, t.crew.world.db.occurrences d.occurrenceId = some o ∧ t.repeats j ≤ o.repeatsSent := by
  have hruns : (run (tally sampleSettings) (.start sampleUsers sampleCategories) unansweredLife).any
      (fun t ↦ decide (t.repeats 0 = 1) && decide (t.repeats 1 = 1)) = true := by
    decide +kernel
  obtain ⟨t, hrun, hrepeats⟩ := (Option.any_eq_true _ _).mp hruns
  rw [Bool.and_eq_true, decide_eq_true_eq, decide_eq_true_eq] at hrepeats
  exact ⟨t, hrun, hrepeats.1, hrepeats.2, repeats_budgeted hrun⟩

end Runs

end Remindo.Serial
