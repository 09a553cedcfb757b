import Remindo.Serial.Arrival
import Remindo.Serial.Rows

namespace Remindo.Serial

open Remindo.Domain Remindo.Db Remindo.Services Remindo.Foundation

/-- What a dispatcher worker is at. -/
inductive Duty
  | claimed (rows : List (ℕ × Delivery))
  | working (batch : List Dispatching.Work) (memory : Dispatching.Memory)

/-- The workers around one database. -/
structure Crew where
  world : World
  duties : ℕ → Option Duty

def Crew.start (users : Table User) (categories : Table Category) : Crew :=
  ⟨.initial users categories, fun _ ↦ none⟩

/-- One transaction of a worker, its end or its crash, or a call of some other
service. `SKIP LOCKED` passes over what is locked while a claim runs. -/
inductive Event
  | claim (worker : ℕ) (now : ℤ) (locked : ℕ → Bool)
  | load (worker : ℕ)
  | verdict (worker : ℕ) (result : SendResult) (now : ℤ)
  | stop (worker : ℕ)
  | serve (op : Operation)

def Operation.isDispatch : Operation → Bool
  | .deliver .. => true
  | _ => false

def work (settings : Settings) (c : Crew) : Event → Option Crew
  | .claim k now locked =>
    match c.duties k with
    | some _ => none
    | none =>
      let rows := Deliveries.claimDue now settings.lockFor settings.dispatcherBatch locked c.world.db
      some ⟨{ c.world with db := c.world.db.apply (Deliveries.claimed rows) },
        Function.update c.duties k (some (.claimed rows))⟩
  | .load k =>
    match c.duties k with
    | some (.claimed rows) => some { c with
        duties := Function.update c.duties k
          (some (.working (Dispatching.loadWork c.world.db rows) .empty)) }
    | _ => none
  | .verdict k result now =>
    match c.duties k with
    | some (.working (w :: rest) memory) =>
      let outcome := Dispatching.conclude memory w result now
      some ⟨⟨Dispatching.applyVerdict c.world.db memory w outcome now,
          c.world.outbox ++ (outcome.message w now).toList⟩,
        Function.update c.duties k (some (.working rest (memory.after w outcome)))⟩
    | _ => none
  | .stop k => some { c with duties := Function.update c.duties k none }
  | .serve op =>
    if op.isDispatch then none
    else (perform settings c.world op).map fun w ↦ { c with world := w }

/-- What an event reads off the clock. -/
def Event.now : Event → Option ℤ
  | .claim _ now _ | .verdict _ _ now => some now
  | .serve op => some op.now
  | .load _ | .stop _ => none

/-- The clock never goes back. -/
def Clocked (events : List Event) : Prop := (events.filterMap Event.now).Pairwise (· ≤ ·)

/-- A claim hands out the delivery. -/
def Returns (settings : Settings) (c : Crew) (now : ℤ) (locked : ℕ → Bool) (j : ℕ) : Prop :=
  j ∈ (Deliveries.claimDue now settings.lockFor settings.dispatcherBatch locked
    c.world.db).map Prod.fst

/-- A verdict for the delivery is written, or a tap on it is accepted. -/
def Settles (c : Crew) (j : ℕ) : Event → Prop
  | .verdict k _ _ => ∃ w rest memory, c.duties k = some (.working (w :: rest) memory) ∧ w.id = j
  | .serve (.react now i userId action) => i = j ∧ ∃ result db,
      Reactions.react c.world.db now i userId action = .ok (result, db) ∧ result.applied = true
  | _ => False

/-- The delivery waits under a lease up to `til`. -/
def Held (til : ℤ) (j : ℕ) (db : Database) : Prop :=
  ∃ d, db.deliveries j = some d ∧ Deliveries.isQueued d = true ∧ d.lockedUntil = some til

/-- The delivery has been deleted. -/
def Gone (j : ℕ) (db : Database) : Prop := db.deliveries j = none ∧ j < db.deliveries.next

section Sweeping

open Reaper

variable {db : Database} {now : ℤ} {j : ℕ} {d : Delivery}

theorem repeatAll_other {candidates : List Deliveries.RepeatCandidate} {bumped : List ℕ}
    (hj : ∀ c ∈ candidates, (repeatAt now c).isSome = true → c.delivery.1 ≠ j) :
    (repeatAll now candidates bumped db).deliveries j = db.deliveries j := by
  induction candidates generalizing bumped db with
  | nil => rfl
  | cons c rest ih =>
    have hrest := fun c' hc' ↦ hj c' (List.mem_cons_of_mem c hc')
    rw [repeatAll]
    cases hrepeat : repeatAt now c with
    | none => exact ih hrest
    | some moment =>
      have hne := hj c List.mem_cons_self (by rw [hrepeat]; rfl)
      dsimp only
      split <;>
      · rw [ih hrest]
        exact (Deliveries.deliveries_updateFields ..).trans (if_neg hne.symm)

theorem repeatAll_requeues {candidates : List Deliveries.RepeatCandidate} {bumped : List ℕ}
    (hnodup : (candidates.map fun c ↦ c.delivery.1).Nodup) {c : Deliveries.RepeatCandidate}
    (hc : c ∈ candidates) {moment : ℤ} (hrepeat : repeatAt now c = some moment) {d : Delivery}
    (hd : db.deliveries c.delivery.1 = some d) :
    (repeatAll now candidates bumped db).deliveries c.delivery.1 = some (requeue moment d) := by
  induction candidates generalizing bumped db d with
  | nil => cases hc
  | cons c' rest ih =>
    rw [List.map_cons, List.nodup_cons] at hnodup
    have hrows := fun moment ↦ Deliveries.deliveries_updateFields db c'.delivery.1 (requeue moment)
    rw [repeatAll]
    rcases List.mem_cons.mp hc with rfl | hrest
    · have hothers : ∀ x ∈ rest, (repeatAt now x).isSome = true → x.delivery.1 ≠ c.delivery.1 :=
        fun x hx _ heq ↦ hnodup.1 (List.mem_map.mpr ⟨x, hx, heq⟩)
      rw [hrepeat]
      dsimp only
      split <;>
      · rw [repeatAll_other hothers]
        refine (hrows moment _).trans ?_
        rw [if_pos rfl, hd]
        rfl
    · have hne : c.delivery.1 ≠ c'.delivery.1 :=
        fun heq ↦ hnodup.1 (List.mem_map.mpr ⟨c, hrest, heq⟩)
      split
      · exact ih hnodup.2 hrest hd
      · dsimp only
        split <;>
        · refine ih hnodup.2 hrest ((hrows _ _).trans ?_)
          rw [if_neg hne, hd]

/-- The row was there already, for the same occurrence. -/
def Inherits (db : Database) (j : ℕ) (d : Delivery) : Prop :=
  ∃ d', db.deliveries j = some d' ∧ d'.occurrenceId = d.occurrenceId

/-- Every row a repeat touches it also frees. -/
theorem repeatAll_row {candidates : List Deliveries.RepeatCandidate} {bumped : List ℕ}
    (hd : (repeatAll now candidates bumped db).deliveries j = some d) :
    db.deliveries j = some d ∨ Inherits db j d ∧ d.lockedUntil = none := by
  induction candidates generalizing bumped db with
  | nil => exact .inl hd
  | cons c rest ih =>
    rw [repeatAll] at hd
    split at hd
    · exact ih hd
    · rename_i moment _
      have hrows := Deliveries.deliveries_updateFields db c.delivery.1 (requeue moment) j
      have hback : ∀ d', (db.run (Deliveries.updateFields c.delivery.1 (requeue moment))).deliveries
          j = some d' → db.deliveries j = some d' ∨ Inherits db j d' ∧ d'.lockedUntil = none := by
        intro d' hd'
        rw [hrows] at hd'
        split at hd'
        · rename_i hj
          obtain ⟨d₀, hd₀, rfl⟩ := Option.map_eq_some_iff.mp hd'
          exact .inr ⟨⟨d₀, hj ▸ hd₀, rfl⟩, rfl⟩
        · exact .inl hd'
      have hfreed : (db.run (Deliveries.updateFields c.delivery.1 (requeue moment))).deliveries j =
          some d ∨ Inherits (db.run (Deliveries.updateFields c.delivery.1 (requeue moment))) j d ∧
            d.lockedUntil = none := by
        dsimp only at hd
        split at hd
        · exact ih hd
        · have hrow := ih hd
          exact hrow
      rcases hfreed with hsame | ⟨⟨d', hd', hparent⟩, hfree⟩
      · exact hback d hsame
      · refine .inr ⟨?_, hfree⟩
        rcases hback d' hd' with hold | ⟨⟨d₀, hd₀, hparent₀⟩, -⟩
        · exact ⟨d', hold, hparent⟩
        · exact ⟨d₀, hd₀, hparent₀.trans hparent⟩

/-- A sweep leaves what is queued alone, apart from a lease that has run out. -/
theorem sweep_queued {batch : ℕ} (hd : db.deliveries j = some d)
    (hqueued : Deliveries.isQueued d = true) : (sweep db now batch).deliveries j =
      some (if Deliveries.isStale now d then { d with lockedUntil := none } else d) := by
  have hrow := expireAll_deliveries now (overdue db now batch) db
  rw [sweep, Deliveries.deliveries_releaseStaleLocks, repeatAll_other fun c hc _ heq ↦ ?_, hrow, hd,
    Option.map_some]
  obtain ⟨hc, hsent⟩ := Deliveries.mem_listRepeatCandidates hc
  rw [hrow, heq, hd] at hc
  cases hc
  simp [Deliveries.isQueued, hsent] at hqueued

theorem sweep_row {batch : ℕ} (hd : (sweep db now batch).deliveries j = some d) :
    db.deliveries j = some d ∨ Inherits db j d ∧ d.lockedUntil = none := by
  rw [sweep, Deliveries.deliveries_releaseStaleLocks] at hd
  obtain ⟨d', hd', rfl⟩ := Option.map_eq_some_iff.mp hd
  have hrow := repeatAll_row hd'
  rw [Inherits, expireAll_deliveries] at hrow
  split
  · refine .inr ⟨?_, rfl⟩
    exact hrow.elim (fun hsame ↦ ⟨d', hsame, rfl⟩) And.left
  · exact hrow

end Sweeping

section Taps

variable {db db' : Database} {now : ℤ} {i userId : ℕ} {action : Action} {result : ReactionResult}

/-- A tap is refused and changes nothing, or rewrites its own delivery, which it
frees. -/
theorem react_rows (h : Reactions.react db now i userId action = .ok (result, db')) :
    result.applied = false ∧ db'.deliveries = db.deliveries ∨ result.applied = true ∧
      ∃ reaction, ∀ j, db'.deliveries j =
        if j = i then (db.deliveries i).map (Reactions.values reaction) else db.deliveries j := by
  rcases Reactions.react_eq_ok h with ⟨happlied, rfl⟩ |
    ⟨happlied, -, -, -, -, reaction, -, -, -, -, -, -, rfl⟩
  · exact .inl ⟨happlied, rfl⟩
  · refine .inr ⟨happlied, reaction, fun j ↦ ?_⟩
    rw [Reactions.deliveries_closeOccurrence]
    exact Deliveries.deliveries_updateFields ..

theorem perform_react {settings : Settings} {w w' : World}
    (h : perform settings w (.react now i userId action) = some w') :
    ∃ result, Reactions.react w.db now i userId action = .ok (result, w'.db) := by
  obtain ⟨result, db', hreact, rfl⟩ := over_snd_eq_some h
  exact ⟨result, hreact⟩

end Taps

section Events

variable {settings : Settings} {c c' : Crew} {k : ℕ} {now : ℤ}

theorem work_claim {locked : ℕ → Bool} (h : work settings c (.claim k now locked) = some c') :
    c.duties k = none ∧
      let rows := Deliveries.claimDue now settings.lockFor settings.dispatcherBatch locked c.world.db
      c' = ⟨{ c.world with db := c.world.db.apply (Deliveries.claimed rows) },
        Function.update c.duties k (some (.claimed rows))⟩ := by
  rw [work] at h
  split at h
  · cases h
  · cases h
    exact ⟨‹_›, rfl⟩

theorem work_load (h : work settings c (.load k) = some c') :
    ∃ rows, c.duties k = some (.claimed rows) ∧ c' = { c with
      duties := Function.update c.duties k
        (some (.working (Dispatching.loadWork c.world.db rows) .empty)) } := by
  rw [work] at h
  split at h
  · cases h
    exact ⟨_, ‹_›, rfl⟩
  · cases h

theorem work_verdict {result : SendResult} (h : work settings c (.verdict k result now) = some c') :
    ∃ w rest memory, c.duties k = some (.working (w :: rest) memory) ∧
      let outcome := Dispatching.conclude memory w result now
      c' = ⟨⟨Dispatching.applyVerdict c.world.db memory w outcome now,
          c.world.outbox ++ (outcome.message w now).toList⟩,
        Function.update c.duties k (some (.working rest (memory.after w outcome)))⟩ := by
  rw [work] at h
  split at h
  · cases h
    exact ⟨_, _, _, ‹_›, rfl⟩
  · cases h

theorem work_serve {op : Operation} (h : work settings c (.serve op) = some c') :
    ¬op.isDispatch = true ∧
      ∃ w, perform settings c.world op = some w ∧ c' = { c with world := w } := by
  rw [work] at h
  split at h
  · cases h
  · obtain ⟨w, hw, rfl⟩ := Option.map_eq_some_iff.mp h
    exact ⟨‹_›, w, hw, rfl⟩

end Events

section Steps

variable {settings : Settings} {c c' : Crew} {e : Event} {til : ℤ} {j : ℕ}

theorem Held.step (h : Held til j c.world.db) (hstep : work settings c e = some c') :
    Settles c j e ∨ Held til j c'.world.db ∨ Gone j c'.world.db ∨
      ∃ now, e.now = some now ∧ til < now := by
  obtain ⟨d, hd, hqueued, hlock⟩ := h
  have hsame : c'.world.db.deliveries j = c.world.db.deliveries j → Held til j c'.world.db :=
    fun heq ↦ ⟨d, heq.trans hd, hqueued, hlock⟩
  cases e with
  | claim k now locked =>
    obtain ⟨-, rfl⟩ := work_claim hstep
    have hnodup := Deliveries.nodup_claimDue now settings.lockFor settings.dispatcherBatch locked
      c.world.db
    rcases Deliveries.deliveries_claimed hnodup c.world.db j with ⟨x, hx, rfl, -⟩ | hkept
    · obtain ⟨d', hd', hdue, -⟩ := Deliveries.mem_claimDue hx
      cases hd.symm.trans hd'
      rw [Deliveries.isDue, hlock, Bool.and_eq_true] at hdue
      exact .inr (.inr (.inr ⟨now, rfl, of_decide_eq_true hdue.2⟩))
    · exact .inr (.inl (hsame hkept))
  | load k =>
    obtain ⟨rows, -, rfl⟩ := work_load hstep
    exact .inr (.inl (hsame rfl))
  | verdict k result now =>
    obtain ⟨v, rest, memory, hduty, rfl⟩ := work_verdict hstep
    by_cases hj : v.id = j
    · exact .inl ⟨v, rest, memory, hduty, hj⟩
    · refine .inr (.inl (hsame ?_))
      exact (Dispatching.deliveries_applyVerdict ..).trans (if_neg (Ne.symm hj))
  | stop k =>
    cases hstep
    exact .inr (.inl (hsame rfl))
  | serve op =>
    obtain ⟨hop, w, hw, rfl⟩ := work_serve hstep
    cases op with
    | deliver => exact absurd rfl hop
    | react now i userId action =>
      obtain ⟨result, hreact⟩ := perform_react hw
      rcases react_rows hreact with ⟨-, hkept⟩ | ⟨happlied, reaction, hrows⟩
      · exact .inr (.inl (hsame (congrFun (congrArg Table.rows hkept) j)))
      · by_cases hj : i = j
        · exact .inl ⟨hj, result, _, hreact, happlied⟩
        · exact .inr (.inl (hsame ((hrows j).trans (if_neg (Ne.symm hj)))))
    | sweep now =>
      cases hw
      have hrow : (Reaper.sweep c.world.db now settings.reaperBatch).deliveries j = some
          (if Deliveries.isStale now d then { d with lockedUntil := none } else d) :=
        sweep_queued hd hqueued
      by_cases hstale : Deliveries.isStale now d = true
      · rw [Deliveries.isStale, hlock, Bool.and_eq_true] at hstale
        exact .inr (.inr (.inr ⟨now, rfl, of_decide_eq_true hstale.1⟩))
      · rw [if_neg hstale] at hrow
        exact .inr (.inl ⟨d, hrow, hqueued, hlock⟩)
    | _ =>
      have hnext := next_perform hw
      rcases perform_rows rfl hw with hext | ⟨-, p, hfilter⟩
      · exact .inr (.inl ⟨d, hext.kept j d hd, hqueued, hlock⟩)
      · have hrow := hfilter j
        rw [hd, Option.filter_some] at hrow
        split at hrow
        · exact .inr (.inl ⟨d, hrow, hqueued, hlock⟩)
        · exact .inr (.inr (.inl ⟨hrow, (Table.lt_next hd).trans_le hnext⟩))

/-- Where the rows after an event come from. -/
theorem work_rows (hstep : work settings c e = some c') :
    c.world.db.deliveries.next ≤ c'.world.db.deliveries.next ∧
      ∀ j d, c'.world.db.deliveries j = some d → c.world.db.deliveries j = some d ∨
        (Inherits c.world.db j d ∨ c.world.db.deliveries.next ≤ j ∧
            ∃ o, c'.world.db.occurrences d.occurrenceId = some o) ∧
          (d.lockedUntil = none ∨ Deliveries.isQueued d = true) := by
  cases e with
  | claim k now locked =>
    obtain ⟨-, rfl⟩ := work_claim hstep
    refine ⟨Table.next_le_writes .., fun j d hd ↦ ?_⟩
    have hnodup := Deliveries.nodup_claimDue now settings.lockFor settings.dispatcherBatch locked
      c.world.db
    rcases Deliveries.deliveries_claimed hnodup c.world.db j with ⟨x, hx, rfl, hrow⟩ | hkept
    · cases hrow.symm.trans hd
      obtain ⟨d', hd', hdue, -, hx⟩ := Deliveries.mem_claimDue hx
      rw [Deliveries.isDue, Bool.and_eq_true, Bool.and_eq_true] at hdue
      refine .inr ⟨.inl ⟨d', hd', by rw [hx]⟩, .inr ?_⟩
      rw [hx]
      exact hdue.1.1
    · exact .inl (hkept.symm.trans hd)
  | load k =>
    obtain ⟨rows, -, rfl⟩ := work_load hstep
    exact ⟨le_rfl, fun _ _ hd ↦ .inl hd⟩
  | verdict k result now =>
    obtain ⟨v, rest, memory, hduty, rfl⟩ := work_verdict hstep
    refine ⟨next_deliverAll (fun _ ↦ (result, now)) [v] memory c.world.db, fun j d hd ↦ ?_⟩
    have hrow := Dispatching.deliveries_applyVerdict c.world.db memory v
      (Dispatching.conclude memory v result now) now j
    rw [show _ = some d from hd] at hrow
    split at hrow
    · rename_i hj
      obtain ⟨d', hd', rfl⟩ := Option.map_eq_some_iff.mp hrow.symm
      exact .inr ⟨.inl ⟨d', hj ▸ hd', rfl⟩, .inl rfl⟩
    · exact .inl hrow.symm
  | stop k =>
    cases hstep
    exact ⟨le_rfl, fun _ _ hd ↦ .inl hd⟩
  | serve op =>
    obtain ⟨hop, w, hw, rfl⟩ := work_serve hstep
    refine ⟨next_perform hw, fun j d hd ↦ ?_⟩
    cases op with
    | deliver => exact absurd rfl hop
    | react now i userId action =>
      obtain ⟨result, hreact⟩ := perform_react hw
      rcases react_rows hreact with ⟨-, hkept⟩ | ⟨-, reaction, hrows⟩
      · exact .inl (hkept ▸ hd)
      · have hrow := hrows j
        rw [show _ = some d from hd] at hrow
        split at hrow
        · rename_i hj
          obtain ⟨d', hd', rfl⟩ := Option.map_eq_some_iff.mp hrow.symm
          exact .inr ⟨.inl ⟨d', hj ▸ hd', rfl⟩, .inl rfl⟩
        · exact .inl hrow.symm
    | sweep now =>
      cases hw
      exact (sweep_row hd).imp_right fun hrow ↦ ⟨.inl hrow.1, .inl hrow.2⟩
    | _ =>
      rcases perform_rows rfl hw with hext | ⟨-, p, hfilter⟩
      · exact (hext.back j d hd).imp_right fun hrow ↦ ⟨.inr ⟨hrow.1, hrow.2.2⟩, .inl hrow.2.1⟩
      · rw [show w.db.deliveries j = _ from hfilter j, Option.filter_eq_some_iff] at hd
        exact .inl hd.1

/-- An id is not handed out twice. -/
theorem Gone.step (h : Gone j c.world.db) (hstep : work settings c e = some c') :
    Gone j c'.world.db := by
  obtain ⟨hnone, hlt⟩ := h
  obtain ⟨hnext, hrows⟩ := work_rows hstep
  refine ⟨Option.eq_none_iff_forall_ne_some.mpr fun d hd ↦ ?_, hlt.trans_le hnext⟩
  rcases hrows j d hd with hold | ⟨⟨d', hd', -⟩ | ⟨hfresh, -⟩, -⟩
  · rw [hnone] at hold
    cases hold
  · rw [hnone] at hd'
    cases hd'
  · omega

/-- Only what is queued is leased. -/
def LeasedQueued (db : Database) : Prop :=
  ∀ j d, db.deliveries j = some d → d.lockedUntil.isSome = true → Deliveries.isQueued d = true

theorem LeasedQueued.step (h : LeasedQueued c.world.db) (hstep : work settings c e = some c') :
    LeasedQueued c'.world.db := by
  intro j d hd hleased
  rcases (work_rows hstep).2 j d hd with hold | ⟨-, hfree | hqueued⟩
  · exact h j d hold hleased
  · rw [hfree] at hleased
    cases hleased
  · exact hqueued

theorem leasedQueued_run {users : Table User} {categories : Table Category} {events : List Event}
    (hrun : run (work settings) (.start users categories) events = some c) : LeasedQueued c.world.db := by
  have hstart : LeasedQueued (Crew.start users categories).world.db := fun _ _ hd ↦ by cases hd
  exact run_preserves (P := fun c ↦ LeasedQueued c.world.db) (fun _ _ _ h hstep ↦ h.step hstep)
    hrun hstart

end Steps

section Runs

variable {settings : Settings} {c c₀ c₁ c₂ c' : Crew} {til : ℤ} {j : ℕ}
  {events before mid after : List Event}

theorem Gone.run (h : Gone j c.world.db)
    (hrun : Foundation.run (work settings) c mid = some c') : Gone j c'.world.db :=
  run_preserves (P := fun c ↦ Gone j c.world.db) (fun _ _ _ h hstep ↦ h.step hstep) hrun h

/-- A lease lasts until the delivery is settled or deleted, or its time is over. -/
theorem Held.run (h : Held til j c.world.db)
    (hrun : Foundation.run (work settings) c mid = some c') :
    (∃ early e late c₁, mid = early ++ e :: late ∧
        Foundation.run (work settings) c early = some c₁ ∧ Settles c₁ j e) ∨
      Held til j c'.world.db ∨ Gone j c'.world.db ∨
        ∃ e ∈ mid, ∃ now, e.now = some now ∧ til < now := by
  induction mid generalizing c with
  | nil =>
    cases hrun
    exact .inr (.inl h)
  | cons e mid ih =>
    obtain ⟨c₁, hstep, hrun⟩ := Option.bind_eq_some_iff.mp hrun
    rcases h.step hstep with hsettles | hheld | hgone | ⟨now, hnow, hover⟩
    · exact .inl ⟨[], e, mid, c, rfl, rfl, hsettles⟩
    · rcases ih hheld hrun with ⟨early, e', late, c₂, rfl, hearly, hsettles⟩ | hheld | hgone |
        ⟨e', he', hover⟩
      · refine .inl ⟨e :: early, e', late, c₂, rfl, ?_, hsettles⟩
        rw [Foundation.run, hstep]
        exact hearly
      · exact .inr (.inl hheld)
      · exact .inr (.inr (.inl hgone))
      · exact .inr (.inr (.inr ⟨e', List.mem_cons_of_mem _ he', hover⟩))
    · exact .inr (.inr (.inl (hgone.run hrun)))
    · exact .inr (.inr (.inr ⟨e, List.mem_cons_self, now, hnow, hover⟩))

theorem Clocked.le (h : Clocked events) {e e' : Event} (hevents : events = before ++ mid ++ e' :: after)
    (he : e ∈ mid) {now now' : ℤ} (hnow : e.now = some now) (hnow' : e'.now = some now') :
    now ≤ now' := by
  subst hevents
  rw [Clocked, List.filterMap_append, List.pairwise_append] at h
  refine h.2.2 now ?_ now' ?_
  · exact List.mem_filterMap.mpr ⟨e, List.mem_append_right _ he, hnow⟩
  · exact List.mem_filterMap.mpr ⟨e', List.mem_cons_self, hnow'⟩

theorem held_of_returns {k : ℕ} {now : ℤ} {locked : ℕ → Bool}
    (hclaim : work settings c (.claim k now locked) = some c')
    (hreturns : Returns settings c now locked j) :
    Held (now + settings.lockFor) j c'.world.db := by
  obtain ⟨-, rfl⟩ := work_claim hclaim
  obtain ⟨x, hx, rfl⟩ := List.mem_map.mp hreturns
  obtain ⟨d, -, hdue, -, hrow⟩ := Deliveries.mem_claimDue hx
  rw [Deliveries.isDue, Bool.and_eq_true, Bool.and_eq_true] at hdue
  refine ⟨x.2, Deliveries.deliveries_claimed_of_mem (Deliveries.nodup_claimDue ..) _ hx, ?_, ?_⟩
  · rw [hrow]
    exact hdue.1.1
  · rw [hrow]

/-- A claim hands out a delivery once per lease, unless the delivery is settled
in between; and no sweep touches a lease that is running. -/
theorem leases_exclude {users : Table User} {categories : Table Category}
    (hrun : run (work settings) (.start users categories) events = some c) (hclock : Clocked events) :
    (∀ before k now locked mid k' now' locked' after c₀ c₁ c₂ j,
      events = before ++ .claim k now locked :: (mid ++ .claim k' now' locked' :: after) →
      run (work settings) (.start users categories) before = some c₀ →
      work settings c₀ (.claim k now locked) = some c₁ →
      run (work settings) c₁ mid = some c₂ → Returns settings c₀ now locked j →
      Returns settings c₂ now' locked' j → now + settings.lockFor < now' ∨
        ∃ early e late c', mid = early ++ e :: late ∧
          run (work settings) c₁ early = some c' ∧ Settles c' j e) ∧
    (∀ now j d til, c.world.db.deliveries j = some d → d.lockedUntil = some til → now ≤ til →
      (Reaper.sweep c.world.db now settings.reaperBatch).deliveries j = some d) ∧
    ∀ now, ∀ r ∈ Deliveries.listRepeatCandidates (Reaper.expireAll now
      (Reaper.overdue c.world.db now settings.reaperBatch) c.world.db) now settings.reaperBatch,
        r.delivery.2.lockedUntil = none := by
  have hleased := leasedQueued_run hrun
  refine ⟨fun before k now locked mid k' now' locked' after c₀ c₁ c₂ j hevents hbefore hclaim hmid
    hreturns hagain ↦ ?_, fun now j d til hd hlock hlive ↦ ?_, fun now r hr ↦ ?_⟩
  · have hsplit : events = (before ++ [.claim k now locked]) ++ mid ++
        .claim k' now' locked' :: after := by simp [hevents]
    obtain ⟨x, hx, rfl⟩ := List.mem_map.mp hagain
    obtain ⟨d, hd, hdue, -⟩ := Deliveries.mem_claimDue hx
    rcases (held_of_returns hclaim hreturns).run hmid with hsettled | ⟨d', hd', -, hlock⟩ |
      ⟨hnone, -⟩ | ⟨e, he, ended, hended, hlate⟩
    · exact .inr hsettled
    · cases hd.symm.trans hd'
      rw [Deliveries.isDue, hlock, Bool.and_eq_true] at hdue
      exact .inl (of_decide_eq_true hdue.2)
    · rw [hnone] at hd
      cases hd
    · exact .inl (hlate.trans_le (hclock.le hsplit he hended rfl))
  · have hqueued := hleased j d hd (by rw [hlock]; rfl)
    rw [sweep_queued hd hqueued, if_neg]
    simp [Deliveries.isStale, hlock, hlive]
  · obtain ⟨hd, hsent⟩ := Deliveries.mem_listRepeatCandidates hr
    rw [expireAll_deliveries] at hd
    by_contra hlock
    have hqueued := hleased _ _ hd (Option.isSome_iff_ne_none.mpr hlock)
    simp [Deliveries.isQueued, hsent] at hqueued

end Runs

section Sample

instance (settings : Settings) (c : Crew) (now : ℤ) (locked : ℕ → Bool) (j : ℕ) :
    Decidable (Returns settings c now locked j) := inferInstanceAs (Decidable (_ ∈ _))

instance (events : List Event) : Decidable (Clocked events) :=
  inferInstanceAs (Decidable (List.Pairwise _ _))

def noneLocked : ℕ → Bool := fun _ ↦ false

/-- A worker dies with a leased delivery; an hour later another one takes over. -/
theorem leases_exclude_sample :
    ∃ c₀ c₁ c₂,
      run (work sampleSettings) (.start sampleUsers sampleCategories) (plannedLife.map .serve) =
        some c₀ ∧
      work sampleSettings c₀ (.claim 0 (5 * day) noneLocked) = some c₁ ∧
        run (work sampleSettings) c₁ [.stop 0, .serve (.sweep (5 * day + second))] = some c₂ ∧
          Returns sampleSettings c₀ (5 * day) noneLocked 0 ∧
            Returns sampleSettings c₂ (5 * day + hour) noneLocked 0 ∧
              (5 * day + sampleSettings.lockFor < 5 * day + hour ∨
                ∃ early e late c', [.stop 0, .serve (.sweep (5 * day + second))] =
                  early ++ e :: late ∧ run (work sampleSettings) c₁ early = some c' ∧
                    Settles c' 0 e) := by
  have hruns :
    (run (work sampleSettings) (.start sampleUsers sampleCategories) (plannedLife.map .serve)).any
      (fun c₀ ↦ decide (Returns sampleSettings c₀ (5 * day) noneLocked 0) &&
        (work sampleSettings c₀ (.claim 0 (5 * day) noneLocked)).any fun c₁ ↦
          (run (work sampleSettings) c₁ [.stop 0, .serve (.sweep (5 * day + second))]).any fun c₂ ↦
            decide (Returns sampleSettings c₂ (5 * day + hour) noneLocked 0)) = true := by
    decide +kernel
  have hclock : Clocked (plannedLife.map .serve ++ .claim 0 (5 * day) noneLocked ::
      ([.stop 0, .serve (.sweep (5 * day + second))] ++
        .claim 1 (5 * day + hour) noneLocked :: [])) := by
    decide +kernel
  have hlast : (run (work sampleSettings) (.start sampleUsers sampleCategories) (plannedLife.map .serve ++
      .claim 0 (5 * day) noneLocked :: ([.stop 0, .serve (.sweep (5 * day + second))] ++
        .claim 1 (5 * day + hour) noneLocked :: []))).isSome = true := by
    decide +kernel
  obtain ⟨c₀, hbefore, hruns⟩ := (Option.any_eq_true _ _).mp hruns
  rw [Bool.and_eq_true, decide_eq_true_eq] at hruns
  obtain ⟨hfirst, hruns⟩ := hruns
  obtain ⟨c₁, hclaim, hruns⟩ := (Option.any_eq_true _ _).mp hruns
  obtain ⟨c₂, hmid, hagain⟩ := (Option.any_eq_true _ _).mp hruns
  have hagain := of_decide_eq_true hagain
  obtain ⟨c, hrun⟩ := Option.isSome_iff_exists.mp hlast
  exact ⟨c₀, c₁, c₂, hbefore, hclaim, hmid, hfirst, hagain, (leases_exclude hrun hclock).1 _ _ _ _ _
    _ _ _ _ c₀ c₁ c₂ 0 rfl hbefore hclaim hmid hfirst hagain⟩

end Sample

end Remindo.Serial
