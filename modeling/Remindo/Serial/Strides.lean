import Mathlib.Logic.Relation
import Remindo.Serial.Operations
import Remindo.Services.Coverage

namespace Remindo.Serial

open Remindo.Domain Remindo.Db Remindo.Services Remindo.Foundation

/-- What the roll-up and the dispatcher read of an occurrence. -/
def stateOf (o : Occurrence) : ℕ × OccurrenceStatus := (o.reminderId, o.status)

/-- What a family of operations is allowed: the deliveries that may be given
up or taken back together, the reminders that may be planned, the occurrences
a recipient may join. -/
structure Rules where
  mayEnd : Database → (ℕ → Delivery → Bool) → Prop
  mayPlan : ℕ → Prop
  mayJoin : Occurrence → Prop

def Rules.free : Rules := ⟨fun _ _ ↦ True, fun _ ↦ True, fun _ ↦ True⟩

def SameStates (db db' : Database) : Prop :=
  ∀ i, (db'.occurrences i).map stateOf = (db.occurrences i).map stateOf

/-- The one delivery a change is about. -/
structure Moves (db db' : Database) (j : ℕ) (d d' : Delivery) : Prop where
  before : db.deliveries j = some d
  after : db'.deliveries j = some d'
  opened : d.status.isTerminal = false
  parent : d'.occurrenceId = d.occurrenceId
  rest : ∀ k, k ≠ j → db'.deliveries k = db.deliveries k

/-- The occurrence `i`, still open, becomes `status`. -/
structure Turns (db db' : Database) (i : ℕ) (o : Occurrence) (status : OccurrenceStatus) :
    Prop where
  before : db.occurrences i = some o
  opened : o.status.isTerminal = false
  after : (db'.occurrences i).map stateOf = some (o.reminderId, status)
  rest : ∀ k, k ≠ i → (db'.occurrences k).map stateOf =
    (db.occurrences k).map stateOf

/-- The elementary changes of the queue. -/
inductive Stride (rules : Rules) (w : World) : World → Prop
  /-- Leases, retries, repeats and snoozes: an open delivery stays open. -/
  | hold {db : Database} (ho : SameStates w.db db)
      (hd : ∀ j, db.deliveries j = w.db.deliveries j ∨
        ∃ d d', w.db.deliveries j = some d ∧ db.deliveries j = some d' ∧
          d'.occurrenceId = d.occurrenceId ∧ d.status.isTerminal = false ∧
          d'.status.isTerminal = false) : Stride rules w { w with db := db }
  | plan {db : Database} (hd : db.deliveries = w.db.deliveries)
      (hkept : ∀ i o, w.db.occurrences i = some o → db.occurrences i = some o)
      (hnew : ∀ i o, db.occurrences i = some o → w.db.occurrences i = some o ∨
        w.db.occurrences i = none ∧ rules.mayPlan o.reminderId ∧ o.status = .pending) :
      Stride rules w { w with db := db }
  | enqueue {db : Database} (ho : SameStates w.db db)
      (hkept : ∀ j d, w.db.deliveries j = some d → db.deliveries j = some d)
      (hnew : ∀ j d, db.deliveries j = some d → w.db.deliveries j = some d ∨
        w.db.deliveries j = none ∧ d.status = .pending ∧
          ∃ o, w.db.occurrences d.occurrenceId = some o ∧
            (rules.mayPlan o.reminderId ∨ rules.mayJoin o)) : Stride rules w { w with db := db }
  | giveUp {db : Database} {j : ℕ} {d d' : Delivery} (ho : SameStates w.db db)
      (hj : Moves w.db db j d d') (hended : d'.status.isTerminal = true)
      (hsilent : d'.status.isAnswer = false) (hend : rules.mayEnd w.db fun k _ ↦ decide (k = j)) :
      Stride rules w { w with db := db }
  | send {db : Database} {j : ℕ} {d d' : Delivery} {o : Occurrence} {message : Message}
      (hj : Moves w.db db j d d') (hsent : d'.status = .sent)
      (hi : Turns w.db db d.occurrenceId o .sent)
      (hmessage : message.occurrenceId = d.occurrenceId ∧ message.reminderId = o.reminderId) :
      Stride rules w ⟨db, w.outbox ++ [message]⟩
  | answer {db : Database} {j : ℕ} {d d' : Delivery} (hj : Moves w.db db j d d')
      (hanswer : d'.status.isAnswer = true)
      (hi : SameStates w.db db ∧ (∃ k e, db.deliveries k = some e ∧
          e.occurrenceId = d.occurrenceId ∧ e.status.isTerminal = false) ∨
        ∃ o status, Turns w.db db d.occurrenceId o status ∧
          (status = .done ∨ status = .skipped)) : Stride rules w { w with db := db }
  | expire {db : Database} {i : ℕ} {o : Occurrence} (hd : db.deliveries = w.db.deliveries)
      (hi : Turns w.db db i o .expired) : Stride rules w { w with db := db }
  | withdraw {db : Database} {gone : ℕ → Delivery → Bool} (ho : SameStates w.db db)
      (hgone : ∀ j d, gone j d = true → d.status = .pending)
      (hd : ∀ j, db.deliveries j = (w.db.deliveries j).filter fun d ↦ !gone j d)
      (hend : rules.mayEnd w.db gone) : Stride rules w { w with db := db }
  /-- A pause or an edit takes back what nothing has left of. -/
  | drop {db : Database} (reminderId : ℕ)
      (ho : ∀ i, db.occurrences i =
        (w.db.occurrences i).filter fun o ↦ !Occurrences.isUnsent w.db reminderId i o)
      (hd : ∀ j, db.deliveries j = (w.db.deliveries j).filter fun d ↦
        !(w.db.occurrences d.occurrenceId).any
          (Occurrences.isUnsent w.db reminderId d.occurrenceId)) :
      Stride rules w { w with db := db }

/-- A chain of elementary changes. -/
abbrev Strides (rules : Rules) : World → World → Prop := Relation.ReflTransGen (Stride rules)

namespace SameStates

theorem of_eq {db db' : Database} (h : db'.occurrences = db.occurrences) : SameStates db db' :=
  fun i ↦ by rw [h]

theorem exists_some {db db' : Database} (h : SameStates db db') {i : ℕ} {o : Occurrence}
    (ho : db.occurrences i = some o) :
    ∃ o', db'.occurrences i = some o' ∧ o'.reminderId = o.reminderId ∧ o'.status = o.status := by
  have hi := h i
  rw [ho, Option.map_some, Option.map_eq_some_iff] at hi
  obtain ⟨o', ho', hstate⟩ := hi
  exact ⟨o', ho', congrArg Prod.fst hstate, congrArg Prod.snd hstate⟩

theorem symm {db db' : Database} (h : SameStates db db') : SameStates db' db := fun i ↦ (h i).symm

end SameStates

section Chains

variable {rules : Rules} {db : Database} {outbox : List Message}

theorem Stride.aside {db' : Database} (ho : db'.occurrences = db.occurrences)
    (hd : db'.deliveries = db.deliveries) : Stride rules ⟨db, outbox⟩ ⟨db', outbox⟩ :=
  .hold (.of_eq ho) fun j ↦ .inl (by rw [hd])

theorem Stride.keep {db' : Database} (ho : SameStates db db') {j : ℕ} {d d' : Delivery}
    (hj : Moves db db' j d d') (hopen : d'.status.isTerminal = false) :
    Stride rules ⟨db, outbox⟩ ⟨db', outbox⟩ := by
  refine .hold ho fun k ↦ ?_
  by_cases hk : k = j
  · subst hk
    exact .inr ⟨d, d', hj.before, hj.after, hj.parent, hj.opened, hopen⟩
  · exact .inl (hj.rest k hk)

theorem moves_update {db' : Database} {j : ℕ} {d : Delivery} {f : Delivery → Delivery}
    (hd : db.deliveries j = some d) (hopen : d.status.isTerminal = false)
    (hf : (f d).occurrenceId = d.occurrenceId)
    (h : ∀ k, db'.deliveries k = if k = j then (db.deliveries j).map f else db.deliveries k) :
    Moves db db' j d (f d) := by
  refine ⟨hd, ?_, hopen, hf, fun k hk ↦ ?_⟩
  · rw [h, if_pos rfl, hd, Option.map_some]
  · rw [h, if_neg hk]

theorem turns_setStatus {db' : Database} {i : ℕ} {o : Occurrence} (ho : db.occurrences i = some o)
    (hopen : o.status.isTerminal = false) (status : OccurrenceStatus)
    (h : ∀ k, db'.occurrences k =
      if k = i then (db.occurrences i).map fun o ↦ { o with status := status }
      else db.occurrences k) : Turns db db' i o status := by
  refine ⟨ho, hopen, ?_, fun k hk ↦ ?_⟩
  · rw [h, if_pos rfl, ho]
    rfl
  · rw [h, if_neg hk]

end Chains

section Effects

variable {rules : Rules} {w w' : World}

theorem Turns.same_or {db db' : Database} {k : ℕ} {o : Occurrence} {status : OccurrenceStatus}
    (h : Turns db db' k o status) (i : ℕ) :
    i = k ∨ (db'.occurrences i).map stateOf = (db.occurrences i).map stateOf :=
  or_iff_not_imp_left.mpr (h.rest i)

theorem Turns.back {db db' : Database} {k : ℕ} {o₀ : Occurrence} {status : OccurrenceStatus}
    (h : Turns db db' k o₀ status) {i : ℕ} {o : Occurrence} (ho : db'.occurrences i = some o) :
    i = k ∧ stateOf o = (o₀.reminderId, status) ∨
      i ≠ k ∧ ∃ o₁, db.occurrences i = some o₁ ∧ stateOf o₁ = stateOf o := by
  by_cases hi : i = k
  · subst hi
    have hafter := h.after
    rw [ho, Option.map_some, Option.some_inj] at hafter
    exact .inl ⟨rfl, hafter⟩
  · have hrest := h.rest i hi
    rw [ho, Option.map_some, eq_comm, Option.map_eq_some_iff] at hrest
    exact .inr ⟨hi, hrest⟩

theorem Stride.closed (h : Stride rules w w') {i : ℕ} {o : Occurrence}
    (ho : w.db.occurrences i = some o) (hclosed : o.status.isTerminal = true) :
    (w'.db.occurrences i).map stateOf = some (stateOf o) := by
  have hsame : ∀ {db : Database},
      (db.occurrences i).map stateOf = (w.db.occurrences i).map stateOf →
        (db.occurrences i).map stateOf = some (stateOf o) := fun h ↦ by rw [h, ho, Option.map_some]
  have hturns : ∀ {db : Database} {k : ℕ} {o' : Occurrence} {status : OccurrenceStatus},
      Turns w.db db k o' status → (db.occurrences i).map stateOf = some (stateOf o) := by
    intro db k o' status hk
    refine hsame ((hk.same_or i).resolve_left fun hi ↦ ?_)
    subst hi
    have hopen := hk.opened
    rw [Option.some_inj.mp (hk.before.symm.trans ho), hclosed] at hopen
    cases hopen
  cases h with
  | hold hstates | enqueue hstates | giveUp hstates | withdraw hstates => exact hsame (hstates i)
  | plan hd hkept => rw [hkept i o ho, Option.map_some]
  | send hj hsent hi => exact hturns hi
  | expire hd hi => exact hturns hi
  | answer hj hanswer hi =>
    rcases hi with ⟨hstates, -⟩ | ⟨o', status, hi, -⟩
    · exact hsame (hstates i)
    · exact hturns hi
  | drop rid hoccurrences =>
    rw [hoccurrences, ho, Option.filter_some]
    have hkeep : Occurrences.isUnsent w.db rid i o = false := by
      have hstatus : o.status ≠ .pending := fun h ↦ by rw [h] at hclosed; cases hclosed
      simp [Occurrences.isUnsent, hstatus]
    rw [hkeep]
    rfl

theorem Strides.closed (h : Strides rules w w') {i : ℕ} {o : Occurrence}
    (ho : w.db.occurrences i = some o) (hclosed : o.status.isTerminal = true) :
    (w'.db.occurrences i).map stateOf = some (stateOf o) := by
  induction h with
  | refl => rw [ho, Option.map_some]
  | tail _ hstride ih =>
    obtain ⟨o', ho', hstate⟩ := Option.map_eq_some_iff.mp ih
    rw [← hstate]
    refine hstride.closed ho' ?_
    rw [show o'.status = o.status from congrArg Prod.snd hstate]
    exact hclosed

end Effects

section Dispatching

open Dispatching

/-- A claimed delivery still waits for its attempt, and the session knows its
occurrence as it is. -/
structure Ready (db : Database) (memory : Memory) (w : Work) : Prop where
  row : ∃ d, db.deliveries w.id = some d ∧ d.status.isTerminal = false ∧
    ∀ c, w.context = some c → d.occurrenceId = c.occurrence.1
  context : ∀ c, w.context = some c → ∃ o, db.occurrences c.occurrence.1 = some o ∧
    o.status = memory.occurrenceStatus c ∧ o.reminderId = c.reminder.1

/-- No attempt of the batch gives up what it may not. -/
def MayGiveUp (rules : Rules) (gateway : Gateway) : List Work → Memory → Database → Prop
  | [], _, _ => True
  | w :: rest, memory, db =>
    let (result, now) := gateway w.id
    let outcome := conclude memory w result now
    (givesUp memory w result = true → rules.mayEnd db fun k _ ↦ decide (k = w.id)) ∧
      MayGiveUp rules gateway rest (memory.after w outcome) (applyVerdict db memory w outcome now)

variable {rules : Rules} {db : Database} {outbox : List Message} {memory : Memory}

theorem attempt_stride {w : Work} {result : SendResult} (now : ℤ) (h : Ready db memory w)
    (hend : givesUp memory w result = true → rules.mayEnd db fun k _ ↦ decide (k = w.id)) :
    let outcome := conclude memory w result now
    Stride rules ⟨db, outbox⟩
      ⟨applyVerdict db memory w outcome now, outbox ++ (outcome.message w now).toList⟩ := by
  obtain ⟨d, hd, hopen, hparent⟩ := h.row
  intro outcome
  have hmoves : Moves db (applyVerdict db memory w outcome now) w.id d
      (verdictValues outcome now d) :=
    moves_update hd hopen rfl fun k ↦ deliveries_applyVerdict ..
  have hsilence : outcome.context = none →
      SameStates db (applyVerdict db memory w outcome now) ∧ outcome.message w now = none := by
    intro hnone
    refine ⟨fun i ↦ ?_, by rw [Outcome.message, hnone]; rfl⟩
    rw [occurrences_applyVerdict, if_neg (by rw [Outcome.marks, hnone]; simp)]
  rcases conclude_cases memory w result now with ⟨hnone, hgives, hended, hsilent⟩ |
    ⟨hnone, -, hpending⟩ | ⟨c, messageId, hc, hstatus, heq⟩
  · rw [(hsilence hnone).2, Option.toList_none, List.append_nil]
    exact .giveUp (hsilence hnone).1 hmoves hended hsilent (hend hgives)
  · rw [(hsilence hnone).2, Option.toList_none, List.append_nil]
    refine Stride.keep (hsilence hnone).1 hmoves ?_
    change outcome.verdict.status.isTerminal = false
    rw [hpending]
    rfl
  · obtain ⟨o, ho, hknown, hreminder⟩ := h.context c hc
    have hmessage : outcome.message w now =
        some ⟨w.id, c.occurrence.1, c.reminder.1, w.row.userId, now⟩ := by
      change (conclude memory w result now).message w now = _
      rw [heq]
      rfl
    have heq : outcome = ⟨decideSuccess, some messageId, some c⟩ := heq
    rw [hmessage, Option.toList_some]
    refine .send hmoves ?_ ?_ ⟨(hparent c hc).symm, hreminder.symm⟩
    · change outcome.verdict.status = .sent
      rw [heq]
      rfl
    · rw [hparent c hc]
      have hopened : o.status.isTerminal = false := by rw [hknown, hstatus]
      have hmarks : outcome.marks memory =
          if isSendable o.status then some c.occurrence.1 else none := by
        rw [heq, hknown]
        rfl
      cases hsendable : isSendable o.status with
      | true =>
        rw [hsendable, if_pos rfl] at hmarks
        refine turns_setStatus ho hopened .sent fun k ↦ ?_
        rw [occurrences_applyVerdict, hmarks]
        by_cases hk : k = c.occurrence.1
        · rw [if_pos hk, if_pos (by rw [hk]), hk]
        · rw [if_neg hk, if_neg fun h ↦ hk (Option.some_inj.mp h).symm]
      | false =>
        rw [hsendable, if_neg (by simp)] at hmarks
        have hsame : ∀ k, (applyVerdict db memory w outcome now).occurrences k = db.occurrences k :=
          fun k ↦ by rw [occurrences_applyVerdict, hmarks, if_neg (by simp)]
        refine ⟨ho, hopened, ?_, fun k _ ↦ by rw [hsame]⟩
        rw [hsame, ho, Option.map_some, stateOf, eq_sent_of_not_isSendable hopened hsendable]

theorem Ready.after {w v : Work} {outcome : Outcome} {now : ℤ} (h : Ready db memory v)
    (hne : v.id ≠ w.id) :
    Ready (applyVerdict db memory w outcome now) (memory.after w outcome) v := by
  obtain ⟨d, hd, hopen, hparent⟩ := h.row
  refine ⟨⟨d, ?_, hopen, hparent⟩, fun c hc ↦ ?_⟩
  · rw [deliveries_applyVerdict, if_neg hne, hd]
  · obtain ⟨o, ho, hknown, hreminder⟩ := h.context c hc
    rw [occurrences_applyVerdict]
    cases hmarks : outcome.marks memory with
    | none =>
      rw [if_neg (by simp)]
      refine ⟨o, ho, ?_, hreminder⟩
      rw [hknown, Memory.occurrenceStatus, Memory.occurrenceStatus, Memory.after, hmarks]
      rfl
    | some k =>
      by_cases hk : k = c.occurrence.1
      · rw [if_pos (by rw [hk]), ho]
        refine ⟨_, rfl, ?_, hreminder⟩
        rw [Memory.occurrenceStatus, Memory.after, hmarks, if_pos (by simp [hk])]
      · rw [if_neg fun h ↦ hk (Option.some_inj.mp h)]
        refine ⟨o, ho, ?_, hreminder⟩
        rw [hknown, Memory.occurrenceStatus, Memory.occurrenceStatus, Memory.after, hmarks]
        simp [Ne.symm hk]

theorem deliverAll_strides {gateway : Gateway} {batch : List Work}
    (hready : ∀ w ∈ batch, Ready db memory w) (hnodup : (batch.map Work.id).Nodup)
    (hend : MayGiveUp rules gateway batch memory db) :
    Strides rules ⟨db, outbox⟩ ⟨(deliverAll gateway batch memory db).2,
      outbox ++ (deliverAll gateway batch memory db).1⟩ := by
  induction batch generalizing memory db outbox with
  | nil =>
    rw [deliverAll, List.append_nil]
  | cons w rest ih =>
    rw [List.map_cons, List.nodup_cons] at hnodup
    have hrest : ∀ v ∈ rest, Ready (applyVerdict db memory w
        (conclude memory w (gateway w.id).1 (gateway w.id).2) (gateway w.id).2)
        (memory.after w (conclude memory w (gateway w.id).1 (gateway w.id).2)) v := by
      intro v hv
      refine (hready v (List.mem_cons_of_mem _ hv)).after fun heq ↦ hnodup.1 ?_
      exact heq ▸ List.mem_map_of_mem hv
    refine .head (attempt_stride (gateway w.id).2 (hready w List.mem_cons_self) hend.1) ?_
    rw [deliverAll]
    dsimp only
    rw [← List.append_assoc]
    exact ih hrest hnodup.2 hend.2

theorem deliver_strides {now lockFor : ℤ} {batch : ℕ} {gateway : Gateway}
    (hend : MayGiveUp rules gateway
      (loadWork (db.apply (Deliveries.claimed
        (Deliveries.claimDue now lockFor batch (fun _ ↦ false) db)))
        (Deliveries.claimDue now lockFor batch (fun _ ↦ false) db)) .empty
      (db.apply (Deliveries.claimed
        (Deliveries.claimDue now lockFor batch (fun _ ↦ false) db)))) :
    Strides rules ⟨db, outbox⟩ ⟨(deliver db now lockFor batch gateway).2,
      outbox ++ (deliver db now lockFor batch gateway).1⟩ := by
  let rows := Deliveries.claimDue now lockFor batch (fun _ ↦ false) db
  let leased := db.apply (Deliveries.claimed rows)
  have hnodup := Deliveries.nodup_claimDue now lockFor batch (fun _ ↦ false) db
  have hrow : ∀ x ∈ rows, leased.deliveries x.1 = some x.2 ∧ ∃ d,
      db.deliveries x.1 = some d ∧ x.2.occurrenceId = d.occurrenceId ∧
        d.status.isTerminal = false ∧ x.2.status.isTerminal = false := by
    intro x hx
    obtain ⟨d, hd, hdue, -, hrow⟩ := Deliveries.mem_claimDue hx
    rw [Deliveries.isDue, Bool.and_eq_true, Bool.and_eq_true] at hdue
    have hopen := Deliveries.isTerminal_of_isQueued hdue.1.1
    refine ⟨Deliveries.deliveries_claimed_of_mem hnodup db hx, d, hd, ?_, hopen, ?_⟩
    · rw [hrow]
    · rw [hrow]
      exact hopen
  have hlease : Stride rules ⟨db, outbox⟩ ⟨leased, outbox⟩ := by
    refine .hold (.of_eq rfl) fun j ↦ ?_
    rcases Deliveries.deliveries_claimed hnodup db j with ⟨x, hx, rfl, hj⟩ | hj
    · obtain ⟨-, d, hd, hparent, hopen, hopen'⟩ := hrow x hx
      exact .inr ⟨d, x.2, hd, hj, hparent, hopen, hopen'⟩
    · exact .inl hj
  refine .head hlease (deliverAll_strides ?_ ?_ hend)
  · intro w hw
    obtain ⟨x, hx, rfl⟩ := List.mem_map.mp hw
    obtain ⟨hleased, -, -, -, -, hopen⟩ := hrow x hx
    refine ⟨⟨x.2, hleased, hopen, fun c hc ↦ ?_⟩, fun c hc ↦ ?_⟩
    · obtain ⟨⟨d, hd, hparent, -⟩, -⟩ := Deliveries.loadSendContext_eq_some hc
      rw [hleased] at hd
      cases hd
      exact hparent
    · obtain ⟨-, ho, hreminder, -⟩ := Deliveries.loadSendContext_eq_some hc
      exact ⟨_, ho, by simp [Memory.occurrenceStatus, Memory.empty], hreminder⟩
  · rw [loadWork, List.map_map]
    exact hnodup

end Dispatching

section Sweeping

open Reaper

variable {rules : Rules} {db : Database} {outbox : List Message} {now : ℤ}

theorem journalSilence_tables (now : ℤ) (sent : List (ℕ × Delivery)) (db : Database) :
    (journalSilence now sent db).occurrences = db.occurrences ∧
      (journalSilence now sent db).deliveries = db.deliveries := by
  induction sent generalizing db with
  | nil => exact ⟨rfl, rfl⟩
  | cons d rest ih => exact ih _

theorem expireAll_strides {overdue : List (ℕ × Occurrence)}
    (hrow : ∀ x ∈ overdue, db.occurrences x.1 = some x.2 ∧ x.2.status.isTerminal = false)
    (hnodup : (overdue.map Prod.fst).Nodup) :
    Strides rules ⟨db, outbox⟩ ⟨expireAll now overdue db, outbox⟩ := by
  induction overdue generalizing db with
  | nil => exact .refl
  | cons x rest ih =>
    rw [List.map_cons, List.nodup_cons] at hnodup
    obtain ⟨ho, hopen⟩ := hrow x List.mem_cons_self
    obtain ⟨hoccurrences, hdeliveries⟩ :=
      journalSilence_tables now (Deliveries.listSentForOccurrence db x.1) db
    have hstep : ∀ k, (expireAll now [x] db).occurrences k = if k = x.1 then
        (db.occurrences x.1).map fun o ↦ { o with status := .expired } else db.occurrences k := by
      intro k
      rw [← hoccurrences]
      exact Occurrences.occurrences_setStatus ..
    have hexpire : Stride rules ⟨db, outbox⟩ ⟨expireAll now [x] db, outbox⟩ :=
      .expire hdeliveries (turns_setStatus ho hopen .expired hstep)
    refine .head hexpire (ih (fun y hy ↦ ?_) hnodup.2)
    have hne : y.1 ≠ x.1 := fun heq ↦ hnodup.1 (heq ▸ List.mem_map_of_mem hy)
    obtain ⟨hy, hopen⟩ := hrow y (List.mem_cons_of_mem _ hy)
    exact ⟨((hstep y.1).trans (if_neg hne)).trans hy, hopen⟩

theorem repeatAll_strides {candidates : List Deliveries.RepeatCandidate} {bumped : List ℕ}
    (hrow : ∀ c ∈ candidates, ∃ d, db.deliveries c.delivery.1 = some d ∧
      d.status.isTerminal = false) :
    Strides rules ⟨db, outbox⟩ ⟨repeatAll now candidates bumped db, outbox⟩ := by
  induction candidates generalizing db bumped with
  | nil => exact .refl
  | cons c rest ih =>
    have hrest := fun c' hc' ↦ hrow c' (List.mem_cons_of_mem c hc')
    rw [repeatAll]
    split
    · exact ih hrest
    · rename_i moment _
      obtain ⟨d, hd, hopen⟩ := hrow c List.mem_cons_self
      have hupdate : ∀ k, (db.run (Deliveries.updateFields c.delivery.1
          (requeue moment))).deliveries k = if k = c.delivery.1 then
            (db.deliveries c.delivery.1).map (requeue moment) else db.deliveries k :=
        Deliveries.deliveries_updateFields db _ _
      have hkept : ∀ c' ∈ rest, ∃ d, (db.run (Deliveries.updateFields c.delivery.1
          (requeue moment))).deliveries c'.delivery.1 = some d ∧
            d.status.isTerminal = false := by
        intro c' hc'
        rw [hupdate]
        split
        · rw [hd]
          exact ⟨_, rfl, rfl⟩
        · exact hrest c' hc'
      split
      · have hkeep : Stride rules ⟨db, outbox⟩
            ⟨db.run (Deliveries.updateFields c.delivery.1 (requeue moment)), outbox⟩ :=
          .keep (.of_eq rfl) (moves_update hd hopen rfl hupdate) rfl
        exact .head hkeep (ih hkept)
      · have hbump : SameStates db ((db.run (Deliveries.updateFields c.delivery.1
            (requeue moment))).run (Occurrences.bumpRepeats c.occurrence.1)) := by
          intro i
          change ((db.occurrences.writes (db.occurrences.update c.occurrence.1 _)) i).map _ = _
          rw [Table.writes_update]
          split
          · rename_i hi
            rw [Option.map_map, hi]
            rfl
          · rfl
        have hkeep : Stride rules ⟨db, outbox⟩ ⟨(db.run (Deliveries.updateFields c.delivery.1
            (requeue moment))).run (Occurrences.bumpRepeats c.occurrence.1), outbox⟩ :=
          .keep hbump (moves_update hd hopen rfl hupdate) rfl
        exact .head hkeep (ih hkept)

theorem sweep_strides (batch : ℕ) :
    Strides rules ⟨db, outbox⟩ ⟨sweep db now batch, outbox⟩ := by
  have hexpire : Strides rules ⟨db, outbox⟩ ⟨expireAll now (overdue db now batch) db, outbox⟩ := by
    refine expireAll_strides (fun x hx ↦ ?_) ?_
    · obtain ⟨ho, -, hopen⟩ := Occurrences.mem_listExpired (List.mem_of_mem_filter hx)
      exact ⟨ho, hopen⟩
    · exact (Occurrences.nodup_listExpired db now batch).sublist (List.filter_sublist.map _)
  have hrepeat : Strides rules ⟨expireAll now (overdue db now batch) db, outbox⟩
      ⟨repeatAll now (Deliveries.listRepeatCandidates (expireAll now (overdue db now batch) db) now
        batch) [] (expireAll now (overdue db now batch) db), outbox⟩ :=
    repeatAll_strides fun c hc ↦ by
      obtain ⟨hrow, hsent⟩ := Deliveries.mem_listRepeatCandidates hc
      exact ⟨_, hrow, by rw [hsent]; rfl⟩
  refine (hexpire.trans hrepeat).tail (.hold (.of_eq rfl) fun j ↦ ?_)
  rw [sweep, Deliveries.deliveries_releaseStaleLocks]
  cases hd : (repeatAll now (Deliveries.listRepeatCandidates
    (expireAll now (overdue db now batch) db) now batch) []
    (expireAll now (overdue db now batch) db)).deliveries j with
  | none => exact .inl rfl
  | some d =>
    rw [Option.map_some]
    split
    · rename_i hstale
      rw [Deliveries.isStale, Bool.and_eq_true] at hstale
      have hopen := Deliveries.isTerminal_of_isQueued hstale.2
      exact .inr ⟨d, _, rfl, rfl, rfl, hopen, hopen⟩
    · exact .inl rfl

end Sweeping

section Answering

variable {rules : Rules} {db : Database} {outbox : List Message}

theorem react_strides {db' : Database} {now : ℤ} {deliveryId userId : ℕ} {action : Action}
    {result : ReactionResult}
    (h : Reactions.react db now deliveryId userId action = .ok (result, db')) :
    Strides rules ⟨db, outbox⟩ ⟨db', outbox⟩ := by
  rcases Reactions.react_eq_ok h with ⟨-, rfl⟩ |
    ⟨-, d, o, r, u, reaction, hd, -, ho, -, hopen, hreaction, rfl⟩
  · exact .refl
  obtain ⟨hopen, hoccurrence, -⟩ := checkReactable_eq_none hopen
  have hupdate : ∀ k, (Reactions.write deliveryId userId reaction now r.snoozeMinutes db).deliveries k =
      if k = deliveryId then (db.deliveries deliveryId).map (Reactions.values reaction)
      else db.deliveries k := Deliveries.deliveries_updateFields db _ _
  obtain ⟨hkind, ⟨hsnooze, hstatus⟩ | ⟨-, hanswer, status, hrollup, hclosed⟩⟩ :=
    decideReaction_eq_ok hreaction
  · have hmoves := moves_update hd hopen rfl hupdate
    have hpostponed : reaction.isTerminal = false := by
      rw [Reaction.isTerminal, hstatus]
      rfl
    rw [Reactions.closeOccurrence, hpostponed]
    exact .single (.keep (.of_eq rfl) hmoves hpostponed)
  · let written := Reactions.write deliveryId userId reaction now r.snoozeMinutes db
    have hterminal : reaction.isTerminal = true := DeliveryStatus.isTerminal_of_isAnswer hanswer
    have hdeliveries :=
      Reactions.deliveries_closeOccurrence d.occurrenceId reaction written
    have hmoves : Moves db (Reactions.closeOccurrence d.occurrenceId reaction written) deliveryId d
        (Reactions.values reaction d) :=
      moves_update hd hopen rfl fun k ↦ by rw [hdeliveries, hupdate]
    have hclose := Reactions.closeOccurrence_eq d.occurrenceId written
      hterminal (hkind ▸ hrollup)
    refine .single (.answer hmoves hanswer ?_)
    cases hall : Occurrences.allDeliveriesTerminal written d.occurrenceId with
    | true =>
      rw [hall, if_pos rfl] at hclose
      refine .inr ⟨o, status, turns_setStatus ho hoccurrence status fun k ↦ ?_, hclosed⟩
      rw [hclose]
      exact Occurrences.occurrences_setStatus ..
    | false =>
      rw [hall, if_neg (by simp)] at hclose
      refine .inl ⟨hclose ▸ .of_eq rfl, ?_⟩
      rw [hdeliveries]
      by_contra hnone
      rw [← Bool.not_eq_true, Occurrences.allDeliveriesTerminal_iff] at hall
      refine hall fun k e he hparent ↦ ?_
      by_contra hlive
      exact hnone ⟨k, e, he, hparent, eq_false_of_ne_true hlive⟩

end Answering

section Planning

open Planning

variable {rules : Rules} {settings : Planning.Settings} {horizonEnd : ℤ} {db : Database}
  {outbox : List Message}

theorem materializeOne_strides {rid : ℕ} {r : Reminder} {owner : User}
    (hplan : rules.mayPlan rid) :
    Strides rules ⟨db, outbox⟩ ⟨materializeOne settings horizonEnd (rid, r) owner db, outbox⟩ := by
  let moments := plan horizonEnd rid r db
  let planned := db.apply (planWrites settings horizonEnd rid r owner db)
  let queued := createDeliveries rid moments planned
  have hexpand : Stride rules ⟨db, outbox⟩ ⟨planned, outbox⟩ := by
    refine .plan rfl (fun i o ho ↦ Table.insertMissing_kept ho) fun i o ho ↦ ?_
    rcases Table.insertMissing_some ho with hold | ⟨hnone, hmem, -⟩
    · exact .inl hold
    · obtain ⟨m, -, rfl⟩ := List.mem_map.mp hmem
      exact .inr ⟨hnone, hplan, rfl⟩
  have hqueue : Stride rules ⟨planned, outbox⟩ ⟨queued, outbox⟩ := by
    refine .enqueue (.of_eq rfl) (fun j d hd ↦ Table.insertMissing_kept hd) fun j d hd ↦ ?_
    rcases Table.insertMissing_some hd with hold | ⟨hnone, hmem, -⟩
    · exact .inl hold
    · rw [wantedDeliveries] at hmem
      split at hmem
      · cases hmem
      · obtain ⟨x, hx, hmem⟩ := List.mem_flatMap.mp hmem
        obtain ⟨u, -, rfl⟩ := List.mem_map.mp hmem
        obtain ⟨ho, hpick⟩ := Table.mem_select.mp hx
        rw [Bool.and_eq_true, decide_eq_true_eq] at hpick
        exact .inr ⟨hnone, rfl, x.2, ho, .inl (hpick.1 ▸ hplan)⟩
  have hsettle : Stride rules ⟨queued, outbox⟩
      ⟨materializeOne settings horizonEnd (rid, r) owner db, outbox⟩ := by
    refine .aside (settle_occurrences ..) ?_
    rw [materializeOne_eq, settle]
    split <;> rfl
  exact .head hexpand (.head hqueue (.single hsettle))

theorem materializeAll_strides {due : List (ℕ × Reminder)} (hplan : ∀ x ∈ due, rules.mayPlan x.1) :
    Strides rules ⟨db, outbox⟩ ⟨materializeAll settings horizonEnd due db, outbox⟩ := by
  induction due generalizing db with
  | nil => exact .refl
  | cons x rest ih =>
    have hrest := fun y hy ↦ hplan y (List.mem_cons_of_mem x hy)
    rw [materializeAll]
    split
    · exact ih hrest
    · exact (materializeOne_strides (hplan x List.mem_cons_self)).trans (ih hrest)

theorem dropQueued_stride (rid : ℕ) (r : Reminder) :
    Stride rules ⟨db, outbox⟩ ⟨Reminders.dropQueued rid r db, outbox⟩ :=
  .drop rid (Reminders.dropQueued_occurrences rid r db) fun _ ↦ Table.writes_deleteWhere ..

end Planning

/-- What the rules ask of an operation. -/
def Operation.Obeys (rules : Rules) (settings : Settings) (w : World) : Operation → Prop
  | .materialize now =>
    ∀ x ∈ Db.Reminders.dueForPlanning w.db (now + settings.planning.horizon)
      settings.planning.batchSize, rules.mayPlan x.1
  | .deliver now gateway =>
    let claimed := Deliveries.claimDue now settings.lockFor settings.dispatcherBatch
      (fun _ ↦ false) w.db
    let db := w.db.apply (Deliveries.claimed claimed)
    MayGiveUp rules gateway (Dispatching.loadWork db claimed) .empty db
  | .accept now userId reminderId =>
    (Recipients.accept reminderId userId now w.db).recipients ≠ [] →
      ∀ x ∈ Occurrences.listUpcoming w.db reminderId now, rules.mayJoin x.2
  | .leave _ userId reminderId =>
    rules.mayEnd w.db fun _ d ↦ Deliveries.isPendingFor w.db reminderId userId d
  | _ => True

section Decide

variable (rules : Rules) [∀ db gone, Decidable (rules.mayEnd db gone)]
  [∀ rid, Decidable (rules.mayPlan rid)] [∀ o, Decidable (rules.mayJoin o)]

instance MayGiveUp.decidable (gateway : Dispatching.Gateway) : ∀ batch memory db,
    Decidable (MayGiveUp rules gateway batch memory db)
  | [], _, _ => isTrue trivial
  | _ :: rest, _, _ =>
    have := fun memory db ↦ MayGiveUp.decidable gateway rest memory db
    inferInstanceAs (Decidable (_ ∧ _))

instance (settings : Settings) (w : World) :
    ∀ op : Operation, Decidable (op.Obeys rules settings w)
  | .materialize _ => inferInstanceAs (Decidable (∀ x ∈ _, _))
  | .deliver _ _ => inferInstanceAs (Decidable (MayGiveUp rules _ _ _ _))
  | .accept .. => inferInstanceAs (Decidable (_ ≠ [] → ∀ x ∈ _, _))
  | .leave .. => inferInstanceAs (Decidable (rules.mayEnd _ _))
  | .create .. | .react .. | .sweep .. | .setStatus .. | .update .. | .issueInvite ..
  | .revokeInvite .. | .openInvite .. | .decline .. => isTrue trivial

end Decide

section Operations

variable {rules : Rules} {settings : Settings} {w w' : World} {op : Operation}

/-- Every operation is a chain of elementary changes. -/
theorem perform_strides (hobeys : op.Obeys rules settings w)
    (h : perform settings w op = some w') : Strides rules w w' := by
  cases op with
  | create now ownerId draft =>
    obtain ⟨db', hdb, rfl⟩ := over_eq_some h
    obtain ⟨-, rfl⟩ := Reminders.create_eq_ok hdb
    exact .single (.aside rfl rfl)
  | materialize now =>
    cases h
    exact materializeAll_strides hobeys
  | deliver now gateway =>
    cases h
    exact deliver_strides hobeys
  | react now deliveryId userId action =>
    obtain ⟨result, db', hreact, rfl⟩ := over_snd_eq_some h
    exact react_strides hreact
  | sweep now =>
    cases h
    exact sweep_strides _
  | setStatus now ownerId rid status =>
    obtain ⟨db', hdb, rfl⟩ := over_eq_some h
    obtain ⟨r, -, rfl⟩ := Reminders.setStatus_eq_ok hdb
    split
    · exact .single (.aside rfl rfl)
    · exact .head (dropQueued_stride rid r) (.single (.aside rfl rfl))
  | update now ownerId rid change =>
    obtain ⟨db', hdb, rfl⟩ := over_eq_some h
    obtain ⟨r, -, -, rfl⟩ := Reminders.update_eq_ok hdb
    split
    · exact .head (dropQueued_stride rid r) (.single (.aside rfl rfl))
    · exact .single (.aside rfl rfl)
  | issueInvite now ownerId reminderId token =>
    obtain ⟨db', hdb, rfl⟩ := over_eq_some h
    obtain rfl := Sharing.issueInvite_eq_ok hdb
    exact .single (.aside rfl rfl)
  | revokeInvite now ownerId reminderId =>
    obtain ⟨db', hdb, rfl⟩ := over_eq_some h
    obtain rfl := Sharing.revokeInvite_eq_ok hdb
    exact .single (.aside rfl rfl)
  | openInvite now token userId =>
    obtain ⟨db', hdb, rfl⟩ := over_eq_some h
    rcases Sharing.openInvite_eq_ok hdb with rfl | ⟨rid, -, rfl⟩
    · exact .refl
    · exact .single (.aside rfl rfl)
  | accept now userId reminderId =>
    obtain ⟨db', hdb, rfl⟩ := over_eq_some h
    obtain ⟨_, -, hdb⟩ := bind_eq_ok.mp hdb
    cases hdb
    split
    · exact .single (.aside rfl rfl)
    · rename_i hjoined
      refine .single (.enqueue (.of_eq rfl) (fun j d hd ↦ Table.insertMissing_kept hd)
        fun j d hd ↦ ?_)
      rcases Table.insertMissing_some hd with hold | ⟨hnone, hmem, -⟩
      · exact .inl hold
      · obtain ⟨x, hx, rfl⟩ := List.mem_map.mp hmem
        exact .inr ⟨hnone, rfl, x.2, (Table.mem_select.mp (mem_orderBy.mp hx)).1,
          .inr (hobeys hjoined x hx)⟩
  | decline now userId reminderId =>
    cases h
    exact .single (.aside rfl rfl)
  | leave now userId reminderId =>
    cases h
    refine .single (.withdraw (.of_eq rfl) (fun j d hgone ↦ ?_)
      (fun j ↦ Table.writes_deleteWhere ..) hobeys)
    rw [Deliveries.isPendingFor, Bool.and_eq_true, Bool.and_eq_true, decide_eq_true_eq,
      decide_eq_true_eq] at hgone
    exact hgone.1.2

theorem mayGiveUp_of_forall (h : ∀ db gone, rules.mayEnd db gone) (gateway : Dispatching.Gateway)
    (batch : List Dispatching.Work) (memory : Dispatching.Memory) (db : Database) :
    MayGiveUp rules gateway batch memory db := by
  induction batch generalizing memory db with
  | nil => trivial
  | cons w rest ih => exact ⟨fun _ ↦ h _ _, ih _ _⟩

theorem obeys_free (settings : Settings) (w : World) (op : Operation) :
    op.Obeys .free settings w := by
  cases op with
  | deliver now gateway => exact mayGiveUp_of_forall (fun _ _ ↦ trivial) ..
  | materialize now => exact fun _ _ ↦ trivial
  | accept now userId rid => exact fun _ _ _ ↦ trivial
  | _ => trivial

/-- Whatever happens next, a closed occurrence stays as it is. -/
theorem closed_run {ops : List Operation} (hrun : run (perform settings) w ops = some w') {i : ℕ}
    {o : Occurrence} (ho : w.db.occurrences i = some o) (hclosed : o.status.isTerminal = true) :
    (w'.db.occurrences i).map stateOf = some (stateOf o) := by
  refine run_preserves (P := fun w' ↦ (w'.db.occurrences i).map stateOf = some (stateOf o))
    (fun w₁ op w₂ h₁ hstep ↦ ?_) hrun (by rw [ho, Option.map_some])
  obtain ⟨o₁, ho₁, hstate⟩ := Option.map_eq_some_iff.mp h₁
  rw [← hstate]
  refine (perform_strides (obeys_free settings w₁ op) hstep).closed ho₁ ?_
  rw [show o₁.status = o.status from congrArg Prod.snd hstate]
  exact hclosed

end Operations

end Remindo.Serial
