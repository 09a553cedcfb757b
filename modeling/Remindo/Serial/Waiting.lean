import Remindo.Foundation.Waiting
import Remindo.Serial.Leases

namespace Remindo.Serial

open Remindo.Domain Remindo.Db Remindo.Services Remindo.Foundation

/-- The order queues are read in: by moment, then by id. -/
def precedes (moment : ℤ) (i : ℕ) (moment' : ℤ) (j : ℕ) : Bool :=
  decide (moment < moment') || decide (moment = moment') && decide (i < j)

section Order

variable {α : Type} {key : α → ℤ}

theorem precedes_iff {moment moment' : ℤ} {i j : ℕ} : precedes moment i moment' j = true ↔
    moment < moment' ∨ moment = moment' ∧ i < j := by
  simp [precedes]

theorem le_of_precedes {moment moment' : ℤ} {i j : ℕ} (h : precedes moment i moment' j = true) :
    moment ≤ moment' := by
  rcases precedes_iff.mp h with h | h
  · exact h.le
  · exact h.1.le

/-- Rows in the order of their ids come out in queue order. -/
theorem pairwise_orderBy {rows : List (ℕ × α)} (h : rows.Pairwise fun a b ↦ a.1 < b.1) :
    (orderBy key rows).Pairwise fun a b ↦ precedes (key a.2) a.1 (key b.2) b.1 = true := by
  induction rows with
  | nil => exact .nil
  | cons a rows ih =>
    rw [List.pairwise_cons] at h
    have hfirst : ∀ b ∈ orderBy key rows, a.1 < b.1 := fun b hb ↦ h.1 b (mem_orderBy.mp hb)
    have hsorted := ih h.2
    rw [orderBy, List.insertionSort_cons, ← orderBy]
    generalize orderBy key rows = sorted at hfirst hsorted ⊢
    induction sorted with
    | nil => exact List.pairwise_singleton _ _
    | cons b sorted ih =>
      rw [List.pairwise_cons] at hsorted
      rw [List.orderedInsert_cons]
      split
      · rename_i hle
        have hb : precedes (key a.2) a.1 (key b.2) b.1 = true := by
          have := hfirst b List.mem_cons_self
          rw [precedes_iff]
          omega
        refine List.pairwise_cons.mpr ⟨fun c hc ↦ ?_, List.pairwise_cons.mpr hsorted⟩
        rcases List.mem_cons.mp hc with rfl | hc
        · exact hb
        · have hc' := hsorted.1 c hc
          rw [precedes_iff] at hb hc' ⊢
          omega
      · rename_i hlt
        refine List.pairwise_cons.mpr ⟨fun c hc ↦ ?_,
          ih (fun c hc ↦ hfirst c (List.mem_cons_of_mem _ hc)) hsorted.2⟩
        rcases (List.mem_orderedInsert _).mp hc with rfl | hc
        · rw [precedes_iff]
          omega
        · exact hsorted.1 c hc

/-- Whatever a batch leaves behind, a full batch has gone before. -/
theorem take_of_notMem {R : α → α → Prop} {queue : List α} (h : queue.Pairwise R) {n : ℕ} {x : α}
    (hx : x ∈ queue) (hleft : x ∉ queue.take n) :
    (queue.take n).length = n ∧ ∀ y ∈ queue.take n, R y x := by
  have hdrop : x ∈ queue.drop n := by
    rw [← List.take_append_drop n queue, List.mem_append] at hx
    exact hx.resolve_left hleft
  rw [← List.take_append_drop n queue, List.pairwise_append] at h
  have hlength := List.length_pos_of_mem hdrop
  rw [List.length_drop] at hlength
  exact ⟨by rw [List.length_take]; omega, fun y hy ↦ h.2.2 y hy x hdrop⟩

end Order

section Attempts

open Dispatching

variable {db : Database} {now lockFor : ℤ} {batch i j : ℕ} {d : Delivery} {gateway : Gateway}

/-- A delivery that a claim passes over is behind a full batch. -/
theorem claims_in_turn (hd : db.deliveries j = some d) (hdue : Deliveries.isDue now d = true)
    (hleft : j ∉ (Deliveries.claimDue now lockFor batch (fun _ ↦ false) db).map Prod.fst) :
    (Deliveries.claimDue now lockFor batch (fun _ ↦ false) db).length = batch ∧
      ∀ x ∈ Deliveries.claimDue now lockFor batch (fun _ ↦ false) db, ∃ d',
        db.deliveries x.1 = some d' ∧ Deliveries.isQueued d' = true ∧
          precedes d'.nextAttemptAt x.1 d.nextAttemptAt j = true := by
  let due := db.deliveries.select fun i d ↦ Deliveries.isDue now d && !(fun _ ↦ false) i
  have hsorted : (orderBy Delivery.nextAttemptAt due).Pairwise fun a b ↦
      precedes a.2.nextAttemptAt a.1 b.2.nextAttemptAt b.1 = true :=
    pairwise_orderBy (Table.pairwise_select _ _)
  have hmem : (j, d) ∈ orderBy Delivery.nextAttemptAt due :=
    mem_orderBy.mpr (Table.mem_select.mpr ⟨hd, by rw [hdue]; rfl⟩)
  have hnot : (j, d) ∉ (orderBy Delivery.nextAttemptAt due).take batch := fun h ↦ hleft <| by
    rw [Deliveries.claimDue, List.map_map]
    exact List.mem_map.mpr ⟨(j, d), h, rfl⟩
  obtain ⟨hlength, hahead⟩ := take_of_notMem hsorted hmem hnot
  refine ⟨by rw [Deliveries.claimDue, List.length_map]; exact hlength, fun x hx ↦ ?_⟩
  obtain ⟨y, hy, rfl⟩ := List.mem_map.mp hx
  obtain ⟨hrow, hpick⟩ := Table.mem_select.mp (mem_orderBy.mp (List.mem_of_mem_take hy))
  simp only [Deliveries.isDue, Bool.and_eq_true] at hpick
  exact ⟨y.2, hrow, hpick.1.1.1, hahead y hy⟩

theorem lt_nextAttempt (attempts : ℕ) (errorClass : ErrorClass) (now : ℤ) (retryAfter : Option ℤ)
    (h : errorClass.isFatal = false) : now < nextAttempt attempts errorClass now retryAfter h := by
  rw [nextAttempt]
  split
  · have hwait : 0 < (max (retryAfter.getD 0) 0 + 1) * second :=
      Int.mul_pos (by omega) (by decide)
    omega
  · have hbackoff : 0 < baseBackoff * 2 ^ min (max attempts 1 - 1) 16 :=
      Int.mul_pos (by decide) (Int.pow_pos (by decide))
    have hmax : 0 < maxBackoff := by decide
    dsimp only
    omega

/-- What an attempt puts back is put behind the moment it was made at. -/
theorem lt_of_verdict_queued {memory : Memory} {w : Work} {result : SendResult}
    (h : Deliveries.isQueued (verdictValues (conclude memory w result now) now d) = true) :
    now < (verdictValues (conclude memory w result now) now d).nextAttemptAt := by
  have hended : ∀ {v : Verdict} {ref context}, v.status.isTerminal = true →
      Deliveries.isQueued (verdictValues ⟨v, ref, context⟩ now d) = true → False := by
    intro v ref context hv hqueued
    have hopen := Deliveries.isTerminal_of_isQueued hqueued
    rw [show (verdictValues ⟨v, ref, context⟩ now d).status = v.status from rfl, hv] at hopen
    cases hopen
  have habort : ∀ reason, (decideAbort reason w.row.attempts).status.isTerminal = true := by
    intro reason
    cases reason <;> rfl
  unfold conclude at h ⊢
  cases hc : w.context with
  | none =>
    rw [hc] at h
    exact (hended (habort _) h).elim
  | some c =>
    rw [hc] at h
    dsimp only at h ⊢
    cases hcheck : checkDeliverable (memory.occurrenceStatus c) (memory.userBlocked c) with
    | some reason =>
      rw [hcheck] at h
      exact (hended (habort _) h).elim
    | none =>
      rw [hcheck] at h
      cases result with
      | delivered messageId => simp [verdictValues, decideSuccess, Deliveries.isQueued] at h
      | failed errorClass retryAfter errorCode =>
        dsimp only [decideFailure] at h ⊢
        by_cases hforbidden : errorClass = .forbidden
        · rw [if_pos hforbidden] at h
          exact (hended rfl h).elim
        rw [if_neg hforbidden] at h ⊢
        by_cases hretry : shouldRetry w.row.attempts errorClass = true
        · rw [dif_pos hretry]
          exact lt_nextAttempt _ _ _ _ (not_isFatal_of_shouldRetry hretry)
        · rw [dif_neg hretry] at h
          exact (hended rfl h).elim

theorem deliverAll_queued {batch : List Work} {memory : Memory}
    (hd : (deliverAll gateway batch memory db).2.deliveries i = some d)
    (hqueued : Deliveries.isQueued d = true) :
    i ∉ batch.map Work.id ∧ db.deliveries i = some d ∨
      i ∈ batch.map Work.id ∧ (gateway i).2 < d.nextAttemptAt := by
  induction batch generalizing memory db with
  | nil => exact .inl ⟨List.not_mem_nil, hd⟩
  | cons w rest ih =>
    rcases ih hd with ⟨hrest, hrow⟩ | ⟨hrest, hlater⟩
    · rw [deliveries_applyVerdict] at hrow
      split at hrow
      · rename_i hi
        obtain ⟨d₀, -, rfl⟩ := Option.map_eq_some_iff.mp hrow
        rw [hi]
        exact .inr ⟨List.mem_cons_self, lt_of_verdict_queued hqueued⟩
      · rename_i hi
        exact .inl ⟨by rw [List.map_cons, List.mem_cons, not_or]; exact ⟨hi, hrest⟩, hrow⟩
    · exact .inr ⟨List.mem_cons_of_mem _ hrest, hlater⟩

theorem deliver_queued (hd : (deliver db now lockFor batch gateway).2.deliveries i = some d)
    (hqueued : Deliveries.isQueued d = true) :
    i ∉ (Deliveries.claimDue now lockFor batch (fun _ ↦ false) db).map Prod.fst ∧
        db.deliveries i = some d ∨
      i ∈ (Deliveries.claimDue now lockFor batch (fun _ ↦ false) db).map Prod.fst ∧
        (gateway i).2 < d.nextAttemptAt := by
  have hrow := deliverAll_queued hd hqueued
  rw [loadWork, List.map_map] at hrow
  refine hrow.imp_left fun h ↦ ⟨h.1, ?_⟩
  rw [← h.2]
  refine (Table.writes_apply_of_notMem ?_).symm
  rw [Deliveries.claimed, Deliveries.claimed_ids]
  exact h.1

theorem deliverAll_other {batch : List Work} {memory : Memory} (h : i ∉ batch.map Work.id) :
    (deliverAll gateway batch memory db).2.deliveries i = db.deliveries i := by
  induction batch generalizing memory db with
  | nil => rfl
  | cons w rest ih =>
    rw [List.map_cons, List.mem_cons, not_or] at h
    exact (ih h.2).trans ((deliveries_applyVerdict ..).trans (if_neg h.1))

/-- A tick leaves what it does not claim alone. -/
theorem deliver_other
    (h : i ∉ (Deliveries.claimDue now lockFor batch (fun _ ↦ false) db).map Prod.fst) :
    (deliver db now lockFor batch gateway).2.deliveries i = db.deliveries i := by
  refine (deliverAll_other ?_).trans (Table.writes_apply_of_notMem ?_)
  · rw [loadWork, List.map_map]
    exact h
  · rw [Deliveries.claimed, Deliveries.claimed_ids]
    exact h

end Attempts

section Requeues

variable {db db' : Database} {now : ℤ} {i : ℕ} {d : Delivery}

/-- The row stood in the queue already, and at the same place. -/
def Stood (db : Database) (i : ℕ) (d : Delivery) : Prop :=
  ∃ d₀, db.deliveries i = some d₀ ∧ Deliveries.isQueued d₀ = true ∧
    d₀.nextAttemptAt = d.nextAttemptAt

theorem le_of_repeatAt {c : Deliveries.RepeatCandidate} {moment : ℤ}
    (h : Reaper.repeatAt now c = some moment) : now ≤ moment := by
  unfold Reaper.repeatAt decideRepeat at h
  split at h
  · split at h
    · cases h
    · split at h
      · cases h
      · dsimp only at h
        split at h
        · cases h
        · cases h
          exact (quietHoursOf c.user).le_shift now
  · cases h

/-- A snooze comes back no earlier than it was asked for. -/
theorem le_of_snoozed {kind : ActionKind} {minutes : ℕ} {quiet : QuietHours} {expiresAt : ℤ}
    {reaction : Reaction} (h : decideReaction kind now minutes quiet expiresAt = .ok reaction)
    (hsnoozed : reaction.status = .snoozed) :
    ∃ til, reaction.snoozedUntil = some til ∧ now ≤ til := by
  cases kind with
  | snooze =>
    rw [decideReaction, if_pos rfl] at h
    split at h
    · cases h
    · cases h
      refine ⟨_, rfl, le_trans ?_ (le_postpone now minutes quiet expiresAt)⟩
      have hlong : 0 ≤ minutes * minute := Int.mul_nonneg (by omega) (by decide)
      omega
  | done | skip =>
    cases h
    cases hsnoozed
  | autoExpire => cases h

theorem repeatAll_queued {candidates : List Deliveries.RepeatCandidate} {bumped : List ℕ}
    (hd : (Reaper.repeatAll now candidates bumped db).deliveries i = some d) :
    db.deliveries i = some d ∨ now ≤ d.nextAttemptAt := by
  induction candidates generalizing bumped db with
  | nil => exact .inl hd
  | cons c rest ih =>
    rw [Reaper.repeatAll] at hd
    cases hrepeat : Reaper.repeatAt now c with
    | none =>
      rw [hrepeat] at hd
      exact ih hd
    | some moment =>
      rw [hrepeat] at hd
      have hback : (db.run (Deliveries.updateFields c.delivery.1 (Reaper.requeue moment))).deliveries
          i = some d → db.deliveries i = some d ∨ now ≤ d.nextAttemptAt := by
        intro hrow
        rw [Deliveries.deliveries_updateFields] at hrow
        split at hrow
        · obtain ⟨d₀, -, rfl⟩ := Option.map_eq_some_iff.mp hrow
          exact .inr (le_of_repeatAt hrepeat)
        · exact .inl hrow
      dsimp only at hd
      split at hd
      · exact (ih hd).elim hback .inr
      · exact (ih hd).elim hback .inr

theorem sweep_stood {batch : ℕ} (hd : (Reaper.sweep db now batch).deliveries i = some d)
    (hqueued : Deliveries.isQueued d = true) : Stood db i d ∨ now ≤ d.nextAttemptAt := by
  rw [Reaper.sweep, Deliveries.deliveries_releaseStaleLocks] at hd
  obtain ⟨d₁, hd₁, rfl⟩ := Option.map_eq_some_iff.mp hd
  have hsame : ∀ e : Delivery, (if Deliveries.isStale now d₁ then { d₁ with lockedUntil := none }
      else d₁) = e → Deliveries.isQueued d₁ = Deliveries.isQueued e ∧
        d₁.nextAttemptAt = e.nextAttemptAt := by
    rintro e rfl
    split <;> exact ⟨rfl, rfl⟩
  obtain ⟨hq, hmoment⟩ := hsame _ rfl
  rw [← hmoment]
  refine (repeatAll_queued hd₁).imp_left fun hrow ↦ ⟨d₁, ?_, hq.trans hqueued, hmoment⟩
  rw [← expireAll_deliveries now (Reaper.overdue db now batch) db]
  exact hrow

theorem react_stood {deliveryId userId : ℕ} {action : Action} {result : ReactionResult}
    (h : Reactions.react db now deliveryId userId action = .ok (result, db'))
    (hd : db'.deliveries i = some d) (hqueued : Deliveries.isQueued d = true) :
    Stood db i d ∨ now ≤ d.nextAttemptAt := by
  have hold : db.deliveries i = some d → Stood db i d := fun hrow ↦ ⟨d, hrow, hqueued, rfl⟩
  rcases Reactions.react_eq_ok h with ⟨-, rfl⟩ |
    ⟨-, d₀, o, r, u, reaction, -, -, -, -, -, hreaction, rfl⟩
  · exact .inl (hold hd)
  · rw [Reactions.deliveries_closeOccurrence] at hd
    have hrow := (Deliveries.deliveries_updateFields db deliveryId (Reactions.values reaction)
      i).symm.trans hd
    split at hrow
    · obtain ⟨d₁, -, rfl⟩ := Option.map_eq_some_iff.mp hrow
      have hsnoozed : reaction.status = .snoozed := by
        rcases (decideReaction_eq_ok hreaction).2 with ⟨-, hstatus⟩ | ⟨-, hanswer, -⟩
        · exact hstatus
        · rw [Deliveries.isQueued] at hqueued
          cases hs : reaction.status <;> simp_all [DeliveryStatus.isAnswer, Reactions.values]
      obtain ⟨til, htil, hle⟩ := le_of_snoozed hreaction hsnoozed
      rw [Reactions.values, htil]
      exact .inr hle
    · exact .inl (hold hrow)

end Requeues

/-- The call is made at or after `since`, the transport answers no earlier, and
the planner queues nothing for an earlier moment. -/
def Operation.QueuesFrom (since : ℤ) (settings : Settings) (w : World) : Operation → Prop
  | .deliver now gateway => since ≤ now ∧ ∀ i ∈ (Deliveries.claimDue now settings.lockFor
      settings.dispatcherBatch (fun _ ↦ false) w.db).map Prod.fst, since ≤ (gateway i).2
  | .materialize now => ∀ i d,
      (Planning.materialize settings.planning now w.db).deliveries i = some d →
        w.db.deliveries i = none → since ≤ d.nextAttemptAt
  | op => since ≤ op.now

/-- The tick hands out the delivery for an attempt. -/
def Operation.Claims (settings : Settings) (w : World) (j : ℕ) : Operation → Prop
  | .deliver now _ => j ∈ (Deliveries.claimDue now settings.lockFor settings.dispatcherBatch
      (fun _ ↦ false) w.db).map Prod.fst
  | _ => False

def Operation.isTapOn (j : ℕ) : Operation → Bool
  | .react _ i _ _ => decide (i = j)
  | _ => false

/-- How many deliveries stand before a place in the queue. -/
def ahead (db : Database) (moment : ℤ) (j : ℕ) : ℕ :=
  (db.deliveries.select fun i d ↦
    Deliveries.isQueued d && precedes d.nextAttemptAt i moment j).length

section Runs

variable {settings : Settings} {w w' : World} {op : Operation} {since : ℤ} {i j : ℕ} {d : Delivery}

theorem accept_stood {db db' : Database} {now : ℤ} {userId rid : ℕ}
    (h : Sharing.accept db now userId rid = .ok db') (hd : db'.deliveries i = some d) :
    db.deliveries i = some d ∨ now ≤ d.nextAttemptAt := by
  obtain ⟨_, -, h⟩ := bind_eq_ok.mp h
  cases h
  split at hd
  · exact .inl hd
  · refine (Table.insertMissing_some hd).imp_right fun hnew ↦ ?_
    obtain ⟨x, hx, rfl⟩ := List.mem_map.mp hnew.2.1
    exact (Occurrences.mem_listUpcoming.mp hx).2.2.2.le

/-- Whatever is queued stood there before, or is put behind `since`. -/
theorem perform_stood (hfrom : op.QueuesFrom since settings w) (h : perform settings w op = some w')
    (hd : w'.db.deliveries i = some d) (hqueued : Deliveries.isQueued d = true) :
    Stood w.db i d ∨ since ≤ d.nextAttemptAt := by
  have hold : w.db.deliveries i = some d → Stood w.db i d := fun hrow ↦ ⟨d, hrow, hqueued, rfl⟩
  have hkept : ∀ {p : Delivery → Bool}, (w.db.deliveries i).filter p = some d → Stood w.db i d :=
    fun hrow ↦ hold (Option.filter_eq_some_iff.mp hrow).1
  cases op with
  | create now ownerId draft =>
    obtain ⟨db', hdb, rfl⟩ := over_eq_some h
    obtain ⟨-, rfl⟩ := Reminders.create_eq_ok hdb
    exact .inl (hold hd)
  | materialize now =>
    cases h
    cases hrow : w.db.deliveries i with
    | none => exact .inr (hfrom i d hd hrow)
    | some d₀ =>
      have hsame := (extends_materializeAll settings.planning (now + settings.planning.horizon)
        (Reminders.dueForPlanning w.db (now + settings.planning.horizon)
          settings.planning.batchSize) w.db).kept i d₀ hrow
      cases hsame.symm.trans hd
      exact .inl (hold hrow)
  | deliver now gateway =>
    cases h
    rcases deliver_queued hd hqueued with ⟨-, hrow⟩ | ⟨hmem, hlater⟩
    · exact .inl (hold hrow)
    · exact .inr ((hfrom.2 i hmem).trans hlater.le)
  | react now deliveryId userId action =>
    obtain ⟨result, hreact⟩ := perform_react h
    exact (react_stood hreact hd hqueued).imp_right hfrom.trans
  | sweep now =>
    cases h
    exact (sweep_stood hd hqueued).imp_right hfrom.trans
  | setStatus now ownerId rid status =>
    obtain ⟨db', hdb, rfl⟩ := over_eq_some h
    obtain ⟨r, -, rfl⟩ := Reminders.setStatus_eq_ok hdb
    split at hd
    · exact .inl (hold hd)
    · exact .inl (hkept ((Occurrences.deliveries_deleteUnsent w.db rid i).symm.trans hd))
  | update now ownerId rid change =>
    obtain ⟨db', hdb, rfl⟩ := over_eq_some h
    obtain ⟨r, -, -, rfl⟩ := Reminders.update_eq_ok hdb
    split at hd
    · exact .inl (hkept ((Occurrences.deliveries_deleteUnsent w.db rid i).symm.trans hd))
    · exact .inl (hold hd)
  | issueInvite now ownerId rid token =>
    obtain ⟨db', hdb, rfl⟩ := over_eq_some h
    obtain rfl := Sharing.issueInvite_eq_ok hdb
    exact .inl (hold hd)
  | revokeInvite now ownerId rid =>
    obtain ⟨db', hdb, rfl⟩ := over_eq_some h
    obtain rfl := Sharing.revokeInvite_eq_ok hdb
    exact .inl (hold hd)
  | openInvite now token userId =>
    obtain ⟨db', hdb, rfl⟩ := over_eq_some h
    rcases Sharing.openInvite_eq_ok hdb with rfl | ⟨rid, -, rfl⟩
    · exact .inl (hold hd)
    · exact .inl (hold hd)
  | accept now userId rid =>
    obtain ⟨db', hdb, rfl⟩ := over_eq_some h
    exact (accept_stood hdb hd).imp hold hfrom.trans
  | decline now userId rid =>
    cases h
    exact .inl (hold hd)
  | leave now userId rid =>
    cases h
    exact .inl (hkept ((Table.writes_deleteWhere ..).symm.trans hd))

/-- While a delivery waits, a tick takes a full batch from before it and nothing
joins there. -/
theorem ahead_step (hdue : d.nextAttemptAt < since) (hfree : d.lockedUntil = none)
    (hqueued : Deliveries.isQueued d = true) (hd : w.db.deliveries j = some d)
    (hfrom : op.QueuesFrom since settings w) (h : perform settings w op = some w')
    (hd' : w'.db.deliveries j = some d) :
    ahead w'.db d.nextAttemptAt j + (if op.isDispatch then settings.dispatcherBatch else 0) ≤
      ahead w.db d.nextAttemptAt j := by
  have hback : ∀ i, (w'.db.deliveries i).any (fun e ↦ Deliveries.isQueued e &&
      precedes e.nextAttemptAt i d.nextAttemptAt j) = true → (w.db.deliveries i).any (fun e ↦
        Deliveries.isQueued e && precedes e.nextAttemptAt i d.nextAttemptAt j) = true := by
    intro i hi
    obtain ⟨e, he, hbefore⟩ := (Option.any_eq_true _ _).mp hi
    rw [Bool.and_eq_true] at hbefore
    rcases perform_stood hfrom h he hbefore.1 with ⟨e₀, he₀, hqueued₀, hmoment⟩ | hlate
    · exact (Option.any_eq_true _ _).mpr ⟨e₀, he₀, by rw [hqueued₀, hmoment, hbefore.2]; rfl⟩
    · have := le_of_precedes hbefore.2
      omega
  cases op with
  | deliver now gateway =>
    cases h
    let claimed := Deliveries.claimDue now settings.lockFor settings.dispatcherBatch (fun _ ↦ false)
      w.db
    have hpassed : j ∉ claimed.map Prod.fst := by
      rcases deliver_queued hd' hqueued with ⟨hnot, -⟩ | ⟨hmem, hlater⟩
      · exact hnot
      · have := hfrom.2 j hmem
        omega
    have hready : Deliveries.isDue now d = true := by
      have := hfrom.1
      simp only [Deliveries.isDue, hqueued, hfree, Option.all_none, Bool.and_true, Bool.true_and,
        decide_eq_true_eq]
      omega
    obtain ⟨hlength, hturn⟩ := claims_in_turn hd hready hpassed
    have hcount := Table.length_select_add_le (t := w.db.deliveries)
      (u := (Dispatching.deliver w.db now settings.lockFor settings.dispatcherBatch
        gateway).2.deliveries)
      (p := fun i e ↦ Deliveries.isQueued e && precedes e.nextAttemptAt i d.nextAttemptAt j)
      (q := fun i e ↦ Deliveries.isQueued e && precedes e.nextAttemptAt i d.nextAttemptAt j)
      (claimed.map Prod.fst) (Deliveries.nodup_claimDue ..) (fun i hi ↦ ?_)
      (fun i hi ↦ ⟨hback i hi, fun hmem ↦ ?_⟩)
    · rw [List.length_map, hlength] at hcount
      exact hcount
    · obtain ⟨x, hx, rfl⟩ := List.mem_map.mp hi
      obtain ⟨e, he, hqueued', hbefore⟩ := hturn x hx
      exact (Option.any_eq_true _ _).mpr ⟨e, he, by rw [hqueued', hbefore]; rfl⟩
    · obtain ⟨e, he, hbefore⟩ := (Option.any_eq_true _ _).mp hi
      rw [Bool.and_eq_true] at hbefore
      rcases deliver_queued he hbefore.1 with ⟨hnot, -⟩ | ⟨-, hlater⟩
      · exact hnot hmem
      · have hle := le_of_precedes hbefore.2
        have hafter := hfrom.2 i hmem
        omega
  | _ =>
    have hcount := Table.length_select_add_le [] .nil (fun _ hi ↦ by cases hi)
      (fun i hi ↦ ⟨hback i hi, List.not_mem_nil⟩)
    exact hcount

/-- A delivery at rest leaves its place when it is claimed, answered or taken
back. -/
theorem leaves_place (hfree : d.lockedUntil = none) (hqueued : Deliveries.isQueued d = true)
    (hd : w.db.deliveries j = some d) (h : perform settings w op = some w')
    (hmoved : w'.db.deliveries j ≠ some d) :
    op.Claims settings w j ∨ op.isTapOn j = true ∨ w'.db.deliveries j = none := by
  by_cases hop : op.isQueueing = false
  · rcases perform_rows hop h with hextends | ⟨-, p, hrows⟩
    · exact absurd (hextends.kept j d hd) hmoved
    · rw [hrows, hd, Option.filter_some] at hmoved ⊢
      split at hmoved
      · exact absurd rfl hmoved
      · rw [if_neg ‹_›]
        exact .inr (.inr rfl)
  cases op with
  | deliver now gateway =>
    cases h
    refine .inl ?_
    by_contra hnot
    exact hmoved ((deliver_other hnot).trans hd)
  | react now deliveryId userId action =>
    refine .inr (.inl (decide_eq_true ?_))
    by_contra hne
    obtain ⟨result, hreact⟩ := perform_react h
    rcases react_rows hreact with ⟨-, hsame⟩ | ⟨-, reaction, hrows⟩
    · exact hmoved (hsame ▸ hd)
    · exact hmoved ((hrows j).trans ((if_neg (Ne.symm hne)).trans hd))
  | sweep now =>
    cases h
    refine absurd ((sweep_queued hd hqueued).trans ?_) hmoved
    rw [if_neg]
    simp [Deliveries.isStale, hfree]
  | _ => exact absurd rfl hop

/-- Whatever else goes on, an overdue delivery with `n` others before it leaves
the queue within the ticks it takes to hand out `n + 1`: it is attempted, unless
a tap changes it or it is taken back first. -/
theorem bounded_waiting {ops : List Operation} (hd : w.db.deliveries j = some d)
    (hqueued : Deliveries.isQueued d = true) (hfree : d.lockedUntil = none)
    (hdue : d.nextAttemptAt < since)
    (hfrom : Guarded (perform settings) (fun w op ↦ op.QueuesFrom since settings w) w ops)
    (hrun : run (perform settings) w ops = some w')
    (hticks : ahead w.db d.nextAttemptAt j <
      ops.countP Operation.isDispatch * settings.dispatcherBatch) :
    ∃ before op after w₁ w₂, ops = before ++ op :: after ∧
      run (perform settings) w before = some w₁ ∧ w₁.db.deliveries j = some d ∧
        perform settings w₁ op = some w₂ ∧ w₂.db.deliveries j ≠ some d ∧
          (op.Claims settings w₁ j ∨ op.isTapOn j = true ∨ w₂.db.deliveries j = none) := by
  obtain ⟨before, op, after, w₁, w₂, hops, hbefore, hwait, -, hstep, hleft, -⟩ :=
    exists_exit (fun w ↦ w.db.deliveries j = some d) (fun w ↦ ahead w.db d.nextAttemptAt j)
      (fun w op w' hd hfrom h hd' ↦ ahead_step hdue hfree hqueued hd hfrom h hd') hfrom hrun hd hticks
  exact ⟨before, op, after, w₁, w₂, hops, hbefore, hwait, hstep, hleft,
    leaves_place hfree hqueued hwait hstep hleft⟩

/-- Two deliveries are due, and a tick takes one of them. -/
def twoDue : World :=
  ⟨{ Database.initial .empty .empty with
      deliveries := .ofList [Deliveries.queued 0 0 5, Deliveries.queued 0 1 5] }, []⟩

def oneByOne : Settings := ⟨⟨day, day, 100⟩, minute, 1, 1⟩

/-- The first one is put off, then the second one has its turn. -/
def twoTicks : List Operation :=
  [.deliver 6 fun _ ↦ (.failed .transient none "", 7), .deliver 8 fun _ ↦ (.delivered 1, 9)]

theorem bounded_waiting_second : ∃ before op after w₁ w₂, twoTicks = before ++ op :: after ∧
    run (perform oneByOne) twoDue before = some w₁ ∧
      w₁.db.deliveries 1 = some (Deliveries.queued 0 1 5) ∧ perform oneByOne w₁ op = some w₂ ∧
        w₂.db.deliveries 1 ≠ some (Deliveries.queued 0 1 5) ∧
          (op.Claims oneByOne w₁ 1 ∨ op.isTapOn 1 = true ∨ w₂.db.deliveries 1 = none) := by
  have hseven : (6 : ℤ) ≤ 7 := by decide
  have hnine : (6 : ℤ) ≤ 9 := by decide
  have hfrom : Guarded (perform oneByOne) (fun w op ↦ op.QueuesFrom 6 oneByOne w) twoDue twoTicks :=
    ⟨⟨le_rfl, fun _ _ ↦ hseven⟩, fun _ _ ↦ ⟨⟨by decide, fun _ _ ↦ hnine⟩, fun _ _ ↦ trivial⟩⟩
  exact bounded_waiting rfl rfl rfl (by decide) hfrom rfl (by decide +kernel)

end Runs

end Remindo.Serial
