import Remindo.Serial.Audience
import Remindo.Serial.Repeats

namespace Remindo.Serial

open Remindo.Domain Remindo.Db Remindo.Services Remindo.Foundation

/-- How many messages about one delivery have gone out. -/
def sentOf (outbox : List Message) (j : ℕ) : ℕ := outbox.countP fun m ↦ decide (m.deliveryId = j)

def snoozesOf (db : Database) (j : ℕ) : ℕ :=
  db.actions.count fun a ↦ decide (a.deliveryId = j) && decide (a.kind = .snooze)

/-- One more message is due. -/
def waitingOf (db : Database) (j : ℕ) : ℕ :=
  if (db.deliveries j).any Deliveries.isQueued then 1 else 0

/-- The messages, sent or due, that neither the first attempt nor a snooze
explains. -/
def unasked (w : World) (j : ℕ) : ℕ :=
  sentOf w.outbox j + waitingOf w.db j - (1 + snoozesOf w.db j)

section Attempts

open Dispatching

variable {db : Database} {gateway : Gateway} {batch : List Work} {memory : Memory} {j : ℕ}

theorem waitingOf_le (db : Database) (j : ℕ) : waitingOf db j ≤ 1 := by
  rw [waitingOf]
  split <;> simp

/-- An attempt sends its message, or leaves the delivery waiting, or ends it. -/
theorem conclude_spends (memory : Memory) (w : Work) (result : SendResult) (now : ℤ) (d : Delivery) :
    sentOf ((conclude memory w result now).message w now).toList w.id +
      (if Deliveries.isQueued (verdictValues (conclude memory w result now) now d) then 1 else 0) ≤
        1 := by
  have hended : (conclude memory w result now).context = none →
      ((conclude memory w result now).message w now).toList = [] := by
    intro hnone
    simp [Outcome.message, hnone]
  rcases conclude_cases memory w result now with ⟨hnone, -⟩ | ⟨hnone, -⟩ | ⟨c, id, -, -, hsent⟩
  · rw [hended hnone]
    split <;> simp [sentOf]
  · rw [hended hnone]
    split <;> simp [sentOf]
  · rw [hsent]
    simp [sentOf, Outcome.message, Deliveries.isQueued, verdictValues, decideSuccess]

/-- What is sent was waiting, and no longer is. -/
theorem deliverAll_spends (hnodup : (batch.map Work.id).Nodup)
    (hqueued : ∀ w ∈ batch, waitingOf db w.id = 1) :
    sentOf (deliverAll gateway batch memory db).1 j +
      waitingOf (deliverAll gateway batch memory db).2 j ≤ waitingOf db j := by
  induction batch generalizing memory db with
  | nil => simp [deliverAll, sentOf]
  | cons w rest ih =>
    rw [List.map_cons, List.nodup_cons] at hnodup
    let outcome := conclude memory w (gateway w.id).1 (gateway w.id).2
    let after := applyVerdict db memory w outcome (gateway w.id).2
    have hrow := deliveries_applyVerdict db memory w outcome (gateway w.id).2
    have hother : ∀ i, i ≠ w.id → waitingOf after i = waitingOf db i := by
      intro i hi
      rw [waitingOf, waitingOf, hrow, if_neg hi]
    have hrest : ∀ v ∈ rest, waitingOf after v.id = 1 := by
      intro v hv
      rw [hother v.id fun heq ↦ hnodup.1 (List.mem_map.mpr ⟨v, hv, heq⟩)]
      exact hqueued v (List.mem_cons_of_mem _ hv)
    have hle := @ih after (memory.after w outcome) hnodup.2 hrest
    have hsplit : sentOf (deliverAll gateway (w :: rest) memory db).1 j =
        sentOf (outcome.message w (gateway w.id).2).toList j +
          sentOf (deliverAll gateway rest (memory.after w outcome) after).1 j :=
      List.countP_append
    rw [hsplit]
    change _ + waitingOf (deliverAll gateway rest (memory.after w outcome) after).2 j ≤ _
    by_cases hj : j = w.id
    · subst hj
      obtain ⟨d, hd⟩ : ∃ d, db.deliveries w.id = some d := by
        have hwaits := hqueued w List.mem_cons_self
        rw [waitingOf] at hwaits
        cases hd : db.deliveries w.id with
        | none => simp [hd] at hwaits
        | some d => exact ⟨d, rfl⟩
      have hspends : sentOf (outcome.message w (gateway w.id).2).toList w.id +
          (if Deliveries.isQueued (verdictValues outcome (gateway w.id).2 d) then 1 else 0) ≤ 1 :=
        conclude_spends ..
      have hnow : waitingOf after w.id =
          if Deliveries.isQueued (verdictValues outcome (gateway w.id).2 d) then 1 else 0 := by
        rw [waitingOf, hrow, if_pos rfl, hd]
        rfl
      rw [hqueued w List.mem_cons_self]
      rw [← hnow] at hspends
      omega
    · have hnone : sentOf (outcome.message w (gateway w.id).2).toList j = 0 := by
        refine List.countP_eq_zero.mpr fun m hm ↦ ?_
        obtain ⟨c, -, rfl⟩ := Option.map_eq_some_iff.mp (Option.mem_toList.mp hm)
        simpa using Ne.symm hj
      rw [hother j hj] at hle
      omega

theorem actions_deliverAll (gateway : Gateway) (batch : List Work) (memory : Memory)
    (db : Database) : (deliverAll gateway batch memory db).2.actions = db.actions := by
  induction batch generalizing memory db with
  | nil => rfl
  | cons w rest ih =>
    refine (ih _ _).trans ?_
    rw [applyVerdict]
    split
    · change (writeVerdict ..).actions = _
      rw [writeVerdict]
      split <;> rfl
    · rw [writeVerdict]
      split <;> rfl

theorem deliver_spends {now lockFor : ℤ} {size : ℕ} :
    sentOf (deliver db now lockFor size gateway).1 j +
      waitingOf (deliver db now lockFor size gateway).2 j ≤ waitingOf db j := by
  let rows := Deliveries.claimDue now lockFor size (fun _ ↦ false) db
  have hnodup : (rows.map Prod.fst).Nodup := Deliveries.nodup_claimDue ..
  have hrows : ∀ x ∈ rows, Deliveries.isQueued x.2 = true ∧
      ∃ d, db.deliveries x.1 = some d ∧ Deliveries.isQueued d = true := by
    intro x hx
    obtain ⟨d, hd, hdue, -, hleased⟩ := Deliveries.mem_claimDue hx
    simp only [Deliveries.isDue, Bool.and_eq_true] at hdue
    rw [hleased]
    exact ⟨hdue.1.1, d, hd, hdue.1.1⟩
  have hwaits : ∀ i, waitingOf (db.apply (Deliveries.claimed rows)) i = waitingOf db i := by
    intro i
    rw [waitingOf, waitingOf]
    rcases Deliveries.deliveries_claimed hnodup db i with ⟨x, hx, rfl, hrow⟩ | hkept
    · obtain ⟨hqueued, d, hd, hqueued'⟩ := hrows x hx
      rw [hrow, hd, Option.any_some, Option.any_some, hqueued, hqueued']
    · rw [hkept]
  rw [← hwaits]
  refine deliverAll_spends ?_ fun w hw ↦ ?_
  · rw [loadWork, List.map_map]
    exact hnodup
  · obtain ⟨x, hx, rfl⟩ := List.mem_map.mp hw
    obtain ⟨-, d, hd, hqueued⟩ := hrows x hx
    rw [hwaits]
    simp [waitingOf, hd, hqueued]

end Attempts

section Journal

variable {db db' : Database} {now : ℤ} {j : ℕ}

theorem snoozesOf_congr (h : db'.actions = db.actions) : snoozesOf db' j = snoozesOf db j := by
  rw [snoozesOf, h, snoozesOf]

theorem snoozesOf_addAction (db : Database) (a : DeliveryAction) (j : ℕ) :
    snoozesOf (db.run (Deliveries.addAction a)) j =
      snoozesOf db j + if a.deliveryId = j ∧ a.kind = .snooze then 1 else 0 := by
  change (db.actions.writes (db.actions.insert [a])).count _ = _
  rw [Table.count_writes_insert, List.countP_singleton, snoozesOf]
  simp

/-- The journal of a delivery that stays is kept. -/
theorem snoozesOf_delete {p : ℕ → Delivery → Bool} (hkept : (db.deliveries j).any (p j) = false) :
    snoozesOf (db.run (Deliveries.delete p)) j = snoozesOf db j := by
  refine Table.count_congr fun k ↦ ?_
  have hrow : (db.run (Deliveries.delete p)).actions k = (db.actions k).filter fun a ↦
    !(db.deliveries a.deliveryId).any (p a.deliveryId) := Table.writes_deleteWhere ..
  rw [hrow]
  cases db.actions k with
  | none => rfl
  | some a =>
    by_cases hj : a.deliveryId = j
    · simp [hj, hkept]
    · rw [Option.filter_some]
      split <;> simp [hj]

theorem snoozesOf_journalSilence (now : ℤ) (sent : List (ℕ × Delivery)) (db : Database) (j : ℕ) :
    snoozesOf (Reaper.journalSilence now sent db) j = snoozesOf db j := by
  induction sent generalizing db with
  | nil => rfl
  | cons d rest ih =>
    rw [Reaper.journalSilence, ih, snoozesOf_addAction]
    simp [Reaper.autoExpire]

theorem snoozesOf_expireAll (now : ℤ) (overdue : List (ℕ × Occurrence)) (db : Database) (j : ℕ) :
    snoozesOf (Reaper.expireAll now overdue db) j = snoozesOf db j := by
  induction overdue generalizing db with
  | nil => rfl
  | cons x rest ih => exact (ih _).trans (snoozesOf_journalSilence ..)

theorem snoozesOf_sweep (db : Database) (now : ℤ) (batch j : ℕ) :
    snoozesOf (Reaper.sweep db now batch) j = snoozesOf db j := by
  have hactions : (Reaper.sweep db now batch).actions =
      (Reaper.expireAll now (Reaper.overdue db now batch) db).actions :=
    (Reaper.repeatAll_tables ..).2.2.1
  exact (snoozesOf_congr hactions).trans (snoozesOf_expireAll ..)

/-- A sweep puts back nothing but what it sends again. -/
theorem waitingOf_sweep (db : Database) (now : ℤ) (batch j : ℕ) :
    waitingOf (Reaper.sweep db now batch) j ≤
      waitingOf db j + if isRepeated db (Reaper.sweep db now batch) j then 1 else 0 := by
  let expired := Reaper.expireAll now (Reaper.overdue db now batch) db
  let candidates := Deliveries.listRepeatCandidates expired now batch
  have hexpired : expired.deliveries = db.deliveries := expireAll_deliveries ..
  have hrow : (Reaper.sweep db now batch).deliveries j =
      ((Reaper.repeatAll now candidates [] expired).deliveries j).map fun d ↦
        if Deliveries.isStale now d then { d with lockedUntil := none } else d :=
    Deliveries.deliveries_releaseStaleLocks ..
  by_cases hrepeat : ∃ c ∈ candidates, (Reaper.repeatAt now c).isSome = true ∧ c.delivery.1 = j
  · obtain ⟨c, hc, hsome, rfl⟩ := hrepeat
    obtain ⟨moment, hmoment⟩ := Option.isSome_iff_exists.mp hsome
    obtain ⟨hd, hsent⟩ := Deliveries.mem_listRepeatCandidates hc
    have hrepeated : isRepeated db (Reaper.sweep db now batch) c.delivery.1 = true := by
      rw [isRepeated, hrow, repeatAll_requeues (Deliveries.nodup_listRepeatCandidates ..) hc hmoment
        hd, ← hexpired, hd, Option.map_some, Option.any_some, Option.any_some]
      split <;> simp [hsent, Reaper.requeue]
    have hle := waitingOf_le (Reaper.sweep db now batch) c.delivery.1
    rw [if_pos hrepeated]
    omega
  · push Not at hrepeat
    rw [repeatAll_other hrepeat, hexpired] at hrow
    have hsame : waitingOf (Reaper.sweep db now batch) j = waitingOf db j := by
      rw [waitingOf, waitingOf, hrow]
      cases db.deliveries j with
      | none => rfl
      | some d =>
        rw [Option.map_some]
        split <;> rfl
    omega

/-- A tap that keeps the delivery waiting is in the journal. -/
theorem react_waits {deliveryId userId : ℕ} {action : Action} {result : ReactionResult}
    (h : Reactions.react db now deliveryId userId action = .ok (result, db')) :
    waitingOf db' j + snoozesOf db j ≤ waitingOf db j + snoozesOf db' j := by
  rcases Reactions.react_eq_ok h with ⟨-, rfl⟩ |
    ⟨-, d, o, r, u, reaction, hd, -, -, -, -, hreaction, rfl⟩
  · exact le_rfl
  · let written := Reactions.write deliveryId userId reaction now r.snoozeMinutes db
    have hsnoozes : snoozesOf (Reactions.closeOccurrence d.occurrenceId reaction written) j =
        snoozesOf db j + if deliveryId = j ∧ reaction.kind = .snooze then 1 else 0 := by
      rw [snoozesOf, Reactions.actions_closeOccurrence]
      exact snoozesOf_addAction ..
    have hrow : written.deliveries j =
        if j = deliveryId then (db.deliveries deliveryId).map (Reactions.values reaction)
        else db.deliveries j := Deliveries.deliveries_updateFields ..
    have hwaits : waitingOf (Reactions.closeOccurrence d.occurrenceId reaction written) j =
        waitingOf written j := by
      rw [waitingOf, Reactions.deliveries_closeOccurrence, waitingOf]
    rw [hsnoozes, hwaits]
    by_cases hj : j = deliveryId
    · subst hj
      rw [if_pos rfl, hd, Option.map_some] at hrow
      obtain ⟨hkind, ⟨hsnooze, -⟩ | ⟨-, hanswer, -⟩⟩ := decideReaction_eq_ok hreaction
      · have hle := waitingOf_le written j
        rw [if_pos ⟨rfl, hkind.trans hsnooze⟩]
        omega
      · have hended : waitingOf written j = 0 := by
          have hterminal := DeliveryStatus.isTerminal_of_isAnswer hanswer
          rw [waitingOf, hrow, Option.any_some, if_neg]
          intro hqueued
          have hopen : reaction.status.isTerminal = false := Deliveries.isTerminal_of_isQueued hqueued
          rw [hopen] at hterminal
          cases hterminal
        omega
    · have hsame : waitingOf written j = waitingOf db j := by
        rw [waitingOf, hrow, if_neg hj, waitingOf]
      omega

theorem snoozesOf_updateReminder (db : Database) (rid : ℕ) (values : Reminder → Reminder) :
    snoozesOf (db.run (Db.Reminders.updateFields rid values)) j = snoozesOf db j :=
  snoozesOf_congr rfl

theorem snoozesOf_dropQueued {rid : ℕ} (r : Reminder) {d : Delivery}
    (hd : (Reminders.dropQueued rid r db).deliveries j = some d) :
    snoozesOf (Reminders.dropQueued rid r db) j = snoozesOf db j := by
  have hrow := (Occurrences.deliveries_deleteUnsent db rid j).symm.trans hd
  obtain ⟨hold, hkept⟩ := Option.filter_eq_some_iff.mp hrow
  refine snoozesOf_delete (p := fun _ d ↦
    (db.occurrences d.occurrenceId).any (Occurrences.isUnsent db rid d.occurrenceId)) ?_
  rw [hold, Option.any_some]
  simpa using hkept

end Journal

section Runs

variable {settings : Settings} {w w' : World} {op : Operation} {j : ℕ} {d : Delivery}

/-- Apart from the queue nothing touches the journal of a delivery that stays. -/
theorem snoozesOf_perform (hop : op.isQueueing = false) (h : perform settings w op = some w')
    (hd : w'.db.deliveries j = some d) : snoozesOf w'.db j = snoozesOf w.db j := by
  cases op with
  | create now ownerId draft =>
    obtain ⟨db', hdb, rfl⟩ := over_eq_some h
    obtain ⟨-, rfl⟩ := Reminders.create_eq_ok hdb
    rfl
  | materialize now =>
    cases h
    exact snoozesOf_congr (extends_materializeAll ..).actions
  | setStatus now ownerId rid status =>
    obtain ⟨db', hdb, rfl⟩ := over_eq_some h
    obtain ⟨r, -, rfl⟩ := Reminders.setStatus_eq_ok hdb
    split at hd
    · rw [if_pos ‹_›]
      exact snoozesOf_updateReminder w.db rid _
    · rw [if_neg ‹_›]
      exact (snoozesOf_updateReminder _ rid _).trans (snoozesOf_dropQueued r hd)
  | update now ownerId rid change =>
    obtain ⟨db', hdb, rfl⟩ := over_eq_some h
    obtain ⟨r, -, -, rfl⟩ := Reminders.update_eq_ok hdb
    split at hd
    · rw [if_pos ‹_›]
      exact (snoozesOf_updateReminder _ rid _).trans (snoozesOf_dropQueued r hd)
    · rw [if_neg ‹_›]
      exact snoozesOf_updateReminder w.db rid _
  | issueInvite now ownerId rid token =>
    obtain ⟨db', hdb, rfl⟩ := over_eq_some h
    obtain rfl := Sharing.issueInvite_eq_ok hdb
    rfl
  | revokeInvite now ownerId rid =>
    obtain ⟨db', hdb, rfl⟩ := over_eq_some h
    obtain rfl := Sharing.revokeInvite_eq_ok hdb
    rfl
  | openInvite now token userId =>
    obtain ⟨db', hdb, rfl⟩ := over_eq_some h
    rcases Sharing.openInvite_eq_ok hdb with rfl | ⟨rid, -, rfl⟩ <;> rfl
  | accept now userId rid =>
    obtain ⟨db', hdb, rfl⟩ := over_eq_some h
    exact snoozesOf_congr (extends_accept hdb).actions
  | decline now userId rid =>
    cases h
    rfl
  | leave now userId rid =>
    cases h
    have hrow := (w.db.deliveries.writes_deleteWhere (fun _ d ↦
      Deliveries.isPendingFor w.db rid userId d) j).symm.trans hd
    obtain ⟨hold, hkept⟩ := Option.filter_eq_some_iff.mp hrow
    refine snoozesOf_delete (p := fun _ d ↦ Deliveries.isPendingFor w.db rid userId d) ?_
    rw [hold, Option.any_some]
    simpa using hkept
  | deliver | react | sweep => cases hop

/-- Every message is about a delivery that exists, or has existed. -/
def Known (w : World) : Prop := ∀ m ∈ w.outbox, m.deliveryId < w.db.deliveries.next

theorem Known.step (hknown : Known w) (h : perform settings w op = some w') : Known w' := by
  have hnext := next_perform h
  intro m hm
  rcases outbox_perform h with ⟨now, gateway, rfl⟩ | hsame
  · cases h
    rcases List.mem_append.mp hm with hm | hm
    · exact (hknown m hm).trans_le hnext
    · obtain ⟨x, -, d, o, hid, hd, -⟩ := mem_deliver hm
      exact hid ▸ (Table.lt_next hd).trans_le hnext
  · exact (hknown m (hsame ▸ hm)).trans_le hnext

theorem Known.sentOf_eq (hknown : Known w) (hj : w.db.deliveries.next ≤ j) :
    sentOf w.outbox j = 0 := by
  refine List.countP_eq_zero.mpr fun m hm ↦ ?_
  have := hknown m hm
  rw [decide_eq_true_eq]
  omega

/-- Only a sweep adds a message nobody has asked for. -/
theorem unasked_perform (hknown : Known w) (h : perform settings w op = some w')
    (hd : w'.db.deliveries j = some d) : unasked w' j ≤ unasked w j +
      if (Event.serve op).isSweep && isRepeated w.db w'.db j then 1 else 0 := by
  by_cases hop : op.isQueueing = false
  · have hsnoozes := snoozesOf_perform hop h hd
    have hsame : w'.outbox = w.outbox := by
      rcases outbox_perform h with ⟨now, gateway, rfl⟩ | hsame
      · cases hop
      · exact hsame
    rcases perform_rows hop h with hext | ⟨-, p, hfilter⟩
    · rcases hext.back j d hd with hold | ⟨hfresh, -⟩
      · have hwaits : waitingOf w'.db j = waitingOf w.db j := by rw [waitingOf, hd, waitingOf, hold]
        rw [unasked, unasked, hsame, hsnoozes, hwaits]
        omega
      · have hnone := hknown.sentOf_eq hfresh
        have hle := waitingOf_le w'.db j
        rw [unasked, hsame, hnone]
        omega
    · have hold := (Option.filter_eq_some_iff.mp ((hfilter j).symm.trans hd)).1
      have hwaits : waitingOf w'.db j = waitingOf w.db j := by rw [waitingOf, hd, waitingOf, hold]
      rw [unasked, unasked, hsame, hsnoozes, hwaits]
      omega
  cases op with
  | deliver now gateway =>
    let out := Dispatching.deliver w.db now settings.lockFor settings.dispatcherBatch gateway
    obtain rfl : (⟨out.2, w.outbox ++ out.1⟩ : World) = w' := Option.some_inj.mp h
    have hspends : sentOf out.1 j + waitingOf out.2 j ≤ waitingOf w.db j := deliver_spends
    have hsnoozes : snoozesOf out.2 j = snoozesOf w.db j :=
      snoozesOf_congr (actions_deliverAll ..)
    have hsent : sentOf (w.outbox ++ out.1) j = sentOf w.outbox j + sentOf out.1 j :=
      List.countP_append
    dsimp only [unasked]
    rw [hsnoozes, hsent]
    omega
  | react now deliveryId userId action =>
    obtain ⟨result, hreact⟩ := perform_react h
    obtain ⟨db', -, rfl⟩ := over_eq_some h
    have hwaits := @react_waits _ _ _ j _ _ _ _ hreact
    dsimp only [unasked] at hwaits ⊢
    omega
  | sweep now =>
    cases h
    have hwaits := waitingOf_sweep w.db now settings.reaperBatch j
    have hsnoozes := snoozesOf_sweep w.db now settings.reaperBatch j
    simp only [unasked, Event.isSweep, hsnoozes, Bool.true_and]
    omega
  | _ => exact absurd rfl hop

theorem Budgeted.of_le {db : Database} {repeats repeats' : ℕ → ℕ} (h : Budgeted db repeats)
    (hle : ∀ j d, db.deliveries j = some d → repeats' j ≤ repeats j)
    (hunborn : ∀ j, db.deliveries.next ≤ j → repeats' j = 0) : Budgeted db repeats' := by
  refine ⟨h.budget, fun j d hd ↦ ?_, hunborn⟩
  obtain ⟨o, ho, hspent⟩ := h.spent j d hd
  exact ⟨o, ho, (hle j d hd).trans hspent⟩

/-- Nothing but a sweep spends repeats. -/
theorem Budgeted.perform {repeats : ℕ → ℕ} (h : Budgeted w.db repeats)
    (hop : (Event.serve op).isSweep = false) (hstep : perform settings w op = some w') :
    Budgeted w'.db repeats := by
  cases hdispatch : op.isDispatch with
  | false =>
    have hwork : work settings ⟨w, fun _ ↦ none⟩ (.serve op) = some ⟨w', fun _ ↦ none⟩ := by
      rw [work, if_neg (by simp [hdispatch]), hstep]
      rfl
    exact h.event hop hwork
  | true =>
    cases op with
    | deliver now gateway =>
      have hnext := next_perform hstep
      have hsame := restated_perform rfl (fun _ ↦ by simp) hstep
      cases hstep
      refine h.restated hsame (fun j d hd ↦ .inl ?_) hnext
      obtain ⟨d', hd', hkey⟩ := (sameKeys_deliver _ _ _ _ _).back hd
      exact ⟨d', hd', congrArg Prod.fst hkey⟩
    | _ => cases hdispatch

/-- The messages nobody asked for are paid for. -/
theorem budgeted_step (hknown : Known w) (h : Budgeted w.db (unasked w))
    (hstep : perform settings w op = some w') : Budgeted w'.db (unasked w') := by
  have hunborn : ∀ j, w'.db.deliveries.next ≤ j → unasked w' j = 0 := by
    intro j hj
    have hnone := (hknown.step hstep).sentOf_eq hj
    have hle := waitingOf_le w'.db j
    rw [unasked, hnone]
    omega
  cases hsweep : (Event.serve op).isSweep with
  | false =>
    refine (h.perform hsweep hstep).of_le (fun j d hd ↦ ?_) hunborn
    have hle := unasked_perform hknown hstep hd
    simpa [hsweep] using hle
  | true =>
    cases op with
    | sweep now =>
      have hswept : Budgeted w'.db fun j ↦
          unasked w j + if isRepeated w.db w'.db j then 1 else 0 := by
        cases hstep
        exact h.sweep
      refine hswept.of_le (fun j d hd ↦ ?_) hunborn
      have hle := unasked_perform hknown hstep hd
      rwa [hsweep, Bool.true_and] at hle
    | _ => cases hsweep

/-- A delivery is announced once, then once for every repeat its occurrence has
been charged and every time its recipient puts it off. -/
theorem messages_bounded {users : Table User} {categories : Table Category} {ops : List Operation}
    (hrun : run (perform settings) (.initial users categories) ops = some w)
    (hd : w.db.deliveries j = some d) :
    ∃ o r, w.db.occurrences d.occurrenceId = some o ∧ w.db.reminders o.reminderId = some r ∧
      sentOf w.outbox j ≤ 1 + o.repeatsSent + snoozesOf w.db j ∧ o.repeatsSent ≤ r.maxRepeats := by
  have hstart : Known (.initial users categories) ∧
      Budgeted (World.initial users categories).db (unasked (.initial users categories)) := by
    refine ⟨fun m hm ↦ ?_, fun i o ho ↦ ?_, fun j d hd ↦ ?_, fun j _ ↦ rfl⟩
    · cases hm
    · cases ho
    · cases hd
  obtain ⟨-, hbudgeted⟩ := run_preserves (P := fun w : World ↦ Known w ∧ Budgeted w.db (unasked w))
    (fun _ _ _ h hstep ↦ ⟨h.1.step hstep, budgeted_step h.1 h.2 hstep⟩) hrun hstart
  obtain ⟨o, ho, hspent⟩ := hbudgeted.spent j d hd
  obtain ⟨r, hr, hbudget⟩ := hbudgeted.budget _ o ho
  refine ⟨o, r, ho, hr, ?_, hbudget⟩
  rw [unasked] at hspent
  omega

/-- Nobody answers the first message, and the second one is snoozed. -/
def remindedLife : List Operation :=
  [.create 0 0 { sampleDraft with repeatAfterMinutes := some 30 }, .materialize 0,
    .deliver firstMonday (answering [] firstMonday), .sweep (firstMonday + 30 * minute),
    .deliver (firstMonday + 31 * minute) (answering [] (firstMonday + 31 * minute)),
    .react (firstMonday + 32 * minute) 0 0 .snooze,
    .deliver (firstMonday + hour) (answering [] (firstMonday + hour))]

theorem messages_bounded_sample :
    ∃ w d o r, run (perform sampleSettings) (.initial sampleUsers sampleCategories) remindedLife = some w ∧
      w.db.deliveries 0 = some d ∧ sentOf w.outbox 0 = 3 ∧ snoozesOf w.db 0 = 1 ∧
      w.db.occurrences d.occurrenceId = some o ∧ w.db.reminders o.reminderId = some r ∧
        sentOf w.outbox 0 ≤ 1 + o.repeatsSent + snoozesOf w.db 0 ∧ o.repeatsSent ≤ r.maxRepeats := by
  have hruns : (run (perform sampleSettings) (.initial sampleUsers sampleCategories)
      remindedLife).any (fun w ↦ (w.db.deliveries 0).isSome &&
        decide (sentOf w.outbox 0 = 3 ∧ snoozesOf w.db 0 = 1)) = true := by
    decide +kernel
  obtain ⟨w, hrun, hruns⟩ := (Option.any_eq_true _ _).mp hruns
  rw [Bool.and_eq_true, Option.isSome_iff_exists, decide_eq_true_eq] at hruns
  obtain ⟨⟨d, hd⟩, hsent, hsnoozed⟩ := hruns
  obtain ⟨o, r, ho, hr, hbound⟩ := messages_bounded hrun hd
  exact ⟨w, d, o, r, hrun, hd, hsent, hsnoozed, ho, hr, hbound⟩

end Runs

end Remindo.Serial
