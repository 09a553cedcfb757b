import Remindo.Serial.Board
import Remindo.Serial.Strides

namespace Remindo.Serial

open Remindo.Domain Remindo.Db Remindo.Services Remindo.Foundation

section Views

variable {db db' : Database} {outbox : List Message}

theorem letters_update (outbox : List Message) {j : ℕ} {d : Delivery} {f : Delivery → Delivery} {l : Letter}
    (hd : db.deliveries j = some d) (hl : letterOf (f d) = l)
    (h : ∀ k, db'.deliveries k = if k = j then (db.deliveries j).map f else db.deliveries k)
    (k : ℕ) : (World.mk db' outbox).board.letters k =
      ((World.mk db outbox).board.setLetter j l).letters k := by
  rw [Board.letters_setLetter]
  change (db'.deliveries k).map letterOf = _
  rw [h]
  split
  · rw [hd, Option.map_some, Option.map_some, hl]
  · rfl

theorem firings_update {i : ℕ} {o : Occurrence} {f : Occurrence → Occurrence} {t : Firing}
    (ho : db.occurrences i = some o) (ht : firingOf (f o) = t)
    (h : ∀ k, db'.occurrences k = if k = i then (db.occurrences i).map f else db.occurrences k)
    (k : ℕ) : (World.mk db' outbox).board.firings k =
      ((World.mk db outbox).board.setFiring i t).firings k := by
  rw [Board.firings_setFiring]
  change (db'.occurrences k).map firingOf = _
  rw [h]
  split
  · rw [ho, Option.map_some, Option.map_some, ht]
  · rfl

theorem board_congr (hr : db'.recipients = db.recipients)
    (ho : ∀ i, (db'.occurrences i).map firingOf = (db.occurrences i).map firingOf)
    (hd : ∀ j, (db'.deliveries j).map letterOf = (db.deliveries j).map letterOf)
    (ha : db'.actions = db.actions) :
    (World.mk db' outbox).board = (World.mk db outbox).board :=
  Board.ext' (fun k ↦ congrArg (fun t : Table Recipient ↦ t k) hr) ho hd
    (fun j ↦ congrFun (outcomesOf_congr ha) j) rfl

end Views

section Dispatching

open Dispatching

/-- A claimed delivery still waits for its attempt, and the session knows its
occurrence as it is. -/
structure Attemptable (db : Database) (memory : Memory) (w : Work) : Prop where
  row : ∃ d, db.deliveries w.id = some d ∧ (letterOf d).isQueued = true ∧
    d.userId = w.row.userId ∧ ∀ c, w.context = some c → d.occurrenceId = c.occurrence.1
  context : ∀ c, w.context = some c → ∃ o, db.occurrences c.occurrence.1 = some o ∧
    firingOf o = { firingOf c.occurrence.2 with status := memory.occurrenceStatus c } ∧
      o.reminderId = c.reminder.1

/-- Whatever the batch sends is sent in time. -/
def SendsWhen (maySend : ℤ → ℤ → Prop) (gateway : Gateway) : List Work → Memory → Prop
  | [], _ => True
  | w :: rest, memory =>
    let (result, now) := gateway w.id
    (∀ c, w.context = some c →
      checkDeliverable (memory.occurrenceStatus c) (memory.userBlocked c) = none →
        (∃ messageId, result = .delivered messageId) → maySend c.occurrence.2.expiresAt now) ∧
      SendsWhen maySend gateway rest (memory.after w (conclude memory w result now))

variable {g : Guard} {db : Database} {outbox : List Message} {memory : Memory}

theorem conclude_silent {w : Work} {result : SendResult} {now : ℤ}
    (h : (conclude memory w result now).context = none) :
    (conclude memory w result now).ref = none := by
  unfold conclude at h ⊢
  cases hc : w.context with
  | none => rfl
  | some c =>
    rw [hc] at h
    dsimp only at h ⊢
    cases hcheck : checkDeliverable (memory.occurrenceStatus c) (memory.userBlocked c) with
    | some abort => rfl
    | none =>
      rw [hcheck] at h
      cases result with
      | failed errorClass retryAfter errorCode => rfl
      | delivered messageId => cases h

theorem applyVerdict_tables (db : Database) (memory : Memory) (w : Work) (outcome : Outcome) (now : ℤ) :
    (applyVerdict db memory w outcome now).recipients = db.recipients ∧
      (applyVerdict db memory w outcome now).actions = db.actions := by
  rw [applyVerdict, writeVerdict]
  split <;> split <;> exact ⟨rfl, rfl⟩

section Verdicts

variable {w : Work} {d : Delivery} {outcome : Outcome} {now : ℤ}

/-- An attempt that sends nothing is about its delivery alone. -/
theorem board_of_silent (outbox : List Message) (hd : db.deliveries w.id = some d)
    (hnone : outcome.context = none) (href : outcome.ref = none) :
    (World.mk (applyVerdict db memory w outcome now) outbox).board =
      (World.mk db outbox).board.setLetter w.id
        { letterOf d with status := outcome.verdict.status } := by
  obtain ⟨hrecipients, hactions⟩ := applyVerdict_tables db memory w outcome now
  refine Board.ext' (fun k ↦ congrArg (fun t : Table Recipient ↦ t k) hrecipients) (fun i ↦ ?_)
    (fun j ↦ ?_) (fun j ↦ congrFun (outcomesOf_congr hactions) j) rfl
  · change ((applyVerdict db memory w outcome now).occurrences i).map firingOf = _
    rw [occurrences_applyVerdict, if_neg (by rw [Outcome.marks, hnone]; simp)]
    rfl
  · have hvalues : letterOf (verdictValues outcome now d) =
        { letterOf d with status := outcome.verdict.status } := by
      simp only [letterOf, verdictValues, href]
      rfl
    exact letters_update outbox hd hvalues (deliveries_applyVerdict db memory w outcome now) j

/-- A message that goes out marks its delivery and its occurrence. -/
theorem board_of_sent (outbox : List Message) {o : Occurrence} (hd : db.deliveries w.id = some d)
    (ho : db.occurrences d.occurrenceId = some o) (hopen : o.status.isTerminal = false)
    (hmarks : outcome.marks memory = if isSendable o.status then some d.occurrenceId else none)
    (hvalues : letterOf (verdictValues outcome now d) =
      { letterOf d with status := .sent, sentAt := some now }) :
    (World.mk (applyVerdict db memory w outcome now) outbox).board =
      ((World.mk db outbox).board.setLetter w.id
        { letterOf d with status := .sent, sentAt := some now }).setFiring d.occurrenceId
          { firingOf o with status := .sent } := by
  obtain ⟨hrecipients, hactions⟩ := applyVerdict_tables db memory w outcome now
  refine Board.ext' (fun k ↦ congrArg (fun t : Table Recipient ↦ t k) hrecipients) (fun i ↦ ?_)
    (fun j ↦ ?_) (fun j ↦ congrFun (outcomesOf_congr hactions) j) rfl
  · change ((applyVerdict db memory w outcome now).occurrences i).map firingOf =
      ((World.mk db outbox).board.setFiring d.occurrenceId _).firings i
    rw [occurrences_applyVerdict, hmarks, Board.firings_setFiring]
    cases hsendable : isSendable o.status with
    | true =>
      simp only [if_true, Option.some.injEq]
      by_cases hi : i = d.occurrenceId
      · rw [if_pos hi.symm, if_pos hi, hi, ho]
        rfl
      · rw [if_neg (Ne.symm hi), if_neg hi]
        rfl
    | false =>
      simp only [Bool.false_eq_true, if_false, reduceCtorEq]
      split
      · rename_i hi
        rw [hi, ho, Option.map_some, ← eq_sent_of_not_isSendable hopen hsendable]
        rfl
      · rfl
  · exact letters_update outbox hd hvalues (deliveries_applyVerdict db memory w outcome now) j

end Verdicts

theorem attempt_change {w : Work} {result : SendResult} (now : ℤ) (h : Attemptable db memory w)
    (hmay : ∀ c, w.context = some c →
      checkDeliverable (memory.occurrenceStatus c) (memory.userBlocked c) = none →
        (∃ messageId, result = .delivered messageId) → g.maySend c.occurrence.2.expiresAt now) :
    let outcome := conclude memory w result now
    Change g (World.mk db outbox).board (World.mk (applyVerdict db memory w outcome now)
      (outbox ++ (outcome.message w now).toList)).board := by
  obtain ⟨d, hd, hqueued, huser, hparent⟩ := h.row
  intro outcome
  have hj := World.letters_of (w := ⟨db, outbox⟩) hd
  have hquiet : outcome.context = none →
      (World.mk (applyVerdict db memory w outcome now)
        (outbox ++ (outcome.message w now).toList)).board =
      (World.mk db outbox).board.setLetter w.id
        { letterOf d with status := outcome.verdict.status } := by
    intro hnone
    have hmessage : outcome.message w now = none := by
      rw [Outcome.message, hnone]
      rfl
    rw [hmessage, Option.toList_none, List.append_nil]
    exact board_of_silent outbox hd hnone (conclude_silent hnone)
  rcases conclude_cases memory w result now with ⟨hnone, -, hended, hsilent⟩ |
    ⟨hnone, -, hpending⟩ | ⟨c, messageId, hc, hstatus, heq⟩
  · rw [hquiet hnone]
    refine .giveUp hj hqueued ?_
    have hended : outcome.verdict.status.isTerminal = true := hended
    have hsilent : outcome.verdict.status.isAnswer = false := hsilent
    cases hs : outcome.verdict.status <;> simp_all [DeliveryStatus.isTerminal,
      DeliveryStatus.isAnswer]
  · rw [hquiet hnone, show outcome.verdict.status = .pending from hpending]
    exact .retry hj hqueued
  · obtain ⟨o, ho, hknown, hreminder⟩ := h.context c hc
    rw [← hparent c hc] at ho
    have heq : outcome = ⟨decideSuccess, some messageId, some c⟩ := heq
    have hsent := conclude_sent (c := c) (show outcome.context = some c by rw [heq])
    have hopen : (firingOf o).status.isTerminal = false := by rw [hknown]; exact hstatus
    have hi : (World.mk db outbox).board.firings d.occurrenceId = some (firingOf o) :=
      World.firings_of ho
    have hmessage : outcome.message w now =
        some ⟨w.id, d.occurrenceId, o.reminderId, d.userId, now⟩ := by
      rw [heq, hparent c hc, hreminder, huser]
      rfl
    have hmarks : outcome.marks memory =
        if isSendable o.status then some d.occurrenceId else none := by
      have hstatus : o.status = memory.occurrenceStatus c := congrArg Firing.status hknown
      rw [heq, hstatus, hparent c hc]
      rfl
    rw [hmessage, Option.toList_some, board_of_sent _ hd ho hopen hmarks (by rw [heq]; rfl)]
    exact .send hj hqueued hi hopen (by rw [hknown]; exact hmay c hc hsent.2.1 hsent.2.2)

theorem Attemptable.after {w v : Work} {outcome : Outcome} {now : ℤ}
    (h : Attemptable db memory v) (hne : v.id ≠ w.id) :
    Attemptable (applyVerdict db memory w outcome now) (memory.after w outcome) v := by
  obtain ⟨d, hd, hqueued, hparent⟩ := h.row
  refine ⟨⟨d, ?_, hqueued, hparent⟩, fun c hc ↦ ?_⟩
  · rw [deliveries_applyVerdict, if_neg hne, hd]
  · obtain ⟨o, ho, hknown, hreminder⟩ := h.context c hc
    rw [occurrences_applyVerdict, ho]
    by_cases hmarked : outcome.marks memory = some c.occurrence.1
    · rw [if_pos hmarked]
      refine ⟨_, rfl, ?_, hreminder⟩
      simp only [firingOf, Firing.mk.injEq] at hknown ⊢
      simp [Memory.occurrenceStatus, Memory.after, hmarked, hknown]
    · rw [if_neg hmarked]
      refine ⟨o, rfl, ?_, hreminder⟩
      have hsame : (memory.after w outcome).occurrenceStatus c = memory.occurrenceStatus c := by
        simp [Memory.occurrenceStatus, Memory.after, Option.mem_toList, hmarked]
      rw [hsame, hknown]

theorem deliverAll_changes {gateway : Gateway} {batch : List Work}
    (hready : ∀ w ∈ batch, Attemptable db memory w) (hnodup : (batch.map Work.id).Nodup)
    (hmay : SendsWhen g.maySend gateway batch memory) :
    Changes g (World.mk db outbox).board (World.mk (deliverAll gateway batch memory db).2
      (outbox ++ (deliverAll gateway batch memory db).1)).board := by
  induction batch generalizing memory db outbox with
  | nil =>
    rw [deliverAll, List.append_nil]
  | cons w rest ih =>
    rw [List.map_cons, List.nodup_cons] at hnodup
    refine .head (attempt_change (gateway w.id).2 (hready w List.mem_cons_self) hmay.1) ?_
    rw [deliverAll]
    dsimp only
    rw [← List.append_assoc]
    refine ih (fun v hv ↦ ?_) hnodup.2 hmay.2
    refine (hready v (List.mem_cons_of_mem _ hv)).after fun heq ↦ hnodup.1 ?_
    exact heq ▸ List.mem_map_of_mem hv

theorem board_claimed {rows : List (ℕ × Delivery)} (hnodup : (rows.map Prod.fst).Nodup)
    (h : ∀ x ∈ rows, (db.deliveries x.1).map letterOf = some (letterOf x.2)) :
    (World.mk (db.apply (Deliveries.claimed rows)) outbox).board = (World.mk db outbox).board := by
  refine board_congr rfl (fun _ ↦ rfl) (fun j ↦ ?_) rfl
  rcases Deliveries.deliveries_claimed hnodup db j with ⟨x, hx, rfl, hj⟩ | hj
  · rw [hj, h x hx, Option.map_some]
  · rw [hj]

theorem deliver_changes {now lockFor : ℤ} {batch : ℕ} {gateway : Gateway}
    (hmay : SendsWhen g.maySend gateway
      (loadWork (db.apply (Deliveries.claimed
        (Deliveries.claimDue now lockFor batch (fun _ ↦ false) db)))
        (Deliveries.claimDue now lockFor batch (fun _ ↦ false) db)) .empty) :
    Changes g (World.mk db outbox).board (World.mk (deliver db now lockFor batch gateway).2
      (outbox ++ (deliver db now lockFor batch gateway).1)).board := by
  let rows := Deliveries.claimDue now lockFor batch (fun _ ↦ false) db
  let leased := db.apply (Deliveries.claimed rows)
  have hnodup := Deliveries.nodup_claimDue now lockFor batch (fun _ ↦ false) db
  have hrow : ∀ x ∈ rows, ∃ d, db.deliveries x.1 = some d ∧ letterOf d = letterOf x.2 ∧
      (letterOf d).isQueued = true := by
    intro x hx
    obtain ⟨d, hd, hdue, -, hrow⟩ := Deliveries.mem_claimDue hx
    simp only [Deliveries.isDue, Bool.and_eq_true] at hdue
    exact ⟨d, hd, by rw [hrow]; rfl, hdue.1.1⟩
  have hlease : (World.mk leased outbox).board = (World.mk db outbox).board := by
    refine board_claimed hnodup fun x hx ↦ ?_
    obtain ⟨d, hd, hletter, -⟩ := hrow x hx
    rw [hd, Option.map_some, hletter]
  rw [← hlease]
  refine deliverAll_changes (fun w hw ↦ ?_) ?_ hmay
  · obtain ⟨x, hx, rfl⟩ := List.mem_map.mp hw
    obtain ⟨d, -, hletter, hqueued⟩ := hrow x hx
    have hleased := Deliveries.deliveries_claimed_of_mem hnodup db hx
    refine ⟨⟨x.2, hleased, hletter ▸ hqueued, rfl, fun c hc ↦ ?_⟩, fun c hc ↦ ?_⟩
    · obtain ⟨⟨d, hd, hparent, -⟩, -⟩ := Deliveries.loadSendContext_eq_some hc
      rw [hleased] at hd
      cases hd
      exact hparent
    · obtain ⟨-, ho, hreminder, -⟩ := Deliveries.loadSendContext_eq_some hc
      exact ⟨_, ho, by simp [Memory.occurrenceStatus, Memory.empty, firingOf], hreminder⟩
  · rw [loadWork, List.map_map]
    exact hnodup

end Dispatching

section Sweeping

open Reaper

variable {g : Guard} {db : Database} {outbox : List Message} {now : ℤ}

theorem outcomesOf_journalSilence (sent : List (ℕ × Delivery)) (db : Database) (j : ℕ) :
    outcomesOf (journalSilence now sent db) j =
      outcomesOf db j + sent.countP fun d ↦ decide (d.1 = j) := by
  induction sent generalizing db with
  | nil => rfl
  | cons d rest ih =>
    rw [journalSilence, ih, outcomesOf_addAction, List.countP_cons]
    simp only [autoExpire, ActionKind.isOutcome, and_true, decide_eq_true_eq]
    omega

/-- One occurrence is expired: what is still shown is silence. -/
theorem expire_board {i : ℕ} {o : Occurrence} (ho : db.occurrences i = some o) :
    (World.mk ((journalSilence now (Deliveries.listSentForOccurrence db i) db).run
      (Occurrences.setStatus i .expired)) outbox).board =
        { (World.mk db outbox).board.setFiring i { firingOf o with status := .expired } with
          outcomes := fun j ↦ outcomesOf db j +
            if (World.mk db outbox).board.isShown i j then 1 else 0 } := by
  let sent := Deliveries.listSentForOccurrence db i
  obtain ⟨hoccurrences, hdeliveries⟩ := journalSilence_tables now sent db
  have hrecipients : ∀ (l : List (ℕ × Delivery)) (db : Database) k,
      (journalSilence now l db).recipients k = db.recipients k := by
    intro l
    induction l with
    | nil => exact fun _ _ ↦ rfl
    | cons d rest ih => exact fun db k ↦ ih _ k
  have hcount : ∀ j, sent.countP (fun d ↦ decide (d.1 = j)) =
      if (World.mk db outbox).board.isShown i j then 1 else 0 := by
    intro j
    have hids : sent.countP (fun d ↦ decide (d.1 = j)) = (sent.map Prod.fst).count j := by
      rw [List.count, List.countP_map]
      rfl
    have hmem : j ∈ sent.map Prod.fst ↔ (World.mk db outbox).board.isShown i j = true := by
      rw [Board.isShown, Option.any_eq_true, List.mem_map]
      constructor
      · intro ⟨x, hx, hj⟩
        obtain ⟨hd, hparent, hstatus⟩ := Deliveries.mem_listSentForOccurrence hx
        exact ⟨_, World.letters_of (hj ▸ hd), by simp [letterOf, hparent, hstatus]⟩
      · intro ⟨l, hl, hshown⟩
        obtain ⟨d, hd, rfl⟩ := World.letter_some.mp hl
        exact ⟨(j, d), Table.mem_select.mpr ⟨hd, hshown⟩, rfl⟩
    rw [hids]
    split
    · rename_i hshown
      exact List.count_eq_one_of_mem (Table.nodup_select_ids _ _) (hmem.mpr hshown)
    · rename_i hshown
      exact List.count_eq_zero_of_not_mem fun h ↦ hshown (hmem.mp h)
  refine Board.ext' (fun k ↦ hrecipients sent db k) ?_ (fun j ↦ ?_) (fun j ↦ ?_) rfl
  · refine firings_update (f := fun o ↦ { o with status := .expired }) ho rfl fun k ↦ ?_
    rw [Occurrences.occurrences_setStatus, hoccurrences]
  · change ((journalSilence now sent db).deliveries j).map letterOf = _
    rw [hdeliveries]
    rfl
  · change outcomesOf (journalSilence now sent db) j = _
    rw [outcomesOf_journalSilence, hcount]

theorem expireAll_changes {overdue : List (ℕ × Occurrence)}
    (hrow : ∀ x ∈ overdue, db.occurrences x.1 = some x.2 ∧ x.2.status.isTerminal = false)
    (hnodup : (overdue.map Prod.fst).Nodup) (hmay : g.mayExpire) :
    Changes g (World.mk db outbox).board (World.mk (expireAll now overdue db) outbox).board := by
  induction overdue generalizing db with
  | nil => exact .refl
  | cons x rest ih =>
    rw [List.map_cons, List.nodup_cons] at hnodup
    obtain ⟨ho, hopen⟩ := hrow x List.mem_cons_self
    have hchange : Change g (World.mk db outbox).board (World.mk
        ((journalSilence now (Deliveries.listSentForOccurrence db x.1) db).run
          (Occurrences.setStatus x.1 .expired)) outbox).board := by
      rw [expire_board ho]
      exact .expire (World.firings_of ho) hopen hmay
    refine .head hchange (ih (fun y hy ↦ ?_) hnodup.2)
    have hne : y.1 ≠ x.1 := fun heq ↦ hnodup.1 (heq ▸ List.mem_map_of_mem hy)
    obtain ⟨hy, hopen⟩ := hrow y (List.mem_cons_of_mem _ hy)
    rw [Occurrences.occurrences_setStatus, if_neg hne, (journalSilence_tables ..).1]
    exact ⟨hy, hopen⟩

theorem repeatAll_changes {candidates : List Deliveries.RepeatCandidate} {bumped : List ℕ}
    (hrow : ∀ c ∈ candidates, db.deliveries c.delivery.1 = some c.delivery.2 ∧
      c.delivery.2.status = .sent ∧ c.delivery.2.occurrenceId = c.occurrence.1 ∧
        (db.occurrences c.occurrence.1).map firingOf = some (firingOf c.occurrence.2))
    (hnodup : (candidates.map fun c ↦ c.delivery.1).Nodup)
    (hmay : ∀ c ∈ candidates, (repeatAt now c).isSome = true →
      g.mayRepeat (letterOf c.delivery.2) (firingOf c.occurrence.2)) :
    Changes g (World.mk db outbox).board
      (World.mk (repeatAll now candidates bumped db) outbox).board := by
  induction candidates generalizing db bumped with
  | nil => exact .refl
  | cons c rest ih =>
    rw [List.map_cons, List.nodup_cons] at hnodup
    have hrest := fun c' hc' ↦ hrow c' (List.mem_cons_of_mem c hc')
    have hmays := fun c' hc' ↦ hmay c' (List.mem_cons_of_mem c hc')
    rw [repeatAll]
    cases hplan : repeatAt now c with
    | none => exact ih hrest hnodup.2 hmays
    | some moment =>
      dsimp only
      obtain ⟨hd, hsent, hparent, hi⟩ := hrow c List.mem_cons_self
      let queued := db.run (Deliveries.updateFields c.delivery.1 (requeue moment))
      have hupdate : ∀ k, queued.deliveries k = if k = c.delivery.1 then
          (db.deliveries c.delivery.1).map (requeue moment) else db.deliveries k :=
        Deliveries.deliveries_updateFields db _ _
      have hqueued : Change g (World.mk db outbox).board (World.mk queued outbox).board := by
        have hafter : (World.mk queued outbox).board = (World.mk db outbox).board.setLetter
            c.delivery.1 { letterOf c.delivery.2 with status := .pending } :=
          Board.ext' (fun _ ↦ rfl) (fun _ ↦ rfl) (letters_update _ hd rfl hupdate) (fun _ ↦ rfl) rfl
        rw [hafter]
        have hfiring : (World.mk db outbox).board.firings (letterOf c.delivery.2).occurrenceId =
            some (firingOf c.occurrence.2) := by
          rw [show (letterOf c.delivery.2).occurrenceId = c.occurrence.1 from hparent]
          exact hi
        exact .requeue (World.letters_of hd) hsent hfiring
          (hmay c List.mem_cons_self (by rw [hplan]; rfl))
      have hkept : ∀ c' ∈ rest, queued.deliveries c'.delivery.1 = some c'.delivery.2 ∧
          c'.delivery.2.status = .sent ∧ c'.delivery.2.occurrenceId = c'.occurrence.1 ∧
            (queued.occurrences c'.occurrence.1).map firingOf = some (firingOf c'.occurrence.2) := by
        intro c' hc'
        have hne : c'.delivery.1 ≠ c.delivery.1 := fun heq ↦ hnodup.1 (heq ▸
          List.mem_map.mpr ⟨c', hc', rfl⟩)
        rw [hupdate, if_neg hne]
        exact hrest c' hc'
      split
      · exact .head hqueued (ih hkept hnodup.2 hmays)
      · have hbump : ∀ i, ((queued.run (Occurrences.bumpRepeats c.occurrence.1)).occurrences
            i).map firingOf = (queued.occurrences i).map firingOf := by
          intro i
          change ((queued.occurrences.writes (queued.occurrences.update c.occurrence.1 _)) i).map
            _ = _
          rw [Table.writes_update]
          split
          · rename_i hi
            rw [Option.map_map, hi]
            rfl
          · rfl
        have hsame : (World.mk (queued.run (Occurrences.bumpRepeats c.occurrence.1)) outbox).board =
            (World.mk queued outbox).board := board_congr rfl hbump (fun _ ↦ rfl) rfl
        refine .head hqueued ?_
        rw [← hsame]
        refine ih (fun c' hc' ↦ ?_) hnodup.2 hmays
        rw [hbump]
        exact hkept c' hc'

theorem mem_overdue {batch : ℕ} {x : ℕ × Occurrence} (h : x ∈ overdue db now batch) :
    db.occurrences x.1 = some x.2 ∧ x.2.status.isTerminal = false := by
  obtain ⟨ho, -, hopen⟩ := Occurrences.mem_listExpired (List.mem_of_mem_filter h)
  exact ⟨ho, hopen⟩

theorem nodup_overdue (db : Database) (now : ℤ) (batch : ℕ) :
    ((overdue db now batch).map Prod.fst).Nodup :=
  (Occurrences.nodup_listExpired db now batch).sublist (List.filter_sublist.map _)

/-- What a sweep does once the overdue occurrences are expired. -/
theorem repeat_changes {expired : Database} {batch : ℕ}
    (hmay : ∀ c ∈ Deliveries.listRepeatCandidates expired now batch,
      (repeatAt now c).isSome = true →
        g.mayRepeat (letterOf c.delivery.2) (firingOf c.occurrence.2)) :
    Changes g (World.mk expired outbox).board (World.mk
      ((repeatAll now (Deliveries.listRepeatCandidates expired now batch) [] expired).run
        (Deliveries.releaseStaleLocks now)) outbox).board := by
  let candidates := Deliveries.listRepeatCandidates expired now batch
  have hrelease : (World.mk ((repeatAll now candidates [] expired).run
      (Deliveries.releaseStaleLocks now)) outbox).board =
        (World.mk (repeatAll now candidates [] expired) outbox).board := by
    refine board_congr rfl (fun _ ↦ rfl) (fun j ↦ ?_) rfl
    rw [Deliveries.deliveries_releaseStaleLocks, Option.map_map]
    refine Option.map_congr fun d _ ↦ ?_
    rw [Function.comp_apply]
    split <;> rfl
  rw [hrelease]
  refine repeatAll_changes (fun c hc ↦ ?_) (Deliveries.nodup_listRepeatCandidates ..) hmay
  obtain ⟨hd, hsent⟩ := Deliveries.mem_listRepeatCandidates hc
  obtain ⟨hparent, ho, -⟩ := Deliveries.occurrence_of_mem_listRepeatCandidates hc
  exact ⟨hd, hsent, hparent, by rw [ho, Option.map_some]⟩

theorem sweep_changes (batch : ℕ) (hexpires : g.mayExpire)
    (hmay : ∀ c ∈ Deliveries.listRepeatCandidates (expireAll now (overdue db now batch) db) now
      batch, (repeatAt now c).isSome = true →
        g.mayRepeat (letterOf c.delivery.2) (firingOf c.occurrence.2)) :
    Changes g (World.mk db outbox).board (World.mk (sweep db now batch) outbox).board :=
  (expireAll_changes (fun _ hx ↦ mem_overdue hx) (nodup_overdue db now batch) hexpires).trans
    (repeat_changes hmay)

end Sweeping

section Answering

variable {g : Guard} {db : Database} {outbox : List Message}

theorem react_changes {db' : Database} {now : ℤ} {deliveryId userId : ℕ} {action : Action}
    {result : ReactionResult} (hmay : g.mayTap)
    (h : Reactions.react db now deliveryId userId action = .ok (result, db')) :
    Changes g (World.mk db outbox).board (World.mk db' outbox).board := by
  rcases Reactions.react_eq_ok h with ⟨-, rfl⟩ | ⟨-, d, o, r, u, reaction, hd, -, ho, -, hopen, hreaction,
    rfl⟩
  · exact .refl
  obtain ⟨hlive, hopen, -⟩ := checkReactable_eq_none hopen
  let written := Reactions.write deliveryId userId reaction now r.snoozeMinutes db
  have hupdate : ∀ k, written.deliveries k = if k = deliveryId then
      (db.deliveries deliveryId).map (Reactions.values reaction) else db.deliveries k :=
    Deliveries.deliveries_updateFields db _ _
  have hletters := letters_update outbox hd
    (rfl : letterOf (Reactions.values reaction d) = { letterOf d with status := reaction.status })
    hupdate
  have houtcomes : ∀ j, outcomesOf written j =
      outcomesOf db j + if deliveryId = j ∧ reaction.kind.isOutcome = true then 1 else 0 := by
    intro j
    refine (outcomesOf_addAction _ j).trans ?_
    rw [outcomesOf_congr (rfl : _ = db.actions)]
    rfl
  have hj := World.letters_of (w := ⟨db, outbox⟩) hd
  have hi := World.firings_of (w := ⟨db, outbox⟩) ho
  obtain ⟨hkind, ⟨hsnooze, hstatus⟩ | ⟨houtcome, hanswer, status, hrollup, hclosed⟩⟩ :=
    decideReaction_eq_ok hreaction
  · have hafter : (World.mk written outbox).board = (World.mk db outbox).board.setLetter deliveryId
        { letterOf d with status := .snoozed } := by
      rw [← hstatus]
      refine Board.ext' (fun _ ↦ rfl) (fun _ ↦ rfl) hletters (fun j ↦ ?_) rfl
      refine (houtcomes j).trans ?_
      rw [hkind, hsnooze, if_neg (by simp [ActionKind.isOutcome])]
      rfl
    rw [Reactions.closeOccurrence, Reaction.isTerminal, hstatus]
    change Changes g _ (World.mk written outbox).board
    rw [hafter]
    exact .single (.snooze hj hlive hi hopen hmay)
  · have hanswered : Change g (World.mk db outbox).board (World.mk written outbox).board := by
      have hafter : (World.mk written outbox).board =
          { (World.mk db outbox).board.setLetter deliveryId
              { letterOf d with status := reaction.status } with
            outcomes := Function.update (outcomesOf db) deliveryId
              (outcomesOf db deliveryId + 1) } := by
        refine Board.ext' (fun _ ↦ rfl) (fun _ ↦ rfl) hletters (fun j ↦ ?_) rfl
        refine (houtcomes j).trans ?_
        change _ = Function.update (outcomesOf db) deliveryId (outcomesOf db deliveryId + 1) j
        rw [hkind, Function.update_apply]
        by_cases hj : j = deliveryId
        · simp [hj, houtcome]
        · simp [hj, Ne.symm hj]
      rw [hafter]
      exact .answer hj hlive hi hopen hanswer hmay
    have hclose := Reactions.closeOccurrence_eq d.occurrenceId written
      (DeliveryStatus.isTerminal_of_isAnswer hanswer) (hkind ▸ hrollup)
    refine .head hanswered ?_
    rw [hclose]
    cases hall : Occurrences.allDeliveriesTerminal written d.occurrenceId with
    | false =>
      rw [if_neg (by simp)]
    | true =>
      rw [if_pos rfl]
      have hafter : (World.mk (written.run (Occurrences.setStatus d.occurrenceId status))
          outbox).board = (World.mk written outbox).board.setFiring d.occurrenceId
            { firingOf o with status := status } := by
        refine Board.ext' (fun _ ↦ rfl) ?_ (fun _ ↦ rfl) (fun _ ↦ rfl) rfl
        exact firings_update (f := fun o ↦ { o with status := status }) ho rfl
          (Occurrences.occurrences_setStatus written _ _)
      rw [hafter]
      refine .single (.close hi hopen (fun j l hl hparent ↦ ?_) hclosed)
      obtain ⟨e, he, rfl⟩ := World.letter_some.mp hl
      exact Occurrences.allDeliveriesTerminal_iff.mp hall j e he hparent

end Answering

section Planning

open Planning

/-- What a cycle may queue for the recipients of one reminder: each of its
moments, unless the recipient already has the delivery. -/
def CoversWhen (mayCover : Firing → Recipient → Prop) (settings : Planning.Settings)
    (horizonEnd : ℤ) (db : Database) (rid : ℕ) (r : Reminder) (owner : User) : Prop :=
  ∀ m ∈ plan horizonEnd rid r db, ∀ k x, db.recipients k = some x → x.reminderId = rid →
    listens x = true →
      (∀ i o, db.occurrences i = some o → o.key = (rid, m) →
        (∀ j d, db.deliveries j = some d → d.key ≠ (i, x.userId)) → mayCover (firingOf o) x) ∧
      (¬Materialised db rid m →
        mayCover (firingOf (occurrenceRow rid (quietHoursOf owner) settings.ttl m)) x)

variable {g : Guard} {settings : Planning.Settings} {horizonEnd : ℤ} {db : Database}
  {outbox : List Message}

theorem settle_board (rid : ℕ) (outcome : PlanOutcome) (firedCount : ℕ) :
    (World.mk (settle rid outcome firedCount db) outbox).board = (World.mk db outbox).board := by
  rw [settle]
  split <;> rfl

theorem mem_listAcceptedUserIds {rid u : ℕ} (h : u ∈ Recipients.listAcceptedUserIds db rid) :
    ∃ k x, db.recipients k = some x ∧ x.key = (rid, u) ∧ listens x = true := by
  obtain ⟨⟨k, x⟩, hx, rfl⟩ := List.mem_map.mp h
  obtain ⟨hx, hpick⟩ := Table.mem_select.mp hx
  rw [Bool.and_eq_true, decide_eq_true_eq] at hpick
  exact ⟨k, x, hx, by rw [Recipient.key, hpick.1], hpick.2⟩

theorem materializeOne_changes {rid : ℕ} {r : Reminder} {owner : User}
    (hmay : CoversWhen g.mayCover settings horizonEnd db rid r owner) :
    Changes g (World.mk db outbox).board
      (World.mk (materializeOne settings horizonEnd (rid, r) owner db) outbox).board := by
  let moments := plan horizonEnd rid r db
  let planned := db.apply (planWrites settings horizonEnd rid r owner db)
  let queued := createDeliveries rid moments planned
  have hexpand : Change g (World.mk db outbox).board (World.mk planned outbox).board := by
    refine .plan (fun i f hf ↦ ?_) fun i f hf ↦ ?_
    · obtain ⟨o, ho, rfl⟩ := World.firing_some.mp hf
      exact World.firings_of (Table.insertMissing_kept ho)
    · obtain ⟨o, ho, rfl⟩ := World.firing_some.mp hf
      rcases Table.insertMissing_some ho with hold | ⟨hnone, hmem, -⟩
      · exact .inl (World.firings_of hold)
      · obtain ⟨m, -, rfl⟩ := List.mem_map.mp hmem
        exact .inr ⟨Option.map_eq_none_iff.mpr hnone, rfl⟩
  have hcover : Change g (World.mk planned outbox).board (World.mk queued outbox).board := by
    refine .cover (fun j l hl ↦ ?_) fun j l hl ↦ ?_
    · obtain ⟨d, hd, rfl⟩ := World.letter_some.mp hl
      exact World.letters_of (Table.insertMissing_kept hd)
    · obtain ⟨d, hd, rfl⟩ := World.letter_some.mp hl
      rcases Table.insertMissing_some hd with hold | ⟨hnone, hmem, hfirst⟩
      · exact .inl (World.letters_of hold)
      · rw [wantedDeliveries] at hmem
        split at hmem
        · cases hmem
        · obtain ⟨⟨i, o⟩, hx, hmem⟩ := List.mem_flatMap.mp hmem
          obtain ⟨u, hu, rfl⟩ := List.mem_map.mp hmem
          obtain ⟨ho, hpick⟩ := Table.mem_select.mp hx
          simp only [Bool.and_eq_true, decide_eq_true_eq] at hpick
          have hreminder : (firingOf o).reminderId = rid := hpick.1
          refine .inr ⟨Option.map_eq_none_iff.mpr hnone, rfl, rfl, firingOf o,
            World.firings_of ho, ?_, fun k x hx hkey hlistens ↦ ?_⟩
          · rw [hreminder]
            exact mem_listAcceptedUserIds hu
          · rw [hreminder] at hkey
            have huser : x.userId = u := congrArg Prod.snd hkey
            have hmay := hmay o.scheduledFor hpick.2 k x hx (congrArg Prod.fst hkey) hlistens
            rcases Table.insertMissing_some ho with hold | ⟨-, hmem, hmoment⟩
            · refine hmay.1 i o hold (by rw [Occurrence.key, hpick.1]) fun j d hd ↦ ?_
              rw [huser]
              exact hfirst j d hd
            · obtain ⟨m, -, rfl⟩ := List.mem_map.mp hmem
              refine hmay.2 ?_
              rintro ⟨i', o', ho', hkey'⟩
              exact hmoment i' o' ho' hkey'
  rw [materializeOne_eq, settle_board]
  exact .head hexpand (.single hcover)

/-- Planning another reminder changes nothing for this one. -/
theorem CoversWhen.materializeOne {mayCover : Firing → Recipient → Prop} {rid rid' : ℕ}
    {r r' : Reminder} {owner owner' : User}
    (h : CoversWhen mayCover settings horizonEnd db rid r owner) (hne : rid ≠ rid') :
    CoversWhen mayCover settings horizonEnd
      (materializeOne settings horizonEnd (rid', r') owner' db) rid r owner := by
  have hplan : plan horizonEnd rid r (Planning.materializeOne settings horizonEnd (rid', r')
      owner' db) = plan horizonEnd rid r db := by
    rw [plan, plan, countForReminder_materializeOne_of_ne hne]
  have hrecipients : (Planning.materializeOne settings horizonEnd (rid', r') owner'
      db).recipients = db.recipients := by
    rw [materializeOne_eq, settle]
    split <;> rfl
  have hdeliveries : ∀ j d, db.deliveries j = some d → (Planning.materializeOne settings
      horizonEnd (rid', r') owner' db).deliveries j = some d := by
    intro j d hd
    rw [materializeOne_eq, settle]
    split <;> exact Table.insertMissing_kept hd
  intro m hm k x hx hrid hlistens
  rw [hplan] at hm
  rw [hrecipients] at hx
  obtain ⟨hold, hnew⟩ := h m hm k x hx hrid hlistens
  refine ⟨fun i o ho hkey hfirst ↦ ?_, fun hnone ↦ hnew fun hdone ↦ hnone hdone.materializeOne⟩
  rcases materializeOne_some ho with ho | ⟨-, m', -, rfl, -⟩
  · exact hold i o ho hkey fun j d hd ↦ hfirst j d (hdeliveries j d hd)
  · exact absurd (congrArg Prod.fst hkey).symm hne

theorem materializeAll_changes {due : List (ℕ × Reminder)} (hnodup : (due.map Prod.fst).Nodup)
    (hmay : ∀ x ∈ due, ∀ owner, db.users x.2.ownerId = some owner →
      CoversWhen g.mayCover settings horizonEnd db x.1 x.2 owner) :
    Changes g (World.mk db outbox).board
      (World.mk (materializeAll settings horizonEnd due db) outbox).board := by
  induction due generalizing db with
  | nil => exact .refl
  | cons x rest ih =>
    rw [List.map_cons, List.nodup_cons] at hnodup
    have hrest := fun y hy ↦ hmay y (List.mem_cons_of_mem x hy)
    rw [materializeAll]
    split
    · exact ih hnodup.2 hrest
    · rename_i owner howner
      refine (materializeOne_changes (hmay x List.mem_cons_self owner howner)).trans
        (ih hnodup.2 fun y hy owner' howner' ↦ ?_)
      rw [materializeOne_users] at howner'
      exact (hrest y hy owner' howner').materializeOne fun heq ↦
        hnodup.1 (heq ▸ List.mem_map_of_mem hy)

theorem dropQueued_change (rid : ℕ) (r : Reminder) :
    Change g (World.mk db outbox).board (World.mk (Reminders.dropQueued rid r db) outbox).board := by
  let unsent i := (db.occurrences i).any (Occurrences.isUnsent db rid i)
  let gone j := (db.deliveries j).any fun d ↦ unsent d.occurrenceId
  have hafter : (World.mk (Reminders.dropQueued rid r db) outbox).board =
      { (World.mk db outbox).board.remove gone with
        firings := fun i ↦ if unsent i then none else (World.mk db outbox).board.firings i } := by
    refine Board.ext' (fun _ ↦ rfl) (fun i ↦ ?_) (fun j ↦ ?_) (fun j ↦ ?_) rfl
    · change ((Reminders.dropQueued rid r db).occurrences i).map firingOf =
        if unsent i then none else (db.occurrences i).map firingOf
      rw [Reminders.dropQueued_occurrences]
      cases ho : db.occurrences i with
      | none => simp
      | some o =>
        by_cases hunsent : Occurrences.isUnsent db rid i o = true <;>
          simp [unsent, ho, Option.filter_some, hunsent]
    · change ((db.run (Occurrences.deleteUnsent rid)).deliveries j).map letterOf =
        if gone j then none else (db.deliveries j).map letterOf
      rw [Occurrences.deliveries_deleteUnsent]
      cases hd : db.deliveries j with
      | none => simp
      | some d =>
        change (Option.filter (fun d ↦ !unsent d.occurrenceId) (some d)).map letterOf = _
        by_cases hunsent : unsent d.occurrenceId = true <;>
          simp [gone, hd, Option.filter_some, hunsent]
    · exact outcomesOf_delete db (fun _ d ↦ unsent d.occurrenceId) j
  rw [hafter]
  refine @Change.drop _ _ rid _ _ (fun i hi ↦ ?_) fun j ↦ ?_
  · obtain ⟨o, ho, hunsent⟩ := (Option.any_eq_true _ _).mp hi
    have hpick := hunsent
    simp only [Occurrences.isUnsent, Bool.and_eq_true, decide_eq_true_eq] at hpick
    refine ⟨firingOf o, World.firings_of ho, hpick.1.1, hpick.1.2, fun j l hl hparent ↦ ?_⟩
    obtain ⟨d, hd, rfl⟩ := World.letter_some.mp hl
    have hgone : (db.occurrences d.occurrenceId).any
        (Occurrences.isUnsent db rid d.occurrenceId) = true := by
      rw [show d.occurrenceId = i from hparent, ho]
      exact hunsent
    exact Occurrences.pending_of_unsent hd hgone
  · constructor
    · intro hj
      obtain ⟨d, hd, hunsent⟩ := (Option.any_eq_true _ _).mp hj
      exact ⟨letterOf d, World.letters_of hd, hunsent⟩
    · rintro ⟨l, hl, hunsent⟩
      obtain ⟨d, hd, rfl⟩ := World.letter_some.mp hl
      exact (Option.any_eq_true _ _).mpr ⟨d, hd, hunsent⟩

end Planning

section Sharing

variable {g : Guard} {db : Database} {outbox : List Message}

theorem recipients_add (x : Recipient) (k : ℕ) :
    (db.run (Recipients.add x)).recipients k =
      Function.update db.recipients.rows db.recipients.next (some x) k := by
  change (db.recipients.writes (db.recipients.insert [x])) k = _
  rw [Table.writes_insert, Function.update_apply]
  split
  · rw [if_neg (by omega)]
  · by_cases hk : k = db.recipients.next
    · simp [hk]
    · rw [if_neg hk, db.recipients.fresh k (by omega), List.getElem?_eq_none]
      simp only [List.length_singleton]
      omega

theorem accept_changes {rid userId : ℕ} {now : ℤ}
    (hmay : (∃ k x, db.recipients k = some x ∧ isInvited rid userId x = true) →
      g.mayJoin (World.mk db outbox).board rid userId now) {db' : Database}
    (h : Sharing.accept db now userId rid = .ok db') :
    Changes g (World.mk db outbox).board (World.mk db' outbox).board := by
  obtain ⟨_, -, h⟩ := bind_eq_ok.mp h
  cases h
  let joined := db.run (Recipients.accept rid userId now)
  have hjoined : ∀ k, joined.recipients k = (db.recipients k).map (accepted rid userId now) :=
    Recipients.recipients_accept db rid userId now
  by_cases hinvited : ∃ k x, db.recipients k = some x ∧ isInvited rid userId x = true
  · have hwrites : (Recipients.accept rid userId now db).recipients ≠ [] := by
      obtain ⟨k, x, hx, hpick⟩ := hinvited
      exact List.ne_nil_of_mem (List.mem_map.mpr ⟨(k, x), Table.mem_select.mpr ⟨hx, hpick⟩, rfl⟩)
    rw [if_neg hwrites]
    let letters j := ((Sharing.backfillDeliveries rid userId now joined).deliveries j).map letterOf
    have hafter : (World.mk (Sharing.backfillDeliveries rid userId now joined) outbox).board =
        { (World.mk db outbox).board with
          recipients := fun k ↦ (db.recipients k).map (accepted rid userId now)
          letters := letters } :=
      Board.ext' hjoined (fun _ ↦ rfl) (fun _ ↦ rfl) (fun _ ↦ rfl) rfl
    change Changes g _ (World.mk (Sharing.backfillDeliveries rid userId now joined) outbox).board
    rw [hafter]
    refine .single (.join hinvited (hmay hinvited) (fun j l hl ↦ ?_) fun j l hl ↦ ?_)
    · obtain ⟨d, hd, rfl⟩ := World.letter_some.mp hl
      exact Option.map_eq_some_iff.mpr ⟨d, Table.insertMissing_kept hd, rfl⟩
    · obtain ⟨d, hd, rfl⟩ := Option.map_eq_some_iff.mp hl
      rcases Table.insertMissing_some hd with hold | ⟨hnone, hmem, -⟩
      · exact .inl (World.letters_of (w := ⟨db, outbox⟩) hold)
      · obtain ⟨⟨i, o⟩, hx, rfl⟩ := List.mem_map.mp hmem
        obtain ⟨ho, hrid, hpending, hahead⟩ := Occurrences.mem_listUpcoming.mp hx
        exact .inr ⟨Option.map_eq_none_iff.mpr hnone, rfl, rfl, rfl, firingOf o,
          World.firings_of (w := ⟨db, outbox⟩) ho, hrid, hpending, hahead⟩
  · have hwrites : (Recipients.accept rid userId now db).recipients = [] := by
      refine List.map_eq_nil_iff.mpr (List.eq_nil_iff_forall_not_mem.mpr fun x hx ↦ hinvited ?_)
      obtain ⟨hrow, hpick⟩ := Table.mem_select.mp hx
      exact ⟨x.1, x.2, hrow, hpick⟩
    rw [if_pos hwrites]
    have hsame : (World.mk joined outbox).board = (World.mk db outbox).board := by
      refine Board.ext' (fun k ↦ ?_) (fun _ ↦ rfl) (fun _ ↦ rfl) (fun _ ↦ rfl) rfl
      refine (hjoined k).trans ?_
      change (db.recipients k).map _ = db.recipients k
      cases hx : db.recipients k with
      | none => rfl
      | some x =>
        rw [Option.map_some, accepted, if_neg fun h ↦ hinvited ⟨k, x, hx, h⟩]
    change Changes g _ (World.mk joined outbox).board
    rw [hsame]

theorem removeWatcher_change (rid userId : ℕ) :
    Change g (World.mk db outbox).board
      (World.mk (db.run (Recipients.removeWatcher rid userId)) outbox).board := by
  have hafter : (World.mk (db.run (Recipients.removeWatcher rid userId)) outbox).board =
      { (World.mk db outbox).board with
        recipients := fun k ↦ (db.recipients k).filter fun x ↦
          !(decide (x.key = (rid, userId)) && decide (x.role = .watcher)) } :=
    Board.ext' (fun k ↦ db.recipients.writes_deleteWhere (fun _ x ↦
      decide (x.key = (rid, userId)) && decide (x.role = .watcher)) k)
      (fun _ ↦ rfl) (fun _ ↦ rfl) (fun _ ↦ rfl) rfl
  rw [hafter]
  exact .part rid userId

theorem deletePending_change (rid userId : ℕ) :
    Change g (World.mk db outbox).board
      (World.mk (db.run (Deliveries.deletePendingForRecipient rid userId)) outbox).board := by
  let gone j := (db.deliveries j).any (Deliveries.isPendingFor db rid userId)
  have hafter : (World.mk (db.run (Deliveries.deletePendingForRecipient rid userId)) outbox).board =
      (World.mk db outbox).board.remove gone := by
    refine Board.ext' (fun _ ↦ rfl) (fun _ ↦ rfl) (fun j ↦ ?_) (fun j ↦ ?_) rfl
    · change ((db.deliveries.writes (db.deliveries.deleteWhere fun _ d ↦
        Deliveries.isPendingFor db rid userId d)) j).map letterOf =
          if gone j then none else (db.deliveries j).map letterOf
      rw [Table.writes_deleteWhere]
      cases hd : db.deliveries j with
      | none => simp
      | some d =>
        by_cases hpending : Deliveries.isPendingFor db rid userId d = true <;>
          simp [gone, hd, Option.filter_some, hpending]
    · exact outcomesOf_delete db (fun _ d ↦ Deliveries.isPendingFor db rid userId d) j
  rw [hafter]
  refine @Change.withdraw _ _ rid userId _ fun j ↦ ?_
  constructor
  · intro hj
    obtain ⟨d, hd, hpending⟩ := (Option.any_eq_true _ _).mp hj
    simp only [Deliveries.isPendingFor, Bool.and_eq_true, decide_eq_true_eq] at hpending
    obtain ⟨o, ho, hrid⟩ := (Option.any_eq_true _ _).mp hpending.2
    exact ⟨letterOf d, firingOf o, World.letters_of hd, hpending.1.2, hpending.1.1,
      World.firings_of ho, of_decide_eq_true hrid⟩
  · rintro ⟨l, f, hl, hpending, huser, hf, hrid⟩
    obtain ⟨d, hd, rfl⟩ := World.letter_some.mp hl
    obtain ⟨o, ho, rfl⟩ := World.firing_some.mp hf
    refine (Option.any_eq_true _ _).mpr ⟨d, hd, ?_⟩
    simp only [Deliveries.isPendingFor, Bool.and_eq_true, decide_eq_true_eq]
    exact ⟨⟨huser, hpending⟩, (Option.any_eq_true _ _).mpr ⟨o, ho, decide_eq_true hrid⟩⟩

end Sharing

/-- What a guard asks of an operation, in the state it starts from. -/
def Operation.Meets (g : Guard) (settings : Settings) (w : World) : Operation → Prop
  | .create .. => g.mayOpen w.db.reminders.next
  | .materialize now =>
    ∀ x ∈ Db.Reminders.dueForPlanning w.db (now + settings.planning.horizon)
      settings.planning.batchSize, ∀ owner, w.db.users x.2.ownerId = some owner →
        CoversWhen g.mayCover settings.planning (now + settings.planning.horizon) w.db x.1 x.2 owner
  | .deliver now gateway =>
    let claimed := Deliveries.claimDue now settings.lockFor settings.dispatcherBatch
      (fun _ ↦ false) w.db
    SendsWhen g.maySend gateway
      (Dispatching.loadWork (w.db.apply (Deliveries.claimed claimed)) claimed) .empty
  | .react .. => g.mayTap
  | .sweep now =>
    let expired := Reaper.expireAll now (Reaper.overdue w.db now settings.reaperBatch) w.db
    g.mayExpire ∧ ∀ c ∈ Deliveries.listRepeatCandidates expired now settings.reaperBatch,
      (Reaper.repeatAt now c).isSome = true →
        g.mayRepeat (letterOf c.delivery.2) (firingOf c.occurrence.2)
  | .accept now userId reminderId =>
    (∃ k x, w.db.recipients k = some x ∧ isInvited reminderId userId x = true) →
      g.mayJoin w.board reminderId userId now
  | _ => True

section Operations

variable {g : Guard} {settings : Settings} {w w' : World} {op : Operation}

/-- Every operation is a chain of elementary changes of the board. -/
theorem perform_changes (hmeets : op.Meets g settings w) (h : perform settings w op = some w') :
    Changes g w.board w'.board := by
  cases op with
  | create now ownerId draft =>
    obtain ⟨db', hdb, rfl⟩ := over_eq_some h
    obtain ⟨-, rfl⟩ := Reminders.create_eq_ok hdb
    let beginsAt := draft.startsAt.getD now
    let added := w.db.run (Db.Reminders.add (Reminders.reminderRow ownerId draft beginsAt))
    let x : Recipient := ⟨w.db.reminders.next, ownerId, .owner, some now⟩
    have hafter : (World.mk (added.run (Recipients.add x)) w.outbox).board =
        { w.board with
          recipients := Function.update w.db.recipients.rows w.db.recipients.next (some x) } :=
      Board.ext' (@recipients_add added x) (fun _ ↦ rfl) (fun _ ↦ rfl) (fun _ ↦ rfl) rfl
    change Changes g w.board (World.mk (added.run (Recipients.add x)) w.outbox).board
    rw [hafter]
    exact .single (.own (w.db.recipients.fresh _ le_rfl) rfl hmeets)
  | materialize now =>
    cases h
    exact materializeAll_changes (Db.Reminders.nodup_dueForPlanning ..) hmeets
  | deliver now gateway =>
    cases h
    exact deliver_changes hmeets
  | react now deliveryId userId action =>
    obtain ⟨result, db', hreact, rfl⟩ := over_snd_eq_some h
    exact react_changes hmeets hreact
  | sweep now =>
    cases h
    exact sweep_changes _ hmeets.1 hmeets.2
  | setStatus now ownerId rid status =>
    obtain ⟨db', hdb, rfl⟩ := over_eq_some h
    obtain ⟨r, -, rfl⟩ := Reminders.setStatus_eq_ok hdb
    split
    · exact .refl
    · exact .single (dropQueued_change rid r)
  | update now ownerId rid change =>
    obtain ⟨db', hdb, rfl⟩ := over_eq_some h
    obtain ⟨r, -, -, rfl⟩ := Reminders.update_eq_ok hdb
    split
    · exact .single (dropQueued_change rid r)
    · exact .refl
  | issueInvite now ownerId reminderId token =>
    obtain ⟨db', hdb, rfl⟩ := over_eq_some h
    obtain rfl := Sharing.issueInvite_eq_ok hdb
    exact .refl
  | revokeInvite now ownerId reminderId =>
    obtain ⟨db', hdb, rfl⟩ := over_eq_some h
    obtain rfl := Sharing.revokeInvite_eq_ok hdb
    exact .refl
  | openInvite now token userId =>
    obtain ⟨db', hdb, rfl⟩ := over_eq_some h
    rcases Sharing.openInvite_eq_ok hdb with rfl | ⟨rid, hnone, rfl⟩
    · exact .refl
    · let x : Recipient := ⟨rid, userId, .watcher, none⟩
      have hafter : (World.mk (w.db.run (Recipients.add x)) w.outbox).board =
          { w.board with
            recipients := Function.update w.db.recipients.rows w.db.recipients.next (some x) } :=
        Board.ext' (recipients_add x) (fun _ ↦ rfl) (fun _ ↦ rfl) (fun _ ↦ rfl) rfl
      change Changes g w.board (World.mk (w.db.run (Recipients.add x)) w.outbox).board
      rw [hafter]
      refine .single (.invite (w.db.recipients.fresh _ le_rfl) (fun k y hy hkey ↦ ?_) rfl rfl)
      exact of_decide_eq_false (Table.find_none.mp hnone k y hy) hkey
  | accept now userId reminderId =>
    obtain ⟨db', hdb, rfl⟩ := over_eq_some h
    exact accept_changes hmeets hdb
  | decline now userId reminderId =>
    cases h
    exact .single (removeWatcher_change reminderId userId)
  | leave now userId reminderId =>
    cases h
    exact .head (deletePending_change reminderId userId) (.single (removeWatcher_change reminderId
      userId))

/-- What every change preserves holds of every board a guarded run reaches. -/
theorem run_board {P : Board → Prop} (hchange : ∀ b b', P b → Change g b b' → P b')
    {ops : List Operation}
    (hmeets : Guarded (perform settings) (fun w op ↦ op.Meets g settings w) w ops)
    (hrun : run (perform settings) w ops = some w') (h : P w.board) : P w'.board := by
  refine run_invariant (P := fun w ↦ P w.board) (fun w₁ op w₂ h₁ hop hstep ↦ ?_) hmeets hrun h
  exact (perform_changes hop hstep).invariant hchange h₁

theorem sendsWhen_of_forall {maySend : ℤ → ℤ → Prop} (h : ∀ e t, maySend e t)
    (gateway : Dispatching.Gateway) (batch : List Dispatching.Work) (memory : Dispatching.Memory) :
    SendsWhen maySend gateway batch memory := by
  induction batch generalizing memory with
  | nil => trivial
  | cons w rest ih => exact ⟨fun _ _ _ _ ↦ h _ _, ih _⟩

theorem meets_free (settings : Settings) (w : World) (op : Operation) :
    op.Meets .free settings w := by
  cases op with
  | deliver now gateway => exact sendsWhen_of_forall (fun _ _ ↦ trivial) ..
  | materialize now => exact fun _ _ _ _ _ _ _ _ _ _ _ ↦ ⟨fun _ _ _ _ _ ↦ trivial, fun _ ↦ trivial⟩
  | sweep now => exact ⟨trivial, fun _ _ _ ↦ trivial⟩
  | accept now userId rid => exact fun _ ↦ trivial
  | _ => trivial

theorem run_board_free {P : Board → Prop} (hchange : ∀ b b', P b → Change .free b b' → P b')
    {ops : List Operation} (hrun : run (perform settings) w ops = some w') (h : P w.board) :
    P w'.board :=
  run_board hchange (.of_forall (meets_free settings)) hrun h

theorem parented_run {users : Table User} {categories : Table Category} {ops : List Operation}
    (hrun : run (perform settings) (.initial users categories) ops = some w) : Parented w.board :=
  run_board_free (fun _ _ h hchange ↦ h.change hchange) hrun fun _ _ h ↦ by cases h

end Operations

end Remindo.Serial
