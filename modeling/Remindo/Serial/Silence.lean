import Remindo.Serial.Rows
import Remindo.Serial.TakingBack

namespace Remindo.Serial

open Remindo.Domain Remindo.Db Remindo.Services Remindo.Foundation

/-- Still shown and unanswered, or answered. -/
def isResolvable (d : Delivery) : Bool := decide (d.status = .sent) || d.status.isAnswer

/-- Up to its expiry the journal holds the outcome of what has been answered. -/
structure Settled (b : Board) : Prop where
  parented : Parented b
  absent : ∀ j, b.letters j = none → b.outcomes j = 0
  settled : ∀ j l f, b.letters j = some l → b.firings l.occurrenceId = some f →
    f.status ≠ .expired → b.outcomes j = if l.status.isAnswer then 1 else 0

section Invariant

variable {g : Guard} {b b' : Board}

theorem Settled.setLetter (h : Settled b) {j : ℕ} {l : Letter} (l' : Letter)
    (hj : b.letters j = some l) (hparent : l'.occurrenceId = l.occurrenceId)
    (hstatus : l'.status.isAnswer = l.status.isAnswer) : Settled (b.setLetter j l') := by
  refine ⟨h.parented.setLetter _ hj hparent, fun k hk ↦ ?_, fun k l₁ f hk hf hopen ↦ ?_⟩
  · rw [Board.letters_setLetter] at hk
    split at hk
    · cases hk
    · exact h.absent k hk
  · rw [Board.letters_setLetter] at hk
    split at hk
    · rename_i heq
      cases hk
      rw [heq, hstatus]
      exact h.settled j l f hj (hparent ▸ hf) hopen
    · exact h.settled k l₁ f hk hf hopen

theorem Settled.setFiring (h : Settled b) {i : ℕ} {f₀ : Firing} (status : OccurrenceStatus)
    (hi : b.firings i = some f₀) (hopen : f₀.status.isTerminal = false) :
    Settled (b.setFiring i { f₀ with status := status }) := by
  refine ⟨h.parented.setFiring _ _, h.absent, fun j l f hl hf hstatus ↦ ?_⟩
  rw [Board.firings_setFiring] at hf
  split at hf
  · rename_i heq
    refine h.settled j l f₀ hl (heq ▸ hi) fun hexpired ↦ ?_
    rw [hexpired] at hopen
    cases hopen
  · exact h.settled j l f hl hf hstatus

theorem Settled.insert (h : Settled b) (hparented : Parented b') (hfirings : b'.firings = b.firings)
    (houtcomes : b'.outcomes = b.outcomes)
    (hkept : ∀ j l, b.letters j = some l → b'.letters j = some l)
    (hnew : ∀ j l, b'.letters j = some l → b.letters j = some l ∨
      b.letters j = none ∧ l.status = .pending) : Settled b' := by
  refine ⟨hparented, fun j hj ↦ ?_, fun j l f hl hf hstatus ↦ ?_⟩
  · rw [houtcomes]
    refine h.absent j (Option.eq_none_iff_forall_ne_some.mpr fun l hl ↦ ?_)
    rw [hkept j l hl] at hj
    cases hj
  · rw [houtcomes]
    rcases hnew j l hl with hold | ⟨hnone, hpending⟩
    · exact h.settled j l f hold (hfirings ▸ hf) hstatus
    · rw [h.absent j hnone, hpending]
      rfl

theorem Settled.remove (h : Settled b) (hparented : Parented b') {gone : ℕ → Bool}
    (hfirings : ∀ i f, b'.firings i = some f → b.firings i = some f)
    (houtcomes : b'.outcomes = (b.remove gone).outcomes)
    (hletters : b'.letters = (b.remove gone).letters) : Settled b' := by
  refine ⟨hparented, fun j hj ↦ ?_, fun j l f hl hf hstatus ↦ ?_⟩
  · rw [hletters] at hj
    rw [houtcomes]
    change (if gone j then none else b.letters j) = none at hj
    change (if gone j then 0 else b.outcomes j) = 0
    split at hj
    · rw [if_pos ‹_›]
    · rw [if_neg ‹_›, h.absent j hj]
  · rw [hletters] at hl
    rw [houtcomes]
    change (if gone j then none else b.letters j) = some l at hl
    change (if gone j then 0 else b.outcomes j) = _
    split at hl
    · cases hl
    · rw [if_neg ‹_›]
      exact h.settled j l f hl (hfirings _ f hf) hstatus

theorem Settled.change (h : Settled b) (hchange : Change g b b') : Settled b' := by
  have hparented := h.parented.change hchange
  cases hchange with
  | retry hj hqueued =>
    exact h.setLetter _ hj rfl
      (DeliveryStatus.not_isAnswer (Letter.not_isTerminal_of_isQueued hqueued)).symm
  | giveUp hj hqueued hended =>
    refine h.setLetter _ hj rfl ?_
    rw [DeliveryStatus.not_isAnswer (Letter.not_isTerminal_of_isQueued hqueued)]
    rcases hended with rfl | rfl <;> rfl
  | requeue hj hsent => exact h.setLetter _ hj rfl (by rw [hsent]; rfl)
  | snooze hj hlive => exact h.setLetter _ hj rfl (DeliveryStatus.not_isAnswer hlive).symm
  | @send j l f t hj hqueued hi hopen =>
    have hsent := h.setLetter { l with status := .sent, sentAt := some t } hj rfl
      (DeliveryStatus.not_isAnswer (Letter.not_isTerminal_of_isQueued hqueued)).symm
    have hmarked := hsent.setFiring .sent hi hopen
    exact ⟨hmarked.parented, hmarked.absent, hmarked.settled⟩
  | @answer j l f status hj hlive hi hopen hanswer =>
    refine ⟨hparented, fun k hk ↦ ?_, fun k l' f' hk hf hstatus ↦ ?_⟩
    · change (b.setLetter j _).letters k = none at hk
      change Function.update b.outcomes j (b.outcomes j + 1) k = 0
      rw [Board.letters_setLetter] at hk
      split at hk
      · cases hk
      · rw [Function.update_of_ne ‹_›, h.absent k hk]
    · change (b.setLetter j _).letters k = some l' at hk
      change Function.update b.outcomes j (b.outcomes j + 1) k = _
      rw [Board.letters_setLetter] at hk
      split at hk
      · rename_i heq
        cases hk
        have hbefore := h.settled j l f' hj hf hstatus
        rw [DeliveryStatus.not_isAnswer hlive, if_neg (by simp)] at hbefore
        rw [heq, Function.update_self, hbefore, if_pos hanswer]
      · rw [Function.update_of_ne ‹_›]
        exact h.settled k l' f' hk hf hstatus
  | close hi hopen => exact h.setFiring _ hi hopen
  | @expire i f hi hopen =>
    refine ⟨hparented, fun j hj ↦ ?_, fun j l f' hl hf hstatus ↦ ?_⟩
    · have hnone : b.letters j = none := hj
      change b.outcomes j + (if b.isShown i j then 1 else 0) = 0
      rw [h.absent j hnone, Board.isShown, hnone]
      rfl
    · have hletter : b.letters j = some l := hl
      change (b.setFiring i _).firings l.occurrenceId = some f' at hf
      change b.outcomes j + (if b.isShown i j then 1 else 0) = _
      rw [Board.firings_setFiring] at hf
      split at hf
      · cases hf
        exact absurd rfl hstatus
      · rename_i hne
        rw [Board.isShown, hletter, Option.any_some, decide_eq_false hne, Bool.false_and,
          if_neg (by simp), Nat.add_zero]
        exact h.settled j l f' hletter hf hstatus
  | plan hkept hnew =>
    refine ⟨hparented, h.absent, fun j l f hl hf hstatus ↦ ?_⟩
    obtain ⟨f', hf'⟩ := h.parented j l hl
    cases (hkept _ _ hf').symm.trans hf
    exact h.settled j l _ hl hf' hstatus
  | cover hkept hnew =>
    refine h.insert hparented rfl rfl hkept fun j l hl ↦ (hnew j l hl).imp_right ?_
    exact fun hnew ↦ ⟨hnew.1, hnew.2.1⟩
  | join hinvited hmay hkept hnew =>
    refine h.insert hparented rfl rfl hkept fun j l hl ↦ (hnew j l hl).imp_right ?_
    exact fun hnew ↦ ⟨hnew.1, hnew.2.1⟩
  | invite | own | part => exact ⟨hparented, h.absent, h.settled⟩
  | withdraw => exact h.remove hparented (fun _ _ hf ↦ hf) rfl rfl
  | @drop _ unsent gone =>
    refine h.remove hparented (fun i f hf ↦ ?_) (rfl : _ = (b.remove gone).outcomes) rfl
    change (if unsent i then none else b.firings i) = some f at hf
    split at hf
    · cases hf
    · exact hf

theorem settled_run {settings : Settings} {users : Table User} {categories : Table Category}
    {ops : List Operation} {w : World}
    (hrun : run (perform settings) (.initial users categories) ops = some w) : Settled w.board :=
  run_board_free (fun _ _ h hchange ↦ h.change hchange) hrun
    ⟨nofun, fun _ _ ↦ rfl, nofun⟩

end Invariant

/-- Letters are added, and occurrences expired, only if these say so. -/
def within (adds expires : Prop) : Guard where
  maySend _ _ := True
  mayRepeat _ _ := True
  mayCover _ _ := adds
  mayJoin _ _ _ _ := adds
  mayOpen _ := True
  mayTap := True
  mayExpire := expires

/-- Beside an occurrence that is closed for good the journal stands still. -/
structure Closed (i : ℕ) (b₀ b : Board) : Prop where
  firing : ∃ f, b.firings i = some f ∧ f.status.isTerminal = true
  letters : ∀ j l, b.letters j = some l → l.occurrenceId = i →
    (∃ l₀, b₀.letters j = some l₀ ∧ l₀.occurrenceId = i) ∧ b.outcomes j = b₀.outcomes j

section Standstill

variable {i : ℕ} {b₀ b b' : Board} {expires : Prop}

theorem Closed.refl {f : Firing} (hi : b.firings i = some f) (hclosed : f.status.isTerminal = true) :
    Closed i b b :=
  ⟨⟨f, hi, hclosed⟩, fun _ l hl hparent ↦ ⟨⟨l, hl, hparent⟩, rfl⟩⟩

theorem Closed.change (h : Closed i b₀ b) (hchange : Change (within False expires) b b') :
    Closed i b₀ b' := by
  obtain ⟨f, hi, hclosed⟩ := h.firing
  have hfiring := hchange.closed_kept hi hclosed
  have helse : ∀ {k : ℕ} {f' : Firing}, b.firings k = some f' → f'.status.isTerminal = false →
      k ≠ i := by
    intro k f' hk hopen heq
    cases (heq ▸ hk).symm.trans hi
    rw [hclosed] at hopen
    cases hopen
  -- A letter is rewritten in place, if at all.
  have hset : ∀ {j : ℕ} {l l' : Letter}, b.letters j = some l →
      (∀ k, b'.letters k = (b.setLetter j l').letters k) → l'.occurrenceId = l.occurrenceId →
        b'.outcomes = b.outcomes → Closed i b₀ b' := by
    intro j l l' hj hletters hparent houtcomes
    refine ⟨⟨f, hfiring, hclosed⟩, fun k l₁ hk hi ↦ ?_⟩
    rw [hletters, Board.letters_setLetter] at hk
    rw [houtcomes]
    split at hk
    · rename_i heq
      cases hk
      exact heq ▸ h.letters j l hj (hparent ▸ hi)
    · exact h.letters k l₁ hk hi
  have hsubset : (∀ j l, b'.letters j = some l → b.letters j = some l ∧
      b'.outcomes j = b.outcomes j) → Closed i b₀ b' := by
    refine fun hback ↦ ⟨⟨f, hfiring, hclosed⟩, fun j l hl hi ↦ ?_⟩
    obtain ⟨hold, houtcomes⟩ := hback j l hl
    rw [houtcomes]
    exact h.letters j l hold hi
  have hremove : ∀ {gone : ℕ → Bool}, b'.letters = (b.remove gone).letters →
      b'.outcomes = (b.remove gone).outcomes → Closed i b₀ b' := by
    refine fun {gone} hletters houtcomes ↦ hsubset fun j l hl ↦ ?_
    rw [hletters] at hl
    change (if gone j then none else b.letters j) = some l at hl
    split at hl
    · cases hl
    · exact ⟨hl, by rw [houtcomes]; exact if_neg ‹_›⟩
  cases hchange with
  | retry hj | giveUp hj | requeue hj | snooze hj | send hj =>
    exact hset hj (fun _ ↦ rfl) rfl rfl
  | @answer j l f' status hj hlive hk hopen =>
    refine ⟨⟨f, hfiring, hclosed⟩, fun k l' hl' hi' ↦ ?_⟩
    change (b.setLetter j _).letters k = some l' at hl'
    change _ ∧ Function.update b.outcomes j (b.outcomes j + 1) k = _
    rw [Board.letters_setLetter] at hl'
    split at hl'
    · cases hl'
      exact absurd hi' (helse hk hopen)
    · rw [Function.update_of_ne ‹_›]
      exact h.letters k l' hl' hi'
  | @expire k f' hk hopen =>
    refine ⟨⟨f, hfiring, hclosed⟩, fun j l hl hi' ↦ ?_⟩
    have hletter : b.letters j = some l := hl
    change _ ∧ b.outcomes j + (if b.isShown k j then 1 else 0) = _
    have hne : l.occurrenceId ≠ k := fun heq ↦ helse hk hopen (heq ▸ hi')
    rw [Board.isShown, hletter, Option.any_some, decide_eq_false hne, Bool.false_and,
      if_neg (by simp), Nat.add_zero]
    exact h.letters j l hletter hi'
  | close | plan | invite | own | part => exact hsubset fun _ _ hl ↦ ⟨hl, rfl⟩
  | cover hkept hnew =>
    refine hsubset fun j l hl ↦ ⟨(hnew j l hl).resolve_right ?_, rfl⟩
    rintro ⟨_, _, _, _, _, ⟨k, x, hx, hkey, hlistens⟩, hadds⟩
    exact hadds k x hx hkey hlistens
  | join hinvited hadds => exact hadds.elim
  | withdraw => exact hremove rfl rfl
  | @drop _ unsent gone => exact hremove (rfl : _ = (b.remove gone).letters) rfl

end Standstill

section Sweeps

open Reaper

variable {db : Database} {now : ℤ} {i : ℕ}

theorem expireAll_occurrences (overdue : List (ℕ × Occurrence)) :
    (expireAll now overdue db).occurrences i = if i ∈ overdue.map Prod.fst then
      (db.occurrences i).map fun o ↦ { o with status := .expired } else db.occurrences i := by
  induction overdue generalizing db with
  | nil => rfl
  | cons x rest ih =>
    rw [expireAll, ih, Occurrences.occurrences_setStatus, (journalSilence_tables ..).1]
    by_cases hi : i = x.1
    · subst hi
      split <;> simp [Function.comp_def]
    · simp [hi, -List.mem_map]

/-- Each delivery still shown is journaled once, whatever else is expired. -/
theorem expireAll_outcomes {overdue : List (ℕ × Occurrence)}
    (hrow : ∀ x ∈ overdue, db.occurrences x.1 = some x.2)
    (hnodup : (overdue.map Prod.fst).Nodup) (j : ℕ) :
    outcomesOf (expireAll now overdue db) j = outcomesOf db j +
      if (db.deliveries j).any (fun d ↦ decide (d.status = .sent) &&
        decide (d.occurrenceId ∈ overdue.map Prod.fst)) then 1 else 0 := by
  induction overdue generalizing db with
  | nil => cases hd : db.deliveries j <;> simp [expireAll]
  | cons x rest ih =>
    rw [List.map_cons, List.nodup_cons] at hnodup
    let expired := (journalSilence now (Deliveries.listSentForOccurrence db x.1) db).run
      (Occurrences.setStatus x.1 .expired)
    have hone : outcomesOf expired j = outcomesOf db j +
        if (World.mk db []).board.isShown x.1 j then 1 else 0 :=
      congrFun (congrArg Board.outcomes (expire_board (hrow x List.mem_cons_self))) j
    have hrest := @ih expired (fun y hy ↦ ?_) hnodup.2
    · rw [expireAll, hrest, hone,
        show expired.deliveries = db.deliveries from (journalSilence_tables ..).2, Board.isShown,
        show (World.mk db []).board.letters j = (db.deliveries j).map letterOf from rfl]
      cases hd : db.deliveries j with
      | none => simp
      | some d =>
        by_cases hx : d.occurrenceId = x.1
        · simp [letterOf, hx, hnodup.1]
        · simp [letterOf, hx, -List.mem_map]
    · have hne : y.1 ≠ x.1 := fun heq ↦ hnodup.1 (heq ▸ List.mem_map_of_mem hy)
      rw [Occurrences.occurrences_setStatus, if_neg hne, (journalSilence_tables ..).1]
      exact hrow y (List.mem_cons_of_mem _ hy)

/-- What a sweep leaves in the journal for an occurrence it expires. -/
theorem sweep_settles {w : World} {batch : ℕ} {o : Occurrence} (hsettled : Settled w.board)
    (ho : (sweep w.db now batch).occurrences i = some o) (hexpired : o.status = .expired)
    (hbefore : ∀ o', w.db.occurrences i = some o' → o'.status ≠ .expired) :
    (∃ o', w.db.occurrences i = some o' ∧ o'.status.isTerminal = false) ∧
      ∀ j d, (sweep w.db now batch).deliveries j = some d → d.occurrenceId = i →
        outcomesOf (sweep w.db now batch) j =
          if (w.db.deliveries j).any isResolvable then 1 else 0 := by
  let mid := expireAll now (overdue w.db now batch) w.db
  have hlate : Changes (within False False) (World.mk mid w.outbox).board
      (World.mk (sweep w.db now batch) w.outbox).board := repeat_changes fun _ _ _ ↦ trivial
  have hmid : (World.mk mid w.outbox).board.firings i = some (firingOf o) :=
    hlate.invariant (P := fun b ↦ ∀ f, b.firings i = some f → f.status = .expired →
      (World.mk mid w.outbox).board.firings i = some f)
      (fun _ _ h hchange f hf hstatus ↦
        h f (hchange.expired_back (by simp [within]) hf hstatus) hstatus)
      (fun _ hf _ ↦ hf) _ (World.firings_of ho) hexpired
  have hclosed : Closed i (World.mk mid w.outbox).board
      (World.mk (sweep w.db now batch) w.outbox).board := by
    refine hlate.invariant (fun _ _ h hchange ↦ h.change hchange) (.refl hmid ?_)
    change o.status.isTerminal = true
    rw [hexpired]
    rfl
  obtain ⟨o₂, ho₂, hstatus⟩ := World.firing_some.mp hmid
  have hlisted : i ∈ (overdue w.db now batch).map Prod.fst := by
    by_contra hnot
    have hkept : mid.occurrences i = w.db.occurrences i :=
      (expireAll_occurrences _).trans (if_neg hnot)
    refine hbefore o₂ (hkept.symm.trans ho₂) ?_
    rw [show o₂.status = o.status from congrArg Firing.status hstatus, hexpired]
  obtain ⟨⟨i', o₁⟩, hmem, rfl⟩ := List.mem_map.mp hlisted
  obtain ⟨ho₁, hopen⟩ := mem_overdue hmem
  refine ⟨⟨o₁, ho₁, hopen⟩, fun j d hd hparent ↦ ?_⟩
  obtain ⟨⟨l, hl, hl'⟩, houtcomes⟩ := hclosed.letters j _ (World.letters_of hd) hparent
  obtain ⟨d₁, hd₁, rfl⟩ := World.letter_some.mp hl
  have hrow : w.db.deliveries j = some d₁ := expireAll_deliveries now _ w.db ▸ hd₁
  have hparent : d₁.occurrenceId = i' := hl'
  have hjournal : outcomesOf w.db j = if d₁.status.isAnswer then 1 else 0 := by
    refine hsettled.settled j (letterOf d₁) (firingOf o₁) (World.letters_of hrow) ?_
      (hbefore o₁ ho₁)
    rw [show (letterOf d₁).occurrenceId = i' from hl']
    exact World.firings_of ho₁
  change outcomesOf (sweep w.db now batch) j = outcomesOf mid j at houtcomes
  rw [houtcomes, expireAll_outcomes (fun x hx ↦ (mem_overdue hx).1) (nodup_overdue ..), hjournal,
    hrow, Option.any_some, Option.any_some, hparent, decide_eq_true hlisted, Bool.and_true,
    isResolvable]
  cases d₁.status <;> rfl

end Sweeps

def Operation.addsLetters : Operation → Bool
  | .materialize _ | .accept .. => true
  | _ => false

def Operation.isSweep : Operation → Bool
  | .sweep _ => true
  | _ => false

section Runs

variable {settings : Settings} {w₀ w₁ w w' : World} {ops : List Operation} {op : Operation} {i : ℕ}

theorem meets_within (settings : Settings) (w : World) (op : Operation) :
    op.Meets (within (op.addsLetters = true) (op.isSweep = true)) settings w := by
  cases op with
  | materialize now => exact fun _ _ _ _ _ _ _ _ _ _ _ ↦ ⟨fun _ _ _ _ _ ↦ rfl, fun _ ↦ rfl⟩
  | deliver now gateway => exact sendsWhen_of_forall (fun _ _ ↦ trivial) ..
  | sweep now => exact ⟨rfl, fun _ _ _ ↦ trivial⟩
  | accept now userId rid => exact fun _ ↦ rfl
  | _ => trivial

/-- A sweep of the run has expired the occurrence; it found the world as `w₁`. -/
structure SweptFrom (settings : Settings) (w₀ : World) (ops : List Operation) (i : ℕ)
    (w₁ w : World) : Prop where
  opened : ∃ o, w₁.db.occurrences i = some o ∧ o.status.isTerminal = false
  swept : ∃ before now after w₂, ops = before ++ .sweep now :: after ∧
    run (perform settings) w₀ before = some w₁ ∧ perform settings w₁ (.sweep now) = some w₂ ∧
      run (perform settings) w₂ after = some w ∧
        ∃ o, w₂.db.occurrences i = some o ∧ o.status = .expired

theorem SweptFrom.step (h : SweptFrom settings w₀ ops i w₁ w)
    (hop : perform settings w op = some w') : SweptFrom settings w₀ (ops ++ [op]) i w₁ w' := by
  obtain ⟨before, now, after, w₂, rfl, hbefore, hsweep, hafter, hexpired⟩ := h.swept
  refine ⟨h.opened, before, now, after ++ [op], w₂, by simp, hbefore, hsweep, ?_, hexpired⟩
  rw [run_append, hafter, Option.bind_some, run, hop]
  rfl

/-- After an occurrence has expired, the journal of its deliveries stands still. -/
theorem journal_kept (hsettled : Settled w.board) {o : Occurrence}
    (ho : w.db.occurrences i = some o) (hexpired : o.status = .expired)
    (hop : perform settings w op = some w') {j : ℕ} {d : Delivery}
    (hd : w'.db.deliveries j = some d) (hparent : d.occurrenceId = i) :
    (∃ d', w.db.deliveries j = some d' ∧ d'.occurrenceId = i ∧
        outcomesOf w'.db j = outcomesOf w.db j) ∨
      w.db.deliveries.next ≤ j ∧ outcomesOf w'.db j = 0 := by
  have hadded : Extends w.db w'.db → (∃ d', w.db.deliveries j = some d' ∧ d'.occurrenceId = i ∧
      outcomesOf w'.db j = outcomesOf w.db j) ∨
        w.db.deliveries.next ≤ j ∧ outcomesOf w'.db j = 0 := by
    intro hext
    rw [outcomesOf_congr hext.actions]
    refine (hext.back j d hd).imp (fun hold ↦ ⟨d, hold, hparent, rfl⟩) fun ⟨hnext, _⟩ ↦ ⟨hnext, ?_⟩
    refine hsettled.absent j ?_
    change (w.db.deliveries j).map letterOf = none
    rw [w.db.deliveries.fresh j hnext, Option.map_none]
  cases hadds : op.addsLetters with
  | true =>
    cases op with
    | materialize now =>
      cases hop
      exact hadded (extends_materializeAll ..)
    | accept now userId rid =>
      obtain ⟨db', hdb, rfl⟩ := over_eq_some hop
      exact hadded (extends_accept hdb)
    | _ => cases hadds
  | false =>
    have hmeets := meets_within settings w op
    rw [hadds, Bool.false_eq_true] at hmeets
    have hclosed : Closed i w.board w'.board := by
      refine (perform_changes hmeets hop).invariant (fun _ _ h hchange ↦ h.change hchange)
        (.refl (World.firings_of ho) ?_)
      change o.status.isTerminal = true
      rw [hexpired]
      rfl
    obtain ⟨⟨l, hl, hparent⟩, houtcomes⟩ := hclosed.letters j _ (World.letters_of hd) hparent
    obtain ⟨d', hd', rfl⟩ := World.letter_some.mp hl
    exact .inl ⟨d', hd', hparent, houtcomes⟩

theorem expired_back (hop : perform settings w op = some w') {o : Occurrence}
    (ho : w'.db.occurrences i = some o) (hexpired : o.status = .expired) :
    (∃ o', w.db.occurrences i = some o' ∧ o'.status = .expired) ∨ op.isSweep = true := by
  refine or_iff_not_imp_right.mpr fun hquiet ↦ ?_
  have hfiring : w.board.firings i = some (firingOf o) :=
    (perform_changes (meets_within settings w op) hop).invariant
      (P := fun b ↦ ∀ f, b.firings i = some f → f.status = .expired → w.board.firings i = some f)
      (fun _ _ h hchange f hf hstatus ↦ h f (hchange.expired_back hquiet hf hstatus) hstatus)
      (fun _ hf _ ↦ hf) _ (World.firings_of ho) hexpired
  obtain ⟨o', ho', hstatus⟩ := World.firing_some.mp hfiring
  exact ⟨o', ho', (congrArg Firing.status hstatus).trans hexpired⟩

/-- What the journal of an expired occurrence holds is what the sweep that
expired it left there. -/
def Silenced (i : ℕ) (w₁ w : World) : Prop :=
  w₁.db.deliveries.next ≤ w.db.deliveries.next ∧
    ∀ j d, w.db.deliveries j = some d → d.occurrenceId = i →
      outcomesOf w.db j = if (w₁.db.deliveries j).any isResolvable then 1 else 0

theorem Silenced.step (h : Silenced i w₁ w) (hsettled : Settled w.board) {o : Occurrence}
    (ho : w.db.occurrences i = some o) (hexpired : o.status = .expired)
    (hop : perform settings w op = some w') : Silenced i w₁ w' := by
  refine ⟨h.1.trans (next_perform hop), fun j d hd hparent ↦ ?_⟩
  rcases journal_kept hsettled ho hexpired hop hd hparent with
    ⟨d', hd', hparent', houtcomes⟩ | ⟨hnext, houtcomes⟩
  · rw [houtcomes]
    exact h.2 j d' hd' hparent'
  · rw [houtcomes, w₁.db.deliveries.fresh j (h.1.trans hnext)]
    rfl

theorem silenced_of_expired {users : Table User} {categories : Table Category}
    (hrun : run (perform settings) (.initial users categories) ops = some w) {o : Occurrence}
    (ho : w.db.occurrences i = some o) (hexpired : o.status = .expired) :
    ∃ w₁, SweptFrom settings (.initial users categories) ops i w₁ w ∧ Silenced i w₁ w := by
  induction ops using List.reverseRecOn generalizing w o with
  | nil =>
    cases hrun
    cases ho
  | append_singleton ops op ih =>
    rw [run_append, Option.bind_eq_some_iff] at hrun
    obtain ⟨w', hbefore, hlast⟩ := hrun
    obtain ⟨w₂, hop, hlast⟩ := Option.bind_eq_some_iff.mp hlast
    cases hlast
    by_cases hold : ∃ o', w'.db.occurrences i = some o' ∧ o'.status = .expired
    · obtain ⟨o', ho', hexpired'⟩ := hold
      obtain ⟨w₁, hswept, hsilenced⟩ := ih hbefore ho' hexpired'
      exact ⟨w₁, hswept.step hop, hsilenced.step (settled_run hbefore) ho' hexpired' hop⟩
    · have hsweep := (expired_back hop ho hexpired).resolve_left hold
      cases op with
      | sweep now =>
        have hnext := next_perform hop
        cases hop
        obtain ⟨hopened, hjournal⟩ := sweep_settles (settled_run hbefore) ho hexpired
          fun o' ho' hexpired' ↦ hold ⟨o', ho', hexpired'⟩
        exact ⟨w', ⟨hopened, ops, now, [], _, rfl, hbefore, rfl, rfl, o, ho, hexpired⟩, hnext,
          hjournal⟩
      | _ => cases hsweep

/-- A delivery of an expired occurrence is in the journal once if it was
answered, or still shown, when the occurrence was expired, and not at all
otherwise. -/
theorem silence_journaled {users : Table User} {categories : Table Category}
    (hrun : run (perform settings) (.initial users categories) ops = some w) {j : ℕ} {d : Delivery}
    {o : Occurrence} (hd : w.db.deliveries j = some d)
    (ho : w.db.occurrences d.occurrenceId = some o) (hexpired : o.status = .expired) :
    ∃ w₁, SweptFrom settings (.initial users categories) ops d.occurrenceId w₁ w ∧
      outcomesOf w.db j = if (w₁.db.deliveries j).any isResolvable then 1 else 0 := by
  obtain ⟨w₁, hswept, hsilenced⟩ := silenced_of_expired hrun ho hexpired
  exact ⟨w₁, hswept, hsilenced.2 j d hd rfl⟩

end Runs

section Sample

/-- The owner's message is on screen, the watcher's transport has failed, when
the occurrence is swept up. -/
theorem silence_journaled_sample :
    ∃ w d o w₁, run (perform sampleSettings) (.initial sampleUsers sampleCategories)
        (sharedLife ++ [.sweep (6 * day)]) = some w ∧
      w.db.deliveries 0 = some d ∧ w.db.occurrences d.occurrenceId = some o ∧
        o.status = .expired ∧ outcomesOf w.db 0 = 1 ∧
          SweptFrom sampleSettings (.initial sampleUsers sampleCategories)
          (sharedLife ++ [.sweep (6 * day)])
            d.occurrenceId w₁ w ∧
            outcomesOf w.db 0 = if (w₁.db.deliveries 0).any isResolvable then 1 else 0 := by
  have hruns : (run (perform sampleSettings) (.initial sampleUsers sampleCategories)
      (sharedLife ++ [.sweep (6 * day)])).any (fun w ↦ decide (outcomesOf w.db 0 = 1) &&
        (w.db.deliveries 0).any fun d ↦ (w.db.occurrences d.occurrenceId).any fun o ↦
          decide (o.status = .expired)) = true := by
    decide +kernel
  obtain ⟨w, hrun, hruns⟩ := (Option.any_eq_true _ _).mp hruns
  simp only [Bool.and_eq_true, decide_eq_true_eq, Option.any_eq_true] at hruns
  obtain ⟨hone, d, hd, o, ho, hexpired⟩ := hruns
  obtain ⟨w₁, hswept, hjournal⟩ := silence_journaled hrun hd ho hexpired
  exact ⟨w, d, o, w₁, hrun, hd, ho, hexpired, hone, hswept, hjournal⟩

/-- Both have the message; the watcher snoozes it, and both let it lapse. -/
def snoozedToDeath : List Operation := watcherSnoozes ++ [.sweep (6 * day)]

/-- The owner has the message and does nothing; its repeat is queued, and not sent. -/
def repeatedToDeath : List Operation :=
  [.create 0 0 { sampleDraft with repeatAfterMinutes := some 30 }, .materialize 0,
    .deliver (5 * day) (answering [] (5 * day)), .sweep (5 * day + hour), .sweep (6 * day)]

/-- The message reached its recipient, nobody resolves it any more, and the
journal has no outcome for it. -/
def EscapesSilence (ops : List Operation) (j : ℕ) : Prop :=
  ∃ w d o, run (perform sampleSettings) (.initial sampleUsers sampleCategories) ops = some w ∧
    w.db.deliveries j = some d ∧ w.db.occurrences d.occurrenceId = some o ∧
      d.sentAt.isSome = true ∧ o.status = .expired ∧ outcomesOf w.db j = 0

theorem escapesSilence_of_run {ops : List Operation} {j : ℕ}
    (h : (run (perform sampleSettings) (.initial sampleUsers sampleCategories) ops).any (fun w ↦
      decide (outcomesOf w.db j = 0) &&
        (w.db.deliveries j).any fun d ↦ d.sentAt.isSome &&
          (w.db.occurrences d.occurrenceId).any fun o ↦ decide (o.status = .expired)) = true) :
    EscapesSilence ops j := by
  obtain ⟨w, hrun, h⟩ := (Option.any_eq_true _ _).mp h
  simp only [Bool.and_eq_true, decide_eq_true_eq, Option.any_eq_true] at h
  obtain ⟨hnone, d, hd, hsent, o, ho, hexpired⟩ := h
  exact ⟨w, d, o, hrun, hd, ho, hsent, hexpired, hnone⟩

/-- What is snoozed, or queued for its repeat, when its occurrence is expired. -/
theorem unresolved_escapes_silence :
    EscapesSilence snoozedToDeath 1 ∧ EscapesSilence repeatedToDeath 0 :=
  ⟨escapesSilence_of_run (by decide +kernel), escapesSilence_of_run (by decide +kernel)⟩

end Sample

end Remindo.Serial
