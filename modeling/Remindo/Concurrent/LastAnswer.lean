import Remindo.Concurrent.System

namespace Remindo.Concurrent

open Remindo.Domain Remindo.Db Remindo.Services Remindo.Foundation Remindo.Foundation.ReadCommitted

def IsClosed (status : OccurrenceStatus) : Prop := status = .done ∨ status = .skipped

/-- An occurrence all of whose deliveries are answered is closed, unless it has
expired. -/
def ClosedByAnswers (db : Database) : Prop :=
  ∀ i o, db.occurrences i = some o → o.status ≠ .expired →
    (∃ k e, db.deliveries k = some e ∧ e.occurrenceId = i) →
    (∀ k e, db.deliveries k = some e → e.occurrenceId = i → e.status.isAnswer = true) →
      IsClosed o.status

namespace Reacting

namespace Stage

/-- An answer is written, and its siblings are still to be counted. -/
def answering : Stage → Bool
  | .written _ _ reaction _ | .journaled _ _ reaction => reaction.isTerminal
  | _ => false

/-- The delivery whose siblings the next statement counts. -/
def counts : Stage → Option Delivery
  | .journaled _ d reaction => if reaction.isTerminal then some d else none
  | _ => none

/-- The siblings have been counted. -/
def hasCounted : Stage → Bool
  | .counted .. | .closed .. => true
  | _ => false

/-- The count has found nobody left. -/
def closing : Stage → Bool
  | .counted _ _ (some _) | .closed .. => true
  | _ => false

theorem hasCounted_of_closing {r : Stage} (h : r.closing = true) : r.hasCounted = true := by
  cases r <;> first | rfl | cases h

end Stage

/-- A decided reaction either postpones, or answers with an outcome of its own. -/
def Decided (reaction : Reaction) : Prop :=
  reaction.status = .snoozed ∨ reaction.status.isAnswer = true ∧
    ∃ status, occurrenceRollup reaction.kind = some status ∧ IsClosed status

structure Base (view committed : Database) (holds : Lock → Prop) (tap : Tap) (d : Delivery) :
    Prop where
  row : committed.deliveries tap.deliveryId = some d
  lock : holds (.delivery tap.deliveryId)
  deliveries : ∀ k, k ≠ tap.deliveryId → view.deliveries k = committed.deliveries k
  present : ∀ i, (view.occurrences i).isSome = (committed.occurrences i).isSome

def SameOccurrences (view committed : Database) : Prop :=
  ∀ i, view.occurrences i = committed.occurrences i

/-- What the transaction has made of its delivery. -/
def Wrote (view : Database) (tap : Tap) (d : Delivery) (p : DeliveryStatus → Prop) : Prop :=
  ∃ e, view.deliveries tap.deliveryId = some e ∧ e.occurrenceId = d.occurrenceId ∧ p e.status

/-- What holds at each stage of what the transaction sees. -/
def Local (view committed : Database) (holds : Lock → Prop) : Stage → Prop
  | .locked tap d =>
    view.deliveries tap.deliveryId = some d ∧ SameOccurrences view committed
  | .opened tap d _ =>
    view.deliveries tap.deliveryId = some d ∧ SameOccurrences view committed ∧
      (view.occurrences d.occurrenceId).isSome = true
  | .timed tap d _ _ =>
    view.deliveries tap.deliveryId = some d ∧ SameOccurrences view committed ∧
      (view.occurrences d.occurrenceId).isSome = true ∧ d.status.isTerminal = false
  | .decided tap d reaction _ =>
    view.deliveries tap.deliveryId = some d ∧ SameOccurrences view committed ∧
      (view.occurrences d.occurrenceId).isSome = true ∧ d.status.isTerminal = false ∧
        Decided reaction
  | .written tap d reaction _ | .journaled tap d reaction =>
    Wrote view tap d (· = reaction.status) ∧ SameOccurrences view committed ∧
      (view.occurrences d.occurrenceId).isSome = true ∧ d.status.isTerminal = false ∧
        Decided reaction
  | .counted tap d status =>
    Wrote view tap d (·.isAnswer = true) ∧ SameOccurrences view committed ∧
      (view.occurrences d.occurrenceId).isSome = true ∧ d.status.isTerminal = false ∧
        ∀ s ∈ status, IsClosed s
  | .closed tap d =>
    Wrote view tap d (·.isAnswer = true) ∧ d.status.isTerminal = false ∧
      holds (.occurrence d.occurrenceId) ∧
      (∀ i, i ≠ d.occurrenceId → view.occurrences i = committed.occurrences i) ∧
        ∃ o, view.occurrences d.occurrenceId = some o ∧ IsClosed o.status

structure Facts (view committed : Database) (holds : Lock → Prop) (r : Stage) : Prop where
  base : Base view committed holds r.tap r.row
  local_ : Local view committed holds r

section Moves

variable {view committed : Database} {holds holds' : Lock → Prop} {r : Stage} {w : Writes}
  {held shared awaited : List Lock} {next : Option Stage}

theorem Facts.congr {view' committed' : Database} (h : Facts view committed holds r)
    (hdeliveries : ∀ k, view'.deliveries k = view.deliveries k)
    (hoccurrences : ∀ i, view'.occurrences i = view.occurrences i)
    (hdeliveries' : ∀ k, committed'.deliveries k = committed.deliveries k)
    (hoccurrences' : ∀ i, committed'.occurrences i = committed.occurrences i) :
    Facts view' committed' holds r := by
  obtain ⟨⟨hrow, hlock, hothers, hpresent⟩, hlocal⟩ := h
  refine ⟨⟨(hdeliveries' _).trans hrow, hlock, fun k hk ↦ ?_, fun i ↦ ?_⟩, ?_⟩
  · rw [hdeliveries, hdeliveries', hothers k hk]
  · rw [hoccurrences, hoccurrences', hpresent]
  · cases r <;>
      simpa only [Local, Wrote, SameOccurrences, hdeliveries, hoccurrences, hoccurrences'] using hlocal

theorem Facts.written {tap : Tap} {d : Delivery} {reaction : Reaction} {snoozeMinutes : ℕ}
    (h : Facts view committed holds (.decided tap d reaction snoozeMinutes))
    (hholds : ∀ l, holds l → holds' l) :
    Facts (view.run (Deliveries.updateFields tap.deliveryId (Reactions.values reaction))) committed
      holds' (.written tap d reaction snoozeMinutes) := by
  obtain ⟨hrow, hsame, hsome, hopen, hdecided⟩ := h.local_
  have hupdate := Deliveries.deliveries_updateFields view tap.deliveryId (Reactions.values reaction)
  refine ⟨⟨h.base.row, hholds _ h.base.lock, fun k hk ↦ ?_, h.base.present⟩,
    ⟨Reactions.values reaction d, ?_, rfl, rfl⟩, hsame, hsome, hopen, hdecided⟩
  · change k ≠ tap.deliveryId at hk
    rw [hupdate, if_neg hk]
    exact h.base.deliveries k hk
  · rw [hupdate, if_pos rfl, hrow]
    rfl

/-- An answer that is counted has an outcome to close its occurrence with. -/
theorem Facts.counted {tap : Tap} {d : Delivery} {reaction : Reaction} {everybody : Bool}
    (h : Facts view committed holds (.journaled tap d reaction))
    (hterminal : reaction.isTerminal = true) (hholds : ∀ l, holds l → holds' l) :
    Facts view committed holds' (.counted tap d (rollUpOccurrence reaction.kind everybody)) := by
  obtain ⟨⟨e, he, hparent, hstatus⟩, hsame, hsome, hopen, hdecided⟩ := h.local_
  rcases hdecided with hsnoozed | ⟨hanswer, status, hrollup, hclosed⟩
  · rw [Reaction.isTerminal, hsnoozed] at hterminal
    cases hterminal
  · refine ⟨⟨h.base.row, hholds _ h.base.lock, h.base.deliveries, h.base.present⟩,
      ⟨e, he, hparent, hstatus ▸ hanswer⟩, hsame, hsome, hopen, fun s hs ↦ ?_⟩
    rw [rollUpOccurrence, hrollup] at hs
    split at hs
    · cases hs
      exact hclosed
    · cases hs

theorem Facts.closed {tap : Tap} {d : Delivery} {status : OccurrenceStatus}
    (h : Facts view committed holds (.counted tap d (some status)))
    (hholds : ∀ l, holds l → holds' l) (hlock : holds' (.occurrence d.occurrenceId)) :
    Facts (view.run (Occurrences.setStatus d.occurrenceId status)) committed holds'
      (.closed tap d) := by
  obtain ⟨hwrote, hsame, hsome, hopen, hclosed⟩ := h.local_
  obtain ⟨o, ho⟩ := Option.isSome_iff_exists.mp hsome
  have hstatus := Occurrences.occurrences_setStatus view d.occurrenceId status
  refine ⟨⟨h.base.row, hholds _ h.base.lock, h.base.deliveries, fun i ↦ ?_⟩, hwrote, hopen, hlock,
    fun i hi ↦ ?_, { o with status := status }, ?_, hclosed status rfl⟩
  · rw [← h.base.present, hstatus]
    split
    · rename_i hi
      rw [hi, Option.isSome_map]
    · rfl
  · rw [hstatus, if_neg hi]
    exact hsame i
  · rw [hstatus, if_pos rfl, ho]
    rfl

theorem Facts.exec (h : Facts view committed holds r)
    (hmove : move r view = .exec w held shared awaited next)
    (hholds : ∀ l, holds l ∨ l ∈ locks w → holds' l) :
    ∃ r', next = some r' ∧ r'.tap = r.tap ∧ r'.row = r.row ∧
      Facts (apply view w) committed holds' r' := by
  have hread : apply view ({} : Writes) = view := rfl
  have hkeep : Base view committed holds' r.tap r.row :=
    ⟨h.base.row, hholds _ (.inl h.base.lock), h.base.deliveries, h.base.present⟩
  have hheld : ∀ l, holds l → holds' l := fun l hl ↦ hholds l (.inl hl)
  have hlocal := h.local_
  cases r with
  | locked tap d =>
    rw [move] at hmove
    split at hmove
    · cases hmove
    · split at hmove
      · cases hmove
      · rename_i o ho
        cases hmove
        exact ⟨_, rfl, rfl, rfl, hkeep, hlocal.1, hlocal.2, by rw [hread, ho]; rfl⟩
  | opened tap d o =>
    rw [move] at hmove
    split at hmove
    · cases hmove
    · rename_i hreactable
      split at hmove
      · cases hmove
      · cases hmove
        exact ⟨_, rfl, rfl, rfl, hkeep, hlocal.1, hlocal.2.1, hlocal.2.2,
          (checkReactable_eq_none hreactable).1⟩
  | timed tap d o snoozeMinutes =>
    rw [move] at hmove
    split at hmove
    · cases hmove
    · split at hmove
      · cases hmove
      · rename_i reaction hreaction
        cases hmove
        refine ⟨_, rfl, rfl, rfl, hkeep, hlocal.1, hlocal.2.1, hlocal.2.2.1, hlocal.2.2.2, ?_⟩
        obtain ⟨hkind, hdecided⟩ := decideReaction_eq_ok hreaction
        rw [← hkind] at hdecided
        exact hdecided.imp And.right And.right
  | decided tap d reaction snoozeMinutes =>
    cases hmove
    exact ⟨_, rfl, rfl, rfl, h.written hheld⟩
  | written tap d reaction snoozeMinutes =>
    cases hmove
    exact ⟨_, rfl, rfl, rfl,
      ⟨hkeep.row, hkeep.lock, hkeep.deliveries, hkeep.present⟩, hlocal⟩
  | journaled tap d reaction =>
    rw [move] at hmove
    split at hmove
    · rename_i hterminal
      cases hmove
      exact ⟨_, rfl, rfl, rfl, h.counted hterminal hheld⟩
    · cases hmove
  | counted tap d status =>
    cases status with
    | none => cases hmove
    | some status =>
      cases hmove
      obtain ⟨o, ho⟩ := Option.isSome_iff_exists.mp hlocal.2.2.1
      have hlock : Lock.occurrence d.occurrenceId ∈
          locks (Occurrences.setStatus d.occurrenceId status view) := by
        simp [locks, Writes.locks, mem_rowLocks, Occurrences.setStatus, Table.update, ho]
      exact ⟨_, rfl, rfl, rfl, h.closed hheld (hholds _ (.inr hlock))⟩
  | closed tap d => cases hmove

theorem Facts.exec_count {r' : Stage} (h : Facts view committed holds r)
    (hmove : move r view = .exec w held shared awaited (some r')) :
    r'.answering = true ∨ r'.closing = true ∨
      r'.answering = false ∧ r'.hasCounted = false ∧ r.answering = false ∧ r.closing = false ∨
        ∃ tap d reaction, r = .journaled tap d reaction ∧ reaction.isTerminal = true ∧
          r' = .counted tap d none ∧
            Occurrences.allDeliveriesTerminal view d.occurrenceId = false := by
  cases r with
  | locked tap d =>
    rw [move] at hmove
    split at hmove
    · cases hmove
    · split at hmove <;> cases hmove
      exact .inr (.inr (.inl ⟨rfl, rfl, rfl, rfl⟩))
  | opened tap d o =>
    rw [move] at hmove
    split at hmove
    · cases hmove
    · split at hmove <;> cases hmove
      exact .inr (.inr (.inl ⟨rfl, rfl, rfl, rfl⟩))
  | timed tap d o snoozeMinutes =>
    rw [move] at hmove
    split at hmove
    · cases hmove
    · split at hmove <;> cases hmove
      exact .inr (.inr (.inl ⟨rfl, rfl, rfl, rfl⟩))
  | decided tap d reaction snoozeMinutes =>
    cases hmove
    cases hterminal : reaction.isTerminal with
    | true => exact .inl hterminal
    | false => exact .inr (.inr (.inl ⟨hterminal, rfl, rfl, rfl⟩))
  | written tap d reaction snoozeMinutes =>
    cases hmove
    cases hterminal : reaction.isTerminal with
    | true => exact .inl hterminal
    | false => exact .inr (.inr (.inl ⟨hterminal, rfl, hterminal, rfl⟩))
  | journaled tap d reaction =>
    rw [move] at hmove
    split at hmove
    · rename_i hterminal
      cases hmove
      rcases h.local_.2.2.2.2 with hsnoozed | ⟨-, status, hrollup, -⟩
      · rw [Reaction.isTerminal, hsnoozed] at hterminal
        cases hterminal
      · rw [rollUpOccurrence, hrollup]
        cases hall : Occurrences.allDeliveriesTerminal view d.occurrenceId with
        | true => exact .inr (.inl rfl)
        | false => exact .inr (.inr (.inr ⟨tap, d, reaction, rfl, hterminal, rfl, hall⟩))
    · cases hmove
  | counted tap d status =>
    cases status with
    | none => cases hmove
    | some s =>
      cases hmove
      exact .inr (.inl rfl)
  | closed tap d => cases hmove

/-- What a reaction leaves behind when it commits. -/
structure Leaves (view committed : Database) (r : Stage) : Prop where
  row : Wrote view r.tap r.row fun status ↦
    status.isAnswer = true → r.row.status.isAnswer = true ∨ r.hasCounted = true
  others : ∀ i, i ≠ r.row.occurrenceId → view.occurrences i = committed.occurrences i
  occurrence : (∃ o, view.occurrences r.row.occurrenceId = some o ∧ IsClosed o.status) ∨
    view.occurrences r.row.occurrenceId = committed.occurrences r.row.occurrenceId ∧
      r.answering = false ∧ r.closing = false

theorem Facts.commit (h : Facts view committed holds r) (hmove : move r view = .commit next) :
    next = none ∧ Leaves view committed r := by
  have hlocal := h.local_
  cases r with
  | locked tap d =>
    rw [move] at hmove
    split at hmove
    · cases hmove
    · split at hmove <;> cases hmove
  | opened tap d o =>
    rw [move] at hmove
    split at hmove
    · cases hmove
      exact ⟨rfl, ⟨d, hlocal.1, rfl, .inl⟩, fun i _ ↦ hlocal.2.1 i, .inr ⟨hlocal.2.1 _, rfl, rfl⟩⟩
    · split at hmove <;> cases hmove
  | timed tap d o snoozeMinutes =>
    rw [move] at hmove
    split at hmove
    · cases hmove
    · split at hmove <;> cases hmove
  | decided tap d reaction snoozeMinutes => cases hmove
  | written tap d reaction snoozeMinutes => cases hmove
  | journaled tap d reaction =>
    rw [move] at hmove
    split at hmove
    · cases hmove
    · rename_i hterminal
      cases hmove
      have hopen := eq_false_of_ne_true hterminal
      obtain ⟨⟨e, he, hparent, hstatus⟩, hsame, -⟩ := hlocal
      refine ⟨rfl, ⟨e, he, hparent, fun hanswer ↦ ?_⟩, fun i _ ↦ hsame i,
        .inr ⟨hsame _, hopen, rfl⟩⟩
      rw [hstatus] at hanswer
      exact absurd (DeliveryStatus.isTerminal_of_isAnswer hanswer) hterminal
  | counted tap d status =>
    cases status with
    | some s => cases hmove
    | none =>
      cases hmove
      obtain ⟨⟨e, he, hparent, -⟩, hsame, -⟩ := hlocal
      exact ⟨rfl, ⟨e, he, hparent, fun _ ↦ .inr rfl⟩, fun i _ ↦ hsame i, .inr ⟨hsame _, rfl, rfl⟩⟩
  | closed tap d =>
    cases hmove
    obtain ⟨⟨e, he, hparent, -⟩, -, -, hothers, hclosed⟩ := hlocal
    exact ⟨rfl, ⟨e, he, hparent, fun _ ↦ .inr rfl⟩, hothers, .inl hclosed⟩

/-- An answer that has been taken was open before. -/
theorem Facts.wasOpen (h : Facts view committed holds r)
    (hr : r.answering = true ∨ r.hasCounted = true) : r.row.status.isTerminal = false := by
  have hlocal := h.local_
  cases r with
  | locked tap d => simp [Stage.answering, Stage.hasCounted] at hr
  | opened tap d o => simp [Stage.answering, Stage.hasCounted] at hr
  | timed tap d o snoozeMinutes => exact hlocal.2.2.2
  | decided tap d reaction snoozeMinutes => exact hlocal.2.2.2.1
  | written tap d reaction snoozeMinutes => exact hlocal.2.2.2.1
  | journaled tap d reaction => exact hlocal.2.2.2.1
  | counted tap d status => exact hlocal.2.2.2.1
  | closed tap d => exact hlocal.2.1

end Moves

end Reacting

def Stage.reaction : Stage → Option Reacting.Stage
  | .reacting r => some r
  | _ => none

/-- Only reactions are started. -/
def OnlyReactions : Event Input → Prop
  | .move _ (.react _) | .move _ .go | .crash _ => True
  | _ => False

/-- The delivery is not in the hands of a reaction that has counted already. -/
def LeftToCount (s : Sessions) (k j : ℕ) : Prop :=
  ∀ r ∈ (s.stage j).reaction, r.hasCounted = true → r.tap.deliveryId ≠ k

/-- A reaction that counts open siblings finds one that none of these sessions
has answered and counted without being committed. -/
def CountsFairly (sessions : Set ℕ) (s : Sessions) : Event Input → Prop
  | .move i _ => ∀ r ∈ (s.stage i).reaction, ∀ d ∈ r.counts,
      Occurrences.allDeliveriesTerminal (s.view i) d.occurrenceId = true ∨
        ∃ x ∈ (s.view i).deliveries.select (fun _ e ↦
          decide (e.occurrenceId = d.occurrenceId) && !e.status.isTerminal),
            ∀ j ∈ sessions, LeftToCount s x.1 j
  | .crash _ => True

section Invariant

/-- Some open transaction has answered the delivery. -/
def Pending (s : Sessions) (k : ℕ) : Prop :=
  ∃ j r, s.stage j = .reacting r ∧ r.tap.deliveryId = k ∧
    (r.answering = true ∨ r.hasCounted = true)

/-- Some open transaction is going to look at the occurrence, or to close it. -/
def Closing (s : Sessions) (i : ℕ) : Prop :=
  ∃ j r, s.stage j = .reacting r ∧ r.row.occurrenceId = i ∧
    (r.answering = true ∨ r.closing = true)

/-- An open occurrence whose deliveries are all answered, if only by open
transactions, is about to be closed. -/
def SomebodyCloses (s : Sessions) (i : ℕ) : Prop :=
  ∀ o, s.committed.occurrences i = some o → o.status ≠ .expired → ¬IsClosed o.status →
    (∃ k e, s.committed.deliveries k = some e ∧ e.occurrenceId = i) →
    (∀ k e, s.committed.deliveries k = some e → e.occurrenceId = i →
      e.status.isAnswer = true ∨ Pending s k) → Closing s i

structure Reactive (s : Sessions) : Prop where
  owned : s.Owned
  stages : ∀ i, s.stage i = .idle ∧ (s.session i).log = [] ∨ ∃ r, s.stage i = .reacting r
  facts : ∀ i r, s.stage i = .reacting r →
    Reacting.Facts (s.view i) s.committed (fun l ↦ s.owner l = some i) r
  closes : ∀ i, SomebodyCloses s i

variable {settings : Settings} {s s' : Sessions} {e : Event Input} {i j : ℕ} {input : Input}
  {locked : Lock → Bool} {db : Database} {m : Move Writes Lock Stage}

theorem Reactive.distinct (h : Reactive s) {r r' : Reacting.Stage} (hi : s.stage i = .reacting r)
    (hj : s.stage j = .reacting r') (htap : r.tap.deliveryId = r'.tap.deliveryId) : i = j := by
  have hown := (h.facts i r hi).base.lock
  rw [htap, (h.facts j r' hj).base.lock] at hown
  exact (Option.some_inj.mp hown).symm

theorem Reactive.present (h : Reactive s) (i x : ℕ) :
    ((s.view i).occurrences x).isSome = (s.committed.occurrences x).isSome := by
  rcases h.stages i with ⟨-, hlog⟩ | ⟨r, hr⟩
  · rw [System.view, hlog]
    rfl
  · exact (h.facts i r hr).base.present x

theorem Reactive.committed_present (h : Reactive s) (hstep : Step (program settings) .idle s e s')
    (x : ℕ) : (s'.committed.occurrences x).isSome = (s.committed.occurrences x).isSome := by
  cases hstep with
  | exec hmove hfree => exact ((guards_occurrences x).comp Option.isSome).committed_exec _ _ _ _
  | @commit i input next hmove => exact h.present i x
  | rollback hmove => rfl
  | crash i => rfl

/-- A reaction is not disturbed by what the other sessions do. -/
theorem Reactive.facts_other (h : Reactive s) (hstep : Step (program settings) .idle s e s')
    (hj : j ≠ e.by) {r : Reacting.Stage} (hr : s.stage j = .reacting r) :
    Reacting.Facts (s'.view j) s'.committed (fun l ↦ s'.owner l = some j) r := by
  obtain ⟨⟨hrow, hlock, hdeliveries, hpresent⟩, hlocal⟩ := h.facts j r hr
  have hown := (guards_deliveries r.tap.deliveryId).kept_other hstep h.owned hj hlock
  have hsame : ∀ x, (s.view j).occurrences x = s.committed.occurrences x →
      (s'.view j).occurrences x = s'.committed.occurrences x :=
    fun x hx ↦ (guards_occurrences x).same_other hstep h.owned hj hx
  have hthere : ∀ x, (s'.view j).occurrences x = s'.committed.occurrences x →
      ((s.view j).occurrences x).isSome = true → ((s'.view j).occurrences x).isSome = true := by
    intro x hx hsome
    rw [hx, h.committed_present hstep, ← hpresent, hsome]
  have hwrote : ∀ p, Reacting.Wrote (s.view j) r.tap r.row p →
      Reacting.Wrote (s'.view j) r.tap r.row p := by
    intro p ⟨e, he, hrest⟩
    exact ⟨e, by rw [hown.1, he], hrest⟩
  refine ⟨⟨hown.2.trans hrow, hstep.owner_other hj hlock, fun k hk ↦ ?_, fun x ↦ ?_⟩, ?_⟩
  · exact (guards_deliveries k).same_other hstep h.owned hj (hdeliveries k hk)
  · exact ((guards_occurrences x).comp Option.isSome).same_other hstep h.owned hj (hpresent x)
  cases r with
  | locked tap d => exact ⟨hown.1.trans hlocal.1, fun x ↦ hsame x (hlocal.2 x)⟩
  | opened tap d o =>
    obtain ⟨hview, hall, hsome⟩ := hlocal
    exact ⟨hown.1.trans hview, fun x ↦ hsame x (hall x), hthere _ (hsame _ (hall _)) hsome⟩
  | timed tap d o snoozeMinutes =>
    obtain ⟨hview, hall, hsome, hopen⟩ := hlocal
    exact ⟨hown.1.trans hview, fun x ↦ hsame x (hall x), hthere _ (hsame _ (hall _)) hsome, hopen⟩
  | decided tap d reaction snoozeMinutes =>
    obtain ⟨hview, hall, hsome, hrest⟩ := hlocal
    exact ⟨hown.1.trans hview, fun x ↦ hsame x (hall x), hthere _ (hsame _ (hall _)) hsome, hrest⟩
  | written tap d reaction snoozeMinutes =>
    obtain ⟨hview, hall, hsome, hrest⟩ := hlocal
    exact ⟨hwrote _ hview, fun x ↦ hsame x (hall x), hthere _ (hsame _ (hall _)) hsome, hrest⟩
  | journaled tap d reaction =>
    obtain ⟨hview, hall, hsome, hrest⟩ := hlocal
    exact ⟨hwrote _ hview, fun x ↦ hsame x (hall x), hthere _ (hsame _ (hall _)) hsome, hrest⟩
  | counted tap d status =>
    obtain ⟨hview, hall, hsome, hrest⟩ := hlocal
    exact ⟨hwrote _ hview, fun x ↦ hsame x (hall x), hthere _ (hsame _ (hall _)) hsome, hrest⟩
  | closed tap d =>
    obtain ⟨hview, hopen, hholds, hothers, o, ho, hclosed⟩ := hlocal
    have hkept := (guards_occurrences d.occurrenceId).kept_other hstep h.owned hj hholds
    exact ⟨hwrote _ hview, hopen, hstep.owner_other hj hholds, fun x hx ↦ hsame x (hothers x hx),
      o, hkept.1.trans ho, hclosed⟩

theorem Pending.other {k : ℕ} (hstage : ∀ j, j ≠ i → s'.stage j = s.stage j) (h : Pending s' k) :
    Pending s k ∨ ∃ r, s'.stage i = .reacting r ∧ r.tap.deliveryId = k ∧
      (r.answering = true ∨ r.hasCounted = true) := by
  obtain ⟨j, r, hr, hrest⟩ := h
  by_cases hj : j = i
  · exact .inr ⟨r, hj ▸ hr, hrest⟩
  · exact .inl ⟨j, r, hstage j hj ▸ hr, hrest⟩

theorem Closing.other {x : ℕ} (hstage : ∀ j, j ≠ i → s'.stage j = s.stage j) (h : Closing s x) :
    Closing s' x ∨ ∃ r, s.stage i = .reacting r ∧ r.row.occurrenceId = x ∧
      (r.answering = true ∨ r.closing = true) := by
  obtain ⟨j, r, hr, hrest⟩ := h
  by_cases hj : j = i
  · exact .inr ⟨r, hj ▸ hr, hrest⟩
  · exact .inl ⟨j, r, (hstage j hj).trans hr, hrest⟩

theorem SomebodyCloses.transfer {x : ℕ} (h : SomebodyCloses s x)
    (hoccurrence : s'.committed.occurrences x = s.committed.occurrences x)
    (hsame : ∀ k, (∃ e, s'.committed.deliveries k = some e ∧ e.occurrenceId = x) ↔
      ∃ e, s.committed.deliveries k = some e ∧ e.occurrenceId = x)
    (hanswer : ∀ k e e', s.committed.deliveries k = some e → e.occurrenceId = x →
      s'.committed.deliveries k = some e' → e'.status.isAnswer = true ∨ Pending s' k →
        e.status.isAnswer = true ∨ Pending s k)
    (hclosing : Closing s x → Closing s' x) : SomebodyCloses s' x := by
  intro o ho hexpired hopen ⟨k, hk⟩ hall
  refine hclosing (h o (hoccurrence ▸ ho) hexpired hopen ⟨k, (hsame k).mp hk⟩ ?_)
  intro k e hk hparent
  obtain ⟨e', hk', hparent'⟩ := (hsame k).mpr ⟨e, hk, hparent⟩
  exact hanswer k e e' hk hparent hk' (hall k e' hk' hparent')

theorem SomebodyCloses.exec {x : ℕ} {w : Writes} {held shared : List Lock} {next : Stage}
    (h : SomebodyCloses s x)
    (hpending : ∀ k e, s.committed.deliveries k = some e → e.occurrenceId = x →
      Pending (s.exec i w held shared next) k → Pending s k)
    (hclosing : Closing s x → Closing (s.exec i w held shared next) x) :
    SomebodyCloses (s.exec i w held shared next) x := by
  have hdeliveries := fun k ↦ (guards_deliveries k).committed_exec (s := s) (i := i) w held shared next
  refine h.transfer ((guards_occurrences x).committed_exec _ _ _ _) (fun k ↦ by rw [hdeliveries k])
    (fun k e e' hk hparent hk' hor ↦ ?_) hclosing
  rw [hdeliveries k, hk, Option.some_inj] at hk'
  exact hk' ▸ hor.imp_right (hpending k e hk hparent)

/-- A reaction that moves on between its statements leaves the count alone, or
it counts. -/
theorem Reactive.closes_exec (h : Reactive s) {r r' : Reacting.Stage} {w : Writes}
    {held shared awaited : List Lock} (hr : s.stage i = .reacting r)
    (hmove : Reacting.move r (s.view i) = .exec w held shared awaited (some r'))
    (hrow : r'.row = r.row) (htap : r'.tap = r.tap)
    (hguard : CountsFairly .univ s (.move i .go)) (x : ℕ) :
    SomebodyCloses (s.exec i w held shared (.reacting r')) x := by
  have hfacts := h.facts i r hr
  have hstage : ∀ j, j ≠ i → (s.exec i w held shared (.reacting r')).stage j = s.stage j :=
    fun j hj ↦ stage_exec_of_ne hj w held shared _
  have hself : (s.exec i w held shared (.reacting r')).stage i = .reacting r' :=
    stage_exec_self w held shared _
  have helsewhere : r.row.occurrenceId ≠ x →
      SomebodyCloses (s.exec i w held shared (.reacting r')) x := by
    intro hx
    refine (h.closes x).exec (fun k e hk hparent hpending ↦ ?_) fun hclosing ↦ ?_
    · rcases hpending.other hstage with hpending | ⟨r'', hr'', rfl, -⟩
      · exact hpending
      · cases hself.symm.trans hr''
        rw [htap, hfacts.base.row] at hk
        cases hk
        exact absurd hparent hx
    · rcases hclosing.other hstage with hclosing | ⟨r'', hr'', hparent, -⟩
      · exact hclosing
      · cases hr.symm.trans hr''
        exact absurd hparent hx
  by_cases hx : r.row.occurrenceId = x
  swap
  · exact helsewhere hx
  rcases hfacts.exec_count hmove with hanswering | hclosing | ⟨hanswering, hcounted, hold⟩ | hcount
  · exact fun _ _ _ _ _ _ ↦ ⟨i, r', hself, by rw [hrow, hx], .inl hanswering⟩
  · exact fun _ _ _ _ _ _ ↦ ⟨i, r', hself, by rw [hrow, hx], .inr hclosing⟩
  · refine (h.closes x).exec (fun k e hk hparent hpending ↦ ?_) fun hclosing ↦ ?_
    · rcases hpending.other hstage with hpending | ⟨r'', hr'', -, hno⟩
      · exact hpending
      · cases hself.symm.trans hr''
        simp [hanswering, hcounted] at hno
    · rcases hclosing.other hstage with hclosing | ⟨r'', hr'', -, hno⟩
      · exact hclosing
      · cases hr.symm.trans hr''
        simp [hold.1, hold.2] at hno
  · obtain ⟨tap, d, reaction, rfl, hterminal, rfl, hopen⟩ := hcount
    change d.occurrenceId = x at hx
    rw [CountsFairly, hr] at hguard
    obtain hall | ⟨⟨k, e⟩, hk, hleft⟩ := hguard _ rfl d (if_pos hterminal)
    · rw [hopen] at hall
      cases hall
    obtain ⟨hk, he⟩ := Table.mem_select.mp hk
    rw [Bool.and_eq_true, decide_eq_true_eq, Bool.not_eq_true'] at he
    obtain ⟨hparent, hlive⟩ := he
    have hother : k ≠ tap.deliveryId := by
      intro hself
      obtain ⟨e', he', -, hstatus⟩ := hfacts.local_.1
      rw [hself] at hk
      cases he'.symm.trans hk
      rw [hstatus, ← Reaction.isTerminal, hterminal] at hlive
      cases hlive
    have hcommitted : s.committed.deliveries k = some e :=
      (hfacts.base.deliveries k hother).symm.trans hk
    intro o ho hexpired hnot hsome hall
    rcases hall k e (((guards_deliveries k).committed_exec _ _ _ _).trans hcommitted)
      (hparent.trans hx) with hanswer | hpending
    · rw [DeliveryStatus.isTerminal_of_isAnswer hanswer] at hlive
      cases hlive
    rcases hpending.other hstage with ⟨j, r'', hj, hkept, hor⟩ | ⟨r'', hr'', hkept, -⟩
    · have hrow'' := (h.facts j r'' hj).base.row
      rw [hkept, hcommitted, Option.some_inj] at hrow''
      have hji : j ≠ i := by
        intro hji
        rw [hji, hr] at hj
        cases hj
        exact hother hkept.symm
      refine ⟨j, r'', (hstage j hji).trans hj, hrow'' ▸ hparent.trans hx, .inl ?_⟩
      refine hor.resolve_right fun hcounted ↦ ?_
      have hno := hleft j trivial
      rw [LeftToCount, hj] at hno
      exact hno r'' rfl hcounted hkept
    · cases hself.symm.trans hr''
      exact absurd hkept.symm hother

/-- A reaction that commits has closed the occurrence, or has counted before
somebody else who will. -/
theorem Reactive.closes_commit (h : Reactive s) {r : Reacting.Stage} (hr : s.stage i = .reacting r)
    (hleaves : Reacting.Leaves (s.view i) s.committed r) (x : ℕ) :
    SomebodyCloses (s.close i (s.view i) .idle) x := by
  have hfacts := h.facts i r hr
  have hstage : ∀ j, j ≠ i → (s.close i (s.view i) .idle).stage j = s.stage j :=
    fun j hj ↦ stage_close_of_ne hj _ _
  have hself : (s.close i (s.view i) .idle).stage i = .idle := stage_close_self _ _
  obtain ⟨e₀, he₀, hparent₀, hanswer₀⟩ := hleaves.row
  have hrest : (s.view i).occurrences x = s.committed.occurrences x →
      (r.row.occurrenceId = x → r.answering = false ∧ r.closing = false) →
      SomebodyCloses (s.close i (s.view i) .idle) x := by
    intro hoccurrence hquiet
    refine (h.closes x).transfer hoccurrence (fun k ↦ ?_) (fun k e e' hk hparent hk' hor ↦ ?_)
      fun hclosing ↦ ?_
    · by_cases hk : k = r.tap.deliveryId
      · change (∃ e, (s.view i).deliveries k = some e ∧ _) ↔ _
        rw [hk, he₀, hfacts.base.row]
        simp [hparent₀]
      · change (∃ e, (s.view i).deliveries k = some e ∧ _) ↔ _
        rw [hfacts.base.deliveries k hk]
    · have hpending : Pending (s.close i (s.view i) .idle) k → Pending s k := by
        intro hpending
        rcases hpending.other hstage with hpending | ⟨r'', hr'', -⟩
        · exact hpending
        · cases hself.symm.trans hr''
      change (s.view i).deliveries k = some e' at hk'
      by_cases hkeq : k = r.tap.deliveryId
      · rw [hkeq, he₀, Option.some_inj] at hk'
        rw [hkeq, hfacts.base.row, Option.some_inj] at hk
        rcases hor with hanswer | hp
        · rw [← hk'] at hanswer
          rcases hanswer₀ hanswer with hanswer | hcounted
          · exact .inl (hk ▸ hanswer)
          · exact .inr ⟨i, r, hr, hkeq.symm, .inr hcounted⟩
        · exact .inr (hpending hp)
      · rw [hfacts.base.deliveries k hkeq, hk, Option.some_inj] at hk'
        exact hk' ▸ hor.imp_right hpending
    · rcases hclosing.other hstage with hclosing | ⟨r'', hr'', hparent, hno⟩
      · exact hclosing
      · cases hr.symm.trans hr''
        simp [hquiet hparent] at hno
  by_cases hx : r.row.occurrenceId = x
  · rcases hleaves.occurrence with ⟨o, ho, hclosed⟩ | ⟨hsame, hquiet⟩
    · intro o' ho' _ hopen
      rw [hx] at ho
      cases ho.symm.trans ho'
      exact absurd hclosed hopen
    · exact hrest (hx ▸ hsame) fun _ ↦ hquiet
  · exact hrest (hleaves.others x (Ne.symm hx)) fun h ↦ absurd h hx

/-- A reaction that gives up leaves its delivery open, and nobody else has it. -/
theorem Reactive.closes_abort (h : Reactive s) (i x : ℕ) :
    SomebodyCloses (s.close i s.committed .idle) x := by
  have hstage : ∀ j, j ≠ i → (s.close i s.committed .idle).stage j = s.stage j :=
    fun j hj ↦ stage_close_of_ne hj _ _
  have hself : (s.close i s.committed .idle).stage i = .idle := stage_close_self _ _
  have hpending : ∀ k, Pending (s.close i s.committed .idle) k → Pending s k := by
    intro k hpending
    rcases hpending.other hstage with hpending | ⟨r'', hr'', -⟩
    · exact hpending
    · cases hself.symm.trans hr''
  intro o ho hexpired hopen hsome hall
  rcases (h.closes x o ho hexpired hopen hsome fun k e hk hparent ↦
    (hall k e hk hparent).imp_right (hpending k)).other hstage with hclosing | ⟨r, hr, hparent, hor⟩
  · exact hclosing
  · have hfacts := h.facts i r hr
    have hlive := hfacts.wasOpen (hor.imp_right Reacting.Stage.hasCounted_of_closing)
    rcases hall _ _ hfacts.base.row hparent with hanswer | ⟨j, r', hj, htap, -⟩
    · rw [DeliveryStatus.isTerminal_of_isAnswer hanswer] at hlive
      cases hlive
    · by_cases hji : j = i
      · rw [hji, hself] at hj
        cases hj
      · rw [hstage j hji] at hj
        exact absurd (h.distinct hj hr htap) hji

/-- A tap on a delivery that is there locks it, and reads the row it locks. -/
theorem facts_start {tap : Reacting.Tap} {w : Writes} {held shared awaited : List Lock}
    {next : Option Reacting.Stage} (hlog : (s.session i).log = [])
    (hmove : Reacting.start tap (s.view i) = .exec w held shared awaited next) :
    ∃ d, next = some (.locked tap d) ∧
      Reacting.Facts ((s.exec i w held shared (.reacting (.locked tap d))).view i)
        (s.exec i w held shared (.reacting (.locked tap d))).committed
        (fun l ↦ (s.exec i w held shared (.reacting (.locked tap d))).owner l = some i)
        (.locked tap d) := by
  rw [Reacting.start] at hmove
  split at hmove
  · cases hmove
  · rename_i d hd
    cases hmove
    have hview : s.view i = s.committed := by
      rw [System.view, hlog]
      rfl
    have hsees : ∀ next : Stage,
        (s.exec i ({} : Writes) (forUpdate tap.deliveryId) [] next).view i = s.committed := by
      intro next
      rw [System.view, session_exec_self, hlog]
      rfl
    rw [hview] at hd
    refine ⟨d, rfl, ⟨hd, if_pos (List.mem_cons_self ..), fun k _ ↦ ?_, fun x ↦ ?_⟩, ?_, fun x ↦ ?_⟩
    · exact congrArg (fun db : Database ↦ db.deliveries k) (hsees _)
    · exact congrArg (fun db : Database ↦ (db.occurrences x).isSome) (hsees _)
    · exact (congrArg (fun db : Database ↦ db.deliveries tap.deliveryId) (hsees _)).trans hd
    · exact congrArg (fun db : Database ↦ db.occurrences x) (hsees _)

theorem Reactive.closes_start (h : Reactive s) (hidle : s.stage i = .idle) {w : Writes}
    {held shared : List Lock} {tap : Reacting.Tap} {d : Delivery} (x : ℕ) :
    SomebodyCloses (s.exec i w held shared (.reacting (.locked tap d))) x := by
  have hstage : ∀ j, j ≠ i →
      (s.exec i w held shared (.reacting (.locked tap d))).stage j = s.stage j :=
    fun j hj ↦ stage_exec_of_ne hj w held shared _
  refine (h.closes x).exec (fun k e hk hparent hpending ↦ ?_) fun hclosing ↦ ?_
  · rcases hpending.other hstage with hpending | ⟨r, hr, -, hor⟩
    · exact hpending
    · cases (stage_exec_self w held shared _).symm.trans hr
      simp [Reacting.Stage.answering, Reacting.Stage.hasCounted] at hor
  · rcases hclosing.other hstage with hclosing | ⟨r, hr, -⟩
    · exact hclosing
    · cases hidle.symm.trans hr

theorem program_start (honly : OnlyReactions (.move i input))
    (hmove : program settings .idle input locked db = some m) :
    ∃ tap, m = (Reacting.start tap db).map (.of .reacting) := by
  cases input with
  | react tap => exact ⟨tap, (Option.some_inj.mp hmove).symm⟩
  | go => cases hmove
  | deliver now => cases honly
  | answer result now => cases honly
  | sweep now => cases honly
  | materialize now => cases honly
  | accept request => cases honly
  | edit request => cases honly

theorem Reactive.step (h : Reactive s) (honly : OnlyReactions e) (hguard : CountsFairly .univ s e)
    (hstep : Step (program settings) .idle s e s') : Reactive s' := by
  -- Everybody else goes on as before.
  have hothers : ∀ j, j ≠ e.by →
      (s'.stage j = .idle ∧ (s'.session j).log = [] ∨ ∃ r, s'.stage j = .reacting r) ∧
        ∀ r, s'.stage j = .reacting r →
          Reacting.Facts (s'.view j) s'.committed (fun l ↦ s'.owner l = some j) r := by
    intro j hj
    rw [hstep.stage_other hj, hstep.session_other hj]
    exact ⟨h.stages j, fun r hr ↦ h.facts_other hstep hj hr⟩
  have hmake : (s'.stage e.by = .idle ∧ (s'.session e.by).log = [] ∨
        ∃ r, s'.stage e.by = .reacting r ∧
          Reacting.Facts (s'.view e.by) s'.committed (fun l ↦ s'.owner l = some e.by) r) →
      (∀ x, SomebodyCloses s' x) → Reactive s' := by
    intro hself hcloses
    refine ⟨hstep.owned h.owned, fun j ↦ ?_, fun j r hr ↦ ?_, hcloses⟩
    · by_cases hj : j = e.by
      · rw [hj]
        exact hself.imp_right fun ⟨r, hr, _⟩ ↦ ⟨r, hr⟩
      · exact (hothers j hj).1
    · by_cases hj : j = e.by
      · rw [hj] at hr ⊢
        rcases hself with ⟨hidle, -⟩ | ⟨r', hr', hfacts⟩
        · cases hidle.symm.trans hr
        · cases hr'.symm.trans hr
          exact hfacts
      · exact (hothers j hj).2 r hr
  cases hstep with
  | crash i =>
    exact hmake (.inl ⟨stage_close_self _ _, by rw [Event.by, session_close_self]⟩)
      (h.closes_abort i)
  | @exec i input w held shared awaited next hmove hfree =>
    rcases h.stages i with ⟨hidle, hlog⟩ | ⟨r, hr⟩
    · rw [hidle] at hmove
      obtain ⟨tap, hmove⟩ := program_start honly hmove
      obtain ⟨next, hstart, rfl⟩ := Move.map_eq_exec hmove.symm
      obtain ⟨d, rfl, hfacts⟩ := facts_start hlog hstart
      exact hmake (.inr ⟨_, stage_exec_self _ _ _ _, hfacts⟩) (h.closes_start hidle)
    · rw [hr] at hmove
      obtain ⟨next, hreact, rfl⟩ := Move.map_eq_exec (Option.some_inj.mp hmove)
      have hholds : ∀ l, s.owner l = some i ∨ l ∈ locks w →
          (s.exec i w held shared .idle).owner l = some i := by
        intro l hl
        change (if l ∈ locks w ++ held then some i else s.owner l) = some i
        split
        · rfl
        · rename_i hno
          exact hl.resolve_right fun hw ↦ hno (List.mem_append_left _ hw)
      obtain ⟨r', rfl, htap, hrow, hfacts⟩ := (h.facts i r hr).exec hreact hholds
      refine hmake (.inr ⟨r', stage_exec_self _ _ _ _, hfacts.congr (fun k ↦ ?_) (fun x ↦ ?_)
        (fun k ↦ ?_) fun x ↦ ?_⟩) (h.closes_exec hr hreact hrow htap hguard)
      · exact (guards_deliveries k).view_exec_self _ _ _ _
      · exact (guards_occurrences x).view_exec_self _ _ _ _
      · exact (guards_deliveries k).committed_exec _ _ _ _
      · exact (guards_occurrences x).committed_exec _ _ _ _
  | @commit i input next hmove =>
    rcases h.stages i with ⟨hidle, hlog⟩ | ⟨r, hr⟩
    · rw [hidle] at hmove
      obtain ⟨tap, hmove⟩ := program_start honly hmove
      obtain ⟨next, hstart, rfl⟩ := Move.map_eq_commit hmove.symm
      rw [Reacting.start] at hstart
      split at hstart <;> cases hstart
    · rw [hr] at hmove
      obtain ⟨next, hreact, rfl⟩ := Move.map_eq_commit (Option.some_inj.mp hmove)
      obtain ⟨rfl, hleaves⟩ := (h.facts i r hr).commit hreact
      exact hmake (.inl ⟨stage_close_self _ _, by rw [Event.by, session_close_self]⟩)
        (h.closes_commit hr hleaves)
  | @rollback i input next hmove =>
    have hidle : next = .idle := program_rollback hmove
    rw [hidle] at hmake ⊢
    exact hmake (.inl ⟨stage_close_self _ _, by rw [Event.by, session_close_self]⟩)
      (h.closes_abort i)

theorem reactive_start {db : Database} (h : ClosedByAnswers db) :
    Reactive (System.start db .idle : Sessions) where
  owned _ _ hw := by cases hw
  stages _ := .inl ⟨rfl, rfl⟩
  facts _ _ hr := by cases hr
  closes i o ho hexpired hopen hsome hall := by
    refine absurd (h i o ho hexpired hsome fun k e hk hparent ↦ ?_) hopen
    refine (hall k e hk hparent).resolve_right fun ⟨j, r, hr, _⟩ ↦ ?_
    cases hr

/-- Once every delivery is answered, nobody is left who answers. -/
theorem Reactive.closedByAnswers (h : Reactive s) : ClosedByAnswers s.committed := by
  intro i o ho hexpired hsome hall
  by_contra hopen
  obtain ⟨j, r, hr, hparent, hor⟩ :=
    h.closes i o ho hexpired hopen hsome fun k e hk he ↦ .inl (hall k e hk he)
  have hfacts := h.facts j r hr
  have hlive := hfacts.wasOpen (hor.imp_right Reacting.Stage.hasCounted_of_closing)
  rw [DeliveryStatus.isTerminal_of_isAnswer (hall _ _ hfacts.base.row hparent)] at hlive
  cases hlive

end Invariant

/-- As long as nobody counts on a reaction that has counted before, the last
answer to an occurrence closes it. -/
theorem last_answer_closes {settings : Settings} {db : Database} {es : List (Event Input)}
    {s : Sessions} (hdb : ClosedByAnswers db) (honly : ∀ e ∈ es, OnlyReactions e)
    (hfair : Guarded (step (program settings) .idle) (CountsFairly .univ) (.start db .idle) es)
    (hrun : run (step (program settings) .idle) (.start db .idle) es = some s) :
    ClosedByAnswers s.committed := by
  have hboth : Guarded (step (program settings) .idle)
      (fun s e ↦ CountsFairly .univ s e ∧ OnlyReactions e) (.start db .idle) es :=
    hfair.and_forall honly
  exact (run_invariant (fun _ _ _ h hguard hstep ↦ h.step hguard.2 hguard.1 (step_cases hstep))
    hboth hrun (reactive_start hdb)).closedByAnswers

section Sample

instance (status : OccurrenceStatus) : Decidable (IsClosed status) :=
  inferInstanceAs (Decidable (_ ∨ _))

instance (db : Database) : Decidable (ClosedByAnswers db) :=
  decidable_of_iff (∀ x ∈ db.occurrences.select (fun _ o ↦ decide (o.status ≠ .expired)),
    db.deliveries.find (fun e ↦ decide (e.occurrenceId = x.1)) ≠ none →
      db.deliveries.find (fun e ↦ decide (e.occurrenceId = x.1) && !e.status.isAnswer) = none →
        IsClosed x.2.status) <| by
    have hsome : ∀ i, db.deliveries.find (fun e ↦ decide (e.occurrenceId = i)) ≠ none ↔
        ∃ k e, db.deliveries k = some e ∧ e.occurrenceId = i := by
      intro i
      simp [Table.find_none]
    have hall : ∀ i, db.deliveries.find
        (fun e ↦ decide (e.occurrenceId = i) && !e.status.isAnswer) = none ↔
        ∀ k e, db.deliveries k = some e → e.occurrenceId = i → e.status.isAnswer = true := by
      intro i
      simp [Table.find_none]
    constructor
    · intro h i o ho hexpired hk hanswer
      exact h (i, o) (Table.mem_select.mpr ⟨ho, by simp [hexpired]⟩) ((hsome i).mpr hk)
        ((hall i).mpr hanswer)
    · intro h x hx hk hanswer
      obtain ⟨ho, hexpired⟩ := Table.mem_select.mp hx
      exact h x.1 x.2 ho (of_decide_eq_true hexpired) ((hsome x.1).mp hk) ((hall x.1).mp hanswer)

instance (s : Sessions) (k j : ℕ) : Decidable (LeftToCount s k j) :=
  inferInstanceAs (Decidable (∀ _ ∈ _, _))

instance (n : ℕ) (s : Sessions) : ∀ e, Decidable (CountsFairly (Set.Iio n) s e)
  | .move i _ =>
    inferInstanceAs (Decidable (∀ r ∈ (s.stage i).reaction, ∀ d ∈ r.counts,
      Occurrences.allDeliveriesTerminal (s.view i) d.occurrenceId = true ∨
        ∃ x ∈ (s.view i).deliveries.select (fun _ e ↦
          decide (e.occurrenceId = d.occurrenceId) && !e.status.isTerminal),
            ∀ j, j < n → LeftToCount s x.1 j))
  | .crash _ => isTrue trivial

/-- Both recipients of one occurrence have the message. -/
def bothSent : Database :=
  sampleDb [sampleOccurrence .sent] [sampleDelivery 0 .sent, sampleDelivery 1 .sent]

/-- The second reaction counts after the first has committed. -/
def oneAfterTheOther : List (Event Input) :=
  [tapBy 0 0 .done, tapBy 1 1 .done] ++ going 0 5 ++ going 1 4 ++ going 0 2 ++ going 1 4

/-- Both count before either commits. -/
def sideBySide : List (Event Input) :=
  [tapBy 0 0 .done, tapBy 1 1 .done] ++ going 0 6 ++ going 1 6 ++ going 0 1 ++ going 1 1

theorem countsFairly_all {n : ℕ} {s : Sessions} {e : Event Input}
    (hidle : ∀ j, n ≤ j → s.stage j = .idle) (h : CountsFairly (Set.Iio n) s e) :
    CountsFairly .univ s e := by
  cases e with
  | crash i => trivial
  | move i input =>
    intro r hr d hd
    refine (h r hr d hd).imp_right fun ⟨x, hx, hleft⟩ ↦ ⟨x, hx, fun j _ r' hr' ↦ ?_⟩
    by_cases hj : j < n
    · exact hleft j hj r' hr'
    · rw [hidle j (not_lt.mp hj)] at hr'
      cases hr'

theorem last_answer_closes_sample :
    ∃ s : Sessions, run (step (program sampleSettings) .idle) (.start bothSent .idle)
        oneAfterTheOther = some s ∧ ClosedByAnswers s.committed := by
  have hruns : (run (step (program sampleSettings) .idle)
      (.start bothSent .idle : Sessions) oneAfterTheOther).isSome = true := by
    decide +kernel
  obtain ⟨s, hrun⟩ := Option.isSome_iff_exists.mp hruns
  have honly : ∀ e ∈ oneAfterTheOther, OnlyReactions e := by
    simp [oneAfterTheOther, tapBy, going, OnlyReactions]
  have hfair : Guarded (step (program sampleSettings) .idle) (CountsFairly (Set.Iio 2))
      (.start bothSent .idle) oneAfterTheOther := by
    decide +kernel
  refine ⟨s, hrun, last_answer_closes (by decide +kernel) honly (Guarded.of_below
    (fun s e hidle h ↦ countsFairly_all hidle h) (fun _ _ ↦ rfl) ?_ hfair) hrun⟩
  decide

/-- Each of the two reactions counts the other delivery as open, and neither
closes the occurrence. -/
theorem both_answer_nobody_closes :
    ∃ s : Sessions, ClosedByAnswers bothSent ∧ (∀ e ∈ sideBySide, OnlyReactions e) ∧
      run (step (program sampleSettings) .idle) (.start bothSent .idle) sideBySide = some s ∧
        ¬ClosedByAnswers s.committed := by
  have hopen : (run (step (program sampleSettings) .idle)
      (.start bothSent .idle : Sessions) sideBySide).any
        (fun s ↦ decide ¬ClosedByAnswers s.committed) = true := by
    decide +kernel
  obtain ⟨s, hrun, hopen⟩ := (Option.any_eq_true _ _).mp hopen
  refine ⟨s, by decide +kernel, ?_, hrun, of_decide_eq_true hopen⟩
  simp [sideBySide, tapBy, going, OnlyReactions]

end Sample

end Remindo.Concurrent
