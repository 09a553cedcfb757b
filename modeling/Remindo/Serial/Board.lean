import Mathlib.Logic.Function.Basic
import Mathlib.Logic.Relation
import Remindo.Serial.Operations

namespace Remindo.Serial

open Remindo.Domain Remindo.Db Remindo.Services Remindo.Foundation

/-- What is promised about an occurrence, apart from its repeats. -/
structure Firing where
  reminderId : ℕ
  scheduledFor : ℤ
  fireAt : ℤ
  expiresAt : ℤ
  status : OccurrenceStatus
  deriving DecidableEq

/-- What a recipient can tell of a delivery: leases and retries are left out. -/
structure Letter where
  occurrenceId : ℕ
  userId : ℕ
  status : DeliveryStatus
  sentAt : Option ℤ
  deriving DecidableEq

structure Board where
  recipients : ℕ → Option Recipient
  firings : ℕ → Option Firing
  letters : ℕ → Option Letter
  outcomes : ℕ → ℕ
  outbox : List Message

def Letter.isQueued (l : Letter) : Bool :=
  decide (l.status = .pending) || decide (l.status = .snoozed)

theorem Letter.not_isTerminal_of_isQueued {l : Letter} (h : l.isQueued = true) :
    l.status.isTerminal = false := by
  simp only [isQueued, Bool.or_eq_true, decide_eq_true_eq] at h
  rcases h with h | h <;> simp [h, DeliveryStatus.isTerminal]

/-- The planner counts the row in. -/
def listens (x : Recipient) : Bool := decide (x.role = .owner) || x.acceptedAt.isSome

/-- A pending invitation of this user to this reminder. -/
def isInvited (reminderId userId : ℕ) (x : Recipient) : Bool :=
  decide (x.key = (reminderId, userId)) && decide (x.role = .watcher) && x.acceptedAt.isNone

def accepted (reminderId userId : ℕ) (now : ℤ) (x : Recipient) : Recipient :=
  if isInvited reminderId userId x then { x with acceptedAt := some now } else x

namespace Board

variable (b : Board)

def setLetter (j : ℕ) (l : Letter) : Board :=
  { b with letters := Function.update b.letters j (some l) }

def setFiring (i : ℕ) (f : Firing) : Board :=
  { b with firings := Function.update b.firings i (some f) }

/-- The journal goes with the letters. -/
def remove (gone : ℕ → Bool) : Board :=
  { b with
    letters := fun j ↦ if gone j then none else b.letters j
    outcomes := fun j ↦ if gone j then 0 else b.outcomes j }

/-- The letter is on its recipient's screen with live buttons. -/
def isShown (i j : ℕ) : Bool :=
  (b.letters j).any fun l ↦ decide (l.occurrenceId = i) && decide (l.status = .sent)

@[simp] theorem letters_setLetter (j k : ℕ) (l : Letter) :
    (b.setLetter j l).letters k = if k = j then some l else b.letters k :=
  Function.update_apply ..

@[simp] theorem firings_setFiring (i k : ℕ) (f : Firing) :
    (b.setFiring i f).firings k = if k = i then some f else b.firings k :=
  Function.update_apply ..

end Board

/-- What a family of operations is held to. -/
structure Guard where
  maySend : (expiresAt t : ℤ) → Prop
  mayRepeat : Letter → Firing → Prop
  mayCover : Firing → Recipient → Prop
  mayJoin : Board → (reminderId userId : ℕ) → (now : ℤ) → Prop
  mayOpen : (reminderId : ℕ) → Prop
  mayTap : Prop
  mayExpire : Prop

def Guard.free : Guard :=
  ⟨fun _ _ ↦ True, fun _ _ ↦ True, fun _ _ ↦ True, fun _ _ _ _ ↦ True, fun _ ↦ True, True, True⟩

/-- The elementary changes of the board. -/
inductive Change (g : Guard) (b : Board) : Board → Prop
  | retry {j : ℕ} {l : Letter} (hj : b.letters j = some l) (hqueued : l.isQueued = true) :
      Change g b (b.setLetter j { l with status := .pending })
  | giveUp {j : ℕ} {l : Letter} {status : DeliveryStatus} (hj : b.letters j = some l)
      (hqueued : l.isQueued = true) (hended : status = .failed ∨ status = .blocked) :
      Change g b (b.setLetter j { l with status := status })
  | requeue {j : ℕ} {l : Letter} {f : Firing} (hj : b.letters j = some l)
      (hsent : l.status = .sent) (hi : b.firings l.occurrenceId = some f)
      (hmay : g.mayRepeat l f) : Change g b (b.setLetter j { l with status := .pending })
  | send {j : ℕ} {l : Letter} {f : Firing} {t : ℤ} (hj : b.letters j = some l)
      (hqueued : l.isQueued = true) (hi : b.firings l.occurrenceId = some f)
      (hopen : f.status.isTerminal = false) (hmay : g.maySend f.expiresAt t) :
      Change g b
        { (b.setLetter j { l with status := .sent, sentAt := some t }).setFiring l.occurrenceId
            { f with status := .sent } with
          outbox := b.outbox ++ [⟨j, l.occurrenceId, f.reminderId, l.userId, t⟩] }
  | snooze {j : ℕ} {l : Letter} {f : Firing} (hj : b.letters j = some l)
      (hlive : l.status.isTerminal = false) (hi : b.firings l.occurrenceId = some f)
      (hopen : f.status.isTerminal = false) (hmay : g.mayTap) :
      Change g b (b.setLetter j { l with status := .snoozed })
  | answer {j : ℕ} {l : Letter} {f : Firing} {status : DeliveryStatus}
      (hj : b.letters j = some l) (hlive : l.status.isTerminal = false)
      (hi : b.firings l.occurrenceId = some f) (hopen : f.status.isTerminal = false)
      (hanswer : status.isAnswer = true) (hmay : g.mayTap) :
      Change g b
        { b.setLetter j { l with status := status } with
          outcomes := Function.update b.outcomes j (b.outcomes j + 1) }
  | close {i : ℕ} {f : Firing} {status : OccurrenceStatus} (hi : b.firings i = some f)
      (hopen : f.status.isTerminal = false)
      (hended : ∀ j l, b.letters j = some l → l.occurrenceId = i → l.status.isTerminal = true)
      (hclosed : status = .done ∨ status = .skipped) :
      Change g b (b.setFiring i { f with status := status })
  /-- Silence is journaled for what is still shown. -/
  | expire {i : ℕ} {f : Firing} (hi : b.firings i = some f) (hopen : f.status.isTerminal = false)
      (hmay : g.mayExpire) :
      Change g b
        { b.setFiring i { f with status := .expired } with
          outcomes := fun j ↦ b.outcomes j + if b.isShown i j then 1 else 0 }
  | plan {firings : ℕ → Option Firing} (hkept : ∀ i f, b.firings i = some f → firings i = some f)
      (hnew : ∀ i f, firings i = some f → b.firings i = some f ∨
        b.firings i = none ∧ f.status = .pending) : Change g b { b with firings := firings }
  | cover {letters : ℕ → Option Letter} (hkept : ∀ j l, b.letters j = some l → letters j = some l)
      (hnew : ∀ j l, letters j = some l → b.letters j = some l ∨
        b.letters j = none ∧ l.status = .pending ∧ l.sentAt = none ∧ ∃ f,
          b.firings l.occurrenceId = some f ∧
            (∃ k x, b.recipients k = some x ∧ x.key = (f.reminderId, l.userId) ∧
              listens x = true) ∧
            ∀ k x, b.recipients k = some x → x.key = (f.reminderId, l.userId) →
              listens x = true → g.mayCover f x) :
      Change g b { b with letters := letters }
  | join {reminderId userId : ℕ} {now : ℤ} {letters : ℕ → Option Letter}
      (hinvited : ∃ k x, b.recipients k = some x ∧ isInvited reminderId userId x = true)
      (hmay : g.mayJoin b reminderId userId now)
      (hkept : ∀ j l, b.letters j = some l → letters j = some l)
      (hnew : ∀ j l, letters j = some l → b.letters j = some l ∨
        b.letters j = none ∧ l.status = .pending ∧ l.sentAt = none ∧ l.userId = userId ∧
          ∃ f, b.firings l.occurrenceId = some f ∧ f.reminderId = reminderId ∧
            f.status = .pending ∧ now < f.fireAt) :
      Change g b
        { b with
          recipients := fun k ↦ (b.recipients k).map (accepted reminderId userId now)
          letters := letters }
  | invite {k : ℕ} {x : Recipient} (hk : b.recipients k = none)
      (hfirst : ∀ k' y, b.recipients k' = some y → y.key ≠ x.key) (hrole : x.role = .watcher)
      (hpending : x.acceptedAt = none) :
      Change g b { b with recipients := Function.update b.recipients k (some x) }
  | own {k : ℕ} {x : Recipient} (hk : b.recipients k = none) (hrole : x.role = .owner)
      (hmay : g.mayOpen x.reminderId) :
      Change g b { b with recipients := Function.update b.recipients k (some x) }
  | part (reminderId userId : ℕ) :
      Change g b
        { b with
          recipients := fun k ↦ (b.recipients k).filter fun x ↦
            !(decide (x.key = (reminderId, userId)) && decide (x.role = .watcher)) }
  | withdraw {reminderId userId : ℕ} {gone : ℕ → Bool}
      (hgone : ∀ j, gone j = true ↔ ∃ l f, b.letters j = some l ∧ l.status = .pending ∧
        l.userId = userId ∧ b.firings l.occurrenceId = some f ∧ f.reminderId = reminderId) :
      Change g b (b.remove gone)
  /-- A pause or an edit takes back what nothing has left of. -/
  | drop {reminderId : ℕ} {unsent gone : ℕ → Bool}
      (hunsent : ∀ i, unsent i = true → ∃ f, b.firings i = some f ∧ f.reminderId = reminderId ∧
        f.status = .pending ∧
          ∀ j l, b.letters j = some l → l.occurrenceId = i → l.status = .pending)
      (hgone : ∀ j, gone j = true ↔ ∃ l, b.letters j = some l ∧ unsent l.occurrenceId = true) :
      Change g b
        { b.remove gone with firings := fun i ↦ if unsent i then none else b.firings i }

/-- A chain of elementary changes. -/
abbrev Changes (g : Guard) : Board → Board → Prop := Relation.ReflTransGen (Change g)

theorem Changes.invariant {g : Guard} {P : Board → Prop}
    (hchange : ∀ b b', P b → Change g b b' → P b') {b b' : Board} (hchanges : Changes g b b')
    (h : P b) : P b' := by
  induction hchanges with
  | refl => exact h
  | tail _ hlast ih => exact hchange _ _ ih hlast

/-- Every letter belongs to an occurrence. -/
def Parented (b : Board) : Prop :=
  ∀ j l, b.letters j = some l → ∃ f, b.firings l.occurrenceId = some f

section Parents

variable {g : Guard} {b b' : Board}

theorem Parented.setLetter (h : Parented b) {j : ℕ} {l : Letter} (l' : Letter)
    (hj : b.letters j = some l) (hparent : l'.occurrenceId = l.occurrenceId) :
    Parented (b.setLetter j l') := by
  intro k l'' hk
  rw [Board.letters_setLetter] at hk
  split at hk
  · cases hk
    exact hparent ▸ h j l hj
  · exact h k l'' hk

theorem Parented.setFiring (h : Parented b) (i : ℕ) (f : Firing) : Parented (b.setFiring i f) := by
  intro j l hl
  rw [Board.firings_setFiring]
  split
  · exact ⟨f, rfl⟩
  · exact h j l hl

theorem Parented.change (h : Parented b) (hchange : Change g b b') : Parented b' := by
  cases hchange with
  | retry hj | giveUp hj | requeue hj | snooze hj | answer hj => exact h.setLetter _ hj rfl
  | @send j l f t hj =>
    exact (h.setLetter { l with status := .sent, sentAt := some t } hj rfl).setFiring
      l.occurrenceId { f with status := .sent }
  | close | expire => exact h.setFiring _ _
  | plan hkept hnew =>
    intro j l hl
    obtain ⟨f, hf⟩ := h j l hl
    exact ⟨f, hkept _ _ hf⟩
  | cover hkept hnew =>
    intro j l hl
    rcases hnew j l hl with hold | ⟨-, -, -, f, hf, -⟩
    · exact h j l hold
    · exact ⟨f, hf⟩
  | join hinvited hmay hkept hnew =>
    intro j l hl
    rcases hnew j l hl with hold | ⟨-, -, -, -, f, hf, -⟩
    · exact h j l hold
    · exact ⟨f, hf⟩
  | invite | own | part => exact h
  | @withdraw _ _ gone hgone =>
    intro j l hl
    change (if gone j then none else b.letters j) = some l at hl
    split at hl
    · cases hl
    · exact h j l hl
  | @drop _ unsent gone hunsent hgone =>
    intro j l hl
    change (if gone j then none else b.letters j) = some l at hl
    change ∃ f, (if unsent l.occurrenceId then none else b.firings l.occurrenceId) = some f
    split at hl
    · cases hl
    · rename_i hkept
      rw [if_neg fun hi ↦ hkept ((hgone j).mpr ⟨l, hl, hi⟩)]
      exact h j l hl

end Parents

section Firings

variable {g : Guard} {b b' : Board} {i : ℕ}

theorem setFiring_back {f f₀ f' : Firing} {k : ℕ} {status : OccurrenceStatus}
    (hk : b.firings k = some f₀) (hf : f = { f₀ with status := status })
    (hi : (b.setFiring k f).firings i = some f') :
    ∃ f, b.firings i = some f ∧ f' = { f with status := f'.status } := by
  rw [Board.firings_setFiring] at hi
  split at hi
  · rename_i heq
    cases hi
    subst hf heq
    exact ⟨f₀, hk, rfl⟩
  · exact ⟨f', hi, rfl⟩

/-- Apart from its status an occurrence never changes. -/
theorem Change.firing_back (h : Change g b b') {f' : Firing} (hi : b'.firings i = some f') :
    (∃ f, b.firings i = some f ∧ f' = { f with status := f'.status }) ∨
      b.firings i = none ∧ f'.status = .pending := by
  cases h with
  | retry | giveUp | requeue | snooze | answer | cover | join | invite | own | part | withdraw =>
    exact .inl ⟨f', hi, rfl⟩
  | send hj hqueued hk => exact .inl (setFiring_back hk rfl hi)
  | close hk => exact .inl (setFiring_back hk rfl hi)
  | expire hk => exact .inl (setFiring_back hk rfl hi)
  | plan hkept hnew =>
    rcases hnew i f' hi with hold | hnew
    · exact .inl ⟨f', hold, rfl⟩
    · exact .inr hnew
  | @drop _ unsent gone hunsent hgone =>
    change (if unsent i then none else b.firings i) = some f' at hi
    split at hi
    · cases hi
    · exact .inl ⟨f', hi, rfl⟩

theorem setFiring_closed {f f₀ f₁ : Firing} {k : ℕ} (hk : b.firings k = some f₀)
    (hopen : f₀.status.isTerminal = false) (hi : b.firings i = some f₁)
    (hclosed : f₁.status.isTerminal = true) : (b.setFiring k f).firings i = some f₁ := by
  rw [Board.firings_setFiring, if_neg, hi]
  intro heq
  subst heq
  cases hk.symm.trans hi
  rw [hclosed] at hopen
  cases hopen

theorem Change.closed_kept (h : Change g b b') {f : Firing} (hi : b.firings i = some f)
    (hclosed : f.status.isTerminal = true) : b'.firings i = some f := by
  have hleft : f.status ≠ .pending := by
    intro hpending
    rw [hpending] at hclosed
    cases hclosed
  cases h with
  | retry | giveUp | requeue | snooze | answer | cover | join | invite | own | part | withdraw =>
    exact hi
  | send hj hqueued hk hopen => exact setFiring_closed hk hopen hi hclosed
  | close hk hopen => exact setFiring_closed hk hopen hi hclosed
  | expire hk hopen => exact setFiring_closed hk hopen hi hclosed
  | plan hkept => exact hkept i f hi
  | @drop _ unsent gone hunsent hgone =>
    refine (if_neg fun hi' ↦ ?_).trans hi
    obtain ⟨f', hf', -, hpending, -⟩ := hunsent i hi'
    cases hf'.symm.trans hi
    exact hleft hpending

/-- Only a sweep expires an occurrence. -/
theorem Change.expired_back (h : Change g b b') (hquiet : ¬g.mayExpire) {f' : Firing}
    (hi : b'.firings i = some f') (hexpired : f'.status = .expired) : b.firings i = some f' := by
  have hset : ∀ {k : ℕ} {f₁ : Firing}, (b.setFiring k f₁).firings i = some f' →
      f₁.status ≠ .expired → b.firings i = some f' := by
    intro k f₁ hk hstatus
    rw [Board.firings_setFiring] at hk
    split at hk
    · cases hk
      exact absurd hexpired hstatus
    · exact hk
  cases h with
  | retry | giveUp | requeue | snooze | answer | cover | join | invite | own | part | withdraw =>
    exact hi
  | send => exact hset hi (by simp)
  | close hk hopen hended hclosed => exact hset hi (by rcases hclosed with rfl | rfl <;> simp)
  | expire hk hopen hmay => exact absurd hmay hquiet
  | plan hkept hnew =>
    rcases hnew i f' hi with hold | ⟨-, hpending⟩
    · exact hold
    · simp [hpending] at hexpired
  | @drop _ unsent gone hunsent hgone =>
    change (if unsent i then none else b.firings i) = some f' at hi
    split at hi
    · cases hi
    · exact hi

end Firings

section View

def firingOf (o : Occurrence) : Firing :=
  ⟨o.reminderId, o.scheduledFor, o.fireAt, o.expiresAt, o.status⟩

def letterOf (d : Delivery) : Letter := ⟨d.occurrenceId, d.userId, d.status, d.sentAt⟩

/-- How often the journal has settled a delivery. -/
def outcomesOf (db : Database) (j : ℕ) : ℕ :=
  db.actions.count fun a ↦ decide (a.deliveryId = j) && a.kind.isOutcome

def World.board (w : World) : Board where
  recipients := w.db.recipients
  firings i := (w.db.occurrences i).map firingOf
  letters j := (w.db.deliveries j).map letterOf
  outcomes := outcomesOf w.db
  outbox := w.outbox

theorem Board.ext' {b b' : Board} (hrecipients : ∀ k, b.recipients k = b'.recipients k)
    (hfirings : ∀ i, b.firings i = b'.firings i) (hletters : ∀ j, b.letters j = b'.letters j)
    (houtcomes : ∀ j, b.outcomes j = b'.outcomes j) (houtbox : b.outbox = b'.outbox) : b = b' := by
  obtain ⟨_, _, _, _, _⟩ := b
  obtain ⟨_, _, _, _, _⟩ := b'
  obtain rfl := funext hrecipients
  obtain rfl := funext hfirings
  obtain rfl := funext hletters
  obtain rfl := funext houtcomes
  obtain rfl := houtbox
  rfl

variable {w : World} {db : Database} {i j : ℕ}

theorem World.letter_some {l : Letter} :
    w.board.letters j = some l ↔ ∃ d, w.db.deliveries j = some d ∧ letterOf d = l :=
  Option.map_eq_some_iff

theorem World.firing_some {f : Firing} :
    w.board.firings i = some f ↔ ∃ o, w.db.occurrences i = some o ∧ firingOf o = f :=
  Option.map_eq_some_iff

theorem World.letters_of {d : Delivery} (h : w.db.deliveries j = some d) :
    w.board.letters j = some (letterOf d) := World.letter_some.mpr ⟨d, h, rfl⟩

theorem World.firings_of {o : Occurrence} (h : w.db.occurrences i = some o) :
    w.board.firings i = some (firingOf o) := World.firing_some.mpr ⟨o, h, rfl⟩

theorem outcomesOf_congr {db db' : Database} (h : db'.actions = db.actions) :
    outcomesOf db' = outcomesOf db := by
  funext j
  rw [outcomesOf, outcomesOf, h]

theorem outcomesOf_addAction (a : DeliveryAction) (j : ℕ) :
    outcomesOf (db.run (Deliveries.addAction a)) j =
      outcomesOf db j + if a.deliveryId = j ∧ a.kind.isOutcome = true then 1 else 0 := by
  change (db.actions.writes (db.actions.insert [a])).count _ = _
  rw [Table.count_writes_insert, List.countP_singleton, outcomesOf]
  simp

theorem outcomesOf_delete (db : Database) (p : ℕ → Delivery → Bool) (j : ℕ) :
    outcomesOf (db.run (Deliveries.delete p)) j =
      if (db.deliveries j).any (p j) = true then 0 else outcomesOf db j := by
  have hrow : ∀ k, (db.run (Deliveries.delete p)).actions k = (db.actions k).filter fun a ↦
      !(db.deliveries a.deliveryId).any (p a.deliveryId) := fun k ↦ Table.writes_deleteWhere ..
  split
  · rename_i hgone
    refine Table.count_eq_zero.mpr fun k a ha ↦ ?_
    rw [hrow, Option.filter_eq_some_iff] at ha
    by_cases hj : a.deliveryId = j
    · simp [hj, hgone] at ha
    · simp [hj]
  · rename_i hkept
    refine Table.count_congr fun k ↦ ?_
    rw [hrow]
    cases db.actions k with
    | none => rfl
    | some a =>
      by_cases hj : a.deliveryId = j
      · simp [hj, hkept]
      · rw [Option.filter_some]
        split <;> simp [hj]

end View

end Remindo.Serial
