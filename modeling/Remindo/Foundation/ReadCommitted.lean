import Mathlib.Data.Nat.Notation
import Mathlib.Data.Set.Basic
import Mathlib.Logic.Function.Basic
import Mathlib.Order.Interval.Set.Defs
import Remindo.Foundation.Runs

set_option linter.unusedSectionVars false

namespace Remindo.Foundation.ReadCommitted

/-- What a database shows its sessions: the effect of a statement's row
versions, the sequences they move on, and the locks they need. -/
class Store (W : Type) (D L : outParam Type) where
  apply : D → W → D
  touch : D → W → D
  locks : W → List L

export Store (apply touch locks)

/-- An observation that only writes holding the lock change, and that such a
write determines. -/
structure Guards (W : Type) {D L β : Type} [Store W D L] (l : L) (f : D → β) : Prop where
  of_notMem : ∀ (d : D) (w : W), l ∉ locks w → f (apply d w) = f d
  of_mem : ∀ (d d' : D) (w : W), l ∈ locks w → f (apply d w) = f (apply d' w)
  of_touch : ∀ (d : D) (w : W), f (touch d w) = f d

/-- One statement of a session, or the end of its transaction. A statement
keeps the locks of its writes and those it asks to hold, alone or with others,
to the end of the transaction; those it only awaits must be free. -/
inductive Move (W L P : Type)
  | exec (writes : W) (held shared awaited : List L) (next : P)
  | commit (next : P)
  | rollback (next : P)

def Move.map {W L P Q : Type} (f : P → Q) : Move W L P → Move W L Q
  | .exec w held shared awaited next => .exec w held shared awaited (f next)
  | .commit next => .commit (f next)
  | .rollback next => .rollback (f next)

section Map

variable {W L P Q : Type} {f : P → Q} {m : Move W L P} {q : Q}

theorem Move.map_eq_exec {w : W} {held shared awaited : List L}
    (h : m.map f = .exec w held shared awaited q) :
    ∃ p, m = .exec w held shared awaited p ∧ q = f p := by
  cases m <;> cases h
  exact ⟨_, rfl, rfl⟩

theorem Move.map_eq_commit (h : m.map f = .commit q) : ∃ p, m = .commit p ∧ q = f p := by
  cases m <;> cases h
  exact ⟨_, rfl, rfl⟩

theorem Move.map_eq_rollback (h : m.map f = .rollback q) : ∃ p, m = .rollback p ∧ q = f p := by
  cases m <;> cases h
  exact ⟨_, rfl, rfl⟩

end Map

/-- The statement a stage issues, read against the data it sees; `none` when
it cannot move on this input. -/
abbrev Program (D W L P I : Type) := P → I → (L → Bool) → D → Option (Move W L P)

structure Session (W P : Type) where
  stage : P
  log : List W

structure System (D W L P : Type) where
  committed : D
  owner : L → Option ℕ
  sharers : L → List ℕ
  session : ℕ → Session W P

inductive Event (I : Type)
  | move (i : ℕ) (input : I)
  | crash (i : ℕ)

variable {D W L P I : Type} [Store W D L] [DecidableEq L]

namespace System

def start (d : D) (idle : P) : System D W L P :=
  ⟨d, fun _ ↦ none, fun _ ↦ [], fun _ ↦ ⟨idle, []⟩⟩

/-- A statement sees what is committed and its own transaction's writes. -/
def view (s : System D W L P) (i : ℕ) : D := (s.session i).log.foldl apply s.committed

def stage (s : System D W L P) (i : ℕ) : P := (s.session i).stage

/-- Somebody else holds the lock for himself. -/
def ownedFor (s : System D W L P) (i : ℕ) (l : L) : Bool :=
  (s.owner l).any fun j ↦ decide (j ≠ i)

/-- Somebody else holds the lock, for himself or with others. -/
def lockedFor (s : System D W L P) (i : ℕ) (l : L) : Bool :=
  s.ownedFor i l || (s.sharers l).any fun j ↦ decide (j ≠ i)

def exec (s : System D W L P) (i : ℕ) (w : W) (held shared : List L) (next : P) :
    System D W L P where
  committed := touch s.committed w
  owner l := if l ∈ locks w ++ held then some i else s.owner l
  sharers l := if l ∈ shared then i :: s.sharers l else s.sharers l
  session := Function.update s.session i ⟨next, (s.session i).log ++ [w]⟩

/-- The transaction of `i` ends over the data `d`, and its locks are free. -/
def close (s : System D W L P) (i : ℕ) (d : D) (next : P) : System D W L P where
  committed := d
  owner l := if s.owner l = some i then none else s.owner l
  sharers l := (s.sharers l).filter fun j ↦ decide (j ≠ i)
  session := Function.update s.session i ⟨next, []⟩

end System

/-- A statement waits for the locks it needs; a crash rolls back. -/
def step (program : Program D W L P I) (idle : P) (s : System D W L P) :
    Event I → Option (System D W L P)
  | .crash i => some (s.close i s.committed idle)
  | .move i input =>
    match program (s.stage i) input (s.lockedFor i) (s.view i) with
    | none => none
    | some (.exec w held shared awaited next) =>
      if (locks w ++ held).any (s.lockedFor i) || (shared ++ awaited).any (s.ownedFor i) then none
      else some (s.exec i w held shared next)
    | some (.commit next) => some (s.close i (s.view i) next)
    | some (.rollback next) => some (s.close i s.committed next)

/-- Whose transaction the event commits. -/
def System.committer (program : Program D W L P I) (s : System D W L P) : Event I → Option ℕ
  | .crash _ => none
  | .move i input =>
    match program (s.stage i) input (s.lockedFor i) (s.view i) with
    | some (.commit _) => some i
    | _ => none

/-- What one step can be. -/
inductive Step (program : Program D W L P I) (idle : P) (s : System D W L P) :
    Event I → System D W L P → Prop
  | exec {i : ℕ} {input : I} {w : W} {held shared awaited : List L} {next : P}
      (hmove : program (s.stage i) input (s.lockedFor i) (s.view i) =
        some (.exec w held shared awaited next))
      (hfree : ∀ l ∈ locks w ++ held, s.owner l = none ∨ s.owner l = some i) :
      Step program idle s (.move i input) (s.exec i w held shared next)
  | commit {i : ℕ} {input : I} {next : P}
      (hmove : program (s.stage i) input (s.lockedFor i) (s.view i) = some (.commit next)) :
      Step program idle s (.move i input) (s.close i (s.view i) next)
  | rollback {i : ℕ} {input : I} {next : P}
      (hmove : program (s.stage i) input (s.lockedFor i) (s.view i) = some (.rollback next)) :
      Step program idle s (.move i input) (s.close i s.committed next)
  | crash (i : ℕ) : Step program idle s (.crash i) (s.close i s.committed idle)

theorem owner_of_lockedFor {s : System D W L P} {i : ℕ} {l : L} (h : s.lockedFor i l = false) :
    s.owner l = none ∨ s.owner l = some i := by
  have howned := (Bool.or_eq_false_iff.mp h).1
  rw [System.ownedFor] at howned
  cases howner : s.owner l with
  | none => exact .inl rfl
  | some j => simpa [howner] using howned

theorem step_cases {program : Program D W L P I} {idle : P} {s s' : System D W L P} {e : Event I}
    (h : step program idle s e = some s') : Step program idle s e s' := by
  cases e with
  | crash i =>
    cases h
    exact .crash i
  | move i input =>
    rw [step] at h
    split at h
    · cases h
    · rename_i w held shared awaited next hmove
      split at h
      · cases h
      · rename_i hfree
        cases h
        refine .exec hmove fun l hl ↦ owner_of_lockedFor ?_
        rw [Bool.not_eq_true, Bool.or_eq_false_iff, List.any_eq_false] at hfree
        exact eq_false_of_ne_true (hfree.1 l hl)
    · rename_i next hmove
      cases h
      exact .commit hmove
    · rename_i next hmove
      cases h
      exact .rollback hmove

/-- The session a step belongs to. -/
def Event.by : Event I → ℕ
  | .move i _ => i
  | .crash i => i

/-- Whoever has written under a lock holds it. -/
def System.Owned (s : System D W L P) : Prop :=
  ∀ i, ∀ w ∈ (s.session i).log, ∀ l ∈ locks w, s.owner l = some i

section Sessions

variable {s s' : System D W L P} {i j : ℕ}

theorem session_exec_self (w : W) (held shared : List L) (next : P) :
    (s.exec i w held shared next).session i = ⟨next, (s.session i).log ++ [w]⟩ :=
  Function.update_self ..

theorem session_exec_of_ne (h : j ≠ i) (w : W) (held shared : List L) (next : P) :
    (s.exec i w held shared next).session j = s.session j := Function.update_of_ne h ..

theorem session_close_self (d : D) (next : P) : (s.close i d next).session i = ⟨next, []⟩ :=
  Function.update_self ..

theorem session_close_of_ne (h : j ≠ i) (d : D) (next : P) :
    (s.close i d next).session j = s.session j := Function.update_of_ne h ..

theorem view_close_self (d : D) (next : P) : (s.close i d next).view i = d := by
  rw [System.view, session_close_self]
  rfl

theorem stage_exec_self (w : W) (held shared : List L) (next : P) :
    (s.exec i w held shared next).stage i = next := by rw [System.stage, session_exec_self]

theorem stage_close_self (d : D) (next : P) : (s.close i d next).stage i = next := by
  rw [System.stage, session_close_self]

theorem stage_exec_of_ne (h : j ≠ i) (w : W) (held shared : List L) (next : P) :
    (s.exec i w held shared next).stage j = s.stage j :=
  congrArg Session.stage (session_exec_of_ne h w held shared next)

theorem stage_close_of_ne (h : j ≠ i) (d : D) (next : P) :
    (s.close i d next).stage j = s.stage j :=
  congrArg Session.stage (session_close_of_ne h d next)

theorem Owned.exec (hown : s.Owned) {w : W} {held : List L}
    (hfree : ∀ l ∈ locks w ++ held, s.owner l = none ∨ s.owner l = some i)
    (shared : List L) (next : P) : (s.exec i w held shared next).Owned := by
  intro j w' hw' l hl
  have hkeep : ∀ k, s.owner l = some k → k = i ∨ l ∉ locks w ++ held := by
    intro k hk
    by_contra hno
    rw [not_or, not_not] at hno
    rcases hfree l hno.2 with h | h
    · rw [hk] at h
      cases h
    · rw [hk] at h
      exact hno.1 (Option.some_inj.mp h)
  show (if l ∈ locks w ++ held then some i else s.owner l) = some j
  by_cases hij : j = i
  · subst hij
    rw [session_exec_self, List.mem_append, List.mem_singleton] at hw'
    split
    · rfl
    · rename_i hno
      rcases hw' with hw' | rfl
      · exact hown j w' hw' l hl
      · exact absurd (List.mem_append_left _ hl) hno
  · rw [session_exec_of_ne hij] at hw'
    have hj := hown j w' hw' l hl
    rw [if_neg ((hkeep j hj).resolve_left hij), hj]

theorem Owned.close (hown : s.Owned) (d : D) (next : P) : (s.close i d next).Owned := by
  intro j w hw l hl
  by_cases hij : j = i
  · rw [hij, session_close_self] at hw
    cases hw
  · rw [session_close_of_ne hij] at hw
    have hj := hown j w hw l hl
    show (if s.owner l = some i then none else s.owner l) = some j
    rw [if_neg (by rw [hj]; exact fun h ↦ hij (Option.some_inj.mp h)), hj]

theorem Step.owned {program : Program D W L P I} {idle : P} {e : Event I}
    (hstep : Step program idle s e s') (hown : s.Owned) : s'.Owned := by
  cases hstep with
  | exec hmove hfree => exact Owned.exec hown hfree _ _
  | commit hmove => exact Owned.close hown _ _
  | rollback hmove => exact Owned.close hown _ _
  | crash i => exact Owned.close hown _ _

end Sessions

section Observations

variable {β : Type} {l : L} {f : D → β} {s s' : System D W L P} {i j : ℕ}

theorem Guards.comp {γ : Type} (hf : Guards W l f) (g : β → γ) : Guards W l fun d ↦ g (f d) where
  of_notMem d w h := congrArg g (hf.of_notMem d w h)
  of_mem d d' w h := congrArg g (hf.of_mem d d' w h)
  of_touch d w := congrArg g (hf.of_touch d w)

theorem Guards.foldl_of_notMem (hf : Guards W l f) {log : List W} (h : ∀ w ∈ log, l ∉ locks w)
    (d : D) : f (log.foldl apply d) = f d := by
  induction log generalizing d with
  | nil => rfl
  | cons w log ih =>
    rw [List.foldl_cons, ih (fun w hw ↦ h w (List.mem_cons_of_mem _ hw)),
      hf.of_notMem _ _ (h w List.mem_cons_self)]

theorem Guards.foldl_congr (hf : Guards W l f) {log : List W} {d d' : D}
    (h : f d = f d' ∨ ∃ w ∈ log, l ∈ locks w) :
    f (log.foldl apply d) = f (log.foldl apply d') := by
  induction log generalizing d d' with
  | nil => exact h.resolve_right (by simp)
  | cons w log ih =>
    refine ih ?_
    by_cases hw : l ∈ locks w
    · exact .inl (hf.of_mem d d' w hw)
    · rcases h with h | ⟨w', hw', hl⟩
      · exact .inl (by rw [hf.of_notMem d w hw, hf.of_notMem d' w hw, h])
      · rcases List.mem_cons.mp hw' with rfl | hw'
        · exact absurd hl hw
        · exact .inr ⟨w', hw', hl⟩

theorem Guards.view_eq_committed (hf : Guards W l f) (hown : s.Owned) (h : s.owner l ≠ some i) :
    f (s.view i) = f s.committed :=
  hf.foldl_of_notMem (fun w hw hl ↦ h (hown i w hw l hl)) _

theorem Guards.committed_exec (hf : Guards W l f) (w : W) (held shared : List L) (next : P) :
    f (s.exec i w held shared next).committed = f s.committed := hf.of_touch _ _

theorem Guards.view_exec_self (hf : Guards W l f) (w : W) (held shared : List L) (next : P) :
    f ((s.exec i w held shared next).view i) = f (apply (s.view i) w) := by
  rw [System.view, session_exec_self, List.foldl_append, List.foldl_cons, List.foldl_nil]
  by_cases hw : l ∈ locks w
  · exact hf.of_mem _ _ w hw
  · rw [hf.of_notMem _ w hw, hf.of_notMem _ w hw]
    exact hf.foldl_congr (.inl (hf.of_touch _ _))

theorem Guards.view_exec_of_ne (hf : Guards W l f) (h : j ≠ i) (w : W) (held shared : List L) (next : P) :
    f ((s.exec i w held shared next).view j) = f (s.view j) := by
  rw [System.view, session_exec_of_ne h]
  exact hf.foldl_congr (.inl (hf.of_touch _ _))

/-- Another session's step either leaves what this one sees under a lock of
its own, or what it sees is the committed value before and after. -/
theorem Guards.view_other (hf : Guards W l f) {program : Program D W L P I} {idle : P}
    {e : Event I} (hstep : Step program idle s e s') (hown : s.Owned) (hj : j ≠ e.by) :
    f (s'.view j) = f (s.view j) ∧ f s'.committed = f s.committed ∨
      f (s'.view j) = f s'.committed ∧ f (s.view j) = f s.committed := by
  have hclose : ∀ (i : ℕ) (d : D) (next : P), j ≠ i → (s.owner l ≠ some i → f d = f s.committed) →
      f ((s.close i d next).view j) = f (s.view j) ∧ f d = f s.committed ∨
        f ((s.close i d next).view j) = f d ∧ f (s.view j) = f s.committed := by
    intro i d next hji hd
    rw [System.view, session_close_of_ne hji]
    by_cases hlog : ∃ w ∈ (s.session j).log, l ∈ locks w
    · obtain ⟨w, hw, hl⟩ := hlog
      refine .inl ⟨hf.foldl_congr (.inr ⟨w, hw, hl⟩), hd ?_⟩
      rw [hown j w hw l hl]
      exact fun h ↦ hji (Option.some_inj.mp h)
    · have hnone : ∀ w ∈ (s.session j).log, l ∉ locks w := fun w hw hl ↦ hlog ⟨w, hw, hl⟩
      exact .inr ⟨hf.foldl_of_notMem hnone _, hf.foldl_of_notMem hnone _⟩
  cases hstep with
  | exec hmove hfree =>
    exact .inl ⟨hf.view_exec_of_ne hj _ _ _ _, hf.committed_exec _ _ _ _⟩
  | commit hmove => exact hclose _ _ _ hj fun h ↦ hf.view_eq_committed hown h
  | rollback hmove => exact hclose _ _ _ hj fun _ ↦ rfl
  | crash i => exact hclose _ _ _ hj fun _ ↦ rfl

/-- What a session sees as committed, it sees as committed after others move. -/
theorem Guards.same_other (hf : Guards W l f) {program : Program D W L P I} {idle : P}
    {e : Event I} (hstep : Step program idle s e s') (hown : s.Owned) (hj : j ≠ e.by)
    (h : f (s.view j) = f s.committed) : f (s'.view j) = f s'.committed := by
  rcases hf.view_other hstep hown hj with ⟨hview, hcommitted⟩ | ⟨hview, -⟩
  · rw [hview, hcommitted, h]
  · exact hview

theorem Step.owner_other {program : Program D W L P I} {idle : P} {e : Event I}
    (hstep : Step program idle s e s') (hj : j ≠ e.by) (hl : s.owner l = some j) :
    s'.owner l = some j := by
  have hclose : ∀ (i : ℕ) (d : D) (next : P), j ≠ i → (s.close i d next).owner l = some j := by
    intro i d next hji
    change (if s.owner l = some i then none else s.owner l) = some j
    rw [if_neg (by rw [hl]; exact fun h ↦ hji (Option.some_inj.mp h)), hl]
  cases hstep with
  | @exec i input w held shared awaited next hmove hfree =>
    change (if l ∈ locks w ++ held then some i else s.owner l) = some j
    rw [if_neg, hl]
    intro hmem
    rcases hfree l hmem with h | h
    · rw [hl] at h
      cases h
    · rw [hl] at h
      exact hj (Option.some_inj.mp h)
  | commit hmove => exact hclose _ _ _ hj
  | rollback hmove => exact hclose _ _ _ hj
  | crash i => exact hclose _ _ _ hj

/-- Under a lock of its own, a session is not disturbed by others. -/
theorem Guards.kept_other (hf : Guards W l f) {program : Program D W L P I} {idle : P}
    {e : Event I} (hstep : Step program idle s e s') (hown : s.Owned) (hj : j ≠ e.by)
    (hl : s.owner l = some j) :
    f (s'.view j) = f (s.view j) ∧ f s'.committed = f s.committed := by
  have hcommitted : f s'.committed = f s.committed := by
    cases hstep with
    | exec hmove hfree => exact hf.committed_exec _ _ _ _
    | @commit i input next hmove =>
      exact hf.view_eq_committed hown (by rw [hl]; exact fun h ↦ hj (Option.some_inj.mp h))
    | rollback hmove => rfl
    | crash i => rfl
  refine ⟨?_, hcommitted⟩
  rcases hf.view_other hstep hown hj with ⟨hview, -⟩ | ⟨hview, hview'⟩
  · exact hview
  · rw [hview, hview', hcommitted]

theorem Step.session_other {program : Program D W L P I} {idle : P} {e : Event I}
    (hstep : Step program idle s e s') (hj : j ≠ e.by) : s'.session j = s.session j := by
  cases hstep with
  | exec hmove hfree => exact session_exec_of_ne hj _ _ _ _
  | commit hmove => exact session_close_of_ne hj _ _
  | rollback hmove => exact session_close_of_ne hj _ _
  | crash i => exact session_close_of_ne hj _ _

theorem Step.stage_other {program : Program D W L P I} {idle : P} {e : Event I}
    (hstep : Step program idle s e s') (hj : j ≠ e.by) : s'.stage j = s.stage j :=
  congrArg Session.stage (hstep.session_other hj)

/-- A guard that looks at all sessions may look at those that ever move. -/
theorem Guarded.of_below {program : Program D W L P I} {idle : P}
    {guard guard' : System D W L P → Event I → Prop} {n : ℕ} {es : List (Event I)}
    (himp : ∀ s e, (∀ j, n ≤ j → s.stage j = idle) → guard s e → guard' s e)
    (hidle : ∀ j, n ≤ j → s.stage j = idle) (hby : ∀ e ∈ es, e.by < n)
    (h : Guarded (step program idle) guard s es) : Guarded (step program idle) guard' s es := by
  induction es generalizing s with
  | nil => trivial
  | cons e es ih =>
    refine ⟨himp s e hidle h.1, fun s' hstep ↦ ih (fun j hj ↦ ?_)
      (fun e he ↦ hby e (List.mem_cons_of_mem _ he)) (h.2 s' hstep)⟩
    rw [(step_cases hstep).stage_other]
    · exact hidle j hj
    · have := hby e List.mem_cons_self
      omega

end Observations

section Basis

variable {K V : Type} (value : K → D → V) (isFinal : V → Prop) (uses pending : P → Set K)
  (sound : P → Prop) (program : Program D W L P I) (idle : P)

/-- A program that acts on the final rows it has read before they were: it
takes up no final row, rewrites none it has not taken up, and knows which rows
its open transaction has changed. -/
structure Honours : Prop where
  idle_sound : sound idle
  idle_uses : uses idle = ∅
  exec : ∀ {p : P} {input : I} {locked : L → Bool} {d : D} {w : W}
    {held shared awaited : List L} {next : P},
    program p input locked d = some (.exec w held shared awaited next) → sound p →
      sound next ∧
      (∀ k ∈ uses next, k ∈ uses p ∨ ¬isFinal (value k d)) ∧
      (∀ k, k ∉ uses p → isFinal (value k d) → value k (apply d w) = value k d) ∧
      ∀ k, k ∉ pending next → k ∉ pending p ∧ value k (apply d w) = value k d
  commit : ∀ {p : P} {input : I} {locked : L → Bool} {d : D} {next : P},
    program p input locked d = some (.commit next) → sound p →
      sound next ∧ ∀ k ∈ uses next, k ∈ uses p ∧ k ∉ pending p
  rollback : ∀ {p : P} {input : I} {locked : L → Bool} {d : D} {next : P},
    program p input locked d = some (.rollback next) → sound p → sound next ∧ uses next ⊆ uses p

/-- No commit makes a row final that another of these sessions is still acting
on. -/
def Timely (sessions : Set ℕ) (s : System D W L P) (e : Event I) : Prop :=
  ∀ i ∈ s.committer program e, ∀ j ∈ sessions, j ≠ i → ∀ k ∈ uses (s.stage j),
    isFinal (value k (s.view i)) → isFinal (value k s.committed)

/-- No session acts on a final row, and none is about to change one. -/
structure Settled (s : System D W L P) : Prop where
  owned : s.Owned
  sound : ∀ i, sound (s.stage i)
  uses : ∀ i, ∀ k ∈ uses (s.stage i), ¬isFinal (value k s.committed)
  view : ∀ i k, isFinal (value k s.committed) → value k (s.view i) = value k s.committed
  pending : ∀ i k, k ∉ pending (s.stage i) → value k (s.view i) = value k s.committed

variable {value isFinal uses pending sound program idle}

/-- Sessions that never move act on nothing. -/
theorem Timely.of_below {n : ℕ} {s : System D W L P} {e : Event I} (huses : uses idle = ∅)
    (hidle : ∀ j, n ≤ j → s.stage j = idle)
    (h : Timely value isFinal uses program (Set.Iio n) s e) :
    Timely value isFinal uses program .univ s e := by
  intro i hi j _ hj k hk
  by_cases hn : j < n
  · exact h i hi j hn hj k hk
  · rw [hidle j (not_lt.mp hn), huses] at hk
    cases hk

theorem Settled.start (hhon : Honours value isFinal uses pending sound program idle) (d : D) :
    Settled value isFinal uses pending sound (System.start d idle : System D W L P) where
  owned _ _ h := by cases h
  sound _ := hhon.idle_sound
  uses i k hk := by
    change k ∈ uses idle at hk
    rw [hhon.idle_uses] at hk
    cases hk
  view _ _ _ := rfl
  pending _ _ _ := rfl

/-- Ending a transaction over data that keeps the final rows and finishes none
another session acts on. -/
theorem Settled.close {s : System D W L P} {i : ℕ} {d : D} {next : P}
    (h : Settled value isFinal uses pending sound s)
    (hother : ∀ k, ∀ j, j ≠ i →
      value k ((s.close i d next).view j) = value k (s.view j) ∧ value k d = value k s.committed ∨
        value k ((s.close i d next).view j) = value k d ∧ value k (s.view j) = value k s.committed)
    (hnext : sound next ∧ ∀ k ∈ uses next, ¬isFinal (value k d))
    (htimely : ∀ j, j ≠ i → ∀ k ∈ uses (s.stage j),
      isFinal (value k d) → isFinal (value k s.committed)) :
    Settled value isFinal uses pending sound (s.close i d next) := by
  have hstage : ∀ j, j ≠ i → (s.close i d next).stage j = s.stage j :=
    fun j hj ↦ stage_close_of_ne hj d next
  refine ⟨Owned.close h.owned _ _, fun j ↦ ?_, fun j k hk hfin ↦ ?_, fun j k hfin ↦ ?_,
    fun j k hk ↦ ?_⟩
  · by_cases hj : j = i
    · rw [hj, stage_close_self]
      exact hnext.1
    · rw [hstage j hj]
      exact h.sound j
  · by_cases hj : j = i
    · rw [hj, stage_close_self] at hk
      exact hnext.2 k hk hfin
    · rw [hstage j hj] at hk
      exact h.uses j k hk (htimely j hj k hk hfin)
  · by_cases hj : j = i
    · rw [hj, view_close_self]
      rfl
    · rcases hother k j hj with ⟨hview, hd⟩ | ⟨hview, -⟩
      · change isFinal (value k d) at hfin
        rw [hd] at hfin
        exact hview.trans ((h.view j k hfin).trans hd.symm)
      · exact hview
  · by_cases hj : j = i
    · rw [hj, view_close_self]
      rfl
    · rw [hstage j hj] at hk
      rcases hother k j hj with ⟨hview, hd⟩ | ⟨hview, -⟩
      · exact hview.trans ((h.pending j k hk).trans hd.symm)
      · exact hview

theorem Settled.step {s s' : System D W L P} {e : Event I}
    (hhon : Honours value isFinal uses pending sound program idle)
    {lockOf : K → L} (hguard : ∀ k, Guards W (lockOf k) (value k))
    (h : Settled value isFinal uses pending sound s)
    (htimely : Timely value isFinal uses program .univ s e) (hstep : Step program idle s e s') :
    Settled value isFinal uses pending sound s' ∧
      ∀ k, isFinal (value k s.committed) → value k s'.committed = value k s.committed := by
  have hother := fun k j hj ↦ (hguard k).view_other (j := j) hstep h.owned hj
  cases hstep with
  | @exec i input w held shared awaited next hmove hfree =>
    obtain ⟨hsound, huses, hwrites, hpending⟩ := hhon.exec hmove (h.sound i)
    have hstage : ∀ j, j ≠ i → (s.exec i w held shared next).stage j = s.stage j :=
      fun j hj ↦ stage_exec_of_ne hj w held shared next
    have hcommitted : ∀ k, value k (s.exec i w held shared next).committed = value k s.committed :=
      fun k ↦ (hguard k).committed_exec _ _ _ _
    refine ⟨⟨Owned.exec h.owned hfree _ _, fun j ↦ ?_, fun j k hk ↦ ?_, fun j k hfin ↦ ?_,
      fun j k hk ↦ ?_⟩, fun k _ ↦ hcommitted k⟩
    · by_cases hj : j = i
      · rw [hj, stage_exec_self]
        exact hsound
      · rw [hstage j hj]
        exact h.sound j
    · rw [hcommitted k]
      by_cases hj : j = i
      · rw [hj, stage_exec_self] at hk
        rcases huses k hk with hk | hk
        · exact h.uses i k hk
        · exact fun hfin ↦ hk ((h.view i k hfin).symm ▸ hfin)
      · rw [hstage j hj] at hk
        exact h.uses j k hk
    · rw [hcommitted k] at hfin ⊢
      by_cases hj : j = i
      · have hview := h.view i k hfin
        rw [hj, (hguard k).view_exec_self]
        refine (hwrites k (fun hk ↦ h.uses i k hk hfin) ?_).trans hview
        rw [hview]
        exact hfin
      · rw [(hguard k).view_exec_of_ne hj]
        exact h.view j k hfin
    · rw [hcommitted k]
      by_cases hj : j = i
      · rw [hj, stage_exec_self] at hk
        obtain ⟨hk, hsame⟩ := hpending k hk
        rw [hj, (hguard k).view_exec_self, hsame]
        exact h.pending i k hk
      · rw [hstage j hj] at hk
        rw [(hguard k).view_exec_of_ne hj]
        exact h.pending j k hk
  | @commit i input next hmove =>
    obtain ⟨hsound, huses⟩ := hhon.commit hmove (h.sound i)
    have hcommitter : s.committer program (.move i input) = some i := by
      rw [System.committer, hmove]
    refine ⟨h.close hother ⟨hsound, fun k hk ↦ ?_⟩ fun j hj ↦ htimely i hcommitter j trivial hj,
      fun k hfin ↦ h.view i k hfin⟩
    obtain ⟨hk, hnone⟩ := huses k hk
    rw [h.pending i k hnone]
    exact h.uses i k hk
  | @rollback i input next hmove =>
    obtain ⟨hsound, huses⟩ := hhon.rollback hmove (h.sound i)
    exact ⟨h.close hother ⟨hsound, fun k hk ↦ h.uses i k (huses hk)⟩
      (fun _ _ _ _ hfin ↦ hfin), fun _ _ ↦ rfl⟩
  | crash i =>
    have huses : ∀ k ∈ uses idle, ¬isFinal (value k s.committed) := by
      rw [hhon.idle_uses]
      exact fun k hk ↦ absurd hk (Set.notMem_empty k)
    exact ⟨h.close hother ⟨hhon.idle_sound, huses⟩ (fun _ _ _ _ hfin ↦ hfin), fun _ _ ↦ rfl⟩

/-- In a run of timely steps every final row stays as it is. -/
theorem Settled.run {s s' : System D W L P} {es : List (Event I)}
    (hhon : Honours value isFinal uses pending sound program idle)
    {lockOf : K → L} (hguard : ∀ k, Guards W (lockOf k) (value k))
    (h : Settled value isFinal uses pending sound s)
    (htimely : Guarded (ReadCommitted.step program idle)
      (Timely value isFinal uses program .univ) s es)
    (hrun : Foundation.run (ReadCommitted.step program idle) s es = some s') :
    Settled value isFinal uses pending sound s' ∧
      ∀ k, isFinal (value k s.committed) → value k s'.committed = value k s.committed := by
  let kept : System D W L P → Prop := fun s' ↦
    Settled value isFinal uses pending sound s' ∧
      ∀ k, isFinal (value k s.committed) → value k s'.committed = value k s.committed
  refine run_invariant (P := kept) ?_ htimely hrun ⟨h, fun _ _ ↦ rfl⟩
  intro s₁ e s₂ ⟨h₁, hsame⟩ htimely hstep
  obtain ⟨h₂, hkeep⟩ := h₁.step hhon hguard htimely (step_cases hstep)
  refine ⟨h₂, fun k hfin ↦ ?_⟩
  have hfin₁ : isFinal (value k s₁.committed) := by rw [hsame k hfin]; exact hfin
  exact (hkeep k hfin₁).trans (hsame k hfin)

end Basis

end Remindo.Foundation.ReadCommitted
