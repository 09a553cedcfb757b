import Mathlib.Data.Option.Basic

namespace Remindo.Foundation

variable {σ ι : Type*}

/-- Take the listed steps in turn, as long as each is enabled. -/
def run (step : σ → ι → Option σ) : σ → List ι → Option σ
  | s, [] => some s
  | s, l :: ls => (step s l).bind fun s' ↦ run step s' ls

/-- Every step of the run is taken from a state that allows it. -/
def Guarded (step : σ → ι → Option σ) (guard : σ → ι → Prop) : σ → List ι → Prop
  | _, [] => True
  | s, l :: ls => guard s l ∧ ∀ s', step s l = some s' → Guarded step guard s' ls

instance Guarded.decidable (step : σ → ι → Option σ) (guard : σ → ι → Prop)
    [∀ s l, Decidable (guard s l)] : ∀ s ls, Decidable (Guarded step guard s ls)
  | _, [] => isTrue trivial
  | s, l :: ls =>
    match h : step s l with
    | none => decidable_of_iff (guard s l) (by simp [Guarded, h])
    | some s' =>
      have := Guarded.decidable step guard s' ls
      decidable_of_iff (guard s l ∧ Guarded step guard s' ls) (by simp [Guarded, h])

variable {step : σ → ι → Option σ} {guard : σ → ι → Prop}

theorem run_append (s : σ) (ls ls' : List ι) :
    run step s (ls ++ ls') = (run step s ls).bind fun s' ↦ run step s' ls' := by
  induction ls generalizing s with
  | nil => rfl
  | cons l ls ih =>
    rw [List.cons_append, run, run, Option.bind_assoc]
    exact Option.bind_congr fun s' _ ↦ ih s'

theorem Guarded.append_left {s : σ} {ls ls' : List ι} (h : Guarded step guard s (ls ++ ls')) :
    Guarded step guard s ls := by
  induction ls generalizing s with
  | nil => trivial
  | cons l ls ih => exact ⟨h.1, fun s' hs ↦ ih (h.2 s' hs)⟩

theorem Guarded.append_right {s s' : σ} {ls ls' : List ι}
    (h : Guarded step guard s (ls ++ ls')) (hrun : run step s ls = some s') :
    Guarded step guard s' ls' := by
  induction ls generalizing s with
  | nil =>
    cases hrun
    exact h
  | cons l ls ih =>
    obtain ⟨s₁, hstep, hrun⟩ := Option.bind_eq_some_iff.mp hrun
    exact ih (h.2 s₁ hstep) hrun

theorem Guarded.of_forall {s : σ} {ls : List ι} (h : ∀ s l, guard s l) :
    Guarded step guard s ls := by
  induction ls generalizing s with
  | nil => trivial
  | cons l ls ih => exact ⟨h s l, fun s' _ ↦ ih⟩

theorem Guarded.of_mem {p : ι → Prop} {s : σ} {ls : List ι} (h : ∀ l ∈ ls, p l) :
    Guarded step (fun _ l ↦ p l) s ls := by
  induction ls generalizing s with
  | nil => trivial
  | cons l ls ih =>
    exact ⟨h l List.mem_cons_self, fun s' _ ↦ ih fun l hl ↦ h l (List.mem_cons_of_mem _ hl)⟩

theorem Guarded.mono {guard' : σ → ι → Prop} {s : σ} {ls : List ι} (h : Guarded step guard s ls)
    (himp : ∀ s, ∀ l ∈ ls, guard s l → guard' s l) : Guarded step guard' s ls := by
  induction ls generalizing s with
  | nil => trivial
  | cons l ls ih =>
    refine ⟨himp s l List.mem_cons_self h.1, fun s' hs ↦ ih (h.2 s' hs) ?_⟩
    exact fun s l hl ↦ himp s l (List.mem_cons_of_mem _ hl)

theorem Guarded.and_forall {p : ι → Prop} {s : σ} {ls : List ι} (h : Guarded step guard s ls)
    (hall : ∀ l ∈ ls, p l) : Guarded step (fun s l ↦ guard s l ∧ p l) s ls :=
  h.mono fun _ l hl hguard ↦ ⟨hguard, hall l hl⟩

/-- What every allowed step preserves holds wherever an allowed run ends. -/
theorem run_invariant {P : σ → Prop}
    (hstep : ∀ s l s', P s → guard s l → step s l = some s' → P s')
    {s s' : σ} {ls : List ι} (hguard : Guarded step guard s ls) (hrun : run step s ls = some s')
    (h : P s) : P s' := by
  induction ls generalizing s with
  | nil =>
    cases hrun
    exact h
  | cons l ls ih =>
    obtain ⟨s₁, hs, hrun⟩ := Option.bind_eq_some_iff.mp hrun
    exact ih (hguard.2 s₁ hs) hrun (hstep s l s₁ h hguard.1 hs)

/-- What every step preserves, allowed or not, holds wherever a run ends. -/
theorem run_preserves {P : σ → Prop} (hstep : ∀ s l s', P s → step s l = some s' → P s')
    {s s' : σ} {ls : List ι} (hrun : run step s ls = some s') (h : P s) : P s' := by
  have hfree : Guarded step (fun _ _ ↦ True) s ls := .of_forall fun _ _ ↦ trivial
  exact run_invariant (fun s l s' h _ hs ↦ hstep s l s' h hs) hfree hrun h

/-- Where a guard is all it takes to keep `P`, a run is guarded exactly if `P`
holds all along it. -/
theorem guarded_iff {P : σ → Prop}
    (hstep : ∀ s l s', P s → guard s l → step s l = some s' → P s')
    (hback : ∀ s l, (∀ s', step s l = some s' → P s') → guard s l) {s : σ} {ls : List ι} (h : P s) :
    Guarded step guard s ls ↔
      ∀ early late s', ls = early ++ late → run step s early = some s' → P s' := by
  constructor
  · rintro hguard early late s' rfl hrun
    exact run_invariant hstep hguard.append_left hrun h
  · intro hall
    induction ls generalizing s with
    | nil => trivial
    | cons l ls ih =>
      have hnext : ∀ s', step s l = some s' → P s' := fun s' hs ↦
        hall [l] ls s' rfl (by rw [run, hs]; rfl)
      refine ⟨hback s l hnext, fun s' hs ↦ ih (hnext s' hs) fun early late s'' heq hrun ↦ ?_⟩
      exact hall (l :: early) late s'' (by rw [heq, List.cons_append]) (by rw [run, hs]; exact hrun)

/-- The same along a run, whose steps are all enabled. -/
theorem guarded_iff_of_run {P : σ → Prop}
    (hstep : ∀ s l s', P s → step s l = some s' → (P s' ↔ guard s l)) {s s' : σ} {ls : List ι}
    (hrun : run step s ls = some s') (h : P s) : Guarded step guard s ls ↔
      ∀ early late s₁, ls = early ++ late → run step s early = some s₁ → P s₁ := by
  constructor
  · rintro hguard early late s₁ rfl hearly
    exact run_invariant (fun s l s' h hg hs ↦ (hstep s l s' h hs).mpr hg) hguard.append_left hearly h
  · intro hall
    induction ls generalizing s with
    | nil => trivial
    | cons l ls ih =>
      obtain ⟨s₁, hs, hrun⟩ := Option.bind_eq_some_iff.mp hrun
      have hnext : P s₁ := hall [l] ls s₁ rfl (by rw [run, hs]; rfl)
      refine ⟨(hstep s l s₁ h hs).mp hnext, fun s₂ hs₂ ↦ ?_⟩
      cases hs.symm.trans hs₂
      refine ih hrun hnext fun early late s₂ heq hearly ↦ ?_
      exact hall (l :: early) late s₂ (by rw [heq, List.cons_append]) (by rw [run, hs]; exact hearly)

section Logs

variable {α : Type*} {Q : α → Prop} {l l' l'' : List α}

/-- A log that has grown by entries of the kind. -/
def Appends (Q : α → Prop) (l l' : List α) : Prop := ∃ new, l' = l ++ new ∧ ∀ a ∈ new, Q a

theorem Appends.of_eq (h : l' = l) : Appends Q l l' := ⟨[], by rw [h, List.append_nil], by simp⟩

theorem Appends.trans (h : Appends Q l l') (h' : Appends Q l' l'') : Appends Q l l'' := by
  obtain ⟨new, heq, hnew⟩ := h
  obtain ⟨new', heq', hnew'⟩ := h'
  refine ⟨new ++ new', by rw [heq', heq, List.append_assoc], fun a ha ↦ ?_⟩
  exact (List.mem_append.mp ha).elim (hnew a) (hnew' a)

end Logs

end Remindo.Foundation
