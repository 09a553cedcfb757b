import Mathlib.Data.List.Forall2
import Remindo.Foundation.Runs

namespace Remindo.Foundation

variable {σ τ ι κ : Type*}

/-- On the states of an invariant each allowed step of one system is taken by
another in a few of its own, along a view of the states. -/
structure Simulation (step : σ → ι → Option σ) (step' : τ → κ → Option τ)
    (guard : σ → ι → Prop) (Inv : σ → Prop) (view : σ → τ) (shadow : ι → List κ → Prop) : Prop where
  keeps : ∀ s l s', Inv s → guard s l → step s l = some s' → Inv s'
  follows : ∀ s l s', Inv s → guard s l → step s l = some s' →
    ∃ ks, shadow l ks ∧ run step' (view s) ks = some (view s')

namespace Simulation

variable {step : σ → ι → Option σ} {step' : τ → κ → Option τ} {guard : σ → ι → Prop}
  {Inv : σ → Prop} {view : σ → τ} {shadow : ι → List κ → Prop} {s s' : σ} {ls : List ι}

/-- What is taken step by step is taken run by run. -/
theorem run_follows (h : Simulation step step' guard Inv view shadow)
    (hguard : Guarded step guard s ls) (hrun : run step s ls = some s') (hinv : Inv s) :
    ∃ kss : List (List κ), List.Forall₂ shadow ls kss ∧
      run step' (view s) kss.flatten = some (view s') := by
  induction ls generalizing s with
  | nil =>
    cases hrun
    exact ⟨[], .nil, rfl⟩
  | cons l ls ih =>
    obtain ⟨s₁, hs, hrun⟩ := Option.bind_eq_some_iff.mp hrun
    obtain ⟨ks, hks, hfirst⟩ := h.follows s l s₁ hinv hguard.1 hs
    obtain ⟨kss, hkss, hrest⟩ := ih (hguard.2 s₁ hs) hrun (h.keeps s l s₁ hinv hguard.1 hs)
    refine ⟨ks :: kss, .cons hks hkss, ?_⟩
    rw [List.flatten_cons, run_append, hfirst, Option.bind_some, hrest]

end Simulation

end Remindo.Foundation
