import Remindo.Foundation.Runs
import Remindo.Foundation.Table

namespace Remindo.Foundation

section Exit

variable {σ ι : Type*} {step : σ → ι → Option σ} {guard : σ → ι → Prop} {serves : ι → Bool} {n : ℕ}

/-- A wait that each round of service shortens by `n`, and nothing lengthens, ends
before `n` times the rounds exceed it: some step of the run lets go of what waits. -/
theorem exists_exit (Waiting : σ → Prop) (ahead : σ → ℕ)
    (hstep : ∀ s l s', Waiting s → guard s l → step s l = some s' → Waiting s' →
      ahead s' + (if serves l then n else 0) ≤ ahead s)
    {s s' : σ} {ls : List ι} (hguard : Guarded step guard s ls) (hrun : run step s ls = some s')
    (h : Waiting s) (hserved : ahead s < ls.countP serves * n) :
    ∃ early l late s₁ s₂, ls = early ++ l :: late ∧ run step s early = some s₁ ∧ Waiting s₁ ∧
      guard s₁ l ∧ step s₁ l = some s₂ ∧ ¬Waiting s₂ ∧ run step s₂ late = some s' := by
  induction ls generalizing s with
  | nil => exact absurd hserved (by simp)
  | cons l ls ih =>
    obtain ⟨s₁, hs, hrun⟩ := Option.bind_eq_some_iff.mp hrun
    by_cases hwait : Waiting s₁
    · have hahead := hstep s l s₁ h hguard.1 hs hwait
      have hleft : ahead s₁ < ls.countP serves * n := by
        rw [List.countP_cons, Nat.add_mul] at hserved
        cases hserves : serves l with
        | true =>
          rw [hserves, if_pos rfl] at hahead hserved
          omega
        | false =>
          rw [hserves, if_neg (by simp)] at hahead hserved
          omega
      obtain ⟨early, l', late, s₂, s₃, rfl, hearly, hrest⟩ := ih (hguard.2 s₁ hs) hrun hwait hleft
      exact ⟨l :: early, l', late, s₂, s₃, rfl, by rw [run, hs]; exact hearly, hrest⟩
    · exact ⟨[], l, ls, s, s₁, rfl, rfl, h, hguard.1, hs, hwait, hrun⟩

end Exit

section Onset

variable {σ ι : Type*} {step : σ → ι → Option σ}

/-- What nothing but `Comes` can bring about has been there all along, or `Comes`
at some point of the run. -/
theorem exists_onset (Kept Comes Stays : σ → Prop)
    (hkept : ∀ s l s', Kept s → step s l = some s' → Kept s')
    (hstep : ∀ s l s', Kept s → step s l = some s' → Stays s' → Stays s ∨ Comes s')
    {s s' : σ} {ls : List ι} (hrun : run step s ls = some s') (h : Kept s) (hlast : Stays s') :
    Stays s ∨ ∃ early late s₁, ls = early ++ late ∧ run step s early = some s₁ ∧ Comes s₁ := by
  induction ls generalizing s with
  | nil =>
    cases hrun
    exact .inl hlast
  | cons l ls ih =>
    obtain ⟨s₁, hs, hrun⟩ := Option.bind_eq_some_iff.mp hrun
    rcases ih hrun (hkept s l s₁ h hs) with hstays | ⟨early, late, s₂, rfl, hearly, hcomes⟩
    · refine (hstep s l s₁ h hs hstays).imp_right fun hcomes ↦ ⟨[l], ls, s₁, rfl, ?_, hcomes⟩
      rw [run, hs]
      rfl
    · exact .inr ⟨l :: early, late, s₂, rfl, by rw [run, hs]; exact hearly, hcomes⟩

end Onset

namespace Table

variable {α β : Type}

/-- Rows that are served are off the count, as long as no others join it. -/
theorem length_select_add_le {t : Table α} {u : Table β} {p : ℕ → α → Bool} {q : ℕ → β → Bool}
    (served : List ℕ) (hnodup : served.Nodup) (hserved : ∀ i ∈ served, (t i).any (p i) = true)
    (hleft : ∀ i, (u i).any (q i) = true → (t i).any (p i) = true ∧ i ∉ served) :
    (u.select q).length + served.length ≤ (t.select p).length := by
  have hmem : ∀ {γ : Type} {t : Table γ} {p : ℕ → γ → Bool} {i : ℕ},
      i ∈ (t.select p).map Prod.fst ↔ (t i).any (p i) = true := by
    intro γ t p i
    rw [List.mem_map, Option.any_eq_true]
    constructor
    · rintro ⟨⟨_, r⟩, hr, rfl⟩
      exact ⟨r, mem_select.mp hr⟩
    · rintro ⟨r, hr, hp⟩
      exact ⟨(i, r), mem_select.mpr ⟨hr, hp⟩, rfl⟩
  have hids : ((u.select q).map Prod.fst ++ served).Nodup := by
    refine List.nodup_append'.mpr ⟨u.nodup_select_ids q, hnodup, fun i hi hi' ↦ ?_⟩
    exact (hleft i (hmem.mp hi)).2 hi'
  have hsub : (u.select q).map Prod.fst ++ served ⊆ (t.select p).map Prod.fst := by
    intro i hi
    rcases List.mem_append.mp hi with hi | hi
    · exact hmem.mpr (hleft i (hmem.mp hi)).1
    · exact hmem.mpr (hserved i hi)
  have hle := hids.length_le_of_subset hsub
  rwa [List.length_append, List.length_map, List.length_map] at hle

end Table

end Remindo.Foundation
