import Remindo.Foundation.Table

namespace Remindo.Foundation

namespace Table

variable {α : Type} {q q' : α → Prop} {t t' t'' : Table α}

/-- The tables have the same rows of the kind, at the same ids. -/
def SameOn (q : α → Prop) (t t' : Table α) : Prop := ∀ i r, q r → (t' i = some r ↔ t i = some r)

theorem SameOn.refl : t.SameOn q t := fun _ _ _ ↦ Iff.rfl

theorem SameOn.trans (h : t.SameOn q t') (h' : t'.SameOn q' t'') (hq : ∀ r, q r → q' r) :
    t.SameOn q t'' := fun i r hr ↦ (h' i r (hq r hr)).trans (h i r hr)

theorem sameOn_insert {r : α} (hr : ¬q r) : t.SameOn q (t.writes (t.insert [r])) := by
  intro i s hs
  constructor
  · intro h
    rcases insert_some h with hold | ⟨-, rfl⟩
    · exact hold
    · exact absurd hs hr
  · intro h
    rw [writes_insert, if_pos (lt_next h), h]

theorem sameOn_insertMissing {κ : Type} [DecidableEq κ] {key : α → κ} {rs : List α}
    (hrs : ∀ r ∈ rs, ¬q r) : t.SameOn q (t.writes (t.insertMissing key rs)) := by
  intro i s hs
  constructor
  · intro h
    rcases insertMissing_some h with hold | ⟨-, hmem, -⟩
    · exact hold
    · exact absurd hs (hrs s hmem)
  · exact insertMissing_kept

theorem sameOn_update {i : ℕ} {f : α → α} (hf : ∀ r, t i = some r → ¬q r ∧ ¬q (f r)) :
    t.SameOn q (t.writes (t.update i f)) := by
  intro j s hs
  rw [writes_update]
  split
  · rename_i hj
    subst hj
    cases hr : t j with
    | none => simp
    | some r =>
      obtain ⟨hbefore, hafter⟩ := hf r hr
      have hne : f r ≠ s := fun heq ↦ hafter (heq ▸ hs)
      have hne' : r ≠ s := fun heq ↦ hbefore (heq ▸ hs)
      simp [hne, hne']
  · exact Iff.rfl

theorem sameOn_updateWhere (t : Table α) (p : ℕ → α → Bool) (f : α → α)
    (hf : ∀ i r, p i r = true → ¬q r ∧ ¬q (f r)) : t.SameOn q (t.writes (t.updateWhere p f)) := by
  intro i s hs
  rw [writes_updateWhere]
  cases hr : t i with
  | none => simp
  | some r =>
    rw [Option.map_some]
    split
    · rename_i hp
      obtain ⟨hbefore, hafter⟩ := hf i r hp
      have hne : f r ≠ s := fun heq ↦ hafter (heq ▸ hs)
      have hne' : r ≠ s := fun heq ↦ hbefore (heq ▸ hs)
      simp [hne, hne']
    · exact Iff.rfl

theorem sameOn_deleteWhere {p : ℕ → α → Bool} (hp : ∀ i r, p i r = true → ¬q r) :
    t.SameOn q (t.writes (t.deleteWhere p)) := by
  intro i s hs
  rw [writes_deleteWhere, Option.filter_eq_some_iff]
  refine ⟨And.left, fun h ↦ ⟨h, ?_⟩⟩
  rw [Bool.not_eq_true']
  exact eq_false_of_ne_true fun hgone ↦ hp i s hgone hs

end Table

end Remindo.Foundation
