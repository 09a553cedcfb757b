import Remindo.Foundation.Table

namespace Remindo.Foundation.Table

section Keys

variable {α β κ : Type} {t t' : Table α} {p p' : Table β} {f : α → ℕ} {key : α → κ}
  {part : α → Option κ}

/-- A foreign key: every row names a row of the parent table. -/
def Refers (t : Table α) (f : α → ℕ) (p : Table β) : Prop :=
  ∀ i r, t i = some r → ∃ s, p (f r) = some s

/-- New rows bring their parent along, and no parent is lost. -/
theorem Refers.step (h : t.Refers f p)
    (hback : ∀ i r, t' i = some r → (∃ r', t i = some r' ∧ f r' = f r) ∨ ∃ s, p' (f r) = some s)
    (hparent : ∀ k s, p k = some s → ∃ s', p' k = some s') : t'.Refers f p' := by
  intro i r hr
  rcases hback i r hr with ⟨r', hr', heq⟩ | hnew
  · obtain ⟨s, hs⟩ := h i r' hr'
    exact heq ▸ hparent _ s hs
  · exact hnew

/-- `ON DELETE CASCADE`: what stays has kept its parent. -/
theorem Refers.cascade (h : t.Refers f p) {gone : ℕ → β → Bool}
    (hparent : ∀ k, p' k = (p k).filter fun s ↦ !gone k s)
    (hchild : ∀ i, t' i = (t i).filter fun r ↦ !(p (f r)).any (gone (f r))) : t'.Refers f p' := by
  intro i r hr
  rw [hchild, Option.filter_eq_some_iff] at hr
  obtain ⟨s, hs⟩ := h i r hr.1
  have hkept := hr.2
  simp only [hs, Option.any_some] at hkept
  exact ⟨s, by rw [hparent, hs, Option.filter_some, if_pos hkept]⟩

/-- The same for a single row of the parent table. -/
theorem Refers.delete (h : t.Refers f p) {n : ℕ} (hparent : ∀ k, p' k = if k = n then none else p k)
    (hchild : ∀ i, t' i = (t i).filter fun r ↦ !decide (f r = n)) : t'.Refers f p' := by
  intro i r hr
  rw [hchild, Option.filter_eq_some_iff] at hr
  obtain ⟨s, hs⟩ := h i r hr.1
  have hkept : f r ≠ n := by simpa using hr.2
  exact ⟨s, by rw [hparent, if_neg hkept, hs]⟩

theorem Unique.of_back (h : t.Unique key)
    (hback : ∀ i r, t' i = some r → ∃ r', t i = some r' ∧ key r' = key r) : t'.Unique key := by
  intro i j r s hr hs hkey
  obtain ⟨r', hr', heq⟩ := hback i r hr
  obtain ⟨s', hs', heq'⟩ := hback j s hs
  exact h i j r' s' hr' hs' (heq.trans (hkey.trans heq'.symm))

theorem Unique.filter (h : t.Unique key) {q : ℕ → α → Bool} (hrows : ∀ i, t' i = (t i).filter (q i)) :
    t'.Unique key := by
  refine h.of_back fun i r hr ↦ ?_
  rw [hrows, Option.filter_eq_some_iff] at hr
  exact ⟨r, hr.1, rfl⟩

theorem UniqueOn.filter (h : t.UniqueOn part) {q : ℕ → α → Bool}
    (hrows : ∀ i, t' i = (t i).filter (q i)) : t'.UniqueOn part := by
  intro i j r s k hr hs
  rw [hrows, Option.filter_eq_some_iff] at hr hs
  exact h i j r s k hr.1 hs.1

/-- One row may come in under a key that nobody has. -/
theorem Unique.step (h : t.Unique key) {n : ℕ}
    (hback : ∀ i r, t' i = some r → (∃ r', t i = some r' ∧ key r' = key r) ∨
      i = n ∧ ∀ j s, t j = some s → key s ≠ key r) : t'.Unique key := by
  intro i j r s hr hs hkey
  rcases hback i r hr with ⟨r', hr', heq⟩ | ⟨hi, hnew⟩
  · rcases hback j s hs with ⟨s', hs', heq'⟩ | ⟨-, hnew⟩
    · exact h i j r' s' hr' hs' (heq.trans (hkey.trans heq'.symm))
    · exact absurd (heq.trans hkey) (hnew i r' hr')
  · rcases hback j s hs with ⟨s', hs', heq'⟩ | ⟨hj, -⟩
    · exact absurd (heq'.trans hkey.symm) (hnew j s' hs')
    · exact hi.trans hj.symm

theorem UniqueOn.step (h : t.UniqueOn part) {n : ℕ}
    (hback : ∀ i r k, t' i = some r → part r = some k → (∃ r', t i = some r' ∧ part r' = some k) ∨
      i = n ∧ ∀ j s, t' j = some s → j ≠ n → part s ≠ some k) : t'.UniqueOn part := by
  intro i j r s k hr hs hrk hsk
  by_contra hne
  rcases hback i r k hr hrk with ⟨r', hr', hrk'⟩ | ⟨hi, hnew⟩
  · rcases hback j s k hs hsk with ⟨s', hs', hsk'⟩ | ⟨hj, hnew⟩
    · exact hne (h i j r' s' k hr' hs' hrk' hsk')
    · exact hnew i r hr (hj ▸ hne) hrk
  · exact hnew j s hs (fun hj ↦ hne (hi.trans hj.symm)) hsk

end Keys

section Ids

variable {α : Type} {t : Table α} {i : ℕ}

/-- The row has been deleted; its id is never given again. -/
def Spent (t : Table α) (i : ℕ) : Prop := t i = none ∧ i < t.next

theorem Spent.update (h : t.Spent i) (k : ℕ) (f : α → α) : (t.writes (t.update k f)).Spent i := by
  refine ⟨?_, Nat.lt_of_lt_of_le h.2 (next_le_writes ..)⟩
  rw [writes_update]
  split
  · rename_i hi
    rw [← hi, h.1, Option.map_none]
  · exact h.1

theorem Spent.insert (h : t.Spent i) (rs : List α) : (t.writes (t.insert rs)).Spent i := by
  refine ⟨?_, Nat.lt_of_lt_of_le h.2 (next_le_writes ..)⟩
  rw [writes_insert, if_pos h.2, h.1]

theorem Spent.deleteWhere (h : t.Spent i) (p : ℕ → α → Bool) :
    (t.writes (t.deleteWhere p)).Spent i := by
  refine ⟨?_, Nat.lt_of_lt_of_le h.2 (next_le_writes ..)⟩
  rw [writes_deleteWhere, h.1, Option.filter_none]

theorem spent_deleteWhere {p : ℕ → α → Bool} {r : α} (hr : t i = some r) (hp : p i r = true) :
    (t.writes (t.deleteWhere p)).Spent i := by
  refine ⟨?_, Nat.lt_of_lt_of_le (lt_next hr) (next_le_writes ..)⟩
  rw [writes_deleteWhere, hr, Option.filter_some, hp]
  rfl

end Ids

end Remindo.Foundation.Table
