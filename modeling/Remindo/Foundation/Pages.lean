import Mathlib.Data.List.Nodup
import Mathlib.Data.Nat.Basic

namespace Remindo.Foundation

section Pages

variable {α : Type} {l : List α} {size page page' : ℕ}

/-- The rows a screen shows of a list: `LIMIT size OFFSET page * size`. -/
def pageOf (size page : ℕ) (l : List α) : List α := (l.drop (page * size)).take size

/-- How many pages there are, one at least. -/
def pageCount (total size : ℕ) : ℕ := max 1 ((total + size - 1) / size)

theorem mem_pageOf_iff (hsize : 0 < size) {a : α} :
    a ∈ pageOf size page l ↔ ∃ k, l[k]? = some a ∧ k / size = page := by
  rw [pageOf, List.mem_iff_getElem?]
  constructor
  · rintro ⟨i, hi⟩
    rw [List.getElem?_take] at hi
    split at hi
    · rename_i hlt
      rw [List.getElem?_drop] at hi
      refine ⟨page * size + i, hi, ?_⟩
      rw [Nat.mul_comm, Nat.mul_add_div hsize, Nat.div_eq_of_lt hlt, Nat.add_zero]
    · cases hi
  · rintro ⟨k, hk, rfl⟩
    refine ⟨k % size, ?_⟩
    rw [List.getElem?_take, if_pos (Nat.mod_lt k hsize), List.getElem?_drop, Nat.mul_comm,
      Nat.div_add_mod]
    exact hk

/-- What occurs once in the list is on one page. -/
theorem existsUnique_page (hsize : 0 < size) (hnodup : l.Nodup) {a : α} (ha : a ∈ l) :
    ∃! page, page < pageCount l.length size ∧ a ∈ pageOf size page l := by
  obtain ⟨k, hlt, hk⟩ := List.mem_iff_getElem.mp ha
  have hrow : l[k]? = some a := by rw [List.getElem?_eq_getElem hlt, hk]
  refine ⟨k / size, ⟨?_, (mem_pageOf_iff hsize).mpr ⟨k, hrow, rfl⟩⟩, fun page hpage ↦ ?_⟩
  · have hceil : k / size < (l.length + size - 1) / size := by
      rw [Nat.div_lt_iff_lt_mul hsize]
      have := Nat.lt_div_mul_add (a := l.length + size - 1) hsize
      omega
    exact Nat.lt_of_lt_of_le hceil (Nat.le_max_right ..)
  · obtain ⟨k', hrow', rfl⟩ := (mem_pageOf_iff hsize).mp hpage.2
    obtain ⟨hlt', hk'⟩ := List.getElem?_eq_some_iff.mp hrow'
    rw [hnodup.getElem_inj_iff.mp (hk'.trans hk.symm)]

theorem pairwise_pageOf {R : α → α → Prop} (h : l.Pairwise R) : (pageOf size page l).Pairwise R :=
  (h.sublist (List.drop_sublist ..)).sublist (List.take_sublist ..)

/-- An earlier page comes first. -/
theorem pageOf_before {R : α → α → Prop} (h : l.Pairwise R) (hsize : 0 < size) (hlt : page < page')
    {a b : α} (ha : a ∈ pageOf size page l) (hb : b ∈ pageOf size page' l) : R a b := by
  obtain ⟨k, hk, rfl⟩ := (mem_pageOf_iff hsize).mp ha
  obtain ⟨k', hk', rfl⟩ := (mem_pageOf_iff hsize).mp hb
  obtain ⟨hklt, rfl⟩ := List.getElem?_eq_some_iff.mp hk
  obtain ⟨hklt', rfl⟩ := List.getElem?_eq_some_iff.mp hk'
  refine List.pairwise_iff_getElem.mp h k k' hklt hklt' ?_
  by_contra hle
  exact absurd (Nat.div_le_div_right (c := size) (Nat.le_of_not_lt hle)) (Nat.not_le.mpr hlt)

end Pages

end Remindo.Foundation
