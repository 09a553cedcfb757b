import Mathlib.Data.List.Basic
import Remindo.Foundation.Text

namespace Remindo.Foundation.Base64

abbrev Byte := Fin 256
abbrev Sextet := Fin 64

/-- Three bytes make four sextets; what is left over is filled up with zeros. -/
def sextets : List Byte → List Sextet
  | [] => []
  | [a] => [⟨a / 4, by omega⟩, ⟨a % 4 * 16, by omega⟩]
  | [a, b] => [⟨a / 4, by omega⟩, ⟨a % 4 * 16 + b / 16, by omega⟩, ⟨b % 16 * 4, by omega⟩]
  | a :: b :: c :: rest =>
    ⟨a / 4, by omega⟩ :: ⟨a % 4 * 16 + b / 16, by omega⟩ :: ⟨b % 16 * 4 + c / 64, by omega⟩ ::
      ⟨c % 64, by omega⟩ :: sextets rest

/-- The letters, the digits and two more, as urls may carry them. -/
def urlsafe : Text :=
  "ABCDEFGHIJKLMNOPQRSTUVWXYZabcdefghijklmnopqrstuvwxyz0123456789-_".toList

def letter (s : Sextet) : Char := urlsafe.getD s '='

/-- `urlsafe_b64encode`: padded to a multiple of four. -/
def encode (bytes : List Byte) : Text :=
  (sextets bytes).map letter ++ List.replicate ((3 - bytes.length % 3) % 3) '='

theorem length_sextets (bytes : List Byte) :
    (sextets bytes).length = (4 * bytes.length + 2) / 3 := by
  induction bytes using sextets.induct with
  | case1 => rfl
  | case2 a => simp [sextets]
  | case3 a b => simp [sextets]
  | case4 a b c rest ih =>
    simp only [sextets, List.length_cons, ih]
    omega

theorem length_eq_of_sextets {bytes bytes' : List Byte} (h : sextets bytes = sextets bytes') :
    bytes.length = bytes'.length := by
  have hlength := congrArg List.length h
  rw [length_sextets, length_sextets] at hlength
  omega

theorem sextets_injective : Function.Injective sextets := by
  intro bytes bytes' h
  have hlength := length_eq_of_sextets h
  induction bytes using sextets.induct generalizing bytes' with
  | case1 => exact (List.length_eq_zero_iff.mp hlength.symm).symm
  | case2 a =>
    obtain ⟨a', rfl⟩ := List.length_eq_one_iff.mp hlength.symm
    simp only [sextets, List.cons.injEq, Fin.mk.injEq] at h
    rw [Fin.ext (show a.val = a' by omega)]
  | case3 a b =>
    obtain ⟨a', b', rfl⟩ := List.length_eq_two.mp hlength.symm
    simp only [sextets, List.cons.injEq, Fin.mk.injEq] at h
    rw [Fin.ext (show a.val = a' by omega), Fin.ext (show b.val = b' by omega)]
  | case4 a b c rest ih =>
    obtain ⟨a', b', c', rest', rfl⟩ : ∃ a' b' c' rest', bytes' = a' :: b' :: c' :: rest' := by
      rcases bytes' with _ | ⟨a', _ | ⟨b', _ | ⟨c', rest'⟩⟩⟩
      · cases hlength
      · simp at hlength
      · simp at hlength
      · exact ⟨a', b', c', rest', rfl⟩
    simp only [sextets, List.cons.injEq, Fin.mk.injEq] at h
    rw [Fin.ext (show a.val = a' by omega), Fin.ext (show b.val = b' by omega),
      Fin.ext (show c.val = c' by omega), ih h.2.2.2.2 (length_eq_of_sextets h.2.2.2.2)]

theorem idxOf_letter : ∀ s : Sextet, urlsafe.idxOf (letter s) = s := by decide +kernel

theorem letter_injective : Function.Injective letter := fun s t h ↦
  Fin.ext (by rw [← idxOf_letter s, ← idxOf_letter t, h])

theorem letter_ne : ∀ s : Sextet, letter s ≠ '=' := by decide +kernel

/-- The padding is all that a strip takes away. -/
theorem rstripOf_encode (bytes : List Byte) :
    Text.rstripOf '=' (encode bytes) = (sextets bytes).map letter := by
  have hpadding : '=' ∉ (sextets bytes).map letter := by
    intro hmem
    obtain ⟨s, -, hs⟩ := List.mem_map.mp hmem
    exact letter_ne s hs
  rw [encode, Text.rstripOf_append_replicate hpadding]

end Remindo.Foundation.Base64
