import Mathlib.Data.Nat.Digits.Defs
import Remindo.Foundation.Text

namespace Remindo.Foundation

/-- What Unicode says of digits: the value of a decimal one (`\d`), and whether
`str.isdigit` holds of a character. -/
structure Digits where
  value : Char → Option (Fin 10)
  isDigit : Char → Bool
  value_ascii : ∀ c : Char, c.toNat < 128 →
    value c = if c.isDigit then some (Fin.ofNat 10 (c.toNat - 48)) else none
  value_space : ∀ c, Text.isSpace c = true → value c = none
  isDigit_ascii : ∀ c : Char, c.toNat < 128 → isDigit c = c.isDigit
  isDigit_of_value : ∀ c, (value c).isSome = true → isDigit c = true

namespace Digits

def ascii : Digits where
  value c := if c.isDigit then some (Fin.ofNat 10 (c.toNat - 48)) else none
  isDigit := Char.isDigit
  value_ascii _ _ := rfl
  value_space c h := by
    rw [if_neg]
    intro hdigit
    simp only [Char.isDigit, Bool.and_eq_true, decide_eq_true_eq, UInt32.le_iff_toNat_le] at hdigit
    change 48 ≤ c.toNat ∧ c.toNat ≤ 57 at hdigit
    simp only [Text.isSpace, Bool.or_eq_true, decide_eq_true_eq] at h
    omega
  isDigit_ascii _ _ := rfl
  isDigit_of_value c h := by
    by_contra hdigit
    rw [if_neg hdigit] at h
    cases h

variable (digits : Digits)

def isDecimal (c : Char) : Bool := (digits.value c).isSome

/-- `str.isdigit` of a text. -/
def isdigit (text : Text) : Bool := decide (text ≠ []) && text.all digits.isDigit

/-- The digits that follow a number read so far, one underscore at a time. -/
def numeralFrom : ℕ → Text → Option ℕ
  | n, [] => some n
  | n, '_' :: c :: cs => (digits.value c).bind fun k ↦ numeralFrom (10 * n + k) cs
  | n, c :: cs => (digits.value c).bind fun k ↦ numeralFrom (10 * n + k) cs

def numeral : Text → Option ℕ
  | [] => none
  | c :: cs => (digits.value c).bind fun k ↦ digits.numeralFrom k cs

/-- `int` of a text; `none` where it raises. -/
def int (text : Text) : Option ℤ :=
  match Text.strip text with
  | '-' :: cs => (digits.numeral cs).map fun n ↦ -(n : ℤ)
  | '+' :: cs => (digits.numeral cs).map Int.ofNat
  | cs => (digits.numeral cs).map Int.ofNat

variable {digits} {c : Char} {text : Text}

theorem toNat_of_isDigit (h : c.isDigit = true) : 48 ≤ c.toNat ∧ c.toNat ≤ 57 := by
  simp only [Char.isDigit, Bool.and_eq_true, decide_eq_true_eq, UInt32.le_iff_toNat_le] at h
  exact h

theorem exists_digitChar (h : c.isDigit = true) : ∃ k : Fin 10, c = k.val.digitChar := by
  have hall : ∀ k < 10, Nat.digitChar k = Char.ofNat (48 + k) := by decide
  have hrange := toNat_of_isDigit h
  refine ⟨⟨c.toNat - 48, by omega⟩, ?_⟩
  rw [hall _ (by omega), Nat.add_sub_cancel' hrange.1, Char.ofNat_toNat]

theorem value_of_isDigit (h : c.isDigit = true) :
    digits.value c = some (Fin.ofNat 10 (c.toNat - 48)) := by
  have := toNat_of_isDigit h
  rw [digits.value_ascii c (by omega), if_pos h]

theorem not_isSpace_of_isDecimal (h : digits.isDecimal c = true) : Text.isSpace c = false := by
  refine eq_false_of_ne_true fun hspace ↦ ?_
  rw [isDecimal, digits.value_space c hspace] at h
  cases h

theorem isDecimal_ascii (h : c.toNat < 128) : digits.isDecimal c = c.isDigit := by
  rw [isDecimal, digits.value_ascii c h]
  cases c.isDigit <;> rfl

theorem isDecimal_of_isDigit (h : c.isDigit = true) : digits.isDecimal c = true := by
  have := toNat_of_isDigit h
  rw [isDecimal_ascii (by omega), h]

theorem ne_of_isDecimal (h : digits.isDecimal c = true) {d : Char} (hascii : d.toNat < 128)
    (hd : d.isDigit = false) : c ≠ d := by
  rintro rfl
  rw [isDecimal_ascii hascii, hd] at h
  cases h

theorem numeralFrom_cons (hc : c ≠ '_') (n : ℕ) (text : Text) :
    digits.numeralFrom n (c :: text) =
      (digits.value c).bind fun k ↦ digits.numeralFrom (10 * n + k) text := by
  rw [numeralFrom]
  simp [hc]

theorem numeralFrom_digits (h : ∀ c ∈ text, c.isDigit = true) (n : ℕ) :
    digits.numeralFrom n text = some (Nat.ofDigitChars 10 text n) := by
  induction text generalizing n with
  | nil => rw [numeralFrom, Nat.ofDigitChars_nil]
  | cons c text ih =>
    have hc := h c List.mem_cons_self
    have hrange := toNat_of_isDigit hc
    have hvalue : (Fin.ofNat 10 (c.toNat - 48)).val = c.toNat - '0'.toNat :=
      Nat.mod_eq_of_lt (show c.toNat - 48 < 10 by omega)
    rw [numeralFrom_cons (by rintro rfl; cases hc), value_of_isDigit hc, Option.bind_some,
      ih (fun d hd ↦ h d (List.mem_cons_of_mem c hd)), Nat.ofDigitChars_cons, hvalue]

theorem numeral_digits (hne : text ≠ []) (h : ∀ c ∈ text, c.isDigit = true) :
    digits.numeral text = some (Nat.ofDigitChars 10 text 0) := by
  have hfrom := @numeralFrom_digits digits text h 0
  cases text with
  | nil => exact absurd rfl hne
  | cons c text =>
    rw [numeralFrom_cons (by rintro rfl; cases h _ List.mem_cons_self)] at hfrom
    simpa [numeral] using hfrom

/-- Digits stand for themselves, whitespace around them for nothing. -/
theorem int_eq_numeral (h : ∀ c ∈ text, digits.isDecimal c = true) :
    digits.int text = (digits.numeral text).map Int.ofNat := by
  rw [int, Text.strip_eq_self fun c hc ↦ not_isSpace_of_isDecimal (h c hc)]
  cases text with
  | nil => rfl
  | cons c text =>
    have hc := h c List.mem_cons_self
    have hminus := ne_of_isDecimal hc (d := '-') (by decide) (by decide)
    have hplus := ne_of_isDecimal hc (d := '+') (by decide) (by decide)
    split
    · exact absurd (List.cons.inj ‹_›).1 hminus
    · exact absurd (List.cons.inj ‹_›).1 hplus
    · rfl

theorem int_concat (hc : Text.isSpace c = true) : digits.int (text ++ [c]) = digits.int text := by
  rw [int, int, Text.strip_concat hc]

theorem int_digits (hne : text ≠ []) (h : ∀ c ∈ text, c.isDigit = true) :
    digits.int text = some (Nat.ofDigitChars 10 text 0 : ℤ) := by
  rw [int_eq_numeral fun c hc ↦ isDecimal_of_isDigit (h c hc), numeral_digits hne h]
  rfl

theorem not_isdigit_of_mem (hc : c ∈ text) (hascii : c.toNat < 128) (hdigit : c.isDigit = false) :
    digits.isdigit text = false := by
  refine eq_false_of_ne_true fun h ↦ ?_
  simp only [isdigit, Bool.and_eq_true, List.all_eq_true] at h
  rw [← digits.isDigit_ascii c hascii, h.2 c hc] at hdigit
  cases hdigit

theorem isDecimal_of_value {i : Fin 10} (h : digits.value c = some i) :
    digits.isDecimal c = true := by
  rw [isDecimal, h]
  rfl

theorem int_pair {a b : Char} {i j : Fin 10} (ha : digits.value a = some i)
    (hb : digits.value b = some j) : digits.int [a, b] = some ((10 * i + j : ℕ) : ℤ) := by
  have hunder := ne_of_isDecimal (isDecimal_of_value hb) (d := '_') (by decide) (by decide)
  rw [int_eq_numeral, numeral, ha, Option.bind_some, numeralFrom_cons hunder, hb, Option.bind_some,
    numeralFrom]
  · rfl
  · intro c hc
    rcases List.mem_cons.mp hc with rfl | hc
    · exact isDecimal_of_value ha
    · rw [List.mem_singleton.mp hc]
      exact isDecimal_of_value hb

theorem exists_value_le (digits : Digits) {top : Char} (htop : top ≤ '9') (h : '0' ≤ c ∧ c ≤ top) :
    ∃ i : Fin 10, digits.value c = some i ∧ 48 + i.val ≤ top.toNat := by
  simp only [Char.le_def, UInt32.le_iff_toNat_le] at htop h
  change 48 ≤ c.toNat ∧ c.toNat ≤ top.toNat at h
  change top.toNat ≤ 57 at htop
  have hdigit : c.isDigit = true := by
    simp only [Char.isDigit, Bool.and_eq_true, decide_eq_true_eq, UInt32.le_iff_toNat_le]
    exact ⟨h.1, h.2.trans htop⟩
  refine ⟨_, value_of_isDigit hdigit, ?_⟩
  have := Nat.mod_le (c.toNat - 48) 10
  change 48 + (c.toNat - 48) % 10 ≤ top.toNat
  omega

end Digits

section Padding

/-- `f"{n:0{width}d}"`. -/
def zfill (width n : ℕ) : Text := (Nat.toDigits 10 n).leftpad width '0'

variable {width n : ℕ}

theorem isDigit_zfill {c : Char} (h : c ∈ zfill width n) : c.isDigit = true := by
  rw [zfill, List.leftpad, List.mem_append] at h
  rcases h with h | h
  · rw [List.eq_of_mem_replicate h]
    rfl
  · exact Nat.isDigit_of_mem_toDigits (by decide) (by decide) h

theorem length_zfill (hwidth : 0 < width) (h : n < 10 ^ width) : (zfill width n).length = width := by
  rw [zfill, List.length_leftpad, max_eq_left]
  exact (Nat.length_toDigits_le_iff (by decide) hwidth).mpr h

theorem zfill_ne_nil (width n : ℕ) : zfill width n ≠ [] := by
  rw [zfill, List.leftpad]
  exact List.append_ne_nil_of_right_ne_nil _ Nat.toDigits_ne_nil

theorem ofDigitChars_zfill (width n : ℕ) : Nat.ofDigitChars 10 (zfill width n) 0 = n := by
  rw [zfill, List.leftpad, Nat.ofDigitChars_append, Nat.ofDigitChars_replicate_zero, Nat.mul_zero,
    Nat.ofDigitChars_ten_toDigits]

theorem int_zfill (digits : Digits) (width n : ℕ) : digits.int (zfill width n) = some (n : ℤ) := by
  rw [Digits.int_digits (zfill_ne_nil width n) fun _ ↦ isDigit_zfill, ofDigitChars_zfill]

end Padding

end Remindo.Foundation
