import Mathlib.Data.List.Basic
import Mathlib.Data.Int.Notation
import Mathlib.Data.Nat.Notation

namespace Remindo.Foundation

/-- A `str`, by its code points. -/
abbrev Text := List Char

namespace Text

/-- `str.isspace` of one character. -/
def isSpace (c : Char) : Bool :=
  let n := c.toNat
  decide (9 ≤ n ∧ n ≤ 13) || decide (28 ≤ n ∧ n ≤ 32) || decide (n = 133) || decide (n = 160) ||
    decide (n = 5760) || decide (8192 ≤ n ∧ n ≤ 8202) || decide (n = 8232) || decide (n = 8233) ||
    decide (n = 8239) || decide (n = 8287) || decide (n = 12288)

/-- `str.split` on whitespace, with the word read so far. -/
def splitFrom (word : Text) : Text → List Text
  | [] => if word = [] then [] else [word]
  | c :: cs =>
    if isSpace c then if word = [] then splitFrom [] cs else word :: splitFrom [] cs
    else splitFrom (word ++ [c]) cs

def split (text : Text) : List Text := splitFrom [] text

def join (separator : Text) (words : List Text) : Text := separator.intercalate words

def strip (text : Text) : Text :=
  (((text.dropWhile isSpace).reverse).dropWhile isSpace).reverse

/-- `str.strip` of one character. -/
def stripOf (c : Char) (text : Text) : Text :=
  (((text.dropWhile (· = c)).reverse).dropWhile (· = c)).reverse

/-- `str.rstrip` of one character. -/
def rstripOf (c : Char) (text : Text) : Text := (text.reverse.dropWhile (· = c)).reverse

/-- `text[:stop]`: a negative end counts from the right. -/
def upTo (stop : ℤ) (text : Text) : Text :=
  text.take (if 0 ≤ stop then stop else text.length + stop).toNat

variable {c : Char} {text : Text}

theorem mem_splitFrom (hc : isSpace c = false) (word : Text) :
    (∃ w ∈ splitFrom word text, c ∈ w) ↔ c ∈ word ∨ c ∈ text := by
  induction text generalizing word with
  | nil =>
    rw [splitFrom]
    split
    · rename_i hword
      simp [hword]
    · simp
  | cons d text ih =>
    rw [splitFrom]
    by_cases hd : isSpace d = true
    · have hne : c ≠ d := by
        intro h
        rw [← h, hc] at hd
        cases hd
      rw [if_pos hd]
      split
      · rename_i hword
        rw [ih, hword, List.mem_cons]
        simp [hne]
      · simp only [List.mem_cons, exists_eq_or_imp, ih, List.not_mem_nil, false_or, hne]
    · rw [if_neg hd, ih, List.mem_append, List.mem_singleton, List.mem_cons, or_assoc]

theorem mem_split (hc : isSpace c = false) : (∃ w ∈ split text, c ∈ w) ↔ c ∈ text := by
  rw [split, mem_splitFrom hc]
  simp

theorem mem_join {separator : Text} (hc : c ∉ separator) {words : List Text} :
    c ∈ join separator words ↔ ∃ w ∈ words, c ∈ w := by
  induction words with
  | nil => simp [join]
  | cons word words ih =>
    cases words with
    | nil => simp [join]
    | cons next words =>
      rw [join, List.intercalate_cons_cons, List.mem_append, List.mem_append, ← join, ih]
      simp [hc]

theorem mem_dropWhile (hc : isSpace c = false) : c ∈ text.dropWhile isSpace ↔ c ∈ text := by
  induction text with
  | nil => rfl
  | cons d text ih =>
    rw [List.dropWhile_cons]
    split
    · rename_i hd
      have hne : c ≠ d := by
        intro h
        rw [← h, hc] at hd
        cases hd
      rw [ih, List.mem_cons]
      simp [hne]
    · rfl

theorem mem_strip (hc : isSpace c = false) : c ∈ strip text ↔ c ∈ text := by
  rw [strip, List.mem_reverse, mem_dropWhile hc, List.mem_reverse, mem_dropWhile hc]

theorem strip_eq_self (h : ∀ d ∈ text, isSpace d = false) : strip text = text := by
  have hkeep : ∀ l : Text, (∀ d ∈ l, isSpace d = false) → l.dropWhile isSpace = l := by
    intro l hl
    cases l with
    | nil => rfl
    | cons d l => rw [List.dropWhile_cons, if_neg (by simp [hl d List.mem_cons_self])]
  rw [strip, hkeep text h, hkeep _ fun d hd ↦ h d (List.mem_reverse.mp hd), List.reverse_reverse]

theorem strip_concat (hc : isSpace c = true) (text : Text) : strip (text ++ [c]) = strip text := by
  rw [strip, strip, List.dropWhile_append]
  split
  · rename_i hall
    rw [List.isEmpty_iff.mp hall]
    simp [hc]
  · rw [List.reverse_append, List.reverse_singleton, List.singleton_append, List.dropWhile_cons,
      if_pos hc]

theorem stripOf_sublist (c : Char) (text : Text) : (stripOf c text).Sublist text := by
  have hback := List.dropWhile_sublist (l := (text.dropWhile (· = c)).reverse) (p := (· = c))
  have hkept := List.reverse_sublist.mpr hback
  rw [List.reverse_reverse] at hkept
  exact hkept.trans (List.dropWhile_sublist _)

theorem upTo_of_nonneg (n : ℕ) (text : Text) : upTo n text = text.take n := by
  rw [upTo, if_pos (Int.natCast_nonneg n), Int.toNat_natCast]

theorem dropWhile_eq_self (h : c ∉ text) : text.dropWhile (· = c) = text := by
  cases text with
  | nil => rfl
  | cons d text =>
    have hd : d ≠ c := fun heq ↦ h (heq ▸ List.mem_cons_self)
    rw [List.dropWhile_cons, if_neg (by simpa using hd)]

theorem rstripOf_append_replicate (h : c ∉ text) (n : ℕ) :
    rstripOf c (text ++ List.replicate n c) = text := by
  have hdrop : (List.replicate n c).dropWhile (· = c) = [] := by simp
  rw [rstripOf, List.reverse_append, List.reverse_replicate, List.dropWhile_append, hdrop,
    if_pos List.isEmpty_nil, dropWhile_eq_self (List.mem_reverse.not.mpr h), List.reverse_reverse]

/-- `str.format` with keyword arguments, inside a field once its name begins;
`none` where it raises. -/
def formatFrom (kwargs : List (Text × Text)) : Option Text → Text → Option Text
  | none, [] => some []
  | none, '{' :: '{' :: cs => (formatFrom kwargs none cs).map ('{' :: ·)
  | none, '}' :: '}' :: cs => (formatFrom kwargs none cs).map ('}' :: ·)
  | none, '{' :: cs => formatFrom kwargs (some []) cs
  | none, '}' :: _ => none
  | none, c :: cs => (formatFrom kwargs none cs).map (c :: ·)
  | some name, '}' :: cs =>
    (kwargs.lookup name).bind fun value ↦ (formatFrom kwargs none cs).map (value ++ ·)
  | some name, c :: cs => formatFrom kwargs (some (name ++ [c])) cs
  | some _, [] => none

def format (template : Text) (kwargs : List (Text × Text)) : Option Text :=
  formatFrom kwargs none template

end Text

end Remindo.Foundation
