import Mathlib.Data.Finset.Card
import Remindo.Domain.UserText
import Remindo.Foundation.Numerals

namespace Remindo.Domain

open Remindo.Foundation

/-- What `str`, `unicodedata` and `hashlib` know of a text: NFKD, its case
folding, the combining marks, the general categories, a BLAKE2s hexdigest. -/
structure Alphabet where
  nfkd : Text → Text
  casefold : Text → Text
  combining : Char → Bool
  category : Char → GeneralCategory
  hexdigest : Text → Text

def codeMinLength : ℕ := 2
def codeMaxLength : ℕ := 32
def fallbackDigestLength : ℕ := 8

/-- Trim the edges and collapse inner whitespace, then check the length. -/
def normalizeCategoryTitle (raw : Text) : Except ValidationError Text :=
  let title := Text.join [' '] (Text.split raw)
  if 1 ≤ title.length ∧ title.length ≤ categoryTitleMaxLength then .ok title
  else .error .categoryTitle

section Codes

def isCodeChar (c : Char) : Bool :=
  decide ('a' ≤ c ∧ c ≤ 'z') || decide ('0' ≤ c ∧ c ≤ '9') || decide (c = '_')

/-- `CATEGORY_CODE_PATTERN`. -/
def isCode (code : Text) : Bool :=
  decide (codeMinLength ≤ code.length ∧ code.length ≤ codeMaxLength) && code.all isCodeChar

/-- `TRANSLITERATION`. -/
def transliteration : List (Char × Text) :=
  List.zip "абвгдеёзийклмнопрстуфхцыэ".toList
      ("abvgdeeziiklmnoprstufhcye".toList.map fun c ↦ [c]) ++
    [('ж', "zh".toList), ('ч', "ch".toList), ('ш', "sh".toList), ('щ', "sch".toList),
      ('ю', "yu".toList), ('я', "ya".toList), ('ъ', []), ('ь', [])]

def transliterate (c : Char) : Text := (transliteration.lookup c).getD [c]

/-- `re.sub(r"[^a-z0-9]+", "_", …)`, inside a run or not. -/
def joinRuns : Bool → Text → Text
  | _, [] => []
  | inside, c :: cs =>
    if decide ('a' ≤ c ∧ c ≤ 'z') || decide ('0' ≤ c ∧ c ≤ '9') then c :: joinRuns false cs
    else if inside then joinRuns true cs
    else '_' :: joinRuns true cs

variable (alphabet : Alphabet)

/-- A digest of the title, folded the way the slug is. -/
def fallbackCode (title : Text) : Text :=
  let folded := alphabet.casefold (Text.join [' '] (Text.split title))
  "cat_".toList ++ (alphabet.hexdigest folded).take fallbackDigestLength

/-- Derive a slug from a title. -/
def slugifyCode (title : Text) : Text :=
  let lowered := alphabet.casefold (alphabet.nfkd title)
  let stripped := lowered.filter fun c ↦ !alphabet.combining c
  let asciiText := stripped.flatMap transliterate
  let slug := Text.stripOf '_' ((Text.stripOf '_' (joinRuns false asciiText)).take codeMaxLength)
  if slug.length < codeMinLength then fallbackCode alphabet title else slug

/-- The base with a number behind it; what is too long is cut off the base. -/
def numbered (base : Text) (index : ℕ) : Text :=
  let suffix := '_' :: Nat.toDigits 10 index
  Text.stripOf '_' (Text.upTo (codeMaxLength - suffix.length) base) ++ suffix

/-- First free code of the `base`, `base_2`, `base_3`, … series. -/
def nextFreeCode (base : Text) (taken : Finset Text) : Except ValidationError Text :=
  if base ∉ taken then .ok base
  else
    match ((List.range' 2 (taken.card + 1)).map (numbered base)).find? (· ∉ taken) with
    | some candidate => .ok candidate
    | none => .error .noFreeCode

theorem notMem_of_nextFreeCode {base code : Text} {taken : Finset Text}
    (h : nextFreeCode base taken = .ok code) : code ∉ taken := by
  rw [nextFreeCode] at h
  split at h
  · cases h
    assumption
  · split at h
    · rename_i candidate hfound
      cases h
      simpa using List.find?_some hfound
    · cases h

end Codes

section FreeCodes

variable {alphabet : Alphabet} {base : Text} {index : ℕ}

theorem isCode_iff {code : Text} : isCode code = true ↔
    (2 ≤ code.length ∧ code.length ≤ 32) ∧ ∀ c ∈ code, isCodeChar c = true := by
  rw [isCode, Bool.and_eq_true, decide_eq_true_eq, List.all_eq_true]
  rfl

theorem isCodeChar_of_mem_joinRuns {inside : Bool} {text : Text} {c : Char}
    (h : c ∈ joinRuns inside text) : isCodeChar c = true := by
  induction text generalizing inside with
  | nil => cases h
  | cons d text ih =>
    rw [joinRuns] at h
    split at h
    · rename_i hd
      rcases List.mem_cons.mp h with rfl | h
      · rw [isCodeChar, hd, Bool.true_or]
      · exact ih h
    · split at h
      · exact ih h
      · rcases List.mem_cons.mp h with rfl | h
        · rfl
        · exact ih h

def isHexDigit (c : Char) : Bool :=
  decide ('0' ≤ c ∧ c ≤ '9') || decide ('a' ≤ c ∧ c ≤ 'f')

theorem isCodeChar_of_isHexDigit {c : Char} (h : isHexDigit c = true) : isCodeChar c = true := by
  simp only [isHexDigit, isCodeChar, Bool.or_eq_true, decide_eq_true_eq] at *
  rcases h with h | h
  · exact .inl (.inr h)
  · exact .inl (.inl ⟨h.1, Char.le_trans h.2 (by decide)⟩)

theorem isCode_fallbackCode (hhex : ∀ text, ∀ c ∈ alphabet.hexdigest text, isHexDigit c = true)
    (title : Text) : isCode (fallbackCode alphabet title) = true := by
  have hstart : ∀ c ∈ "cat_".toList, isCodeChar c = true := List.all_eq_true.mp (by decide)
  have hlength : ∀ digest : Text, 4 ≤ ("cat_".toList ++ digest.take fallbackDigestLength).length ∧
      ("cat_".toList ++ digest.take fallbackDigestLength).length ≤ 12 := by
    intro digest
    rw [List.length_append, List.length_take]
    change 4 ≤ 4 + min 8 digest.length ∧ 4 + min 8 digest.length ≤ 12
    omega
  refine isCode_iff.mpr ⟨?_, fun c hc ↦ ?_⟩
  · have := hlength (alphabet.hexdigest (alphabet.casefold (Text.join [' '] (Text.split title))))
    rw [fallbackCode]
    omega
  · rcases List.mem_append.mp hc with hc | hc
    · exact hstart c hc
    · exact isCodeChar_of_isHexDigit (hhex _ c (List.mem_of_mem_take hc))

theorem isCode_slugifyCode (hhex : ∀ text, ∀ c ∈ alphabet.hexdigest text, isHexDigit c = true)
    (title : Text) : isCode (slugifyCode alphabet title) = true := by
  rw [slugifyCode]
  split
  · exact isCode_fallbackCode hhex title
  · rename_i hlong
    refine isCode_iff.mpr ⟨⟨not_lt.mp hlong, ?_⟩, fun c hc ↦ ?_⟩
    · exact (Text.stripOf_sublist _ _).length_le.trans (List.length_take_le _ _)
    · have hcut := List.mem_of_mem_take ((Text.stripOf_sublist _ _).mem hc)
      exact isCodeChar_of_mem_joinRuns ((Text.stripOf_sublist _ _).mem hcut)

theorem isCode_numbered (hbase : isCode base = true) (hindex : index < 10 ^ 10) :
    isCode (numbered base index) = true := by
  have hdigits : (Nat.toDigits 10 index).length ≤ 10 :=
    (Nat.length_toDigits_le_iff (by decide) (by decide)).mpr hindex
  have hsome := List.length_pos_of_ne_nil (Nat.toDigits_ne_nil (n := index) (b := 10))
  have hroom : ((codeMaxLength : ℤ) - ('_' :: Nat.toDigits 10 index).length) =
      ((31 - (Nat.toDigits 10 index).length : ℕ) : ℤ) := by
    rw [codeMaxLength, List.length_cons]
    omega
  have hcut := (Text.stripOf_sublist '_'
    (base.take (31 - (Nat.toDigits 10 index).length))).length_le
  have htake := base.length_take_le (31 - (Nat.toDigits 10 index).length)
  rw [numbered, hroom, Text.upTo_of_nonneg]
  refine isCode_iff.mpr ⟨?_, fun c hc ↦ ?_⟩
  · rw [List.length_append, List.length_cons]
    omega
  · rcases List.mem_append.mp hc with hc | hc
    · exact (isCode_iff.mp hbase).2 c (List.mem_of_mem_take ((Text.stripOf_sublist _ _).mem hc))
    · rcases List.mem_cons.mp hc with rfl | hc
      · rfl
      · obtain ⟨k, rfl⟩ := Digits.exists_digitChar
          (Nat.isDigit_of_mem_toDigits (by decide) (by decide) hc)
        exact (by decide : ∀ k : Fin 10, isCodeChar k.val.digitChar = true) k

/-- The number behind the last underscore tells the candidates apart. -/
theorem numbered_injective (base : Text) : Function.Injective (numbered base) := by
  have hlast : ∀ i, (numbered base i).reverse.takeWhile (· ≠ '_') = (Nat.toDigits 10 i).reverse := by
    intro i
    have hdigits : ∀ c ∈ (Nat.toDigits 10 i).reverse, decide (c ≠ '_') = true := by
      intro c hc
      rw [decide_eq_true_eq]
      rintro rfl
      exact Nat.underscore_not_in_toDigits (List.mem_reverse.mp hc)
    rw [numbered, List.reverse_append, List.reverse_cons, List.append_assoc,
      List.takeWhile_append_of_pos hdigits]
    simp
  intro i j h
  have hdigits : (Nat.toDigits 10 i).reverse = (Nat.toDigits 10 j).reverse := by
    rw [← hlast, ← hlast, h]
  rw [← @Nat.ofDigitChars_ten_toDigits i, List.reverse_injective hdigits,
    Nat.ofDigitChars_ten_toDigits]

/-- Whatever the texts and the digests are made into, there is a code left. -/
theorem nextFreeCode_slugifyCode
    (hhex : ∀ text, ∀ c ∈ alphabet.hexdigest text, isHexDigit c = true) {taken : Finset Text}
    (hfew : taken.card < 10 ^ 9) (title : Text) :
    ∃ code, nextFreeCode (slugifyCode alphabet title) taken = .ok code ∧ code ∉ taken ∧
      isCode code = true := by
  have hslug := isCode_slugifyCode hhex title
  by_cases hfree : slugifyCode alphabet title ∉ taken
  · exact ⟨_, if_pos hfree, hfree, hslug⟩
  -- One candidate more than there are codes to take.
  set candidates := (List.range' 2 (taken.card + 1)).map (numbered (slugifyCode alphabet title))
    with hcandidates
  have hnodup : candidates.Nodup := (List.nodup_range' _).map (numbered_injective _)
  have hmore : taken.card < candidates.toFinset.card := by
    rw [List.toFinset_card_of_nodup hnodup, hcandidates, List.length_map, List.length_range']
    exact Nat.lt_succ_self _
  obtain ⟨free, hmem, hnot⟩ := Finset.exists_mem_notMem_of_card_lt_card hmore
  have hfound : (candidates.find? (· ∉ taken)).isSome = true :=
    List.find?_isSome.mpr ⟨free, List.mem_toFinset.mp hmem, decide_eq_true hnot⟩
  obtain ⟨code, hcode⟩ := Option.isSome_iff_exists.mp hfound
  have hnext : nextFreeCode (slugifyCode alphabet title) taken = .ok code := by
    rw [nextFreeCode, if_neg hfree, ← hcandidates, hcode]
  obtain ⟨index, hindex, rfl⟩ := List.mem_map.mp (List.mem_of_find?_eq_some hcode)
  refine ⟨_, hnext, notMem_of_nextFreeCode hnext, isCode_numbered hslug ?_⟩
  have := (List.mem_range'_1.mp hindex).2
  omega

end FreeCodes

end Remindo.Domain
