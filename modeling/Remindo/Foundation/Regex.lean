import Remindo.Foundation.Text

namespace Remindo.Foundation

/-- A regular expression without a star: its texts are all of one length or of
finitely many. -/
inductive Regex
  | char (p : Char → Bool)
  | seq (a b : Regex)
  | alt (a b : Regex)
  | rep (n : ℕ) (p : Char → Bool)

namespace Regex

/-- One given character. -/
def lit (c : Char) : Regex := .char fun d ↦ decide (d = c)

/-- What is left of a text behind a match at its start. -/
def rests : Regex → Text → List Text
  | char p, c :: cs => if p c then [cs] else []
  | char _, [] => []
  | seq a b, text => (rests a text).flatMap (rests b)
  | alt a b, text => rests a text ++ rests b text
  | rep n p, text => if n ≤ text.length ∧ (text.take n).all p then [text.drop n] else []

/-- `re.match` of `^…$`: the end is also in front of a last newline. -/
def accepts (r : Regex) (text : Text) : Bool :=
  (r.rests text).any fun rest ↦ decide (rest = []) || decide (rest = ['\n'])

def fullmatch (r : Regex) (text : Text) : Bool := (r.rests text).any fun rest ↦ decide (rest = [])

/-- The language of an expression. -/
def Fits : Regex → Text → Prop
  | char p, text => ∃ c, p c = true ∧ text = [c]
  | seq a b, text => ∃ s t, Fits a s ∧ Fits b t ∧ text = s ++ t
  | alt a b, text => Fits a text ∨ Fits b text
  | rep n p, text => text.length = n ∧ ∀ c ∈ text, p c = true

variable {r a b : Regex} {p : Char → Bool} {n : ℕ} {c : Char} {text rest : Text}

@[simp] theorem fits_char : (char p).Fits text ↔ ∃ c, p c = true ∧ text = [c] := Iff.rfl

@[simp] theorem fits_lit : (lit c).Fits text ↔ text = [c] := by simp [lit]

@[simp] theorem fits_seq :
    (seq a b).Fits text ↔ ∃ s t, a.Fits s ∧ b.Fits t ∧ text = s ++ t := Iff.rfl

@[simp] theorem fits_alt : (alt a b).Fits text ↔ a.Fits text ∨ b.Fits text := Iff.rfl

@[simp] theorem fits_rep : (rep n p).Fits text ↔ text.length = n ∧ ∀ c ∈ text, p c = true := Iff.rfl

theorem mem_rests : rest ∈ r.rests text ↔ ∃ core, r.Fits core ∧ text = core ++ rest := by
  induction r generalizing text rest with
  | char p =>
    cases text with
    | nil => simp [rests, Fits]
    | cons c cs =>
      rw [rests]
      by_cases hc : p c = true
      · rw [if_pos hc, List.mem_singleton]
        constructor
        · rintro rfl
          exact ⟨[c], ⟨c, hc, rfl⟩, rfl⟩
        · rintro ⟨_, ⟨d, -, rfl⟩, heq⟩
          exact (List.cons.inj heq).2.symm
      · rw [if_neg hc]
        refine ⟨fun h ↦ absurd h List.not_mem_nil, ?_⟩
        rintro ⟨_, ⟨d, hd, rfl⟩, heq⟩
        rw [(List.cons.inj heq).1] at hc
        exact absurd hd hc
  | seq a b iha ihb =>
    rw [rests, List.mem_flatMap]
    constructor
    · rintro ⟨middle, hmiddle, hrest⟩
      obtain ⟨s, hs, rfl⟩ := iha.mp hmiddle
      obtain ⟨t, ht, rfl⟩ := ihb.mp hrest
      exact ⟨s ++ t, ⟨s, t, hs, ht, rfl⟩, (List.append_assoc _ _ _).symm⟩
    · rintro ⟨_, ⟨s, t, hs, ht, rfl⟩, rfl⟩
      exact ⟨t ++ rest, iha.mpr ⟨s, hs, List.append_assoc _ _ _⟩, ihb.mpr ⟨t, ht, rfl⟩⟩
  | alt a b iha ihb =>
    rw [rests, List.mem_append, iha, ihb, ← exists_or]
    exact exists_congr fun core ↦ or_and_right.symm
  | rep n p =>
    rw [rests]
    constructor
    · intro h
      split at h
      · rename_i hfits
        obtain rfl := List.mem_singleton.mp h
        refine ⟨text.take n, ⟨List.length_take_of_le hfits.1, List.all_eq_true.mp hfits.2⟩, ?_⟩
        exact (List.take_append_drop n text).symm
      · cases h
    · rintro ⟨core, ⟨rfl, hcore⟩, rfl⟩
      rw [if_pos ⟨by simp, by simpa using hcore⟩, List.mem_singleton, List.drop_left]

theorem fullmatch_iff : r.fullmatch text = true ↔ r.Fits text := by
  rw [fullmatch, List.any_eq_true]
  constructor
  · rintro ⟨rest, hrest, hnil⟩
    obtain ⟨core, hcore, rfl⟩ := mem_rests.mp hrest
    rwa [of_decide_eq_true hnil, List.append_nil]
  · intro h
    exact ⟨[], mem_rests.mpr ⟨text, h, (List.append_nil _).symm⟩, rfl⟩

/-- A match is a text of the language, as it is or with a newline behind it. -/
theorem accepts_iff : r.accepts text = true ↔ r.Fits text ∨ ∃ core, r.Fits core ∧ text = core ++ ['\n'] := by
  simp only [accepts, List.any_eq_true, Bool.or_eq_true, decide_eq_true_eq]
  constructor
  · rintro ⟨rest, hrest, rfl | rfl⟩
    · obtain ⟨core, hcore, rfl⟩ := mem_rests.mp hrest
      exact .inl ((List.append_nil core).symm ▸ hcore)
    · exact .inr (mem_rests.mp hrest)
  · rintro (h | h)
    · exact ⟨[], mem_rests.mpr ⟨text, h, (List.append_nil _).symm⟩, .inl rfl⟩
    · exact ⟨['\n'], mem_rests.mpr h, .inr rfl⟩

end Regex

end Remindo.Foundation
