import Mathlib.Data.List.Count
import Remindo.Foundation.Text

namespace Remindo.Foundation

/-- The characters markup is made of. -/
def isSpecial (c : Char) : Bool := decide (c = '<') || decide (c = '>') || decide (c = '&')

/-- Something that can stand between angle brackets. -/
def IsTag (body : Text) : Prop := body ≠ [] ∧ '<' ∉ body ∧ '>' ∉ body

theorem IsTag.slash {name : Text} (h : IsTag name) : IsTag ('/' :: name) := by
  refine ⟨nofun, ?_, ?_⟩
  · simpa using h.2.1
  · simpa using h.2.2

theorem IsTag.counts {body : Text} (h : IsTag body) (raw : Text) :
    ('<' :: (body ++ '>' :: raw)).count '<' = raw.count '<' + 1 ∧
      ('<' :: (body ++ '>' :: raw)).count '>' = raw.count '>' + 1 ∧
      raw.count '&' ≤ ('<' :: (body ++ '>' :: raw)).count '&' := by
  have hlt : body.count '<' = 0 := List.count_eq_zero.mpr h.2.1
  have hgt : body.count '>' = 0 := List.count_eq_zero.mpr h.2.2
  simp [List.count_append, hlt, hgt]

/-- A markup language with angle brackets and ampersands: the character an
entity stands for, and the element an opening tag opens. -/
structure Markup where
  entity : Text → Option Char
  element : Text → Option Text
  entity_plain : ∀ body c, entity body = some c → body ≠ [] ∧ ∀ x ∈ body, isSpecial x = false
  element_tag : ∀ body name, element body = some name → IsTag body ∧ IsTag name

namespace Markup

/-- Inside the elements `opened`, innermost first, `raw` is well-formed and
`shown` is what is left of it to read. -/
inductive Shows (m : Markup) : List Text → Text → Text → Prop
  | done : Shows m [] [] []
  | plain {opened : List Text} {raw shown : Text} (c : Char) (hc : isSpecial c = false)
      (h : Shows m opened raw shown) : Shows m opened (c :: raw) (c :: shown)
  | entity {opened : List Text} {raw shown body : Text} {c : Char} (hbody : m.entity body = some c)
      (h : Shows m opened raw shown) : Shows m opened ('&' :: (body ++ ';' :: raw)) (c :: shown)
  | start {opened : List Text} {raw shown body name : Text} (hbody : m.element body = some name)
      (h : Shows m (name :: opened) raw shown) : Shows m opened ('<' :: (body ++ '>' :: raw)) shown
  | stop {opened : List Text} {raw shown : Text} (name : Text) (h : Shows m opened raw shown) :
      Shows m (name :: opened) ('<' :: '/' :: (name ++ '>' :: raw)) shown

variable {m : Markup} {opened : List Text} {raw shown : Text}

/-- Text without specials is shown as it is. -/
theorem Shows.append {text : Text} (htext : ∀ c ∈ text, isSpecial c = false)
    (h : m.Shows opened raw shown) : m.Shows opened (text ++ raw) (text ++ shown) := by
  induction text with
  | nil => exact h
  | cons c text ih =>
    exact .plain c (htext c List.mem_cons_self) (ih fun x hx ↦ htext x (List.mem_cons_of_mem _ hx))

theorem countP_isSpecial (text : Text) :
    text.countP isSpecial = text.count '<' + text.count '>' + text.count '&' := by
  induction text with
  | nil => rfl
  | cons c text ih =>
    rw [List.countP_cons, List.count_cons, List.count_cons, List.count_cons, ih]
    by_cases hlt : c = '<'
    · subst hlt
      simp [isSpecial]
      omega
    by_cases hgt : c = '>'
    · subst hgt
      simp [isSpecial]
      omega
    by_cases hamp : c = '&'
    · subst hamp
      simp [isSpecial]
      omega
    simp [isSpecial, hlt, hgt, hamp]

theorem not_special_iff {c : Char} :
    isSpecial c = false ↔ c ≠ '<' ∧ c ≠ '>' ∧ c ≠ '&' := by
  simp [isSpecial, and_assoc]

/-- How the tags and entities of a text account for its specials and for what
is not shown of it. -/
structure Tally (opened : List Text) (raw shown : Text) (starts stops entities : ℕ) : Prop where
  lt : raw.count '<' = starts + stops
  gt : raw.count '>' = starts + stops
  amp : entities ≤ raw.count '&'
  nested : stops = starts + opened.length
  special : shown.countP isSpecial ≤ entities
  length : shown.length + 3 * starts + 4 * stops + 2 * entities ≤ raw.length

theorem Shows.tally (h : m.Shows opened raw shown) (hopened : ∀ name ∈ opened, IsTag name) :
    ∃ starts stops entities, Tally opened raw shown starts stops entities := by
  induction h with
  | done => exact ⟨0, 0, 0, by constructor <;> simp⟩
  | plain c hc h ih =>
    obtain ⟨starts, stops, entities, t⟩ := ih hopened
    obtain ⟨hlt, hgt, hamp⟩ := not_special_iff.mp hc
    refine ⟨starts, stops, entities, ?_, ?_, ?_, t.nested, ?_, ?_⟩
    · rw [List.count_cons_of_ne hlt, t.lt]
    · rw [List.count_cons_of_ne hgt, t.gt]
    · rw [List.count_cons_of_ne hamp]
      exact t.amp
    · rw [List.countP_cons_of_neg (by rw [hc]; exact Bool.false_ne_true)]
      exact t.special
    · have := t.length
      simp only [List.length_cons]
      omega
  | @entity opened raw shown body c hbody h ih =>
    obtain ⟨starts, stops, entities, t⟩ := ih hopened
    obtain ⟨hne, hplain⟩ := m.entity_plain body c hbody
    have hcount : ∀ x, isSpecial x = true → body.count x = 0 := by
      intro x hx
      refine List.count_eq_zero.mpr fun hmem ↦ ?_
      rw [hplain x hmem] at hx
      cases hx
    have hpos := List.length_pos_iff.mpr hne
    refine ⟨starts, stops, entities + 1, ?_, ?_, ?_, t.nested, ?_, ?_⟩
    · simp [List.count_append, hcount '<' rfl, t.lt]
    · simp [List.count_append, hcount '>' rfl, t.gt]
    · have := t.amp
      simp [List.count_append, hcount '&' rfl]
      omega
    · have := t.special
      rw [List.countP_cons]
      split <;> omega
    · have := t.length
      simp only [List.length_cons, List.length_append]
      omega
  | @start opened raw shown body name hbody h ih =>
    obtain ⟨hbodyTag, hname⟩ := m.element_tag body name hbody
    obtain ⟨starts, stops, entities, t⟩ := ih (by
      intro x hx
      rcases List.mem_cons.mp hx with rfl | hx
      · exact hname
      · exact hopened x hx)
    obtain ⟨hlt, hgt, hamp⟩ := hbodyTag.counts raw
    have hpos := List.length_pos_iff.mpr hbodyTag.1
    have hnested := t.nested
    have hlength := t.length
    rw [List.length_cons] at hnested
    refine ⟨starts + 1, stops, entities, ?_, ?_, Nat.le_trans t.amp hamp, by omega, t.special, ?_⟩
    · rw [hlt, t.lt, Nat.add_right_comm]
    · rw [hgt, t.gt, Nat.add_right_comm]
    · simp only [List.length_cons, List.length_append]
      omega
  | @stop opened raw shown name h ih =>
    obtain ⟨starts, stops, entities, t⟩ := ih fun x hx ↦ hopened x (List.mem_cons_of_mem _ hx)
    have hname := hopened name List.mem_cons_self
    obtain ⟨hlt, hgt, hamp⟩ := hname.slash.counts raw
    have hpos := List.length_pos_iff.mpr hname.1
    have hlength := t.length
    refine ⟨starts, stops + 1, entities, ?_, ?_, Nat.le_trans t.amp hamp, ?_, t.special, ?_⟩
    · exact hlt.trans (by rw [t.lt, Nat.add_assoc])
    · exact hgt.trans (by rw [t.gt, Nat.add_assoc])
    · rw [List.length_cons, t.nested, Nat.add_assoc]
    · simp only [List.length_cons, List.length_append]
      omega

/-- Tags come in pairs of brackets. -/
theorem Shows.brackets (h : m.Shows [] raw shown) : raw.count '<' = raw.count '>' := by
  obtain ⟨_, _, _, t⟩ := h.tally (by simp)
  rw [t.lt, t.gt]

/-- Around one element with a name of one letter, nothing special is shown
unless it costs more than it shows. -/
theorem Shows.not_special (h : m.Shows [] raw shown) (hlt : raw.count '<' = shown.count '<' + 2)
    (hamp : raw.count '&' = shown.count '&') (hlength : raw.length = shown.length + 7) :
    ∀ c ∈ shown, isSpecial c = false := by
  obtain ⟨starts, stops, entities, t⟩ := h.tally (by simp)
  have hcount : shown.countP isSpecial = 0 := by
    have hspecial := t.special
    have hnested := t.nested
    have hlen := t.length
    have hentities := t.amp
    have hbrackets := t.lt
    rw [countP_isSpecial] at hspecial ⊢
    rw [List.length_nil] at hnested
    omega
  intro c hc
  exact eq_false_of_ne_true (List.countP_eq_zero.mp hcount c hc)

end Markup

end Remindo.Foundation
