import Remindo.Domain.Contracts
import Remindo.Foundation.Text

namespace Remindo.Domain

open Remindo.Foundation

/-- `ValidationError`, by the message it is raised with. -/
inductive ValidationError
  /-- `reminder title must be 1..120 characters` -/
  | reminderTitle
  /-- `category emoji must be exactly one grapheme cluster`, and the raw text -/
  | categoryEmoji (raw : Text)
  /-- `category title must be 1..64 characters` -/
  | categoryTitle
  /-- `no free category code left` -/
  | noFreeCode
  deriving DecidableEq

/-- Trim the edges and collapse inner whitespace, then check the length. -/
def normalizeReminderTitle (raw : Text) : Except ValidationError Text :=
  let title := Text.join [' '] (Text.split raw)
  if 1 ≤ title.length ∧ title.length ≤ reminderTitleMaxLength then .ok title
  else .error .reminderTitle

/-- `unicodedata.category`, as far as the rule for an emoji looks at it. -/
inductive GeneralCategory
  | mn | me | cc | cf | zs | other
  deriving DecidableEq

def zwj : Char := Char.ofNat 0x200D
def keycap : Char := Char.ofNat 0x20E3

def isVariationSelector (c : Char) : Bool := decide (c.toNat = 0xFE0E) || decide (c.toNat = 0xFE0F)

def isSkinTone (c : Char) : Bool := decide (0x1F3FB ≤ c.toNat ∧ c.toNat < 0x1F400)

def isRegionalIndicator (c : Char) : Bool := decide (0x1F1E6 ≤ c.toNat ∧ c.toNat < 0x1F200)

section Emoji

variable (category : Char → GeneralCategory)

def isExtend (c : Char) : Bool :=
  isVariationSelector c || isSkinTone c || decide (c = keycap) || decide (category c = .mn) ||
    decide (category c = .me)

/-- Whitespace and control characters never belong to a category emoji. -/
def isForbidden (c : Char) : Bool :=
  if c = zwj then false
  else Text.isSpace c || decide (category c = .cc) || decide (category c = .cf) ||
    decide (category c = .zs)

/-- How far a grapheme cluster goes on from here. -/
def extension : Text → ℕ
  | [] => 0
  | c :: cs =>
    if isExtend category c then extension cs + 1
    else match cs with
      | d :: ds => if c = zwj ∧ isForbidden category d = false then extension ds + 2 else 0
      | [] => 0

/-- `_cluster_end` from the start of the text. -/
def clusterEnd : Text → ℕ
  | [] => 0
  | c :: cs =>
    if isForbidden category c then 0
    else match cs with
      | d :: ds =>
        if isRegionalIndicator c && isRegionalIndicator d then extension category ds + 2
        else extension category cs + 1
      | [] => 1

/-- Accept exactly one grapheme cluster. -/
def normalizeEmoji (raw : Text) : Except ValidationError Text :=
  let emoji := Text.strip raw
  if emoji = [] ∨ clusterEnd category emoji ≠ emoji.length then .error (.categoryEmoji raw)
  else .ok emoji

end Emoji

theorem mem_normalizeReminderTitle {raw title : Text} (h : normalizeReminderTitle raw = .ok title)
    {c : Char} (hc : Text.isSpace c = false) : c ∈ title ↔ c ∈ raw := by
  rw [normalizeReminderTitle] at h
  split at h <;> cases h
  have hspace : c ∉ [' '] := by
    intro hmem
    rw [List.mem_singleton.mp hmem] at hc
    exact absurd hc (by decide)
  rw [Text.mem_join hspace, Text.mem_split hc]

theorem mem_normalizeEmoji {category : Char → GeneralCategory} {raw emoji : Text}
    (h : normalizeEmoji category raw = .ok emoji) {c : Char} (hc : Text.isSpace c = false) :
    c ∈ emoji ↔ c ∈ raw := by
  rw [normalizeEmoji] at h
  split at h <;> cases h
  exact Text.mem_strip hc

end Remindo.Domain
