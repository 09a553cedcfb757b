import Remindo.Db.Repositories
import Remindo.Domain.Categories
import Remindo.Services.Reactions

namespace Remindo.Services.Categories

open Remindo.Domain Remindo.Db Remindo.Foundation
open Remindo.Db.Categories (listOwned listCodes countActiveReminders)

/-- A `ValidationError` ends the call. -/
def validated {α : Type} (x : Except ValidationError α) : Except ServiceError α :=
  x.mapError fun _ ↦ .validation

theorem validated_eq_ok {α : Type} {x : Except ValidationError α} {a : α} :
    validated x = .ok a ↔ x = .ok a := by
  cases x <;> simp [validated, Except.mapError]

section Calls

variable (alphabet : Alphabet)

/-- Two categories under one title differ only by an invisible code. -/
def rejectDuplicate (db : Database) (userId : ℕ) (title : Text) (excludeId : Option ℕ) :
    Except ServiceError Unit :=
  demand (∀ existing ∈ listOwned db userId, some existing.1 ≠ excludeId →
    alphabet.casefold existing.2.title ≠ alphabet.casefold title) .categoryExists

/-- An own category whose code is derived. The last three demands are the
table's own: `code_is_slug`, `uq_categories_owner_id_code` and the owner's
foreign key. -/
def create (db : Database) (userId : ℕ) (title emoji : Text) : Except ServiceError Database := do
  let cleanTitle ← validated (normalizeCategoryTitle title)
  let cleanEmoji ← validated (normalizeEmoji alphabet.category emoji)
  rejectDuplicate alphabet db userId cleanTitle none
  let code ← validated (nextFreeCode (slugifyCode alphabet cleanTitle) (listCodes db userId))
  demand (isCode code = true) .integrity
  demand (code ∉ listCodes db userId) .integrity
  demand (db.users userId).isSome .integrity
  return db.run (Db.Categories.add ⟨some userId, code, cleanTitle, cleanEmoji, none⟩)

def ownCategory (db : Database) (userId categoryId : ℕ) (allowArchived : Bool) :
    Except ServiceError Category := do
  let category ← require (db.categories categoryId)
  demand (category.archivedAt = none ∨ allowArchived = true) .notFound
  -- The presets are read-only.
  demand category.ownerId.isSome .permissionDenied
  demand (category.ownerId = some userId) .permissionDenied
  return category

/-- The code stays: it is an identity, not a label. -/
def rename (db : Database) (userId categoryId : ℕ) (title : Text) :
    Except ServiceError Database := do
  let _ ← ownCategory db userId categoryId false
  let cleanTitle ← validated (normalizeCategoryTitle title)
  rejectDuplicate alphabet db userId cleanTitle (some categoryId)
  return db.run (Db.Categories.updateFields categoryId fun c ↦ { c with title := cleanTitle })

/-- Hide an own category; whether this call has done it. -/
def archive (db : Database) (now : ℤ) (userId categoryId : ℕ) :
    Except ServiceError (Bool × Database) := do
  let category ← ownCategory db userId categoryId true
  if category.archivedAt.isSome then return (false, db)
  demand (countActiveReminders db categoryId = 0) .categoryInUse
  return (true,
    db.run (Db.Categories.updateFields categoryId fun c ↦ { c with archivedAt := some now }))

end Calls

section Outcomes

variable {alphabet : Alphabet} {db db' : Database} {userId categoryId : ℕ} {title emoji : Text}

theorem rejectDuplicate_eq_ok {excludeId : Option ℕ} {u : Unit}
    (h : rejectDuplicate alphabet db userId title excludeId = .ok u) {i : ℕ} {c : Category}
    (hc : db.categories i = some c) (howner : c.ownerId = some userId) (hlive : c.archivedAt = none)
    (hother : some i ≠ excludeId) : alphabet.casefold c.title ≠ alphabet.casefold title := by
  refine demand_eq_ok.mp h (i, c) (Table.mem_select.mpr ⟨hc, ?_⟩) hother
  simp [Db.Categories.isOwned, howner, hlive]

/-- A new category has a title and a code nobody of the owner's has. -/
theorem create_eq_ok (h : create alphabet db userId title emoji = .ok db') :
    ∃ c, db' = db.run (Db.Categories.add c) ∧ c.ownerId = some userId ∧ c.archivedAt = none ∧
      isCode c.code = true ∧ c.code ∉ listCodes db userId ∧
      ∀ i a, db.categories i = some a → a.ownerId = some userId → a.archivedAt = none →
        alphabet.casefold a.title ≠ alphabet.casefold c.title := by
  obtain ⟨cleanTitle, -, h⟩ := bind_eq_ok.mp h
  obtain ⟨cleanEmoji, -, h⟩ := bind_eq_ok.mp h
  obtain ⟨_, hfirst, h⟩ := bind_eq_ok.mp h
  obtain ⟨code, hcode, h⟩ := bind_eq_ok.mp h
  obtain ⟨_, hslug, h⟩ := bind_eq_ok.mp h
  obtain ⟨_, -, h⟩ := bind_eq_ok.mp h
  obtain ⟨_, -, h⟩ := bind_eq_ok.mp h
  cases h
  refine ⟨_, rfl, rfl, rfl, demand_eq_ok.mp hslug,
    notMem_of_nextFreeCode (validated_eq_ok.mp hcode), fun i a ha howner hlive ↦ ?_⟩
  exact rejectDuplicate_eq_ok hfirst ha howner hlive (by simp)

theorem ownCategory_eq_ok {allowArchived : Bool} {c : Category}
    (h : ownCategory db userId categoryId allowArchived = .ok c) :
    db.categories categoryId = some c ∧ c.ownerId = some userId ∧
      (c.archivedAt = none ∨ allowArchived = true) := by
  obtain ⟨c₀, hc, h⟩ := bind_eq_ok.mp h
  obtain ⟨_, hlive, h⟩ := bind_eq_ok.mp h
  obtain ⟨_, -, h⟩ := bind_eq_ok.mp h
  obtain ⟨_, howner, h⟩ := bind_eq_ok.mp h
  cases h
  exact ⟨require_eq_ok.mp hc, demand_eq_ok.mp howner, demand_eq_ok.mp hlive⟩

theorem rename_eq_ok (h : rename alphabet db userId categoryId title = .ok db') :
    ∃ c cleanTitle, db.categories categoryId = some c ∧ c.ownerId = some userId ∧
      db' = db.run (Db.Categories.updateFields categoryId fun c ↦ { c with title := cleanTitle }) ∧
      ∀ i a, db.categories i = some a → a.ownerId = some userId → a.archivedAt = none →
        i ≠ categoryId → alphabet.casefold a.title ≠ alphabet.casefold cleanTitle := by
  obtain ⟨c, hc, h⟩ := bind_eq_ok.mp h
  obtain ⟨cleanTitle, -, h⟩ := bind_eq_ok.mp h
  obtain ⟨_, hfirst, h⟩ := bind_eq_ok.mp h
  cases h
  obtain ⟨hrow, howner, -⟩ := ownCategory_eq_ok hc
  refine ⟨c, cleanTitle, hrow, howner, rfl, fun i a ha hown hlive hne ↦ ?_⟩
  exact rejectDuplicate_eq_ok hfirst ha hown hlive (by simpa using hne)

/-- The archive takes in only what no live reminder uses. -/
theorem archive_eq_ok {now : ℤ} {applied : Bool}
    (h : archive db now userId categoryId = .ok (applied, db')) :
    db' = db ∨ (∃ c, db.categories categoryId = some c ∧ c.ownerId = some userId) ∧
      db' = db.run (Db.Categories.updateFields categoryId fun c ↦ { c with archivedAt := some now }) ∧
      ∀ rid r, db.reminders rid = some r → r.categoryId = categoryId → r.status = .archived := by
  obtain ⟨c, hc, h⟩ := bind_eq_ok.mp h
  split at h
  · cases h
    exact .inl rfl
  · obtain ⟨_, hunused, h⟩ := bind_eq_ok.mp h
    cases h
    obtain ⟨hrow, howner, -⟩ := ownCategory_eq_ok hc
    refine .inr ⟨⟨c, hrow, howner⟩, rfl, fun rid r hr hcategory ↦ ?_⟩
    have hnone := Table.count_eq_zero.mp (demand_eq_ok.mp hunused) rid r hr
    simpa [hcategory] using hnone

end Outcomes

end Remindo.Services.Categories
