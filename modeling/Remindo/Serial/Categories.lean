import Remindo.Serial.Watermark
import Remindo.Services.Categories

namespace Remindo.Serial

open Remindo.Domain Remindo.Db Remindo.Services Remindo.Foundation

/-- A call on the categories, or any other. -/
inductive Request
  | create (userId : ℕ) (title emoji : Text)
  | rename (userId categoryId : ℕ) (title : Text)
  | archive (now : ℤ) (userId categoryId : ℕ)
  | other (op : Operation)

def serve (settings : Settings) (alphabet : Alphabet) (w : World) : Request → Option World
  | .create userId title emoji => w.over (Categories.create alphabet w.db userId title emoji)
  | .rename userId categoryId title => w.over (Categories.rename alphabet w.db userId categoryId title)
  | .archive now userId categoryId =>
    w.over ((Categories.archive w.db now userId categoryId).map Prod.snd)
  | .other op => perform settings w op

/-- What a live category of somebody's is found by. -/
def titleKey (alphabet : Alphabet) (c : Category) : Option (ℕ × Text) :=
  if c.archivedAt = none then c.ownerId.map fun owner ↦ (owner, alphabet.casefold c.title) else none

def codeKey (c : Category) : Option (ℕ × Text) := c.ownerId.map fun owner ↦ (owner, c.code)

structure Tidy (alphabet : Alphabet) (db : Database) : Prop where
  titles : db.categories.UniqueOn (titleKey alphabet)
  codes : db.categories.UniqueOn codeKey
  slugs : ∀ i c, db.categories i = some c → c.ownerId.isSome = true → isCode c.code = true
  unused : ∀ i c rid r, db.categories i = some c → c.archivedAt.isSome = true →
    db.reminders rid = some r → r.categoryId = i → r.status = .archived

section Keys

variable {alphabet : Alphabet} {c : Category} {owner : ℕ} {title : Text}

theorem titleKey_eq_some : titleKey alphabet c = some (owner, title) ↔
    c.archivedAt = none ∧ c.ownerId = some owner ∧ alphabet.casefold c.title = title := by
  rw [titleKey]
  split <;> simp [*]

theorem codeKey_eq_some {code : Text} :
    codeKey c = some (owner, code) ↔ c.ownerId = some owner ∧ c.code = code := by
  simp [codeKey]

end Keys

section Calls

variable {alphabet : Alphabet} {db db' : Database} {userId categoryId : ℕ} {title emoji : Text}

theorem Tidy.create (h : Tidy alphabet db)
    (hcall : Categories.create alphabet db userId title emoji = .ok db') : Tidy alphabet db' := by
  obtain ⟨c, rfl, howner, hlive, hslug, hcode, htitle⟩ := Categories.create_eq_ok hcall
  have hrow : ∀ {i a}, (db.run (Db.Categories.add c)).categories i = some a →
      db.categories i = some a ∨ i = db.categories.next ∧ a = c := Table.insert_some
  refine ⟨h.titles.insert ?titles, h.codes.insert ?codes, fun i a ha hown ↦ ?slugs,
    fun i a rid r ha harchived hr hcategory ↦ ?unused⟩
  case titles =>
    rintro j s ⟨owner, t⟩ hs hs' hc
    obtain ⟨hslive, hsowner, rfl⟩ := titleKey_eq_some.mp hs'
    obtain ⟨-, hcowner, hsame⟩ := titleKey_eq_some.mp hc
    obtain rfl := Option.some_inj.mp (howner.symm.trans hcowner)
    exact htitle j s hs hsowner hslive hsame.symm
  case codes =>
    rintro j s ⟨owner, code⟩ hs hs' hc
    obtain ⟨hsowner, rfl⟩ := codeKey_eq_some.mp hs'
    obtain ⟨hcowner, hsame⟩ := codeKey_eq_some.mp hc
    obtain rfl := Option.some_inj.mp (howner.symm.trans hcowner)
    exact hcode (hsame ▸ Db.Categories.mem_listCodes hs hsowner)
  case slugs =>
    rcases hrow ha with hold | ⟨-, rfl⟩
    · exact h.slugs i a hold hown
    · exact hslug
  case unused =>
    rcases hrow ha with hold | ⟨-, rfl⟩
    · exact h.unused i a rid r hold harchived hr hcategory
    · rw [hlive] at harchived
      cases harchived

/-- A category keeps its owner and its code. -/
theorem Tidy.updateFields (h : Tidy alphabet db) {values : Category → Category}
    (howner : ∀ c, (values c).ownerId = c.ownerId) (hcode : ∀ c, (values c).code = c.code)
    (htitles : (db.run (Db.Categories.updateFields categoryId values)).categories.UniqueOn
      (titleKey alphabet))
    (hunused : ∀ c rid r, db.categories categoryId = some c →
      (values c).archivedAt.isSome = true → db.reminders rid = some r → r.categoryId = categoryId →
        r.status = .archived) :
    Tidy alphabet (db.run (Db.Categories.updateFields categoryId values)) := by
  refine ⟨htitles, h.codes.update_of_eq fun c ↦ by rw [codeKey, codeKey, howner, hcode],
    fun i c hc hown ↦ ?_, fun i c rid r hc harchived hr hcategory ↦ ?_⟩
  · rw [Db.Categories.categories_updateFields] at hc
    split at hc
    · obtain ⟨c₀, hc₀, rfl⟩ := Option.map_eq_some_iff.mp hc
      rw [hcode]
      exact h.slugs categoryId c₀ hc₀ (howner c₀ ▸ hown)
    · exact h.slugs i c hc hown
  · rw [Db.Categories.categories_updateFields] at hc
    split at hc
    · rename_i hi
      obtain ⟨c₀, hc₀, rfl⟩ := Option.map_eq_some_iff.mp hc
      exact hunused c₀ rid r hc₀ harchived hr (hcategory.trans hi)
    · exact h.unused i c rid r hc harchived hr hcategory

theorem Tidy.rename (h : Tidy alphabet db)
    (hcall : Categories.rename alphabet db userId categoryId title = .ok db') : Tidy alphabet db' := by
  obtain ⟨c, cleanTitle, hc, howner, rfl, htitle⟩ := Categories.rename_eq_ok hcall
  refine h.updateFields (fun _ ↦ rfl) (fun _ ↦ rfl) (h.titles.update ?_)
    fun c' rid r hc' ↦ h.unused categoryId c' rid r hc'
  rintro c' j s ⟨owner, t⟩ hc' hs hne hs' hrenamed
  obtain rfl := Option.some_inj.mp (hc.symm.trans hc')
  obtain ⟨hslive, hsowner, rfl⟩ := titleKey_eq_some.mp hs'
  obtain ⟨-, hcowner, hsame⟩ := titleKey_eq_some.mp hrenamed
  obtain rfl := Option.some_inj.mp (howner.symm.trans hcowner)
  exact htitle j s hs hsowner hslive hne hsame.symm

theorem Tidy.archive {now : ℤ} {applied : Bool} (h : Tidy alphabet db)
    (hcall : Categories.archive db now userId categoryId = .ok (applied, db')) :
    Tidy alphabet db' := by
  rcases Categories.archive_eq_ok hcall with rfl | ⟨-, rfl, hunused⟩
  · exact h
  · refine h.updateFields (fun _ ↦ rfl) (fun _ ↦ rfl) (h.titles.update ?_)
      fun _ rid r _ _ ↦ hunused rid r
    rintro c j s ⟨owner, t⟩ - - - - harchived
    obtain ⟨hlive, -⟩ := titleKey_eq_some.mp harchived
    cases hlive

end Calls

section Runs

variable {settings : Settings} {alphabet : Alphabet} {w w' : World}

/-- Whoever gives a reminder a category has seen that it is live. -/
theorem Tidy.perform {op : Operation} (h : Tidy alphabet w.db)
    (hstep : perform settings w op = some w') : Tidy alphabet w'.db := by
  have hsame := perform_categories hstep
  refine ⟨hsame ▸ h.titles, hsame ▸ h.codes, hsame ▸ h.slugs, fun i c rid r' hc harchived hr' hcategory ↦ ?_⟩
  rw [hsame] at hc
  have hlive (ownerId : ℕ) : ¬Reminders.MayUse w.db ownerId i := by
    rintro ⟨c', hc', hlive, -⟩
    obtain rfl := Option.some_inj.mp (hc.symm.trans hc')
    rw [hlive] at harchived
    cases harchived
  by_contra hopen
  cases hr : w.db.reminders rid with
  | none => exact hlive _ (hcategory ▸ perform_reminder_new hstep hr' hr)
  | some r =>
    obtain ⟨r'', hr'', hamends⟩ := perform_reminder hstep hr
    obtain rfl := Option.some_inj.mp (hr'.symm.trans hr'')
    obtain ⟨hopened, hkept | huse⟩ := hamends.opened hopen
    · exact hopened (h.unused i c rid r hc harchived hr (hkept ▸ hcategory))
    · exact hlive _ (hcategory ▸ huse)

theorem Tidy.serve {request : Request} (h : Tidy alphabet w.db)
    (hstep : serve settings alphabet w request = some w') : Tidy alphabet w'.db := by
  cases request with
  | create userId title emoji =>
    obtain ⟨db', hdb, rfl⟩ := over_eq_some hstep
    exact h.create hdb
  | rename userId categoryId title =>
    obtain ⟨db', hdb, rfl⟩ := over_eq_some hstep
    exact h.rename hdb
  | archive now userId categoryId =>
    obtain ⟨applied, db', hcall, rfl⟩ := over_snd_eq_some hstep
    exact h.archive hcall
  | other op => exact h.perform hstep

/-- A store that starts with the presets keeps its titles and its codes apart,
every code a slug, and no live reminder in an archived category. -/
theorem categories_tidy {users : Table User} {categories : Table Category} {requests : List Request}
    (hpresets : ∀ i c, categories i = some c → c.ownerId = none)
    (hrun : run (Serial.serve settings alphabet) (.initial users categories) requests = some w) :
    (∀ owner i j a b, w.db.categories i = some a → w.db.categories j = some b →
      a.ownerId = some owner → b.ownerId = some owner → a.archivedAt = none → b.archivedAt = none →
        i ≠ j → alphabet.casefold a.title ≠ alphabet.casefold b.title) ∧
    (∀ owner i j a b, w.db.categories i = some a → w.db.categories j = some b →
      a.ownerId = some owner → b.ownerId = some owner → i ≠ j → a.code ≠ b.code) ∧
    (∀ owner i c, w.db.categories i = some c → c.ownerId = some owner → isCode c.code = true) ∧
    ∀ i c rid r, w.db.categories i = some c → c.archivedAt.isSome = true →
      w.db.reminders rid = some r → r.categoryId = i → r.status = .archived := by
  have hstart : Tidy alphabet (World.initial users categories).db := by
    have hnobody (i : ℕ) (c : Category) (hc : (World.initial users categories).db.categories i =
        some c) : c.ownerId = none := hpresets i c hc
    refine ⟨?_, ?_, fun i c hc hown ↦ ?_, fun i c rid r hc harchived hr ↦ by cases hr⟩
    · rintro i j a b ⟨owner, t⟩ ha - hkey
      rw [titleKey_eq_some, hnobody i a ha] at hkey
      cases hkey.2.1
    · rintro i j a b ⟨owner, t⟩ ha - hkey
      rw [codeKey_eq_some, hnobody i a ha] at hkey
      cases hkey.1
    · rw [hnobody i c hc] at hown
      cases hown
  have htidy := run_preserves (P := fun w : World ↦ Tidy alphabet w.db)
    (fun _ _ _ h hstep ↦ h.serve hstep) hrun hstart
  refine ⟨fun owner i j a b ha hb howner howner' hlive hlive' hne hsame ↦ hne ?_,
    fun owner i j a b ha hb howner howner' hne hsame ↦ hne ?_,
    fun owner i c hc howner ↦ htidy.slugs i c hc (by rw [howner]; rfl), htidy.unused⟩
  · exact htidy.titles i j a b _ ha hb (titleKey_eq_some.mpr ⟨hlive, howner, rfl⟩)
      (titleKey_eq_some.mpr ⟨hlive', howner', hsame.symm⟩)
  · exact htidy.codes i j a b _ ha hb (codeKey_eq_some.mpr ⟨howner, rfl⟩)
      (codeKey_eq_some.mpr ⟨howner', hsame.symm⟩)

/-- Enough for titles in ASCII. -/
def sampleAlphabet : Alphabet where
  nfkd := id
  casefold := List.map Char.toLower
  combining := fun _ ↦ false
  category := fun _ ↦ .other
  hexdigest := fun _ ↦ "0123456789abcdef".toList

theorem nextFreeCode_slugifyCode_sport :
    ∃ code, nextFreeCode (slugifyCode sampleAlphabet "Sport".toList) {"sport".toList} = .ok code ∧
      code ∉ ({"sport".toList} : Finset Text) ∧ isCode code = true :=
  nextFreeCode_slugifyCode
    (fun _ ↦ List.all_eq_true.mp (by decide : "0123456789abcdef".toList.all isHexDigit = true))
    (by decide) _

/-- A category is renamed and archived, and its old title used again while a
reminder uses another one. -/
def sampleRequests : List Request :=
  [.create 0 "Sport".toList "⚽".toList, .create 0 "Home".toList "🏠".toList,
    .rename 0 1 "Gym".toList, .create 0 " sport".toList "🏃".toList, .archive day 0 1,
    .create 0 "gym".toList "🎾".toList, .other (.create day 0 { sampleDraft with categoryId := 3 })]

theorem sampleRequests_run :
    (run (serve sampleSettings sampleAlphabet) (.initial sampleUsers sampleCategories)
      sampleRequests).isSome = true := by
  decide +kernel

theorem sampleCategories_presets (i : ℕ) (c : Category) (h : sampleCategories i = some c) :
    c.ownerId = none := by
  obtain rfl := List.mem_singleton.mp (List.mem_of_getElem? h)
  rfl

theorem categories_tidy_sample :
    let w := (run (serve sampleSettings sampleAlphabet) (.initial sampleUsers sampleCategories)
      sampleRequests).get sampleRequests_run
    (∀ owner i j a b, w.db.categories i = some a → w.db.categories j = some b →
      a.ownerId = some owner → b.ownerId = some owner → a.archivedAt = none → b.archivedAt = none →
        i ≠ j → sampleAlphabet.casefold a.title ≠ sampleAlphabet.casefold b.title) ∧
    (∀ owner i j a b, w.db.categories i = some a → w.db.categories j = some b →
      a.ownerId = some owner → b.ownerId = some owner → i ≠ j → a.code ≠ b.code) ∧
    (∀ owner i c, w.db.categories i = some c → c.ownerId = some owner → isCode c.code = true) ∧
    ∀ i c rid r, w.db.categories i = some c → c.archivedAt.isSome = true →
      w.db.reminders rid = some r → r.categoryId = i → r.status = .archived :=
  categories_tidy sampleCategories_presets (Option.some_get _).symm

end Runs

end Remindo.Serial
