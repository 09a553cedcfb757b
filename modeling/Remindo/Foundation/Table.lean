import Mathlib.Data.List.Nodup
import Mathlib.Data.Nat.Notation

namespace Remindo.Foundation

/-- A table with a sequence: rows by id, none of them past the next id. -/
structure Table (α : Type) where
  rows : ℕ → Option α
  next : ℕ
  fresh : ∀ i, next ≤ i → rows i = none

namespace Table

variable {α : Type}

instance : CoeFun (Table α) fun _ ↦ ℕ → Option α := ⟨Table.rows⟩

def empty : Table α := ⟨fun _ ↦ none, 0, fun _ _ ↦ rfl⟩

def ofList (l : List α) : Table α :=
  ⟨fun i ↦ l[i]?, l.length, fun _ h ↦ List.getElem?_eq_none h⟩

theorem lt_next {t : Table α} {i : ℕ} {r : α} (h : t i = some r) : i < t.next := by
  by_contra hge
  rw [t.fresh i (by omega)] at h
  cases h

section Writing

/-- Advance the sequence past an id. -/
def touch (t : Table α) (i : ℕ) : Table α :=
  ⟨t.rows, max t.next (i + 1), fun j h ↦ t.fresh j (by omega)⟩

def write (t : Table α) (i : ℕ) (v : Option α) : Table α where
  rows j := if j = i then v else t j
  next := max t.next (i + 1)
  fresh j h := by rw [if_neg (by omega), t.fresh j (by omega)]

def touches (t : Table α) (ws : List (ℕ × Option α)) : Table α :=
  ws.foldl (fun t w ↦ t.touch w.1) t

def writes (t : Table α) (ws : List (ℕ × Option α)) : Table α :=
  ws.foldl (fun t w ↦ t.write w.1 w.2) t

@[simp] theorem write_apply (t : Table α) (i : ℕ) (v : Option α) (j : ℕ) :
    t.write i v j = if j = i then v else t j := rfl

@[simp] theorem touches_apply (t : Table α) (ws : List (ℕ × Option α)) (j : ℕ) :
    t.touches ws j = t j := by
  induction ws generalizing t with
  | nil => rfl
  | cons w ws ih => exact ih (t.touch w.1)

@[simp] theorem writes_nil (t : Table α) : t.writes [] = t := rfl

theorem writes_cons (t : Table α) (w : ℕ × Option α) (ws : List (ℕ × Option α)) :
    t.writes (w :: ws) = (t.write w.1 w.2).writes ws := rfl

theorem writes_apply_of_notMem {t : Table α} {ws : List (ℕ × Option α)} {j : ℕ}
    (h : j ∉ ws.map Prod.fst) : t.writes ws j = t j := by
  induction ws generalizing t with
  | nil => rfl
  | cons w ws ih =>
    rw [List.map_cons, List.mem_cons, not_or] at h
    rw [writes_cons, ih h.2, write_apply, if_neg h.1]

theorem writes_apply_of_mem {t : Table α} {ws : List (ℕ × Option α)} {j : ℕ} {v : Option α}
    (hnodup : (ws.map Prod.fst).Nodup) (h : (j, v) ∈ ws) : t.writes ws j = v := by
  induction ws generalizing t with
  | nil => cases h
  | cons w ws ih =>
    rw [List.map_cons, List.nodup_cons] at hnodup
    rw [writes_cons]
    rcases List.mem_cons.mp h with rfl | h
    · rw [writes_apply_of_notMem hnodup.1, write_apply, if_pos rfl]
    · exact ih hnodup.2 h

/-- What a row becomes depends on the writes alone once they reach it. -/
theorem writes_apply_congr {t t' : Table α} {ws : List (ℕ × Option α)} {j : ℕ}
    (h : t j = t' j ∨ j ∈ ws.map Prod.fst) : t.writes ws j = t'.writes ws j := by
  induction ws generalizing t t' with
  | nil => exact h.resolve_right (by simp)
  | cons w ws ih =>
    rw [writes_cons, writes_cons]
    refine ih ?_
    rw [List.map_cons, List.mem_cons] at h
    by_cases hj : j = w.1
    · exact .inl (by rw [write_apply, write_apply, if_pos hj, if_pos hj])
    · rcases h with h | h | h
      · exact .inl (by rw [write_apply, write_apply, h])
      · exact absurd h hj
      · exact .inr h

end Writing

section Reading

/-- The rows a predicate picks, in the order of their ids. -/
def select (t : Table α) (p : ℕ → α → Bool) : List (ℕ × α) :=
  (List.range t.next).filterMap fun i ↦ (t i).bind fun r ↦ if p i r then some (i, r) else none

theorem mem_select {t : Table α} {p : ℕ → α → Bool} {i : ℕ} {r : α} :
    (i, r) ∈ t.select p ↔ t i = some r ∧ p i r = true := by
  simp only [select, List.mem_filterMap, List.mem_range, Option.bind_eq_some_iff]
  constructor
  · intro ⟨j, _, s, hrow, hpick⟩
    split at hpick
    · cases hpick
      exact ⟨hrow, ‹_›⟩
    · cases hpick
  · intro ⟨hrow, hp⟩
    exact ⟨i, lt_next hrow, r, hrow, if_pos hp⟩

theorem filter_select (t : Table α) (p q : ℕ → α → Bool) :
    (t.select p).filter (fun x ↦ q x.1 x.2) = t.select fun i r ↦ p i r && q i r := by
  rw [select, List.filter_filterMap, select]
  congr 1
  funext i
  cases t i with
  | none => rfl
  | some r => cases hp : p i r <;> cases hq : q i r <;> simp [hp, hq]

theorem pairwise_select (t : Table α) (p : ℕ → α → Bool) :
    (t.select p).Pairwise fun a b ↦ a.1 < b.1 := by
  refine List.pairwise_filterMap.mpr (List.pairwise_lt_range.imp ?_)
  intro i j hij a ha b hb
  have hid : ∀ {k : ℕ} {c : ℕ × α},
      ((t k).bind fun r ↦ if p k r then some (k, r) else none) = some c → c.1 = k := by
    intro k c hc
    obtain ⟨r, -, hr⟩ := Option.bind_eq_some_iff.mp hc
    split at hr <;> cases hr
    rfl
  rw [hid ha, hid hb]
  exact hij

theorem nodup_select_ids (t : Table α) (p : ℕ → α → Bool) : ((t.select p).map Prod.fst).Nodup :=
  List.pairwise_map.mpr ((t.pairwise_select p).imp Nat.ne_of_lt)

def count (t : Table α) (p : α → Bool) : ℕ := (t.select fun _ r ↦ p r).length

theorem countP_range_of_le {t : Table α} (p : ℕ → α → Bool) {n : ℕ} (h : t.next ≤ n) :
    ((List.range n).countP fun i ↦ (t i).any (p i)) = (t.select p).length := by
  induction h with
  | refl =>
    rw [select, List.length_filterMap_eq_countP]
    refine List.countP_congr fun i _ ↦ ?_
    cases t i with
    | none => simp
    | some r => by_cases hp : p i r = true <;> simp [hp]
  | @step n hn ih =>
    rw [List.range_succ, List.countP_append, ih, List.countP_singleton, t.fresh n hn]
    rfl

theorem length_select_congr {β : Type} {t : Table α} {t' : Table β} {p : ℕ → α → Bool}
    {q : ℕ → β → Bool} (h : ∀ i, (t i).any (p i) = (t' i).any (q i)) :
    (t.select p).length = (t'.select q).length := by
  rw [← countP_range_of_le p (Nat.le_max_left t.next t'.next),
    ← countP_range_of_le q (Nat.le_max_right t.next t'.next)]
  exact List.countP_congr fun i _ ↦ by rw [h]

theorem count_congr {β : Type} {t : Table α} {t' : Table β} {p : α → Bool} {q : β → Bool}
    (h : ∀ i, (t i).any p = (t' i).any q) : t.count p = t'.count q := length_select_congr h

theorem count_le {t t' : Table α} {p : α → Bool}
    (h : ∀ i, (t i).any p = true → (t' i).any p = true) : t.count p ≤ t'.count p := by
  rw [count, count, ← countP_range_of_le _ (Nat.le_max_left t.next t'.next),
    ← countP_range_of_le _ (Nat.le_max_right t.next t'.next)]
  exact List.countP_mono_left fun i _ hi ↦ h i hi

theorem count_mono {t t' : Table α} {p : α → Bool}
    (h : ∀ i r, t i = some r → p r = true → t' i = some r) : t.count p ≤ t'.count p := by
  refine count_le fun i hi ↦ ?_
  obtain ⟨r, hr, hp⟩ := (Option.any_eq_true _ _).mp hi
  rw [h i r hr hp, Option.any_some, hp]

theorem count_le_succ {t t' : Table α} {p : α → Bool} {k : ℕ}
    (h : ∀ i, i ≠ k → (t i).any p = true → (t' i).any p = true) :
    t.count p ≤ t'.count p + 1 := by
  rw [count, count, ← countP_range_of_le _ (Nat.le_max_left t.next t'.next),
    ← countP_range_of_le _ (Nat.le_max_right t.next t'.next)]
  have hupto : ∀ n, ((List.range n).countP fun i ↦ (t i).any p) ≤
      ((List.range n).countP fun i ↦ (t' i).any p) + 1 ∧ (n ≤ k →
      ((List.range n).countP fun i ↦ (t i).any p) ≤
        (List.range n).countP fun i ↦ (t' i).any p) := by
    intro n
    induction n with
    | zero => simp
    | succ n ih =>
      rw [List.range_succ, List.countP_append, List.countP_append, List.countP_singleton,
        List.countP_singleton]
      by_cases hk : n = k
      · have hle := ih.2 (Nat.le_of_eq hk)
        refine ⟨?_, fun hn ↦ by omega⟩
        split <;> split <;> omega
      · have hrow : (if (t n).any p = true then 1 else 0) ≤
            if (t' n).any p = true then 1 else 0 := by
          by_cases hn : (t n).any p = true
          · simp [hn, h n hk hn]
          · rw [if_neg hn]
            exact Nat.zero_le _
        exact ⟨by omega, fun hn ↦ by have := ih.2 (by omega); omega⟩
  exact (hupto _).1

theorem count_eq_zero {t : Table α} {p : α → Bool} :
    t.count p = 0 ↔ ∀ i r, t i = some r → p r = false := by
  rw [count, List.length_eq_zero_iff, List.eq_nil_iff_forall_not_mem]
  constructor
  · intro h i r hr
    exact eq_false_of_ne_true fun hp ↦ h (i, r) (mem_select.mpr ⟨hr, hp⟩)
  · intro h ⟨i, r⟩ hmem
    obtain ⟨hr, hp⟩ := mem_select.mp hmem
    rw [h i r hr] at hp
    cases hp

def find (t : Table α) (p : α → Bool) : Option (ℕ × α) := (t.select fun _ r ↦ p r).head?

theorem find_some {t : Table α} {p : α → Bool} {i : ℕ} {r : α} (h : t.find p = some (i, r)) :
    t i = some r ∧ p r = true := mem_select.mp (List.mem_of_mem_head? h)

theorem find_none {t : Table α} {p : α → Bool} :
    t.find p = none ↔ ∀ i r, t i = some r → p r = false := by
  rw [find, List.head?_eq_none_iff, ← List.length_eq_zero_iff, ← count, count_eq_zero]

end Reading

section Statements

/-- `UPDATE ... WHERE id = i`. -/
def update (t : Table α) (i : ℕ) (f : α → α) : List (ℕ × Option α) :=
  ((t i).map fun r ↦ (i, some (f r))).toList

def updateWhere (t : Table α) (p : ℕ → α → Bool) (f : α → α) : List (ℕ × Option α) :=
  (t.select p).map fun r ↦ (r.1, some (f r.2))

def deleteWhere (t : Table α) (p : ℕ → α → Bool) : List (ℕ × Option α) :=
  (t.select p).map fun r ↦ (r.1, none)

def insert (t : Table α) (rs : List α) : List (ℕ × Option α) :=
  rs.mapIdx fun k r ↦ (t.next + k, some r)

/-- The rows an `ON CONFLICT DO NOTHING` lets through, in order: those whose
key is neither taken nor claimed by an earlier one. -/
def missing {κ : Type} [DecidableEq κ] (key : α → κ) (taken : κ → Bool) : List α → List α
  | [] => []
  | r :: rs =>
    if taken (key r) then missing key taken rs
    else r :: missing key (fun k ↦ taken k || decide (k = key r)) rs

def insertMissing {κ : Type} [DecidableEq κ] (t : Table α) (key : α → κ) (rs : List α) :
    List (ℕ × Option α) :=
  t.insert (missing key (fun k ↦ (t.find fun r ↦ key r = k).isSome) rs)

@[simp] theorem writes_update (t : Table α) (i : ℕ) (f : α → α) (j : ℕ) :
    t.writes (t.update i f) j = if j = i then (t i).map f else t j := by
  rw [update]
  cases h : t i with
  | none =>
    rw [Option.map_none, Option.toList_none, writes_nil, Option.map_none]
    split
    · rw [‹j = i›, h]
    · rfl
  | some r => rfl

@[simp] theorem writes_updateWhere (t : Table α) (p : ℕ → α → Bool) (f : α → α) (j : ℕ) :
    t.writes (t.updateWhere p f) j = (t j).map fun r ↦ if p j r then f r else r := by
  have hids : ((t.updateWhere p f).map Prod.fst) = (t.select p).map Prod.fst := by
    rw [updateWhere, List.map_map]
    rfl
  cases h : t j with
  | none =>
    rw [writes_apply_of_notMem, h, Option.map_none]
    rw [hids]
    intro hmem
    obtain ⟨⟨_, r⟩, hr, rfl⟩ := List.mem_map.mp hmem
    rw [(mem_select.mp hr).1] at h
    cases h
  | some r =>
    rw [Option.map_some]
    by_cases hp : p j r = true
    · rw [if_pos hp]
      refine writes_apply_of_mem (hids ▸ t.nodup_select_ids p) ?_
      exact List.mem_map.mpr ⟨(j, r), mem_select.mpr ⟨h, hp⟩, rfl⟩
    · rw [if_neg hp, writes_apply_of_notMem, h]
      rw [hids]
      intro hmem
      obtain ⟨⟨_, r'⟩, hr, rfl⟩ := List.mem_map.mp hmem
      obtain ⟨hrow, hp'⟩ := mem_select.mp hr
      rw [h] at hrow
      cases hrow
      exact hp hp'

@[simp] theorem writes_deleteWhere (t : Table α) (p : ℕ → α → Bool) (j : ℕ) :
    t.writes (t.deleteWhere p) j = (t j).filter fun r ↦ !p j r := by
  have hids : ((t.deleteWhere p).map Prod.fst) = (t.select p).map Prod.fst := by
    rw [deleteWhere, List.map_map]
    rfl
  by_cases hmem : j ∈ (t.select p).map Prod.fst
  · obtain ⟨⟨_, r⟩, hr, rfl⟩ := List.mem_map.mp hmem
    obtain ⟨hrow, hp⟩ := mem_select.mp hr
    rw [hrow, Option.filter_some, hp]
    exact writes_apply_of_mem (hids ▸ t.nodup_select_ids p) (List.mem_map.mpr ⟨_, hr, rfl⟩)
  · rw [writes_apply_of_notMem (hids ▸ hmem)]
    cases h : t j with
    | none => rfl
    | some r =>
      have hp : ¬p j r = true := fun hp ↦
        hmem (List.mem_map.mpr ⟨(j, r), mem_select.mpr ⟨h, hp⟩, rfl⟩)
      rw [Option.filter_some, eq_false_of_ne_true hp]
      rfl

theorem insert_ids (t : Table α) (rs : List α) :
    (t.insert rs).map Prod.fst = (List.range rs.length).map (t.next + ·) := by
  refine List.ext_getElem (by simp [insert]) ?_
  intro k h h'
  simp [insert]

theorem nodup_insert_ids (t : Table α) (rs : List α) : ((t.insert rs).map Prod.fst).Nodup := by
  rw [insert_ids]
  exact List.nodup_range.map fun a b h ↦ Nat.add_left_cancel h

@[simp] theorem writes_insert (t : Table α) (rs : List α) (j : ℕ) :
    t.writes (t.insert rs) j = if j < t.next then t j else rs[j - t.next]? := by
  split
  · refine writes_apply_of_notMem ?_
    rw [insert_ids]
    intro hmem
    obtain ⟨k, -, rfl⟩ := List.mem_map.mp hmem
    omega
  · rcases Nat.lt_or_ge (j - t.next) rs.length with hlt | hge
    · refine writes_apply_of_mem (t.nodup_insert_ids rs) ?_
      rw [insert, List.mem_mapIdx]
      refine ⟨j - t.next, hlt, ?_⟩
      rw [List.getElem?_eq_getElem hlt]
      congr 1
      omega
    · rw [List.getElem?_eq_none hge, writes_apply_of_notMem, t.fresh j (by omega)]
      rw [insert_ids]
      intro hmem
      obtain ⟨k, hk, rfl⟩ := List.mem_map.mp hmem
      rw [List.mem_range] at hk
      omega

theorem insert_some {t : Table α} {r s : α} {i : ℕ} (h : t.writes (t.insert [r]) i = some s) :
    t i = some s ∨ i = t.next ∧ s = r := by
  rw [writes_insert] at h
  split at h
  · exact .inl h
  · have hlast : i - t.next = 0 := by
      by_contra hne
      rw [List.getElem?_eq_none (by simp only [List.length_singleton]; omega)] at h
      cases h
    rw [hlast] at h
    cases h
    exact .inr ⟨by omega, rfl⟩

theorem next_writes_update (t : Table α) (i : ℕ) (f : α → α) :
    (t.writes (t.update i f)).next = t.next := by
  rw [update]
  cases h : t i with
  | none => rfl
  | some r => exact Nat.max_eq_left (lt_next h)

theorem next_writes_of_lt {t : Table α} {ws : List (ℕ × Option α)} (h : ∀ w ∈ ws, w.1 < t.next) :
    (t.writes ws).next = t.next := by
  induction ws generalizing t with
  | nil => rfl
  | cons w ws ih =>
    have hnext : (t.write w.1 w.2).next = t.next := Nat.max_eq_left (h w List.mem_cons_self)
    rw [writes_cons, ih fun v hv ↦ hnext.symm ▸ h v (List.mem_cons_of_mem _ hv), hnext]

theorem next_writes_updateWhere (t : Table α) (p : ℕ → α → Bool) (f : α → α) :
    (t.writes (t.updateWhere p f)).next = t.next := by
  refine next_writes_of_lt fun w hw ↦ ?_
  obtain ⟨x, hx, rfl⟩ := List.mem_map.mp hw
  exact lt_next (mem_select.mp hx).1

theorem next_writes_insert (t : Table α) (rs : List α) :
    (t.writes (t.insert rs)).next = t.next + rs.length := by
  have hgen : ∀ (l : List α) (t' : Table α) (k : ℕ), t'.next = t.next + k →
      (t'.writes (l.mapIdx fun j r ↦ (t.next + (k + j), some r))).next = t.next + (k + l.length) := by
    intro l
    induction l with
    | nil => intro t' k hk; exact hk
    | cons r l ih =>
      intro t' k hk
      rw [List.mapIdx_cons, writes_cons, List.length_cons]
      have hnext : (t'.write (t.next + (k + 0)) (some r)).next = t.next + (k + 1) := by
        simp only [write, hk]; omega
      have hstep := ih _ (k + 1) hnext
      simp only [Nat.add_right_comm k, ← Nat.add_assoc] at hstep ⊢
      exact hstep
  simpa only [insert, Nat.zero_add] using hgen rs t 0 rfl

theorem next_le_writes (t : Table α) (ws : List (ℕ × Option α)) : t.next ≤ (t.writes ws).next := by
  induction ws generalizing t with
  | nil => exact Nat.le_refl _
  | cons w ws ih => exact Nat.le_trans (Nat.le_max_left _ _) (ih (t.write w.1 w.2))

theorem countP_range_getElem? (rs : List α) (p : α → Bool) :
    ((List.range rs.length).countP fun k ↦ rs[k]?.any p) = rs.countP p := by
  induction rs with
  | nil => rfl
  | cons r rs ih =>
    rw [List.length_cons, List.range_succ_eq_map, List.countP_cons, List.countP_cons,
      List.countP_map, ← ih]
    rfl

theorem count_writes_insert (t : Table α) (rs : List α) (p : α → Bool) :
    (t.writes (t.insert rs)).count p = t.count p + rs.countP p := by
  rw [count, count, ← countP_range_of_le _ (Nat.le_refl _), ← countP_range_of_le _ (Nat.le_refl _),
    next_writes_insert, List.range_add, List.countP_append, List.countP_map]
  congr 1
  · refine List.countP_congr fun i hi ↦ ?_
    rw [writes_insert, if_pos (List.mem_range.mp hi)]
  · rw [← countP_range_getElem? rs p]
    refine List.countP_congr fun k _ ↦ ?_
    rw [Function.comp_apply, writes_insert, if_neg (by omega), Nat.add_sub_cancel_left]

theorem count_writes_deleteWhere (t : Table α) {p : ℕ → α → Bool} {q : α → Bool}
    (h : ∀ i r, p i r = true → q r = true) :
    (t.writes (t.deleteWhere p)).count q + (t.deleteWhere p).length = t.count q := by
  have hkept : (t.writes (t.deleteWhere p)).count q = (t.select fun i r ↦ q r && !p i r).length := by
    refine length_select_congr fun i ↦ ?_
    rw [writes_deleteWhere]
    cases t i with
    | none => rfl
    | some r => cases hp : p i r <;> simp [hp]
  rw [hkept, deleteWhere, List.length_map, count, ← countP_range_of_le _ (Nat.le_refl _),
    ← countP_range_of_le _ (Nat.le_refl _), ← countP_range_of_le _ (Nat.le_refl _)]
  induction List.range t.next with
  | nil => rfl
  | cons i rest ih =>
    simp only [List.countP_cons]
    cases t i with
    | none => simpa using ih
    | some r =>
      cases hp : p i r with
      | false =>
        simp only [Option.any_some, hp, Bool.not_false, Bool.and_true, Bool.false_eq_true, if_false]
        omega
      | true =>
        simp only [Option.any_some, hp, h i r hp, Bool.not_true, Bool.and_false, Bool.false_eq_true,
          if_false, if_true]
        omega

end Statements

section Conflicts

variable {κ : Type} [DecidableEq κ] {key : α → κ}

/-- No two rows share a key. -/
def Unique (t : Table α) (key : α → κ) : Prop :=
  ∀ i j r s, t i = some r → t j = some s → key r = key s → i = j

omit [DecidableEq κ] in
theorem unique_ofList {l : List α} (h : (l.map key).Nodup) : (ofList l).Unique key := by
  intro i j r s hr hs hkey
  have hi : (l.map key)[i]? = some (key r) :=
    List.getElem?_map.trans (congrArg (Option.map key) hr)
  have hj : (l.map key)[j]? = some (key r) :=
    hkey ▸ List.getElem?_map.trans (congrArg (Option.map key) hs)
  exact (List.getElem?_inj (List.getElem?_eq_some_iff.mp hi).1 h).mp (hi.trans hj.symm)

section Partial

variable {part : α → Option κ} {t : Table α}

omit [DecidableEq κ]

/-- No two rows share a key; those without one are passed over, as by a partial
index. -/
def UniqueOn (t : Table α) (part : α → Option κ) : Prop :=
  ∀ i j r s k, t i = some r → t j = some s → part r = some k → part s = some k → i = j

theorem UniqueOn.insert (h : t.UniqueOn part) {r : α}
    (hnew : ∀ j s k, t j = some s → part s = some k → part r ≠ some k) :
    (t.writes (t.insert [r])).UniqueOn part := by
  intro i j r' s k hr hs hrk hsk
  rcases insert_some hr with hold | ⟨rfl, rfl⟩
  · rcases insert_some hs with hold' | ⟨rfl, rfl⟩
    · exact h i j r' s k hold hold' hrk hsk
    · exact absurd hsk (hnew i r' k hold hrk)
  · rcases insert_some hs with hold' | ⟨rfl, rfl⟩
    · exact absurd hrk (hnew j s k hold' hsk)
    · rfl

theorem UniqueOn.update (h : t.UniqueOn part) {i : ℕ} {f : α → α}
    (hnew : ∀ r j s k, t i = some r → t j = some s → j ≠ i → part s = some k → part (f r) ≠ some k) :
    (t.writes (t.update i f)).UniqueOn part := by
  intro j j' r s k hr hs hrk hsk
  rw [writes_update] at hr hs
  split at hr
  · rename_i hj
    obtain ⟨r₀, hr₀, rfl⟩ := Option.map_eq_some_iff.mp hr
    split at hs
    · rename_i hj'
      rw [hj, hj']
    · rename_i hne
      exact absurd hrk (hnew r₀ j' s k hr₀ hs hne hsk)
  · rename_i hne
    split at hs
    · obtain ⟨s₀, hs₀, rfl⟩ := Option.map_eq_some_iff.mp hs
      exact absurd hsk (hnew s₀ j r k hs₀ hr hne hrk)
    · exact h j j' r s k hr hs hrk hsk

theorem UniqueOn.update_of_eq (h : t.UniqueOn part) {i : ℕ} {f : α → α}
    (hkey : ∀ r, part (f r) = part r) : (t.writes (t.update i f)).UniqueOn part := by
  refine h.update fun r j s k hr hs hne hsk hrk ↦ hne ?_
  rw [hkey] at hrk
  exact h j i s r k hs hr hsk hrk

end Partial

theorem mem_of_mem_missing {taken : κ → Bool} {rs : List α} {r : α}
    (h : r ∈ missing key taken rs) : r ∈ rs ∧ taken (key r) = false := by
  induction rs generalizing taken with
  | nil => cases h
  | cons x rs ih =>
    rw [missing] at h
    split at h
    · exact ⟨List.mem_cons_of_mem _ (ih h).1, (ih h).2⟩
    · rcases List.mem_cons.mp h with rfl | h
      · exact ⟨List.mem_cons_self, eq_false_of_ne_true ‹_›⟩
      · obtain ⟨hmem, hfree⟩ := ih h
        exact ⟨List.mem_cons_of_mem _ hmem, (Bool.or_eq_false_iff.mp hfree).1⟩

theorem length_missing_le (key : α → κ) (taken : κ → Bool) (rs : List α) :
    (missing key taken rs).length ≤ rs.length := by
  induction rs generalizing taken with
  | nil => exact Nat.le_refl _
  | cons x rs ih =>
    rw [missing]
    split
    · exact Nat.le_succ_of_le (ih _)
    · exact Nat.succ_le_succ (ih _)

theorem exists_mem_missing (taken : κ → Bool) {rs : List α} {r : α} (h : r ∈ rs) :
    taken (key r) = true ∨ ∃ s ∈ missing key taken rs, key s = key r := by
  induction rs generalizing taken with
  | nil => cases h
  | cons x rs ih =>
    rw [missing]
    split
    · rcases List.mem_cons.mp h with rfl | h
      · exact .inl ‹_›
      · exact ih _ h
    · rcases List.mem_cons.mp h with rfl | h
      · exact .inr ⟨r, List.mem_cons_self, rfl⟩
      · rcases ih (fun k ↦ taken k || decide (k = key x)) h with hkey | ⟨s, hs, hkey⟩
        · rcases Bool.or_eq_true_iff.mp hkey with hkey | hkey
          · exact .inl hkey
          · exact .inr ⟨x, List.mem_cons_self, (of_decide_eq_true hkey).symm⟩
        · exact .inr ⟨s, List.mem_cons_of_mem _ hs, hkey⟩

theorem pairwise_missing (key : α → κ) (taken : κ → Bool) (rs : List α) :
    (missing key taken rs).Pairwise fun r s ↦ key r ≠ key s := by
  induction rs generalizing taken with
  | nil => exact .nil
  | cons x rs ih =>
    rw [missing]
    split
    · exact ih _
    · refine List.pairwise_cons.mpr ⟨fun s hs heq ↦ ?_, ih _⟩
      have hfree := (Bool.or_eq_false_iff.mp (mem_of_mem_missing hs).2).2
      exact of_decide_eq_false hfree heq.symm

theorem insertMissing_kept {t : Table α} {rs : List α} {i : ℕ} {r : α} (h : t i = some r) :
    t.writes (t.insertMissing key rs) i = some r := by
  rw [insertMissing, writes_insert, if_pos (lt_next h), h]

theorem insertMissing_some {t : Table α} {rs : List α} {i : ℕ} {r : α}
    (h : t.writes (t.insertMissing key rs) i = some r) :
    t i = some r ∨
      t i = none ∧ r ∈ rs ∧ ∀ j s, t j = some s → key s ≠ key r := by
  rw [insertMissing, writes_insert] at h
  split at h
  · exact .inl h
  · obtain ⟨hmem, hfree⟩ := mem_of_mem_missing (List.mem_of_getElem? h)
    refine .inr ⟨t.fresh i (by omega), hmem, ?_⟩
    intro j s hs hkey
    rw [Option.isSome_eq_false_iff, Option.isNone_iff_eq_none, find_none] at hfree
    exact of_decide_eq_false (hfree j s hs) hkey

/-- An id is never handed out twice. -/
theorem insertMissing_new {t : Table α} {rs : List α} {i : ℕ} {r : α}
    (h : t.writes (t.insertMissing key rs) i = some r) : t i = some r ∨ t.next ≤ i := by
  rw [insertMissing, writes_insert] at h
  split at h
  · exact .inl h
  · exact .inr (by omega)

theorem insertMissing_covers {t : Table α} {rs : List α} {r : α} (h : r ∈ rs) :
    ∃ i s, t.writes (t.insertMissing key rs) i = some s ∧ key s = key r := by
  rcases exists_mem_missing (fun k ↦ (t.find fun r ↦ key r = k).isSome) h with
    hkey | ⟨s, hs, hkey⟩
  · obtain ⟨⟨i, s⟩, hs⟩ := Option.isSome_iff_exists.mp hkey
    obtain ⟨hrow, heq⟩ := find_some hs
    exact ⟨i, s, insertMissing_kept hrow, of_decide_eq_true heq⟩
  · obtain ⟨k, hk⟩ := List.getElem?_of_mem hs
    refine ⟨t.next + k, s, ?_, hkey⟩
    rw [insertMissing, writes_insert, if_neg (by omega), Nat.add_sub_cancel_left, hk]

theorem Unique.insertMissing {t : Table α} (h : t.Unique key) (rs : List α) :
    (t.writes (t.insertMissing key rs)).Unique key := by
  intro i j r s hr hs hkey
  rcases insertMissing_some hr with hold | ⟨hi, -, hnew⟩
  · rcases insertMissing_some hs with hold' | ⟨hj, -, hnew'⟩
    · exact h i j r s hold hold' hkey
    · exact absurd hkey (hnew' i r hold)
  rcases insertMissing_some hs with hold' | ⟨hj, -, -⟩
  · exact absurd hkey.symm (hnew j s hold')
  -- Both are new: their places in the list of inserted rows decide.
  have hnodup := List.pairwise_map.mpr
    (pairwise_missing key (fun k ↦ (t.find fun r ↦ key r = k).isSome) rs)
  have hplace : ∀ {k : ℕ} {x : α}, t k = none →
      t.writes (t.insertMissing key rs) k = some x → t.next ≤ k ∧
        ((missing key (fun k ↦ (t.find fun r ↦ key r = k).isSome) rs).map key)[k - t.next]? =
          some (key x) := by
    intro k x hnone hx
    rw [Table.insertMissing, writes_insert] at hx
    split at hx
    · rw [hnone] at hx
      cases hx
    · exact ⟨by omega, by rw [List.getElem?_map, hx, Option.map_some]⟩
  obtain ⟨hi, hplace_i⟩ := hplace hi hr
  obtain ⟨hj, hplace_j⟩ := hplace hj hs
  have hlt := (List.getElem?_eq_some_iff.mp hplace_i).1
  have := (List.getElem?_inj hlt hnodup).mp (hplace_i.trans (hkey ▸ hplace_j.symm))
  omega

end Conflicts

end Table

end Remindo.Foundation
