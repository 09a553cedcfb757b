import Mathlib.Algebra.BigOperators.Group.List.Lemmas
import Mathlib.Algebra.GroupWithZero.Nat
import Mathlib.Data.Finset.Sort
import Mathlib.Data.List.Chain
import Mathlib.Data.Set.Finite.Basic

namespace Remindo.Foundation

variable {α : Type*}

/-- `l` names every member of `S` exactly once, in increasing order. -/
def Lists [Preorder α] (l : List α) (S : Set α) : Prop :=
  l.Pairwise (· < ·) ∧ ∀ a, a ∈ l ↔ a ∈ S

namespace Lists

section Preorder

variable [Preorder α] {l l' : List α} {S T : Set α}

theorem nodup (h : Lists l S) : l.Nodup := h.1.imp fun hlt ↦ hlt.ne

theorem mem (h : Lists l S) {a : α} : a ∈ l ↔ a ∈ S := h.2 a

theorem nil : Lists ([] : List α) ∅ := ⟨.nil, by simp⟩

theorem singleton (a : α) : Lists [a] {a} := ⟨List.pairwise_singleton _ _, by simp⟩

theorem append (h : Lists l S) (h' : Lists l' T) (hlt : ∀ a ∈ S, ∀ b ∈ T, a < b) :
    Lists (l ++ l') (S ∪ T) := by
  refine ⟨List.pairwise_append.mpr ⟨h.1, h'.1, ?_⟩, fun a ↦ ?_⟩
  · intro a ha b hb
    exact hlt a (h.mem.mp ha) b (h'.mem.mp hb)
  · rw [List.mem_append, h.mem, h'.mem, Set.mem_union]

theorem filter (h : Lists l S) (p : α → Bool) : Lists (l.filter p) {a | a ∈ S ∧ p a} := by
  refine ⟨h.1.filter p, fun a ↦ ?_⟩
  rw [List.mem_filter, h.mem, Set.mem_ofPred_eq]

theorem isLeast_head {a : α} (h : Lists (a :: l) S) : IsLeast S a := by
  refine ⟨h.mem.mp List.mem_cons_self, fun b hb ↦ ?_⟩
  rcases List.mem_cons.mp (h.mem.mpr hb) with rfl | hrest
  · exact le_rfl
  · exact (List.rel_of_pairwise_cons h.1 hrest).le

end Preorder

section LinearOrder

variable [LinearOrder α] {l l' : List α} {S T : Set α}

theorem unique (h : Lists l S) (h' : Lists l' S) : l = l' :=
  List.Pairwise.eq_of_mem_iff h.1 h'.1 fun a ↦ (h.2 a).trans (h'.2 a).symm

theorem of_nodup (hl : l.Nodup) : Lists (l.insertionSort (· ≤ ·)) {a | a ∈ l} := by
  refine ⟨?_, fun a ↦ List.mem_insertionSort _⟩
  have hle := List.pairwise_insertionSort (· ≤ ·) l
  have hne : (l.insertionSort (· ≤ ·)).Nodup := (List.perm_insertionSort _ l).nodup_iff.mpr hl
  exact (hle.and hne).imp fun h ↦ lt_of_le_of_ne h.1 h.2

/-- A subset whose missing members all come later is listed by an initial
segment, so the first entries of the two lists agree. -/
theorem take_eq (h : Lists l S) (h' : Lists l' T) (hsub : T ⊆ S)
    (hlate : ∀ a ∈ S, a ∉ T → ∀ b ∈ T, b < a) {n : ℕ} (hn : n ≤ l'.length) :
    l'.take n = l.take n := by
  have hrest := h.filter fun a ↦ decide (a ∉ l')
  have hwhole : Lists (l' ++ l.filter fun a ↦ decide (a ∉ l')) S := by
    have hsplit : S = T ∪ {a | a ∈ S ∧ (decide (a ∉ l') : Bool) = true} := by
      ext a
      have ha := hsub (a := a)
      simp only [Set.mem_union, Set.mem_ofPred_eq, decide_eq_true_eq, h'.mem]
      tauto
    rw [hsplit]
    refine h'.append (hsplit ▸ hrest) ?_
    intro b hb a ha
    exact hlate a ha.1 (fun haT ↦ of_decide_eq_true ha.2 (h'.mem.mpr haT)) b hb
  rw [h.unique hwhole, List.take_append_of_le_length hn]

/-- Everything up to the last entry of a truncated listing is in it. -/
theorem mem_take_of_le (h : Lists l S) {n : ℕ} {a b : α} (ha : a ∈ S)
    (hb : (l.take n).getLast? = some b) (hab : a ≤ b) : a ∈ l.take n := by
  have hmem := h.mem.mpr ha
  rw [← List.take_append_drop n l, List.mem_append] at hmem
  refine hmem.resolve_right fun hdrop ↦ ?_
  have hsorted := h.1
  rw [← List.take_append_drop n l, List.pairwise_append] at hsorted
  exact absurd hab (not_le.mpr (hsorted.2.2 b (List.mem_of_getLast? hb) a hdrop))

theorem exists_of_finite (h : S.Finite) : ∃ l, Lists l S := by
  classical
  refine ⟨h.toFinset.sort (· ≤ ·), ?_, fun a ↦ ?_⟩
  · exact List.sortedLT_iff_pairwise.mp (Finset.sortedLT_sort _)
  · rw [Finset.mem_sort, Set.Finite.mem_toFinset]

end LinearOrder

end Lists

/-- In an increasing list the entries that follow each other are those with no
entry between them. -/
theorem isChain_of_pairwise_lt [LinearOrder α] {R : α → α → Prop} {l : List α}
    (h : l.Pairwise (· < ·))
    (hnext : ∀ x ∈ l, ∀ y ∈ l, x < y → (∀ z ∈ l, z ≤ x ∨ y ≤ z) → R x y) : l.IsChain R := by
  refine List.isChain_iff_forall_rel_of_append_cons_cons.mpr fun x y early late hsplit ↦ ?_
  subst hsplit
  simp only [List.pairwise_append, List.pairwise_cons, List.forall_mem_cons] at h
  obtain ⟨-, ⟨⟨hxy, -⟩, hlate, -⟩, hearly⟩ := h
  refine hnext x (by simp) y (by simp) hxy fun z hz ↦ ?_
  rcases List.mem_append.mp hz with hz | hz
  · exact .inl (hearly z hz).1.le
  rcases List.mem_cons.mp hz with rfl | hz
  · exact .inl le_rfl
  rcases List.mem_cons.mp hz with rfl | hz
  · exact .inr le_rfl
  · exact .inr (hlate z hz).le

theorem sum_indicator_eq_count {κ : Type*} [DecidableEq κ] (keys : List κ) (k : κ) :
    (keys.map fun k' ↦ if k = k' then 1 else 0).sum = keys.count k := by
  induction keys with
  | nil => rfl
  | cons k' keys ih =>
    rw [List.map_cons, List.sum_cons, ih, List.count_cons, Nat.add_comm]
    by_cases hkey : k = k'
    · simp [hkey]
    · simp [hkey, Ne.symm hkey]

/-- Counted key by key, every entry is counted once. -/
theorem sum_countP_key {κ : Type*} [DecidableEq κ] (key : α → κ) (p : α → Bool) {keys : List κ}
    (hkeys : keys.Nodup) {l : List α} (hmem : ∀ a ∈ l, key a ∈ keys) :
    (keys.map fun k ↦ l.countP fun a ↦ decide (key a = k) && p a).sum = l.countP p := by
  induction l with
  | nil => simp
  | cons a l ih =>
    have hone : (keys.map fun k ↦ if (decide (key a = k) && p a) = true then 1 else 0).sum =
        if p a = true then 1 else 0 := by
      have hcount := List.count_eq_one_of_mem hkeys (hmem a List.mem_cons_self)
      rw [← sum_indicator_eq_count] at hcount
      cases p a with
      | true => simpa using hcount
      | false => simp
    simp only [List.countP_cons, List.sum_map_add, hone,
      ih fun b hb ↦ hmem b (List.mem_cons_of_mem a hb)]

theorem filterMap_take {β : Type*} {f : α → Option β} {l : List α} (h : ∀ a ∈ l, (f a).isSome = true)
    (n : ℕ) : (l.take n).filterMap f = (l.filterMap f).take n := by
  induction l generalizing n with
  | nil => simp
  | cons a l ih =>
    obtain ⟨b, hb⟩ := Option.isSome_iff_exists.mp (h a List.mem_cons_self)
    cases n with
    | zero => rfl
    | succ n =>
      rw [List.take_succ_cons, List.filterMap_cons_some hb, List.filterMap_cons_some hb,
        List.take_succ_cons, ih fun c hc ↦ h c (List.mem_cons_of_mem a hc)]

/-- A queue is served its first `n` entries, of which those with `p` count. Each
entry with `p` is served or has `n` others before it exactly if nobody is cut
off or nobody is served in vain. -/
theorem batch_fair_iff {queue : List α} (hqueue : queue.Nodup) (p : α → Prop) (n : ℕ) :
    (∀ a ∈ queue, p a → a ∈ queue.take n ∨
      ∃ others : List α, others.Nodup ∧ others.length = n ∧ a ∉ others ∧
        ∀ b ∈ others, b ∈ queue.take n ∧ p b) ↔
      (∀ a ∈ queue.drop n, ¬p a) ∨ ∀ a ∈ queue.take n, p a := by
  classical
  constructor
  · intro hfair
    by_contra hboth
    push Not at hboth
    obtain ⟨⟨a, ha, hpa⟩, z, hz, hpz⟩ := hboth
    have hcut : a ∉ queue.take n := fun htaken ↦ by
      rw [← List.take_append_drop n queue, List.nodup_append] at hqueue
      exact hqueue.2.2 a htaken a ha rfl
    obtain ⟨others, hnodup, hlength, -, hothers⟩ :=
      (hfair a (List.mem_of_mem_drop ha) hpa).resolve_left hcut
    -- The others are served, and one of the served has no `p`.
    have hsub : others ⊆ (queue.take n).erase z := by
      intro b hb
      have hne : b ≠ z := fun heq ↦ hpz (heq ▸ (hothers b hb).2)
      exact (List.mem_erase_of_ne hne).mpr (hothers b hb).1
    have hshort := (hnodup.subperm hsub).length_le
    have hpos := List.length_pos_of_mem hz
    rw [List.length_erase_of_mem hz, hlength] at hshort
    have := queue.length_take_le n
    omega
  · intro hone a ha hpa
    by_cases htaken : a ∈ queue.take n
    · exact .inl htaken
    have hcut : a ∈ queue.drop n := by
      rw [← List.take_append_drop n queue, List.mem_append] at ha
      exact ha.resolve_left htaken
    have hserved := hone.resolve_left fun hnone ↦ hnone a hcut hpa
    refine .inr ⟨queue.take n, hqueue.sublist (List.take_sublist n queue), ?_, htaken,
      fun b hb ↦ ⟨hb, hserved b hb⟩⟩
    have := List.length_pos_of_mem hcut
    rw [List.length_drop] at this
    rw [List.length_take]
    omega

/-- The same where some with `p` may not even stand in the queue. -/
theorem batch_fair_all_iff {queue : List α} (hqueue : queue.Nodup) (p : α → Prop) (n : ℕ) :
    (∀ a, p a → a ∈ queue.take n ∨
      ∃ others : List α, others.Nodup ∧ others.length = n ∧ a ∉ others ∧
        ∀ b ∈ others, b ∈ queue.take n ∧ p b) ↔
      ((∀ a, p a → a ∈ queue) ∧ ∀ a ∈ queue.drop n, ¬p a) ∨
        n ≤ queue.length ∧ ∀ a ∈ queue.take n, p a := by
  have hwithin := batch_fair_iff hqueue p n
  constructor
  · intro hfair
    have hcut := hwithin.mp fun a _ ↦ hfair a
    by_cases hall : ∀ a, p a → a ∈ queue
    · rcases hcut with hnone | htaken
      · exact .inl ⟨hall, hnone⟩
      · rcases Nat.le_total n queue.length with hfull | hshort
        · exact .inr ⟨hfull, htaken⟩
        · refine .inl ⟨hall, fun a ha ↦ ?_⟩
          rw [List.drop_eq_nil_of_le hshort] at ha
          cases ha
    · push Not at hall
      obtain ⟨a, ha, hout⟩ := hall
      obtain ⟨others, hnodup, hlength, -, hothers⟩ :=
        (hfair a ha).resolve_left fun htaken ↦ hout (List.mem_of_mem_take htaken)
      have hsub := hnodup.subperm fun b hb ↦ (hothers b hb).1
      have hperm := hsub.perm_of_length_le ((List.length_take_le n queue).trans hlength.ge)
      refine .inr ⟨?_, fun b hb ↦ (hothers b (hperm.mem_iff.mpr hb)).2⟩
      have := hperm.length_eq
      rw [List.length_take] at this
      omega
  · rintro (⟨hall, hnone⟩ | ⟨hfull, htaken⟩) a ha
    · exact hwithin.mpr (.inl hnone) a (hall a ha) ha
    · by_cases hself : a ∈ queue.take n
      · exact .inl hself
      · exact .inr ⟨queue.take n, hqueue.sublist (List.take_sublist n queue),
          List.length_take_of_le hfull, hself, fun b hb ↦ ⟨hb, htaken b hb⟩⟩

theorem take_append_take (l l' : List α) (n : ℕ) :
    (l ++ l').take n = (l.take n ++ l'.take n).take n := by
  rw [List.take_append, List.take_append, List.take_take, min_self, List.length_take]
  rcases Nat.le_total n l.length with h | h
  · simp [Nat.sub_eq_zero_of_le h, Nat.min_eq_left h]
  · rw [Nat.min_eq_right h, List.take_take, Nat.min_eq_left (Nat.sub_le n l.length)]

/-- Entries that are written by `f` are read by `g` as they were. -/
theorem mapM_map_eq_some {β : Type*} {f : α → β} {g : β → Option α} {l : List α}
    (h : ∀ a ∈ l, g (f a) = some a) : (l.map f).mapM g = some l := by
  induction l with
  | nil => rfl
  | cons a l ih =>
    rw [List.map_cons, List.mapM_cons, h a List.mem_cons_self,
      ih fun b hb ↦ h b (List.mem_cons_of_mem a hb)]
    rfl

section SortedSet

variable {β : Type*} [LinearOrder β] [DecidableEq α]

/-- `sorted(set(l))`, in the order of a key. -/
def sortedSet (key : α → β) (l : List α) : List α := l.dedup.insertionSort fun a b ↦ key a ≤ key b

variable {key : α → β} {l : List α}

@[simp] theorem mem_sortedSet {a : α} : a ∈ sortedSet key l ↔ a ∈ l := by
  rw [sortedSet, List.mem_insertionSort, List.mem_dedup]

theorem length_sortedSet_le : (sortedSet key l).length ≤ l.length := by
  rw [sortedSet, List.length_insertionSort]
  exact l.dedup_sublist.length_le

theorem sortedSet_ne_nil (h : l ≠ []) : sortedSet key l ≠ [] := by
  obtain ⟨a, ha⟩ := List.exists_mem_of_ne_nil l h
  exact List.ne_nil_of_mem (mem_sortedSet.mpr ha)

theorem pairwise_sortedSet (hkey : Function.Injective key) (l : List α) :
    (sortedSet key l).Pairwise fun a b ↦ key a < key b := by
  have : Std.Total fun a b : α ↦ key a ≤ key b := ⟨fun a b ↦ le_total (key a) (key b)⟩
  have : IsTrans α fun a b ↦ key a ≤ key b := ⟨fun a b c ↦ le_trans⟩
  have hle := List.pairwise_insertionSort (fun a b ↦ key a ≤ key b) l.dedup
  have hne : (sortedSet key l).Nodup := (List.perm_insertionSort _ _).nodup_iff.mpr l.nodup_dedup
  exact (hle.and hne).imp fun h ↦ lt_of_le_of_ne h.1 (hkey.ne h.2)

/-- What is in order already stays as it is. -/
theorem sortedSet_eq_self (h : l.Pairwise fun a b ↦ key a < key b) : sortedSet key l = l := by
  have hnodup : l.Nodup := h.imp fun hlt ↦ ne_of_apply_ne key hlt.ne
  rw [sortedSet, hnodup.dedup]
  exact List.Pairwise.insertionSort_eq (h.imp le_of_lt)

end SortedSet

end Remindo.Foundation
