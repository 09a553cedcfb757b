import Mathlib.Algebra.Order.Group.Abs
import Mathlib.Algebra.Order.Ring.Int
import Mathlib.Order.Bounds.Basic
import Mathlib.Tactic.Common

namespace Remindo.Foundation.LocalClock

/-- From `moment` on, the clock runs `offset` ahead. -/
structure Change where
  moment : ℤ
  offset : ℤ
  deriving DecidableEq, Repr

/-- The offset in force at an instant, the changes being taken in order. -/
def offsetAt (base : ℤ) : List Change → ℤ → ℤ
  | [], _ => base
  | c :: cs, u => if u < c.moment then base else offsetAt c.offset cs u

/-- What the local clock shows at an instant. -/
def reading (base : ℤ) (cs : List Change) (u : ℤ) : ℤ := u + offsetAt base cs u

/-- The offset a wall-clock reading belongs to. `edge` decides where a change
lies on the wall: at its later or at its earlier reading. -/
def wallOffset (edge : ℤ → ℤ → ℤ) (base : ℤ) : List Change → ℤ → ℤ
  | [], _ => base
  | c :: cs, n =>
    if n < c.moment + edge base c.offset then base else wallOffset edge c.offset cs n

/-- Consecutive changes are farther apart than both their jumps together. -/
def Spaced (base : ℤ) : List Change → Prop
  | [] => True
  | [_] => True
  | c :: d :: cs =>
    |c.offset - base| + |d.offset - c.offset| < d.moment - c.moment ∧ Spaced c.offset (d :: cs)

/-- No change turns the clock by more than `j`. -/
def JumpsWithin (j : ℤ) (base : ℤ) : List Change → Prop
  | [] => True
  | c :: cs => |c.offset - base| ≤ j ∧ JumpsWithin j c.offset cs

/-- Every offset in force satisfies `P`. -/
def OffsetsAll (P : ℤ → Prop) (base : ℤ) (cs : List Change) : Prop := P base ∧ ∀ c ∈ cs, P c.offset

instance decidableSpaced (base : ℤ) : ∀ cs, Decidable (Spaced base cs)
  | [] => inferInstanceAs (Decidable True)
  | [_] => inferInstanceAs (Decidable True)
  | c :: d :: cs =>
    have := decidableSpaced c.offset (d :: cs)
    inferInstanceAs (Decidable (_ ∧ _))

instance decidableJumpsWithin (j base : ℤ) : ∀ cs, Decidable (JumpsWithin j base cs)
  | [] => inferInstanceAs (Decidable True)
  | c :: cs =>
    have := decidableJumpsWithin j c.offset cs
    inferInstanceAs (Decidable (_ ∧ _))

theorem Spaced.tail {base : ℤ} {c : Change} {cs : List Change} (h : Spaced base (c :: cs)) :
    Spaced c.offset cs := by
  cases cs with
  | nil => trivial
  | cons d cs => exact h.2

theorem OffsetsAll.offsetAt {P : ℤ → Prop} {base : ℤ} {cs : List Change}
    (h : OffsetsAll P base cs) (u : ℤ) : P (offsetAt base cs u) := by
  induction cs generalizing base with
  | nil => exact h.1
  | cons c cs ih =>
    simp only [LocalClock.offsetAt]
    split
    · exact h.1
    · exact ih ⟨h.2 c (by simp), fun d hd ↦ h.2 d (by simp [hd])⟩

@[simp] theorem reading_nil (base u : ℤ) : reading base [] u = u + base := rfl

theorem reading_before {base u : ℤ} {c : Change} (cs : List Change) (h : u < c.moment) :
    reading base (c :: cs) u = u + base := by simp only [reading, offsetAt, if_pos h]

theorem reading_from {base u : ℤ} {c : Change} (cs : List Change) (h : c.moment ≤ u) :
    reading base (c :: cs) u = reading c.offset cs u := by
  simp only [reading, offsetAt, if_neg (not_lt.mpr h)]

theorem Spaced.moment_lt {base : ℤ} {c d : Change} {cs : List Change}
    (h : Spaced base (c :: d :: cs)) : c.moment < d.moment := by
  have := h.1
  have := abs_nonneg (c.offset - base)
  have := abs_nonneg (d.offset - c.offset)
  omega

/-- Right after a change, before the next one, its own offset is in force. -/
theorem reading_between {base u : ℤ} {c : Change} {cs : List Change} (h : c.moment ≤ u)
    (hnext : ∀ d ∈ cs.head?, u < d.moment) : reading base (c :: cs) u = u + c.offset := by
  rw [reading_from cs h]
  cases cs with
  | nil => rfl
  | cons d cs => exact reading_before cs (hnext d rfl)

theorem reading_at {base : ℤ} {c : Change} {cs : List Change} (h : Spaced base (c :: cs)) :
    reading base (c :: cs) c.moment = c.moment + c.offset := by
  refine reading_between le_rfl fun d hd ↦ ?_
  cases cs with
  | nil => cases hd
  | cons e cs => obtain rfl : e = d := by simpa using hd
                 exact h.moment_lt

section Reaching

/-- The first instant at which the clock shows `n` or more. -/
def firstReach (base : ℤ) : List Change → ℤ → ℤ
  | [], n => n - base
  | c :: cs, n =>
    if n - base < c.moment then n - base
    else if n - c.offset ≤ c.moment then c.moment
    else firstReach c.offset cs n

theorem moment_le_firstReach {base n : ℤ} {c : Change} {cs : List Change}
    (hs : Spaced base (c :: cs)) (h : c.moment ≤ n - base) :
    c.moment ≤ firstReach base (c :: cs) n := by
  induction cs generalizing base c with
  | nil =>
    simp only [firstReach, if_neg (not_lt.mpr h)]
    split <;> omega
  | cons d cs ih =>
    rw [firstReach, if_neg (not_lt.mpr h)]
    split
    · exact le_rfl
    · have hlt := hs.moment_lt
      by_cases hd : n - c.offset < d.moment
      · rw [firstReach, if_pos hd]; omega
      · have := ih hs.tail (not_lt.mp hd); omega

theorem le_reading_firstReach {base : ℤ} {cs : List Change} (hs : Spaced base cs) (n : ℤ) :
    n ≤ reading base cs (firstReach base cs n) := by
  induction cs generalizing base with
  | nil => simp [firstReach]
  | cons c cs ih =>
    by_cases h : n - base < c.moment
    · rw [firstReach, if_pos h, reading_before cs h]; omega
    by_cases h' : n - c.offset ≤ c.moment
    · rw [firstReach, if_neg h, if_pos h', reading_at hs]; omega
    · have hge := moment_le_firstReach hs (not_lt.mp h)
      rw [reading_from cs hge, firstReach, if_neg h, if_neg h']
      exact ih hs.tail

theorem reading_lt_of_lt_firstReach {base : ℤ} {cs : List Change} {n u : ℤ}
    (h : u < firstReach base cs n) : reading base cs u < n := by
  induction cs generalizing base with
  | nil => simp only [firstReach, reading_nil] at h ⊢; omega
  | cons c cs ih =>
    by_cases hu : u < c.moment
    · rw [reading_before cs hu]
      rw [firstReach] at h
      split at h <;> omega
    · rw [reading_from cs (not_lt.mp hu)]
      refine ih ?_
      rw [firstReach] at h
      split at h
      · omega
      · split at h
        · omega
        · exact h

/-- The clock may show a reading several times; `firstReach` is the earliest
instant at or past it. -/
theorem firstReach_isLeast {base : ℤ} {cs : List Change} (hs : Spaced base cs) (n : ℤ) :
    IsLeast {u | n ≤ reading base cs u} (firstReach base cs n) :=
  ⟨le_reading_firstReach hs n, fun _ hu ↦
    not_lt.mp fun hlt ↦ absurd hu (not_le.mpr (reading_lt_of_lt_firstReach hlt))⟩

end Reaching

section Wall

theorem wallOffset_before {edge : ℤ → ℤ → ℤ} {base n : ℤ} {c : Change} (cs : List Change)
    (h : n < c.moment + edge base c.offset) : wallOffset edge base (c :: cs) n = base := by
  rw [wallOffset, if_pos h]

theorem wallOffset_from {edge : ℤ → ℤ → ℤ} {base n : ℤ} {c : Change} (cs : List Change)
    (h : c.moment + edge base c.offset ≤ n) :
    wallOffset edge base (c :: cs) n = wallOffset edge c.offset cs n := by
  rw [wallOffset, if_neg (not_lt.mpr h)]

/-- Before the next change reaches the wall, the offset just entered is read. -/
theorem wallOffset_settled {edge : ℤ → ℤ → ℤ} (hedge : ∀ a b, min a b ≤ edge a b)
    {base n : ℤ} {c : Change} {cs : List Change} (hs : Spaced base (c :: cs))
    (hn : n < c.moment + max base c.offset) : wallOffset edge c.offset cs n = c.offset := by
  cases cs with
  | nil => rfl
  | cons d cs =>
    have hgap := hs.1
    have := hedge c.offset d.offset
    have := le_abs_self (c.offset - base)
    have := neg_abs_le (c.offset - base)
    have := le_abs_self (d.offset - c.offset)
    have := neg_abs_le (d.offset - c.offset)
    exact wallOffset_before cs (by omega)

theorem firstReach_skip {base n : ℤ} {c : Change} {cs : List Change} (hs : Spaced base (c :: cs))
    (hn : c.moment + max base c.offset ≤ n) :
    firstReach base (c :: cs) n = firstReach c.offset cs n := by
  rw [firstReach, if_neg (by omega)]
  split
  · rename_i h
    cases cs with
    | nil => rw [firstReach]; omega
    | cons d cs =>
      have := hs.moment_lt
      rw [firstReach, if_pos (by omega)]; omega
  · rfl

/-- Where the two wall offsets agree, or the later one is behind (a repeated
reading), the earlier one gives the first instant. -/
theorem firstReach_of_late_le {base : ℤ} {cs : List Change} (hs : Spaced base cs) {n : ℤ}
    (h : wallOffset min base cs n ≤ wallOffset max base cs n) :
    firstReach base cs n = n - wallOffset max base cs n := by
  induction cs generalizing base with
  | nil => rfl
  | cons c cs ih =>
    by_cases hmax : c.moment + max base c.offset ≤ n
    · rw [wallOffset_from cs hmax, wallOffset_from cs (by omega)] at h
      rw [wallOffset_from cs hmax, firstReach_skip hs hmax]
      exact ih hs.tail h
    rw [not_le] at hmax
    rw [wallOffset_before cs hmax] at h ⊢
    by_cases hbase : n - base < c.moment
    · rw [firstReach, if_pos hbase]
    · rw [wallOffset_from cs (by omega), wallOffset_settled (fun _ _ ↦ le_rfl) hs hmax] at h
      omega

/-- Where the later wall offset is ahead, the reading is skipped. The change
itself is the first instant past it, and from there to the reading taken with
the earlier offset the clock stays past it. -/
theorem firstReach_of_early_lt {base : ℤ} {cs : List Change} (hs : Spaced base cs) {n : ℤ}
    (h : wallOffset max base cs n < wallOffset min base cs n) :
    n - wallOffset min base cs n < firstReach base cs n ∧
      firstReach base cs n ≤ n - wallOffset max base cs n ∧
      ∀ u, firstReach base cs n ≤ u → u ≤ n - wallOffset max base cs n → n ≤ reading base cs u := by
  induction cs generalizing base with
  | nil => exact absurd h (lt_irrefl base)
  | cons c cs ih =>
    by_cases hmax : c.moment + max base c.offset ≤ n
    · have hge := moment_le_firstReach hs (show c.moment ≤ n - base by omega)
      rw [wallOffset_from cs hmax, wallOffset_from cs (by omega)] at h ⊢
      rw [firstReach_skip hs hmax] at hge ⊢
      obtain ⟨hlow, hhigh, hstay⟩ := ih hs.tail h
      refine ⟨hlow, hhigh, fun u hu hu' ↦ ?_⟩
      rw [reading_from cs (hge.trans hu)]
      exact hstay u hu hu'
    rw [not_le] at hmax
    rw [wallOffset_before cs hmax] at h ⊢
    by_cases hmin : n < c.moment + min base c.offset
    · rw [wallOffset_before cs hmin] at h
      exact absurd h (lt_irrefl base)
    rw [wallOffset_from cs (not_lt.mp hmin), wallOffset_settled (fun _ _ ↦ le_rfl) hs hmax] at h ⊢
    have hfirst : firstReach base (c :: cs) n = c.moment := by
      rw [firstReach, if_neg (by omega), if_pos (by omega)]
    rw [hfirst]
    refine ⟨by omega, by omega, fun u hu hu' ↦ ?_⟩
    rw [reading_between hu]
    · omega
    · intro d hd
      cases cs with
      | nil => cases hd
      | cons e cs =>
        obtain rfl : e = d := by simpa using hd
        have := hs.1
        have := le_abs_self (c.offset - base)
        have := abs_nonneg (e.offset - c.offset)
        omega

end Wall

section Drop

theorem le_reading {base v : ℤ} {c : Change} {cs : List Change} (hs : Spaced base (c :: cs))
    (h : c.moment ≤ v) : c.moment + c.offset ≤ reading base (c :: cs) v := by
  induction cs generalizing base c with
  | nil => rw [reading_from [] h, reading_nil]; omega
  | cons d cs ih =>
    rw [reading_from _ h]
    by_cases hd : v < d.moment
    · rw [reading_before cs hd]; omega
    · have := ih hs.tail (not_lt.mp hd)
      have := hs.1
      have := neg_abs_le (d.offset - c.offset)
      have := abs_nonneg (c.offset - base)
      omega

/-- However many changes lie between two instants, the clock never falls back
by a whole jump. -/
theorem reading_lt_add {base j : ℤ} {cs : List Change} (hs : Spaced base cs)
    (hj : JumpsWithin j base cs) (hnonneg : 0 ≤ j) {u v : ℤ} (h : u < v) :
    reading base cs u < reading base cs v + j := by
  induction cs generalizing base with
  | nil => simp only [reading_nil]; omega
  | cons c cs ih =>
    by_cases hv : v < c.moment
    · rw [reading_before cs hv, reading_before cs (h.trans hv)]; omega
    by_cases hu : u < c.moment
    · have := le_reading hs (not_lt.mp hv)
      have := hj.1
      have := neg_abs_le (c.offset - base)
      rw [reading_before cs hu]; omega
    · rw [reading_from cs (not_lt.mp hu), reading_from cs (not_lt.mp hv)]
      exact ih hs.tail hj.2

end Drop

section Rise

/-- By how much the changes in `(u, v]` turn the clock forward, all together. -/
def rises (base : ℤ) : List Change → ℤ → ℤ → ℤ
  | [], _, _ => 0
  | c :: cs, u, v =>
    (if u < c.moment ∧ c.moment ≤ v then max (c.offset - base) 0 else 0) + rises c.offset cs u v

theorem rises_nonneg (base : ℤ) (cs : List Change) (u v : ℤ) : 0 ≤ rises base cs u v := by
  induction cs generalizing base with
  | nil => exact le_rfl
  | cons c cs ih =>
    have := ih c.offset
    simp only [rises]
    split <;> omega

/-- The clock gets ahead of the time passed by nothing but its rises. -/
theorem reading_sub_le {base : ℤ} {cs : List Change} (hs : Spaced base cs) {u v : ℤ} (h : u ≤ v) :
    reading base cs v - reading base cs u ≤ v - u + rises base cs u v := by
  induction cs generalizing base with
  | nil => simp [rises]
  | cons c cs ih =>
    have hrest := rises_nonneg c.offset cs u v
    simp only [rises]
    by_cases hv : v < c.moment
    · rw [reading_before cs hv, reading_before cs (h.trans_lt hv), if_neg (by omega)]
      omega
    by_cases hu : u < c.moment
    · have hlater := ih hs.tail
      have hsettled : reading c.offset cs u = u + c.offset := by
        cases cs with
        | nil => exact reading_nil c.offset u
        | cons d cs => exact reading_before cs (hu.trans hs.moment_lt)
      rw [reading_from cs (not_lt.mp hv), reading_before cs hu, if_pos ⟨hu, not_lt.mp hv⟩]
      omega
    · rw [reading_from cs (not_lt.mp hu), reading_from cs (not_lt.mp hv), if_neg (by omega)]
      have := ih hs.tail
      omega

end Rise

section Again

/-- Once the clock has fallen back behind a reading it had reached, it shows it
a second time, at the offset of the second pass, and not before. -/
theorem second_pass {base n u : ℤ} {cs : List Change} (hs : Spaced base cs)
    (hreach : firstReach base cs n ≤ u) (hu : reading base cs u < n) :
    reading base cs (n - wallOffset min base cs n) = n ∧
      IsLeast {v | u < v ∧ n ≤ reading base cs v} (n - wallOffset min base cs n) := by
  induction cs generalizing base with
  | nil =>
    simp only [firstReach, reading_nil] at hreach hu
    omega
  | cons c cs ih =>
    by_cases hmax : c.moment + max base c.offset ≤ n
    · have hge := moment_le_firstReach hs (show c.moment ≤ n - base by omega)
      have hcu := hge.trans hreach
      rw [firstReach_skip hs hmax] at hreach
      rw [reading_from cs hcu] at hu
      obtain ⟨hshown, ⟨hlt, hle⟩, hleast⟩ := ih hs.tail hreach hu
      rw [wallOffset_from cs (show c.moment + min base c.offset ≤ n by omega)]
      have hsecond := hcu.trans hlt.le
      refine ⟨by rw [reading_from cs hsecond, hshown],
        ⟨hlt, by rwa [reading_from cs hsecond]⟩, fun v hv ↦ hleast ⟨hv.1, ?_⟩⟩
      rw [← reading_from cs (hcu.trans hv.1.le)]
      exact hv.2
    rw [not_le] at hmax
    have hcu : c.moment ≤ u := by
      by_contra hlt
      rw [reading_before cs (not_le.mp hlt)] at hu
      rw [firstReach] at hreach
      split at hreach <;> omega
    have hdrop := (le_reading hs hcu).trans_lt hu
    rw [wallOffset_from cs (show c.moment + min base c.offset ≤ n by omega),
      wallOffset_settled (fun _ _ ↦ le_rfl) hs hmax]
    -- Up to the next change the clock runs at the new offset; from there on it is past `n`.
    have hnew : ∀ v, c.moment ≤ v → reading base (c :: cs) v = v + c.offset ∨
        n < reading base (c :: cs) v ∧ n - c.offset < v := by
      intro v hv
      rw [reading_from cs hv]
      cases cs with
      | nil => exact .inl rfl
      | cons d cs =>
        have hgap := hs.1
        have := neg_abs_le (c.offset - base)
        have := neg_abs_le (d.offset - c.offset)
        by_cases hd : v < d.moment
        · exact .inl (reading_before cs hd)
        · have := le_reading hs.tail (not_lt.mp hd)
          have := abs_nonneg (d.offset - c.offset)
          exact .inr ⟨by omega, by omega⟩
    have hshown : reading base (c :: cs) (n - c.offset) = n := by
      rcases hnew (n - c.offset) (by omega) with heq | ⟨_, hlt⟩ <;> omega
    refine ⟨hshown, ⟨?_, hshown.ge⟩, fun v hv ↦ ?_⟩
    · rcases hnew u hcu with heq | ⟨hlt, _⟩ <;> omega
    · obtain ⟨hlt, hle⟩ := hv
      rcases hnew v (by omega) with heq | ⟨_, hlt⟩ <;> omega

/-- Where the clock jumps over a reading it is behind it before and past it ever
after. -/
theorem skip_spec {base n t : ℤ} {cs : List Change} (hs : Spaced base cs)
    (hlow : reading base cs (t - 1) < n) (hhigh : n < reading base cs t) :
    firstReach base cs n = t ∧ ∀ u, t ≤ u → n < reading base cs u := by
  constructor
  · have hleast := firstReach_isLeast hs n
    refine le_antisymm (hleast.2 hhigh.le) ?_
    by_contra hlt
    obtain ⟨hshown, hsecond⟩ := second_pass hs (show firstReach base cs n ≤ t - 1 by omega) hlow
    have hle := hsecond.2 ⟨Int.sub_one_lt_of_le le_rfl, hhigh.le⟩
    have hge := hsecond.1.1
    obtain heq : n - wallOffset min base cs n = t := by omega
    rw [heq] at hshown
    omega
  · induction cs generalizing base with
    | nil =>
      simp only [reading_nil] at hlow hhigh
      omega
    | cons c cs ih =>
      rcases lt_trichotomy t c.moment with ht | rfl | ht
      · rw [reading_before cs (by omega)] at hlow hhigh
        omega
      · rw [reading_at hs] at hhigh
        exact fun u hu ↦ hhigh.trans_le (le_reading hs hu)
      · rw [reading_from cs (by omega)] at hlow hhigh
        intro u hu
        rw [reading_from cs (by omega)]
        exact ih hs.tail hlow hhigh u hu

theorem exists_change {base t : ℤ} {cs : List Change}
    (h : reading base cs t ≠ reading base cs (t - 1) + 1) : ∃ c ∈ cs, c.moment = t := by
  induction cs generalizing base with
  | nil => exact absurd (by simp only [reading_nil]; omega) h
  | cons c cs ih =>
    rcases lt_trichotomy t c.moment with ht | rfl | ht
    · rw [reading_before cs ht, reading_before cs (by omega)] at h
      omega
    · exact ⟨c, by simp, rfl⟩
    · rw [reading_from cs ht.le, reading_from cs (by omega)] at h
      obtain ⟨d, hd, hmoment⟩ := ih h
      exact ⟨d, by simp [hd], hmoment⟩

end Again

section Bisection

/-- Halve `(low, high]` towards the first point where `p` holds. -/
def bisect (p : ℤ → Bool) (low high : ℤ) : ℤ :=
  if 1 < high - low then
    if p ((low + high) / 2) then bisect p low ((low + high) / 2)
    else bisect p ((low + high) / 2) high
  else high
termination_by (high - low).toNat
decreasing_by all_goals omega

theorem bisect_eq {p : ℤ → Bool} {t low high : ℤ} (hlow : low < t) (hhigh : t ≤ high)
    (hbelow : ∀ u, u < t → p u = false) (habove : ∀ u, t ≤ u → u ≤ high → p u = true) :
    bisect p low high = t := by
  fun_induction bisect p low high with
  | case1 low high hgap hmid ih =>
    have ht : t ≤ (low + high) / 2 := by
      by_contra hlt
      rw [hbelow _ (not_le.mp hlt)] at hmid
      exact absurd hmid (by decide)
    exact ih hlow ht (fun u hu hu' ↦ habove u hu (by omega))
  | case2 low high hgap hmid ih =>
    have ht : (low + high) / 2 < t := by
      by_contra hge
      exact hmid (habove _ (not_lt.mp hge) (by omega))
    exact ih ht hhigh habove
  | case3 low high hgap => omega

end Bisection

end Remindo.Foundation.LocalClock
