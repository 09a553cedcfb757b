import Mathlib.Algebra.BigOperators.Group.List.Lemmas
import Mathlib.Data.Finset.Card
import Mathlib.Order.Bounds.Basic
import Mathlib.Tactic.Ring
import Remindo.Domain.Stats
import Remindo.Foundation.Listing

namespace Remindo.Domain

open Remindo.Foundation

section Runs

variable {days days' : Finset ℤ} {d today cursor step : ℤ} {n fuel : ℕ}

/-- `n` days in a row from `d` on, all in the set. -/
def IsRun (days : Finset ℤ) (d : ℤ) (n : ℕ) : Prop := ∀ i < n, d + (i : ℤ) ∈ days

theorem IsRun.mono (h : IsRun days d n) (hsub : days ⊆ days') : IsRun days' d n :=
  fun i hi ↦ hsub (h i hi)

theorem IsRun.length_le (h : IsRun days d n) : n ≤ days.card := by
  rw [← Finset.card_range n]
  refine Finset.card_le_card_of_injOn (fun i : ℕ ↦ d + (i : ℤ)) (fun i hi ↦ ?_) fun i _ j _ heq ↦ ?_
  · exact h i (Finset.mem_range.mp hi)
  · have heq : d + (i : ℤ) = d + (j : ℤ) := heq
    omega

theorem IsRun.cons_sub_one (h : IsRun days d n) (hd : d - 1 ∈ days) :
    IsRun days (d - 1) (n + 1) := by
  intro i hi
  cases i with
  | zero => simpa using hd
  | succ i =>
    have := h i (by omega)
    rwa [show d - 1 + ((i + 1 : ℕ) : ℤ) = d + (i : ℤ) by omega]

theorem le_runLength_iff : n ≤ runLength days step fuel cursor ↔
    n ≤ fuel ∧ ∀ i < n, cursor + (i : ℤ) * step ∈ days := by
  induction fuel generalizing n cursor with
  | zero =>
    simp only [runLength, Nat.le_zero]
    constructor
    · rintro rfl
      exact ⟨rfl, fun i hi ↦ absurd hi (Nat.not_lt_zero i)⟩
    · exact fun h ↦ h.1
  | succ fuel ih =>
    cases n with
    | zero => simp
    | succ n =>
      rw [runLength]
      split
      · rename_i hcursor
        rw [Nat.succ_le_succ_iff, ih, Nat.succ_le_succ_iff]
        refine and_congr_right fun _ ↦ ⟨fun h i hi ↦ ?_, fun h i hi ↦ ?_⟩
        · cases i with
          | zero => simpa using hcursor
          | succ i =>
            have := h i (by omega)
            rwa [show cursor + ((i + 1 : ℕ) : ℤ) * step = cursor + step + (i : ℤ) * step by
              push_cast; ring]
        · have := h (i + 1) (by omega)
          rwa [show cursor + ((i + 1 : ℕ) : ℤ) * step = cursor + step + (i : ℤ) * step by
            push_cast; ring] at this
      · rename_i hcursor
        refine ⟨fun h ↦ absurd h (Nat.not_succ_le_zero n), fun h ↦ absurd ?_ hcursor⟩
        simpa using h.2 0 n.succ_pos

/-- Counted upwards, the loop measures the run from the cursor on. -/
theorem le_runLength_one_iff : n ≤ runLength days 1 days.card cursor ↔ IsRun days cursor n := by
  rw [le_runLength_iff]
  constructor
  · exact fun h i hi ↦ by simpa using h.2 i hi
  · exact fun h ↦ ⟨h.length_le, fun i hi ↦ by simpa using h i hi⟩

theorem le_runLength_neg_one_iff :
    n ≤ runLength days (-1) days.card cursor ↔ IsRun days (cursor + 1 - n) n := by
  rw [le_runLength_iff]
  constructor
  · intro h i hi
    have := h.2 (n - 1 - i) (by omega)
    rwa [show cursor + ((n - 1 - i : ℕ) : ℤ) * -1 = cursor + 1 - n + (i : ℤ) by omega] at this
  · refine fun h ↦ ⟨h.length_le, fun i hi ↦ ?_⟩
    have := h (n - 1 - i) (by omega)
    rwa [show cursor + 1 - n + ((n - 1 - i : ℕ) : ℤ) = cursor + (i : ℤ) * -1 by omega] at this

theorem IsRun.le_longestStreak_of_first (h : IsRun days d (n + 1)) (hfirst : d - 1 ∉ days) :
    n + 1 ≤ longestStreak days := by
  have hd : d ∈ days := by simpa using h 0 n.succ_pos
  calc n + 1 ≤ runLength days 1 days.card d := le_runLength_one_iff.mpr h
    _ = if d - 1 ∈ days then 0 else runLength days 1 days.card d := (if_neg hfirst).symm
    _ ≤ longestStreak days := Finset.le_sup (f := fun d ↦
        if d - 1 ∈ days then 0 else runLength days 1 days.card d) hd

/-- No run is longer than the longest streak: followed backwards, the days of the
set end somewhere. -/
theorem IsRun.le_longestStreak (h : IsRun days d n) : n ≤ longestStreak days := by
  induction hroom : days.card - n generalizing d n with
  | zero =>
    cases n with
    | zero => exact Nat.zero_le _
    | succ n =>
      refine h.le_longestStreak_of_first fun hbefore ↦ ?_
      have := (h.cons_sub_one hbefore).length_le
      omega
  | succ room ih =>
    cases n with
    | zero => exact Nat.zero_le _
    | succ n =>
      by_cases hbefore : d - 1 ∈ days
      · exact (Nat.le_succ _).trans (ih (h.cons_sub_one hbefore) (by omega))
      · exact h.le_longestStreak_of_first hbefore

theorem longestStreak_isGreatest (days : Finset ℤ) :
    IsGreatest {n | ∃ d, IsRun days d n} (longestStreak days) := by
  refine ⟨?_, fun n ⟨d, h⟩ ↦ h.le_longestStreak⟩
  have hzero : ∃ d, IsRun days d 0 := ⟨0, fun i hi ↦ absurd hi (Nat.not_lt_zero i)⟩
  rcases days.eq_empty_or_nonempty with rfl | hdays
  · exact hzero
  · obtain ⟨d, -, heq⟩ := Finset.exists_mem_eq_sup days hdays fun d ↦
      if d - 1 ∈ days then 0 else runLength days 1 days.card d
    rw [longestStreak, heq]
    split
    · exact hzero
    · exact ⟨d, le_runLength_one_iff.mp le_rfl⟩

theorem longestStreak_mono (h : days ⊆ days') : longestStreak days ≤ longestStreak days' := by
  obtain ⟨d, hrun⟩ := (longestStreak_isGreatest days).1
  exact (hrun.mono h).le_longestStreak

/-- The last day the current streak may end on. -/
def streakEnd (days : Finset ℤ) (today : ℤ) : ℤ := if today ∈ days then today else today - 1

theorem le_currentStreak_iff :
    n ≤ currentStreak days today ↔ IsRun days (streakEnd days today + 1 - n) n :=
  le_runLength_neg_one_iff

/-- The first day of the current streak. -/
def streakStart (days : Finset ℤ) (today : ℤ) : ℤ :=
  streakEnd days today + 1 - currentStreak days today

theorem isRun_currentStreak (days : Finset ℤ) (today : ℤ) :
    IsRun days (streakStart days today) (currentStreak days today) :=
  le_currentStreak_iff.mp le_rfl

theorem currentStreak_le_longestStreak (days : Finset ℤ) (today : ℤ) :
    currentStreak days today ≤ longestStreak days :=
  (isRun_currentStreak days today).le_longestStreak

theorem currentStreak_mono (h : days ⊆ days') (today : ℤ) :
    currentStreak days today ≤ currentStreak days' today := by
  have hrun := (isRun_currentStreak days today).mono h
  rw [streakStart] at hrun
  rw [le_currentStreak_iff]
  by_cases htoday : today ∈ days
  · rw [streakEnd, if_pos (h htoday)]
    rwa [streakEnd, if_pos htoday] at hrun
  rw [streakEnd, if_neg htoday] at hrun
  rw [streakEnd]
  split
  · -- The larger set has today as well, so its run starts a day later.
    rename_i htoday'
    intro i hi
    rcases Nat.lt_or_ge (i + 1) (currentStreak days today) with hlt | hge
    · have := hrun (i + 1) hlt
      rwa [show today - 1 + 1 - (currentStreak days today : ℤ) + ((i + 1 : ℕ) : ℤ) =
        today + 1 - (currentStreak days today : ℤ) + (i : ℤ) by omega] at this
    · rwa [show today + 1 - (currentStreak days today : ℤ) + (i : ℤ) = today by omega]
  · exact hrun

/-- Days outside the current streak have no part in it. -/
theorem currentStreak_eq_of_subset (hsub : days ⊆ days')
    (hrun : ∀ d ∈ days', streakStart days' today ≤ d → d ∈ days) :
    currentStreak days today = currentStreak days' today := by
  refine (currentStreak_mono hsub today).antisymm ?_
  have hwhole := isRun_currentStreak days' today
  rcases Nat.eq_zero_or_pos (currentStreak days' today) with hzero | hpos
  · rw [hzero]
    exact Nat.zero_le _
  have hend : streakEnd days today = streakEnd days' today := by
    by_cases htoday : today ∈ days'
    · have := hrun today htoday (by rw [streakStart, streakEnd, if_pos htoday]; omega)
      rw [streakEnd, streakEnd, if_pos htoday, if_pos this]
    · rw [streakEnd, streakEnd, if_neg htoday, if_neg fun h ↦ htoday (hsub h)]
  rw [le_currentStreak_iff, hend]
  exact fun i hi ↦ hrun _ (hwhole i hi) (by rw [streakStart]; omega)

end Runs

section Laws

variable {records outcomes outcomes' : List ActionRecord} {tz : WallClock} {now days d : ℤ} {c : ℕ}

theorem mem_doneDays : d ∈ doneDays outcomes tz ↔
    ∃ r ∈ outcomes, r.kind = .done ∧ dateOf (astimezone r.happenedAt tz) = d := by
  simp [doneDays, and_assoc]

theorem doneDays_mono (h : outcomes ⊆ outcomes') : doneDays outcomes tz ⊆ doneDays outcomes' tz := by
  intro d hd
  obtain ⟨r, hr, hdone⟩ := mem_doneDays.mp hd
  exact mem_doneDays.mpr ⟨r, h hr, hdone⟩

theorem period_eq (records : List ActionRecord) (now days : ℤ) :
    period records now days =
      ⟨records.countP fun r ↦ decide (r.kind = .done) && inPeriod now days r.happenedAt,
        records.countP fun r ↦ inPeriod now days r.happenedAt⟩ := by
  simp only [period, List.countP_eq_length_filter, List.filter_filter]

theorem period_perm (h : outcomes.Perm outcomes') (now days : ℤ) :
    period outcomes now days = period outcomes' now days := by
  simp only [period_eq, h.countP_eq]

/-- The entry of one category, from the outcomes of all of them. -/
def categoryEntry (outcomes : List ActionRecord) (tz : WallClock) (now : ℤ) (categoryId : ℕ) :
    CategoryStats :=
  let slice := outcomes.filter fun r ↦ decide (r.categoryId = categoryId)
  { categoryId := categoryId
    currentStreak := currentStreak (doneDays slice tz) (dateOf (astimezone now tz))
    longestStreak := longestStreak (doneDays slice tz)
    last7Days := period slice now 7
    last30Days := period slice now 30 }

def categoryIds (outcomes : List ActionRecord) : List ℕ :=
  (outcomes.map ActionRecord.categoryId).dedup.insertionSort (· ≤ ·)

theorem breakdown_eq (outcomes : List ActionRecord) (tz : WallClock) (now : ℤ) :
    breakdown outcomes tz now = (categoryIds outcomes).map (categoryEntry outcomes tz now) := rfl

theorem mem_categoryIds : c ∈ categoryIds outcomes ↔ ∃ r ∈ outcomes, r.categoryId = c := by
  rw [categoryIds, List.mem_insertionSort, List.mem_dedup, List.mem_map]

theorem nodup_categoryIds (outcomes : List ActionRecord) : (categoryIds outcomes).Nodup :=
  (List.perm_insertionSort _ _).nodup_iff.mpr (List.nodup_dedup _)

theorem mem_breakdown {e : CategoryStats} : e ∈ breakdown outcomes tz now ↔
    (∃ r ∈ outcomes, r.categoryId = e.categoryId) ∧ e = categoryEntry outcomes tz now e.categoryId := by
  rw [breakdown_eq, List.mem_map]
  constructor
  · rintro ⟨c, hc, rfl⟩
    exact ⟨mem_categoryIds.mp hc, rfl⟩
  · exact fun ⟨hc, he⟩ ↦ ⟨_, mem_categoryIds.mpr hc, he.symm⟩

theorem categoryEntry_mem {r : ActionRecord} (h : r ∈ outcomes) :
    categoryEntry outcomes tz now r.categoryId ∈ breakdown outcomes tz now :=
  mem_breakdown.mpr ⟨⟨r, h, rfl⟩, rfl⟩

theorem categoryEntry_perm (h : outcomes.Perm outcomes') (tz : WallClock) (now : ℤ) (c : ℕ) :
    categoryEntry outcomes tz now c = categoryEntry outcomes' tz now c := by
  have hslice := h.filter fun r ↦ decide (r.categoryId = c)
  have hdays : doneDays (outcomes.filter fun r ↦ decide (r.categoryId = c)) tz =
      doneDays (outcomes'.filter fun r ↦ decide (r.categoryId = c)) tz :=
    (doneDays_mono hslice.subset).antisymm (doneDays_mono hslice.symm.subset)
  simp only [categoryEntry, hdays, period_perm hslice]

theorem categoryIds_perm (h : outcomes.Perm outcomes') :
    categoryIds outcomes = categoryIds outcomes' := by
  have hlist := Lists.of_nodup (List.nodup_dedup (outcomes.map ActionRecord.categoryId))
  have hlist' := Lists.of_nodup (List.nodup_dedup (outcomes'.map ActionRecord.categoryId))
  have hset : {c | c ∈ (outcomes.map ActionRecord.categoryId).dedup} =
      {c | c ∈ (outcomes'.map ActionRecord.categoryId).dedup} := by
    ext c
    rw [Set.mem_ofPred_eq, Set.mem_ofPred_eq, List.mem_dedup, List.mem_dedup, (h.map _).mem_iff]
  rw [hset] at hlist
  exact hlist.unique hlist'

theorem buildSummary_perm {records' : List ActionRecord} (h : records.Perm records')
    (tz : WallClock) (now : ℤ) : buildSummary records tz now = buildSummary records' tz now := by
  have houtcomes := h.filter fun r ↦ r.kind.isOutcome
  have hdays : doneDays (records.filter fun r ↦ r.kind.isOutcome) tz =
      doneDays (records'.filter fun r ↦ r.kind.isOutcome) tz :=
    (doneDays_mono houtcomes.subset).antisymm (doneDays_mono houtcomes.symm.subset)
  simp only [buildSummary, hdays, period_perm houtcomes, breakdown_eq, categoryIds_perm houtcomes]
  congr 1
  exact List.map_congr_left fun c _ ↦ categoryEntry_perm houtcomes tz now c

theorem period_categoryEntry (outcomes : List ActionRecord) (now days : ℤ) (c : ℕ) :
    period (outcomes.filter fun r ↦ decide (r.categoryId = c)) now days =
      ⟨outcomes.countP fun r ↦ decide (r.categoryId = c) &&
          (decide (r.kind = .done) && inPeriod now days r.happenedAt),
        outcomes.countP fun r ↦ decide (r.categoryId = c) && inPeriod now days r.happenedAt⟩ := by
  rw [period_eq, List.countP_filter, List.countP_filter]
  simp only [Bool.and_comm]

/-- The figures of the categories add up to the overall ones. -/
theorem sum_categoryIds (outcomes : List ActionRecord) (now days : ℤ) :
    ((categoryIds outcomes).map fun c ↦
        (period (outcomes.filter fun r ↦ decide (r.categoryId = c)) now days).completed).sum =
      (period outcomes now days).completed ∧
    ((categoryIds outcomes).map fun c ↦
        (period (outcomes.filter fun r ↦ decide (r.categoryId = c)) now days).total).sum =
      (period outcomes now days).total := by
  have hmem : ∀ r ∈ outcomes, r.categoryId ∈ categoryIds outcomes :=
    fun r hr ↦ mem_categoryIds.mpr ⟨r, hr, rfl⟩
  simp only [period_categoryEntry, period_eq outcomes]
  exact ⟨sum_countP_key _ _ (nodup_categoryIds outcomes) hmem,
    sum_countP_key _ _ (nodup_categoryIds outcomes) hmem⟩

/-- An entry that has the figures of a summary. -/
def CategoryStats.Agrees (e : CategoryStats) (s : StatsSummary) : Prop :=
  e.currentStreak = s.currentStreak ∧ e.longestStreak = s.longestStreak ∧
    e.last7Days = s.last7Days ∧ e.last30Days = s.last30Days

theorem agrees_of_mem {e : CategoryStats} (h : e ∈ (buildSummary records tz now).byCategory) :
    e.Agrees (buildSummary (records.filter fun r ↦ decide (r.categoryId = e.categoryId)) tz now) := by
  obtain ⟨-, he⟩ := mem_breakdown.mp h
  have hslice : (records.filter fun r ↦ decide (r.categoryId = e.categoryId)).filter
      (fun r ↦ r.kind.isOutcome) = (records.filter fun r ↦ r.kind.isOutcome).filter
        fun r ↦ decide (r.categoryId = e.categoryId) := by
    rw [List.filter_filter, List.filter_filter]
    simp only [Bool.and_comm]
  rw [CategoryStats.Agrees, buildSummary, hslice]
  rw [he]
  exact ⟨rfl, rfl, rfl, rfl⟩

/-- What holds of the summary of any records whatsoever. -/
structure SummaryLaws (records : List ActionRecord) (tz : WallClock) (now : ℤ)
    (s : StatsSummary) : Prop where
  unordered : ∀ records' : List ActionRecord, records'.Perm records → buildSummary records' tz now = s
  weekAddsUp : (s.byCategory.map fun e ↦ e.last7Days.completed).sum = s.last7Days.completed ∧
    (s.byCategory.map fun e ↦ e.last7Days.total).sum = s.last7Days.total
  monthAddsUp : (s.byCategory.map fun e ↦ e.last30Days.completed).sum = s.last30Days.completed ∧
    (s.byCategory.map fun e ↦ e.last30Days.total).sum = s.last30Days.total
  categoryStreaks : ∀ e ∈ s.byCategory,
    e.currentStreak ≤ s.currentStreak ∧ e.longestStreak ≤ s.longestStreak
  current_le_longest : s.currentStreak ≤ s.longestStreak
  longest : IsGreatest {n | ∃ d, ∀ i : ℕ, i < n → ∃ r ∈ records, r.kind = .done ∧
    dateOf (astimezone r.happenedAt tz) = d + i} s.longestStreak
  slices : ∀ e ∈ s.byCategory,
    e.Agrees (buildSummary (records.filter fun r ↦ decide (r.categoryId = e.categoryId)) tz now)

theorem buildSummary_laws (records : List ActionRecord) (tz : WallClock) (now : ℤ) :
    SummaryLaws records tz now (buildSummary records tz now) where
  unordered records' h := buildSummary_perm h tz now
  weekAddsUp := by
    have hsum := sum_categoryIds (records.filter fun r ↦ r.kind.isOutcome) now 7
    simp only [buildSummary, breakdown_eq, List.map_map]
    exact hsum
  monthAddsUp := by
    have hsum := sum_categoryIds (records.filter fun r ↦ r.kind.isOutcome) now 30
    simp only [buildSummary, breakdown_eq, List.map_map]
    exact hsum
  categoryStreaks e he := by
    obtain ⟨-, he⟩ := mem_breakdown.mp he
    have hsub := @doneDays_mono _ _ tz (List.filter_subset_self
      (p := fun r ↦ decide (r.categoryId = e.categoryId))
      (records.filter fun r ↦ r.kind.isOutcome))
    rw [he]
    exact ⟨currentStreak_mono hsub _, longestStreak_mono hsub⟩
  current_le_longest := currentStreak_le_longestStreak _ _
  longest := by
    have hlongest := longestStreak_isGreatest
      (doneDays (records.filter fun r ↦ r.kind.isOutcome) tz)
    have hdone : ∀ d, d ∈ doneDays (records.filter fun r ↦ r.kind.isOutcome) tz ↔
        ∃ r ∈ records, r.kind = .done ∧ dateOf (astimezone r.happenedAt tz) = d := by
      intro d
      rw [mem_doneDays]
      refine exists_congr fun r ↦ ?_
      rw [List.mem_filter]
      refine ⟨fun ⟨hr, hdone⟩ ↦ ⟨hr.1, hdone⟩, fun ⟨hr, hkind, hdate⟩ ↦ ⟨⟨hr, ?_⟩, hkind, hdate⟩⟩
      rw [hkind]
      rfl
    simp only [IsRun, hdone] at hlongest
    exact hlongest
  slices e he := agrees_of_mem he

end Laws

end Remindo.Domain
