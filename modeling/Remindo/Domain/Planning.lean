import Remindo.Domain.Contracts
import Remindo.Domain.Recurrence

namespace Remindo.Domain

open Remindo.Foundation

/-- `next_occurrences` treats `after` as exclusive; both its callers step back
by this much. -/
def boundary : ℤ := 1

def maxOccurrencesPerCycle : ℕ := 500

/-- First moment the planner would materialise, if there is one. -/
def firstFireAt (schedule : Schedule) (tz : WallClock) (startsAt : ℤ) : Option ℤ :=
  (nextOccurrences schedule tz (startsAt - boundary) (startsAt + wizardMaxDaysAhead * day) 1).head?

theorem firstFireAt_isLeast {schedule : Schedule} {tz : Zone} {startsAt m : ℤ}
    (h : firstFireAt schedule tz startsAt = some m) :
    IsLeast {m | m ∈ firings schedule tz ∧ startsAt ≤ m} m ∧
      m ≤ startsAt + wizardMaxDaysAhead * day := by
  obtain ⟨all, hall⟩ := Lists.exists_of_finite (firingsBetween_finite schedule tz
    (startsAt - boundary) (startsAt + wizardMaxDaysAhead * day))
  have htake := nextOccurrences_eq_take schedule tz
    (by simp only [wizardMaxDaysAhead, boundary, day]; omega) 1 hall
  rw [firstFireAt, htake] at h
  cases all with
  | nil => cases h
  | cons m' rest =>
    cases h
    obtain ⟨⟨hfires, hstart, hend⟩, hleast⟩ := hall.isLeast_head
    rw [boundary] at hstart hleast
    refine ⟨⟨⟨hfires, by omega⟩, ?_⟩, hend⟩
    rintro x ⟨hx, hlow⟩
    rcases le_or_gt x (startsAt + wizardMaxDaysAhead * day) with hnear | hfar
    · exact hleast ⟨hx, by omega, hnear⟩
    · exact hend.trans hfar.le

/-- Everything the planner is allowed to know about one reminder. -/
structure PlanBounds where
  startsAt : ℤ
  plannedUntil : Option ℤ
  endsAt : Option ℤ
  maxOccurrences : Option ℕ
  lastMoment : Option ℤ

/-- Range handed to `nextOccurrences`; `til` is the source's `until`. -/
structure PlanWindow where
  after : ℤ
  til : ℤ
  limit : ℕ

structure PlanOutcome where
  plannedUntil : ℤ
  exhausted : Bool

def PlanWindow.isEmpty (window : PlanWindow) : Bool :=
  decide (window.limit = 0 ∨ window.til ≤ window.after)

def lastMomentOf (schedule : Schedule) (tz : WallClock) : Option ℤ :=
  match schedule with
  | .once s => some (toUtc s.naive tz)
  | _ => none

def planAfter (bounds : PlanBounds) : ℤ :=
  match bounds.plannedUntil with
  | some p => if bounds.startsAt - boundary < p then p else bounds.startsAt - boundary
  | none => bounds.startsAt - boundary

def planUntil (bounds : PlanBounds) (horizonEnd : ℤ) : ℤ :=
  match bounds.endsAt with
  | none => horizonEnd
  | some e => min horizonEnd e

def planWindow (bounds : PlanBounds) (horizonEnd : ℤ) (firedCount : ℕ) : PlanWindow where
  after := planAfter bounds
  til := planUntil bounds horizonEnd
  limit :=
    match bounds.maxOccurrences with
    | none => maxOccurrencesPerCycle
    | some top => min maxOccurrencesPerCycle (top - firedCount)

theorem planWindow_limit_eq_zero {bounds : PlanBounds} {horizonEnd : ℤ} {firedCount : ℕ} :
    (planWindow bounds horizonEnd firedCount).limit = 0 ↔
      ∃ top, bounds.maxOccurrences = some top ∧ top ≤ firedCount := by
  rw [planWindow]
  cases htop : bounds.maxOccurrences with
  | none => simp [maxOccurrencesPerCycle]
  | some top => simp [maxOccurrencesPerCycle]; omega

def isExhausted (bounds : PlanBounds) (plannedUntil : ℤ) (firedCount : ℕ) : Bool :=
  bounds.maxOccurrences.any (fun top ↦ decide (top ≤ firedCount)) ||
    bounds.endsAt.any (fun e ↦ decide (e ≤ plannedUntil)) ||
    bounds.lastMoment.any (fun m ↦ decide (m ≤ plannedUntil))

def settlePlan (bounds : PlanBounds) (window : PlanWindow) (moments : List ℤ) (firedCount : ℕ) :
    PlanOutcome :=
  let plannedUntil :=
    match moments.getLast? with
    | some last =>
      -- The limit truncated the window: resume from the last moment written.
      if window.limit ≤ moments.length then last else max window.after window.til
    | none => max window.after window.til
  ⟨plannedUntil, isExhausted bounds plannedUntil firedCount⟩

def expand (schedule : Schedule) (tz : WallClock) (window : PlanWindow) : List ℤ :=
  if window.isEmpty then []
  else nextOccurrences schedule tz window.after window.til window.limit

/-- A cycle plans no more than the budget has left. -/
theorem length_expand_le {schedule : Schedule} {tz : WallClock} {bounds : PlanBounds} {horizonEnd : ℤ}
    {firedCount top : ℕ} (htop : bounds.maxOccurrences = some top) :
    (expand schedule tz (planWindow bounds horizonEnd firedCount)).length ≤ top - firedCount := by
  rw [expand]
  split
  · exact Nat.zero_le _
  · refine (length_nextOccurrences_le _ _ _ _ _).trans ?_
    rw [planWindow, htop]
    exact Nat.min_le_right _ _

theorem eq_of_lastMomentOf {schedule : Schedule} {tz : WallClock} {last m : ℤ}
    (h : lastMomentOf schedule tz = some last) (hm : m ∈ firings schedule tz) : m = last := by
  cases schedule with
  | once s =>
    cases h
    exact hm
  | interval s | daily s | weekly s | monthly s => cases h

section Windows

variable {schedule : Schedule} {tz : Zone} {bounds : PlanBounds} {horizonEnd m : ℤ}
  {firedCount : ℕ}

/-- A moment the reminder is meant to fire at. -/
def PlanBounds.admits (bounds : PlanBounds) (m : ℤ) : Prop :=
  bounds.startsAt ≤ m ∧ ∀ e, bounds.endsAt = some e → m ≤ e

theorem mem_expand {window : PlanWindow} (h : m ∈ expand schedule tz window) :
    m ∈ firingsBetween schedule tz window.after window.til := by
  rw [expand] at h
  split at h
  · cases h
  · exact mem_nextOccurrences h

theorem startsAt_le_planAfter (bounds : PlanBounds) :
    bounds.startsAt - boundary ≤ planAfter bounds ∧
      ∀ p, bounds.plannedUntil = some p → p ≤ planAfter bounds := by
  rw [planAfter]
  cases hp : bounds.plannedUntil with
  | none => exact ⟨le_rfl, nofun⟩
  | some p =>
    simp only [Option.some_inj, forall_eq']
    split <;> omega

/-- What is admitted but not beyond the start of the window was planned. -/
theorem le_plannedUntil_of_le_planAfter (hstart : bounds.startsAt ≤ m)
    (h : m ≤ planAfter bounds) : ∃ p, bounds.plannedUntil = some p ∧ m ≤ p := by
  rw [planAfter] at h
  cases hp : bounds.plannedUntil with
  | none =>
    simp only [hp] at h
    have : boundary = 1 := rfl
    omega
  | some p =>
    simp only [hp] at h
    have : boundary = 1 := rfl
    refine ⟨p, rfl, ?_⟩
    split at h <;> omega

theorem planUntil_le (bounds : PlanBounds) (horizonEnd : ℤ) :
    planUntil bounds horizonEnd ≤ horizonEnd ∧
      ∀ e, bounds.endsAt = some e → planUntil bounds horizonEnd ≤ e := by
  rw [planUntil]
  cases bounds.endsAt with
  | none => exact ⟨le_rfl, nofun⟩
  | some e =>
    refine ⟨min_le_left _ _, fun e' he ↦ ?_⟩
    cases he
    exact min_le_right _ _

theorem le_planUntil (hm : m ≤ horizonEnd) (hend : ∀ e, bounds.endsAt = some e → m ≤ e) :
    m ≤ planUntil bounds horizonEnd := by
  rw [planUntil]
  cases he : bounds.endsAt with
  | none => exact hm
  | some e => exact le_min hm (hend e he)

/-- The moments of a window are admitted, as long as it starts at the planner's. -/
theorem admits_of_mem_expand
    (h : m ∈ expand schedule tz (planWindow bounds horizonEnd firedCount)) :
    m ∈ firings schedule tz ∧ bounds.admits m := by
  obtain ⟨hfires, hafter, htil⟩ := mem_expand h
  have hstart := (startsAt_le_planAfter bounds).1
  change planAfter bounds < m at hafter
  change m ≤ planUntil bounds horizonEnd at htil
  have : boundary = 1 := rfl
  refine ⟨hfires, by omega, fun e he ↦ htil.trans ((planUntil_le bounds horizonEnd).2 e he)⟩

/-- The new watermark is the last moment written when the limit cut the window
short, and the end of the window otherwise. -/
theorem plannedUntil_cases (bounds : PlanBounds) (window : PlanWindow) (moments : List ℤ)
    (firedCount : ℕ) :
    (∃ last, moments.getLast? = some last ∧ window.limit ≤ moments.length ∧
      (settlePlan bounds window moments firedCount).plannedUntil = last) ∨
      (moments = [] ∨ moments.length < window.limit) ∧
        (settlePlan bounds window moments firedCount).plannedUntil =
          max window.after window.til := by
  rw [settlePlan]
  cases hlast : moments.getLast? with
  | none => exact .inr ⟨.inl (List.getLast?_eq_none_iff.mp hlast), rfl⟩
  | some last =>
    by_cases hfull : window.limit ≤ moments.length
    · exact .inl ⟨last, rfl, hfull, if_pos hfull⟩
    · exact .inr ⟨.inr (by omega), if_neg hfull⟩

/-- No admitted firing up to the new watermark is passed over: it lies behind
the old one, or the cycle wrote it, or there was no budget left. -/
theorem planned_of_le_plannedUntil {firedCount' : ℕ}
    (hspan : planUntil bounds horizonEnd - planAfter bounds ≤ 3650 * day)
    (hfires : m ∈ firings schedule tz) (hstart : bounds.startsAt ≤ m)
    (hm : m ≤ (settlePlan bounds (planWindow bounds horizonEnd firedCount)
      (expand schedule tz (planWindow bounds horizonEnd firedCount)) firedCount').plannedUntil) :
    (∃ p, bounds.plannedUntil = some p ∧ m ≤ p) ∨
      m ∈ expand schedule tz (planWindow bounds horizonEnd firedCount) ∨
      (planWindow bounds horizonEnd firedCount).limit = 0 := by
  by_cases hafter : m ≤ planAfter bounds
  · exact .inl (le_plannedUntil_of_le_planAfter hstart hafter)
  by_cases hlimit : (planWindow bounds horizonEnd firedCount).limit = 0
  · exact .inr (.inr hlimit)
  rw [not_le] at hafter
  obtain ⟨all, hall⟩ := Lists.exists_of_finite (firingsBetween_finite schedule tz
    (planAfter bounds) (planUntil bounds horizonEnd))
  have htake := nextOccurrences_eq_take schedule tz hspan
    (planWindow bounds horizonEnd firedCount).limit hall
  have hexpand : planAfter bounds < planUntil bounds horizonEnd →
      expand schedule tz (planWindow bounds horizonEnd firedCount) =
        all.take (planWindow bounds horizonEnd firedCount).limit := by
    intro hopen
    have hempty : ¬(planWindow bounds horizonEnd firedCount).isEmpty = true := by
      simp only [PlanWindow.isEmpty, decide_eq_true_eq, not_or]
      exact ⟨hlimit, not_le.mpr hopen⟩
    rw [expand, if_neg hempty]
    exact htake
  refine .inr (.inl ?_)
  rcases plannedUntil_cases bounds (planWindow bounds horizonEnd firedCount)
    (expand schedule tz (planWindow bounds horizonEnd firedCount)) firedCount' with
    ⟨last, hlast, -, hplanned⟩ | ⟨hshort, hplanned⟩
  · rw [hplanned] at hm
    obtain ⟨-, hlow, hhigh⟩ := mem_expand (List.mem_of_getLast? hlast)
    have hin : m ∈ firingsBetween schedule tz (planAfter bounds) (planUntil bounds horizonEnd) :=
      ⟨hfires, hafter, hm.trans hhigh⟩
    rw [hexpand (hlow.trans_le hhigh)] at hlast ⊢
    exact hall.mem_take_of_le hin hlast hm
  · rw [hplanned] at hm
    have htil : m ≤ planUntil bounds horizonEnd := (le_max_iff.mp hm).resolve_left (not_le.mpr hafter)
    have hin : m ∈ firingsBetween schedule tz (planAfter bounds) (planUntil bounds horizonEnd) :=
      ⟨hfires, hafter, htil⟩
    rw [hexpand (hafter.trans_le htil)] at hshort ⊢
    have hwhole : all.take (planWindow bounds horizonEnd firedCount).limit = all := by
      refine List.take_of_length_le ?_
      rw [List.length_take] at hshort
      rcases hshort with hnil | hlt
      · rcases List.take_eq_nil_iff.mp hnil with hzero | rfl
        · exact absurd hzero hlimit
        · exact Nat.zero_le _
      · omega
    rw [hwhole]
    exact hall.mem.mpr hin

/-- A due reminder leaves the cycle with a later watermark, or exhausted. -/
theorem lt_plannedUntil_or_exhausted {firedCount' : ℕ} {p : ℤ} (hp : bounds.plannedUntil = some p)
    (hdue : p < horizonEnd) :
    let outcome := settlePlan bounds (planWindow bounds horizonEnd firedCount)
      (expand schedule tz (planWindow bounds horizonEnd firedCount)) firedCount'
    p < outcome.plannedUntil ∨ outcome.exhausted = true := by
  intro outcome
  have hafter := (startsAt_le_planAfter bounds).2 p hp
  rcases plannedUntil_cases bounds (planWindow bounds horizonEnd firedCount)
    (expand schedule tz (planWindow bounds horizonEnd firedCount)) firedCount' with
    ⟨last, hlast, -, hplanned⟩ | ⟨-, hplanned⟩
  · obtain ⟨-, hlow, -⟩ := mem_expand (List.mem_of_getLast? hlast)
    exact .inl (hafter.trans_lt (hplanned ▸ hlow))
  · change outcome.plannedUntil = max (planAfter bounds) (planUntil bounds horizonEnd) at hplanned
    by_cases hlate : p < planUntil bounds horizonEnd
    · exact .inl (hplanned ▸ hlate.trans_le (le_max_right _ _))
    · cases he : bounds.endsAt with
      | none =>
        simp only [planUntil, he] at hlate
        exact absurd hdue hlate
      | some e =>
        simp only [planUntil, he, not_lt] at hlate
        have hend : e ≤ outcome.plannedUntil := by
          rw [hplanned]
          omega
        refine .inr ?_
        change isExhausted bounds outcome.plannedUntil firedCount' = true
        rw [isExhausted, he]
        simp [hend]

end Windows

end Remindo.Domain
