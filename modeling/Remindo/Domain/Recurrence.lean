import Mathlib.Data.Int.ConditionallyCompleteOrder
import Mathlib.Data.Int.Interval
import Mathlib.Order.ConditionallyCompleteLattice.Basic
import Remindo.Foundation.Listing
import Remindo.Domain.Schedules

namespace Remindo.Domain

open Remindo.Foundation
open LocalClock (firstReach)

section ToUtc

/-- Smallest instant whose local time is at or after a skipped `naive`. -/
def firstExistingMoment (naive : ℤ) (tz : WallClock) (low high : ℤ) : ℤ :=
  LocalClock.bisect (fun ts ↦ decide (naive ≤ astimezone (ts * second) tz))
    (low.tdiv second) (high.tdiv second) * second

def toUtc (naive : ℤ) (tz : WallClock) : ℤ :=
  let early := utcoffset naive tz .zero
  let late := utcoffset naive tz .one
  if early = late then naive - early
  else if late < early then naive - early
  else firstExistingMoment naive tz (naive - late) (naive - early)

theorem tdiv_second_of_dvd {n : ℤ} (h : second ∣ n) : n.tdiv second = n / second :=
  (Int.tdiv_eq_ediv_of_dvd h)

theorem toUtc_eq_firstReach {naive : ℤ} (h : second ∣ naive) (tz : WallClock) :
    toUtc naive tz = firstReach tz.base tz.changes (naive / second) * second := by
  obtain ⟨k, rfl⟩ := h
  have hk : second * k / second = k := Int.mul_ediv_cancel_left k (by decide)
  simp only [toUtc, utcoffset, hk]
  split
  · rename_i heq
    have heq := Int.eq_of_mul_eq_mul_right (by decide) heq
    rw [LocalClock.firstReach_of_late_le tz.spaced heq.ge]
    simp only [second]; omega
  split
  · rename_i hlt
    rw [LocalClock.firstReach_of_late_le tz.spaced (by simp only [second] at hlt; omega)]
    simp only [second]; omega
  · rename_i hne hlt
    obtain ⟨hlow, hhigh, hstay⟩ := LocalClock.firstReach_of_early_lt tz.spaced (n := k)
      (by simp only [second] at hne hlt; omega)
    have hdvd (o : ℤ) : second * k - o * second = (k - o) * second := by simp only [second]; omega
    rw [firstExistingMoment, hdvd, hdvd, tdiv_second_of_dvd (Dvd.intro_left _ rfl),
      tdiv_second_of_dvd (Dvd.intro_left _ rfl), Int.mul_ediv_cancel _ (by decide),
      Int.mul_ediv_cancel _ (by decide)]
    have hread (u : ℤ) : second * k ≤ astimezone (u * second) tz ↔
        k ≤ LocalClock.reading tz.base tz.changes u := by
      rw [le_astimezone_iff (Dvd.intro _ rfl), hk, Int.mul_ediv_cancel _ (by decide)]
    congr 1
    refine LocalClock.bisect_eq hlow hhigh (fun u hu ↦ ?_) (fun u hu hu' ↦ ?_)
    · rw [decide_eq_false_iff_not, hread, not_le]
      exact LocalClock.reading_lt_of_lt_firstReach hu
    · rw [decide_eq_true_iff, hread]
      exact hstay u hu hu'

theorem second_dvd_toUtc {naive : ℤ} (h : second ∣ naive) (tz : WallClock) :
    second ∣ toUtc naive tz := by
  rw [toUtc_eq_firstReach h]
  exact Dvd.intro_left _ rfl

/-- Rules 3 and 4 in one: a wall-clock moment resolves to the first instant at
which the clock shows it or something later. -/
theorem toUtc_isLeast {naive : ℤ} (h : second ∣ naive) (tz : WallClock) :
    IsLeast {u | naive ≤ astimezone u tz} (toUtc naive tz) := by
  obtain ⟨hreach, hleast⟩ := LocalClock.firstReach_isLeast tz.spaced (naive / second)
  rw [toUtc_eq_firstReach h]
  refine ⟨?_, fun u hu ↦ ?_⟩
  · refine (le_astimezone_iff h _ tz).mpr ?_
    rwa [Int.mul_ediv_cancel _ (by decide)]
  · have := hleast ((le_astimezone_iff h u tz).mp hu)
    simp only [second] at *; omega

theorem le_astimezone_toUtc {naive : ℤ} (h : second ∣ naive) (tz : WallClock) :
    naive ≤ astimezone (toUtc naive tz) tz := (toUtc_isLeast h tz).1

theorem toUtc_le {naive : ℤ} (h : second ∣ naive) {tz : WallClock} {u : ℤ}
    (hu : naive ≤ astimezone u tz) : toUtc naive tz ≤ u := (toUtc_isLeast h tz).2 hu

theorem toUtc_mono {n n' : ℤ} (h : second ∣ n) (h' : second ∣ n') (tz : WallClock) (hle : n ≤ n') :
    toUtc n tz ≤ toUtc n' tz :=
  toUtc_le h (hle.trans (le_astimezone_toUtc h' tz))

/-- At the instant `t` the clock jumps over `naive`. -/
def Skips (tz : WallClock) (t naive : ℤ) : Prop :=
  astimezone (t - 1) tz < naive ∧ naive < astimezone t tz

instance (tz : WallClock) (t naive : ℤ) : Decidable (Skips tz t naive) :=
  inferInstanceAs (Decidable (_ ∧ _))

theorem skips_iff {n t : ℤ} (hn : second ∣ n) (tz : WallClock) :
    Skips tz t n ↔ second ∣ t ∧
      LocalClock.reading tz.base tz.changes (t / second - 1) < n / second ∧
        n / second < LocalClock.reading tz.base tz.changes (t / second) := by
  have hbefore := le_astimezone_iff hn (t - 1) tz
  have hfloor := astimezone_ediv t tz
  have hrest := astimezone_emod t tz
  rw [Skips, ← not_le, hbefore]
  by_cases ht : second ∣ t
  · rw [show (t - 1) / second = t / second - 1 by simp only [second] at *; omega]
    simp only [second] at *
    omega
  · rw [show (t - 1) / second = t / second by simp only [second] at *; omega]
    simp only [second] at *
    omega

theorem Skips.toUtc_eq {n t : ℤ} {tz : WallClock} (hn : second ∣ n) (h : Skips tz t n) :
    toUtc n tz = t := by
  obtain ⟨ht, hlow, hhigh⟩ := (skips_iff hn tz).mp h
  rw [toUtc_eq_firstReach hn, (LocalClock.skip_spec tz.spaced hlow hhigh).1]
  exact Int.ediv_mul_cancel ht

/-- A reading that was jumped over is behind the clock for good. -/
theorem Skips.lt_astimezone {n t u : ℤ} {tz : WallClock} (hn : second ∣ n) (h : Skips tz t n)
    (hu : t ≤ u) : n < astimezone u tz := by
  obtain ⟨ht, hlow, hhigh⟩ := (skips_iff hn tz).mp h
  have hlt := (LocalClock.skip_spec tz.spaced hlow hhigh).2 (u / second)
    (Int.ediv_le_ediv (by decide) hu)
  rw [← astimezone_ediv] at hlt
  simp only [second] at *
  omega

/-- A reading that is reached without being shown is jumped over. -/
theorem skips_toUtc {n : ℤ} {tz : WallClock} (hn : second ∣ n)
    (h : astimezone (toUtc n tz) tz ≠ n) : Skips tz (toUtc n tz) n := by
  have hreach := le_astimezone_toUtc hn tz
  refine ⟨not_le.mp fun hle ↦ ?_, lt_of_le_of_ne hreach h.symm⟩
  have := toUtc_le hn hle
  omega

theorem Skips.exists_change {n t : ℤ} {tz : WallClock} (hn : second ∣ n) (h : Skips tz t n) :
    ∃ c ∈ tz.changes, t = c.moment * second := by
  obtain ⟨ht, hlow, hhigh⟩ := (skips_iff hn tz).mp h
  obtain ⟨c, hc, hmoment⟩ := @LocalClock.exists_change tz.base (t / second) tz.changes (by omega)
  exact ⟨c, hc, by rw [hmoment, Int.ediv_mul_cancel ht]⟩

/-- A wall-clock moment resolves to the first instant that reaches it: a skipped
one to the change that skips it, a repeated one to its first pass. -/
theorem toUtc_first_instant {n : ℤ} (h : second ∣ n) (tz : WallClock) :
    IsLeast {u | n ≤ astimezone u tz} (toUtc n tz) ∧
      ((∀ u, astimezone u tz ≠ n) →
        ∃ c ∈ tz.changes, toUtc n tz = c.moment * second ∧ Skips tz (toUtc n tz) n) ∧
      ((∃ u, astimezone u tz = n) → IsLeast {u | astimezone u tz = n} (toUtc n tz)) ∧
      ∀ n', second ∣ n' → n ≤ n' → toUtc n tz ≤ toUtc n' tz := by
  refine ⟨toUtc_isLeast h tz, fun hnone ↦ ?_, fun ⟨u, hu⟩ ↦ ⟨?_, ?_⟩, fun n' h' hle ↦
    toUtc_mono h h' tz hle⟩
  · have hskips := skips_toUtc h (hnone _)
    obtain ⟨c, hc, hmoment⟩ := hskips.exists_change h
    exact ⟨c, hc, hmoment, hskips⟩
  · by_contra hne
    have hpast := (skips_toUtc h hne).lt_astimezone h (toUtc_le h hu.ge)
    omega
  · exact fun v hv ↦ toUtc_le h hv.ge

/-- One hour ahead of UTC, two from 2026-03-29T01:00Z on. -/
def springForward : Zone :=
  ⟨⟨3600, [⟨1774746000, 7200⟩], trivial⟩, by decide, by decide⟩

/-- Samoa's clock, which left out the 30th of December 2011. -/
def dateLine : Zone :=
  ⟨⟨-36000, [⟨1325239200, 50400⟩], trivial⟩, by decide, by decide⟩

/-- Half past two in the night of the change. -/
theorem toUtc_first_instant_spring :
    IsLeast {u | 1774751400 * second ≤ astimezone u springForward}
        (toUtc (1774751400 * second) springForward) ∧
      ((∀ u, astimezone u springForward ≠ 1774751400 * second) →
        ∃ c ∈ springForward.changes,
          toUtc (1774751400 * second) springForward = c.moment * second ∧
            Skips springForward (toUtc (1774751400 * second) springForward)
              (1774751400 * second)) ∧
      ((∃ u, astimezone u springForward = 1774751400 * second) →
        IsLeast {u | astimezone u springForward = 1774751400 * second}
          (toUtc (1774751400 * second) springForward)) ∧
      ∀ n', second ∣ n' → 1774751400 * second ≤ n' →
        toUtc (1774751400 * second) springForward ≤ toUtc n' springForward :=
  toUtc_first_instant (Dvd.intro_left _ rfl) springForward

/-- Before the first pass of a reading, that pass ends the wait for it. -/
theorem toUtc_isLeast_after {n m : ℤ} (hn : second ∣ n) {tz : WallClock} (h : m < toUtc n tz) :
    IsLeast {u | m < u ∧ n ≤ astimezone u tz} (toUtc n tz) :=
  ⟨⟨h, le_astimezone_toUtc hn tz⟩, fun _ hu ↦ toUtc_le hn hu.2⟩

/-- After it, where the clock has fallen back behind the reading, the second one. -/
theorem second_pass_isLeast {n m : ℤ} (hn : second ∣ n) {tz : WallClock} (h : toUtc n tz ≤ m)
    (hbehind : astimezone m tz < n) :
    IsLeast {u | m < u ∧ n ≤ astimezone u tz} (n - utcoffset n tz .one) := by
  obtain ⟨k, rfl⟩ := hn
  have hk : second * k / second = k := Int.mul_ediv_cancel_left k (by decide)
  have hdvd : second ∣ second * k := Dvd.intro _ rfl
  have hreach := Int.ediv_le_ediv (show (0 : ℤ) < second by decide) h
  rw [toUtc_eq_firstReach hdvd, Int.mul_ediv_cancel _ (by decide), hk] at hreach
  have hlow : LocalClock.reading tz.base tz.changes (m / second) < k := by
    rwa [← not_le, le_astimezone_iff hdvd, hk, not_le] at hbehind
  obtain ⟨-, ⟨hlt, hle⟩, hleast⟩ := LocalClock.second_pass tz.spaced hreach hlow
  have hsecond : second * k - utcoffset (second * k) tz .one =
      (k - LocalClock.wallOffset min tz.base tz.changes k) * second := by
    rw [utcoffset, hk, Int.sub_mul, Int.mul_comm k]
  rw [hsecond]
  refine ⟨⟨?_, ?_⟩, fun u hu ↦ ?_⟩
  · simp only [second] at hlt ⊢
    omega
  · rw [le_astimezone_iff hdvd, hk, Int.mul_ediv_cancel _ (by decide)]
    exact hle
  · have hread := (le_astimezone_iff hdvd u tz).mp hu.2
    rw [hk] at hread
    have hmu : m / second < u / second := by
      refine lt_of_le_of_ne (Int.ediv_le_ediv (by decide) hu.1.le) fun heq ↦ ?_
      rw [← heq] at hread
      omega
    have := hleast ⟨hmu, hread⟩
    simp only [second] at *
    omega

end ToUtc

section Moments

/-- `while current <= end`, one step at a time. -/
def stepMoments (step : ℤ) (hstep : 0 < step) (current stop : ℤ) : List ℤ :=
  if current ≤ stop then current :: stepMoments step hstep (current + step) stop else []
termination_by (stop + 1 - current).toNat
decreasing_by omega

theorem IntervalSchedule.step_pos (s : IntervalSchedule) : 0 < s.everyMinutes * minute := by
  have := s.inRange.1
  simp only [minute]; omega

/-- A window whose end does not come after its start crosses midnight. -/
def IntervalSchedule.endDay (s : IntervalSchedule) (d : ℤ) : ℤ :=
  if s.windowStart.micros < s.windowEnd.micros then d else d + 1

def intervalMoments (s : IntervalSchedule) (tz : WallClock) (d : ℤ) : List ℤ :=
  let start := toUtc (combine d s.windowStart) tz
  let stop := toUtc (combine (s.endDay d) s.windowEnd) tz
  -- A window without length: the anchor alone fires.
  if stop ≤ start then [start]
  else stepMoments (s.everyMinutes * minute) s.step_pos start stop

def monthlyWanted (s : MonthlySchedule) (daysInMonth : ℕ) : List ℕ :=
  s.days.values.filterMap fun wanted ↦
    if wanted ≤ daysInMonth then some wanted
    else match s.onMissingDay with
      | .lastDay => some daysInMonth
      | .skip => none

def atTimes (times : Times) (tz : WallClock) (d : ℤ) : List ℤ :=
  times.values.map fun t ↦ toUtc (combine d t) tz

def monthlyMoments (s : MonthlySchedule) (tz : WallClock) (d : ℤ) : List ℤ :=
  let date := civil d
  if date.day ∈ monthlyWanted s (daysInMonth date.year date.month) then atTimes s.times tz d else []

def momentsForDay (schedule : Schedule) (tz : WallClock) (d : ℤ) : List ℤ :=
  match schedule with
  | .interval s => intervalMoments s tz d
  | .daily s => if d % s.everyNDays = 0 then atTimes s.times tz d else []
  | .weekly s => if isoweekday d ∈ s.weekdays.values then atTimes s.times tz d else []
  | .monthly s => monthlyMoments s tz d
  | .once _ => []

theorem mem_stepMoments {step : ℤ} {hstep : 0 < step} {current stop m : ℤ}
    (h : m ∈ stepMoments step hstep current stop) : current ≤ m ∧ m ≤ stop := by
  fun_induction stepMoments step hstep current stop with
  | case1 current hle ih =>
    rcases List.mem_cons.mp h with rfl | h
    · exact ⟨le_rfl, hle⟩
    · have := ih h
      omega
  | case2 current hgt => cases h

/-- The wall-clock time a day of the schedule opens at. -/
def anchor : Schedule → WallTime
  | .interval s => s.windowStart
  | _ => ⟨0, 0⟩

def dayStart (schedule : Schedule) (tz : WallClock) (d : ℤ) : ℤ := toUtc (combine d (anchor schedule)) tz

theorem dayStart_mono (schedule : Schedule) (tz : WallClock) {d d' : ℤ} (h : d ≤ d') :
    dayStart schedule tz d ≤ dayStart schedule tz d' :=
  toUtc_mono (second_dvd_combine _ _) (second_dvd_combine _ _) tz
    (combine_le_combine_of_le h le_rfl)

theorem mem_atTimes {times : Times} {tz : WallClock} {d m : ℤ} (h : m ∈ atTimes times tz d) :
    toUtc (combine d ⟨0, 0⟩) tz ≤ m ∧ m ≤ toUtc (combine (d + 1) ⟨0, 0⟩) tz := by
  obtain ⟨t, -, rfl⟩ := List.mem_map.mp h
  constructor
  · exact toUtc_mono (second_dvd_combine _ _) (second_dvd_combine _ _) tz
      (combine_le_combine_of_le le_rfl t.micros_nonneg)
  · exact toUtc_mono (second_dvd_combine _ _) (second_dvd_combine _ _) tz
      (combine_le_combine (by omega))

theorem IntervalSchedule.close_le_open (s : IntervalSchedule) (d : ℤ) :
    combine (s.endDay d) s.windowEnd ≤ combine (d + 1) s.windowStart := by
  rw [endDay]
  split
  · exact combine_le_combine (by omega)
  · exact combine_le_combine_of_le le_rfl (by omega)

theorem mem_intervalMoments {s : IntervalSchedule} {tz : WallClock} {d m : ℤ}
    (h : m ∈ intervalMoments s tz d) :
    toUtc (combine d s.windowStart) tz ≤ m ∧ m ≤ toUtc (combine (d + 1) s.windowStart) tz := by
  have hnext : toUtc (combine d s.windowStart) tz ≤ toUtc (combine (d + 1) s.windowStart) tz :=
    dayStart_mono (.interval s) tz (by omega)
  simp only [intervalMoments] at h
  split at h
  · obtain rfl := List.mem_singleton.mp h
    exact ⟨le_rfl, hnext⟩
  · obtain ⟨hge, hle⟩ := mem_stepMoments h
    exact ⟨hge, hle.trans (toUtc_mono (second_dvd_combine _ _) (second_dvd_combine _ _) tz
      (s.close_le_open d))⟩

/-- Every moment of a day lies between the starts of that day and the next:
later days never reach back before earlier ones. -/
theorem mem_momentsForDay {schedule : Schedule} {tz : WallClock} {d m : ℤ}
    (h : m ∈ momentsForDay schedule tz d) :
    dayStart schedule tz d ≤ m ∧ m ≤ dayStart schedule tz (d + 1) := by
  cases schedule with
  | interval s => exact mem_intervalMoments h
  | once s => cases h
  | daily s | weekly s | monthly s =>
    simp only [momentsForDay, monthlyMoments] at h
    split at h
    · exact mem_atTimes h
    · cases h

end Moments

section NextOccurrences

/-- More candidates than the densest schedule has in two local days. -/
def safetyBuffer : ℕ := 600

def maxLocalDays : ℤ := 3660

def localDays (tz : WallClock) (after til : ℤ) : List ℤ :=
  let first := dateOf (astimezone after tz - day)
  let last := dateOf (astimezone til tz + day)
  let span := min (last - first) maxLocalDays
  (List.range (span + 1).toNat).map fun offset : ℕ ↦ first + (offset : ℤ)

/-- One day's moments inside `(after, til]`, added to those already found. -/
def addMoments (moments : List ℤ) (after til : ℤ) (found : List ℤ) : List ℤ :=
  moments.foldl (fun found m ↦ if after < m ∧ m ≤ til then found.insert m else found) found

/-- The loop over the local days, left as soon as `cap` moments are found. -/
def collect (momentsOf : ℤ → List ℤ) (after til : ℤ) (cap : ℕ) : List ℤ → List ℤ → List ℤ
  | [], found => found
  | d :: days, found =>
    let found := addMoments (momentsOf d) after til found
    if cap ≤ found.length then found else collect momentsOf after til cap days found

/-- Firing moments in `(after, til]`, ascending; `til` is the source's `until`. -/
def nextOccurrences (schedule : Schedule) (tz : WallClock) (after til : ℤ) (limit : ℕ) : List ℤ :=
  if limit = 0 ∨ til ≤ after then []
  else match schedule with
    | .once s =>
      let moment := toUtc s.naive tz
      if after < moment ∧ moment ≤ til then [moment] else []
    | schedule =>
      let found := collect (momentsForDay schedule tz) after til (limit + safetyBuffer)
        (localDays tz after til) []
      (found.insertionSort (· ≤ ·)).take limit

theorem length_nextOccurrences_le (schedule : Schedule) (tz : WallClock) (after til : ℤ) (limit : ℕ) :
    (nextOccurrences schedule tz after til limit).length ≤ limit := by
  by_cases hempty : limit = 0 ∨ til ≤ after
  · simp [nextOccurrences, hempty]
  · cases schedule with
    | once s =>
      have hpos : 1 ≤ limit := Nat.pos_of_ne_zero fun hzero ↦ hempty (.inl hzero)
      rw [nextOccurrences, if_neg hempty]
      dsimp only
      split
      · exact hpos
      · exact Nat.zero_le _
    | interval s | daily s | weekly s | monthly s =>
      rw [nextOccurrences, if_neg hempty]
      · exact List.length_take_le _ _
      · rintro s ⟨⟩

/-- All the moments a schedule ever fires at, whatever the local date. -/
def firings (schedule : Schedule) (tz : WallClock) : Set ℤ :=
  match schedule with
  | .once s => {toUtc s.naive tz}
  | schedule => {m | ∃ d, m ∈ momentsForDay schedule tz d}

def firingsBetween (schedule : Schedule) (tz : WallClock) (after til : ℤ) : Set ℤ :=
  {m | m ∈ firings schedule tz ∧ after < m ∧ m ≤ til}

theorem firingsBetween_finite (schedule : Schedule) (tz : WallClock) (after til : ℤ) :
    (firingsBetween schedule tz after til).Finite :=
  (Set.finite_Ioc after til).subset fun _ hm ↦ hm.2

theorem firingsBetween_union (schedule : Schedule) (tz : WallClock) {after middle til : ℤ}
    (h : after ≤ middle) (h' : middle ≤ til) :
    firingsBetween schedule tz after middle ∪ firingsBetween schedule tz middle til =
      firingsBetween schedule tz after til := by
  ext m
  simp only [firingsBetween, Set.mem_union, Set.mem_ofPred_eq]
  constructor
  · rintro (⟨hm, hrange⟩ | ⟨hm, hrange⟩) <;> exact ⟨hm, by omega⟩
  · rintro ⟨hm, hrange⟩
    rcases le_or_gt m middle with hle | hgt
    · exact .inl ⟨hm, hrange.1, hle⟩
    · exact .inr ⟨hm, hgt, hrange.2⟩

theorem mem_addMoments {moments found : List ℤ} {after til m : ℤ} :
    m ∈ addMoments moments after til found ↔
      m ∈ found ∨ m ∈ moments ∧ after < m ∧ m ≤ til := by
  induction moments generalizing found with
  | nil => simp [addMoments]
  | cons x xs ih =>
    rw [addMoments, List.foldl_cons, ← addMoments, ih]
    by_cases h : after < x ∧ x ≤ til
    · rw [if_pos h, List.mem_insert_iff, List.mem_cons]
      constructor
      · rintro ((rfl | h') | h')
        · exact .inr ⟨.inl rfl, h⟩
        · exact .inl h'
        · exact .inr ⟨.inr h'.1, h'.2⟩
      · rintro (h' | ⟨rfl | h', hm⟩)
        · exact .inl (.inr h')
        · exact .inl (.inl rfl)
        · exact .inr ⟨h', hm⟩
    · rw [if_neg h, List.mem_cons]
      constructor
      · rintro (h' | h')
        · exact .inl h'
        · exact .inr ⟨.inr h'.1, h'.2⟩
      · rintro (h' | ⟨rfl | h', hm⟩)
        · exact .inl h'
        · exact absurd hm h
        · exact .inr ⟨h', hm⟩

theorem nodup_addMoments (moments : List ℤ) (after til : ℤ) {found : List ℤ} (h : found.Nodup) :
    (addMoments moments after til found).Nodup := by
  induction moments generalizing found with
  | nil => exact h
  | cons x xs ih =>
    rw [addMoments, List.foldl_cons, ← addMoments]
    refine ih ?_
    split
    · exact h.insert
    · exact h

/-- The loop has gone through a first part of the days; where it left the rest
out, it had already found `cap` moments. -/
theorem collect_spec (momentsOf : ℤ → List ℤ) (after til : ℤ) (cap : ℕ) (days found : List ℤ)
    (hfound : found.Nodup) :
    ∃ gone rest, gone ++ rest = days ∧ (collect momentsOf after til cap days found).Nodup ∧
      (∀ m, m ∈ collect momentsOf after til cap days found ↔
        m ∈ found ∨ ∃ d ∈ gone, m ∈ momentsOf d ∧ after < m ∧ m ≤ til) ∧
      (rest = [] ∨ cap ≤ (collect momentsOf after til cap days found).length) := by
  induction days generalizing found with
  | nil => exact ⟨[], [], rfl, hfound, by simp [collect], .inl rfl⟩
  | cons d days ih =>
    have hadd := nodup_addMoments (momentsOf d) after til hfound
    by_cases hcap : cap ≤ (addMoments (momentsOf d) after til found).length
    · simp only [collect, if_pos hcap]
      refine ⟨[d], days, rfl, hadd, fun m ↦ ?_, .inr hcap⟩
      simp [mem_addMoments]
    · obtain ⟨gone, rest, hsplit, hnodup, hmem, hrest⟩ := ih _ hadd
      simp only [collect, if_neg hcap]
      refine ⟨d :: gone, rest, by rw [List.cons_append, hsplit], hnodup, fun m ↦ ?_, hrest⟩
      simp [hmem, mem_addMoments, or_assoc]

theorem mem_localDays_iff {tz : WallClock} {after til d : ℤ} :
    d ∈ localDays tz after til ↔ dateOf (astimezone after tz) - 1 ≤ d ∧
      d ≤ dateOf (astimezone til tz) + 1 ∧ d ≤ dateOf (astimezone after tz) - 1 + maxLocalDays := by
  simp only [localDays, List.mem_map, List.mem_range, dateOf, maxLocalDays, day]
  constructor
  · rintro ⟨offset, hoffset, rfl⟩
    omega
  · intro h
    refine ⟨(d - (astimezone after tz - 86400000000) / 86400000000).toNat, ?_, ?_⟩ <;> omega

/-- Ten years are short enough for every day of the range to be visited. -/
theorem mem_localDays {tz : WallClock} (hbounded : tz.Bounded) {after til d : ℤ}
    (hspan : til - after ≤ 3650 * day) :
    d ∈ localDays tz after til ↔
      dateOf (astimezone after tz) - 1 ≤ d ∧ d ≤ dateOf (astimezone til tz) + 1 := by
  have hafter := astimezone_near after hbounded
  have htil := astimezone_near til hbounded
  rw [mem_localDays_iff]
  simp only [dateOf, maxLocalDays, day] at *
  omega

theorem pairwise_localDays (tz : WallClock) (after til : ℤ) :
    (localDays tz after til).Pairwise (· < ·) := by
  refine List.pairwise_map.mpr (List.pairwise_lt_range.imp fun h ↦ ?_)
  omega

/-- The one-day margins miss no local date with a moment in the range, as far as
the loop goes. -/
theorem mem_localDays_of_firing {schedule : Schedule} {tz : Zone} {after til d m : ℤ}
    (hspan : m - after ≤ 3650 * day) (hm : m ∈ momentsForDay schedule tz d)
    (hafter : after < m) (htil : m ≤ til) : d ∈ localDays tz after til := by
  obtain ⟨hopen, hnext⟩ := mem_momentsForDay hm
  have hread := le_astimezone_toUtc (second_dvd_combine d (anchor schedule)) tz
  have hdate := (anchor schedule).micros_nonneg
  rw [mem_localDays_iff]
  refine ⟨?_, ?_, ?_⟩
  · by_contra hlow
    have hreached : combine (d + 1) (anchor schedule) ≤ astimezone after tz := by
      by_contra hlt
      have := (anchor schedule).micros_lt_day
      simp only [combine, dateOf, day] at *; omega
    have := toUtc_le (second_dvd_combine _ _) hreached
    exact absurd (hnext.trans this) (not_le.mpr hafter)
  · have hback := astimezone_le_add tz (hopen.trans htil)
    simp only [dayStart, combine, dateOf, day] at *; omega
  · have hstart := astimezone_near after tz.bounded
    have hback := astimezone_le_add tz hopen
    have hmoment := astimezone_near m tz.bounded
    simp only [dayStart, combine, dateOf, maxLocalDays, day] at *; omega

theorem take_sorted_collect (schedule : Schedule) (tz : Zone) {after til : ℤ}
    (hspan : til - after ≤ 3650 * day) (limit : ℕ) {all : List ℤ}
    (hall : Lists all {m | (∃ d, m ∈ momentsForDay schedule tz d) ∧ after < m ∧ m ≤ til}) :
    ((collect (momentsForDay schedule tz) after til (limit + safetyBuffer)
      (localDays tz after til) []).insertionSort (· ≤ ·)).take limit = all.take limit := by
  obtain ⟨gone, rest, hsplit, hnodup, hmem, hrest⟩ := collect_spec (momentsForDay schedule tz)
    after til (limit + safetyBuffer) (localDays tz after til) [] List.nodup_nil
  have hfound := Lists.of_nodup hnodup
  simp only [List.not_mem_nil, false_or] at hmem
  rcases hrest with rfl | hcap
  · -- Every day was visited.
    rw [List.append_nil] at hsplit
    subst hsplit
    have hset : {m | m ∈ collect (momentsForDay schedule tz) after til (limit + safetyBuffer)
        (localDays tz after til) []} =
        {m | (∃ d, m ∈ momentsForDay schedule tz d) ∧ after < m ∧ m ≤ til} := by
      ext m
      simp only [Set.mem_ofPred_eq, hmem]
      constructor
      · rintro ⟨d, -, hm, hrange⟩
        exact ⟨⟨d, hm⟩, hrange⟩
      · rintro ⟨⟨d, hm⟩, hrange⟩
        exact ⟨d, mem_localDays_of_firing (by omega) hm hrange.1 hrange.2, hm, hrange⟩
    rw [hset] at hfound
    rw [hfound.unique hall]
  · -- The days left out start where the visited ones end.
    refine hall.take_eq hfound ?_ ?_ ?_
    · intro m hm
      obtain ⟨d, -, hd, hrange⟩ := (hmem m).mp hm
      exact ⟨⟨d, hd⟩, hrange⟩
    · rintro a ⟨⟨d, hd⟩, hrange⟩ hnot b hb
      obtain ⟨e, he, hbe, hbrange⟩ := (hmem b).mp hb
      have hdays := mem_localDays_of_firing (by omega) hd hrange.1 hrange.2
      rw [← hsplit, List.mem_append] at hdays
      have hdrest := hdays.resolve_left fun hgone ↦
        hnot ((hmem a).mpr ⟨d, hgone, hd, hrange⟩)
      have hsorted := pairwise_localDays tz after til
      rw [← hsplit, List.pairwise_append] at hsorted
      have hlt := hsorted.2.2 e he d hdrest
      have hle : b ≤ a := (mem_momentsForDay hbe).2.trans
        ((dayStart_mono schedule tz (by omega)).trans (mem_momentsForDay hd).1)
      exact lt_of_le_of_ne hle fun heq ↦ hnot (heq ▸ hb)
    · rw [List.length_insertionSort]
      omega

/-- Whatever lists the firings of the range, `nextOccurrences` is its first
`limit` entries. -/
theorem nextOccurrences_eq_take (schedule : Schedule) (tz : Zone) {after til : ℤ}
    (hspan : til - after ≤ 3650 * day) (limit : ℕ) {all : List ℤ}
    (hall : Lists all (firingsBetween schedule tz after til)) :
    nextOccurrences schedule tz after til limit = all.take limit := by
  unfold nextOccurrences
  split
  · rename_i h
    rcases h with rfl | hempty
    · rw [List.take_zero]
    · obtain rfl : all = [] := List.eq_nil_iff_forall_not_mem.mpr fun m hm ↦ by
        have := (hall.mem.mp hm).2
        omega
      rw [List.take_nil]
  · rename_i h
    cases schedule with
    | once s =>
      have hlist : Lists (if after < toUtc s.naive tz ∧ toUtc s.naive tz ≤ til
          then [toUtc s.naive tz] else []) (firingsBetween (.once s) tz after til) := by
        split
        · rename_i hin
          convert Lists.singleton (toUtc s.naive tz)
          ext m
          simp only [firingsBetween, firings, Set.mem_ofPred_eq, Set.mem_singleton_iff]
          exact ⟨fun hm ↦ hm.1, fun hm ↦ ⟨hm, hm ▸ hin⟩⟩
        · rename_i hout
          convert Lists.nil
          ext m
          simp only [firingsBetween, firings, Set.mem_ofPred_eq, Set.mem_singleton_iff,
            Set.mem_empty_iff_false, iff_false]
          exact fun hm ↦ hout (hm.1 ▸ hm.2)
      rw [← hlist.unique hall]
      have hone : (if after < toUtc s.naive tz ∧ toUtc s.naive tz ≤ til
          then [toUtc s.naive tz] else []).length ≤ 1 := by split <;> simp
      exact (List.take_of_length_le (hone.trans (by omega))).symm
    | interval s | daily s | weekly s | monthly s => exact take_sorted_collect _ tz hspan limit hall

/-- However long the range, only firings of it are returned. -/
theorem mem_nextOccurrences {schedule : Schedule} {tz : WallClock} {after til m : ℤ} {limit : ℕ}
    (h : m ∈ nextOccurrences schedule tz after til limit) :
    m ∈ firingsBetween schedule tz after til := by
  unfold nextOccurrences at h
  split at h
  · cases h
  · cases schedule with
    | once s =>
      change m ∈ (if after < toUtc s.naive tz ∧ toUtc s.naive tz ≤ til
        then [toUtc s.naive tz] else []) at h
      split at h
      · obtain rfl := List.mem_singleton.mp h
        exact ⟨rfl, ‹_›⟩
      · cases h
    | interval s | daily s | weekly s | monthly s =>
      obtain ⟨gone, rest, -, -, hmem, -⟩ := collect_spec (momentsForDay _ tz) after til
        (limit + safetyBuffer) (localDays tz after til) [] List.nodup_nil
      have hfound := (List.mem_insertionSort _).mp (List.mem_of_mem_take h)
      obtain hnil | ⟨d, -, hm, hrange⟩ := (hmem m).mp hfound
      · cases hnil
      · exact ⟨⟨d, hm⟩, hrange⟩

theorem collect_ne_nil {momentsOf : ℤ → List ℤ} {after til d m : ℤ} {cap : ℕ} {days : List ℤ}
    (hcap : 0 < cap) (hd : d ∈ days) (hm : m ∈ momentsOf d) (hrange : after < m ∧ m ≤ til) :
    collect momentsOf after til cap days [] ≠ [] := by
  obtain ⟨gone, rest, rfl, -, hmem, hrest⟩ :=
    collect_spec momentsOf after til cap days [] List.nodup_nil
  rcases hrest with rfl | hfull
  · rw [List.append_nil] at hd
    exact List.ne_nil_of_mem ((hmem m).mpr (.inr ⟨d, hd, hm, hrange⟩))
  · exact List.length_pos_iff.mp (hcap.trans_le hfull)

/-- However long the range, a firing in its first ten years is not passed over
with nothing found. -/
theorem nextOccurrences_ne_nil {schedule : Schedule} {tz : Zone} {after til m : ℤ} {limit : ℕ}
    (hlimit : 0 < limit) (hm : m ∈ firingsBetween schedule tz after til)
    (hspan : m - after ≤ 3650 * day) : nextOccurrences schedule tz after til limit ≠ [] := by
  obtain ⟨hfires, hafter, htil⟩ := hm
  unfold nextOccurrences
  rw [if_neg (by omega)]
  cases schedule with
  | once s =>
    cases hfires
    exact ne_of_eq_of_ne (if_pos ⟨hafter, htil⟩) (List.cons_ne_nil _ _)
  | interval s | daily s | weekly s | monthly s =>
    obtain ⟨d, hd⟩ := hfires
    have hfound := collect_ne_nil (Nat.add_pos_left hlimit safetyBuffer)
      (mem_localDays_of_firing hspan hd hafter htil) hd ⟨hafter, htil⟩
    rw [← List.length_pos_iff] at hfound ⊢
    rw [List.length_take, List.length_insertionSort]
    exact lt_min hlimit hfound

/-- The result is the first `limit` firings of `(after, til]`, over all local
dates, and a range is the concatenation of the two parts it is cut into. -/
theorem nextOccurrences_first_firings (schedule : Schedule) (tz : Zone) {after til : ℤ}
    (hspan : til - after ≤ 3650 * day) (limit : ℕ) :
    ∃ all, Lists all (firingsBetween schedule tz after til) ∧
      nextOccurrences schedule tz after til limit = all.take limit ∧
      ∀ middle, after < middle → middle < til →
        (∃ early late, Lists early (firingsBetween schedule tz after middle) ∧
          Lists late (firingsBetween schedule tz middle til) ∧ all = early ++ late) ∧
        nextOccurrences schedule tz after til limit =
          (nextOccurrences schedule tz after middle limit ++
            nextOccurrences schedule tz middle til limit).take limit := by
  obtain ⟨all, hall⟩ := Lists.exists_of_finite (firingsBetween_finite schedule tz after til)
  refine ⟨all, hall, nextOccurrences_eq_take schedule tz hspan limit hall, ?_⟩
  intro middle hafter htil
  obtain ⟨early, hearly⟩ := Lists.exists_of_finite (firingsBetween_finite schedule tz after middle)
  obtain ⟨late, hlate⟩ := Lists.exists_of_finite (firingsBetween_finite schedule tz middle til)
  have hjoin := hearly.append hlate fun a ha b hb ↦ ha.2.2.trans_lt hb.2.1
  rw [firingsBetween_union schedule tz hafter.le htil.le] at hjoin
  obtain rfl := hall.unique hjoin
  refine ⟨⟨early, late, hearly, hlate, rfl⟩, ?_⟩
  rw [nextOccurrences_eq_take schedule tz hspan limit hall,
    nextOccurrences_eq_take schedule tz (by omega) limit hearly,
    nextOccurrences_eq_take schedule tz (by omega) limit hlate, take_append_take]

def everyMorning : Schedule :=
  .daily ⟨⟨[⟨8, 0⟩], by simp, by simp, by simp⟩, 1, by decide⟩

theorem isoweekday_inRange (d : ℤ) : 1 ≤ isoweekday d ∧ isoweekday d ≤ 7 := by
  rw [isoweekday]
  omega

/-- Once a week, on the weekday of the date `d`. -/
def weeklyFrom (d : ℤ) (time : WallTime) : Schedule :=
  .weekly ⟨⟨[time], by simp, by simp, by simp⟩,
    ⟨[isoweekday d], by simp, by simp, fun n hn ↦ by
      rw [List.mem_singleton.mp hn]; exact isoweekday_inRange d⟩⟩

/-- Two weeks around the change of the clocks. -/
theorem nextOccurrences_first_firings_spring :
    ∃ all, Lists all (firingsBetween everyMorning springForward (1774000000 * second)
        (1775209600 * second)) ∧
      nextOccurrences everyMorning springForward (1774000000 * second) (1775209600 * second) 5 =
        all.take 5 ∧
      ∀ middle, 1774000000 * second < middle → middle < 1775209600 * second →
        (∃ early late,
          Lists early (firingsBetween everyMorning springForward (1774000000 * second) middle) ∧
          Lists late (firingsBetween everyMorning springForward middle (1775209600 * second)) ∧
          all = early ++ late) ∧
        nextOccurrences everyMorning springForward (1774000000 * second) (1775209600 * second) 5 =
          (nextOccurrences everyMorning springForward (1774000000 * second) middle 5 ++
            nextOccurrences everyMorning springForward middle (1775209600 * second) 5).take 5 :=
  nextOccurrences_first_firings everyMorning springForward (by decide) 5

end NextOccurrences

end Remindo.Domain
