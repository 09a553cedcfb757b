import Mathlib.Order.Bounds.Basic
import Mathlib.Order.Interval.Set.Basic
import Remindo.Domain.Dates
import Remindo.Domain.Digest

namespace Remindo.Domain

open Remindo.Foundation

section Moments

variable {tz : WallClock} {weekday : ℕ} {hour : Fin 24} {d now : ℤ}

/-- All weekly moments of a weekday and hour. -/
def weeklyMoments (tz : WallClock) (weekday : ℕ) (hour : Fin 24) : Set ℤ :=
  {m | ∃ d, isoweekday d = weekday ∧ m = weeklyMoment tz hour d}

/-- Of the weekly moments that are not after `now`, the last one is returned. -/
theorem lastDigestMoment_isGreatest (hdates : NoReentry tz) (h : 1 ≤ weekday ∧ weekday ≤ 7)
    (hour : Fin 24) (now : ℤ) :
    IsGreatest {m | m ∈ weeklyMoments tz weekday hour ∧ m ≤ now}
      (lastDigestMoment now tz weekday hour) := by
  refine ⟨lastDigestMoment_spec now tz h hour, ?_⟩
  rintro m ⟨⟨d, hd, rfl⟩, hnow⟩
  have hweekday := isoweekday_sub_behind (dateOf (astimezone now tz)) h
  -- A date that has not begun has no moment yet.
  have hdate : d ≤ dateOf (astimezone now tz) := by
    have hreach := le_astimezone_toUtc (second_dvd_combine d (.ofHour hour)) tz
    have hlow := (WallTime.ofHour hour).micros_nonneg
    have hmono := hdates.dateOf_mono hnow
    simp only [weeklyMoment, combine, dateOf, day] at *
    omega
  rw [lastDigestMoment]
  generalize hlast : dateOf (astimezone now tz) -
    (isoweekday (dateOf (astimezone now tz)) - weekday : ℤ) % 7 = last at hweekday ⊢
  have hle : d ≤ last := by
    simp only [isoweekday] at *
    omega
  split
  · rename_i hahead
    have hlt : d < last := lt_of_le_of_ne hle fun heq ↦ by
      rw [heq] at hnow
      exact absurd hnow (not_le.mpr hahead)
    have hback := combine_sub_weeks last 1 (.ofHour hour)
    rw [Int.mul_one, Int.mul_one] at hback
    rw [hback]
    have := le_add_week_of_lt (hd.trans hweekday.symm) hlt
    exact weeklyMoment_mono tz hour (by omega)
  · exact weeklyMoment_mono tz hour hle

/-- The clocks of Berlin go back from three to two in October, and stay on the
same date. -/
theorem noReentry_fallBack : NoReentry fallBack := by
  refine noReentry_of_dateOf_mono fun u v huv ↦ ?_
  simp only [astimezone, fallBack, LocalClock.offsetAt, dateOf, second, day]
  split <;> split <;> omega

/-- On the Sunday the clocks go back, at the second pass of half past two. -/
theorem lastDigestMoment_isGreatest_fallBack :
    IsGreatest {m | m ∈ weeklyMoments fallBack 7 (WallTime.oclock 2).hour ∧ m ≤ 1792891800 * second}
      (lastDigestMoment (1792891800 * second) fallBack 7 (WallTime.oclock 2).hour) :=
  lastDigestMoment_isGreatest noReentry_fallBack (by decide) _ _

/-- The digest of a week starts where the one before stopped, unless the clock
jumps over the hour of the later one and had not yet shown, a week before, the
reading it jumps to. -/
theorem digestWindow_start_eq_iff {now now' : ℤ}
    (hp : lastDigestMoment now tz weekday hour = weeklyMoment tz hour d)
    (hm : lastDigestMoment now' tz weekday hour = weeklyMoment tz hour (d + 7)) :
    (digestWindow (lastDigestMoment now' tz weekday hour) tz).start =
        lastDigestMoment now tz weekday hour ↔
      (Skips tz (weeklyMoment tz hour (d + 7)) (combine (d + 7) (.ofHour hour)) →
        astimezone (weeklyMoment tz hour (d + 7)) tz - 7 * day ≤
          astimezone (weeklyMoment tz hour d) tz) := by
  have hreach := le_astimezone_toUtc (second_dvd_combine (d + 7) (.ofHour hour)) tz
  have hweek : combine (d + 7) (.ofHour hour) - 7 * day = combine d (.ofHour hour) := by
    simp only [combine, day]
    omega
  have hdvd : second ∣ astimezone (weeklyMoment tz hour (d + 7)) tz - 7 * day :=
    second_dvd_week (second_dvd_toUtc (second_dvd_combine _ _) tz) tz
  rw [hp, hm, digestWindow]
  dsimp only
  constructor
  · intro hstart _
    have hshown := le_astimezone_toUtc hdvd tz
    rwa [hstart] at hshown
  · intro hskips
    by_cases hshown : astimezone (weeklyMoment tz hour (d + 7)) tz = combine (d + 7) (.ofHour hour)
    · rw [hshown, hweek]
      rfl
    · have hpast := hskips (skips_toUtc (second_dvd_combine _ _) hshown)
      refine le_antisymm (toUtc_le hdvd hpast) ?_
      refine toUtc_mono (second_dvd_combine _ _) hdvd tz ?_
      simp only [weeklyMoment] at *
      omega

/-- Two o'clock on Sundays, two weeks before the clocks go forward. -/
theorem digestWindow_start_eq_iff_spring :
    (digestWindow (lastDigestMoment (1774200000 * second) springForward 7 (WallTime.oclock 2).hour)
        springForward).start =
        lastDigestMoment (1773600000 * second) springForward 7 (WallTime.oclock 2).hour ↔
      (Skips springForward (weeklyMoment springForward (WallTime.oclock 2).hour (20527 + 7))
          (combine (20527 + 7) (.ofHour (WallTime.oclock 2).hour)) →
        astimezone (weeklyMoment springForward (WallTime.oclock 2).hour (20527 + 7)) springForward -
            7 * day ≤
          astimezone (weeklyMoment springForward (WallTime.oclock 2).hour 20527) springForward) :=
  digestWindow_start_eq_iff (by decide +kernel) (by decide +kernel)

/-- On the Sunday they do, two o'clock is jumped over, and the digest misses the
first hour of its week. -/
theorem digest_misses_an_hour :
    let moment := lastDigestMoment (1774780000 * second) springForward 7 (WallTime.oclock 2).hour
    (digestWindow moment springForward).start =
      lastDigestMoment (moment - 1) springForward 7 (WallTime.oclock 2).hour + 3600 * second := by
  decide +kernel

end Moments

end Remindo.Domain
