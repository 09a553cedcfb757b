import Remindo.Domain.Recurrence

namespace Remindo.Domain

open Remindo.Foundation

section Dates

/-- No change of the clock brings back a local date that is over. -/
def NoReentry (tz : WallClock) : Prop :=
  ∀ u v w, u ≤ v → v ≤ w → dateOf (astimezone u tz) = dateOf (astimezone w tz) →
    dateOf (astimezone v tz) = dateOf (astimezone u tz)

variable {tz : WallClock}

theorem astimezone_floor (u : ℤ) (tz : WallClock) :
    astimezone (u / second * second) tz = astimezone u tz / second * second := by
  have hfloor : u / second * second / second = u / second := Int.mul_ediv_cancel _ (by decide)
  have hread := astimezone_ediv u tz
  have hread' := astimezone_ediv (u / second * second) tz
  have hrest := astimezone_emod (u / second * second) tz
  rw [hfloor] at hread'
  simp only [second] at *
  omega

/-- A reading that was passed and is shown again was shown before. -/
theorem exists_shown {u v : ℤ} (huv : u ≤ v) (h : astimezone v tz / second < astimezone u tz / second) :
    ∃ w ≤ u, astimezone w tz = astimezone v tz / second * second := by
  have hdvd : second ∣ astimezone v tz / second * second := Dvd.intro_left _ rfl
  have hw : toUtc (astimezone v tz / second * second) tz ≤ u :=
    toUtc_le hdvd (by simp only [second] at *; omega)
  refine ⟨_, hw, ?_⟩
  by_contra hne
  have hwhole := second_dvd_toUtc hdvd tz
  have hpast := (skips_toUtc hdvd hne).lt_astimezone hdvd
    (show toUtc (astimezone v tz / second * second) tz ≤ v / second * second by
      simp only [second] at *; omega)
  rw [astimezone_floor] at hpast
  exact lt_irrefl _ hpast

/-- Where no date comes back, dates only go up. -/
theorem NoReentry.dateOf_mono (h : NoReentry tz) {u v : ℤ} (huv : u ≤ v) :
    dateOf (astimezone u tz) ≤ dateOf (astimezone v tz) := by
  by_contra hback
  push Not at hback
  obtain ⟨w, hwu, hw⟩ := exists_shown huv
    (show astimezone v tz / second < astimezone u tz / second by
      simp only [dateOf, day, second] at *; omega)
  have hdate : dateOf (astimezone w tz) = dateOf (astimezone v tz) := by
    rw [hw]
    simp only [dateOf, day, second]
    omega
  have := h w u v hwu huv hdate
  omega

theorem noReentry_of_dateOf_mono
    (h : ∀ u v, u ≤ v → dateOf (astimezone u tz) ≤ dateOf (astimezone v tz)) : NoReentry tz := by
  intro u v w huv hvw hsame
  have := h u v huv
  have := h v w hvw
  omega

theorem noReentry_springForward : NoReentry springForward := by
  refine noReentry_of_dateOf_mono fun u v huv ↦ ?_
  simp only [astimezone, springForward, LocalClock.offsetAt, dateOf, second, day]
  split <;> split <;> omega

end Dates

end Remindo.Domain
