import Remindo.Domain.Dates
import Remindo.Domain.Wizard

namespace Remindo.Domain

section LocalDays

/-- The calendar day as the half-open UTC interval `[start, next start)`. -/
def localDayBounds (d : ℤ) (tz : WallClock) : ℤ × ℤ :=
  (toUtc (combine d (.oclock 0)) tz, toUtc (combine (d + 1) (.oclock 0)) tz)

variable {tz : WallClock}

theorem combine_midnight (d : ℤ) : combine d (.oclock 0) = d * day := by
  simp [combine, WallTime.micros, WallTime.oclock]

/-- A day has begun once its date, or a later one, is on the clock. -/
theorem toUtc_midnight_le_iff (hdates : NoReentry tz) {d t : ℤ} :
    toUtc (combine d (.oclock 0)) tz ≤ t ↔ d ≤ localToday t tz := by
  have hsecond := second_dvd_combine d (.oclock 0)
  constructor
  · intro h
    have hreached := le_astimezone_toUtc hsecond tz
    have hshown := hdates.dateOf_mono h
    rw [combine_midnight] at *
    simp only [localToday, dateOf, day] at *
    omega
  · intro h
    refine toUtc_le hsecond ?_
    rw [combine_midnight]
    simp only [localToday, dateOf, day] at *
    omega

/-- Every instant lies in one day, which is the one on the clock, and the days
follow each other without a gap. -/
theorem local_days_tile (hdates : NoReentry tz) (t : ℤ) :
    (∃! d, (localDayBounds d tz).1 ≤ t ∧ t < (localDayBounds d tz).2) ∧
      ((localDayBounds (localToday t tz) tz).1 ≤ t ∧ t < (localDayBounds (localToday t tz) tz).2) ∧
      ∀ d, (localDayBounds d tz).2 = (localDayBounds (d + 1) tz).1 := by
  have hwithin : ∀ d, (localDayBounds d tz).1 ≤ t ∧ t < (localDayBounds d tz).2 ↔
      d = localToday t tz := by
    intro d
    rw [localDayBounds, toUtc_midnight_le_iff hdates, ← not_le, toUtc_midnight_le_iff hdates]
    omega
  refine ⟨⟨localToday t tz, (hwithin _).mpr rfl, fun d hd ↦ (hwithin d).mp hd⟩,
    (hwithin _).mpr rfl, fun _ ↦ rfl⟩

/-- The instant the clocks go forward. -/
theorem local_days_tile_spring :
    let t := 1774746000 * second
    (∃! d, (localDayBounds d springForward).1 ≤ t ∧ t < (localDayBounds d springForward).2) ∧
      ((localDayBounds (localToday t springForward) springForward).1 ≤ t ∧
        t < (localDayBounds (localToday t springForward) springForward).2) ∧
      ∀ d, (localDayBounds d springForward).2 = (localDayBounds (d + 1) springForward).1 :=
  local_days_tile noReentry_springForward (1774746000 * second)

end LocalDays

end Remindo.Domain
