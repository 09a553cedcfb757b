import Remindo.Domain.QuietHours

namespace Remindo.Domain

open Remindo.Foundation

/-- The stretch of time one digest reports on: `(start, stop]`. -/
structure DigestWindow where
  start : ℤ
  stop : ℤ
  deriving DecidableEq

def DigestWindow.Contains (w : DigestWindow) (t : ℤ) : Prop := w.start < t ∧ t ≤ w.stop

/-- The weekly moment of the local week that ends on the date `d`. -/
def weeklyMoment (tz : WallClock) (hour : Fin 24) (d : ℤ) : ℤ := toUtc (combine d (.ofHour hour)) tz

/-- The most recent local `weekday` at `hour:00` that is not after `now`. -/
def lastDigestMoment (now : ℤ) (tz : WallClock) (weekday : ℕ) (hour : Fin 24) : ℤ :=
  let localDay := dateOf (astimezone now tz)
  let behind := (isoweekday localDay - weekday : ℤ) % 7
  let candidate := combine (localDay - behind) (.ofHour hour)
  let moment := toUtc candidate tz
  -- The weekday is today but the hour has not arrived yet.
  if now < moment then toUtc (candidate - 7 * day) tz else moment

/-- The seven local days ending at `moment`, counted on the wall clock. -/
def digestWindow (moment : ℤ) (tz : WallClock) : DigestWindow :=
  ⟨toUtc (astimezone moment tz - 7 * day) tz, moment⟩

/-- The weekly moment still owed. It comes back unshifted even where quiet hours
delay the send. -/
def digestDueAt (now : ℤ) (tz : WallClock) (weekday : ℕ) (hour : Fin 24) (sentAt : Option ℤ)
    (quiet : QuietHours) : Option ℤ :=
  let moment := lastDigestMoment now tz weekday hour
  if sentAt.any (fun sent ↦ decide (moment ≤ sent)) then none
  else if now < quiet.shift moment then none
  else some moment

/-- The changes of any eight days turn the clock forward by less than a day. -/
def Steady (tz : WallClock) : Prop :=
  ∀ u v, v ≤ u + 8 * 86400 → LocalClock.rises tz.base tz.changes u v < 86400

section Moments

variable {tz : WallClock} {weekday : ℕ} {hour : Fin 24} {d d' now m : ℤ}

theorem combine_sub_weeks (d k : ℤ) (t : WallTime) :
    combine d t - 7 * day * k = combine (d - 7 * k) t := by
  simp only [combine, day]
  omega

theorem second_dvd_week (h : second ∣ m) (tz : WallClock) : second ∣ astimezone m tz - 7 * day := by
  have hrest := astimezone_emod m tz
  simp only [second, day] at *
  omega

theorem isoweekday_sub_behind (d : ℤ) (h : 1 ≤ weekday ∧ weekday ≤ 7) :
    isoweekday (d - (isoweekday d - weekday : ℤ) % 7) = weekday := by
  simp only [isoweekday]
  omega

/-- What `last_digest_moment` returns is a weekly moment, and not a later one. -/
theorem lastDigestMoment_spec (now : ℤ) (tz : WallClock) (h : 1 ≤ weekday ∧ weekday ≤ 7)
    (hour : Fin 24) :
    (∃ d, isoweekday d = weekday ∧ lastDigestMoment now tz weekday hour = weeklyMoment tz hour d) ∧
      lastDigestMoment now tz weekday hour ≤ now := by
  have hday := isoweekday_sub_behind (dateOf (astimezone now tz)) h
  rw [lastDigestMoment]
  split
  · have hback := combine_sub_weeks (dateOf (astimezone now tz) -
      (isoweekday (dateOf (astimezone now tz)) - weekday : ℤ) % 7) 1 (.ofHour hour)
    rw [Int.mul_one, Int.mul_one] at hback
    rw [hback]
    refine ⟨⟨_, ?_, rfl⟩, toUtc_le (second_dvd_combine _ _) ?_⟩
    · rw [← hday]
      simp only [isoweekday]
      omega
    · have := (WallTime.ofHour hour).micros_lt_day
      simp only [combine, dateOf, day] at *
      omega
  · exact ⟨⟨_, hday, rfl⟩, not_lt.mp ‹_›⟩

theorem weeklyMoment_mono (tz : WallClock) (hour : Fin 24) (h : d ≤ d') :
    weeklyMoment tz hour d ≤ weeklyMoment tz hour d' :=
  toUtc_mono (second_dvd_combine _ _) (second_dvd_combine _ _) tz
    (combine_le_combine_of_le h le_rfl)

theorem le_add_week_of_lt (h : isoweekday d = isoweekday d') (hlt : d < d') : d + 7 ≤ d' := by
  simp only [isoweekday] at h
  omega

/-- Two weekly moments are more than six days apart. -/
theorem Steady.weeklyMoment_lt (hsteady : Steady tz) (hour : Fin 24) (h : d + 7 ≤ d') :
    weeklyMoment tz hour d + 6 * day < weeklyMoment tz hour d' := by
  by_contra hnear
  push Not at hnear
  have hle : weeklyMoment tz hour d - 1 ≤ weeklyMoment tz hour d' := by
    have := weeklyMoment_mono tz hour (show d ≤ d' by omega)
    omega
  have hbefore : astimezone (weeklyMoment tz hour d - 1) tz < combine d (.ofHour hour) := by
    by_contra hreached
    have := toUtc_le (second_dvd_combine _ _) (not_lt.mp hreached)
    simp only [weeklyMoment] at this
    omega
  have hafter := le_astimezone_toUtc (second_dvd_combine d' (.ofHour hour)) tz
  have hrise := hsteady ((weeklyMoment tz hour d - 1) / second) (weeklyMoment tz hour d' / second)
    (by simp only [second, day] at *; omega)
  have hgap := astimezone_sub_le tz hle
  simp only [weeklyMoment, combine, second, day] at *
  omega

theorem digestDueAt_eq_some {sentAt : Option ℤ} {quiet : QuietHours} :
    digestDueAt now tz weekday hour sentAt quiet = some m ↔
      m = lastDigestMoment now tz weekday hour ∧ (∀ sent, sentAt = some sent → sent < m) ∧
        quiet.shift m ≤ now := by
  simp only [digestDueAt]
  split
  · rename_i hsent
    obtain ⟨sent, hsent, hle⟩ := (Option.any_eq_true _ _).mp hsent
    refine ⟨nofun, fun ⟨hm, hnew, _⟩ ↦ ?_⟩
    have := hnew sent hsent
    have := of_decide_eq_true hle
    omega
  · rename_i hsent
    split
    · rename_i hshift
      refine ⟨nofun, fun ⟨hm, _, hdue⟩ ↦ ?_⟩
      rw [hm] at hdue
      omega
    · rename_i hshift
      rw [Option.some_inj, eq_comm]
      refine ⟨fun hm ↦ ⟨hm, fun sent heq ↦ ?_, hm ▸ not_lt.mp hshift⟩, fun h ↦ h.1⟩
      by_contra hle
      exact hsent ((Option.any_eq_true _ _).mpr ⟨sent, heq, decide_eq_true (by omega)⟩)

end Moments

end Remindo.Domain
