import Remindo.Domain.Recurrence

namespace Remindo.Domain

/-- Membership in `[quietStart, quietEnd)`, times of day in microseconds. -/
def isQuiet (momentLocal quietStart quietEnd : ℤ) : Bool :=
  if quietStart = quietEnd then false
  else if quietStart < quietEnd then decide (quietStart ≤ momentLocal ∧ momentLocal < quietEnd)
  else decide (quietStart ≤ momentLocal ∨ momentLocal < quietEnd)

def resolveEnd (fireAt : ℤ) (tz : WallClock) (endDate : ℤ) (quietEnd : WallTime) : ℤ :=
  let naive := combine endDate quietEnd
  let candidate := toUtc naive tz
  if fireAt < candidate then candidate
  else
    -- `naive.replace(tzinfo=tz, fold=1)`
    let later := naive - utcoffset naive tz .one
    if fireAt < later then later else toUtc (naive + day) tz

def applyQuietHours (fireAt : ℤ) (tz : WallClock) (quietStart quietEnd : Option WallTime) : ℤ :=
  match quietStart, quietEnd with
  | some quietStart, some quietEnd =>
    let localMoment := astimezone fireAt tz
    if isQuiet (timeOf localMoment) quietStart.micros quietEnd.micros then
      let crossesMidnight := quietEnd.micros < quietStart.micros
      let endDate :=
        if crossesMidnight ∧ quietStart.micros ≤ timeOf localMoment then dateOf localMoment + 1
        else dateOf localMoment
      resolveEnd fireAt tz endDate quietEnd
    else fireAt
  | _, _ => fireAt

/-- One recipient's silent interval, in the timezone they live in. -/
structure QuietHours where
  tz : WallClock
  start : Option WallTime
  stop : Option WallTime

namespace QuietHours

def covers (quiet : QuietHours) (moment : ℤ) : Bool :=
  match quiet.start, quiet.stop with
  | some start, some stop =>
    isQuiet (timeOf (astimezone moment quiet.tz)) start.micros stop.micros
  | _, _ => false

def shift (quiet : QuietHours) (moment : ℤ) : ℤ :=
  applyQuietHours moment quiet.tz quiet.start quiet.stop

/-- The silence from `start` to `stop`. -/
def between (tz : WallClock) (start stop : WallTime) : QuietHours := ⟨tz, some start, some stop⟩

theorem covers_between (tz : WallClock) (start stop : WallTime) (moment : ℤ) :
    (between tz start stop).covers moment =
      isQuiet (timeOf (astimezone moment tz)) start.micros stop.micros := rfl

end QuietHours

section Shift

open QuietHours

variable {tz : WallClock} {start stop : WallTime} {m : ℤ}

/-- The end, on the wall, of the silence that a local moment lies in. -/
def silenceEnd (localMoment : ℤ) (start stop : WallTime) : ℤ :=
  combine (if stop.micros < start.micros ∧ start.micros ≤ timeOf localMoment
    then dateOf localMoment + 1 else dateOf localMoment) stop

theorem isQuiet_iff {t start stop : ℤ} :
    isQuiet t start stop = true ↔
      (start < stop ∧ start ≤ t ∧ t < stop) ∨ (stop < start ∧ (start ≤ t ∨ t < stop)) := by
  rw [isQuiet]
  rcases lt_trichotomy start stop with h | rfl | h
  · simp [h, h.ne, h.not_gt]
  · simp
  · simp [h, h.ne', h.not_gt]

theorem isQuiet_stop (start stop : ℤ) : isQuiet stop start stop = false := by
  rw [← Bool.not_eq_true, isQuiet_iff]
  omega

theorem timeOf_silenceEnd (localMoment : ℤ) (start stop : WallTime) :
    timeOf (silenceEnd localMoment start stop) = stop.micros := by
  have := stop.micros_nonneg
  have := stop.micros_lt_day
  simp only [silenceEnd, combine, timeOf, day] at *
  omega

theorem second_dvd_silenceEnd (localMoment : ℤ) (start stop : WallTime) :
    second ∣ silenceEnd localMoment start stop := second_dvd_combine _ _

theorem lt_silenceEnd (h : (between tz start stop).covers m = true) :
    astimezone m tz < silenceEnd (astimezone m tz) start stop := by
  have := stop.micros_nonneg
  rw [covers_between] at h
  have hsilent := isQuiet_iff.mp h
  rw [silenceEnd, combine]
  by_cases hnext : stop.micros < start.micros ∧ start.micros ≤ timeOf (astimezone m tz)
  · rw [if_pos hnext]
    simp only [dateOf, day]
    omega
  · rw [if_neg hnext]
    simp only [timeOf, dateOf, day] at *
    omega

theorem shift_of_not_covers {quiet : QuietHours} (h : quiet.covers m = false) :
    quiet.shift m = m := by
  obtain ⟨tz, start, stop⟩ := quiet
  cases start <;> cases stop <;> try rfl
  exact if_neg (Bool.eq_false_iff.mp h)

theorem shift_of_covers (h : (between tz start stop).covers m = true) :
    (between tz start stop).shift m =
      if m < toUtc (silenceEnd (astimezone m tz) start stop) tz then
        toUtc (silenceEnd (astimezone m tz) start stop) tz
      else if m < silenceEnd (astimezone m tz) start stop -
          utcoffset (silenceEnd (astimezone m tz) start stop) tz .one then
        silenceEnd (astimezone m tz) start stop -
          utcoffset (silenceEnd (astimezone m tz) start stop) tz .one
      else toUtc (silenceEnd (astimezone m tz) start stop + day) tz :=
  if_pos h

/-- The silence ends at the first instant after `m` at which the local clock is
at or past its end; the full day later is never waited for. -/
theorem shift_first_instant (h : (between tz start stop).covers m = true) :
    IsLeast {u | m < u ∧ silenceEnd (astimezone m tz) start stop ≤ astimezone u tz}
        ((between tz start stop).shift m) ∧
      (m < toUtc (silenceEnd (astimezone m tz) start stop) tz ∨
        m < silenceEnd (astimezone m tz) start stop -
          utcoffset (silenceEnd (astimezone m tz) start stop) tz .one) := by
  have hdvd := second_dvd_silenceEnd (astimezone m tz) start stop
  rw [shift_of_covers h]
  by_cases hfirst : m < toUtc (silenceEnd (astimezone m tz) start stop) tz
  · rw [if_pos hfirst]
    exact ⟨toUtc_isLeast_after hdvd hfirst, .inl hfirst⟩
  · have hsecond := second_pass_isLeast hdvd (not_lt.mp hfirst) (lt_silenceEnd h)
    rw [if_neg hfirst, if_pos hsecond.1.1]
    exact ⟨hsecond, .inr hsecond.1.1⟩

/-- Silence never brings a moment forward. -/
theorem QuietHours.le_shift (quiet : QuietHours) (m : ℤ) : m ≤ quiet.shift m := by
  cases hcovers : quiet.covers m with
  | false => exact (shift_of_not_covers hcovers).ge
  | true =>
    obtain ⟨tz, start, stop⟩ := quiet
    cases start with
    | none => cases hcovers
    | some start =>
      cases stop with
      | none => cases hcovers
      | some stop => exact (shift_first_instant hcovers).1.1.1.le

section Sample

/-- The clocks of Berlin in October 2026, and its silence of the night. -/
def fallBack : WallClock := ⟨7200, [⟨1792890000, 3600⟩], trivial⟩

/-- The second pass of two o'clock, in a silence from one to three. -/
theorem shift_first_instant_again :
    IsLeast {u | 1792890000 * second < u ∧
          silenceEnd (astimezone (1792890000 * second) fallBack) (.oclock 1) (.oclock 3) ≤
            astimezone u fallBack}
        ((between fallBack (.oclock 1) (.oclock 3)).shift (1792890000 * second)) ∧
      (1792890000 * second < toUtc (silenceEnd (astimezone (1792890000 * second) fallBack)
          (.oclock 1) (.oclock 3)) fallBack ∨
        1792890000 * second < silenceEnd (astimezone (1792890000 * second) fallBack)
            (.oclock 1) (.oclock 3) -
          utcoffset (silenceEnd (astimezone (1792890000 * second) fallBack)
            (.oclock 1) (.oclock 3)) fallBack .one) :=
  shift_first_instant (by decide)

end Sample

/-- The silence `m` lies in has its end jumped over, into silence again. -/
def Overshot (tz : WallClock) (start stop : WallTime) (m : ℤ) : Prop :=
  (between tz start stop).covers m = true ∧
    ∃ t, Skips tz t (silenceEnd (astimezone m tz) start stop) ∧
      (between tz start stop).covers t = true

/-- Where the end of the silence is jumped over, the jump ends the wait. -/
theorem shift_of_skips {t : ℤ} (h : (between tz start stop).covers m = true)
    (hskips : Skips tz t (silenceEnd (astimezone m tz) start stop)) :
    (between tz start stop).shift m = t := by
  have hdvd := second_dvd_silenceEnd (astimezone m tz) start stop
  have hlt : m < t := by
    by_contra hge
    have hpast := hskips.lt_astimezone hdvd (not_lt.mp hge)
    have := lt_silenceEnd h
    omega
  rw [shift_of_covers h, hskips.toUtc_eq hdvd, if_pos hlt]

/-- The silence is over where its end is shown. -/
theorem covers_shift_iff (h : (between tz start stop).covers m = true) :
    (between tz start stop).covers ((between tz start stop).shift m) = true ↔
      Overshot tz start stop m := by
  constructor
  · intro hcovers
    obtain ⟨⟨hlt, hreach⟩, hleast⟩ := (shift_first_instant h).1
    refine ⟨h, _, ⟨?_, lt_of_le_of_ne hreach fun heq ↦ ?_⟩, hcovers⟩
    · rcases (Int.le_sub_one_of_lt hlt).eq_or_lt with heq | hbefore
      · rw [← heq]
        exact lt_silenceEnd h
      · by_contra hpast
        have := hleast ⟨hbefore, not_lt.mp hpast⟩
        omega
    · rw [covers_between, ← heq, timeOf_silenceEnd, isQuiet_stop] at hcovers
      cases hcovers
  · rintro ⟨-, t, hskips, hcovers⟩
    rwa [shift_of_skips h hskips]

/-- Nothing is brought forward, only what is silent is moved, and what is moved
is out of the silence for good: exactly if no change of the clock jumps over the
end of the silence into silence again. -/
theorem shift_law_iff (tz : WallClock) (start stop : WallTime) (m : ℤ) :
    let quiet := between tz start stop
    (m ≤ quiet.shift m ∧ (quiet.shift m = m ↔ quiet.covers m = false) ∧
        quiet.covers (quiet.shift m) = false ∧ quiet.shift (quiet.shift m) = quiet.shift m) ↔
      ¬Overshot tz start stop m := by
  intro quiet
  by_cases h : quiet.covers m = true
  · have hlt := (shift_first_instant h).1.1.1
    rw [← covers_shift_iff h, Bool.not_eq_true]
    constructor
    · exact fun hlaw ↦ hlaw.2.2.1
    · intro hout
      refine ⟨hlt.le, ⟨fun heq ↦ absurd heq hlt.ne', fun hnot ↦ ?_⟩, hout, shift_of_not_covers hout⟩
      rw [hnot] at h
      cases h
  · have hnot := Bool.not_eq_true _ ▸ h
    have hsame := shift_of_not_covers hnot
    rw [hsame]
    exact ⟨fun _ hover ↦ h hover.1, fun _ ↦ ⟨le_rfl, ⟨fun _ ↦ hnot, fun _ ↦ rfl⟩, hnot, hsame⟩⟩

/-- A night whose morning was left out ends at midnight, in the next night. -/
theorem silence_ends_in_silence :
    let quiet := between dateLine (.oclock 22) (.oclock 7)
    quiet.covers (1325235600 * second) = true ∧
      quiet.shift (1325235600 * second) = 1325239200 * second ∧
        quiet.covers (quiet.shift (1325235600 * second)) = true := by
  decide +kernel

end Shift

end Remindo.Domain
