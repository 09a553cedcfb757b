import Remindo.Services.Digest

namespace Remindo.Services.Weeks

open Remindo.Domain Remindo.Db
open Stats (Counts Reads)
open Digest (reportAt)

/-- The weekly moments, from the one of the date `d` on. -/
def moments (tz : WallClock) (hour : Fin 24) (d : ℤ) (k : ℕ) : ℤ := weeklyMoment tz hour (d + 7 * k)

section Moments

variable {tz : WallClock} {hour : Fin 24} {d t : ℤ} {j k : ℕ}

theorem moments_mono (tz : WallClock) (hour : Fin 24) (d : ℤ) : Monotone (moments tz hour d) :=
  fun _ _ h ↦ weeklyMoment_mono tz hour (by omega)

theorem second_dvd_weekStart (tz : WallClock) (hour : Fin 24) (d : ℤ) (k : ℕ) :
    second ∣ astimezone (moments tz hour d k) tz - 7 * day :=
  second_dvd_week (second_dvd_toUtc (second_dvd_combine _ _) tz) tz

/-- A window opens no earlier than the weekly moment before. -/
theorem moments_le_start : moments tz hour d k ≤ (digestWindow (moments tz hour d (k + 1)) tz).start := by
  refine toUtc_mono (second_dvd_combine _ _) (second_dvd_weekStart tz hour d (k + 1)) tz ?_
  have hreach := le_astimezone_toUtc (second_dvd_combine (d + 7 * (k + 1 : ℕ)) (.ofHour hour)) tz
  simp only [moments, weeklyMoment, combine, day] at *
  omega

theorem start_lt_iff : (digestWindow (moments tz hour d k) tz).start < t ↔
    ∃ u, u < t ∧ astimezone (moments tz hour d k) tz - 7 * day ≤ astimezone u tz := by
  have hdvd := second_dvd_weekStart tz hour d k
  constructor
  · exact fun h ↦ ⟨_, h, le_astimezone_toUtc hdvd tz⟩
  · rintro ⟨u, hu, hreach⟩
    exact (toUtc_le hdvd hreach).trans_lt hu

/-- Whatever the clock does, two weeks take longer than one. -/
theorem moments_add_two (hbounded : tz.Bounded) :
    moments tz hour d k + 7 * day ≤ moments tz hour d (k + 2) := by
  have hfirst : moments tz hour d k ≤ combine (d + 7 * k) (.ofHour hour) + day := by
    refine toUtc_le (second_dvd_combine _ _) ?_
    have := astimezone_near (combine (d + 7 * k) (.ofHour hour) + day) hbounded
    omega
  have hreach := le_astimezone_toUtc (second_dvd_combine (d + 7 * (k + 2 : ℕ)) (.ofHour hour)) tz
  have hsecond := astimezone_near (moments tz hour d (k + 2)) hbounded
  simp only [moments, weeklyMoment, combine, day] at *
  omega

theorem exists_week {n : ℕ} (h : moments tz hour d 0 < t ∧ t ≤ moments tz hour d n) :
    ∃ k < n, moments tz hour d k < t ∧ t ≤ moments tz hour d (k + 1) := by
  induction n with
  | zero => omega
  | succ n ih =>
    by_cases hlast : moments tz hour d n < t
    · exact ⟨n, n.lt_succ_self, hlast, h.2⟩
    · obtain ⟨k, hk, hweek⟩ := ih ⟨h.1, not_lt.mp hlast⟩
      exact ⟨k, hk.trans n.lt_succ_self, hweek⟩

end Moments

section Outcomes

variable (tz : Zone) (hour : Fin 24) (d : ℤ) (n : ℕ)
  -- What the digest of each week finds: the database, and the row of its user.
  (journal : ℕ → Database) (userId : ℕ) (user : ℕ → User)

/-- Of the digests of the weeks `1` to `n`, the one whose window holds the entry
counts it, and no other does. -/
def ReportedOnce (entry : ℕ) (t : ℤ) : Prop :=
  ∃ i, 1 ≤ i ∧ i ≤ n ∧
    (reportAt (journal i) userId (user i) (moments tz hour d i)).window.Contains t ∧
      ∀ j, 1 ≤ j → j ≤ n → (Counts (journal j) userId (moments tz hour d j) entry ↔ j = i)

/-- The week of the entry and the next one agree with 168 hours as far as the
entry goes, and the clock had passed the hour at which the window opens. -/
def Fits (entry : ℕ) (action : DeliveryAction) : Prop :=
  ∀ k < n, moments tz hour d k < action.createdAt → action.createdAt ≤ moments tz hour d (k + 1) →
    moments tz hour d (k + 1) - 7 * day < action.createdAt ∧
      (k + 1 < n → Reads (journal (k + 2)) userId entry action →
        action.createdAt ≤ moments tz hour d (k + 2) - 7 * day) ∧
      ∃ u, u < action.createdAt ∧
        astimezone (moments tz hour d (k + 1)) tz - 7 * day ≤ astimezone u tz

variable {tz hour d n journal userId user} {entry : ℕ} {action : DeliveryAction}

theorem counts_iff (hkept : ∀ j other, (journal j).actions entry = some other → other = action) (j : ℕ) :
    Counts (journal j) userId (moments tz hour d j) entry ↔
      Reads (journal j) userId entry action ∧ moments tz hour d j - 7 * day < action.createdAt ∧
        action.createdAt ≤ moments tz hour d j := by
  rw [Stats.counts_iff]
  constructor
  · rintro ⟨other, hother, hweek⟩
    obtain rfl := hkept j other hother.row
    exact ⟨hother, hweek⟩
  · exact fun h ↦ ⟨action, h⟩

/-- Only the digest of the entry's week and the one after it can count it. -/
theorem counts_near (hkept : ∀ j other, (journal j).actions entry = some other → other = action)
    {k j : ℕ} (hlow : moments tz hour d k < action.createdAt)
    (hhigh : action.createdAt ≤ moments tz hour d (k + 1))
    (hcounts : Counts (journal j) userId (moments tz hour d j) entry) : j = k + 1 ∨ j = k + 2 := by
  obtain ⟨-, hstart, hstop⟩ := (counts_iff hkept j).mp hcounts
  have hafter : k < j := by
    by_contra hge
    have := moments_mono tz hour d (not_lt.mp hge)
    omega
  have hbefore : j < k + 1 + 2 := by
    by_contra hge
    have := moments_mono tz hour d (not_lt.mp hge)
    have := @moments_add_two tz hour d (k + 1) tz.bounded
    omega
  omega

/-- An outcome is reported once, by the digest of its week, exactly if it
fits. -/
theorem reported_once_iff (hzone : ∀ j, (user j).timezone = tz)
    (hrange : moments tz hour d 0 < action.createdAt ∧ action.createdAt ≤ moments tz hour d n)
    (hkept : ∀ j other, (journal j).actions entry = some other → other = action)
    (hreads : ∀ k < n, moments tz hour d k < action.createdAt →
      action.createdAt ≤ moments tz hour d (k + 1) → Reads (journal (k + 1)) userId entry action) :
    ReportedOnce tz hour d n journal userId user entry action.createdAt ↔
      Fits tz hour d n journal userId entry action := by
  have hwindow : ∀ j, (reportAt (journal j) userId (user j) (moments tz hour d j)).window =
      digestWindow (moments tz hour d j) tz := fun j ↦ by rw [reportAt, hzone]
  simp only [ReportedOnce, hwindow]
  constructor
  · rintro ⟨i, hi, hin, ⟨hstart, hstop⟩, hall⟩ k hk hlow hhigh
    obtain ⟨l, rfl⟩ : ∃ l, i = l + 1 := ⟨i - 1, by omega⟩
    have hopen := moments_le_start.trans_lt hstart
    -- The week whose window holds the entry is the week of the entry.
    obtain rfl : l = k := by
      have hle : ¬l < k := fun hlt ↦ by
        have := moments_mono tz hour d (show l + 1 ≤ k by omega)
        simp only [digestWindow] at hstop
        omega
      have hge : ¬k < l := fun hlt ↦ by
        have := moments_mono tz hour d (show k + 1 ≤ l by omega)
        omega
      omega
    have hcounted := (counts_iff hkept (l + 1)).mp ((hall (l + 1) hi hin).mpr rfl)
    refine ⟨hcounted.2.1, fun hnext hreads' ↦ ?_, start_lt_iff.mp hstart⟩
    by_contra hlate
    have hsecond := hhigh.trans (moments_mono tz hour d (show l + 1 ≤ l + 2 by omega))
    have hagain := (counts_iff hkept (l + 2)).mpr ⟨hreads', by omega, hsecond⟩
    have := (hall (l + 2) (by omega) (by omega)).mp hagain
    omega
  · intro hfits
    obtain ⟨k, hk, hlow, hhigh⟩ := exists_week hrange
    obtain ⟨hweek, hnext, hopen⟩ := hfits k hk hlow hhigh
    refine ⟨k + 1, by omega, hk, ⟨start_lt_iff.mpr hopen, hhigh⟩, fun j _ hj ↦ ⟨fun hcounts ↦ ?_, ?_⟩⟩
    · rcases counts_near hkept hlow hhigh hcounts with rfl | rfl
      · rfl
      · obtain ⟨hreads', hstart, -⟩ := (counts_iff hkept (k + 2)).mp hcounts
        have := hnext (by omega) hreads'
        omega
    · rintro rfl
      exact (counts_iff hkept (k + 1)).mpr ⟨hreads k hk hlow hhigh, hweek, hhigh⟩

/-- How far ahead of UTC the clock runs at a moment. -/
def ahead (tz : WallClock) (moment : ℤ) : ℤ := astimezone moment tz - moment

/-- Where the clock shows the hour of every digest, an outcome misses its own
digest only in what a clock going back has added to the week, and is in the next
one as well only in what a clock going forward takes from that week. -/
theorem fits_iff_ahead
    (hshown : ∀ k ≤ n, astimezone (moments tz hour d k) tz = combine (d + 7 * k) (.ofHour hour)) :
    Fits tz hour d n journal userId entry action ↔
      ∀ k < n, moments tz hour d k < action.createdAt →
        action.createdAt ≤ moments tz hour d (k + 1) →
          ahead tz (moments tz hour d k) - ahead tz (moments tz hour d (k + 1)) <
            action.createdAt - moments tz hour d k ∧
          (k + 1 < n → Reads (journal (k + 2)) userId entry action →
            ahead tz (moments tz hour d (k + 2)) - ahead tz (moments tz hour d (k + 1)) ≤
              moments tz hour d (k + 1) - action.createdAt) := by
  have hweek : ∀ k < n, astimezone (moments tz hour d (k + 1)) tz =
      astimezone (moments tz hour d k) tz + 7 * day := by
    intro k hk
    rw [hshown (k + 1) hk, hshown k hk.le]
    simp only [combine, day]
    omega
  refine forall₂_congr fun k hk ↦ forall₂_congr fun hlow hhigh ↦ ?_
  have hthis := hweek k hk
  simp only [ahead]
  constructor
  · rintro ⟨hstart, hnext, -⟩
    refine ⟨by omega, fun hlast hreads ↦ ?_⟩
    have hafter := hweek (k + 1) hlast
    have hlate := hnext hlast hreads
    rw [show k + 1 + 1 = k + 2 from rfl] at hafter
    omega
  · rintro ⟨hstart, hnext⟩
    refine ⟨by omega, fun hlast hreads ↦ ?_, moments tz hour d k, hlow, by omega⟩
    have hafter := hweek (k + 1) hlast
    have hlate := hnext hlast hreads
    rw [show k + 1 + 1 = k + 2 from rfl] at hafter
    omega

/-- A clock that is not moved between the digests leaves every outcome to one of
them. -/
theorem fits_of_steady
    (hshown : ∀ k ≤ n, astimezone (moments tz hour d k) tz = combine (d + 7 * k) (.ofHour hour))
    (hsteady : ∀ k ≤ n, ahead tz (moments tz hour d k) = ahead tz (moments tz hour d 0)) :
    Fits tz hour d n journal userId entry action := by
  refine (fits_iff_ahead hshown).mpr fun k hk hlow hhigh ↦ ⟨?_, fun hnext _ ↦ ?_⟩
  · rw [hsteady k hk.le, hsteady (k + 1) hk]
    omega
  · rw [hsteady (k + 1) hk, hsteady (k + 2) hnext]
    omega

end Outcomes

section Sample

/-- One reminder, answered once. -/
def answered (action : DeliveryAction) : Database where
  users := .ofList [{ timezone := springForward }]
  categories := .empty
  reminders := .ofList [⟨0, 0, .active, everyMorning, springForward, 0, none, none, 1, 10, none, 0, none⟩]
  recipients := .empty
  invites := .empty
  occurrences := .ofList [⟨0, 0, 0, .done, 0, day⟩]
  deliveries := .ofList [⟨0, 0, .done, 1, 0, none, none, some 0, some 0, none, none⟩]
  actions := .ofList [action]

/-- Half an hour before the digest of the Monday before the clocks go forward. -/
def lateAnswer : DeliveryAction := ⟨0, 0, .done, none, 1774251000 * second⟩

theorem reads_lateAnswer : Reads (answered lateAnswer) 0 0 lateAnswer := ⟨rfl, rfl, rfl, rfl⟩

theorem moments_spring : moments springForward (WallTime.oclock 9).hour 20528 0 = 1773648000 * second ∧
    moments springForward (WallTime.oclock 9).hour 20528 1 = 1774252800 * second ∧
      moments springForward (WallTime.oclock 9).hour 20528 2 = 1774854000 * second := by
  decide +kernel

theorem lateAnswer_inRange :
    moments springForward (WallTime.oclock 9).hour 20528 0 < lateAnswer.createdAt ∧
      lateAnswer.createdAt ≤ moments springForward (WallTime.oclock 9).hour 20528 2 := by
  rw [moments_spring.1, moments_spring.2.2]
  decide

theorem reported_once_iff_spring :
    ReportedOnce springForward (WallTime.oclock 9).hour 20528 2 (fun _ ↦ answered lateAnswer) 0
        (fun _ ↦ { timezone := springForward }) 0 lateAnswer.createdAt ↔
      Fits springForward (WallTime.oclock 9).hour 20528 2 (fun _ ↦ answered lateAnswer) 0 0
        lateAnswer :=
  reported_once_iff (fun _ ↦ rfl) lateAnswer_inRange (fun _ _ h ↦ Option.some_inj.mp h.symm)
    (fun _ _ _ _ ↦ reads_lateAnswer)

/-- The next week is an hour short, and counts the answer once more. -/
theorem answer_reported_twice :
    Counts (answered lateAnswer) 0 (moments springForward (WallTime.oclock 9).hour 20528 1) 0 ∧
      Counts (answered lateAnswer) 0 (moments springForward (WallTime.oclock 9).hour 20528 2) 0 ∧
        ¬ReportedOnce springForward (WallTime.oclock 9).hour 20528 2 (fun _ ↦ answered lateAnswer) 0
          (fun _ ↦ { timezone := springForward }) 0 lateAnswer.createdAt := by
  have hcounts : ∀ moment, moment - 7 * day < lateAnswer.createdAt → lateAnswer.createdAt ≤ moment →
      Counts (answered lateAnswer) 0 moment 0 :=
    fun _ hlow hhigh ↦ Stats.counts_iff.mpr ⟨_, reads_lateAnswer, hlow, hhigh⟩
  have hfirst := hcounts (moments springForward (WallTime.oclock 9).hour 20528 1)
    (by rw [moments_spring.2.1]; decide) (by rw [moments_spring.2.1]; decide)
  have hsecond := hcounts (moments springForward (WallTime.oclock 9).hour 20528 2)
    (by rw [moments_spring.2.2]; decide) (by rw [moments_spring.2.2]; decide)
  refine ⟨hfirst, hsecond, ?_⟩
  rintro ⟨i, -, -, -, hall⟩
  have hone := (hall 1 (by decide) (by decide)).mp hfirst
  have htwo := (hall 2 (by decide) (by decide)).mp hsecond
  omega

end Sample

end Remindo.Services.Weeks
