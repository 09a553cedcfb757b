import Mathlib.Order.Interval.Set.Basic
import Mathlib.Tactic.Ring
import Remindo.Domain.Recurrence

namespace Remindo.Domain

open Remindo.Foundation

section Spacing

variable {s : IntervalSchedule} {tz : WallClock} {d e m : ℤ}

namespace IntervalSchedule

def opensAt (s : IntervalSchedule) (tz : WallClock) (d : ℤ) : ℤ := toUtc (combine d s.windowStart) tz

def closesAt (s : IntervalSchedule) (tz : WallClock) (d : ℤ) : ℤ :=
  toUtc (combine (s.endDay d) s.windowEnd) tz

/-- The stretch of time over which the window of a date is open. -/
def window (s : IntervalSchedule) (tz : WallClock) (d : ℤ) : Set ℤ :=
  Set.Icc (s.opensAt tz d) (s.closesAt tz d)

theorem opensAt_mono (s : IntervalSchedule) (tz : WallClock) : Monotone (s.opensAt tz) :=
  fun _ _ h ↦ dayStart_mono (.interval s) tz h

theorem closesAt_le_opensAt (s : IntervalSchedule) (tz : WallClock) (h : d < e) :
    s.closesAt tz d ≤ s.opensAt tz e :=
  (toUtc_mono (second_dvd_combine _ _) (second_dvd_combine _ _) tz (s.close_le_open d)).trans
    (s.opensAt_mono tz h)

/-- What two windows share is where the earlier one closes and the later one
opens. -/
theorem eq_of_mem_windows (h : d < e) (hd : m ∈ s.window tz d) (he : m ∈ s.window tz e) :
    m = s.closesAt tz d ∧ m = s.opensAt tz e := by
  have hbetween := s.closesAt_le_opensAt tz h
  obtain ⟨-, hclose⟩ := hd
  obtain ⟨hopen, -⟩ := he
  omega

end IntervalSchedule

theorem mem_stepMoments_iff {step : ℤ} {hstep : 0 < step} {current stop : ℤ} :
    m ∈ stepMoments step hstep current stop ↔ m ≤ stop ∧ ∃ k : ℕ, m = current + k * step := by
  fun_induction stepMoments step hstep current stop with
  | case1 current hle ih =>
    rw [List.mem_cons, ih]
    constructor
    · rintro (rfl | ⟨hm, k, rfl⟩)
      · exact ⟨hle, 0, by simp⟩
      · exact ⟨hm, k + 1, by push_cast; ring⟩
    · rintro ⟨hm, k, rfl⟩
      cases k with
      | zero => exact .inl (by simp)
      | succ k => exact .inr ⟨hm, k, by push_cast; ring⟩
  | case2 current hgt =>
    simp only [List.not_mem_nil, false_iff, not_and, not_exists]
    rintro hm k rfl
    have := Int.mul_nonneg (Int.natCast_nonneg k) hstep.le
    omega

/-- A moment of a window opens it or comes one step after another of its moments. -/
theorem eq_opensAt_or_sub_mem (h : m ∈ intervalMoments s tz d) :
    m = s.opensAt tz d ∨ m - s.everyMinutes * minute ∈ intervalMoments s tz d := by
  simp only [intervalMoments] at h ⊢
  split at h
  · exact .inl (List.mem_singleton.mp h)
  · rename_i hopen
    rw [if_neg hopen, mem_stepMoments_iff]
    obtain ⟨hm, k, rfl⟩ := mem_stepMoments_iff.mp h
    cases k with
    | zero => exact .inl (by simp [IntervalSchedule.opensAt])
    | succ k =>
      have hstep := s.step_pos
      exact .inr ⟨by omega, k, by push_cast; ring⟩

theorem dvd_sub_of_mem {x y : ℤ} (hx : x ∈ intervalMoments s tz d) (hy : y ∈ intervalMoments s tz d) :
    (s.everyMinutes * minute : ℤ) ∣ y - x := by
  simp only [intervalMoments] at hx hy
  split at hx
  · rename_i hpoint
    rw [if_pos hpoint] at hy
    rw [List.mem_singleton.mp hx, List.mem_singleton.mp hy, sub_self]
    exact Int.dvd_zero _
  · rename_i hopen
    rw [if_neg hopen] at hy
    obtain ⟨-, j, rfl⟩ := mem_stepMoments_iff.mp hx
    obtain ⟨-, k, rfl⟩ := mem_stepMoments_iff.mp hy
    exact ⟨k - j, by ring⟩

/-- A moment stays a step behind a later one, unless the later one opens a window. -/
theorem le_sub_of_lt {x y : ℤ} (hx : x ∈ intervalMoments s tz d) (hy : y ∈ intervalMoments s tz e)
    (hlt : x < y) (hopen : y ≠ s.opensAt tz e) : x ≤ y - s.everyMinutes * minute := by
  rcases lt_trichotomy d e with hday | rfl | hday
  · have hback := (eq_opensAt_or_sub_mem hy).resolve_left hopen
    calc x ≤ s.opensAt tz (d + 1) := (mem_intervalMoments hx).2
      _ ≤ s.opensAt tz e := s.opensAt_mono tz hday
      _ ≤ y - s.everyMinutes * minute := (mem_intervalMoments hback).1
  · have := Int.le_of_dvd (by omega) (dvd_sub_of_mem hx hy)
    omega
  · have hbefore : y ≤ x := calc
      y ≤ s.opensAt tz (e + 1) := (mem_intervalMoments hy).2
      _ ≤ s.opensAt tz d := s.opensAt_mono tz hday
      _ ≤ x := (mem_intervalMoments hx).1
    omega

/-- The moments of an interval schedule follow each other one step apart, save
where a window opens; the windows of two dates have at most an endpoint in
common. -/
theorem interval_spacing (s : IntervalSchedule) (tz : WallClock) :
    (∀ (after til : ℤ) (limit : ℕ), (nextOccurrences (.interval s) tz after til limit).IsChain
      fun x y ↦ y - x = s.everyMinutes * minute ∨ ∃ d, y = s.opensAt tz d) ∧
    ∀ d e, d < e → ∀ m ∈ s.window tz d ∩ s.window tz e,
      m = s.closesAt tz d ∧ m = s.opensAt tz e := by
  refine ⟨fun after til limit ↦ ?_, fun d e h m hm ↦ s.eq_of_mem_windows h hm.1 hm.2⟩
  by_cases hempty : limit = 0 ∨ til ≤ after
  · simp only [nextOccurrences, if_pos hempty]
    exact .nil
  obtain ⟨days, -, -, hnodup, hmem, -⟩ := collect_spec (momentsForDay (.interval s) tz) after til
    (limit + safetyBuffer) (localDays tz after til) [] List.nodup_nil
  rw [nextOccurrences, if_neg hempty]
  swap
  · rintro _ ⟨⟩
  dsimp only
  generalize collect (momentsForDay (.interval s) tz) after til (limit + safetyBuffer)
    (localDays tz after til) [] = found at hnodup hmem ⊢
  simp only [List.not_mem_nil, false_or, momentsForDay] at hmem
  have hlist := Lists.of_nodup hnodup
  refine (isChain_of_pairwise_lt hlist.1 fun x hx y hy hlt hnext ↦ ?_).take limit
  obtain ⟨d, -, hxd, hafter, -⟩ := (hmem x).mp (hlist.mem.mp hx)
  obtain ⟨e, he, hye, -, htil⟩ := (hmem y).mp (hlist.mem.mp hy)
  by_cases hopen : y = s.opensAt tz e
  · exact .inr ⟨e, hopen⟩
  have hback := (eq_opensAt_or_sub_mem hye).resolve_left hopen
  have hstep := s.step_pos
  have hle := le_sub_of_lt hxd hye hlt hopen
  have hfound : y - s.everyMinutes * minute ∈ found :=
    (hmem _).mpr ⟨e, he, hback, by omega, by omega⟩
  have := hnext _ (hlist.mem.mpr hfound)
  exact .inl (by omega)

end Spacing

end Remindo.Domain
