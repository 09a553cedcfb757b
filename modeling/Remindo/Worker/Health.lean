import Remindo.Domain.Time
import Remindo.Foundation.Runs

namespace Remindo.Worker

open Remindo.Domain Remindo.Foundation

inductive JobId
  | plannerMaterialize | dispatcherDeliver | reaperSweep | digestSend | opsMonitor
  deriving DecidableEq, Repr

inductive HealthStatus
  | ok | stale
  deriving DecidableEq, Repr

/-- Last time one worker cycle attempted its work. -/
structure CycleBeat where
  job : JobId
  intervalSeconds : ℕ
  lastTickAt : ℤ
  failures : ℕ := 0
  deriving DecidableEq

def healthStaleFactor : ℕ := 3

def healthStaleFloorSeconds : ℕ := 60

/-- A cycle is stale once it has missed this many of its own periods. -/
def staleAfter (intervalSeconds : ℕ) : ℤ :=
  (max (intervalSeconds * healthStaleFactor) healthStaleFloorSeconds : ℕ) * second

def isStale (beat : CycleBeat) (now : ℤ) : Bool :=
  decide (staleAfter beat.intervalSeconds < now - beat.lastTickAt)

def healthStatus (beats : List CycleBeat) (now : ℤ) : HealthStatus :=
  if beats.any (isStale · now) then .stale else .ok

section Heartbeats

/-- Start a cycle's clock; `dict` keeps the place of a job it has. -/
def register (beats : List CycleBeat) (job : JobId) (intervalSeconds : ℕ) (now : ℤ) :
    List CycleBeat :=
  let beat : CycleBeat := { job := job, intervalSeconds := intervalSeconds, lastTickAt := now }
  if beats.any fun b ↦ decide (b.job = job) then
    beats.map fun b ↦ if b.job = job then beat else b
  else beats ++ [beat]

def marked (job : JobId) (now : ℤ) (failed : Bool) (beat : CycleBeat) : CycleBeat :=
  if beat.job = job then
    { beat with lastTickAt := now, failures := beat.failures + failed.toNat }
  else beat

/-- A job that has not been registered is a `KeyError`. -/
def mark (beats : List CycleBeat) (job : JobId) (now : ℤ) (failed : Bool) :
    Option (List CycleBeat) :=
  if beats.any fun b ↦ decide (b.job = job) then some (beats.map (marked job now failed)) else none

end Heartbeats

section Loops

def errorBackoffSeconds : ℕ := 5

/-- The periods of the settings, in seconds. -/
structure Intervals where
  planner : ℕ
  dispatch : ℕ

def cycles : List JobId :=
  [.plannerMaterialize, .dispatcherDeliver, .reaperSweep, .digestSend, .opsMonitor]

def Intervals.of (intervals : Intervals) : JobId → ℕ
  | .dispatcherDeliver => intervals.dispatch
  | .plannerMaterialize | .reaperSweep | .digestSend | .opsMonitor => intervals.planner

/-- The marks, and when each loop goes on with its next attempt. -/
structure Process where
  beats : List CycleBeat
  wakes : JobId → ℤ

/-- Registered before the first tick. -/
def Process.start (intervals : Intervals) (started : ℤ) : Process :=
  ⟨cycles.foldl (fun beats job ↦ register beats job (intervals.of job) started) [],
    fun _ ↦ started⟩

/-- The end of an attempt, in an exception or not. -/
structure Attempt where
  job : JobId
  now : ℤ
  failed : Bool

def pause (intervalSeconds : ℕ) (failed : Bool) : ℤ :=
  (if failed then errorBackoffSeconds else intervalSeconds : ℕ) * second

/-- One turn of a `run_loop`, which does not end before it has begun. -/
def turn (intervals : Intervals) (p : Process) (a : Attempt) : Option Process :=
  if p.wakes a.job ≤ a.now then
    (mark p.beats a.job a.now a.failed).map fun beats ↦
      ⟨beats, Function.update p.wakes a.job (a.now + pause (intervals.of a.job) a.failed)⟩
  else none

/-- When the job's last attempt ended, or its clock was started. -/
def lastAttempt (job : JobId) : ℤ → List Attempt → ℤ
  | t, [] => t
  | t, a :: rest => lastAttempt job (if a.job = job then a.now else t) rest

def longestPause (intervalSeconds : ℕ) : ℤ := (max intervalSeconds errorBackoffSeconds : ℕ) * second

variable {intervals : Intervals} {p p' : Process} {a : Attempt} {attempts : List Attempt}
  {started : ℤ}

theorem pause_le (intervalSeconds : ℕ) (failed : Bool) :
    pause intervalSeconds failed ≤ longestPause intervalSeconds := by
  simp only [pause, longestPause, second]
  split <;> omega

theorem turn_eq_some (h : turn intervals p a = some p') :
    p.wakes a.job ≤ a.now ∧ p'.beats = p.beats.map (marked a.job a.now a.failed) ∧
      p'.wakes = Function.update p.wakes a.job (a.now + pause (intervals.of a.job) a.failed) := by
  rw [turn] at h
  split at h
  · rename_i hbegun
    obtain ⟨beats, hmark, rfl⟩ := Option.map_eq_some_iff.mp h
    rw [mark] at hmark
    split at hmark
    · cases hmark
      exact ⟨hbegun, rfl, rfl⟩
    · cases hmark
  · cases h

/-- A beat holds the end of the last attempt, and counts those that failed. -/
theorem beats_run (hrun : run (turn intervals) p attempts = some p') :
    p'.beats = p.beats.map fun b ↦
      { b with
        lastTickAt := lastAttempt b.job b.lastTickAt attempts
        failures := b.failures +
          attempts.countP fun a ↦ decide (a.job = b.job) && a.failed } := by
  induction attempts generalizing p with
  | nil =>
    cases hrun
    simp [lastAttempt]
  | cons a rest ih =>
    obtain ⟨p₁, hturn, hrun⟩ := Option.bind_eq_some_iff.mp hrun
    obtain ⟨-, hbeats, -⟩ := turn_eq_some hturn
    rw [ih hrun, hbeats, List.map_map]
    refine List.map_congr_left fun b _ ↦ ?_
    by_cases hjob : b.job = a.job
    · cases hfailed : a.failed <;>
        simp [marked, lastAttempt, hjob, hfailed, Nat.add_assoc, Nat.add_comm]
    · simp [marked, lastAttempt, hjob, Ne.symm hjob]

/-- A loop that sleeps has attempted something not long ago. -/
theorem wakes_run (hrun : run (turn intervals) p attempts = some p') {job : JobId} {t : ℤ}
    (h : p.wakes job ≤ t + longestPause (intervals.of job)) :
    p'.wakes job ≤ lastAttempt job t attempts + longestPause (intervals.of job) := by
  induction attempts generalizing p t with
  | nil =>
    cases hrun
    exact h
  | cons a rest ih =>
    obtain ⟨p₁, hturn, hrun⟩ := Option.bind_eq_some_iff.mp hrun
    obtain ⟨-, -, hwakes⟩ := turn_eq_some hturn
    refine ih hrun ?_
    rw [hwakes]
    by_cases hjob : a.job = job
    · subst hjob
      rw [Function.update_self, if_pos rfl]
      exact Int.add_le_add_left (pause_le ..) _
    · rw [Function.update_of_ne (Ne.symm hjob), if_neg hjob]
      exact h

theorem start_beats (intervals : Intervals) (started : ℤ) :
    (Process.start intervals started).beats =
      cycles.map fun job ↦ ⟨job, intervals.of job, started, 0⟩ := rfl

theorem mem_cycles (job : JobId) : job ∈ cycles := by
  cases job <;> decide

/-- Whatever the period, an attempt may take forty seconds after the longest sleep. -/
theorem longestPause_add_le (intervalSeconds : ℕ) :
    longestPause intervalSeconds + 40 * second ≤ staleAfter intervalSeconds := by
  simp only [longestPause, staleAfter, second, errorBackoffSeconds, healthStaleFactor,
    healthStaleFloorSeconds]
  omega

theorem isStale_run (hrun : run (turn intervals) (.start intervals started) attempts = some p)
    (now : ℤ) : p.beats.any (isStale · now) = true ↔
      ∃ job, staleAfter (intervals.of job) < now - lastAttempt job started attempts := by
  rw [beats_run hrun, start_beats]
  simp [isStale, mem_cycles]

/-- The check tells a silent loop from one that turns, whether or not its attempts
succeed. -/
theorem health_exact (hrun : run (turn intervals) (.start intervals started) attempts = some p) :
    (∀ now, healthStatus p.beats now = .stale ↔
      ∃ job, staleAfter (intervals.of job) < now - lastAttempt job started attempts) ∧
    ∀ now, (∀ job, now ≤ p.wakes job + 40 * second) → healthStatus p.beats now = .ok := by
  have hstale : ∀ now, healthStatus p.beats now = .stale ↔
      ∃ job, staleAfter (intervals.of job) < now - lastAttempt job started attempts := by
    intro now
    rw [healthStatus, ← isStale_run hrun now]
    split <;> simp_all
  refine ⟨hstale, fun now hnow ↦ ?_⟩
  cases hstatus : healthStatus p.beats now with
  | ok => rfl
  | stale =>
    -- the silent loop would have slept longer than it ever does
    obtain ⟨job, hsilent⟩ := (hstale now).mp hstatus
    have hpause : 0 ≤ longestPause (intervals.of job) := by
      simp only [longestPause, second]
      omega
    have hwakes : p.wakes job ≤
        lastAttempt job started attempts + longestPause (intervals.of job) :=
      wakes_run hrun (Int.le_add_of_nonneg_right hpause)
    have hbegun := hnow job
    have hslack := longestPause_add_le (intervals.of job)
    omega

/-- The dispatcher fails once and goes on; then it hangs. -/
def sampleAttempts : List Attempt :=
  [⟨.dispatcherDeliver, 1 * second, true⟩, ⟨.plannerMaterialize, 2 * second, false⟩,
    ⟨.reaperSweep, 2 * second, false⟩, ⟨.dispatcherDeliver, 7 * second, false⟩,
    ⟨.digestSend, 8 * second, false⟩, ⟨.opsMonitor, 9 * second, false⟩]

def sampleHealth : Option Process := run (turn ⟨60, 10⟩) (.start ⟨60, 10⟩ 0) sampleAttempts

theorem sampleHealth_runs : sampleHealth.isSome = true := by
  decide +kernel

theorem health_exact_sample : ∃ p, sampleHealth = some p ∧
    (∀ now, healthStatus p.beats now = .stale ↔ ∃ job,
      staleAfter (Intervals.of ⟨60, 10⟩ job) < now - lastAttempt job 0 sampleAttempts) ∧
    (∀ now, (∀ job, now ≤ p.wakes job + 40 * second) → healthStatus p.beats now = .ok) ∧
    healthStatus p.beats (68 * second) = .stale ∧ healthStatus p.beats (57 * second) = .ok := by
  obtain ⟨p, hp⟩ := Option.isSome_iff_exists.mp sampleHealth_runs
  have hexact := health_exact hp
  have hwakes : ∀ job, 57 * second ≤ p.wakes job + 40 * second := by
    have hp' : p = sampleHealth.get sampleHealth_runs := by
      simp [hp]
    subst hp'
    intro job
    cases job <;> decide +kernel
  exact ⟨p, hp, hexact.1, hexact.2,
    (hexact.1 _).mpr ⟨.dispatcherDeliver, by decide⟩, hexact.2 _ hwakes⟩

end Loops

end Remindo.Worker
