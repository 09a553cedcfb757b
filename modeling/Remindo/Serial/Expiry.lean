import Remindo.Serial.Occurrences
import Remindo.Serial.Waiting

namespace Remindo.Serial

open Remindo.Domain Remindo.Db Remindo.Services Remindo.Foundation

section Sweeps

open Reaper

variable {db : Database} {now : ℤ} {batch i : ℕ} {o : Occurrence}

/-- What the query narrows to is overdue by the rule as well. -/
theorem overdue_eq (db : Database) (now : ℤ) (batch : ℕ) :
    overdue db now batch = Occurrences.listExpired db now batch := by
  refine List.filter_eq_self.mpr fun x hx ↦ ?_
  obtain ⟨-, hlate, hopen⟩ := Occurrences.mem_listExpired hx
  rw [isOverdue, hopen]
  exact decide_eq_true hlate

/-- An overdue occurrence that a sweep passes over is behind a full batch. -/
theorem expires_in_turn (ho : db.occurrences i = some o) (hopen : o.status.isTerminal = false)
    (hlate : o.expiresAt < now) (hleft : i ∉ (overdue db now batch).map Prod.fst) :
    (overdue db now batch).length = batch ∧ ∀ x ∈ overdue db now batch,
      precedes x.2.expiresAt x.1 o.expiresAt i = true := by
  let late := db.occurrences.select fun _ o ↦ decide (o.expiresAt < now) && !o.status.isTerminal
  have hsorted : (orderBy Occurrence.expiresAt late).Pairwise fun a b ↦
      precedes a.2.expiresAt a.1 b.2.expiresAt b.1 = true :=
    pairwise_orderBy (Table.pairwise_select _ _)
  have hmem : (i, o) ∈ orderBy Occurrence.expiresAt late :=
    mem_orderBy.mpr (Table.mem_select.mpr ⟨ho, by simp [hlate, hopen]⟩)
  rw [overdue_eq] at hleft ⊢
  exact take_of_notMem hsorted hmem fun h ↦ hleft (List.mem_map.mpr ⟨(i, o), h, rfl⟩)

end Sweeps

/-- Sweeps are made at or after `since`, and the planner adds nothing that
expires before it. -/
def Operation.ExpiresFrom (since : ℤ) (settings : Settings) (w : World) : Operation → Prop
  | .sweep now => since ≤ now
  | .materialize now => ∀ i o,
      (Planning.materialize settings.planning now w.db).occurrences i = some o →
        w.db.occurrences i = none → since ≤ o.expiresAt
  | _ => True

/-- How many open occurrences expire before a given one. -/
def unexpired (db : Database) (moment : ℤ) (i : ℕ) : ℕ :=
  (db.occurrences.select fun k o ↦ !o.status.isTerminal && precedes o.expiresAt k moment i).length

section Runs

variable {settings : Settings} {w w' : World} {op : Operation} {since : ℤ} {i : ℕ} {o : Occurrence}

/-- What is open after a call was open before it, or is new. -/
theorem perform_open (hfrom : op.ExpiresFrom since settings w)
    (h : perform settings w op = some w') (ho : w'.db.occurrences i = some o)
    (hopen : o.status.isTerminal = false) :
    (∃ o₀, w.db.occurrences i = some o₀ ∧ o₀.status.isTerminal = false ∧
      o₀.expiresAt = o.expiresAt) ∨ since ≤ o.expiresAt := by
  rcases perform_occurrence h ho with ⟨o₀, ho₀, hkept⟩ | ⟨hnone, now, rfl⟩
  · refine .inl ⟨o₀, ho₀, ?_, hkept.expiresAt.symm⟩
    by_contra hclosed
    have hstay := (perform_strides (obeys_free settings w op) h).closed ho₀
      (by simpa using hclosed)
    rw [ho, Option.map_some, Option.some_inj] at hstay
    rw [show o.status = o₀.status from congrArg Prod.snd hstay] at hopen
    exact hclosed hopen
  · cases h
    exact .inr (hfrom i o ho hnone)

/-- The occurrence is open, and expires at the moment. -/
def StillOpen (db : Database) (i : ℕ) (moment : ℤ) : Prop :=
  ∃ o, db.occurrences i = some o ∧ o.status.isTerminal = false ∧ o.expiresAt = moment

theorem unexpired_step {moment : ℤ} (hlate : moment < since) (hwait : StillOpen w.db i moment)
    (hfrom : op.ExpiresFrom since settings w) (h : perform settings w op = some w')
    (hwait' : StillOpen w'.db i moment) :
    unexpired w'.db moment i + (if op.isSweep then settings.reaperBatch else 0) ≤
      unexpired w.db moment i := by
  have hback : ∀ k, (w'.db.occurrences k).any (fun o ↦ !o.status.isTerminal &&
      precedes o.expiresAt k moment i) = true → (w.db.occurrences k).any (fun o ↦
        !o.status.isTerminal && precedes o.expiresAt k moment i) = true := by
    intro k hk
    obtain ⟨e, he, hbefore⟩ := (Option.any_eq_true _ _).mp hk
    rw [Bool.and_eq_true, Bool.not_eq_true'] at hbefore
    rcases perform_open hfrom h he hbefore.1 with ⟨e₀, he₀, hopen₀, hmoment⟩ | hnew
    · exact (Option.any_eq_true _ _).mpr ⟨e₀, he₀, by rw [hopen₀, hmoment, hbefore.2]; rfl⟩
    · have := le_of_precedes hbefore.2
      omega
  cases op with
  | sweep now =>
    cases h
    obtain ⟨o, ho, hopen, rfl⟩ := hwait
    obtain ⟨o', ho', hopen', -⟩ := hwait'
    have hexpired : ∀ k ∈ (Reaper.overdue w.db now settings.reaperBatch).map Prod.fst, ∀ e,
        (Reaper.sweep w.db now settings.reaperBatch).occurrences k = some e →
          e.status.isTerminal = true := by
      intro k hk e he
      obtain ⟨n, hrow⟩ := sweep_occurrence w.db now settings.reaperBatch k
      rw [if_pos hk, he, eq_comm, Option.map_map, Option.map_eq_some_iff] at hrow
      obtain ⟨e₀, -, rfl⟩ := hrow
      rfl
    have hpassed : i ∉ (Reaper.overdue w.db now settings.reaperBatch).map Prod.fst := by
      intro hi
      rw [hexpired i hi o' ho'] at hopen'
      cases hopen'
    obtain ⟨hlength, hturn⟩ := expires_in_turn ho hopen (lt_of_lt_of_le hlate hfrom) hpassed
    have hcount := Table.length_select_add_le
      ((Reaper.overdue w.db now settings.reaperBatch).map Prod.fst)
      (nodup_overdue ..) (fun k hk ↦ ?_) (fun k hk ↦ ⟨hback k hk, fun hmem ↦ ?_⟩)
    · rw [List.length_map, hlength] at hcount
      exact hcount
    · obtain ⟨x, hx, rfl⟩ := List.mem_map.mp hk
      obtain ⟨hrow, hopen⟩ := mem_overdue hx
      exact (Option.any_eq_true _ _).mpr ⟨x.2, hrow, by rw [hopen, hturn x hx]; rfl⟩
    · obtain ⟨e, he, hbefore⟩ := (Option.any_eq_true _ _).mp hk
      rw [Bool.and_eq_true, Bool.not_eq_true', hexpired k hmem e he] at hbefore
      cases hbefore.1
  | _ =>
    exact Table.length_select_add_le [] .nil (fun _ hi ↦ by cases hi)
      (fun k hk ↦ ⟨hback k hk, List.not_mem_nil⟩)

/-- Whatever else goes on, an overdue occurrence is closed within the sweeps it
takes to expire those before it, unless it is deleted first. -/
theorem bounded_expiry {ops : List Operation} (ho : w.db.occurrences i = some o)
    (hopen : o.status.isTerminal = false) (hlate : o.expiresAt < since)
    (hfrom : Guarded (perform settings) (fun w op ↦ op.ExpiresFrom since settings w) w ops)
    (hrun : run (perform settings) w ops = some w')
    (hsweeps : unexpired w.db o.expiresAt i <
      ops.countP Operation.isSweep * settings.reaperBatch) :
    (∃ o', w'.db.occurrences i = some o' ∧ o'.status.isTerminal = true) ∨
      ∃ before after w₁, ops = before ++ after ∧ run (perform settings) w before = some w₁ ∧
        w₁.db.occurrences i = none := by
  obtain ⟨before, op, after, w₁, w₂, rfl, hbefore, ⟨o₁, ho₁, -, hmoment₁⟩, hfrom₁, hstep, hleft,
      hafter⟩ :=
    exists_exit (fun w ↦ StillOpen w.db i o.expiresAt) (fun w ↦ unexpired w.db o.expiresAt i)
      (fun w op w' hw hfrom h hw' ↦ unexpired_step hlate hw hfrom h hw') hfrom hrun
      ⟨o, ho, hopen, rfl⟩ hsweeps
  cases ho₂ : w₂.db.occurrences i with
  | none =>
    refine .inr ⟨before ++ [op], after, w₂, by simp, ?_, ho₂⟩
    rw [run_append, hbefore, Option.bind_some, run, hstep]
    rfl
  | some o₂ =>
    have hmoment₂ : o₂.expiresAt = o.expiresAt := by
      rcases perform_occurrence hstep ho₂ with ⟨o₀, ho₀, hkept⟩ | ⟨hnone, -⟩
      · cases ho₁.symm.trans ho₀
        rw [hkept.expiresAt, hmoment₁]
      · cases ho₁.symm.trans hnone
    have hclosed : o₂.status.isTerminal = true := by
      by_contra hopen₂
      exact hleft ⟨o₂, ho₂, by simpa using hopen₂, hmoment₂⟩
    have hstay := closed_run hafter ho₂ hclosed
    obtain ⟨o', ho', hstate⟩ := Option.map_eq_some_iff.mp hstay
    refine .inl ⟨o', ho', ?_⟩
    rw [show o'.status = o₂.status from congrArg Prod.snd hstate]
    exact hclosed

def overdueAt (moment : ℤ) : Occurrence := ⟨0, 0, 0, .pending, 0, moment⟩

/-- Two occurrences are overdue, and a sweep takes one of them. -/
def twoOverdue : World :=
  ⟨{ Database.initial .empty .empty with occurrences := .ofList [overdueAt 5, overdueAt 4] }, []⟩

theorem bounded_expiry_second : ∃ w', run (perform oneByOne) twoOverdue [.sweep 6, .sweep 7] =
    some w' ∧ ((∃ o', w'.db.occurrences 0 = some o' ∧ o'.status.isTerminal = true) ∨
      ∃ before after w₁, [.sweep 6, .sweep 7] = before ++ after ∧
        run (perform oneByOne) twoOverdue before = some w₁ ∧ w₁.db.occurrences 0 = none) := by
  have hlater : (6 : ℤ) ≤ 7 := by decide
  have hfrom : Guarded (perform oneByOne) (fun w op ↦ op.ExpiresFrom 6 oneByOne w) twoOverdue
      [.sweep 6, .sweep 7] := ⟨le_rfl, fun _ _ ↦ ⟨hlater, fun _ _ ↦ trivial⟩⟩
  exact ⟨_, rfl, bounded_expiry (o := overdueAt 5) rfl rfl (by decide) hfrom rfl (by decide +kernel)⟩

end Runs

end Remindo.Serial
