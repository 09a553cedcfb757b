import Remindo.Serial.Repeats
import Remindo.Serial.Silence

namespace Remindo.Serial

open Remindo.Domain Remindo.Db Remindo.Services Remindo.Foundation

/-- What an occurrence keeps of its row, whatever becomes of it. -/
structure Continues (o o' : Occurrence) : Prop where
  row : o' = { o with status := o'.status, repeatsSent := o'.repeatsSent }
  pending : o'.status = .pending → o.status = .pending

namespace Continues

variable {o o' : Occurrence}

theorem refl (o : Occurrence) : Continues o o := ⟨rfl, id⟩

theorem restated (o : Occurrence) {status : OccurrenceStatus} (h : status ≠ .pending) :
    Continues o { o with status := status } := ⟨rfl, fun hpending ↦ absurd hpending h⟩

theorem reminderId (h : Continues o o') : o'.reminderId = o.reminderId := by rw [h.row]

theorem fireAt (h : Continues o o') : o'.fireAt = o.fireAt := by rw [h.row]

theorem expiresAt (h : Continues o o') : o'.expiresAt = o.expiresAt := by rw [h.row]

end Continues

/-- Every occurrence has been there before. -/
def Continued (db db' : Database) : Prop :=
  ∀ i o', db'.occurrences i = some o' → ∃ o, db.occurrences i = some o ∧ Continues o o'

namespace Continued

variable {db db' db'' : Database}

theorem trans (h : Continued db db') (h' : Continued db' db'') : Continued db db'' := by
  intro i o'' ho''
  obtain ⟨o', ho', hlast⟩ := h' i o'' ho''
  obtain ⟨o, ho, hfirst⟩ := h i o' ho'
  refine ⟨o, ho, ?_, fun hpending ↦ hfirst.pending (hlast.pending hpending)⟩
  rw [hlast.row, hfirst.row]

theorem of_eq (h : db'.occurrences = db.occurrences) : Continued db db' :=
  fun _ o' ho' ↦ ⟨o', h ▸ ho', .refl o'⟩

theorem of_filter {p : ℕ → Occurrence → Bool}
    (h : ∀ i, db'.occurrences i = (db.occurrences i).filter (p i)) : Continued db db' := by
  intro i o' ho'
  rw [h, Option.filter_eq_some_iff] at ho'
  exact ⟨o', ho'.1, .refl o'⟩

/-- One occurrence is given a status other than `pending`. -/
theorem of_setStatus {k : ℕ} {status : OccurrenceStatus} (hstatus : status ≠ .pending)
    (h : ∀ i, db'.occurrences i = if i = k then
      (db.occurrences k).map fun o ↦ { o with status := status } else db.occurrences i) :
    Continued db db' := by
  intro i o' ho'
  rw [h] at ho'
  split at ho'
  · rename_i hi
    obtain ⟨o, ho, rfl⟩ := Option.map_eq_some_iff.mp ho'
    exact ⟨o, hi ▸ ho, .restated o hstatus⟩
  · exact ⟨o', ho', .refl o'⟩

end Continued

section Queue

variable {db : Database}

theorem continued_deliverAll (gateway : Dispatching.Gateway) (batch : List Dispatching.Work)
    (memory : Dispatching.Memory) (db : Database) :
    Continued db (Dispatching.deliverAll gateway batch memory db).2 := by
  induction batch generalizing memory db with
  | nil => exact .of_eq rfl
  | cons w rest ih =>
    refine .trans ?_ (ih _ _)
    intro i o' ho'
    rw [Dispatching.occurrences_applyVerdict] at ho'
    split at ho'
    · obtain ⟨o, ho, rfl⟩ := Option.map_eq_some_iff.mp ho'
      exact ⟨o, ho, .restated o (by simp)⟩
    · exact ⟨o', ho', .refl o'⟩

theorem continued_closeOccurrence (k : ℕ) (reaction : Reaction) (db : Database) :
    Continued db (Reactions.closeOccurrence k reaction db) := by
  rw [Reactions.closeOccurrence]
  split
  · split
    · rename_i status hstatus
      have hset := Occurrences.occurrences_setStatus db k status
      refine .of_setStatus ?_ hset
      intro hpending
      rw [hpending, rollUpOccurrence] at hstatus
      split at hstatus
      · generalize reaction.kind = kind at hstatus
        cases kind <;> cases hstatus
      · cases hstatus
    · exact .of_eq rfl
  · exact .of_eq rfl

theorem sweep_occurrence (db : Database) (now : ℤ) (batch i : ℕ) : ∃ n,
    (Reaper.sweep db now batch).occurrences i =
      ((if i ∈ (Reaper.overdue db now batch).map Prod.fst then
        (db.occurrences i).map fun o ↦ { o with status := .expired } else db.occurrences i)).map
          fun o ↦ { o with repeatsSent := o.repeatsSent + n } := by
  have hrow := @repeatAll_occurrences (Reaper.expireAll now (Reaper.overdue db now batch) db) now
    (Deliveries.listRepeatCandidates (Reaper.expireAll now (Reaper.overdue db now batch) db) now
      batch) [] i
  rw [expireAll_occurrences] at hrow
  split at hrow
  · exact ⟨1, hrow⟩
  · exact ⟨0, hrow.trans Option.map_id'.symm⟩

theorem continued_sweep (db : Database) (now : ℤ) (batch : ℕ) :
    Continued db (Reaper.sweep db now batch) := by
  intro i o' ho'
  obtain ⟨n, hrow⟩ := sweep_occurrence db now batch i
  obtain ⟨o₁, ho₁, rfl⟩ := Option.map_eq_some_iff.mp (hrow.symm.trans ho')
  split at ho₁
  · obtain ⟨o, ho, rfl⟩ := Option.map_eq_some_iff.mp ho₁
    exact ⟨o, ho, rfl, fun hpending ↦ by cases hpending⟩
  · exact ⟨o₁, ho₁, rfl, id⟩

end Queue

section Operations

variable {settings : Settings} {w w' : World} {op : Operation}

/-- Only the planner adds an occurrence, and apart from its status and its
repeats nothing changes one. -/
theorem perform_occurrences (h : perform settings w op = some w')
    (hop : ∀ now, op ≠ .materialize now) : Continued w.db w'.db := by
  cases op with
  | create now ownerId draft =>
    obtain ⟨db', hdb, rfl⟩ := over_eq_some h
    obtain ⟨-, rfl⟩ := Reminders.create_eq_ok hdb
    exact .of_eq rfl
  | materialize now => exact absurd rfl (hop now)
  | deliver now gateway =>
    cases h
    exact .trans (.of_eq rfl) (continued_deliverAll _ _ _ _)
  | react now deliveryId userId action =>
    obtain ⟨result, db', hreact, rfl⟩ := over_snd_eq_some h
    rcases Reactions.react_eq_ok hreact with ⟨-, rfl⟩ | ⟨-, d, o, r, u, reaction, -, -, -, -, -, -, rfl⟩
    · exact .of_eq rfl
    · exact .trans (.of_eq rfl) (continued_closeOccurrence _ _ _)
  | sweep now =>
    cases h
    exact continued_sweep _ _ _
  | setStatus now ownerId rid status =>
    obtain ⟨db', hdb, rfl⟩ := over_eq_some h
    obtain ⟨r, -, rfl⟩ := Reminders.setStatus_eq_ok hdb
    split
    · exact .of_eq rfl
    · exact .of_filter (Reminders.dropQueued_occurrences rid r w.db)
  | update now ownerId rid change =>
    obtain ⟨db', hdb, rfl⟩ := over_eq_some h
    obtain ⟨r, -, -, rfl⟩ := Reminders.update_eq_ok hdb
    split
    · exact .of_filter (Reminders.dropQueued_occurrences rid r w.db)
    · exact .of_eq rfl
  | issueInvite now ownerId rid token =>
    obtain ⟨db', hdb, rfl⟩ := over_eq_some h
    obtain rfl := Sharing.issueInvite_eq_ok hdb
    exact .of_eq rfl
  | revokeInvite now ownerId rid =>
    obtain ⟨db', hdb, rfl⟩ := over_eq_some h
    obtain rfl := Sharing.revokeInvite_eq_ok hdb
    exact .of_eq rfl
  | openInvite now token userId =>
    obtain ⟨db', hdb, rfl⟩ := over_eq_some h
    rcases Sharing.openInvite_eq_ok hdb with rfl | ⟨rid, -, rfl⟩ <;> exact .of_eq rfl
  | accept now userId rid =>
    obtain ⟨db', hdb, rfl⟩ := over_eq_some h
    obtain ⟨_, -, hdb⟩ := bind_eq_ok.mp hdb
    cases hdb
    refine .of_eq ?_
    split <;> rfl
  | decline now userId rid =>
    cases h
    exact .of_eq rfl
  | leave now userId rid =>
    cases h
    exact .of_eq rfl

theorem perform_occurrence {i : ℕ} {o : Occurrence} (h : perform settings w op = some w')
    (ho : w'.db.occurrences i = some o) :
    (∃ o₀, w.db.occurrences i = some o₀ ∧ Continues o₀ o) ∨
      w.db.occurrences i = none ∧ ∃ now, op = .materialize now := by
  by_cases hop : ∃ now, op = .materialize now
  · obtain ⟨now, rfl⟩ := hop
    cases h
    rcases Planning.materializeAll_some ho with hold | ⟨hnone, -⟩
    · exact .inl ⟨o, hold, .refl o⟩
    · exact .inr ⟨hnone, now, rfl⟩
  · exact .inl (perform_occurrences h (fun now heq ↦ hop ⟨now, heq⟩) i o ho)

end Operations

end Remindo.Serial
