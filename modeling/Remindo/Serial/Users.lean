import Remindo.Serial.Leases
import Remindo.Serial.Narrowing

namespace Remindo.Serial

open Remindo.Domain Remindo.Db Remindo.Services Remindo.Foundation

/-- Nobody comes or goes, and nobody changes but by being marked blocked. -/
structure Marked (db db' : Database) : Prop where
  next : db'.users.next = db.users.next
  rows : ∀ i, ∃ blocked, db'.users i =
    (db.users i).map fun u ↦ { u with isBlocked := u.isBlocked || blocked }

section Marks

variable {db db' db'' : Database} {now : ℤ}

theorem Marked.of_eq (h : db'.users = db.users) : Marked db db' := by
  refine ⟨by rw [h], fun i ↦ ⟨false, ?_⟩⟩
  rw [h]
  cases db.users i <;> simp

theorem Marked.trans (h : Marked db db') (h' : Marked db' db'') : Marked db db'' := by
  refine ⟨h'.next.trans h.next, fun i ↦ ?_⟩
  obtain ⟨blocked, hrow⟩ := h.rows i
  obtain ⟨blocked', hrow'⟩ := h'.rows i
  refine ⟨blocked || blocked', ?_⟩
  rw [hrow', hrow, Option.map_map]
  simp [Function.comp_def, Bool.or_assoc]

theorem marked_writeVerdict (db : Database) (v : Dispatching.Work) (outcome : Dispatching.Outcome)
    (now : ℤ) : Marked db (Dispatching.writeVerdict db v outcome now) := by
  rw [Dispatching.writeVerdict]
  split
  · let users := db.users.writes (db.users.update v.row.userId fun u ↦ { u with isBlocked := true })
    change Marked db { db.run (Deliveries.updateFields v.id _) with users := users }
    refine ⟨Table.next_writes_update .., fun i ↦ ?_⟩
    change ∃ blocked, users i = _
    rw [Table.writes_update]
    split
    · rename_i hi
      exact ⟨true, by rw [hi]; simp⟩
    · exact (Marked.of_eq rfl).rows i
  · exact .of_eq rfl

theorem marked_deliverAll (gateway : Dispatching.Gateway) (batch : List Dispatching.Work)
    (memory : Dispatching.Memory) (db : Database) :
    Marked db (Dispatching.deliverAll gateway batch memory db).2 := by
  induction batch generalizing memory db with
  | nil => exact .of_eq rfl
  | cons v rest ih =>
    refine .trans ?_ (ih _ _)
    rw [Dispatching.applyVerdict]
    split
    · exact .trans (marked_writeVerdict ..) (.of_eq rfl)
    · exact marked_writeVerdict ..

theorem marked_deliver (db : Database) (now lockFor : ℤ) (batch : ℕ)
    (gateway : Dispatching.Gateway) :
    Marked db (Dispatching.deliver db now lockFor batch gateway).2 := by
  let rows := Deliveries.claimDue now lockFor batch (fun _ ↦ false) db
  have hleased : Marked db (db.apply (Deliveries.claimed rows)) := .of_eq rfl
  exact hleased.trans (marked_deliverAll ..)

theorem materializeAll_users (settings : Planning.Settings) (horizonEnd : ℤ)
    (due : List (ℕ × Reminder)) (db : Database) :
    (Planning.materializeAll settings horizonEnd due db).users = db.users := by
  induction due generalizing db with
  | nil => rfl
  | cons x rest ih =>
    rw [Planning.materializeAll]
    split
    · exact ih db
    · exact (ih _).trans (Planning.materializeOne_users ..)

end Marks

section Operations

variable {settings : Settings} {w w' : World} {op : Operation}

theorem marked_perform (h : perform settings w op = some w') : Marked w.db w'.db := by
  cases op with
  | create now ownerId draft =>
    obtain ⟨db', hdb, rfl⟩ := over_eq_some h
    obtain ⟨-, rfl⟩ := Reminders.create_eq_ok hdb
    exact .of_eq rfl
  | materialize now =>
    cases h
    exact .of_eq (materializeAll_users ..)
  | deliver now gateway =>
    cases h
    exact marked_deliver ..
  | react now deliveryId userId action =>
    obtain ⟨result, db', hreact, rfl⟩ := over_snd_eq_some h
    rcases Reactions.react_eq_ok hreact with ⟨-, rfl⟩ | ⟨-, d, o, r, u, reaction, -, -, -, -, -, -, rfl⟩
    · exact .of_eq rfl
    · refine .of_eq ?_
      rw [Reactions.closeOccurrence]
      split
      · split <;> rfl
      · rfl
  | sweep now =>
    cases h
    exact .of_eq ((Reaper.repeatAll_tables ..).1.trans (expireAll_users ..))
  | setStatus now ownerId rid status =>
    obtain ⟨db', hdb, rfl⟩ := over_eq_some h
    obtain ⟨r, -, rfl⟩ := Reminders.setStatus_eq_ok hdb
    refine .of_eq ?_
    split <;> rfl
  | update now ownerId rid change =>
    obtain ⟨db', hdb, rfl⟩ := over_eq_some h
    obtain ⟨r, -, -, rfl⟩ := Reminders.update_eq_ok hdb
    refine .of_eq ?_
    split <;> rfl
  | issueInvite now ownerId rid token =>
    obtain ⟨db', hdb, rfl⟩ := over_eq_some h
    obtain rfl := Sharing.issueInvite_eq_ok hdb
    exact .of_eq rfl
  | revokeInvite now ownerId rid =>
    obtain ⟨db', hdb, rfl⟩ := over_eq_some h
    obtain rfl := Sharing.revokeInvite_eq_ok hdb
    exact .of_eq rfl
  | openInvite now token userId =>
    obtain ⟨db', hdb, rfl⟩ := over_eq_some h
    rcases Sharing.openInvite_eq_ok hdb with rfl | ⟨rid, -, rfl⟩ <;> exact .of_eq rfl
  | accept now userId rid =>
    obtain ⟨db', hdb, rfl⟩ := over_eq_some h
    obtain ⟨_, -, hdb⟩ := bind_eq_ok.mp hdb
    cases hdb
    refine .of_eq ?_
    split <;> rfl
  | decline now userId rid =>
    cases h
    exact .of_eq rfl
  | leave now userId rid =>
    cases h
    exact .of_eq rfl

theorem perform_users (h : perform settings w op = some w') (i : ℕ) :
    (w'.db.users i).isSome = (w.db.users i).isSome := by
  obtain ⟨blocked, hrow⟩ := (marked_perform h).rows i
  rw [hrow, Option.isSome_map]

end Operations

end Remindo.Serial
