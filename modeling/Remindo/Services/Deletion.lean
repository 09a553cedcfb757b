import Remindo.Services.Reminders

namespace Remindo

open Domain Db Foundation

/-- The delivery is about the reminder. -/
def Db.Deliveries.isFor (db : Database) (reminderId : ℕ) (d : Delivery) : Bool :=
  (db.occurrences d.occurrenceId).any fun o ↦ decide (o.reminderId = reminderId)

/-- `DELETE FROM reminders`, with the cascades of the schema. -/
def Db.Reminders.delete (reminderId : ℕ) : Statement := fun db ↦
  { Deliveries.delete (fun _ d ↦ Deliveries.isFor db reminderId d) db with
    reminders := db.reminders.deleteWhere fun i _ ↦ decide (i = reminderId)
    recipients := db.recipients.deleteWhere fun _ x ↦ decide (x.reminderId = reminderId)
    invites := db.invites.deleteWhere fun _ v ↦ decide (v.reminderId = reminderId)
    occurrences := db.occurrences.deleteWhere fun _ o ↦ decide (o.reminderId = reminderId) }

/-- An archived reminder can be deleted as well. -/
def Services.Reminders.delete (db : Database) (ownerId reminderId : ℕ) :
    Except ServiceError Database := do
  let _ ← getOwned db ownerId reminderId
  return db.run (Db.Reminders.delete reminderId)

namespace Services.Reminders

variable {db db' : Database} {ownerId rid : ℕ}

theorem delete_eq_ok (h : delete db ownerId rid = .ok db') :
    (∃ r, db.reminders rid = some r ∧ r.ownerId = ownerId) ∧
      db' = db.run (Db.Reminders.delete rid) := by
  obtain ⟨r, howned, h⟩ := bind_eq_ok.mp h
  cases h
  exact ⟨⟨r, getOwned_eq_ok howned⟩, rfl⟩

variable (db rid)

@[simp] theorem delete_reminders (i : ℕ) : (db.run (Db.Reminders.delete rid)).reminders i =
    if i = rid then none else db.reminders i := by
  refine (Table.writes_deleteWhere ..).trans ?_
  cases db.reminders i with
  | none => simp
  | some r => by_cases hi : i = rid <;> simp [hi]

@[simp] theorem delete_recipients (k : ℕ) : (db.run (Db.Reminders.delete rid)).recipients k =
    (db.recipients k).filter fun x ↦ !decide (x.reminderId = rid) := Table.writes_deleteWhere ..

@[simp] theorem delete_invites (k : ℕ) : (db.run (Db.Reminders.delete rid)).invites k =
    (db.invites k).filter fun v ↦ !decide (v.reminderId = rid) := Table.writes_deleteWhere ..

@[simp] theorem delete_occurrences (i : ℕ) : (db.run (Db.Reminders.delete rid)).occurrences i =
    (db.occurrences i).filter fun o ↦ !decide (o.reminderId = rid) := Table.writes_deleteWhere ..

@[simp] theorem delete_deliveries (j : ℕ) : (db.run (Db.Reminders.delete rid)).deliveries j =
    (db.deliveries j).filter fun d ↦ !Deliveries.isFor db rid d := Table.writes_deleteWhere ..

@[simp] theorem delete_actions (k : ℕ) : (db.run (Db.Reminders.delete rid)).actions k =
    (db.actions k).filter fun a ↦ !(db.deliveries a.deliveryId).any (Deliveries.isFor db rid) :=
  Table.writes_deleteWhere ..

end Services.Reminders

end Remindo
