import Remindo.Db.Repositories
import Remindo.Domain.Planning
import Remindo.Services.Reactions

namespace Remindo.Services.Reminders

open Remindo.Domain Remindo.Db

/-- The arguments of `create` that reach the schedule and the queue. -/
structure Draft where
  categoryId : ℕ
  schedule : Schedule
  timezone : Zone
  startsAt : Option ℤ
  endsAt : Option ℤ
  maxOccurrences : Option ℕ
  snoozeMinutes : ℕ
  repeatAfterMinutes : Option ℕ

/-- `server_default` of `reminders.max_repeats`. -/
def defaultMaxRepeats : ℕ := 2

def reminderRow (ownerId : ℕ) (draft : Draft) (beginsAt : ℤ) : Reminder where
  ownerId := ownerId
  categoryId := draft.categoryId
  status := .active
  schedule := draft.schedule
  timezone := draft.timezone
  startsAt := beginsAt
  endsAt := draft.endsAt
  maxOccurrences := draft.maxOccurrences
  firedCount := 0
  snoozeMinutes := draft.snoozeMinutes
  repeatAfterMinutes := draft.repeatAfterMinutes
  maxRepeats := defaultMaxRepeats
  plannedUntil := none

/-- A category is open to everybody if it is a preset, else to its owner. -/
def checkedCategory (db : Database) (ownerId categoryId : ℕ) : Except ServiceError ℕ := do
  let category ← require (db.categories categoryId)
  demand (category.archivedAt = none) .notFound
  demand (category.ownerId.all fun owner ↦ decide (owner = ownerId)) .permissionDenied
  return categoryId

/-- The category may be put on a reminder of the owner. -/
def MayUse (db : Database) (ownerId categoryId : ℕ) : Prop :=
  ∃ category, db.categories categoryId = some category ∧ category.archivedAt = none ∧
    ∀ owner, category.ownerId = some owner → owner = ownerId

theorem checkedCategory_eq_ok {db : Database} {ownerId categoryId c : ℕ}
    (h : checkedCategory db ownerId categoryId = .ok c) : MayUse db ownerId categoryId := by
  obtain ⟨category, hcategory, h⟩ := bind_eq_ok.mp h
  obtain ⟨_, hlive, h⟩ := bind_eq_ok.mp h
  obtain ⟨_, howner, -⟩ := bind_eq_ok.mp h
  refine ⟨category, require_eq_ok.mp hcategory, demand_eq_ok.mp hlive, fun owner heq ↦ ?_⟩
  have hown := demand_eq_ok.mp howner
  rw [heq] at hown
  exact of_decide_eq_true hown

theorem checkedCategory_ne_exhausted (db : Database) (ownerId categoryId : ℕ) :
    checkedCategory db ownerId categoryId ≠ .error .scheduleExhausted := by
  intro h
  rcases bind_eq_error.mp h with hfound | ⟨category, -, h⟩
  · cases (require_eq_error.mp hfound).2
  rcases bind_eq_error.mp h with hlive | ⟨_, -, h⟩
  · cases (demand_eq_error.mp hlive).2
  rcases bind_eq_error.mp h with howner | ⟨_, -, h⟩
  · cases (demand_eq_error.mp howner).2
  · cases h

/-- The last two demands are the table's own: `ends_after_start` and the owner's
foreign key. -/
def create (db : Database) (now : ℤ) (ownerId : ℕ) (draft : Draft) :
    Except ServiceError Database := do
  let beginsAt := draft.startsAt.getD now
  demand (firstFireAt draft.schedule draft.timezone beginsAt).isSome .scheduleExhausted
  let _ ← checkedCategory db ownerId draft.categoryId
  demand (draft.endsAt.all fun e ↦ decide (beginsAt < e)) .integrity
  demand (db.users ownerId).isSome .integrity
  let reminderId := db.reminders.next
  let db := db.run (Db.Reminders.add (reminderRow ownerId draft beginsAt))
  return db.run (Recipients.add ⟨reminderId, ownerId, .owner, some now⟩)

theorem create_eq_ok {db db' : Database} {now : ℤ} {ownerId : ℕ} {draft : Draft}
    (h : create db now ownerId draft = .ok db') :
    MayUse db ownerId draft.categoryId ∧
      db' = (db.run (Db.Reminders.add (reminderRow ownerId draft (draft.startsAt.getD now)))).run
        (Recipients.add ⟨db.reminders.next, ownerId, .owner, some now⟩) := by
  obtain ⟨_, -, h⟩ := bind_eq_ok.mp h
  obtain ⟨_, hcategory, h⟩ := bind_eq_ok.mp h
  obtain ⟨_, -, h⟩ := bind_eq_ok.mp h
  obtain ⟨_, -, h⟩ := bind_eq_ok.mp h
  cases h
  exact ⟨checkedCategory_eq_ok hcategory, rfl⟩

/-- What `create` has seen to before it writes. -/
theorem gates_of_create {db db' : Database} {now : ℤ} {ownerId : ℕ} {draft : Draft}
    (h : create db now ownerId draft = .ok db') :
    (∃ first, firstFireAt draft.schedule draft.timezone (draft.startsAt.getD now) = some first) ∧
      (db.users ownerId).isSome = true := by
  obtain ⟨_, hgate, h⟩ := bind_eq_ok.mp h
  obtain ⟨_, -, h⟩ := bind_eq_ok.mp h
  obtain ⟨_, -, h⟩ := bind_eq_ok.mp h
  obtain ⟨_, howner, -⟩ := bind_eq_ok.mp h
  exact ⟨Option.isSome_iff_exists.mp (demand_eq_ok.mp hgate), demand_eq_ok.mp howner⟩

/-- The gate of `create` is the search for a first moment. -/
theorem create_exhausted_iff {db : Database} {now : ℤ} {ownerId : ℕ} {draft : Draft} :
    create db now ownerId draft = .error .scheduleExhausted ↔
      firstFireAt draft.schedule draft.timezone (draft.startsAt.getD now) = none := by
  rw [← Option.not_isSome_iff_eq_none]
  refine ⟨fun h ↦ ?_, fun h ↦ bind_eq_error.mpr (.inl (demand_eq_error.mpr ⟨h, rfl⟩))⟩
  rcases bind_eq_error.mp h with hgate | ⟨_, -, h⟩
  · exact (demand_eq_error.mp hgate).1
  rcases bind_eq_error.mp h with hcategory | ⟨_, -, h⟩
  · exact absurd hcategory (checkedCategory_ne_exhausted _ _ _)
  rcases bind_eq_error.mp h with hends | ⟨_, -, h⟩
  · cases (demand_eq_error.mp hends).2
  rcases bind_eq_error.mp h with howner | ⟨_, -, h⟩
  · cases (demand_eq_error.mp howner).2
  · cases h

def getOwned (db : Database) (ownerId reminderId : ℕ) : Except ServiceError Reminder := do
  let r ← require (db.reminders reminderId)
  demand (r.ownerId = ownerId) .permissionDenied
  return r

theorem getOwned_eq_ok {db : Database} {ownerId rid : ℕ} {r : Reminder}
    (h : getOwned db ownerId rid = .ok r) : db.reminders rid = some r ∧ r.ownerId = ownerId := by
  obtain ⟨r', hr, h⟩ := bind_eq_ok.mp h
  obtain ⟨_, howner, h⟩ := bind_eq_ok.mp h
  cases h
  exact ⟨require_eq_ok.mp hr, demand_eq_ok.mp howner⟩

/-- A stale press must not revive a reminder the planner has finished with. -/
def getEditable (db : Database) (ownerId reminderId : ℕ) : Except ServiceError Reminder := do
  let r ← getOwned db ownerId reminderId
  demand (r.status ≠ .archived) .permissionDenied
  return r

theorem getEditable_eq_ok {db : Database} {ownerId rid : ℕ} {r : Reminder}
    (h : getEditable db ownerId rid = .ok r) :
    db.reminders rid = some r ∧ r.ownerId = ownerId ∧ r.status ≠ .archived := by
  obtain ⟨r₁, howned, h⟩ := bind_eq_ok.mp h
  obtain ⟨_, hstatus, h⟩ := bind_eq_ok.mp h
  cases h
  obtain ⟨hr, howner⟩ := getOwned_eq_ok howned
  exact ⟨hr, howner, demand_eq_ok.mp hstatus⟩

/-- Take back the occurrences nothing has been sent for. The first update moves the loaded
row along, so the commit flushes a column that has them taken off twice. -/
def dropQueued (reminderId : ℕ) (r : Reminder) (db : Database) : Database :=
  let writes := Occurrences.deleteUnsent reminderId db
  let dropped := writes.occurrences.length
  let firedCount := r.firedCount - dropped
  ((db.apply writes).run (Db.Reminders.resetPlanning reminderId firedCount)).run
    (Db.Reminders.updateFields reminderId fun r ↦ { r with firedCount := firedCount - dropped })

/-- Pause or resume. Leaving `active` empties the queue. -/
def setStatus (db : Database) (ownerId reminderId : ℕ) (status : ReminderStatus) :
    Except ServiceError Database := do
  let r ← getEditable db ownerId reminderId
  let db := if status = .active then db else dropQueued reminderId r db
  return db.run (Db.Reminders.setStatus reminderId status)

theorem setStatus_eq_ok {db db' : Database} {ownerId rid : ℕ} {status : ReminderStatus}
    (h : setStatus db ownerId rid status = .ok db') :
    ∃ r, getEditable db ownerId rid = .ok r ∧
      db' = (if status = .active then db else dropQueued rid r db).run
        (Db.Reminders.setStatus rid status) := by
  obtain ⟨r, hr, h⟩ := bind_eq_ok.mp h
  cases h
  exact ⟨r, hr, rfl⟩

/-- The fields `update` can change here; the schedule comes with the moment
its gate is read at. -/
structure Change where
  categoryId : Option ℕ
  schedule : Option Schedule
  snoozeMinutes : Option ℕ
  repeatAfterMinutes : Option ℕ
  clearRepeat : Bool

def changed (change : Change) (r : Reminder) : Reminder :=
  { r with
    categoryId := change.categoryId.getD r.categoryId
    schedule := change.schedule.getD r.schedule
    snoozeMinutes := change.snoozeMinutes.getD r.snoozeMinutes
    repeatAfterMinutes :=
      if change.clearRepeat then none else change.repeatAfterMinutes <|> r.repeatAfterMinutes }

def canReplace (r : Reminder) (schedule : Schedule) (now : ℤ) : Bool :=
  (firstFireAt schedule r.timezone (max r.startsAt now)).isSome

def update (db : Database) (now : ℤ) (ownerId reminderId : ℕ) (change : Change) :
    Except ServiceError Database := do
  let r ← getEditable db ownerId reminderId
  let _ ← change.categoryId.mapM (checkedCategory db ownerId)
  demand (change.schedule.all fun schedule ↦ canReplace r schedule now) .scheduleExhausted
  let db := if change.schedule.isSome then dropQueued reminderId r db else db
  return db.run (Db.Reminders.updateFields reminderId (changed change))

theorem update_eq_ok {db db' : Database} {now : ℤ} {ownerId rid : ℕ} {change : Change}
    (h : update db now ownerId rid change = .ok db') :
    ∃ r, getEditable db ownerId rid = .ok r ∧
      (∀ categoryId, change.categoryId = some categoryId → MayUse db ownerId categoryId) ∧
      db' = (if change.schedule.isSome then dropQueued rid r db else db).run
        (Db.Reminders.updateFields rid (changed change)) := by
  obtain ⟨r, hr, h⟩ := bind_eq_ok.mp h
  obtain ⟨checked, hchecked, h⟩ := bind_eq_ok.mp h
  obtain ⟨_, -, h⟩ := bind_eq_ok.mp h
  cases h
  refine ⟨r, hr, fun categoryId heq ↦ ?_, rfl⟩
  rw [heq] at hchecked
  obtain ⟨c, hc, -⟩ := bind_eq_ok.mp hchecked
  exact checkedCategory_eq_ok hc

end Remindo.Services.Reminders
