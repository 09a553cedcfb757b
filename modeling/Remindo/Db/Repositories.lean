import Mathlib.Data.Finset.Dedup
import Mathlib.Data.List.Sort
import Remindo.Db.Models

namespace Remindo.Db

open Remindo.Domain Remindo.Foundation

/-- `ORDER BY key, id`: the sort is stable and `select` goes by id. -/
def orderBy {α : Type} (key : α → ℤ) (rows : List (ℕ × α)) : List (ℕ × α) :=
  rows.insertionSort fun a b ↦ key a.2 ≤ key b.2

@[simp] theorem mem_orderBy {α : Type} {key : α → ℤ} {rows : List (ℕ × α)} {r : ℕ × α} :
    r ∈ orderBy key rows ↔ r ∈ rows := List.mem_insertionSort _

theorem nodup_orderBy_ids {α : Type} {key : α → ℤ} {t : Table α} {p : ℕ → α → Bool} :
    ((orderBy key (t.select p)).map Prod.fst).Nodup :=
  ((List.perm_insertionSort _ _).map _).nodup_iff.mpr (t.nodup_select_ids p)

/-- `ORDER BY key NULLS FIRST, id`. -/
def nullsFirst {α : Type} (key : α → Option ℤ) (rows : List (ℕ × α)) : List (ℕ × α) :=
  rows.filter (fun r ↦ (key r.2).isNone) ++
    orderBy (fun r ↦ (key r).getD 0) (rows.filter fun r ↦ (key r.2).isSome)

theorem nullsFirst_perm {α : Type} (key : α → Option ℤ) (rows : List (ℕ × α)) :
    (nullsFirst key rows).Perm rows := by
  refine ((List.perm_insertionSort _ _).append_left _).trans ?_
  have hnot : (fun r : ℕ × α ↦ (key r.2).isSome) = fun r ↦ !(key r.2).isNone := by
    funext r
    cases key r.2 <;> rfl
  rw [hnot]
  exact List.filter_append_perm (fun r : ℕ × α ↦ (key r.2).isNone) rows

theorem mem_take_nullsFirst {α : Type} {key : α → Option ℤ} {rows : List (ℕ × α)} {limit : ℕ}
    {r : ℕ × α} (h : r ∈ (nullsFirst key rows).take limit) : r ∈ rows :=
  (nullsFirst_perm key rows).mem_iff.mp (List.mem_of_mem_take h)

theorem nodup_take_nullsFirst {α : Type} (key : α → Option ℤ) (t : Table α) (p : ℕ → α → Bool)
    (limit : ℕ) : (((nullsFirst key (t.select p)).take limit).map Prod.fst).Nodup := by
  have hall := ((nullsFirst_perm key (t.select p)).map Prod.fst).nodup_iff.mpr (t.nodup_select_ids p)
  exact hall.sublist ((List.take_sublist _ _).map _)

namespace Users

def markBlocked (userId : ℕ) (blocked : Bool) : Statement := fun db ↦
  { users := db.users.update userId fun u ↦ { u with isBlocked := blocked } }

/-- Days a digest mark makes a user uninteresting to the cycle. -/
def digestPrefilterDays : ℤ := 6

def isUnmarked (now : ℤ) (u : User) : Bool :=
  u.digestSentAt.all fun sent ↦ decide (sent < now - digestPrefilterDays * day)

def isDigestCandidate (now : ℤ) (u : User) : Bool :=
  u.onboardedAt.isSome && !u.isBlocked && u.digestEnabled && isUnmarked now u

/-- The oldest mark first, those without one before it. -/
def listDigestCandidates (db : Database) (now : ℤ) (limit : ℕ) : List (ℕ × User) :=
  (nullsFirst User.digestSentAt (db.users.select fun _ u ↦ isDigestCandidate now u)).take limit

theorem mem_listDigestCandidates {db : Database} {now : ℤ} {limit i : ℕ} {u : User}
    (h : (i, u) ∈ listDigestCandidates db now limit) : db.users i = some u :=
  (Table.mem_select.mp (mem_take_nullsFirst h)).1

theorem nodup_listDigestCandidates (db : Database) (now : ℤ) (limit : ℕ) :
    ((listDigestCandidates db now limit).map Prod.fst).Nodup :=
  nodup_take_nullsFirst User.digestSentAt db.users (fun _ u ↦ isDigestCandidate now u) limit

def markDigestSent (userId : ℕ) (moment : ℤ) : Statement := fun db ↦
  { users := db.users.update userId fun u ↦ { u with digestSentAt := some moment } }

end Users

namespace Categories

def isOwned (ownerId : ℕ) (c : Category) : Bool := decide (c.ownerId = some ownerId)

/-- What the user may edit: the presets and the archive stay out. -/
def listOwned (db : Database) (ownerId : ℕ) : List (ℕ × Category) :=
  db.categories.select fun _ c ↦ isOwned ownerId c && c.archivedAt.isNone

/-- Every code the owner occupies, archived ones included. -/
def listCodes (db : Database) (ownerId : ℕ) : Finset Text :=
  ((db.categories.select fun _ c ↦ isOwned ownerId c).map fun c ↦ c.2.code).toFinset

theorem mem_listCodes {db : Database} {ownerId i : ℕ} {c : Category} (hc : db.categories i = some c)
    (howner : c.ownerId = some ownerId) : c.code ∈ listCodes db ownerId := by
  rw [listCodes, List.mem_toFinset]
  exact List.mem_map_of_mem (f := fun c : ℕ × Category ↦ c.2.code) (a := (i, c))
    (Table.mem_select.mpr ⟨hc, decide_eq_true howner⟩)

def countActiveReminders (db : Database) (categoryId : ℕ) : ℕ :=
  db.reminders.count fun r ↦ decide (r.categoryId = categoryId) && decide (r.status ≠ .archived)

def add (category : Category) : Statement := fun db ↦
  { categories := db.categories.insert [category] }

def updateFields (categoryId : ℕ) (values : Category → Category) : Statement := fun db ↦
  { categories := db.categories.update categoryId values }

@[simp] theorem categories_updateFields (db : Database) (i : ℕ) (values : Category → Category)
    (j : ℕ) : (db.run (updateFields i values)).categories j =
      if j = i then (db.categories i).map values else db.categories j := Table.writes_update ..

end Categories

namespace Reminders

def add (reminder : Reminder) : Statement := fun db ↦ { reminders := db.reminders.insert [reminder] }

def updateFields (reminderId : ℕ) (values : Reminder → Reminder) : Statement := fun db ↦
  { reminders := db.reminders.update reminderId values }

@[simp] theorem reminders_updateFields (db : Database) (i : ℕ) (values : Reminder → Reminder)
    (j : ℕ) : (db.run (updateFields i values)).reminders j =
      if j = i then (db.reminders i).map values else db.reminders j := Table.writes_update ..

theorem isSome_updateFields (db : Database) (i : ℕ) (values : Reminder → Reminder) (j : ℕ) :
    ((db.run (updateFields i values)).reminders j).isSome = (db.reminders j).isSome := by
  rw [reminders_updateFields]
  split
  · rename_i hj
    rw [Option.isSome_map, hj]
  · rfl

/-- Forget the materialised horizon. -/
def resetPlanning (reminderId firedCount : ℕ) : Statement :=
  updateFields reminderId fun r ↦ { r with plannedUntil := none, firedCount := firedCount }

def setPlanningState (reminderId : ℕ) (plannedUntil : ℤ) (firedCount : ℕ) : Statement :=
  updateFields reminderId fun r ↦
    { r with plannedUntil := some plannedUntil, firedCount := firedCount }

def setStatus (reminderId : ℕ) (status : ReminderStatus) : Statement :=
  updateFields reminderId fun r ↦ { r with status := status }

def isDue (horizonEnd : ℤ) (r : Reminder) : Bool :=
  decide (r.status = .active) && decide (r.startsAt ≤ horizonEnd) &&
    r.plannedUntil.all fun p ↦ decide (p < horizonEnd)

/-- Reminders without a horizon come first, then the least planned. -/
def dueForPlanning (db : Database) (horizonEnd : ℤ) (limit : ℕ) : List (ℕ × Reminder) :=
  let due := db.reminders.select fun _ r ↦ isDue horizonEnd r
  (due.filter (fun r ↦ r.2.plannedUntil.isNone) ++
    orderBy (fun r ↦ r.plannedUntil.getD 0)
      (due.filter fun r ↦ r.2.plannedUntil.isSome)).take limit

theorem mem_dueForPlanning {db : Database} {horizonEnd : ℤ} {limit i : ℕ} {r : Reminder}
    (h : (i, r) ∈ dueForPlanning db horizonEnd limit) :
    db.reminders i = some r ∧ isDue horizonEnd r = true :=
  Table.mem_select.mp (@mem_take_nullsFirst _ Reminder.plannedUntil _ limit _ h)

theorem nodup_dueForPlanning (db : Database) (horizonEnd : ℤ) (limit : ℕ) :
    ((dueForPlanning db horizonEnd limit).map Prod.fst).Nodup :=
  nodup_take_nullsFirst Reminder.plannedUntil db.reminders (fun _ r ↦ isDue horizonEnd r) limit

end Reminders

namespace Recipients

def add (recipient : Recipient) : Statement := fun db ↦
  { recipients := db.recipients.insert [recipient] }

def get (db : Database) (reminderId userId : ℕ) : Option (ℕ × Recipient) :=
  db.recipients.find fun r ↦ decide (r.key = (reminderId, userId))

def listAcceptedUserIds (db : Database) (reminderId : ℕ) : List ℕ :=
  (db.recipients.select fun _ r ↦
    decide (r.reminderId = reminderId) && (decide (r.role = .owner) || r.acceptedAt.isSome)).map
      fun r ↦ r.2.userId

def countWatchers (db : Database) (reminderId : ℕ) : ℕ :=
  db.recipients.count fun r ↦ decide (r.reminderId = reminderId) && decide (r.role = .watcher)

/-- Only a pending row is touched. -/
def accept (reminderId userId : ℕ) (now : ℤ) : Statement := fun db ↦
  { recipients := db.recipients.updateWhere
      (fun _ r ↦ decide (r.key = (reminderId, userId)) && decide (r.role = .watcher) &&
        r.acceptedAt.isNone)
      fun r ↦ { r with acceptedAt := some now } }

@[simp] theorem recipients_accept (db : Database) (reminderId userId : ℕ) (now : ℤ) (j : ℕ) :
    (db.run (accept reminderId userId now)).recipients j = (db.recipients j).map fun r ↦
      if decide (r.key = (reminderId, userId)) && decide (r.role = .watcher) && r.acceptedAt.isNone
      then { r with acceptedAt := some now } else r :=
  db.recipients.writes_updateWhere (fun _ r ↦ decide (r.key = (reminderId, userId)) &&
    decide (r.role = .watcher) && r.acceptedAt.isNone) (fun r ↦ { r with acceptedAt := some now }) j

/-- The owner's row is never a candidate. -/
def removeWatcher (reminderId userId : ℕ) : Statement := fun db ↦
  { recipients := db.recipients.deleteWhere fun _ r ↦
      decide (r.key = (reminderId, userId)) && decide (r.role = .watcher) }

end Recipients

namespace Invites

def getByToken (db : Database) (token : String) : Option (ℕ × Invite) :=
  db.invites.find fun i ↦ decide (i.token = token)

def add (invite : Invite) : Statement := fun db ↦ { invites := db.invites.insert [invite] }

def revokeLive (reminderId : ℕ) (now : ℤ) : Statement := fun db ↦
  { invites := db.invites.updateWhere
      (fun _ i ↦ decide (i.reminderId = reminderId) && i.revokedAt.isNone)
      fun i ↦ { i with revokedAt := some now } }

end Invites

namespace Deliveries

def insertMissing (rows : List Delivery) : Statement := fun db ↦
  { deliveries := db.deliveries.insertMissing Delivery.key rows }

/-- A queued delivery, with the columns the server fills in. -/
def queued (occurrenceId userId : ℕ) (nextAttemptAt : ℤ) : Delivery where
  occurrenceId := occurrenceId
  userId := userId
  status := .pending
  attempts := 0
  nextAttemptAt := nextAttemptAt
  lockedUntil := none
  tgMessageId := none
  sentAt := none
  reactedAt := none
  snoozedUntil := none
  errorCode := none

def isQueued (d : Delivery) : Bool :=
  decide (d.status = .pending) || decide (d.status = .snoozed)

def isDue (now : ℤ) (d : Delivery) : Bool :=
  isQueued d && decide (d.nextAttemptAt ≤ now) && d.lockedUntil.all fun til ↦ decide (til < now)

/-- Lease a batch of due deliveries, passing over the locked ones; what
`RETURNING` hands back is in queue order. -/
def claimDue (now lockFor : ℤ) (batch : ℕ) (locked : ℕ → Bool) (db : Database) :
    List (ℕ × Delivery) :=
  ((orderBy Delivery.nextAttemptAt
    (db.deliveries.select fun i d ↦ isDue now d && !locked i)).take batch).map fun d ↦
      (d.1, { d.2 with lockedUntil := some (now + lockFor), attempts := d.2.attempts + 1 })

def claimed (rows : List (ℕ × Delivery)) : Writes :=
  { deliveries := rows.map fun d ↦ (d.1, some d.2) }

theorem isTerminal_of_isQueued {d : Delivery} (h : isQueued d = true) :
    d.status.isTerminal = false := by
  rw [isQueued, Bool.or_eq_true, decide_eq_true_eq, decide_eq_true_eq] at h
  rcases h with h | h <;> rw [h] <;> rfl

theorem mem_claimDue {now lockFor : ℤ} {batch : ℕ} {locked : ℕ → Bool} {db : Database}
    {x : ℕ × Delivery} (h : x ∈ claimDue now lockFor batch locked db) :
    ∃ d, db.deliveries x.1 = some d ∧ isDue now d = true ∧ locked x.1 = false ∧
      x.2 = { d with lockedUntil := some (now + lockFor), attempts := d.attempts + 1 } := by
  obtain ⟨⟨i, d⟩, hmem, rfl⟩ := List.mem_map.mp h
  have hmem := Table.mem_select.mp (mem_orderBy.mp (List.mem_of_mem_take hmem))
  rw [Bool.and_eq_true, Bool.not_eq_true'] at hmem
  exact ⟨d, hmem.1, hmem.2.1, hmem.2.2, rfl⟩

theorem nodup_claimDue (now lockFor : ℤ) (batch : ℕ) (locked : ℕ → Bool) (db : Database) :
    ((claimDue now lockFor batch locked db).map Prod.fst).Nodup := by
  rw [claimDue, List.map_map]
  change (List.map Prod.fst _).Nodup
  exact nodup_orderBy_ids.sublist ((List.take_sublist _ _).map _)

theorem claimed_ids (rows : List (ℕ × Delivery)) :
    (rows.map fun d ↦ (d.1, some d.2)).map Prod.fst = rows.map Prod.fst := by
  rw [List.map_map]
  rfl

theorem deliveries_claimed_of_mem {rows : List (ℕ × Delivery)}
    (hnodup : (rows.map Prod.fst).Nodup) (db : Database) {x : ℕ × Delivery} (hx : x ∈ rows) :
    (db.apply (claimed rows)).deliveries x.1 = some x.2 :=
  Table.writes_apply_of_mem (claimed_ids rows ▸ hnodup) (List.mem_map.mpr ⟨x, hx, rfl⟩)

theorem deliveries_claimed {rows : List (ℕ × Delivery)} (hnodup : (rows.map Prod.fst).Nodup)
    (db : Database) (j : ℕ) :
    (∃ x ∈ rows, x.1 = j ∧ (db.apply (claimed rows)).deliveries j = some x.2) ∨
      (db.apply (claimed rows)).deliveries j = db.deliveries j := by
  by_cases hj : j ∈ rows.map Prod.fst
  · obtain ⟨x, hx, rfl⟩ := List.mem_map.mp hj
    exact .inl ⟨x, hx, rfl, deliveries_claimed_of_mem hnodup db hx⟩
  · exact .inr (Table.writes_apply_of_notMem (claimed_ids rows ▸ hj))

/-- The rows a message is rendered from and addressed with. -/
structure SendContext where
  occurrence : ℕ × Occurrence
  reminder : ℕ × Reminder
  user : ℕ × User

def loadSendContext (db : Database) (deliveryId : ℕ) : Option SendContext := do
  let d ← db.deliveries deliveryId
  let o ← db.occurrences d.occurrenceId
  let r ← db.reminders o.reminderId
  let u ← db.users d.userId
  return ⟨(d.occurrenceId, o), (o.reminderId, r), (d.userId, u)⟩

theorem loadSendContext_eq_some {db : Database} {deliveryId : ℕ} {c : SendContext}
    (h : loadSendContext db deliveryId = some c) :
    (∃ d, db.deliveries deliveryId = some d ∧ d.occurrenceId = c.occurrence.1 ∧
      d.userId = c.user.1) ∧ db.occurrences c.occurrence.1 = some c.occurrence.2 ∧
      c.occurrence.2.reminderId = c.reminder.1 ∧ db.users c.user.1 = some c.user.2 := by
  obtain ⟨d, hd, h⟩ := Option.bind_eq_some_iff.mp h
  obtain ⟨o, ho, h⟩ := Option.bind_eq_some_iff.mp h
  obtain ⟨r, hr, h⟩ := Option.bind_eq_some_iff.mp h
  obtain ⟨u, hu, h⟩ := Option.bind_eq_some_iff.mp h
  cases h
  exact ⟨⟨d, hd, rfl, rfl⟩, ho, rfl, hu⟩

def updateFields (deliveryId : ℕ) (values : Delivery → Delivery) : Statement := fun db ↦
  { deliveries := db.deliveries.update deliveryId values }

def addAction (action : DeliveryAction) : Statement := fun db ↦
  { actions := db.actions.insert [action] }

@[simp] theorem deliveries_updateFields (db : Database) (i : ℕ) (values : Delivery → Delivery)
    (j : ℕ) : (db.run (updateFields i values)).deliveries j =
      if j = i then (db.deliveries i).map values else db.deliveries j := Table.writes_update ..

/-- Deleting a delivery takes its journal with it. -/
def delete (p : ℕ → Delivery → Bool) : Statement := fun db ↦
  { deliveries := db.deliveries.deleteWhere p
    actions := db.actions.deleteWhere fun _ a ↦
      (db.deliveries a.deliveryId).any (p a.deliveryId) }

def isPendingFor (db : Database) (reminderId userId : ℕ) (d : Delivery) : Bool :=
  decide (d.userId = userId) && decide (d.status = .pending) &&
    (db.occurrences d.occurrenceId).any fun o ↦ decide (o.reminderId = reminderId)

def deletePendingForRecipient (reminderId userId : ℕ) : Statement := fun db ↦
  delete (fun _ d ↦ isPendingFor db reminderId userId d) db

def listSentForOccurrence (db : Database) (occurrenceId : ℕ) : List (ℕ × Delivery) :=
  db.deliveries.select fun _ d ↦
    decide (d.occurrenceId = occurrenceId) && decide (d.status = .sent)

theorem mem_listSentForOccurrence {db : Database} {occurrenceId : ℕ} {x : ℕ × Delivery}
    (h : x ∈ listSentForOccurrence db occurrenceId) :
    db.deliveries x.1 = some x.2 ∧ x.2.occurrenceId = occurrenceId ∧ x.2.status = .sent := by
  have hmem := Table.mem_select.mp h
  rw [Bool.and_eq_true, decide_eq_true_eq, decide_eq_true_eq] at hmem
  exact hmem

/-- An unanswered delivery with the rows its repeat is decided from. -/
structure RepeatCandidate where
  delivery : ℕ × Delivery
  reminder : Reminder
  occurrence : ℕ × Occurrence
  user : User

def repeatCandidate (db : Database) (d : ℕ × Delivery) : Option RepeatCandidate := do
  let o ← db.occurrences d.2.occurrenceId
  let r ← db.reminders o.reminderId
  let u ← db.users d.2.userId
  return ⟨d, r, (d.2.occurrenceId, o), u⟩

def isRepeatCandidate (now : ℤ) (c : RepeatCandidate) : Bool :=
  decide (c.delivery.2.status = .sent) && c.delivery.2.reactedAt.isNone &&
    decide (c.occurrence.2.repeatsSent < c.reminder.maxRepeats) &&
    decide (now < c.occurrence.2.expiresAt) &&
    c.delivery.2.sentAt.any fun sentAt ↦
      c.reminder.repeatAfterMinutes.any fun minutes ↦ decide (sentAt + minutes * minute ≤ now)

def listRepeatCandidates (db : Database) (now : ℤ) (limit : ℕ) : List RepeatCandidate :=
  ((orderBy (fun d ↦ d.sentAt.getD 0) (db.deliveries.select fun i d ↦
    (repeatCandidate db (i, d)).any (isRepeatCandidate now))).take limit).filterMap
      (repeatCandidate db)

theorem repeatCandidate_eq_some {db : Database} {d : ℕ × Delivery} {c : RepeatCandidate}
    (h : repeatCandidate db d = some c) : c.delivery = d ∧ d.2.occurrenceId = c.occurrence.1 ∧
      db.occurrences c.occurrence.1 = some c.occurrence.2 ∧
        db.reminders c.occurrence.2.reminderId = some c.reminder := by
  obtain ⟨o, ho, h⟩ := Option.bind_eq_some_iff.mp h
  obtain ⟨r, hr, h⟩ := Option.bind_eq_some_iff.mp h
  obtain ⟨u, hu, h⟩ := Option.bind_eq_some_iff.mp h
  cases h
  exact ⟨rfl, rfl, ho, hr⟩

theorem mem_listRepeatCandidates {db : Database} {now : ℤ} {limit : ℕ} {c : RepeatCandidate}
    (h : c ∈ listRepeatCandidates db now limit) :
    db.deliveries c.delivery.1 = some c.delivery.2 ∧ c.delivery.2.status = .sent := by
  obtain ⟨d, hd, hc⟩ := List.mem_filterMap.mp h
  obtain ⟨hrow, hdue⟩ := Table.mem_select.mp (mem_orderBy.mp (List.mem_of_mem_take hd))
  rw [hc, Option.any_some, isRepeatCandidate] at hdue
  simp only [Bool.and_eq_true, decide_eq_true_eq] at hdue
  obtain ⟨rfl, -⟩ := repeatCandidate_eq_some hc
  exact ⟨hrow, hdue.1.1.1.1⟩

theorem occurrence_of_mem_listRepeatCandidates {db : Database} {now : ℤ} {limit : ℕ}
    {c : RepeatCandidate} (h : c ∈ listRepeatCandidates db now limit) :
    c.delivery.2.occurrenceId = c.occurrence.1 ∧
      db.occurrences c.occurrence.1 = some c.occurrence.2 ∧
        db.reminders c.occurrence.2.reminderId = some c.reminder := by
  obtain ⟨d, -, hc⟩ := List.mem_filterMap.mp h
  obtain ⟨rfl, hparent, ho, hr⟩ := repeatCandidate_eq_some hc
  exact ⟨hparent, ho, hr⟩

theorem nodup_listRepeatCandidates (db : Database) (now : ℤ) (limit : ℕ) :
    ((listRepeatCandidates db now limit).map fun c ↦ c.delivery.1).Nodup := by
  have hids : ∀ rows : List (ℕ × Delivery),
      ((rows.filterMap (repeatCandidate db)).map fun c ↦ c.delivery.1).Sublist
        (rows.map Prod.fst) := by
    intro rows
    induction rows with
    | nil => exact .slnil
    | cons d rest ih =>
      cases hc : repeatCandidate db d with
      | none =>
        rw [List.filterMap_cons_none hc]
        exact ih.cons _
      | some c =>
        rw [List.filterMap_cons_some hc, List.map_cons, List.map_cons,
          (repeatCandidate_eq_some hc).1]
        exact ih.cons_cons _
  exact nodup_orderBy_ids.sublist ((hids _).trans ((List.take_sublist _ _).map _))

/-- The category of the reminder a delivery is about. -/
def categoryOf (db : Database) (deliveryId : ℕ) : Option ℕ := do
  let d ← db.deliveries deliveryId
  let o ← db.occurrences d.occurrenceId
  let r ← db.reminders o.reminderId
  return r.categoryId

/-- The journal rows addressed to one user, each with its category. -/
def listActionsForUser (db : Database) (userId : ℕ) (since : ℤ) (til : Option ℤ)
    (categoryId : Option ℕ) : List ((ℕ × DeliveryAction) × ℕ) :=
  (db.actions.select fun _ a ↦ decide (a.userId = userId) && decide (since ≤ a.createdAt) &&
    til.all fun t ↦ decide (a.createdAt ≤ t)).filterMap fun x ↦
      ((categoryOf db x.2.deliveryId).filter fun c ↦
        categoryId.all fun wanted ↦ decide (c = wanted)).map fun c ↦ (x, c)

theorem mem_listActionsForUser {db : Database} {userId i c : ℕ} {since t : ℤ} {a : DeliveryAction} :
    ((i, a), c) ∈ listActionsForUser db userId since (some t) none ↔
      db.actions i = some a ∧ a.userId = userId ∧ since ≤ a.createdAt ∧ a.createdAt ≤ t ∧
        categoryOf db a.deliveryId = some c := by
  simp only [listActionsForUser, List.mem_filterMap, Option.map_eq_some_iff, Option.filter_eq_some_iff,
    Option.all_none, and_true, Option.all_some, Prod.mk.injEq, Prod.exists]
  constructor
  · rintro ⟨i', a', hrow, c', hc, ⟨rfl, rfl⟩, rfl⟩
    obtain ⟨ha, hpick⟩ := Table.mem_select.mp hrow
    simp only [Bool.and_eq_true, decide_eq_true_eq] at hpick
    exact ⟨ha, hpick.1.1, hpick.1.2, hpick.2, hc⟩
  · rintro ⟨ha, huser, hsince, htil, hc⟩
    refine ⟨i, a, Table.mem_select.mpr ⟨ha, ?_⟩, c, hc, ⟨rfl, rfl⟩, rfl⟩
    simp [huser, hsince, htil]

/-- A queued row whose lease has run out. -/
def isStale (now : ℤ) (d : Delivery) : Bool :=
  d.lockedUntil.any (fun til ↦ decide (til < now)) && isQueued d

def releaseStaleLocks (now : ℤ) : Statement := fun db ↦
  { deliveries := db.deliveries.updateWhere (fun _ d ↦ isStale now d)
      fun d ↦ { d with lockedUntil := none } }

@[simp] theorem deliveries_releaseStaleLocks (db : Database) (now : ℤ) (j : ℕ) :
    (db.run (releaseStaleLocks now)).deliveries j = (db.deliveries j).map fun d ↦
      if isStale now d then { d with lockedUntil := none } else d :=
  db.deliveries.writes_updateWhere (fun _ d ↦ isStale now d)
    (fun d ↦ { d with lockedUntil := none }) j

end Deliveries

namespace Occurrences

def insertMissing (rows : List Occurrence) : Statement := fun db ↦
  { occurrences := db.occurrences.insertMissing Occurrence.key rows }

def listForSchedule (db : Database) (reminderId : ℕ) (moments : List ℤ) : List (ℕ × Occurrence) :=
  db.occurrences.select fun _ o ↦
    decide (o.reminderId = reminderId) && decide (o.scheduledFor ∈ moments)

def countForReminder (db : Database) (reminderId : ℕ) : ℕ :=
  db.occurrences.count fun o ↦ decide (o.reminderId = reminderId)

/-- Some delivery of the occurrence has left `pending`. -/
def answered (db : Database) (occurrenceId : ℕ) : Bool :=
  decide (db.deliveries.count (fun d ↦
    decide (d.occurrenceId = occurrenceId) && decide (d.status ≠ .pending)) ≠ 0)

theorem answered_iff {db : Database} {occurrenceId : ℕ} :
    answered db occurrenceId = true ↔ ∃ j d, db.deliveries j = some d ∧
      d.occurrenceId = occurrenceId ∧ d.status ≠ .pending := by
  rw [answered, decide_eq_true_iff, ne_eq, Table.count_eq_zero]
  push Not
  refine exists_congr fun j ↦ exists_congr fun d ↦ and_congr_right fun _ ↦ ?_
  simp

def isUnsent (db : Database) (reminderId occurrenceId : ℕ) (o : Occurrence) : Bool :=
  decide (o.reminderId = reminderId) && decide (o.status = .pending) && !answered db occurrenceId

/-- Drop queued occurrences nothing has gone out for; deliveries follow by
cascade. -/
def deleteUnsent (reminderId : ℕ) : Statement := fun db ↦
  let gone : ℕ → Delivery → Bool := fun _ d ↦
    (db.occurrences d.occurrenceId).any (isUnsent db reminderId d.occurrenceId)
  { Deliveries.delete gone db with
    occurrences := db.occurrences.deleteWhere (isUnsent db reminderId) }

@[simp] theorem occurrences_deleteUnsent (db : Database) (reminderId i : ℕ) :
    (db.run (deleteUnsent reminderId)).occurrences i =
      (db.occurrences i).filter fun o ↦ !isUnsent db reminderId i o := Table.writes_deleteWhere ..

@[simp] theorem deliveries_deleteUnsent (db : Database) (reminderId j : ℕ) :
    (db.run (deleteUnsent reminderId)).deliveries j = (db.deliveries j).filter fun d ↦
      !(db.occurrences d.occurrenceId).any (isUnsent db reminderId d.occurrenceId) :=
  db.deliveries.writes_deleteWhere (fun _ d ↦
    (db.occurrences d.occurrenceId).any (isUnsent db reminderId d.occurrenceId)) j

/-- What is deleted with an unsent occurrence is pending. -/
theorem pending_of_unsent {db : Database} {reminderId j : ℕ} {d : Delivery}
    (hd : db.deliveries j = some d)
    (hgone : (db.occurrences d.occurrenceId).any (isUnsent db reminderId d.occurrenceId) = true) :
    d.status = .pending := by
  obtain ⟨o, -, hunsent⟩ := (Option.any_eq_true _ _).mp hgone
  rw [isUnsent, Bool.and_eq_true, Bool.not_eq_true'] at hunsent
  by_contra hsent
  rw [answered_iff.mpr ⟨j, d, hd, rfl, hsent⟩] at hunsent
  exact absurd hunsent.2 (by simp)

/-- Queued occurrences still ahead, for a recipient who just joined. -/
def listUpcoming (db : Database) (reminderId : ℕ) (after : ℤ) : List (ℕ × Occurrence) :=
  orderBy Occurrence.fireAt (db.occurrences.select fun _ o ↦
    decide (o.reminderId = reminderId) && decide (o.status = .pending) && decide (after < o.fireAt))

theorem mem_listUpcoming {db : Database} {reminderId i : ℕ} {after : ℤ} {o : Occurrence} :
    (i, o) ∈ listUpcoming db reminderId after ↔
      db.occurrences i = some o ∧ o.reminderId = reminderId ∧ o.status = .pending ∧
        after < o.fireAt := by
  rw [listUpcoming, mem_orderBy, Table.mem_select]
  simp only [Bool.and_eq_true, decide_eq_true_eq, and_assoc]

def setStatus (occurrenceId : ℕ) (status : OccurrenceStatus) : Statement := fun db ↦
  { occurrences := db.occurrences.update occurrenceId fun o ↦ { o with status := status } }

@[simp] theorem occurrences_setStatus (db : Database) (i : ℕ) (status : OccurrenceStatus) (j : ℕ) :
    (db.run (setStatus i status)).occurrences j =
      if j = i then (db.occurrences i).map fun o ↦ { o with status := status }
      else db.occurrences j := Table.writes_update ..

def bumpRepeats (occurrenceId : ℕ) : Statement := fun db ↦
  { occurrences := db.occurrences.update occurrenceId fun o ↦
      { o with repeatsSent := o.repeatsSent + 1 } }

@[simp] theorem occurrences_bumpRepeats (db : Database) (i j : ℕ) :
    (db.run (bumpRepeats i)).occurrences j =
      if j = i then (db.occurrences i).map fun o ↦ { o with repeatsSent := o.repeatsSent + 1 }
      else db.occurrences j := Table.writes_update ..

def allDeliveriesTerminal (db : Database) (occurrenceId : ℕ) : Bool :=
  decide (db.deliveries.count (fun d ↦
    decide (d.occurrenceId = occurrenceId) && !d.status.isTerminal) = 0)

theorem allDeliveriesTerminal_iff {db : Database} {occurrenceId : ℕ} :
    allDeliveriesTerminal db occurrenceId = true ↔
      ∀ j d, db.deliveries j = some d → d.occurrenceId = occurrenceId →
        d.status.isTerminal = true := by
  rw [allDeliveriesTerminal, decide_eq_true_iff, Table.count_eq_zero]
  refine forall_congr' fun j ↦ forall_congr' fun d ↦ imp_congr_right fun _ ↦ ?_
  by_cases hd : d.occurrenceId = occurrenceId <;> simp [hd]

def listExpired (db : Database) (now : ℤ) (limit : ℕ) : List (ℕ × Occurrence) :=
  (orderBy Occurrence.expiresAt (db.occurrences.select fun _ o ↦
    decide (o.expiresAt < now) && !o.status.isTerminal)).take limit

theorem mem_listExpired {db : Database} {now : ℤ} {limit : ℕ} {x : ℕ × Occurrence}
    (h : x ∈ listExpired db now limit) :
    db.occurrences x.1 = some x.2 ∧ x.2.expiresAt < now ∧ x.2.status.isTerminal = false := by
  have hmem := Table.mem_select.mp (mem_orderBy.mp (List.mem_of_mem_take h))
  rw [Bool.and_eq_true, decide_eq_true_eq, Bool.not_eq_true'] at hmem
  exact hmem

theorem nodup_listExpired (db : Database) (now : ℤ) (limit : ℕ) :
    ((listExpired db now limit).map Prod.fst).Nodup :=
  nodup_orderBy_ids.sublist ((List.take_sublist _ _).map _)

end Occurrences

end Remindo.Db
