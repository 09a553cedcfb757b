import Remindo.Db.Repositories
import Remindo.Foundation.ReadCommitted

namespace Remindo.Db

open Remindo.Foundation Remindo.Foundation.ReadCommitted

/-- What a transaction can hold: a row, the right of a row to have children,
or a key of a unique index. -/
inductive Lock
  | user (id : ℕ) | reminder (id : ℕ) | recipient (id : ℕ) | invite (id : ℕ)
  | occurrence (id : ℕ) | delivery (id : ℕ) | action (id : ℕ)
  | occurrenceParent (id : ℕ) | deliveryParent (id : ℕ)
  | recipientKey (key : ℕ × ℕ) | occurrenceKey (key : ℕ × ℤ) | deliveryKey (key : ℕ × ℕ)
  | inviteToken (token : String) | liveInvite (reminderId : ℕ)
  deriving DecidableEq

def rowLocks {α : Type} (lock : ℕ → Lock) (ws : List (ℕ × Option α)) : List Lock :=
  ws.map fun w ↦ lock w.1

def keyLocks {α κ : Type} (key : α → κ) (lock : κ → Lock) (ws : List (ℕ × Option α)) :
    List Lock := ws.filterMap fun w ↦ w.2.map fun r ↦ lock (key r)

def Writes.locks (w : Writes) : List Lock :=
  rowLocks .user w.users ++ rowLocks .reminder w.reminders ++ rowLocks .recipient w.recipients ++
    rowLocks .invite w.invites ++ rowLocks .occurrence w.occurrences ++
    rowLocks .delivery w.deliveries ++ rowLocks .action w.actions ++
    keyLocks Recipient.key .recipientKey w.recipients ++
    keyLocks Occurrence.key .occurrenceKey w.occurrences ++
    keyLocks Delivery.key .deliveryKey w.deliveries

instance : Store Writes Database Lock := ⟨Database.apply, Database.touch, Writes.locks⟩

section Guards

variable (i : ℕ)

theorem mem_rowLocks {α : Type} {lock : ℕ → Lock} {ws : List (ℕ × Option α)} {l : Lock} :
    l ∈ rowLocks lock ws ↔ ∃ j ∈ ws.map Prod.fst, lock j = l := by
  simp [rowLocks]

theorem mem_keyLocks {α κ : Type} {key : α → κ} {lock : κ → Lock} {ws : List (ℕ × Option α)}
    {l : Lock} : l ∈ keyLocks key lock ws ↔ ∃ j r, (j, some r) ∈ ws ∧ lock (key r) = l := by
  simp [keyLocks]

theorem guards_table {α : Type} {l : Lock} {table : Database → Table α}
    {column : Writes → List (ℕ × Option α)}
    (happly : ∀ db w, table (apply db w) = (table db).writes (column w))
    (htouch : ∀ db w, table (touch db w) = (table db).touches (column w))
    (hlock : ∀ w : Writes, l ∈ locks w ↔ i ∈ (column w).map Prod.fst) :
    Guards Writes l fun db : Database ↦ table db i where
  of_notMem db w h := by
    rw [happly]
    exact Table.writes_apply_of_notMem fun hi ↦ h ((hlock w).mpr hi)
  of_mem db db' w h := by
    rw [happly, happly]
    exact Table.writes_apply_congr (.inr ((hlock w).mp h))
  of_touch db w := by rw [htouch, Table.touches_apply]

theorem guards_reminders : Guards Writes (.reminder i) fun db : Database ↦ db.reminders i :=
  guards_table i (fun _ _ ↦ rfl) (fun _ _ ↦ rfl) fun w ↦ by
    simp [locks, Writes.locks, mem_rowLocks, mem_keyLocks]

theorem guards_recipients : Guards Writes (.recipient i) fun db : Database ↦ db.recipients i :=
  guards_table i (fun _ _ ↦ rfl) (fun _ _ ↦ rfl) fun w ↦ by
    simp [locks, Writes.locks, mem_rowLocks, mem_keyLocks]

theorem guards_invites : Guards Writes (.invite i) fun db : Database ↦ db.invites i :=
  guards_table i (fun _ _ ↦ rfl) (fun _ _ ↦ rfl) fun w ↦ by
    simp [locks, Writes.locks, mem_rowLocks, mem_keyLocks]

theorem guards_occurrences : Guards Writes (.occurrence i) fun db : Database ↦ db.occurrences i :=
  guards_table i (fun _ _ ↦ rfl) (fun _ _ ↦ rfl) fun w ↦ by
    simp [locks, Writes.locks, mem_rowLocks, mem_keyLocks]

theorem guards_deliveries : Guards Writes (.delivery i) fun db : Database ↦ db.deliveries i :=
  guards_table i (fun _ _ ↦ rfl) (fun _ _ ↦ rfl) fun w ↦ by
    simp [locks, Writes.locks, mem_rowLocks, mem_keyLocks]

theorem guards_actions : Guards Writes (.action i) fun db : Database ↦ db.actions i :=
  guards_table i (fun _ _ ↦ rfl) (fun _ _ ↦ rfl) fun w ↦ by
    simp [locks, Writes.locks, mem_rowLocks, mem_keyLocks]

end Guards

/-- The rows of a database, without the sequences behind them. -/
structure Rows where
  reminders : ℕ → Option Reminder
  recipients : ℕ → Option Recipient
  occurrences : ℕ → Option Occurrence
  deliveries : ℕ → Option Delivery

def Database.rows (db : Database) : Rows :=
  ⟨db.reminders, db.recipients, db.occurrences, db.deliveries⟩

/-- While others move, a row that a session sees is either its own, and stays,
or the committed one, before and after. -/
structure Beside (view committed view' committed' : Rows) : Prop where
  reminders : ∀ i, view'.reminders i = view.reminders i ∧
      committed'.reminders i = committed.reminders i ∨
    view'.reminders i = committed'.reminders i ∧ view.reminders i = committed.reminders i
  recipients : ∀ i, view'.recipients i = view.recipients i ∧
      committed'.recipients i = committed.recipients i ∨
    view'.recipients i = committed'.recipients i ∧ view.recipients i = committed.recipients i
  occurrences : ∀ i, view'.occurrences i = view.occurrences i ∧
      committed'.occurrences i = committed.occurrences i ∨
    view'.occurrences i = committed'.occurrences i ∧ view.occurrences i = committed.occurrences i
  deliveries : ∀ i, view'.deliveries i = view.deliveries i ∧
      committed'.deliveries i = committed.deliveries i ∨
    view'.deliveries i = committed'.deliveries i ∧ view.deliveries i = committed.deliveries i

section Rows

variable {P I : Type} {s s' : System Database Writes Lock P} {i j : ℕ}

theorem rows_view_exec (w : Writes) (held shared : List Lock) (next : P) :
    ((s.exec i w held shared next).view i).rows = (apply (s.view i) w).rows := by
  rw [Database.rows, Database.rows, Rows.mk.injEq]
  exact ⟨funext fun k ↦ (guards_reminders k).view_exec_self _ _ _ _,
    funext fun k ↦ (guards_recipients k).view_exec_self _ _ _ _,
    funext fun k ↦ (guards_occurrences k).view_exec_self _ _ _ _,
    funext fun k ↦ (guards_deliveries k).view_exec_self _ _ _ _⟩

theorem rows_committed_exec (w : Writes) (held shared : List Lock) (next : P) :
    (s.exec i w held shared next).committed.rows = s.committed.rows := by
  rw [Database.rows, Database.rows, Rows.mk.injEq]
  exact ⟨funext fun k ↦ (guards_reminders k).committed_exec _ _ _ _,
    funext fun k ↦ (guards_recipients k).committed_exec _ _ _ _,
    funext fun k ↦ (guards_occurrences k).committed_exec _ _ _ _,
    funext fun k ↦ (guards_deliveries k).committed_exec _ _ _ _⟩

theorem beside_step {program : Program Database Writes Lock P I} {idle : P} {e : Event I}
    (hstep : Step program idle s e s') (hown : s.Owned) (hj : j ≠ e.by) :
    Beside (s.view j).rows s.committed.rows (s'.view j).rows s'.committed.rows where
  reminders k := (guards_reminders k).view_other hstep hown hj
  recipients k := (guards_recipients k).view_other hstep hown hj
  occurrences k := (guards_occurrences k).view_other hstep hown hj
  deliveries k := (guards_deliveries k).view_other hstep hown hj

end Rows

end Remindo.Db
