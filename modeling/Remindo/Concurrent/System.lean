import Remindo.Concurrent.Calendar
import Remindo.Services.Planning

namespace Remindo.Concurrent

open Remindo.Domain Remindo.Db Remindo.Services Remindo.Foundation.ReadCommitted

/-- What a session is in the middle of. -/
inductive Stage
  | idle
  | reacting (s : Reacting.Stage)
  | delivering (s : Delivering.Stage)
  | sweeping (s : Sweeping.Stage)
  | materializing (s : Materializing.Stage)
  | joining (s : Joining.Stage)
  | editing (s : Editing.Stage)

/-- What moves a session on: a call, the gateway's answer, or just its turn. -/
inductive Input
  | react (tap : Reacting.Tap)
  | deliver (now : ℤ)
  | answer (result : SendResult) (now : ℤ)
  | sweep (now : ℤ)
  | materialize (now : ℤ)
  | accept (request : Joining.Request)
  | edit (request : Editing.Request)
  | go

def Input.result : Input → Option (SendResult × ℤ)
  | .answer result now => some (result, now)
  | _ => none

def Stage.of {S : Type} (f : S → Stage) : Option S → Stage
  | none => .idle
  | some s => f s

def program (settings : Settings) : Program Database Writes Lock Stage Input
  | .idle, .react tap, _, db => some ((Reacting.start tap db).map (.of .reacting))
  | .idle, .deliver now, locked, db =>
    some ((Delivering.start settings.lockFor settings.dispatcherBatch now locked db).map
      (.of .delivering))
  | .idle, .sweep now, _, db =>
    some ((Sweeping.start settings.reaperBatch now db).map (.of .sweeping))
  | .idle, .materialize now, _, db =>
    some ((Materializing.start settings.planning now db).map (.of .materializing))
  | .idle, .accept request, _, db => some ((Joining.start request db).map (.of .joining))
  | .idle, .edit request, _, db => some ((Editing.start request db).map (.of .editing))
  | .idle, _, _, _ => none
  | .reacting s, _, _, db => some ((Reacting.move s db).map (.of .reacting))
  | .delivering s, input, _, db =>
    (Delivering.move s input.result db).map fun m ↦ m.map (.of .delivering)
  | .sweeping s, _, _, db =>
    some ((Sweeping.move settings.reaperBatch s db).map (.of .sweeping))
  | .materializing s, _, _, db =>
    some ((Materializing.move settings.planning s db).map (.of .materializing))
  | .joining s, _, _, db => some ((Joining.move s db).map (.of .joining))
  | .editing s, _, _, db => some ((Editing.move s db).map (.of .editing))

def Input.isQueue : Input → Bool
  | .accept _ | .edit _ => false
  | _ => true

/-- What the planner, the dispatcher, the reaper and the taps do, as long as
nobody shares or edits a reminder. -/
def queue (settings : Settings) : Program Database Writes Lock Stage Input :=
  fun s input locked db ↦ if input.isQueue then program settings s input locked db else none

abbrev Sessions := System Database Writes Lock Stage

section Shapes

variable {view : Database} {w : Writes} {held shared awaited : List Lock}

theorem read_eq_exec {S : Type} {s : S} {next : Option S}
    (h : read s = .exec w held shared awaited next) : w = {} ∧ next = some s := by
  cases h
  exact ⟨rfl, rfl⟩

theorem enqueue_eq_exec {S : Type} {rows : List Delivery} {s : S} {next : Option S}
    (h : enqueue rows view s = .exec w held shared awaited next) :
    w = Deliveries.insertMissing rows view ∧ next = some s := by
  rw [enqueue] at h
  split at h
  · cases h
    exact ⟨rfl, rfl⟩
  · cases h

/-- A transaction of the services leaves nothing behind when it ends. -/
theorem Reacting.move_ends {r : Reacting.Stage} {next : Option Reacting.Stage} :
    Reacting.move r view = .commit next ∨ Reacting.move r view = .rollback next → next = none := by
  fun_cases Reacting.move r view <;> simp_all [read, journal]

theorem Sweeping.move_ends {batch : ℕ} {r : Sweeping.Stage} {next : Option Sweeping.Stage} :
    Sweeping.move batch r view = .commit next ∨ Sweeping.move batch r view = .rollback next →
      next = none := by
  fun_cases Sweeping.move batch r view <;> simp_all [read, journal]

theorem Materializing.move_ends {settings : Planning.Settings} {r : Materializing.Stage}
    {next : Option Materializing.Stage} :
    Materializing.move settings r view = .commit next ∨
      Materializing.move settings r view = .rollback next → next = none := by
  fun_cases Materializing.move settings r view <;> grind [read, enqueue]

theorem Joining.move_ends {r : Joining.Stage} {next : Option Joining.Stage} :
    Joining.move r view = .commit next ∨ Joining.move r view = .rollback next → next = none := by
  fun_cases Joining.move r view <;> grind [read, enqueue]

theorem Editing.move_ends {r : Editing.Stage} {next : Option Editing.Stage} :
    Editing.move r view = .commit next ∨ Editing.move r view = .rollback next → next = none := by
  fun_cases Editing.move r view <;> simp_all [read]

theorem Reacting.start_ends {tap : Reacting.Tap} {next : Option Reacting.Stage} :
    Reacting.start tap view = .commit next ∨ Reacting.start tap view = .rollback next →
      next = none := by
  fun_cases Reacting.start tap view <;> simp_all

theorem Joining.start_ends {request : Joining.Request} {next : Option Joining.Stage} :
    Joining.start request view = .commit next ∨ Joining.start request view = .rollback next →
      next = none := by
  fun_cases Joining.start request view <;> simp_all [read]

theorem Editing.start_ends {request : Editing.Request} {next : Option Editing.Stage} :
    Editing.start request view = .commit next ∨ Editing.start request view = .rollback next →
      next = none := by
  fun_cases Editing.start request view <;> simp_all [read]

theorem Delivering.move_rollback {r : Delivering.Stage} {answer : Option (SendResult × ℤ)}
    {next : Option Delivering.Stage} :
    Delivering.move r answer view = some (.rollback next) → next = none := by
  fun_cases Delivering.move r answer view <;> simp_all [read]

end Shapes

section Ends

variable {settings : Settings} {s next : Stage} {input : Input} {locked : Lock → Bool}
  {db : Database}

theorem program_rollback (h : program settings s input locked db = some (.rollback next)) :
    next = .idle := by
  cases s with
  | idle =>
    cases input with
    | react tap =>
      obtain ⟨r, hmove, rfl⟩ := Move.map_eq_rollback (Option.some_inj.mp h)
      rw [Reacting.start_ends (.inr hmove)]
      rfl
    | accept request =>
      obtain ⟨r, hmove, rfl⟩ := Move.map_eq_rollback (Option.some_inj.mp h)
      rw [Joining.start_ends (.inr hmove)]
      rfl
    | edit request =>
      obtain ⟨r, hmove, rfl⟩ := Move.map_eq_rollback (Option.some_inj.mp h)
      rw [Editing.start_ends (.inr hmove)]
      rfl
    | deliver now => cases h
    | sweep now => cases h
    | materialize now => cases h
    | answer result now => cases h
    | go => cases h
  | reacting r =>
    obtain ⟨r, hmove, rfl⟩ := Move.map_eq_rollback (Option.some_inj.mp h)
    rw [Reacting.move_ends (.inr hmove)]
    rfl
  | delivering r =>
    obtain ⟨m, hmove, hmap⟩ := Option.map_eq_some_iff.mp h
    obtain ⟨r, rfl, rfl⟩ := Move.map_eq_rollback hmap
    rw [Delivering.move_rollback hmove]
    rfl
  | sweeping r =>
    obtain ⟨r, hmove, rfl⟩ := Move.map_eq_rollback (Option.some_inj.mp h)
    rw [Sweeping.move_ends (.inr hmove)]
    rfl
  | materializing r =>
    obtain ⟨r, hmove, rfl⟩ := Move.map_eq_rollback (Option.some_inj.mp h)
    rw [Materializing.move_ends (.inr hmove)]
    rfl
  | joining r =>
    obtain ⟨r, hmove, rfl⟩ := Move.map_eq_rollback (Option.some_inj.mp h)
    rw [Joining.move_ends (.inr hmove)]
    rfl
  | editing r =>
    obtain ⟨r, hmove, rfl⟩ := Move.map_eq_rollback (Option.some_inj.mp h)
    rw [Editing.move_ends (.inr hmove)]
    rfl

/-- Only the dispatcher goes on after a commit. -/
theorem program_commit (h : program settings s input locked db = some (.commit next)) :
    next = .idle ∧ s ≠ .idle ∨ ∃ r r', s = .delivering r ∧ next = .of .delivering r' ∧
      Delivering.move r input.result db = some (.commit r') := by
  cases s with
  | idle =>
    cases input with
    | react tap =>
      obtain ⟨r, hmove, rfl⟩ := Move.map_eq_commit (Option.some_inj.mp h)
      rw [Reacting.start] at hmove
      split at hmove <;> cases hmove
    | accept request =>
      obtain ⟨r, hmove, rfl⟩ := Move.map_eq_commit (Option.some_inj.mp h)
      rw [Joining.start] at hmove
      split at hmove
      · cases hmove
      · split at hmove <;> cases hmove
    | edit request =>
      obtain ⟨r, hmove, rfl⟩ := Move.map_eq_commit (Option.some_inj.mp h)
      rw [Editing.start] at hmove
      split at hmove
      · cases hmove
      · split at hmove <;> cases hmove
    | deliver now => cases h
    | sweep now => cases h
    | materialize now => cases h
    | answer result now => cases h
    | go => cases h
  | reacting r =>
    obtain ⟨r, hmove, rfl⟩ := Move.map_eq_commit (Option.some_inj.mp h)
    rw [Reacting.move_ends (.inl hmove)]
    exact .inl ⟨rfl, nofun⟩
  | delivering r =>
    obtain ⟨m, hmove, hmap⟩ := Option.map_eq_some_iff.mp h
    obtain ⟨r', rfl, rfl⟩ := Move.map_eq_commit hmap
    exact .inr ⟨r, r', rfl, rfl, hmove⟩
  | sweeping r =>
    obtain ⟨r, hmove, rfl⟩ := Move.map_eq_commit (Option.some_inj.mp h)
    rw [Sweeping.move_ends (.inl hmove)]
    exact .inl ⟨rfl, nofun⟩
  | materializing r =>
    obtain ⟨r, hmove, rfl⟩ := Move.map_eq_commit (Option.some_inj.mp h)
    rw [Materializing.move_ends (.inl hmove)]
    exact .inl ⟨rfl, nofun⟩
  | joining r =>
    obtain ⟨r, hmove, rfl⟩ := Move.map_eq_commit (Option.some_inj.mp h)
    rw [Joining.move_ends (.inl hmove)]
    exact .inl ⟨rfl, nofun⟩
  | editing r =>
    obtain ⟨r, hmove, rfl⟩ := Move.map_eq_commit (Option.some_inj.mp h)
    rw [Editing.move_ends (.inl hmove)]
    exact .inl ⟨rfl, nofun⟩

end Ends

section Sample

def sampleSettings : Settings := ⟨⟨14 * day, day, 100⟩, minute, 10, 100⟩

/-- Once, on the sixth day at midnight. -/
def sampleReminder : Reminder where
  ownerId := 0
  categoryId := 0
  status := .active
  schedule := .once ⟨5, .oclock 0⟩
  timezone := .utc
  startsAt := 0
  endsAt := none
  maxOccurrences := none
  firedCount := 1
  snoozeMinutes := 10
  repeatAfterMinutes := none
  maxRepeats := 2
  plannedUntil := some (14 * day)

def sampleOccurrence (status : OccurrenceStatus) : Occurrence :=
  ⟨0, 5 * day, 5 * day, status, 0, 6 * day⟩

def sampleDelivery (userId : ℕ) (status : DeliveryStatus) : Delivery :=
  { Deliveries.queued 0 userId (5 * day) with status := status }

/-- An owner and a watcher, with these rows in the queue. -/
def sampleDb (occurrences : List Occurrence) (deliveries : List Delivery) : Database where
  users := .ofList [{ timezone := .utc }, { timezone := .utc }]
  categories := .empty
  reminders := .ofList [sampleReminder]
  recipients := .ofList [⟨0, 0, .owner, some 0⟩, ⟨0, 1, .watcher, some 0⟩]
  invites := .empty
  occurrences := .ofList occurrences
  deliveries := .ofList deliveries
  actions := .empty

def going (i n : ℕ) : List (Event Input) := List.replicate n (.move i .go)

/-- Session `i` takes the tap of delivery `j`, whose user has the same number. -/
def tapBy (i j : ℕ) (action : Action) : Event Input := .move i (.react ⟨5 * day, j, j, action⟩)

end Sample

end Remindo.Concurrent
