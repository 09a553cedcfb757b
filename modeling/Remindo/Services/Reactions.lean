import Remindo.Db.Repositories
import Remindo.Domain.Reactions

namespace Remindo.Services

open Remindo.Domain Remindo.Db

/-- A row the service cannot do without. -/
def require {α : Type} : Option α → Except ServiceError α
  | some a => .ok a
  | none => .error .notFound

def demand (p : Prop) [Decidable p] (error : ServiceError) : Except ServiceError Unit :=
  if p then .ok () else .error error

theorem bind_eq_ok {ε α β : Type} {x : Except ε α} {f : α → Except ε β} {b : β} :
    (x >>= f) = .ok b ↔ ∃ a, x = .ok a ∧ f a = .ok b := by
  cases x with
  | error e => exact ⟨nofun, nofun⟩
  | ok a =>
    refine ⟨fun h ↦ ⟨a, rfl, h⟩, fun ⟨_, ha, h⟩ ↦ ?_⟩
    cases ha
    exact h

theorem bind_eq_error {ε α β : Type} {x : Except ε α} {f : α → Except ε β} {e : ε} :
    (x >>= f) = .error e ↔ x = .error e ∨ ∃ a, x = .ok a ∧ f a = .error e := by
  cases x with
  | error e' =>
    refine ⟨fun h ↦ ?_, ?_⟩
    · cases h
      exact .inl rfl
    · rintro (h | ⟨a, ha, -⟩)
      · cases h
        rfl
      · cases ha
  | ok a =>
    refine ⟨fun h ↦ .inr ⟨a, rfl, h⟩, ?_⟩
    rintro (ha | ⟨a', ha, h⟩)
    · cases ha
    · cases ha
      exact h

theorem require_eq_ok {α : Type} {x : Option α} {a : α} : require x = .ok a ↔ x = some a := by
  cases x with
  | none => exact ⟨nofun, nofun⟩
  | some b => simp [require]

theorem require_eq_error {α : Type} {x : Option α} {e : ServiceError} :
    require x = .error e ↔ x = none ∧ e = .notFound := by
  cases x with
  | none => simp [require, eq_comm]
  | some b => simp [require]

theorem demand_eq_ok {p : Prop} [Decidable p] {error : ServiceError} {u : Unit} :
    demand p error = .ok u ↔ p := by
  by_cases h : p <;> simp [demand, h]

theorem demand_eq_error {p : Prop} [Decidable p] {error e : ServiceError} :
    demand p error = .error e ↔ ¬p ∧ error = e := by
  by_cases h : p <;> simp [demand, h]

inductive Action
  | done | snooze | skip
  deriving DecidableEq, Repr

def Action.kind : Action → ActionKind
  | .done => .done
  | .snooze => .snooze
  | .skip => .skip

/-- Outcome of one tap; `reason` is set exactly when nothing was applied. -/
structure ReactionResult where
  applied : Bool
  kind : ActionKind
  status : DeliveryStatus
  snoozedUntil : Option ℤ
  reason : Option RejectReason

namespace Reactions

/-- The columns an accepted tap writes; the lease is dropped with it. -/
def values (reaction : Reaction) (d : Delivery) : Delivery :=
  { d with
    status := reaction.status
    lockedUntil := none
    reactedAt := reaction.reactedAt <|> d.reactedAt
    snoozedUntil := reaction.snoozedUntil <|> d.snoozedUntil
    nextAttemptAt := reaction.snoozedUntil.getD d.nextAttemptAt }

def journalEntry (deliveryId userId : ℕ) (reaction : Reaction) (now : ℤ) (snoozeMinutes : ℕ) :
    DeliveryAction where
  deliveryId := deliveryId
  userId := userId
  kind := reaction.kind
  minutes := if reaction.kind = .snooze then some snoozeMinutes else none
  createdAt := now

def write (deliveryId userId : ℕ) (reaction : Reaction) (now : ℤ) (snoozeMinutes : ℕ)
    (db : Database) : Database :=
  (db.run (Deliveries.updateFields deliveryId (values reaction))).run
    (Deliveries.addAction (journalEntry deliveryId userId reaction now snoozeMinutes))

/-- Roll the occurrence up once its last recipient has answered. -/
def closeOccurrence (occurrenceId : ℕ) (reaction : Reaction) (db : Database) : Database :=
  if reaction.isTerminal then
    match rollUpOccurrence reaction.kind (Occurrences.allDeliveriesTerminal db occurrenceId) with
    | some status => db.run (Occurrences.setStatus occurrenceId status)
    | none => db
  else db

theorem deliveries_closeOccurrence (occurrenceId : ℕ) (reaction : Reaction) (db : Database) :
    (closeOccurrence occurrenceId reaction db).deliveries = db.deliveries := by
  rw [closeOccurrence]
  split
  · split <;> rfl
  · rfl

theorem actions_closeOccurrence (occurrenceId : ℕ) (reaction : Reaction) (db : Database) :
    (closeOccurrence occurrenceId reaction db).actions = db.actions := by
  rw [closeOccurrence]
  split
  · split <;> rfl
  · rfl

theorem closeOccurrence_eq (occurrenceId : ℕ) {reaction : Reaction} (db : Database)
    {status : OccurrenceStatus} (hterminal : reaction.isTerminal = true)
    (hrollup : occurrenceRollup reaction.kind = some status) :
    closeOccurrence occurrenceId reaction db =
      if Occurrences.allDeliveriesTerminal db occurrenceId then
        db.run (Occurrences.setStatus occurrenceId status)
      else db := by
  rw [closeOccurrence, if_pos hterminal, rollUpOccurrence]
  cases Occurrences.allDeliveriesTerminal db occurrenceId with
  | true => rw [if_pos rfl, if_pos rfl, hrollup]
  | false => rw [if_neg (by simp), if_neg (by simp)]

/-- Apply one tap. -/
def react (db : Database) (now : ℤ) (deliveryId userId : ℕ) (action : Action) :
    Except ServiceError (ReactionResult × Database) := do
  let d ← require (db.deliveries deliveryId)
  demand (d.userId = userId) .permissionDenied
  let o ← require (db.occurrences d.occurrenceId)
  match checkReactable action.kind d.status o.status o.expiresAt d.snoozedUntil now with
  | some reason => return (⟨false, action.kind, d.status, none, some reason⟩, db)
  | none =>
    let r ← require (db.reminders o.reminderId)
    let u ← require (db.users userId)
    let reaction ← decideReaction action.kind now r.snoozeMinutes (quietHoursOf u) o.expiresAt
    let db := write deliveryId userId reaction now r.snoozeMinutes db
    return (⟨true, reaction.kind, reaction.status, reaction.snoozedUntil, none⟩,
      closeOccurrence d.occurrenceId reaction db)

/-- What a call that answers the user has done. -/
theorem react_eq_ok {db db' : Database} {now : ℤ} {deliveryId userId : ℕ} {action : Action}
    {result : ReactionResult} (h : react db now deliveryId userId action = .ok (result, db')) :
    result.applied = false ∧ db' = db ∨ result.applied = true ∧
      ∃ d o r u reaction, db.deliveries deliveryId = some d ∧ d.userId = userId ∧
      db.occurrences d.occurrenceId = some o ∧ db.reminders o.reminderId = some r ∧
      checkReactable action.kind d.status o.status o.expiresAt d.snoozedUntil now = none ∧
      decideReaction action.kind now r.snoozeMinutes (quietHoursOf u) o.expiresAt = .ok reaction ∧
      db' = closeOccurrence d.occurrenceId reaction
        (write deliveryId userId reaction now r.snoozeMinutes db) := by
  obtain ⟨d, hd, h⟩ := bind_eq_ok.mp h
  obtain ⟨_, huser, h⟩ := bind_eq_ok.mp h
  obtain ⟨o, ho, h⟩ := bind_eq_ok.mp h
  split at h
  · cases h
    exact .inl ⟨rfl, rfl⟩
  · rename_i hopen
    obtain ⟨r, hr, h⟩ := bind_eq_ok.mp h
    obtain ⟨u, hu, h⟩ := bind_eq_ok.mp h
    obtain ⟨reaction, hreaction, h⟩ := bind_eq_ok.mp h
    cases h
    exact .inr ⟨rfl, d, o, r, u, reaction, require_eq_ok.mp hd, demand_eq_ok.mp huser,
      require_eq_ok.mp ho, require_eq_ok.mp hr, hopen, hreaction, rfl⟩

end Reactions

end Remindo.Services
