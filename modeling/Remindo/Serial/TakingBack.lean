import Remindo.Serial.Changes
import Remindo.Serial.RollUp

namespace Remindo.Serial

open Remindo.Domain Remindo.Db Remindo.Services Remindo.Foundation

/-- Pausing (or archiving), a new schedule, and a departure. -/
def Operation.takesBack : Operation → Bool
  | .setStatus _ _ _ status => decide (status ≠ .active)
  | .update _ _ _ change => change.schedule.isSome
  | .leave .. => true
  | _ => false

/-- Delivered work is neither deleted nor changed, and the journal only grows. -/
def KeepsDelivered (w w' : World) : Prop :=
  (∀ j d, w.db.deliveries j = some d → d.sentAt.isSome = true → w'.db.deliveries j = some d) ∧
    ∀ k a, w.db.actions k = some a → w'.db.actions k = some a

def Journaled (db : Database) (j : ℕ) : Prop := ∃ k a, db.actions k = some a ∧ a.deliveryId = j

/-- What is about to be taken back is not waiting to go out once more: a
departure finds no delivery that a repeat, or a retry after one or after a
snooze, has put back into the queue; a pause or an edit none that its recipient
snoozed before it was sent. -/
def Operation.TakesFirstAttempts (w : World) : Operation → Prop
  | .leave _ userId reminderId => ∀ j d, w.db.deliveries j = some d →
      Deliveries.isPendingFor w.db reminderId userId d = true →
        d.sentAt = none ∧ ¬Journaled w.db j
  | .setStatus _ _ reminderId _ | .update _ _ reminderId _ => ∀ j d, w.db.deliveries j = some d →
      (w.db.occurrences d.occurrenceId).any
        (Occurrences.isUnsent w.db reminderId d.occurrenceId) = true → ¬Journaled w.db j
  | _ => True

/-- What has been sent belongs to an occurrence that is not pending. -/
def SentFirings (b : Board) : Prop :=
  ∀ j l, b.letters j = some l → l.sentAt.isSome = true →
    ∃ f, b.firings l.occurrenceId = some f ∧ f.status ≠ .pending

section Invariant

variable {g : Guard} {b b' : Board}

theorem SentFirings.setLetter (h : SentFirings b) {j : ℕ} {l : Letter} {status : DeliveryStatus}
    (hj : b.letters j = some l) : SentFirings (b.setLetter j { l with status := status }) := by
  intro k l' hl' hsent
  rw [Board.letters_setLetter] at hl'
  split at hl'
  · cases hl'
    exact h j l hj hsent
  · exact h k l' hl' hsent

theorem SentFirings.setFiring (h : SentFirings b) {i : ℕ} {f : Firing}
    (hstatus : f.status ≠ .pending) : SentFirings (b.setFiring i f) := by
  intro j l hl hsent
  rw [Board.firings_setFiring]
  split
  · exact ⟨f, rfl, hstatus⟩
  · exact h j l hl hsent

theorem SentFirings.change (h : SentFirings b) (hchange : Change g b b') : SentFirings b' := by
  cases hchange with
  | retry hj | giveUp hj | requeue hj | snooze hj | answer hj => exact h.setLetter hj
  | @send j l f t hj hqueued hi =>
    intro k l' hl' hsent
    change (b.setLetter j _).letters k = some l' at hl'
    change ∃ f', (b.setFiring l.occurrenceId _).firings l'.occurrenceId = some f' ∧ _
    rw [Board.letters_setLetter] at hl'
    rw [Board.firings_setFiring]
    split at hl'
    · cases hl'
      exact ⟨_, if_pos rfl, nofun⟩
    · split
      · exact ⟨_, rfl, nofun⟩
      · exact h k l' hl' hsent
  | close hi hopen hended hclosed =>
    exact h.setFiring (by rcases hclosed with rfl | rfl <;> simp)
  | expire hi hopen => exact h.setFiring (by simp)
  | plan hkept hnew =>
    intro j l hl hsent
    obtain ⟨f, hf, hstatus⟩ := h j l hl hsent
    exact ⟨f, hkept _ _ hf, hstatus⟩
  | cover hkept hnew =>
    intro j l hl hsent
    rcases hnew j l hl with hold | ⟨-, -, hunsent, -⟩
    · exact h j l hold hsent
    · simp [hunsent] at hsent
  | join hinvited hmay hkept hnew =>
    intro j l hl hsent
    rcases hnew j l hl with hold | ⟨-, -, hunsent, -⟩
    · exact h j l hold hsent
    · simp [hunsent] at hsent
  | invite | own | part => exact h
  | @withdraw _ _ gone hgone =>
    intro j l hl hsent
    change (if gone j then none else b.letters j) = some l at hl
    split at hl
    · cases hl
    · exact h j l hl hsent
  | @drop _ unsent gone hunsent hgone =>
    intro j l hl hsent
    change (if gone j then none else b.letters j) = some l at hl
    change ∃ f, (if unsent l.occurrenceId then none else b.firings l.occurrenceId) = some f ∧ _
    split at hl
    · cases hl
    · rename_i hkept
      rw [if_neg fun hi ↦ hkept ((hgone j).mpr ⟨l, hl, hi⟩)]
      exact h j l hl hsent

theorem sentFirings_run {settings : Settings} {users : Table User} {categories : Table Category}
    {ops : List Operation}
    {w : World} (hrun : run (perform settings) (.initial users categories) ops = some w) :
    SentFirings w.board :=
  run_board_free (fun _ _ h hchange ↦ h.change hchange) hrun fun _ _ h ↦ by cases h

end Invariant

section Effects

variable {db : Database} {p : ℕ → Delivery → Bool}

/-- A deletion keeps what it must exactly when it takes nothing delivered and
nothing journaled. -/
theorem keepsDelivered_iff {w w' : World}
    (hd : ∀ j, w'.db.deliveries j = (w.db.deliveries j).filter fun d ↦ !p j d)
    (ha : ∀ k, w'.db.actions k = (w.db.actions k).filter fun a ↦
      !(w.db.deliveries a.deliveryId).any (p a.deliveryId)) :
    KeepsDelivered w w' ↔ ∀ j d, w.db.deliveries j = some d → p j d = true →
      d.sentAt = none ∧ ¬Journaled w.db j := by
  constructor
  · intro ⟨hkept, hjournal⟩ j d hj hgone
    constructor
    · by_contra hsent
      have hrow := hkept j d hj (Option.isSome_iff_ne_none.mpr hsent)
      rw [hd, hj, Option.filter_some, hgone] at hrow
      cases hrow
    · intro ⟨k, a, hk, hparent⟩
      have hrow := hjournal k a hk
      rw [ha, hk, Option.filter_some, hparent, hj, Option.any_some, hgone] at hrow
      cases hrow
  · intro h
    constructor
    · intro j d hj hsent
      rw [hd, hj, Option.filter_some]
      cases hgone : p j d with
      | false => rfl
      | true => simp [(h j d hj hgone).1] at hsent
    · intro k a hk
      rw [ha, hk, Option.filter_some]
      cases hgone : (w.db.deliveries a.deliveryId).any (p a.deliveryId) with
      | false => rfl
      | true =>
        obtain ⟨d, hj, hgone⟩ := (Option.any_eq_true _ _).mp hgone
        exact absurd ⟨k, a, hk, rfl⟩ (h _ d hj hgone).2

/-- Nothing a pause or an edit takes back has been sent. -/
theorem SentFirings.unsent {w : World} (h : SentFirings w.board) {rid j : ℕ} {d : Delivery}
    (hd : w.db.deliveries j = some d) (hunsent : (w.db.occurrences d.occurrenceId).any
      (Occurrences.isUnsent w.db rid d.occurrenceId) = true) : d.sentAt = none := by
  by_contra hsent
  obtain ⟨f, hf, hstatus⟩ := h j _ (World.letters_of hd) (Option.isSome_iff_ne_none.mpr hsent)
  obtain ⟨o, ho, rfl⟩ := World.firing_some.mp hf
  rw [show w.db.occurrences d.occurrenceId = some o from ho, Option.any_some] at hunsent
  simp only [Occurrences.isUnsent, Bool.and_eq_true, decide_eq_true_eq] at hunsent
  exact hstatus hunsent.1.2

end Effects

/-- Taking back queued work leaves delivered work and the journal alone exactly
when nothing it takes back was waiting to go out once more. -/
theorem takes_back_first_attempts {settings : Settings} {users : Table User} {categories : Table Category}
    {ops : List Operation} {w w' : World} {op : Operation}
    (hrun : run (perform settings) (.initial users categories) ops = some w) (hback : op.takesBack = true)
    (h : perform settings w op = some w') : KeepsDelivered w w' ↔ op.TakesFirstAttempts w := by
  have hsent := sentFirings_run hrun
  have hdrop : ∀ (rid : ℕ) (r : Reminder), (∀ j, w'.db.deliveries j =
      (Reminders.dropQueued rid r w.db).deliveries j) →
      (∀ k, w'.db.actions k = (Reminders.dropQueued rid r w.db).actions k) →
      (KeepsDelivered w w' ↔ ∀ j d, w.db.deliveries j = some d →
        (w.db.occurrences d.occurrenceId).any
          (Occurrences.isUnsent w.db rid d.occurrenceId) = true → ¬Journaled w.db j) := by
    intro rid r hdeliveries hactions
    rw [keepsDelivered_iff
      (fun j ↦ (hdeliveries j).trans (Reminders.dropQueued_deliveries rid r w.db j))
      fun k ↦ (hactions k).trans (Reminders.dropQueued_actions rid r w.db k)]
    refine forall_congr' fun j ↦ forall_congr' fun d ↦ forall_congr' fun hd ↦
      forall_congr' fun hunsent ↦ ?_
    exact and_iff_right (hsent.unsent hd hunsent)
  cases op with
  | setStatus now ownerId rid status =>
    obtain ⟨db', hdb, rfl⟩ := over_eq_some h
    obtain ⟨r, -, rfl⟩ := Reminders.setStatus_eq_ok hdb
    rw [if_neg (of_decide_eq_true hback)] at hdrop ⊢
    exact hdrop rid r (fun _ ↦ rfl) fun _ ↦ rfl
  | update now ownerId rid change =>
    obtain ⟨db', hdb, rfl⟩ := over_eq_some h
    obtain ⟨r, -, -, rfl⟩ := Reminders.update_eq_ok hdb
    rw [if_pos (show change.schedule.isSome = true from hback)] at hdrop ⊢
    exact hdrop rid r (fun _ ↦ rfl) fun _ ↦ rfl
  | leave now userId rid =>
    cases h
    exact keepsDelivered_iff (p := fun _ d ↦ Deliveries.isPendingFor w.db rid userId d)
      (fun j ↦ Table.writes_deleteWhere ..) fun k ↦ Table.writes_deleteWhere ..
  | _ => cases hback

section Sample

instance (w w' : World) : Decidable (KeepsDelivered w w') :=
  decidable_of_iff ((∀ x ∈ w.db.deliveries.select (fun _ d ↦ d.sentAt.isSome),
      w'.db.deliveries x.1 = some x.2) ∧
    ∀ x ∈ w.db.actions.select (fun _ _ ↦ true), w'.db.actions x.1 = some x.2) <| by
    refine and_congr ⟨fun h j d hd hsent ↦ h (j, d) (Table.mem_select.mpr ⟨hd, hsent⟩),
      fun h x hx ↦ ?_⟩ ⟨fun h k a ha ↦ h (k, a) (Table.mem_select.mpr ⟨ha, rfl⟩), fun h x hx ↦ ?_⟩
    · obtain ⟨hd, hsent⟩ := Table.mem_select.mp hx
      exact h x.1 x.2 hd hsent
    · exact h x.1 x.2 (Table.mem_select.mp hx).1

/-- Both recipients have the message; the watcher snoozes it. -/
def watcherSnoozes : List Operation :=
  [.create 0 0 sampleDraft, .issueInvite 0 0 0 "link", .openInvite 0 "link" 1, .accept 0 1 0,
    .materialize 0, .deliver (5 * day) (answering [] (5 * day)), .react (5 * day) 1 1 .snooze]

/-- The transport fails the watcher's redelivery for a while. -/
def redeliveryFails : List Operation :=
  watcherSnoozes ++ [.deliver (5 * day + hour) (answering
    [.delivered 7, .failed .transient none "TelegramNetworkError"] (5 * day + hour))]

theorem watcherSnoozes_runs :
    (run (perform sampleSettings) (.initial sampleUsers sampleCategories) watcherSnoozes).isSome =
    true := by
  decide +kernel

/-- The departure leaves the snoozed message alone. -/
theorem takes_back_first_attempts_sample :
    ∃ w w', run (perform sampleSettings) (.initial sampleUsers sampleCategories) watcherSnoozes = some w ∧
      perform sampleSettings w (.leave (5 * day) 1 0) = some w' ∧
        (KeepsDelivered w w' ↔ (Operation.leave (5 * day) 1 0).TakesFirstAttempts w) := by
  have hrun : run (perform sampleSettings) (.initial sampleUsers sampleCategories) watcherSnoozes =
      some ((run (perform sampleSettings) (.initial sampleUsers sampleCategories) watcherSnoozes).get
        watcherSnoozes_runs) := (Option.some_get _).symm
  exact ⟨_, _, hrun, rfl, takes_back_first_attempts hrun rfl rfl⟩

/-- The departure deletes the message the watcher had on screen, and with it
the snooze in the journal. -/
theorem leave_deletes_delivered :
    ∃ w w', run (perform sampleSettings) (.initial sampleUsers sampleCategories) redeliveryFails = some w ∧
      perform sampleSettings w (.leave (6 * day) 1 0) = some w' ∧ ¬KeepsDelivered w w' ∧
        (∃ d, w.db.deliveries 1 = some d ∧ d.sentAt.isSome = true ∧
          w'.db.deliveries 1 = none) ∧
        ∃ a, w.db.actions 0 = some a ∧ a.kind = .snooze ∧ w'.db.actions 0 = none := by
  have hlost :
    (run (perform sampleSettings) (.initial sampleUsers sampleCategories) redeliveryFails).any (fun w ↦
      (perform sampleSettings w (.leave (6 * day) 1 0)).any fun w' ↦
        decide (¬KeepsDelivered w w') &&
          ((w.db.deliveries 1).any (fun d ↦ d.sentAt.isSome) &&
            decide (w'.db.deliveries 1 = none)) &&
          ((w.db.actions 0).any (fun a ↦ decide (a.kind = .snooze)) &&
            decide (w'.db.actions 0 = none))) = true := by
    decide +kernel
  obtain ⟨w, hrun, hlost⟩ := (Option.any_eq_true _ _).mp hlost
  obtain ⟨w', hleave, hlost⟩ := (Option.any_eq_true _ _).mp hlost
  simp only [Bool.and_eq_true, decide_eq_true_eq, Option.any_eq_true] at hlost
  obtain ⟨⟨hkeeps, ⟨d, hd, hsent⟩, hgone⟩, ⟨a, ha, hkind⟩, herased⟩ := hlost
  exact ⟨w, w', hrun, hleave, hkeeps, ⟨d, hd, hsent, hgone⟩, a, ha, hkind, herased⟩

end Sample

end Remindo.Serial
