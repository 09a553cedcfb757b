import Remindo.Bot.Manage
import Remindo.Serial.Watermark

namespace Remindo.Serial

open Remindo.Domain Remindo.Db Remindo.Services Remindo.Foundation
open Remindo.Bot.Manage (Conversation Update Pressed Fits InRange handle handle_pressed handle_wrote
  saved_minutes)

/-- The database and the outbox, and what every user is being asked. -/
structure Chats where
  world : World
  conversations : ℕ → Conversation

inductive ChatEvent
  | handle (now : ℤ) (userId : ℕ) (update : Update)
  | operation (op : Operation)

/-- The operations that only the handlers ask for. -/
def Operation.isEdit : Operation → Bool
  | .create .. | .update .. => true
  | _ => false

namespace Chats

def initial (users : Table User) (categories : Table Category) : Chats :=
  ⟨.initial users categories, fun _ ↦ .idle⟩

/-- A handler that raises has written nothing and leaves the conversation as it is. -/
def step (digits : Digits) (settings : Settings) (s : Chats) : ChatEvent → Option Chats
  | .handle now userId update =>
    match handle digits s.world.db now userId (s.conversations userId) update with
    | .ok (db, conversation) =>
      some ⟨{ s.world with db := db }, Function.update s.conversations userId conversation⟩
    | .error _ => none
  | .operation op =>
    if op.isEdit then none else (perform settings s.world op).map fun w ↦ { s with world := w }

/-- A press on a number of minutes, on a reminder that may be edited and that the
columns can hold, is one the typed answer could have been. -/
def Keeps (digits : Digits) (s : Chats) : ChatEvent → Prop
  | .handle _ userId update => ∀ reminderId change,
      Pressed digits (s.conversations userId) update reminderId change →
        (∃ r, Reminders.getEditable s.world.db userId reminderId = .ok r) → Fits change →
          InRange change
  | .operation _ => True

end Chats

def MinutesInRange (r : Reminder) : Prop :=
  (snoozeMinMinutes ≤ r.snoozeMinutes ∧ r.snoozeMinutes ≤ snoozeMaxMinutes) ∧
    ∀ n ∈ r.repeatAfterMinutes, repeatMinMinutes ≤ n ∧ n ≤ repeatMaxMinutes

def AllInRange (db : Database) : Prop := ∀ rid r, db.reminders rid = some r → MinutesInRange r

/-- All settings are in range, and no tap on the snooze button raises. -/
def Safe (db : Database) : Prop :=
  AllInRange db ∧ ∀ now deliveryId userId,
    Reactions.react db now deliveryId userId .snooze ≠ .error .valueError

section Rows

variable {settings : Settings} {w w' : World} {op : Operation} {db db' : Database} {now : ℤ}
  {userId rid : ℕ} {r r' : Reminder} {change : Reminders.Change}

theorem MinutesInRange.of_eq (h : MinutesInRange r) (hsnooze : r'.snoozeMinutes = r.snoozeMinutes)
    (hrepeat : r'.repeatAfterMinutes = r.repeatAfterMinutes) : MinutesInRange r' := by
  rw [MinutesInRange, hsnooze, hrepeat]
  exact h

/-- The minutes of a change are those of the row it leaves. -/
theorem inRange_of_changed (h : MinutesInRange (Reminders.changed change r))
    (hclear : change.clearRepeat = false) : InRange change := by
  obtain ⟨categoryId, schedule, snoozeMinutes, repeatAfterMinutes, clearRepeat⟩ := change
  cases hclear
  constructor
  · rintro n ⟨⟩
    exact h.1
  · rintro n ⟨⟩
    exact h.2 n rfl

theorem MinutesInRange.changed (h : MinutesInRange r) (hchange : InRange change) :
    MinutesInRange (Reminders.changed change r) := by
  obtain ⟨categoryId, schedule, snoozeMinutes, repeatAfterMinutes, clearRepeat⟩ := change
  constructor
  · cases snoozeMinutes with
    | none => exact h.1
    | some n => exact hchange.1 n rfl
  · intro n hn
    cases clearRepeat with
    | true => cases hn
    | false =>
      cases repeatAfterMinutes with
      | none => exact h.2 n hn
      | some m => exact hchange.2 n hn

/-- A tap that raises has found a reminder with less than a minute. -/
theorem react_ne_valueError (h : AllInRange db) (now : ℤ) (deliveryId userId : ℕ) :
    Reactions.react db now deliveryId userId .snooze ≠ .error .valueError := by
  intro hreact
  rcases bind_eq_error.mp hreact with hd | ⟨d, -, hreact⟩
  · cases (require_eq_error.mp hd).2
  rcases bind_eq_error.mp hreact with huser | ⟨_, -, hreact⟩
  · cases (demand_eq_error.mp huser).2
  rcases bind_eq_error.mp hreact with ho | ⟨o, -, hreact⟩
  · cases (require_eq_error.mp ho).2
  split at hreact
  · cases hreact
  rcases bind_eq_error.mp hreact with hr | ⟨r, hr, hreact⟩
  · cases (require_eq_error.mp hr).2
  rcases bind_eq_error.mp hreact with hu | ⟨u, -, hreact⟩
  · cases (require_eq_error.mp hu).2
  rcases bind_eq_error.mp hreact with hdecide | ⟨reaction, -, hreact⟩
  · have hminutes : ¬r.snoozeMinutes < 1 := not_lt.mpr (h _ r (require_eq_ok.mp hr)).1.1
    rw [Action.kind, decideReaction, if_pos rfl, if_neg hminutes] at hdecide
    cases hdecide
  · cases hreact

theorem allInRange_updateFields {values : Reminder → Reminder}
    (hvalues : ∀ r, MinutesInRange r → MinutesInRange (values r)) (hrange : AllInRange db) :
    AllInRange (db.run (Db.Reminders.updateFields rid values)) := by
  intro j r' hr'
  rw [Db.Reminders.reminders_updateFields] at hr'
  split at hr'
  · obtain ⟨r, hr, rfl⟩ := Option.map_eq_some_iff.mp hr'
    exact hvalues r (hrange rid r hr)
  · exact hrange j r' hr'

theorem allInRange_dropQueued (hrange : AllInRange db) :
    AllInRange (Reminders.dropQueued rid r db) := by
  intro j r' hr'
  rw [Reminders.dropQueued_reminders] at hr'
  split at hr'
  · obtain ⟨r₀, hr₀, rfl⟩ := Option.map_eq_some_iff.mp hr'
    exact (hrange rid r₀ hr₀).of_eq rfl rfl
  · exact hrange j r' hr'

theorem allInRange_create {draft : Reminders.Draft}
    (h : Reminders.create db now userId draft = .ok db')
    (hminutes : draft.snoozeMinutes = 10 ∧ draft.repeatAfterMinutes = none)
    (hrange : AllInRange db) : AllInRange db' := by
  obtain ⟨-, rfl⟩ := Reminders.create_eq_ok h
  intro rid r hr
  rcases Table.insert_some hr with hold | ⟨-, rfl⟩
  · exact hrange rid r hold
  · have hdefault : snoozeMinMinutes ≤ 10 ∧ 10 ≤ snoozeMaxMinutes := by decide
    rw [MinutesInRange, Reminders.reminderRow, hminutes.1, hminutes.2]
    exact ⟨hdefault, fun n hn ↦ by cases hn⟩

theorem allInRange_update (h : Reminders.update db now userId rid change = .ok db')
    (hchange : InRange change) (hrange : AllInRange db) : AllInRange db' := by
  obtain ⟨r, -, -, rfl⟩ := Reminders.update_eq_ok h
  refine allInRange_updateFields (fun r hr ↦ hr.changed hchange) ?_
  split
  · exact allInRange_dropQueued hrange
  · exact hrange

/-- Nothing else touches the minutes. -/
theorem allInRange_perform (hop : op.isEdit = false) (h : perform settings w op = some w')
    (hrange : AllInRange w.db) : AllInRange w'.db := by
  by_cases hmoves : op.movesCalendar = false
  · intro rid r' hr'
    rw [(sameCalendar_perform hmoves h).1] at hr'
    exact hrange rid r' hr'
  cases op with
  | materialize now =>
    cases h
    intro rid r' hr'
    obtain ⟨f, hf, hkept⟩ := @Planning.materializeAll_rows settings.planning
      (now + settings.planning.horizon) (Db.Reminders.dueForPlanning w.db
        (now + settings.planning.horizon) settings.planning.batchSize) w.db rid
    obtain ⟨r, hr, rfl⟩ := Option.map_eq_some_iff.mp (hf.symm.trans hr')
    obtain ⟨status, plannedUntil, firedCount, hrow, -⟩ := hkept r
    rw [hrow]
    exact (hrange rid r hr).of_eq rfl rfl
  | setStatus now ownerId rid₀ status =>
    obtain ⟨db', hdb, rfl⟩ := over_eq_some h
    obtain ⟨r₀, -, rfl⟩ := Reminders.setStatus_eq_ok hdb
    refine allInRange_updateFields (fun r hr ↦ hr.of_eq rfl rfl) ?_
    split
    · exact hrange
    · exact allInRange_dropQueued hrange
  | create now ownerId draft => cases hop
  | update now ownerId rid₀ change => cases hop
  | _ => exact absurd rfl hmoves

end Rows

section Runs

variable {digits : Digits} {settings : Settings} {s s' : Chats} {e : ChatEvent}

theorem allInRange_step (hrange : AllInRange s.world.db) (hkeeps : s.Keeps digits e)
    (h : s.step digits settings e = some s') : AllInRange s'.world.db := by
  cases e with
  | handle now userId update =>
    rw [Chats.step] at h
    split at h
    · rename_i db conversation hhandle
      cases h
      cases handle_wrote hhandle with
      | nothing => exact hrange
      | created draft call minutes => exact allInRange_create call minutes hrange
      | updated rid change call minutes =>
        refine allInRange_update call ?_ hrange
        rcases minutes with hin | ⟨hpressed, hfits⟩
        · exact hin
        · obtain ⟨r, hr, -⟩ := Reminders.update_eq_ok call
          exact hkeeps rid change hpressed ⟨r, hr⟩ hfits
    · cases h
  | operation op =>
    rw [Chats.step] at h
    split at h
    · cases h
    · rename_i hop
      obtain ⟨w, hw, rfl⟩ := Option.map_eq_some_iff.mp h
      exact allInRange_perform (eq_false_of_ne_true hop) hw hrange

/-- A press that the guard forbids is what spoils the settings. -/
theorem keeps_of_step (hnext : ∀ s', s.step digits settings e = some s' → AllInRange s'.world.db) :
    s.Keeps digits e := by
  cases e with
  | handle now userId update =>
    rintro rid change hpressed ⟨r, hr⟩ hfits
    obtain ⟨hrow, -⟩ := Reminders.getEditable_eq_ok hr
    obtain ⟨hcategory, hschedule, hclear⟩ := hpressed.onlyMinutes
    have hstep : s.step digits settings (.handle now userId update) = some ⟨{ s.world with
        db := s.world.db.run (Db.Reminders.updateFields rid (Reminders.changed change)) },
          Function.update s.conversations userId .idle⟩ := by
      rw [Chats.step, handle_pressed hpressed, saved_minutes hr hcategory hschedule hfits]
    refine inRange_of_changed (r := r) (hnext _ hstep rid _ ?_) hclear
    rw [Db.Reminders.reminders_updateFields, if_pos rfl, hrow]
    rfl
  | operation op => trivial

/-- From the first start on, every setting stays in its limits and no tap on the
snooze button raises, exactly as long as nobody presses a number outside them. -/
theorem minutes_in_range_iff (digits : Digits) (settings : Settings) (users : Table User)
    (categories : Table Category) (events : List ChatEvent) :
    Guarded (Chats.step digits settings) (Chats.Keeps digits) (.initial users categories) events ↔
      ∀ early late s, events = early ++ late →
        run (Chats.step digits settings) (.initial users categories) early = some s →
          Safe s.world.db := by
  have hstart : AllInRange (Chats.initial users categories).world.db := fun _ _ hr ↦ by cases hr
  have hiff : Guarded (Chats.step digits settings) (Chats.Keeps digits)
      (.initial users categories) events ↔
        ∀ early late s, events = early ++ late →
          run (Chats.step digits settings) (.initial users categories) early = some s →
            AllInRange s.world.db :=
    guarded_iff (fun _ _ _ ↦ allInRange_step) (fun _ _ ↦ keeps_of_step) hstart
  refine hiff.trans (forall₅_congr fun early late s _ _ ↦ ?_)
  exact ⟨fun hrange ↦ ⟨hrange, react_ne_valueError hrange⟩, And.left⟩

/-- A reminder made by the wizard, and a press on its snooze question with a
number that no button has. -/
def pressedZero : List ChatEvent :=
  [.handle 0 0 .new, .handle 0 0 (.pick 0), .handle 0 0 (.text "Water".toList),
    .handle 0 0 (.scheduled (weeklyFrom 4 (.oclock 8))), .handle 0 0 (.press "confirm" "yes".toList),
    .handle 0 0 (.field 0 (.ask .snooze)), .handle 0 0 (.press "snooze" "0".toList)]

theorem zero_is_stored : ∃ s r, run (Chats.step .ascii sampleSettings)
      (.initial sampleUsers sampleCategories) pressedZero = some s ∧
    s.world.db.reminders 0 = some r ∧ r.snoozeMinutes = 0 ∧ ¬Safe s.world.db := by
  have hminutes : ((run (Chats.step .ascii sampleSettings) (.initial sampleUsers sampleCategories)
      pressedZero).bind fun s ↦ s.world.db.reminders 0).map Reminder.snoozeMinutes = some 0 := by
    decide +kernel
  obtain ⟨r, hr, hzero⟩ := Option.map_eq_some_iff.mp hminutes
  obtain ⟨s, hs, hr⟩ := Option.bind_eq_some_iff.mp hr
  refine ⟨s, r, hs, hr, hzero, fun hsafe ↦ ?_⟩
  have hrange := (hsafe.1 0 r hr).1.1
  rw [hzero] at hrange
  exact absurd hrange (by decide)

end Runs

end Remindo.Serial
