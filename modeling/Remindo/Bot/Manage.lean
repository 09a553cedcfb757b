import Remindo.Domain.Answers
import Remindo.Services.Reminders

namespace Remindo.Bot.Manage

open Remindo.Domain Remindo.Db Remindo.Services Remindo.Foundation

/-- `ReminderEdit`: the questions of the edit screens. -/
inductive Question
  | title | note | category | snooze | repeats
  deriving DecidableEq

/-- What a user is being asked, with the data that goes along: a field of a
reminder, or a step of the wizard, whose questions about the schedule are taken
as one. -/
inductive Conversation
  | idle
  | edit (question : Question) (reminderId : ℕ)
  | wizardCategory
  | wizardTitle (categoryId : ℕ)
  | wizardSchedule (editing : Option ℕ) (categoryId : ℕ)
  | wizardConfirm (editing : Option ℕ) (categoryId : ℕ) (schedule : Schedule)
  /-- A form of another screen. -/
  | other

/-- `EditCb.field`. -/
inductive EditField
  | menu | schedule
  | ask (question : Question)

inductive Update
  /-- `/new` -/
  | new
  /-- `EditCb` -/
  | field (reminderId : ℕ) (field : EditField)
  /-- `WizCb` -/
  | press (step : String) (value : Text)
  /-- `CatCb` with the action `pick` -/
  | pick (categoryId : ℕ)
  /-- A message that is no command. -/
  | text (raw : Text)
  /-- The answers to the wizard's questions about the schedule. -/
  | scheduled (schedule : Schedule)
  /-- Anything another screen handles, which ends the conversation or opens a form. -/
  | elsewhere (form : Bool)

/-- What a handler leaves behind. -/
abbrev Outcome := Except ServiceError (Database × Conversation)

/-- The call of `update` that only touches `updated_at`. -/
def untouched : Reminders.Change := ⟨none, none, none, none, false⟩

def smallintMax : ℕ := 32767

/-- The columns of the minutes can hold them. -/
def Fits (change : Reminders.Change) : Prop :=
  (∀ n ∈ change.snoozeMinutes, n ≤ smallintMax) ∧ ∀ n ∈ change.repeatAfterMinutes, n ≤ smallintMax

instance (change : Reminders.Change) : Decidable (Fits change) :=
  inferInstanceAs (Decidable (_ ∧ _))

variable (digits : Digits) (db : Database) (now : ℤ) (userId : ℕ)

/-- `_apply`. The demand is the table's own: both columns are `SMALLINT`. -/
def apply (reminderId : ℕ) (change : Reminders.Change) : Except ServiceError Database := do
  let db ← Reminders.update db now userId reminderId change
  demand (Fits change) .integrity
  return db

/-- Write one field and go back to the card. -/
def saved (reminderId : ℕ) (change : Reminders.Change) : Outcome := do
  let db ← apply db now userId reminderId change
  return (db, .idle)

/-- A `ValidationError` of the service is answered, and the question stays. -/
def refused (question : Question) (reminderId : ℕ) : Outcome := do
  let _ ← Reminders.getEditable db userId reminderId
  return (db, .edit question reminderId)

def handleEditField (reminderId : ℕ) (field : EditField) : Outcome := do
  let r ← Reminders.getEditable db userId reminderId
  match field with
  | .menu => return (db, .idle)
  | .schedule => return (db, .wizardSchedule (some reminderId) r.categoryId)
  | .ask question => return (db, .edit question reminderId)

def handleTitle (reminderId : ℕ) (raw : Text) : Outcome :=
  match normalizeReminderTitle raw with
  | .error _ => refused db userId .title reminderId
  | .ok _ => saved db now userId reminderId untouched

def handleNote (reminderId : ℕ) (raw : Text) : Outcome :=
  match normalizeNote raw with
  | .error _ => refused db userId .note reminderId
  | .ok _ => saved db now userId reminderId untouched

def handleNoteClear (reminderId : ℕ) (value : Text) : Outcome :=
  if value = "clear".toList then saved db now userId reminderId untouched
  else .ok (db, .edit .note reminderId)

def handleCategory (reminderId categoryId : ℕ) : Outcome :=
  saved db now userId reminderId { untouched with categoryId := some categoryId }

/-- `int(value)` of a callback value. -/
def pressedMinutes (value : Text) : Except ServiceError ℕ :=
  match digits.int value with
  | none => .error .valueError
  | some n => .ok n.toNat

def handleSnooze (reminderId : ℕ) (value : Text) : Outcome :=
  if value = "man".toList then .ok (db, .edit .snooze reminderId)
  else if digits.isdigit value = false then .ok (db, .edit .snooze reminderId)
  else do
    let minutes ← pressedMinutes digits value
    saved db now userId reminderId { untouched with snoozeMinutes := some minutes }

def handleSnoozeText (reminderId : ℕ) (raw : Text) : Outcome :=
  match parseUserSnooze digits raw with
  | .error _ => .ok (db, .edit .snooze reminderId)
  | .ok minutes => saved db now userId reminderId { untouched with snoozeMinutes := some minutes }

def handleRepeat (reminderId : ℕ) (value : Text) : Outcome :=
  if value = "man".toList then .ok (db, .edit .repeats reminderId)
  else if value = "off".toList then
    saved db now userId reminderId { untouched with clearRepeat := true }
  else if digits.isdigit value then do
    let minutes ← pressedMinutes digits value
    saved db now userId reminderId { untouched with repeatAfterMinutes := some minutes }
  else .ok (db, .edit .repeats reminderId)

def handleRepeatText (reminderId : ℕ) (raw : Text) : Outcome :=
  match parseUserRepeat digits raw with
  | .error _ => .ok (db, .edit .repeats reminderId)
  | .ok minutes =>
    saved db now userId reminderId { untouched with repeatAfterMinutes := some minutes }

/-- What the wizard asks of `create`: everything it does not ask for is at its default. -/
def wizardDraft (user : User) (categoryId : ℕ) (schedule : Schedule) : Reminders.Draft :=
  ⟨categoryId, schedule, user.timezone, none, none, none, 10, none⟩

/-- The last step of the wizard, for a new reminder or for one whose schedule is
being changed. -/
def confirmed (editing : Option ℕ) (categoryId : ℕ) (schedule : Schedule) :
    Except ServiceError Database :=
  match editing with
  | none => do
    let user ← require (db.users userId)
    Reminders.create db now userId (wizardDraft user categoryId schedule)
  | some reminderId =>
    Reminders.update db now userId reminderId { untouched with schedule := some schedule }

def handleConfirm (editing : Option ℕ) (categoryId : ℕ) (schedule : Schedule) : Outcome :=
  match confirmed db now userId editing categoryId schedule with
  | .ok db => .ok (db, .idle)
  -- Time passed between the confirmation screen and the press.
  | .error .scheduleExhausted => .ok (db, .wizardConfirm editing categoryId schedule)
  | .error error => .error error

def isCancel (step : String) (value : Text) : Bool :=
  decide (step = "confirm") && decide (value = "no".toList)

def handlePress (step : String) (value : Text) : Conversation → Outcome
  | .idle => .ok (db, .idle)
  | .other => .ok (db, .other)
  | .edit question reminderId =>
    if isCancel step value then .ok (db, .idle)
    else if question = .note ∧ step = "note" then handleNoteClear db now userId reminderId value
    else if question = .snooze ∧ step = "snooze" then
      handleSnooze digits db now userId reminderId value
    else if question = .repeats ∧ step = "repeat" then
      handleRepeat digits db now userId reminderId value
    else .ok (db, .edit question reminderId)
  | .wizardConfirm editing categoryId schedule =>
    if isCancel step value then .ok (db, .idle)
    else if step = "confirm" ∧ value = "yes".toList then
      handleConfirm db now userId editing categoryId schedule
    else .ok (db, .wizardConfirm editing categoryId schedule)
  | .wizardCategory => .ok (db, if isCancel step value then .idle else .wizardCategory)
  | .wizardTitle categoryId => .ok (db, if isCancel step value then .idle else .wizardTitle categoryId)
  | .wizardSchedule editing categoryId =>
    .ok (db, if isCancel step value then .idle else .wizardSchedule editing categoryId)

def handlePick (categoryId : ℕ) : Conversation → Outcome
  | .edit .category reminderId => handleCategory db now userId reminderId categoryId
  | .wizardCategory => .ok (db, .wizardTitle categoryId)
  | conversation => .ok (db, conversation)

def handleText (raw : Text) : Conversation → Outcome
  | .edit .title reminderId => handleTitle db now userId reminderId raw
  | .edit .note reminderId => handleNote db now userId reminderId raw
  | .edit .snooze reminderId => handleSnoozeText digits db now userId reminderId raw
  | .edit .repeats reminderId => handleRepeatText digits db now userId reminderId raw
  | .wizardTitle categoryId =>
    match normalizeReminderTitle raw with
    | .error _ => .ok (db, .wizardTitle categoryId)
    | .ok _ => .ok (db, .wizardSchedule none categoryId)
  | conversation => .ok (db, conversation)

/-- `StateFilter(None, ReminderEdit)`. -/
def Conversation.offersFields : Conversation → Bool
  | .idle | .edit .. => true
  | _ => false

def Conversation.scheduled (schedule : Schedule) : Conversation → Conversation
  | .wizardSchedule editing categoryId => .wizardConfirm editing categoryId schedule
  | conversation => conversation

/-- The handler an update is routed to; what no handler takes is dropped. -/
def handle (conversation : Conversation) : Update → Outcome
  | .new => .ok (db, .wizardCategory)
  | .field reminderId field =>
    if conversation.offersFields then handleEditField db userId reminderId field
    else .ok (db, conversation)
  | .press step value => handlePress digits db now userId step value conversation
  | .pick categoryId => handlePick db now userId categoryId conversation
  | .text raw => handleText digits db now userId raw conversation
  | .scheduled schedule => .ok (db, conversation.scheduled schedule)
  | .elsewhere form => .ok (db, if form then .other else .idle)

section Cases

variable {digits : Digits} {db db' : Database} {now : ℤ} {userId reminderId : ℕ}
  {conversation conversation' conversation'' : Conversation} {update : Update} {change : Reminders.Change}

/-- The minutes a change brings lie in the limits of what is typed. -/
def InRange (change : Reminders.Change) : Prop :=
  (∀ n ∈ change.snoozeMinutes, snoozeMinMinutes ≤ n ∧ n ≤ snoozeMaxMinutes) ∧
    ∀ n ∈ change.repeatAfterMinutes, repeatMinMinutes ≤ n ∧ n ≤ repeatMaxMinutes

/-- The update is a press on a number of minutes, which asks for the change. -/
def Pressed (digits : Digits) (conversation : Conversation) (update : Update) (reminderId : ℕ)
    (change : Reminders.Change) : Prop :=
  ∃ value n, digits.isdigit value = true ∧ digits.int value = some n ∧
    (conversation = .edit .snooze reminderId ∧ update = .press "snooze" value ∧
        change = { untouched with snoozeMinutes := some n.toNat } ∨
      conversation = .edit .repeats reminderId ∧ update = .press "repeat" value ∧
        change = { untouched with repeatAfterMinutes := some n.toNat })

theorem Pressed.onlyMinutes (h : Pressed digits conversation update reminderId change) :
    change.categoryId = none ∧ change.schedule = none ∧ change.clearRepeat = false := by
  obtain ⟨_, _, -, -, ⟨-, -, rfl⟩ | ⟨-, -, rfl⟩⟩ := h <;> exact ⟨rfl, rfl, rfl⟩

/-- What a handler may have written. -/
inductive Wrote (digits : Digits) (db : Database) (now : ℤ) (userId : ℕ)
    (conversation : Conversation) (update : Update) : Database → Prop
  | nothing : Wrote digits db now userId conversation update db
  | created {db' : Database} (draft : Reminders.Draft)
      (call : Reminders.create db now userId draft = .ok db')
      (minutes : draft.snoozeMinutes = 10 ∧ draft.repeatAfterMinutes = none) :
      Wrote digits db now userId conversation update db'
  | updated {db' : Database} (reminderId : ℕ) (change : Reminders.Change)
      (call : Reminders.update db now userId reminderId change = .ok db')
      (minutes : InRange change ∨
        Pressed digits conversation update reminderId change ∧ Fits change) :
      Wrote digits db now userId conversation update db'

theorem wrote_nothing (h : (.ok (db, conversation') : Outcome) = .ok (db', conversation'')) :
    Wrote digits db now userId conversation update db' := by
  cases h
  exact .nothing

theorem pressedMinutes_eq_ok {value : Text} {minutes : ℕ}
    (h : pressedMinutes digits value = .ok minutes) :
    ∃ n, digits.int value = some n ∧ n.toNat = minutes := by
  rw [pressedMinutes] at h
  split at h
  · cases h
  · rename_i n hn
    exact ⟨n, hn, Except.ok.inj h⟩

theorem saved_eq_ok (h : saved db now userId reminderId change = .ok (db', conversation')) :
    Reminders.update db now userId reminderId change = .ok db' ∧ Fits change := by
  obtain ⟨db₁, hdb, h⟩ := bind_eq_ok.mp h
  obtain ⟨db₂, hupdate, hdb⟩ := bind_eq_ok.mp hdb
  obtain ⟨_, hfits, hdb⟩ := bind_eq_ok.mp hdb
  cases hdb
  cases h
  exact ⟨hupdate, demand_eq_ok.mp hfits⟩

theorem inRange_of_none (hsnooze : change.snoozeMinutes = none)
    (hrepeat : change.repeatAfterMinutes = none) : InRange change := by
  simp [InRange, hsnooze, hrepeat]

theorem wrote_saved (h : saved db now userId reminderId change = .ok (db', conversation'))
    (hchange : InRange change ∨ Pressed digits conversation update reminderId change) :
    Wrote digits db now userId conversation update db' := by
  obtain ⟨hupdate, hfits⟩ := saved_eq_ok h
  exact .updated reminderId change hupdate (hchange.imp_right fun hpressed ↦ ⟨hpressed, hfits⟩)

theorem wrote_refused {question : Question}
    (h : refused db userId question reminderId = .ok (db', conversation')) :
    Wrote digits db now userId conversation update db' := by
  obtain ⟨r, -, h⟩ := bind_eq_ok.mp h
  exact wrote_nothing h

theorem ne_of_isdigit {value : Text} {word : String} {c : Char} (h : digits.isdigit value = true)
    (hc : c ∈ word.toList) (hascii : c.toNat < 128) (hdigit : c.isDigit = false) :
    value ≠ word.toList := by
  rintro rfl
  rw [Digits.not_isdigit_of_mem hc hascii hdigit] at h
  cases h

/-- A change of the minutes alone is written wherever the reminder may be edited. -/
theorem saved_minutes {r : Reminder} (hr : Reminders.getEditable db userId reminderId = .ok r)
    (hcategory : change.categoryId = none) (hschedule : change.schedule = none)
    (hfits : Fits change) : saved db now userId reminderId change =
      .ok (db.run (Db.Reminders.updateFields reminderId (Reminders.changed change)), .idle) := by
  have hupdate : Reminders.update db now userId reminderId change =
      .ok (db.run (Db.Reminders.updateFields reminderId (Reminders.changed change))) := by
    rw [Reminders.update, hr, hcategory, hschedule]
    rfl
  have hdemand : demand (Fits change) .integrity = .ok () := if_pos hfits
  rw [saved, apply, hupdate]
  dsimp only [bind, Except.bind]
  rw [hdemand]
  rfl

/-- A press on a number is let through as it is. -/
theorem handle_pressed (h : Pressed digits conversation update reminderId change) :
    handle digits db now userId conversation update = saved db now userId reminderId change := by
  obtain ⟨value, n, hdigits, hn, hasked⟩ := h
  have hman : value ≠ "man".toList :=
    ne_of_isdigit (c := 'm') hdigits (by decide) (by decide) (by decide)
  have hoff : value ≠ "off".toList :=
    ne_of_isdigit (c := 'o') hdigits (by decide) (by decide) (by decide)
  have hminutes : pressedMinutes digits value = .ok n.toNat := by rw [pressedMinutes, hn]
  rcases hasked with ⟨rfl, rfl, rfl⟩ | ⟨rfl, rfl, rfl⟩
  · have hpress : handle digits db now userId (.edit .snooze reminderId) (.press "snooze" value) =
        handleSnooze digits db now userId reminderId value := by
      simp [handle, handlePress, isCancel]
    rw [hpress, handleSnooze, if_neg hman, if_neg (by simp [hdigits]), hminutes]
    rfl
  · have hpress : handle digits db now userId (.edit .repeats reminderId) (.press "repeat" value) =
        handleRepeat digits db now userId reminderId value := by
      simp [handle, handlePress, isCancel]
    rw [hpress, handleRepeat, if_neg hman, if_neg hoff, if_pos hdigits, hminutes]
    rfl

theorem wrote_handleSnooze {value : Text}
    (h : handleSnooze digits db now userId reminderId value = .ok (db', conversation')) :
    Wrote digits db now userId (.edit .snooze reminderId) (.press "snooze" value) db' := by
  rw [handleSnooze] at h
  split at h
  · exact wrote_nothing h
  · split at h
    · exact wrote_nothing h
    · rename_i hdigits
      obtain ⟨minutes, hminutes, h⟩ := bind_eq_ok.mp h
      obtain ⟨n, hn, rfl⟩ := pressedMinutes_eq_ok hminutes
      refine wrote_saved h (.inr ⟨value, n, ?_, hn, .inl ⟨rfl, rfl, rfl⟩⟩)
      simpa using hdigits

theorem wrote_handleRepeat {value : Text}
    (h : handleRepeat digits db now userId reminderId value = .ok (db', conversation')) :
    Wrote digits db now userId (.edit .repeats reminderId) (.press "repeat" value) db' := by
  rw [handleRepeat] at h
  split at h
  · exact wrote_nothing h
  · split at h
    · exact wrote_saved h (.inl (inRange_of_none rfl rfl))
    · split at h
      · rename_i hdigits
        obtain ⟨minutes, hminutes, h⟩ := bind_eq_ok.mp h
        obtain ⟨n, hn, rfl⟩ := pressedMinutes_eq_ok hminutes
        exact wrote_saved h (.inr ⟨value, n, hdigits, hn, .inr ⟨rfl, rfl, rfl⟩⟩)
      · exact wrote_nothing h

theorem wrote_handleConfirm {editing : Option ℕ} {categoryId : ℕ} {schedule : Schedule}
    (h : handleConfirm db now userId editing categoryId schedule = .ok (db', conversation')) :
    Wrote digits db now userId conversation update db' := by
  rw [handleConfirm] at h
  split at h
  · rename_i db₁ hconfirmed
    cases h
    cases editing with
    | none =>
      obtain ⟨user, -, hcreated⟩ := bind_eq_ok.mp hconfirmed
      exact .created _ hcreated ⟨rfl, rfl⟩
    | some reminderId => exact .updated _ _ hconfirmed (.inl (inRange_of_none rfl rfl))
  · exact wrote_nothing h
  · cases h

theorem wrote_handlePress {step : String} {value : Text}
    (h : handlePress digits db now userId step value conversation = .ok (db', conversation')) :
    Wrote digits db now userId conversation (.press step value) db' := by
  cases conversation with
  | edit question reminderId =>
    rw [handlePress] at h
    split at h
    · exact wrote_nothing h
    split at h
    · rw [handleNoteClear] at h
      split at h
      · exact wrote_saved h (.inl (inRange_of_none rfl rfl))
      · exact wrote_nothing h
    split at h
    · rename_i hsnooze
      obtain ⟨rfl, rfl⟩ := hsnooze
      exact wrote_handleSnooze h
    split at h
    · rename_i hrepeat
      obtain ⟨rfl, rfl⟩ := hrepeat
      exact wrote_handleRepeat h
    · exact wrote_nothing h
  | wizardConfirm editing categoryId schedule =>
    rw [handlePress] at h
    split at h
    · exact wrote_nothing h
    split at h
    · exact wrote_handleConfirm h
    · exact wrote_nothing h
  | _ => exact wrote_nothing h

theorem wrote_handleText {raw : Text}
    (h : handleText digits db now userId raw conversation = .ok (db', conversation')) :
    Wrote digits db now userId conversation update db' := by
  cases conversation with
  | edit question reminderId =>
    cases question with
    | title =>
      rw [handleText, handleTitle] at h
      split at h
      · exact wrote_refused h
      · exact wrote_saved h (.inl (inRange_of_none rfl rfl))
    | note =>
      rw [handleText, handleNote] at h
      split at h
      · exact wrote_refused h
      · exact wrote_saved h (.inl (inRange_of_none rfl rfl))
    | snooze =>
      rw [handleText, handleSnoozeText] at h
      split at h
      · exact wrote_nothing h
      · rename_i minutes hminutes
        refine wrote_saved h (.inl ?_)
        simpa [InRange, untouched] using typedMinutes_eq_ok hminutes
    | repeats =>
      rw [handleText, handleRepeatText] at h
      split at h
      · exact wrote_nothing h
      · rename_i minutes hminutes
        refine wrote_saved h (.inl ?_)
        simpa [InRange, untouched] using typedMinutes_eq_ok hminutes
    | category => exact wrote_nothing h
  | wizardTitle categoryId =>
    rw [handleText] at h
    split at h <;> exact wrote_nothing h
  | _ => exact wrote_nothing h

theorem handle_wrote
    (h : handle digits db now userId conversation update = .ok (db', conversation')) :
    Wrote digits db now userId conversation update db' := by
  cases update with
  | press step value => exact wrote_handlePress h
  | text raw => exact wrote_handleText h
  | pick categoryId =>
    simp only [handle, handlePick] at h
    split at h
    · exact wrote_saved h (.inl (inRange_of_none rfl rfl))
    · exact wrote_nothing h
    · exact wrote_nothing h
  | field reminderId field =>
    rw [handle] at h
    split at h
    · obtain ⟨r, -, h⟩ := bind_eq_ok.mp h
      cases field <;> exact wrote_nothing h
    · exact wrote_nothing h
  | new | scheduled schedule | elsewhere form => exact wrote_nothing h

end Cases

end Remindo.Bot.Manage
