import Mathlib.Data.Char
import Mathlib.Data.List.Lex
import Remindo.Bot.Manage
import Remindo.Domain.Builders

namespace Remindo.Bot.Reminders

open Remindo.Domain Remindo.Db Remindo.Services Remindo.Foundation
open Remindo.Bot.Manage (Conversation Update EditField)

/-- `ReminderWizard`; `moment` is its state `at`. -/
inductive WizardState
  | category | title | kind | date | moment | times | weekdays | monthDays | onMissing
  | everyMinutes | window | confirm
  deriving DecidableEq

/-- What the wizard keeps in FSM data, one field a key. -/
structure FsmData where
  categoryId : Option ℕ := none
  title : Option Text := none
  kind : Option Text := none
  date : Option Text := none
  times : Option (List Text) := none
  weekdays : Option (List ℤ) := none
  monthDays : Option (List ℤ) := none
  onMissing : Option Text := none
  schedule : Option Json := none
  everyMinutes : Option ℤ := none
  editReminderId : Option ℕ := none

/-- A chat inside the wizard, or on a screen of somebody else. -/
inductive Chat
  | wizard (state : WizardState) (data : FsmData)
  | elsewhere (conversation : Conversation)

/-- An exception no handler of the wizard catches. -/
inductive Fault
  | keyError (key : String)
  | valueError
  | validation (error : BuildError)
  | service (error : ServiceError)
  deriving DecidableEq

/-- What a handler leaves in the FSM storage, which is not rolled back with the
session; an exception comes with what had been stored by then. -/
abbrev Step := Except (Fault × Chat) Chat

section Answers

/-- `data[key]`. -/
def stored {α : Type} (left : Chat) (key : String) : Option α → Except (Fault × Chat) α
  | some value => .ok value
  | none => .error (.keyError key, left)

def parsed {α : Type} (left : Chat) : Option α → Except (Fault × Chat) α
  | some value => .ok value
  | none => .error (.valueError, left)

def built {α : Type} (left : Chat) : Except BuildError α → Except (Fault × Chat) α
  | .ok value => .ok value
  | .error error => .error (.validation error, left)

def storedTimes (data : FsmData) : List Text := data.times.getD []

def storedDays (days : Option (List ℤ)) : List ℤ := days.getD []

/-- Pressing a chosen value removes it; the list stays sorted and unique. -/
def toggled {α : Type} [LinearOrder α] (values : List α) (value : α) : List α :=
  if value ∈ values then values.filter (· ≠ value)
  else (values ++ [value]).insertionSort (· ≤ ·)

/-- There is no room for one more value; a chosen one can still be removed. -/
def isFull {α : Type} [LinearOrder α] (values : List α) (value : α) (top : ℕ) : Bool :=
  decide (value ∉ values ∧ top ≤ values.length)

def toggle (times : List Text) (value : Text) : List Text := toggled times value

/-- Twin of `toggle` for day numbers, which sort as numbers, not as text. -/
def toggleDay (days : List ℤ) (day : ℤ) : List ℤ := toggled days day

variable (digits : Digits) (padded : Bool)

def unpackWallTime (value : Text) : Text := value.take 2 ++ ':' :: value.drop 2

/-- A wall-clock atom off a keyboard. -/
def presetTime (value : Text) : Option WallTime := parseHhmm digits (unpackWallTime value)

/-- A day number off a keyboard. `int` knows fewer digits than `isdigit`. -/
def presetDay (left : Chat) (value : Text) (high : ℕ) : Except (Fault × Chat) (Option ℤ) :=
  if digits.isdigit value then do
    let n ← parsed left (digits.int value)
    return if 1 ≤ n ∧ n ≤ high then some n else none
  else .ok none

def kindOf (value : Text) : Option ScheduleKind := ScheduleKind.all.find? fun kind ↦ kind.value = value

/-- The schedule the collected answers add up to. -/
def scheduleFrom (left : Chat) (data : FsmData) : Except (Fault × Chat) Schedule := do
  let times ← parsed left ((storedTimes data).mapM (parseHhmm digits))
  let value ← stored left "kind" data.kind
  let kind ← parsed left (kindOf value)
  match kind with
  | .weekly => built left (buildWeeklySchedule times (storedDays data.weekdays))
  | .monthly => do
    let rule ← stored left "on_missing" data.onMissing
    built left (buildMonthlySchedule times (storedDays data.monthDays) rule)
  | _ => built left (buildDailySchedule times)

/-- Store the finished payload; the screen then asks for the title. -/
def toConfirmation (schedule : Schedule) (data : FsmData) : Step := do
  let data := { data with schedule := some (dumpSchedule padded schedule) }
  let _ ← stored (.wizard .confirm data) "title" data.title
  return .wizard .confirm data

def rememberDate (d : ℤ) (data : FsmData) : Chat :=
  .wizard .moment { data with date := some (formatLocalDate d) }

def finishOnce (time : WallTime) (data : FsmData) : Step := do
  let raw ← stored (.wizard .moment data) "date" data.date
  let d ← parsed (.wizard .moment data) (parseLocalDate raw)
  toConfirmation padded (buildOnceSchedule d time) data

def askWindow (everyMinutes : ℤ) (data : FsmData) : Chat :=
  .wizard .window { data with everyMinutes := some everyMinutes }

def finishInterval (window : WallTime × WallTime) (data : FsmData) : Step := do
  let everyMinutes ← stored (.wizard .window data) "every_minutes" data.everyMinutes
  let schedule ← built (.wizard .window data)
    (buildIntervalSchedule everyMinutes window.1 window.2)
  toConfirmation padded schedule data

end Answers

section Handlers

variable (digits : Digits) (padded : Bool)

def handleNew : Chat := .wizard .category {}

def handleCategory (categoryId : ℕ) (data : FsmData) : Chat :=
  .wizard .title { data with categoryId := some categoryId }

def handleTitle (raw : Text) (data : FsmData) : Chat :=
  match normalizeReminderTitle raw with
  | .error _ => .wizard .title data
  | .ok title => .wizard .kind { data with title := some title }

def handleKind (value : Text) (data : FsmData) : Chat :=
  match kindOf value with
  | none => .wizard .kind data
  | some kind =>
    let data := { data with kind := some kind.value }
    match kind with
    | .once => .wizard .date data
    | .daily => .wizard .times { data with times := some [] }
    | .weekly => .wizard .weekdays { data with weekdays := some [] }
    | .monthly => .wizard .monthDays { data with monthDays := some [] }
    | .interval => .wizard .everyMinutes data

def handleDate (today : ℤ) (value : Text) (data : FsmData) : Chat :=
  if value = "man".toList then .wizard .date data
  else if value = "today".toList then rememberDate today data
  else if value = "tmrw".toList then rememberDate (today + 1) data
  else match parseUserDate value today with
    | .error _ => .wizard .date data
    | .ok d => rememberDate d data

def handleDateText (today : ℤ) (raw : Text) (data : FsmData) : Chat :=
  match parseUserDate raw today with
  | .error _ => .wizard .date data
  | .ok d => rememberDate d data

def handleAt (value : Text) (data : FsmData) : Step :=
  if value = "man".toList then .ok (.wizard .moment data)
  else match presetTime digits value with
    | none => .ok (.wizard .moment data)
    | some time => finishOnce padded time data

def handleAtText (raw : Text) (data : FsmData) : Step :=
  match parseWallTime digits raw with
  | .error _ => .ok (.wizard .moment data)
  | .ok time => finishOnce padded time data

/-- The limit is checked before the time is added or removed. -/
def toggleTime (time : WallTime) (data : FsmData) : Chat :=
  let value := formatHhmm time
  let times := storedTimes data
  if isFull times value timesMaxLength then .wizard .times data
  else .wizard .times { data with times := some (toggle times value) }

def handleDailyTime (value : Text) (data : FsmData) : Chat :=
  if value = "man".toList then .wizard .times data
  else match presetTime digits value with
    | none => .wizard .times data
    | some time => toggleTime time data

def handleDailyTimeText (raw : Text) (data : FsmData) : Chat :=
  match parseWallTime digits raw with
  | .error _ => .wizard .times data
  | .ok time => toggleTime time data

/-- Ends the daily, weekly and monthly branches alike. -/
def handleTimesDone (data : FsmData) : Step :=
  if storedTimes data = [] then .ok (.wizard .times data)
  else do
    let schedule ← scheduleFrom digits (.wizard .times data) data
    toConfirmation padded schedule data

/-- What the questions about the days of the week and of the month differ in. -/
structure DayQuestion where
  state : WizardState
  high : ℕ
  chosen : FsmData → Option (List ℤ)
  choose : List ℤ → FsmData → FsmData
  /-- Where `ok` leads with a day chosen. -/
  onward : FsmData → Chat

def handleDays (question : DayQuestion) (value : Text) (data : FsmData) : Step :=
  let days := storedDays (question.chosen data)
  if value = "ok".toList then
    if days = [] then .ok (.wizard question.state data) else .ok (question.onward data)
  else do
    match ← presetDay digits (.wizard question.state data) value question.high with
    | none => return .wizard question.state data
    | some day => return .wizard question.state (question.choose (toggleDay days day) data)

def weekdaysQuestion : DayQuestion where
  state := .weekdays
  high := weekdaysMaxLength
  chosen := FsmData.weekdays
  choose days data := { data with weekdays := some days }
  onward data := .wizard .times { data with times := some [] }

def monthDaysQuestion : DayQuestion where
  state := .monthDays
  high := monthDaysMaxLength
  chosen := FsmData.monthDays
  choose days data := { data with monthDays := some days }
  onward data := .wizard .onMissing data

def handleWeekdays (value : Text) (data : FsmData) : Step :=
  handleDays digits weekdaysQuestion value data

def handleMonthDays (value : Text) (data : FsmData) : Step :=
  handleDays digits monthDaysQuestion value data

/-- `MISSING_DAY_ATOMS`. -/
def missingDayAtom (value : Text) : Option OnMissingDay :=
  if value = "last".toList then some .lastDay
  else if value = "skip".toList then some .skip
  else none

def handleMissingDay (value : Text) (data : FsmData) : Chat :=
  match missingDayAtom value with
  | none => .wizard .onMissing data
  | some rule => .wizard .times { data with onMissing := some rule.value, times := some [] }

def handleInterval (value : Text) (data : FsmData) : Step :=
  if value = "man".toList ∨ digits.isdigit value = false then .ok (.wizard .everyMinutes data)
  else do
    let n ← parsed (.wizard .everyMinutes data) (digits.int value)
    return askWindow n data

def handleIntervalText (raw : Text) (data : FsmData) : Chat :=
  match parseUserInterval digits raw with
  | .error _ => .wizard .everyMinutes data
  | .ok minutes => askWindow minutes data

def windowAtomLength : ℕ := 8

/-- `unpack_window`, and both halves parsed. -/
def presetWindow (value : Text) : Option (WallTime × WallTime) :=
  if value.length = windowAtomLength ∧ digits.isdigit value = true then do
    let start ← parseHhmm digits (unpackWallTime (value.take (value.length / 2)))
    let stop ← parseHhmm digits (unpackWallTime (value.drop (value.length / 2)))
    return (start, stop)
  else none

def handleWindow (value : Text) (data : FsmData) : Step :=
  if value = "man".toList then .ok (.wizard .window data)
  else match presetWindow digits value with
    | none => .ok (.wizard .window data)
    | some window => finishInterval padded window data

def handleWindowText (raw : Text) (data : FsmData) : Step :=
  match parseUserWindow digits raw with
  | .error _ => .ok (.wizard .window data)
  | .ok window => finishInterval padded window data

end Handlers

section Routing

variable (digits : Digits) (padded : Bool) (lax : LaxInt) (titles : ℕ → Text) (db : Database)
  (now : ℤ) (userId : ℕ)

/-- What a handler leaves behind. -/
abbrev Outcome := Except (Fault × Chat) (Database × Chat)

/-- The service is called with what the keys hold. -/
def callConfirmed (data : FsmData) : Except (Fault × Chat) (Except ServiceError Database) := do
  let left := Chat.wizard .confirm data
  match data.editReminderId with
  | none =>
    let categoryId ← stored left "category_id" data.categoryId
    let _ ← stored left "title" data.title
    let payload ← stored left "schedule" data.schedule
    let schedule ← parsed left (parseSchedule digits lax payload)
    return Manage.confirmed db now userId none categoryId schedule
  | some reminderId =>
    let payload ← stored left "schedule" data.schedule
    let schedule ← parsed left (parseSchedule digits lax payload)
    return Manage.confirmed db now userId (some reminderId) 0 schedule

/-- The errors of the service but one are nobody's here. -/
def answered (data : FsmData) : Except ServiceError Database → Outcome
  | .ok db => .ok (db, .elsewhere .idle)
  -- Time passed between the confirmation screen and the press.
  | .error .scheduleExhausted => .ok (db, .wizard .confirm data)
  | .error error => .error (.service error, .wizard .confirm data)

def handleConfirm (data : FsmData) : Outcome := do
  let call ← callConfirmed digits lax db now userId data
  answered db data call

/-- A screen of somebody else: an error there leaves the chat as it was. -/
def outside (conversation : Conversation) (out : Manage.Outcome) : Outcome :=
  match out with
  | .ok (db, conversation') => .ok (db, .elsewhere conversation')
  | .error error => .error (.service error, .elsewhere conversation)

/-- The schedule question of the edit menu is the wizard's own. -/
def handleEditField (reminderId : ℕ) (field : EditField) (conversation : Conversation) : Outcome :=
  match field with
  | .schedule =>
    match Reminders.getEditable db userId reminderId with
    | .ok r => .ok (db, .wizard .kind
        { editReminderId := some reminderId, title := some (titles reminderId),
          categoryId := some r.categoryId })
    | .error error => .error (.service error, .elsewhere conversation)
  | field => outside conversation (Manage.handleEditField db userId reminderId field)

/-- A press inside the wizard, by its state and step. -/
def handlePress (today : ℤ) (step : String) (value : Text) (state : WizardState)
    (data : FsmData) : Outcome :=
  let kept : Outcome := .ok (db, .wizard state data)
  let moved (chat : Chat) : Outcome := .ok (db, chat)
  let tried (out : Step) : Outcome := out.map fun chat ↦ (db, chat)
  if Manage.isCancel step value then .ok (db, .elsewhere .idle)
  else match state with
    | .category | .title => kept
    | .kind => if step = "kind" then moved (handleKind value data) else kept
    | .date => if step = "date" then moved (handleDate today value data) else kept
    | .moment => if step = "at" then tried (handleAt digits padded value data) else kept
    | .times =>
      if step = "time" then moved (handleDailyTime digits value data)
      else if step = "times" then tried (handleTimesDone digits padded data)
      else kept
    | .weekdays => if step = "wday" then tried (handleWeekdays digits value data) else kept
    | .monthDays => if step = "mday" then tried (handleMonthDays digits value data) else kept
    | .onMissing => if step = "miss" then moved (handleMissingDay value data) else kept
    | .everyMinutes => if step = "every" then tried (handleInterval digits value data) else kept
    | .window => if step = "window" then tried (handleWindow digits padded value data) else kept
    | .confirm =>
      if step = "confirm" ∧ value = "yes".toList then handleConfirm digits lax db now userId data
      else kept

def handleText (today : ℤ) (raw : Text) (state : WizardState) (data : FsmData) : Step :=
  match state with
  | .title => .ok (handleTitle raw data)
  | .date => .ok (handleDateText today raw data)
  | .moment => handleAtText digits padded raw data
  | .times => .ok (handleDailyTimeText digits raw data)
  | .everyMinutes => .ok (handleIntervalText digits raw data)
  | .window => handleWindowText digits padded raw data
  | _ => .ok (.wizard state data)

/-- The calendar day the wizard reads off the user's clock. -/
def todayOf : ℤ := ((db.users userId).map fun u ↦ localToday now u.timezone).getD (dateOf now)

/-- The handler an update is routed to; what no handler takes is dropped. -/
def handle (chat : Chat) (update : Update) : Outcome :=
  match update, chat with
  | .new, _ => .ok (db, handleNew)
  | .elsewhere form, _ => .ok (db, .elsewhere (if form then .other else .idle))
  | .field reminderId field, .elsewhere conversation =>
    if conversation.offersFields then
      handleEditField titles db userId reminderId field conversation
    else .ok (db, chat)
  | .press step value, .elsewhere conversation =>
    outside conversation (Manage.handlePress digits db now userId step value conversation)
  | .press step value, .wizard state data =>
    handlePress digits padded lax db now userId (todayOf db now userId) step value state data
  | .pick categoryId, .elsewhere conversation =>
    outside conversation (Manage.handlePick db now userId categoryId conversation)
  | .pick categoryId, .wizard .category data => .ok (db, handleCategory categoryId data)
  | .text raw, .elsewhere conversation =>
    outside conversation (Manage.handleText digits db now userId raw conversation)
  | .text raw, .wizard state data =>
    (handleText digits padded (todayOf db now userId) raw state data).map fun chat ↦ (db, chat)
  | _, _ => .ok (db, chat)

end Routing

end Remindo.Bot.Reminders
