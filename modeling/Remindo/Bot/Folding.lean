import Remindo.Bot.WizardRuns

namespace Remindo.Bot.Reminders

open Remindo.Domain Remindo.Db Remindo.Services Remindo.Foundation
open Remindo.Bot.Manage (Conversation Update EditField)

section Fold

variable (digits : Digits) (lax : LaxInt)

/-- The schedule a confirmation reads back. -/
def keptSchedule (data : FsmData) : Option Schedule := data.schedule.bind (parseSchedule digits lax)

/-- A chat whose questions about the schedule are taken as one. -/
def fold : Chat → Conversation
  | .elsewhere conversation => conversation
  | .wizard .category _ => .wizardCategory
  | .wizard .title data => .wizardTitle (data.categoryId.getD 0)
  | .wizard .confirm data =>
    match keptSchedule digits lax data with
    | some schedule => .wizardConfirm data.editReminderId (data.categoryId.getD 0) schedule
    | none => .wizardCategory
  | .wizard _ data => .wizardSchedule data.editReminderId (data.categoryId.getD 0)

/-- The answer that ends those questions is taken for the schedule itself. -/
def seen (chat : Chat) (update : Update) (chat' : Chat) : Update :=
  match chat, chat' with
  | .wizard state _, .wizard .confirm data =>
    if state.asksSchedule then ((keptSchedule digits lax data).map .scheduled).getD update else update
  | _, _ => update

/-- Nobody sends a schedule. -/
def isSchedule : Update → Bool
  | .scheduled _ => true
  | _ => false

end Fold

section Steps

variable {digits : Digits} {padded : Bool} {allowed : ℤ → Prop} {lax : LaxInt} {titles : ℕ → Text}
  {db db' : Database} {now : ℤ} {userId : ℕ} {data : FsmData} {state : WizardState}
  {chat chat' : Chat} {conversation : Conversation} {update : Update}

theorem fold_asksSchedule (hstate : state.asksSchedule = true) : fold digits lax (.wizard state data) =
    .wizardSchedule data.editReminderId (data.categoryId.getD 0) := by
  cases state with
  | category | title | confirm => cases hstate
  | _ => rfl

theorem exists_keptSchedule (digits : Digits) (lax : LaxInt)
    (h : Answered padded allowed data .confirm) :
    ∃ schedule, keptSchedule digits lax data = some schedule ∧ fold digits lax (.wizard .confirm data) =
      .wizardConfirm data.editReminderId (data.categoryId.getD 0) schedule := by
  obtain ⟨-, schedule, hschedule, hwritten, -⟩ := h
  have hkept : keptSchedule digits lax data = some schedule := by
    rw [keptSchedule, hschedule]
    exact parseSchedule_dumpSchedule hwritten
  exact ⟨schedule, hkept, by rw [fold, hkept]⟩

theorem outside_eq_ok {out : Manage.Outcome} (h : outside conversation out = .ok (db', chat')) :
    ∃ conversation', out = .ok (db', conversation') ∧ chat' = .elsewhere conversation' := by
  cases out with
  | ok result =>
    cases h
    exact ⟨_, rfl, rfl⟩
  | error error => cases h

/-- While the schedule is asked about, nothing else is answered. -/
theorem handle_wizardSchedule {editing : Option ℕ} {categoryId : ℕ} (hstays : leaves update = false)
    (hreal : isSchedule update = false) :
    Manage.handle digits db now userId (.wizardSchedule editing categoryId) update =
      .ok (db, .wizardSchedule editing categoryId) := by
  cases update with
  | new | elsewhere form => cases hstays
  | press step value =>
    have hgo : Manage.isCancel step value = false := hstays
    simp only [Manage.handle, Manage.handlePress, hgo, Bool.false_eq_true, if_false]
  | scheduled schedule => cases hreal
  | field reminderId field | pick categoryId | text raw => rfl

theorem seen_asksSchedule (hstate : state.asksSchedule = true) :
    seen digits lax chat update (.wizard state data) = update := by
  cases state with
  | category | title | confirm => cases hstate
  | _ => cases chat <;> rfl

theorem handle_seen_asked (hmodern : Modern now) (hadmits : Admits digits allowed update)
    (hstate : state.asksSchedule = true) (h : Answered padded allowed data state)
    (hstays : leaves update = false) (hreal : isSchedule update = false)
    (hhandle : handle digits padded lax titles db now userId (.wizard state data) update =
      .ok (db', chat')) :
    Manage.handle digits db now userId (fold digits lax (.wizard state data))
      (seen digits lax (.wizard state data) update chat') = .ok (db', fold digits lax chat') := by
  obtain ⟨out, hout, hsettles⟩ := settles_answer lax titles db userId hmodern hadmits hstate h hstays
  rw [hout] at hhandle
  cases out with
  | error raised => cases hhandle
  | ok chat =>
    cases hhandle
    cases chat' with
    | elsewhere conversation => cases hsettles
    | wizard state' data' =>
      obtain ⟨⟨hcategory, htitle⟩, hanswered, hediting, hcategoryId⟩ := hsettles
      rw [fold_asksSchedule hstate]
      cases hstate' : state'.asksSchedule with
      | true =>
        rw [seen_asksSchedule hstate', handle_wizardSchedule hstays hreal, fold_asksSchedule hstate',
          hediting, hcategoryId]
      | false =>
        cases state' with
        | category => exact absurd rfl hcategory
        | title => exact absurd rfl htitle
        | confirm =>
          obtain ⟨schedule, hkept, hfold⟩ := exists_keptSchedule digits lax hanswered
          rw [hfold, seen, if_pos hstate, hkept, hediting, hcategoryId]
          rfl
        | _ => cases hstate'

theorem seen_ends (hstate : state.asksSchedule = false) :
    seen digits lax (.wizard state data) update chat' = update := by
  unfold seen
  split
  · exact if_neg (by simp_all)
  · rfl

theorem fold_wizard : (fold digits lax (.wizard state data)).offersFields = false ∧
    fold digits lax (.wizard state data) ≠ .other := by
  cases state with
  | confirm =>
    rw [fold]
    split <;> simp [Conversation.offersFields]
  | _ => simp [fold, Conversation.offersFields]

/-- The cancel button ends whatever is asked. -/
theorem handle_cancel {step : String} {value : Text} (hcancel : Manage.isCancel step value = true)
    (hother : conversation ≠ .other) :
    Manage.handlePress digits db now userId step value conversation = .ok (db, .idle) := by
  cases conversation with
  | other => exact absurd rfl hother
  | _ => simp [Manage.handlePress, hcancel]

/-- Away from the wizard every screen is left behind. -/
theorem handle_seen_leaving (hleaves : leaves update = true)
    (hhandle : handle digits padded lax titles db now userId (.wizard state data) update =
      .ok (db', chat')) :
    Manage.handle digits db now userId (fold digits lax (.wizard state data))
      (seen digits lax (.wizard state data) update chat') = .ok (db', fold digits lax chat') := by
  cases update with
  | new =>
    cases hhandle
    rfl
  | elsewhere form =>
    cases hhandle
    rfl
  | press step value =>
    have hcancel : Manage.isCancel step value = true := hleaves
    simp only [handle, handlePress, hcancel, if_true] at hhandle
    cases hhandle
    exact handle_cancel hcancel fold_wizard.2
  | _ => cases hleaves

theorem handleConfirm_seen {schedule : Schedule}
    (hfold : fold digits lax (.wizard .confirm data) =
      .wizardConfirm data.editReminderId (data.categoryId.getD 0) schedule)
    (h : answered db data (Manage.confirmed db now userId data.editReminderId
      (data.categoryId.getD 0) schedule) = .ok (db', chat')) :
    Manage.handleConfirm db now userId data.editReminderId (data.categoryId.getD 0) schedule =
      .ok (db', fold digits lax chat') := by
  rw [Manage.handleConfirm]
  generalize Manage.confirmed db now userId data.editReminderId (data.categoryId.getD 0) schedule = call
    at h
  unfold answered at h
  split at h
  · cases h
    rfl
  · cases h
    rw [hfold]
  · cases h

theorem handle_seen_ends (hstate : state.asksSchedule = false) (h : Answered padded allowed data state)
    (hstays : leaves update = false) (hreal : isSchedule update = false)
    (hhandle : handle digits padded lax titles db now userId (.wizard state data) update =
      .ok (db', chat')) :
    Manage.handle digits db now userId (fold digits lax (.wizard state data))
      (seen digits lax (.wizard state data) update chat') = .ok (db', fold digits lax chat') := by
  rw [seen_ends hstate]
  cases update with
  | new | elsewhere form => cases hstays
  | scheduled schedule => cases hreal
  | field reminderId field =>
    cases hhandle
    exact if_neg (by simp [fold_wizard.1])
  | pick categoryId =>
    cases state with
    | category =>
      cases hhandle
      rfl
    | title =>
      cases hhandle
      rfl
    | confirm =>
      cases hhandle
      obtain ⟨schedule, -, hfold⟩ := exists_keptSchedule digits lax h
      rw [hfold]
      rfl
    | _ => cases hstate
  | text raw =>
    cases state with
    | category =>
      cases hhandle
      rfl
    | title =>
      have hhandle : (.ok (db, handleTitle raw data) : Outcome) = .ok (db', chat') := hhandle
      obtain ⟨hediting, hcategory⟩ := h
      rw [Manage.handle, fold, Manage.handleText]
      rw [handleTitle] at hhandle
      cases hread : normalizeReminderTitle raw with
      | error error =>
        rw [hread] at hhandle
        cases hhandle
        rfl
      | ok title =>
        rw [hread] at hhandle
        cases hhandle
        rw [fold_asksSchedule rfl, hediting]
    | confirm =>
      cases hhandle
      obtain ⟨schedule, -, hfold⟩ := exists_keptSchedule digits lax h
      rw [hfold]
      rfl
    | _ => cases hstate
  | press step value =>
    have hgo : Manage.isCancel step value = false := hstays
    simp only [handle, handlePress, hgo, Bool.false_eq_true, if_false] at hhandle
    cases state with
    | category | title =>
      cases hhandle
      simp [Manage.handle, Manage.handlePress, fold, hgo]
    | confirm =>
      obtain ⟨schedule, hschedule, hread, hcall⟩ := exists_handleConfirm digits lax db now userId h
      obtain ⟨schedule', hkept, hfold⟩ := exists_keptSchedule digits lax h
      obtain rfl : schedule = schedule' := by
        rw [keptSchedule, hschedule, Option.bind_some, hread] at hkept
        exact Option.some_inj.mp hkept
      simp only [hfold, Manage.handle, Manage.handlePress, hgo, Bool.false_eq_true, if_false]
      dsimp only at hhandle
      split at hhandle
      · rename_i hpress
        rw [if_pos hpress]
        rw [hcall] at hhandle
        exact handleConfirm_seen hfold hhandle
      · rename_i hpress
        rw [if_neg hpress]
        cases hhandle
        rw [hfold]
    | _ => cases hstate

theorem handle_seen_elsewhere (hreal : isSchedule update = false)
    (hhandle : handle digits padded lax titles db now userId (.elsewhere conversation) update =
      .ok (db', chat')) :
    Manage.handle digits db now userId conversation update = .ok (db', fold digits lax chat') := by
  cases update with
  | new | elsewhere form =>
    cases hhandle
    rfl
  | scheduled schedule => cases hreal
  | press step value | pick categoryId | text raw =>
    obtain ⟨conversation', hout, rfl⟩ := outside_eq_ok hhandle
    exact hout
  | field reminderId field =>
    rw [handle] at hhandle
    rw [Manage.handle]
    split at hhandle
    · rename_i hoffers
      rw [if_pos hoffers]
      cases field with
      | menu | ask question =>
        obtain ⟨conversation', hout, rfl⟩ := outside_eq_ok hhandle
        exact hout
      | schedule =>
        rw [handleEditField] at hhandle
        split at hhandle
        · rename_i r hr
          cases hhandle
          rw [Manage.handleEditField, hr]
          rfl
        · cases hhandle
    · rename_i hoffers
      cases hhandle
      rw [if_neg hoffers]
      rfl

/-- A step of a chat is a step of its folding. -/
theorem handle_seen (hmodern : Modern now) (hadmits : Admits digits allowed update)
    (h : Kept padded allowed chat) (hreal : isSchedule update = false)
    (hhandle : handle digits padded lax titles db now userId chat update = .ok (db', chat')) :
    Manage.handle digits db now userId (fold digits lax chat) (seen digits lax chat update chat') =
      .ok (db', fold digits lax chat') := by
  cases chat with
  | elsewhere conversation => exact handle_seen_elsewhere hreal hhandle
  | wizard state data =>
    cases hleaves : leaves update with
    | true => exact handle_seen_leaving hleaves hhandle
    | false =>
      cases hstate : state.asksSchedule with
      | true => exact handle_seen_asked hmodern hadmits hstate h hleaves hreal hhandle
      | false => exact handle_seen_ends hstate h hleaves hreal hhandle

end Steps

end Remindo.Bot.Reminders
