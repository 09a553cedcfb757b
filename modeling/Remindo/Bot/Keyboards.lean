import Remindo.Bot.Wizard

namespace Remindo.Bot.Reminders

open Remindo.Domain Remindo.Db Remindo.Services Remindo.Foundation
open Remindo.Bot.Manage (Conversation Update)

section Pickers

def packWallTime (value : Text) : Text := value.filter (· ≠ ':')

def packWindow (start stop : Text) : Text := packWallTime start ++ packWallTime stop

def wizardScheduleKinds : List ScheduleKind := [.once, .daily, .weekly, .monthly, .interval]

def dailyTimePresets : List Text :=
  ["07:00", "08:00", "09:00", "12:00", "15:00", "18:00", "20:00", "22:00"].map String.toList

def intervalPresets : List ℕ := [30, 60, 90, 120, 180, 240]

def windowPresets : List (Text × Text) :=
  [("08:00", "22:00"), ("09:00", "21:00"), ("10:00", "18:00"), ("00:00", "00:00")].map
    fun window ↦ (window.1.toList, window.2.toList)

/-- Quick presets for a wall-clock time plus manual entry. -/
def timePicker (step : String) : List (String × Text) :=
  [7, 8, 9, 12, 15, 18, 20, 22].map
      (fun hour ↦ (step, packWallTime (zfill 2 hour ++ ":00".toList))) ++ [(step, "man".toList)]

def dayPicker (step : String) (top : ℕ) : List (String × Text) :=
  (List.range' 1 top).map (fun n ↦ (step, Nat.toDigits 10 n)) ++ [(step, "ok".toList)]

def intervalPicker : List (String × Text) :=
  intervalPresets.map (fun minutes ↦ ("every", Nat.toDigits 10 minutes)) ++ [("every", "man".toList)]

def windowPicker : List (String × Text) :=
  windowPresets.map fun window ↦ ("window", packWindow window.1 window.2)

/-- The buttons of `WizCb` a question comes with, its cancel button apart. A category
is picked by one of `CatCb`, next to the one for a new category. -/
def buttons : WizardState → List (String × Text)
  | .category => [("cat", "new".toList)]
  | .title => []
  | .kind => wizardScheduleKinds.map fun kind ↦ ("kind", kind.value)
  | .date => [("date", "today".toList), ("date", "tmrw".toList), ("date", "man".toList)]
  | .moment => timePicker "at"
  | .times => dailyTimePresets.map (fun value ↦ ("time", packWallTime value)) ++
      [("time", "man".toList), ("times", "ok".toList)]
  | .weekdays => dayPicker "wday" weekdaysMaxLength
  | .monthDays => dayPicker "mday" monthDaysMaxLength
  | .onMissing => [("miss", "last".toList), ("miss", "skip".toList)]
  | .everyMinutes => intervalPicker
  | .window => windowPicker ++ [("window", "man".toList)]
  | .confirm => [("confirm", "yes".toList)]

/-- A press comes off the screen the wizard shows. -/
def Offered : Chat → Update → Prop
  | .wizard state _, .press step value =>
    (step, value) ∈ buttons state ∨ Manage.isCancel step value = true
  | _, _ => True

instance : ∀ (chat : Chat) (update : Update), Decidable (Offered chat update)
  | .elsewhere _, _ => isTrue trivial
  | .wizard _ _, .press _ _ => inferInstanceAs (Decidable (_ ∨ _))
  | .wizard _ _, .new | .wizard _ _, .field _ _ | .wizard _ _, .pick _ | .wizard _ _, .text _
  | .wizard _ _, .scheduled _ | .wizard _ _, .elsewhere _ => isTrue trivial

end Pickers

section Presets

variable {digits : Digits} {state : WizardState} {step : String} {value : Text}

theorem isDigit_of_isdigit (hascii : ∀ c ∈ value, c.toNat < 128) (h : digits.isdigit value = true) :
    value ≠ [] ∧ ∀ c ∈ value, c.isDigit = true := by
  simp only [Digits.isdigit, Bool.and_eq_true, decide_eq_true_eq, List.all_eq_true] at h
  exact ⟨h.1, fun c hc ↦ (digits.isDigit_ascii c (hascii c hc)).symm.trans (h.2 c hc)⟩

theorem isdigit_of_isDigit (hne : value ≠ []) (h : ∀ c ∈ value, c.isDigit = true) :
    digits.isdigit value = true := by
  simp only [Digits.isdigit, Bool.and_eq_true, decide_eq_true_eq, List.all_eq_true]
  refine ⟨hne, fun c hc ↦ ?_⟩
  have hascii := (Digits.toNat_of_isDigit (h c hc)).2
  rw [digits.isDigit_ascii c (by omega)]
  exact h c hc

/-- Whatever is plain ASCII is read where it is let through. -/
theorem not_misread (hascii : ∀ c ∈ value, c.toNat < 128) : ¬Misread digits value := by
  rintro ⟨hdigits, hint⟩
  obtain ⟨hne, hall⟩ := isDigit_of_isdigit hascii hdigits
  rw [Digits.int_digits hne hall] at hint
  cases hint

theorem buttons_ascii (state : WizardState) : ∀ b ∈ buttons state, ∀ c ∈ b.2, c.toNat < 128 := by
  have h : (buttons state).all (fun b ↦ b.2.all fun c ↦ decide (c.toNat < 128)) = true := by
    cases state <;> rfl
  intro b hb c hc
  exact of_decide_eq_true (List.all_eq_true.mp (List.all_eq_true.mp h b hb) c hc)

/-- The buttons of a question carry its own step. -/
theorem every_button (h : ("every", value) ∈ buttons state) :
    value = "man".toList ∨ ∃ minutes ∈ intervalPresets, value = Nat.toDigits 10 minutes := by
  have hsteps : ∀ state, state ≠ .everyMinutes → ∀ b ∈ buttons state, b.1 ≠ "every" := by
    intro state hstate
    cases state <;> first | decide | exact absurd rfl hstate
  by_cases hstate : state = .everyMinutes
  · subst hstate
    simp only [buttons, intervalPicker, List.mem_append, List.mem_map, List.mem_singleton,
      Prod.mk.injEq, true_and] at h
    obtain ⟨minutes, hmem, rfl⟩ | rfl := h
    · exact .inr ⟨minutes, hmem, rfl⟩
    · exact .inl rfl
  · exact absurd rfl (hsteps state hstate _ h)

theorem int_toDigits (digits : Digits) (n : ℕ) : digits.int (Nat.toDigits 10 n) = some (n : ℤ) := by
  have hpad : zfill 0 n = Nat.toDigits 10 n := by simp [zfill, List.leftpad]
  rw [← hpad, int_zfill]

theorem properStep_preset : ∀ minutes ∈ intervalPresets, ProperStep minutes := by decide

/-- A press that is offered lets in no other step than a proper one. -/
theorem admits_button (h : (step, value) ∈ buttons state ∨ Manage.isCancel step value = true) :
    Admits digits ProperStep (.press step value) := by
  refine ⟨fun _ h ↦ h, ?_⟩
  rintro value n ⟨⟩ hdigits hn
  obtain hbutton | hcancel := h
  · obtain rfl | ⟨minutes, hmem, rfl⟩ := every_button hbutton
    · exact absurd rfl (Manage.ne_of_isdigit (c := 'm') hdigits (by decide) (by decide) (by decide))
    · rw [int_toDigits] at hn
      cases hn
      exact properStep_preset minutes hmem
  · cases hcancel

theorem admits_offered {chat : Chat} {data : FsmData} {update : Update}
    (hchat : chat = .wizard state data) (h : Offered chat update) :
    Admits digits ProperStep update := by
  subst hchat
  cases update with
  | press step value => exact admits_button h
  | _ => exact ⟨fun _ h ↦ h, by rintro value n ⟨⟩⟩

theorem not_offRange {padded : Bool} {data : FsmData}
    (h : Answered padded ProperStep data .window) : ¬OffRange data := by
  rintro ⟨n, hn, hoff⟩
  obtain ⟨-, -, m, hm, hproper⟩ := h
  cases hm.symm.trans hn
  exact hoff hproper

/-- An offered press raises what the service raises, and nothing else. -/
theorem service_of_offered {padded : Bool} {lax : LaxInt} {db : Database} {now : ℤ} {userId : ℕ}
    {data : FsmData} {update : Update} {fault : Fault}
    (h : Answered padded ProperStep data state) (hoffered : Offered (.wizard state data) update)
    (hraises : Raises digits lax db now userId data state update fault) :
    ∃ error, fault = .service error := by
  have hread : ∀ step value, update = .press step value → Manage.isCancel step value = false →
      ¬Misread digits value := by
    rintro step value rfl hstays
    obtain hbutton | hcancel := hoffered
    · exact not_misread (buttons_ascii state _ hbutton)
    · cases hstays.symm.trans hcancel
  cases hraises with
  | weekday misread | monthDay misread | every misread =>
    exact absurd misread (hread _ _ rfl rfl)
  | window read off | windowText read off => exact absurd off (not_offRange h)
  | refused kept read call other => exact ⟨_, rfl⟩

end Presets

end Remindo.Bot.Reminders
