import Remindo.Bot.Folding
import Remindo.Foundation.Simulation
import Remindo.Serial.Editing

namespace Remindo.Serial

open Remindo.Domain Remindo.Db Remindo.Services Remindo.Foundation
open Remindo.Bot.Manage (Conversation Update)
open Remindo.Bot.Reminders (Chat Keeps Kept Modern admits_all fold handle handle_seen isSchedule
  keeps_handle keptSchedule sampleNow samplePressed seen)

/-- The database and the outbox, and the screen every user is at. -/
structure Screens where
  world : World
  chats : ℕ → Chat

namespace Screens

def initial (users : Table User) (categories : Table Category) : Screens :=
  ⟨.initial users categories, fun _ ↦ .elsewhere .idle⟩

/-- A handler that raises takes its session back, and not what it has stored for
the chat. -/
def step (digits : Digits) (padded : Bool) (lax : LaxInt) (titles : ℤ → ℕ → Text)
    (settings : Settings) (s : Screens) : ChatEvent → Option Screens
  | .handle now userId update =>
    if isSchedule update then none
    else match handle digits padded lax (titles now) s.world.db now userId (s.chats userId) update with
    | .ok (db, chat) => some ⟨{ s.world with db := db }, Function.update s.chats userId chat⟩
    | .error (_, chat) => some ⟨s.world, Function.update s.chats userId chat⟩
  | .operation op =>
    if op.isEdit then none else (perform settings s.world op).map fun w ↦ { s with world := w }

/-- Every chat with its questions about the schedule taken as one. -/
def folded (digits : Digits) (lax : LaxInt) (s : Screens) : Chats :=
  ⟨s.world, fun userId ↦ fold digits lax (s.chats userId)⟩

def AllKept (padded : Bool) (s : Screens) : Prop :=
  ∀ userId, Kept padded (fun _ ↦ True) (s.chats userId)

end Screens

/-- The clock a handler reads is of our time. -/
def ChatEvent.InTime : ChatEvent → Prop
  | .handle now _ _ => Modern now
  | .operation _ => True

instance : ∀ e : ChatEvent, Decidable e.InTime
  | .handle .. => inferInstanceAs (Decidable (Modern _))
  | .operation _ => isTrue trivial

/-- An update is seen as it is, or as the schedule it completes, or not at all;
everything else is seen as it is. -/
inductive Shadow : ChatEvent → List ChatEvent → Prop
  | seen (e : ChatEvent) : Shadow e [e]
  | raised (now : ℤ) (userId : ℕ) (update : Update) : Shadow (.handle now userId update) []
  | completed (now : ℤ) (userId : ℕ) (update : Update) (schedule : Schedule) :
      Shadow (.handle now userId update) [.handle now userId (.scheduled schedule)]

section Refinement

variable {digits : Digits} {padded : Bool} {lax : LaxInt} {titles : ℤ → ℕ → Text}
  {settings : Settings} {s s' : Screens} {e : ChatEvent}

theorem folded_update (s : Screens) (w : World) (userId : ℕ) (chat : Chat) :
    Screens.folded digits lax ⟨w, Function.update s.chats userId chat⟩ =
      ⟨w, Function.update (s.folded digits lax).conversations userId (fold digits lax chat)⟩ := by
  rw [Screens.folded, Screens.folded]
  congr 1
  exact (Function.comp_update (fold digits lax) s.chats userId chat)

theorem allKept_update {w : World} {userId : ℕ} {chat : Chat} (h : s.AllKept padded)
    (hchat : Kept padded (fun _ ↦ True) chat) :
    Screens.AllKept padded ⟨w, Function.update s.chats userId chat⟩ := by
  intro i
  dsimp only
  by_cases hi : i = userId
  · subst hi
    rwa [Function.update_self]
  · rw [Function.update_of_ne hi]
    exact h i

theorem shadow_seen {now : ℤ} {userId : ℕ} {chat chat' : Chat} {update : Update} :
    Shadow (.handle now userId update) [.handle now userId (seen digits lax chat update chat')] := by
  unfold seen
  split
  · split
    · generalize keptSchedule digits lax _ = kept
      cases kept with
      | none => exact .seen _
      | some schedule => exact .completed now userId update schedule
    · exact .seen _
  · exact .seen _

/-- What a handler leaves on the screens. -/
theorem exists_handled {now : ℤ} {userId : ℕ} {update : Update} (hkept : s.AllKept padded)
    (hnow : Modern now)
    (h : s.step digits padded lax titles settings (.handle now userId update) = some s') :
    s'.AllKept padded ∧ ∃ ks, Shadow (.handle now userId update) ks ∧
      run (Chats.step digits settings) (s.folded digits lax) ks = some (s'.folded digits lax) := by
  have hchat : Kept padded (fun _ ↦ True) (s.chats userId) := hkept userId
  have hkeeps : Keeps padded (fun _ ↦ True) (s.chats userId)
      (handle digits padded lax (titles now) s.world.db now userId (s.chats userId) update) :=
    keeps_handle hnow (fun _ _ _ ↦ admits_all) hchat
  rw [Screens.step] at h
  split at h
  · cases h
  rename_i hreal
  split at h
  · rename_i db chat hhandle
    cases h
    rw [hhandle] at hkeeps
    refine ⟨allKept_update hkept hkeeps,
      [.handle now userId (seen digits lax (s.chats userId) update chat)], shadow_seen, ?_⟩
    have hseen := handle_seen hnow admits_all hchat (eq_false_of_ne_true hreal) hhandle
    rw [folded_update, run, Chats.step]
    dsimp only [Screens.folded]
    rw [hseen]
    rfl
  · rename_i fault chat hhandle
    cases h
    rw [hhandle] at hkeeps
    have hsame : chat = s.chats userId := hkeeps
    subst hsame
    rw [Function.update_eq_self]
    exact ⟨hkept, [], .raised now userId update, rfl⟩

/-- The screens of the bot refine its conversations. -/
theorem screens_simulation : Simulation (Screens.step digits padded lax titles settings)
    (Chats.step digits settings) (fun _ e ↦ e.InTime) (Screens.AllKept padded)
    (Screens.folded digits lax) Shadow where
  keeps s e s' hkept htime h := by
    cases e with
    | handle now userId update => exact (exists_handled hkept htime h).1
    | operation op =>
      rw [Screens.step] at h
      split at h
      · cases h
      · obtain ⟨w, -, rfl⟩ := Option.map_eq_some_iff.mp h
        exact hkept
  follows s e s' hkept htime h := by
    cases e with
    | handle now userId update => exact (exists_handled hkept htime h).2
    | operation op =>
      refine ⟨_, .seen _, ?_⟩
      rw [Screens.step] at h
      rw [run, Chats.step]
      split at h
      · cases h
      · rename_i hop
        obtain ⟨w, hw, rfl⟩ := Option.map_eq_some_iff.mp h
        rw [if_neg hop]
        dsimp only [Screens.folded]
        rw [hw]
        rfl

end Refinement

section Sample

/-- A reminder made by the buttons of the wizard, and the planner after it. -/
def samplePresses : List ChatEvent :=
  (samplePressed ++ [Update.press "confirm" "yes".toList]).map (.handle sampleNow 0) ++
    [.operation (.materialize sampleNow)]

theorem samplePresses_runs : (run (Screens.step .ascii true .strict (fun _ _ ↦ []) sampleSettings)
    (.initial sampleUsers sampleCategories) samplePresses).isSome = true := by
  decide +kernel

end Sample

end Remindo.Serial
