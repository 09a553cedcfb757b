import Remindo.Domain.Time
import Remindo.Domain.UserText
import Remindo.Foundation.Markup

namespace Remindo.Bot

open Remindo.Domain Remindo.Foundation

/-- A language code, as the user's row holds it. -/
abbrev Lang := String

def defaultLang : Lang := "ru"

/-- The entries of `TEXTS` a reminder message is made of. -/
def texts : List (String × List (Lang × String)) :=
  [("reminder.message",
    [("ru", "{emoji} <b>{title}</b>\n{time}"), ("en", "{emoji} <b>{title}</b>\n{time}")]),
   ("reminder.no_next_fire", [("ru", "не запланировано"), ("en", "not scheduled")])]

/-- Resolve a user-facing string; `none` where the lookup or the formatting
raises. -/
def T (key : String) (lang : Lang) (kwargs : List (Text × Text)) : Option Text := do
  let variants ← texts.lookup key
  let template ← (variants.lookup lang).or (variants.lookup defaultLang)
  if kwargs = [] then return template.toList else Text.format template.toList kwargs

def digit (n : ℕ) : Char := Char.ofNat (48 + n % 10)

def twoDigits (n : ℕ) : Text := [digit (n / 10), digit n]

/-- `strftime("%d.%m %H:%M")` of a wall clock. -/
def strftime (naive : ℤ) : Text :=
  let date := civil (dateOf naive)
  let minutes := (timeOf naive / minute).toNat
  twoDigits date.day ++ ['.'] ++ twoDigits date.month ++ [' '] ++ twoDigits (minutes / 60) ++
    [':'] ++ twoDigits (minutes % 60)

def formatLocal (moment : Option ℤ) (tz : Zone) (lang : Lang) : Option Text :=
  match moment with
  | none => T "reminder.no_next_fire" lang []
  | some moment => some (strftime (astimezone moment tz))

def renderReminderMessage (title emoji : Text) (fireAt : ℤ) (tz : Zone) (lang : Lang) :
    Option Text := do
  let time ← formatLocal (some fireAt) tz lang
  T "reminder.message" lang
    [("emoji".toList, emoji), ("title".toList, title), ("time".toList, time)]

structure OutgoingMessage where
  chatId : ℤ
  text : Text
  parseMode : String := "HTML"

/-- The message the dispatcher hands to the gateway. -/
def reminderMessage (chatId : ℤ) (title emoji : Text) (fireAt : ℤ) (tz : Zone) (lang : Lang) :
    Option OutgoingMessage :=
  (renderReminderMessage title emoji fireAt tz lang).map fun text ↦
    { chatId := chatId, text := text }

/-- The template with its tags stripped and its fields verbatim. -/
def verbatim (title emoji time : Text) : Text := emoji ++ ' ' :: (title ++ '\n' :: time)

theorem T_message (lang : Lang) (emoji title time : Text) :
    T "reminder.message" lang
      [("emoji".toList, emoji), ("title".toList, title), ("time".toList, time)] =
        some (emoji ++ " <b>".toList ++ title ++ "</b>\n".toList ++ time) := by
  have hvariants : texts.lookup "reminder.message" =
      some [("ru", "{emoji} <b>{title}</b>\n{time}"), ("en", "{emoji} <b>{title}</b>\n{time}")] :=
    rfl
  have hformat : Text.format "{emoji} <b>{title}</b>\n{time}".toList
      [("emoji".toList, emoji), ("title".toList, title), ("time".toList, time)] =
        some (emoji ++ " <b>".toList ++ title ++ "</b>\n".toList ++ time) := by
    simp [Text.format, Text.formatFrom, List.lookup_cons]
  rw [T, hvariants]
  by_cases hru : lang = "ru"
  · subst hru
    exact hformat
  by_cases hen : lang = "en"
  · subst hen
    exact hformat
  have hnone : List.lookup lang [("ru", "{emoji} <b>{title}</b>\n{time}"),
      ("en", "{emoji} <b>{title}</b>\n{time}")] = none := by
    simp only [List.lookup_cons, List.lookup_nil, beq_false_of_ne hru, beq_false_of_ne hen]
  change ((List.lookup lang _).or _).bind _ = _
  rw [hnone]
  exact hformat

theorem digit_plain (n : ℕ) : isSpecial (digit n) = false := by
  have hdigits : ∀ k < 10, isSpecial (Char.ofNat (48 + k)) = false := by decide
  exact hdigits _ (Nat.mod_lt n (by decide))

theorem strftime_plain (naive : ℤ) : ∀ c ∈ strftime naive, isSpecial c = false := by
  intro c hc
  simp only [strftime, twoDigits, List.mem_append, List.mem_cons, List.not_mem_nil, or_false] at hc
  rcases hc with ((((((rfl | rfl) | rfl) | rfl | rfl) | rfl) | rfl | rfl) | rfl) | rfl | rfl <;>
    first | exact digit_plain _ | rfl

theorem isSpace_of_isSpecial {c : Char} (h : isSpecial c = true) : Text.isSpace c = false := by
  simp only [isSpecial, Bool.or_eq_true, decide_eq_true_eq] at h
  rcases h with (rfl | rfl) | rfl <;> rfl

theorem reminderMessage_eq (chatId fireAt : ℤ) (title emoji : Text) (tz : Zone) (lang : Lang) :
    reminderMessage chatId title emoji fireAt tz lang =
      some { chatId := chatId, text :=
        emoji ++ " <b>".toList ++ title ++ "</b>\n".toList ++ strftime (astimezone fireAt tz) } :=
  congrArg (Option.map fun text ↦ ({ chatId := chatId, text := text } : OutgoingMessage))
    (T_message lang emoji title _)

/-- What a message shows to a reader of its markup. -/
def OutgoingMessage.Shows (m : Markup) (message : OutgoingMessage) (shown : Text) : Prop :=
  message.parseMode = "HTML" ∧ m.Shows [] message.text shown

/-- The fields of the template are shown verbatim if they are plain. -/
theorem shows_verbatim_iff {m : Markup} (hbold : m.element ['b'] = some ['b'])
    {title emoji time : Text} (htime : ∀ c ∈ time, isSpecial c = false) :
    m.Shows [] (emoji ++ " <b>".toList ++ title ++ "</b>\n".toList ++ time)
      (verbatim title emoji time) ↔
        (∀ c ∈ title, isSpecial c = false) ∧ ∀ c ∈ emoji, isSpecial c = false := by
  constructor
  · intro h
    have hplain := h.not_special (by simp [verbatim, List.count_append]; omega)
      (by simp [verbatim, List.count_append]) (by simp [verbatim]; omega)
    constructor
    · intro c hc
      exact hplain c (by simp [verbatim, hc])
    · intro c hc
      exact hplain c (by simp [verbatim, hc])
  · intro ⟨htitle, hemoji⟩
    have hrest : m.Shows [] (time ++ []) (time ++ []) := .append htime .done
    have hstop : m.Shows [['b']] ('<' :: '/' :: (['b'] ++ '>' :: '\n' :: (time ++ [])))
        ('\n' :: (time ++ [])) := .stop ['b'] (.plain '\n' rfl hrest)
    have hstart := Markup.Shows.plain ' ' rfl (.start hbold (hstop.append htitle))
    simpa [verbatim] using hstart.append hemoji

/-- A reminder's message shows its title, its emoji and its time as they are,
exactly if neither the title nor the emoji was typed with a special character. -/
theorem message_verbatim_iff {m : Markup} {category : Char → GeneralCategory}
    {rawTitle rawEmoji title emoji : Text} (hbold : m.element ['b'] = some ['b'])
    (htitle : normalizeReminderTitle rawTitle = .ok title)
    (hemoji : normalizeEmoji category rawEmoji = .ok emoji)
    (chatId fireAt : ℤ) (tz : Zone) (lang : Lang) :
    ∃ message, reminderMessage chatId title emoji fireAt tz lang = some message ∧
      (message.Shows m (verbatim title emoji (strftime (astimezone fireAt tz))) ↔
        ∀ c ∈ rawTitle ++ rawEmoji, isSpecial c = false) := by
  refine ⟨_, reminderMessage_eq chatId fireAt title emoji tz lang, ?_⟩
  have hplain : ∀ {raw text : Text}, (∀ c, Text.isSpace c = false → (c ∈ text ↔ c ∈ raw)) →
      ((∀ c ∈ text, isSpecial c = false) ↔ ∀ c ∈ raw, isSpecial c = false) := by
    intro raw text hmem
    constructor <;> intro h c hc <;> by_contra hspecial <;> rw [Bool.not_eq_false] at hspecial
    · rw [h c ((hmem c (isSpace_of_isSpecial hspecial)).mpr hc)] at hspecial
      cases hspecial
    · rw [h c ((hmem c (isSpace_of_isSpecial hspecial)).mp hc)] at hspecial
      cases hspecial
  rw [OutgoingMessage.Shows, shows_verbatim_iff hbold (strftime_plain _),
    hplain fun c hc ↦ mem_normalizeReminderTitle htitle hc,
    hplain fun c hc ↦ mem_normalizeEmoji hemoji hc]
  simp only [true_and, List.mem_append, or_imp, forall_and]

section Sample

/-- The elements and named entities of Telegram's HTML that take no attributes. -/
def telegramElements : List Text :=
  ["b", "strong", "i", "em", "u", "ins", "s", "strike", "del", "code", "pre", "blockquote",
    "tg-spoiler"].map String.toList

def telegramEntities : List (Text × Char) :=
  [("lt".toList, '<'), ("gt".toList, '>'), ("amp".toList, '&'), ("quot".toList, '"')]

def telegram : Markup where
  entity body := telegramEntities.lookup body
  element body := if body ∈ telegramElements then some body else none
  entity_plain body c h := by
    have hall : ∀ e ∈ telegramEntities, e.1 ≠ [] ∧ ∀ x ∈ e.1, isSpecial x = false := by
      simp [telegramEntities, isSpecial]
    obtain ⟨before, after, hsplit, -⟩ := List.lookup_eq_some_iff.mp h
    exact hall (body, c) (by rw [hsplit]; exact List.mem_append_right _ List.mem_cons_self)
  element_tag body name h := by
    have hall : ∀ b ∈ telegramElements, b ≠ [] ∧ '<' ∉ b ∧ '>' ∉ b := by
      simp [telegramElements]
    split at h <;> cases h
    exact ⟨hall _ ‹_›, hall _ ‹_›⟩

/-- What the emoji of the samples need to know of Unicode. -/
def sampleCategory (c : Char) : GeneralCategory :=
  if c.toNat < 32 then .cc else if c = ' ' then .zs else .other

theorem message_verbatim_sample :
    ∃ message, reminderMessage 7 "Take a pill".toList "💊".toList (day / 2) .utc "en" = some message ∧
      (message.Shows telegram (verbatim "Take a pill".toList "💊".toList
        (strftime (astimezone (day / 2) Zone.utc))) ↔
          ∀ c ∈ "  Take a  pill".toList ++ "💊".toList, isSpecial c = false) := by
  have htitle : normalizeReminderTitle "  Take a  pill".toList = .ok "Take a pill".toList := by
    decide
  have hemoji : normalizeEmoji sampleCategory "💊".toList = .ok "💊".toList := by decide
  exact message_verbatim_iff rfl htitle hemoji _ _ _ _

/-- An accepted title that no markup can make sense of. -/
theorem less_than_is_malformed :
    normalizeReminderTitle "5 < 6".toList = .ok "5 < 6".toList ∧
      normalizeEmoji sampleCategory "💊".toList = .ok "💊".toList ∧
      ∃ message, reminderMessage 7 "5 < 6".toList "💊".toList (day / 2) .utc "en" = some message ∧
        ∀ (m : Markup) (shown : Text), ¬message.Shows m shown := by
  refine ⟨by decide, by decide, _, reminderMessage_eq _ _ _ _ _ _, ?_⟩
  intro m shown ⟨_, h⟩
  have hplain := strftime_plain (astimezone (day / 2) Zone.utc)
  have hlt := List.count_eq_zero.mpr fun h ↦ absurd (hplain '<' h) nofun
  have hgt := List.count_eq_zero.mpr fun h ↦ absurd (hplain '>' h) nofun
  have hbrackets := h.brackets
  simp [hlt, hgt] at hbrackets

end Sample

end Remindo.Bot
