import Remindo.Domain.Time
import Remindo.Foundation.Numerals
import Remindo.Foundation.Regex

namespace Remindo.Domain

open Remindo.Foundation
open Regex (seq alt char lit)

section Codec

variable (digits : Digits)

/-- `_HHMM`. -/
def hhmmPattern : Regex :=
  seq (alt (seq (char fun c ↦ decide (c = '0') || decide (c = '1')) (char digits.isDecimal))
      (seq (lit '2') (char fun c ↦ decide ('0' ≤ c ∧ c ≤ '3'))))
    (seq (lit ':') (seq (char fun c ↦ decide ('0' ≤ c ∧ c ≤ '5')) (char digits.isDecimal)))

/-- `time(hour, minute)`. -/
def WallTime.make (hour minute : ℤ) : Option WallTime :=
  if h : (0 ≤ hour ∧ hour < 24) ∧ 0 ≤ minute ∧ minute < 60 then
    some ⟨⟨hour.toNat, by omega⟩, ⟨minute.toNat, by omega⟩⟩
  else none

/-- Wall-clock `HH:MM` in 24-hour format; `none` where the source raises. -/
def parseHhmm (raw : Text) : Option WallTime :=
  if (hhmmPattern digits).accepts raw then
    match raw.splitOn ':' with
    | [hour, minute] => do
      let hour ← digits.int hour
      let minute ← digits.int minute
      WallTime.make hour minute
    | _ => none
  else none

def formatHhmm (t : WallTime) : Text := zfill 2 t.hour ++ ':' :: zfill 2 t.minute

/-- Five ASCII characters, `00:00` to `23:59`. -/
def IsHhmm (raw : Text) : Prop :=
  ∃ a b c d : Fin 10, (10 * a.val + b < 24 ∧ 10 * c.val + d < 60) ∧
    raw = [a.val.digitChar, b.val.digitChar, ':', c.val.digitChar, d.val.digitChar]

/-- The four characters around the colon: hours up to 23 and minutes up to 59, where the
second and the last digit may be of any script. -/
def IsTimeOfDay (a b c d : Char) : Prop :=
  ((a = '0' ∨ a = '1') ∧ digits.isDecimal b = true ∨ a = '2' ∧ '0' ≤ b ∧ b ≤ '3') ∧
    ('0' ≤ c ∧ c ≤ '5') ∧ digits.isDecimal d = true

/-- `HH:MM`, but the second or the last digit is not one of ASCII. -/
def HasForeignDigit (raw : Text) : Prop :=
  ∃ a b c d, IsTimeOfDay digits a b c d ∧ (128 ≤ b.toNat ∨ 128 ≤ d.toNat) ∧
    raw = [a, b, ':', c, d]

/-- `HH:MM`, and a newline behind it. -/
def EndsInNewline (raw : Text) : Prop :=
  ∃ a b c d, IsTimeOfDay digits a b c d ∧ raw = [a, b, ':', c, d, '\n']

end Codec

section RoundTrip

variable {digits : Digits} {raw : Text}

theorem zfill_two {n : ℕ} (h : n < 100) : zfill 2 n = [(n / 10).digitChar, (n % 10).digitChar] := by
  have hall : ∀ n < 100, zfill 2 n = [(n / 10).digitChar, (n % 10).digitChar] := by decide
  exact hall n h

theorem isHhmm_formatHhmm (t : WallTime) : IsHhmm (formatHhmm t) := by
  have hhour := t.hour.isLt
  have hminute := t.minute.isLt
  refine ⟨⟨t.hour / 10, by omega⟩, ⟨t.hour % 10, by omega⟩, ⟨t.minute / 10, by omega⟩,
    ⟨t.minute % 10, by omega⟩, ⟨by dsimp only; omega, by dsimp only; omega⟩, ?_⟩
  rw [formatHhmm, zfill_two (by omega), zfill_two (by omega)]
  rfl

theorem exists_of_isHhmm (h : IsHhmm raw) : ∃ t, raw = formatHhmm t := by
  obtain ⟨a, b, c, d, ⟨hhour, hminute⟩, rfl⟩ := h
  refine ⟨⟨⟨_, hhour⟩, ⟨_, hminute⟩⟩, ?_⟩
  rw [formatHhmm, zfill_two (by dsimp only; omega), zfill_two (by dsimp only; omega)]
  dsimp only
  rw [show (10 * a.val + b) / 10 = a by omega, show (10 * a.val + b) % 10 = b by omega,
    show (10 * c.val + d) / 10 = c by omega, show (10 * c.val + d) % 10 = d by omega]
  rfl

theorem fits_hhmmPattern : (hhmmPattern digits).Fits raw ↔
    ∃ a b c d, IsTimeOfDay digits a b c d ∧ raw = [a, b, ':', c, d] := by
  simp only [hhmmPattern, Regex.fits_seq, Regex.fits_alt, Regex.fits_char, Regex.fits_lit,
    Bool.or_eq_true, decide_eq_true_eq]
  constructor
  · rintro ⟨_, _, hhour, ⟨_, _, rfl, ⟨_, _, ⟨c, hc, rfl⟩, ⟨d, hd, rfl⟩, rfl⟩, rfl⟩, rfl⟩
    rcases hhour with ⟨_, _, ⟨a, ha, rfl⟩, ⟨b, hb, rfl⟩, rfl⟩ | ⟨_, _, rfl, ⟨b, hb, rfl⟩, rfl⟩
    · exact ⟨a, b, c, d, ⟨.inl ⟨ha, hb⟩, hc, hd⟩, rfl⟩
    · exact ⟨'2', b, c, d, ⟨.inr ⟨rfl, hb⟩, hc, hd⟩, rfl⟩
  · rintro ⟨a, b, c, d, ⟨hhour, hc, hd⟩, rfl⟩
    refine ⟨[a, b], _, ?_, ⟨_, [c, d], rfl, ⟨_, _, ⟨c, hc, rfl⟩, ⟨d, hd, rfl⟩, rfl⟩, rfl⟩, rfl⟩
    rcases hhour with ⟨ha, hb⟩ | ⟨rfl, hb⟩
    · exact .inl ⟨_, _, ⟨a, ha, rfl⟩, ⟨b, hb, rfl⟩, rfl⟩
    · exact .inr ⟨_, _, rfl, ⟨b, hb, rfl⟩, rfl⟩

/-- The pattern ends in `$`, which a newline may follow. -/
theorem accepts_hhmmPattern : (hhmmPattern digits).accepts raw = true ↔
    ∃ a b c d, IsTimeOfDay digits a b c d ∧
      (raw = [a, b, ':', c, d] ∨ raw = [a, b, ':', c, d, '\n']) := by
  rw [Regex.accepts_iff]
  constructor
  · rintro (hfits | ⟨core, hfits, rfl⟩)
    · obtain ⟨a, b, c, d, htime, rfl⟩ := fits_hhmmPattern.mp hfits
      exact ⟨a, b, c, d, htime, .inl rfl⟩
    · obtain ⟨a, b, c, d, htime, rfl⟩ := fits_hhmmPattern.mp hfits
      exact ⟨a, b, c, d, htime, .inr rfl⟩
  · rintro ⟨a, b, c, d, htime, rfl | rfl⟩
    · exact .inl (fits_hhmmPattern.mpr ⟨a, b, c, d, htime, rfl⟩)
    · exact .inr ⟨_, fits_hhmmPattern.mpr ⟨a, b, c, d, htime, rfl⟩, rfl⟩

theorem parseHhmm_append {xs ys : Text} {hour minute : ℤ}
    (haccepts : (hhmmPattern digits).accepts (xs ++ ':' :: ys) = true) (hxs : ':' ∉ xs)
    (hys : ':' ∉ ys) (hhour : digits.int xs = some hour) (hminute : digits.int ys = some minute) :
    parseHhmm digits (xs ++ ':' :: ys) = WallTime.make hour minute := by
  have hsplit : (xs ++ ':' :: ys).splitOn ':' = [xs, ys] := by
    have hparts : ∀ w ∈ [xs, ys], ':' ∉ w := by simp [hxs, hys]
    simpa using List.splitOn_intercalate ':' hparts (List.cons_ne_nil _ _)
  rw [parseHhmm, if_pos haccepts, hsplit]
  simp only [hhour, hminute, Option.bind_eq_bind, Option.bind_some]

theorem hour_of_fits {a b : Char}
    (h : (a = '0' ∨ a = '1') ∧ digits.isDecimal b = true ∨ a = '2' ∧ '0' ≤ b ∧ b ≤ '3') :
    ∃ i j : Fin 10, digits.value a = some i ∧ digits.value b = some j ∧ 10 * i.val + j < 24 := by
  rcases h with ⟨ha, hb⟩ | ⟨rfl, hb⟩
  · have hrange : '0' ≤ a ∧ a ≤ '1' := by rcases ha with rfl | rfl <;> decide
    obtain ⟨i, hi, hle⟩ := Digits.exists_value_le digits (by decide) hrange
    obtain ⟨j, hj⟩ := Option.isSome_iff_exists.mp hb
    change 48 + i.val ≤ 49 at hle
    exact ⟨i, j, hi, hj, by omega⟩
  · have hrange : '0' ≤ '2' ∧ '2' ≤ '2' := by decide
    obtain ⟨i, hi, hle⟩ := Digits.exists_value_le digits (by decide) hrange
    obtain ⟨j, hj, hle'⟩ := Digits.exists_value_le digits (by decide) hb
    change 48 + i.val ≤ 50 at hle
    change 48 + j.val ≤ 51 at hle'
    exact ⟨i, j, hi, hj, by omega⟩

theorem minute_of_fits {c d : Char} (hc : '0' ≤ c ∧ c ≤ '5') (hd : digits.isDecimal d = true) :
    ∃ i j : Fin 10, digits.value c = some i ∧ digits.value d = some j ∧ 10 * i.val + j < 60 := by
  obtain ⟨i, hi, hle⟩ := Digits.exists_value_le digits (by decide) hc
  obtain ⟨j, hj⟩ := Option.isSome_iff_exists.mp hd
  change 48 + i.val ≤ 53 at hle
  exact ⟨i, j, hi, hj, by omega⟩

theorem colon_notMem {a b : Char} {i j : Fin 10} (ha : digits.value a = some i)
    (hb : digits.value b = some j) : ':' ∉ [a, b] := by
  have hne := fun {c : Char} {k : Fin 10} (hc : digits.value c = some k) ↦
    (Digits.ne_of_isDecimal (Digits.isDecimal_of_value hc) (d := ':') (by decide) (by decide)).symm
  simp [hne ha, hne hb]

theorem exists_of_accepts (h : (hhmmPattern digits).accepts raw = true) :
    ∃ t, parseHhmm digits raw = some t := by
  obtain ⟨a, b, c, d, ⟨hhour, hc, hd⟩, hraw⟩ := accepts_hhmmPattern.mp h
  obtain ⟨i, j, ha, hb, hlt⟩ := hour_of_fits hhour
  obtain ⟨k, l, hc, hd, hlt'⟩ := minute_of_fits hc hd
  have hours := Digits.int_pair ha hb
  have minutes := Digits.int_pair hc hd
  have htime : ∃ t, WallTime.make ((10 * i.val + j : ℕ) : ℤ) ((10 * k.val + l : ℕ) : ℤ) = some t :=
    ⟨_, dif_pos ⟨⟨by omega, by omega⟩, by omega, by omega⟩⟩
  rcases hraw with rfl | rfl
  · change ∃ t, parseHhmm digits ([a, b] ++ ':' :: [c, d]) = some t
    rwa [parseHhmm_append h (colon_notMem ha hb) (colon_notMem hc hd) hours minutes]
  · have hline : ':' ∉ [c, d] ++ ['\n'] := by
      simpa using colon_notMem hc hd
    have hstrip : digits.int ([c, d] ++ ['\n']) = some ((10 * k.val + l : ℕ) : ℤ) := by
      rw [Digits.int_concat rfl, minutes]
    change ∃ t, parseHhmm digits ([a, b] ++ ':' :: ([c, d] ++ ['\n'])) = some t
    rwa [parseHhmm_append h (colon_notMem ha hb) hline hours hstrip]

theorem fits_of_isHhmm (h : IsHhmm raw) : (hhmmPattern digits).Fits raw := by
  obtain ⟨a, b, c, d, ⟨hhour, hminute⟩, rfl⟩ := h
  have hhours : ∀ i j : Fin 10, 10 * i.val + j < 24 →
      (i.val.digitChar = '0' ∨ i.val.digitChar = '1') ∨
        i.val.digitChar = '2' ∧ '0' ≤ j.val.digitChar ∧ j.val.digitChar ≤ '3' := by decide
  have hminutes : ∀ i j : Fin 10, 10 * i.val + j < 60 →
      '0' ≤ i.val.digitChar ∧ i.val.digitChar ≤ '5' := by decide
  have hdecimal : ∀ k : Fin 10, digits.isDecimal k.val.digitChar = true := fun k ↦
    Digits.isDecimal_of_isDigit ((by decide : ∀ k : Fin 10, k.val.digitChar.isDigit = true) k)
  exact fits_hhmmPattern.mpr ⟨_, _, _, _, ⟨(hhours a b hhour).imp_left fun ha ↦ ⟨ha, hdecimal b⟩,
    hminutes c d hminute, hdecimal d⟩, rfl⟩

theorem ascii_of_isHhmm (h : IsHhmm raw) : raw.length = 5 ∧ ∀ c ∈ raw, c.toNat < 128 := by
  obtain ⟨a, b, c, d, -, rfl⟩ := h
  have hdigit : ∀ k : Fin 10, k.val.digitChar.toNat < 128 := by decide
  refine ⟨rfl, ?_⟩
  simp only [List.forall_mem_cons]
  exact ⟨hdigit a, hdigit b, by decide, hdigit c, hdigit d, fun _ hc ↦ absurd hc List.not_mem_nil⟩

theorem isHhmm_of_isTimeOfDay {a b c d : Char} (h : IsTimeOfDay digits a b c d)
    (hb : b.toNat < 128) (hd : d.toNat < 128) : IsHhmm [a, b, ':', c, d] := by
  obtain ⟨hhour, hc, hdecimal⟩ := h
  obtain ⟨i, j, hi, hj, -⟩ := hour_of_fits hhour
  obtain ⟨k, l, hk, hl, -⟩ := minute_of_fits hc hdecimal
  have ha : a.toNat < 128 := by
    rcases hhour with ⟨rfl | rfl, -⟩ | ⟨rfl, -⟩ <;> decide
  have hc' : c.toNat < 128 := Nat.lt_of_le_of_lt hc.2 (by decide)
  have hdigit := fun {x : Char} {n : Fin 10} (hx : x.toNat < 128)
      (hn : digits.value x = some n) ↦
    Digits.exists_digitChar ((Digits.isDecimal_ascii hx).symm.trans (Digits.isDecimal_of_value hn))
  obtain ⟨i, rfl⟩ := hdigit ha hi
  obtain ⟨j, rfl⟩ := hdigit hb hj
  obtain ⟨k, rfl⟩ := hdigit hc' hk
  obtain ⟨l, rfl⟩ := hdigit hd hl
  have hhours : ∀ i j : Fin 10, (i.val.digitChar = '0' ∨ i.val.digitChar = '1') ∨
      i.val.digitChar = '2' ∧ '0' ≤ j.val.digitChar ∧ j.val.digitChar ≤ '3' →
        10 * i.val + j < 24 := by decide
  have hminutes : ∀ k l : Fin 10, '0' ≤ k.val.digitChar ∧ k.val.digitChar ≤ '5' →
      10 * k.val + l < 60 := by decide
  exact ⟨i, j, k, l, ⟨hhours i j (hhour.imp_left And.left), hminutes k l hc⟩, rfl⟩

theorem parseHhmm_formatHhmm (t : WallTime) : parseHhmm digits (formatHhmm t) = some t := by
  have haccepts : (hhmmPattern digits).accepts (formatHhmm t) = true :=
    Regex.accepts_iff.mpr (.inl (fits_of_isHhmm (isHhmm_formatHhmm t)))
  have hcolon : ∀ n : ℕ, ':' ∉ zfill 2 n := fun n hmem ↦ by cases isDigit_zfill hmem
  have hmake : WallTime.make (t.hour : ℕ) (t.minute : ℕ) = some t :=
    dif_pos ⟨⟨by omega, by omega⟩, by omega, by omega⟩
  rw [formatHhmm] at haccepts
  rw [formatHhmm, parseHhmm_append haccepts (hcolon _) (hcolon _) (int_zfill _ _ _)
    (int_zfill _ _ _), hmake]

/-- What is written is read back. What is read is the grammar, written as it
was, unless a digit of another script or a newline slips through. -/
theorem hhmm_grammar_iff (digits : Digits) :
    (∀ t, parseHhmm digits (formatHhmm t) = some t) ∧
      ∀ raw, (((parseHhmm digits raw).isSome = true ↔ IsHhmm raw) ∧
          ∀ t, parseHhmm digits raw = some t → formatHhmm t = raw) ↔
        ¬HasForeignDigit digits raw ∧ ¬EndsInNewline digits raw := by
  refine ⟨parseHhmm_formatHhmm, fun raw ↦ ?_⟩
  have hread : IsHhmm raw → ∃ t, raw = formatHhmm t ∧ parseHhmm digits raw = some t := fun h ↦ by
    obtain ⟨t, rfl⟩ := exists_of_isHhmm h
    exact ⟨t, rfl, parseHhmm_formatHhmm t⟩
  constructor
  · rintro ⟨hgrammar, -⟩
    have hascii : (hhmmPattern digits).accepts raw = true →
        raw.length = 5 ∧ ∀ c ∈ raw, c.toNat < 128 := by
      intro haccepts
      obtain ⟨t, ht⟩ := exists_of_accepts haccepts
      exact ascii_of_isHhmm (hgrammar.mp (by rw [ht]; rfl))
    refine ⟨?_, ?_⟩
    · rintro ⟨a, b, c, d, htime, hforeign, rfl⟩
      obtain ⟨-, hascii⟩ := hascii (accepts_hhmmPattern.mpr ⟨a, b, c, d, htime, .inl rfl⟩)
      have hb := hascii b (by simp)
      have hd := hascii d (by simp)
      omega
    · rintro ⟨a, b, c, d, htime, rfl⟩
      cases (hascii (accepts_hhmmPattern.mpr ⟨a, b, c, d, htime, .inr rfl⟩)).1
  · rintro ⟨hforeign, hline⟩
    have hgrammar : ∀ t, parseHhmm digits raw = some t → IsHhmm raw := by
      intro t ht
      have haccepts : (hhmmPattern digits).accepts raw = true := by
        by_contra hrejects
        rw [parseHhmm, if_neg hrejects] at ht
        cases ht
      obtain ⟨a, b, c, d, htime, rfl | rfl⟩ := accepts_hhmmPattern.mp haccepts
      · refine isHhmm_of_isTimeOfDay htime ?_ ?_
        · exact Nat.lt_of_not_le fun hb ↦ hforeign ⟨a, b, c, d, htime, .inl hb, rfl⟩
        · exact Nat.lt_of_not_le fun hd ↦ hforeign ⟨a, b, c, d, htime, .inr hd, rfl⟩
      · exact absurd ⟨a, b, c, d, htime, rfl⟩ hline
    refine ⟨⟨fun h ↦ ?_, fun h ↦ ?_⟩, fun t ht ↦ ?_⟩
    · obtain ⟨t, ht⟩ := Option.isSome_iff_exists.mp h
      exact hgrammar t ht
    · obtain ⟨t, -, ht⟩ := hread h
      rw [ht]
      rfl
    · obtain ⟨t', heq, ht'⟩ := hread (hgrammar t ht)
      rw [Option.some_inj.mp (ht.symm.trans ht'), ← heq]

/-- A newline behind the minutes is read over. -/
theorem newline_is_read_over :
    parseHhmm .ascii "08:00\n".toList = some ⟨8, 0⟩ ∧
      ¬(((parseHhmm .ascii "08:00\n".toList).isSome = true ↔ IsHhmm "08:00\n".toList) ∧
        ∀ t, parseHhmm .ascii "08:00\n".toList = some t → formatHhmm t = "08:00\n".toList) := by
  have hread : parseHhmm .ascii "08:00\n".toList = some ⟨8, 0⟩ := by decide
  exact ⟨hread, fun h ↦ absurd (h.2 _ hread) (by decide)⟩

end RoundTrip

end Remindo.Domain
