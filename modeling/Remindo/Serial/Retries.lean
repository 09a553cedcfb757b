import Remindo.Serial.Leases

namespace Remindo.Serial

open Remindo.Domain Remindo.Db Remindo.Services Remindo.Foundation
open Dispatching (Work Memory conclude verdictValues)

def Duty.rows : Duty → List (ℕ × Delivery)
  | .claimed rows => rows
  | .working batch _ => batch.map fun w ↦ (w.id, w.row)

/-- The worker has claimed the delivery, and owes it a verdict. -/
def Holds (c : Crew) (k j : ℕ) (row : Delivery) : Prop :=
  ∃ duty, c.duties k = some duty ∧ (j, row) ∈ duty.rows

/-- No worker has the delivery in hand. -/
def Idle (c : Crew) (j : ℕ) : Prop := ∀ k row, ¬Holds c k j row

/-- What the transport answers to an attempt at the delivery. -/
def Event.answer (c : Crew) (j : ℕ) : Event → Option SendResult
  | .verdict k result _ =>
    match c.duties k with
    | some (.working (w :: _) _) => if w.id = j then some result else none
    | _ => none
  | _ => none

/-- The crew, and how often a delivery has met a transient failure since it was
last sent. -/
structure Strikes where
  crew : Crew
  count : ℕ

def strikesAfter (count : ℕ) : Option SendResult → ℕ
  | some (.delivered _) => 0
  | some (.failed .transient _ _) => count + 1
  | _ => count

def strike (settings : Settings) (j : ℕ) (s : Strikes) (e : Event) : Option Strikes :=
  (work settings s.crew e).map fun c ↦ ⟨c, strikesAfter s.count (e.answer s.crew j)⟩

/-- A failure the answer reports, if it does, may pass. -/
def mayPass : SendResult → Bool
  | .delivered _ => true
  | .failed errorClass _ _ => !errorClass.isFatal

/-- The message goes out, and does not fail for good. -/
def attempted (memory : Memory) (w : Work) (result : SendResult) : Bool :=
  w.context.any (fun c ↦
    (checkDeliverable (memory.occurrenceStatus c) (memory.userBlocked c)).isNone) && mayPass result

/-- Each claim of the delivery is followed by its verdict before the next one,
on an attempt that is made. -/
def OneByOne (settings : Settings) (j : ℕ) (s : Strikes) : Event → Prop
  | .claim _ now locked => Returns settings s.crew now locked j → Idle s.crew j
  | .stop k => ∀ row, ¬Holds s.crew k j row
  | .verdict k result _ =>
    match s.crew.duties k with
    | some (.working (w :: _) memory) => w.id = j → attempted memory w result = true
    | _ => True
  | _ => True

section Verdicts

variable {memory : Memory} {w : Work} {result : SendResult} {now : ℤ}

theorem decideFailure_transient {n : ℕ} (hn : n < 5) (now : ℤ) (errorCode : String)
    (retryAfter : Option ℤ) : decideFailure (n + 1) .transient now errorCode retryAfter =
      if n + 1 < 5 then
        ⟨.pending, n + 1, some (now + 30 * second * 2 ^ n), some errorCode, false⟩
      else ⟨.failed, n + 1, none, some errorCode, false⟩ := by
  obtain rfl | rfl | rfl | rfl | rfl : n = 0 ∨ n = 1 ∨ n = 2 ∨ n = 3 ∨ n = 4 := by omega
  all_goals rfl

theorem decideFailure_retryAfter (n : ℕ) (now : ℤ) (errorCode : String) (retryAfter : Option ℤ) :
    ∃ moment, decideFailure (n + 1) .retryAfter now errorCode retryAfter =
      ⟨.pending, n, some moment, some errorCode, false⟩ :=
  ⟨_, rfl⟩

theorem conclude_attempted (h : attempted memory w result = true) :
    (∃ messageId, result = .delivered messageId ∧
      (conclude memory w result now).verdict = decideSuccess) ∨
    ∃ errorClass retryAfter errorCode, result = .failed errorClass retryAfter errorCode ∧
      (errorClass = .transient ∨ errorClass = .retryAfter) ∧
        (conclude memory w result now).verdict =
          decideFailure w.row.attempts errorClass now errorCode retryAfter := by
  rw [attempted, Bool.and_eq_true, Option.any_eq_true] at h
  obtain ⟨⟨c, hc, hopen⟩, hresult⟩ := h
  rw [Option.isNone_iff_eq_none] at hopen
  cases result with
  | delivered messageId => exact .inl ⟨messageId, rfl, by simp only [conclude, hc, hopen]⟩
  | failed errorClass retryAfter errorCode =>
    refine .inr ⟨errorClass, retryAfter, errorCode, rfl, ?_, by simp only [conclude, hc, hopen]⟩
    cases errorClass with
    | transient => exact .inl rfl
    | retryAfter => exact .inr rfl
    | forbidden | badRequest => cases hresult

end Verdicts

section Rows

variable {settings : Settings} {c c' : Crew} {e : Event} {j : ℕ} {d : Delivery}

theorem answer_eq_some {result : SendResult} (h : e.answer c j = some result) :
    ∃ k now w rest memory, e = .verdict k result now ∧
      c.duties k = some (.working (w :: rest) memory) ∧ w.id = j := by
  cases e with
  | verdict k result' now =>
    rw [Event.answer] at h
    split at h
    · rename_i w rest memory hduty
      split at h
      · cases h
        exact ⟨k, now, w, rest, memory, rfl, hduty, ‹_›⟩
      · cases h
    · cases h
  | claim | load | stop | serve => cases h

/-- A sweep does not touch the attempts, and brings nothing back that failed. -/
theorem sweep_attempts {db : Database} {now : ℤ} {batch : ℕ}
    (hd : (Reaper.sweep db now batch).deliveries j = some d) :
    ∃ d', db.deliveries j = some d' ∧ d.attempts = d'.attempts ∧
      (d.status = .failed ↔ d'.status = .failed) := by
  rw [Reaper.sweep, Deliveries.deliveries_releaseStaleLocks] at hd
  obtain ⟨d₁, hd₁, rfl⟩ := Option.map_eq_some_iff.mp hd
  have hreleased : ∀ d₁ : Delivery, ((if Deliveries.isStale now d₁ then
      { d₁ with lockedUntil := none } else d₁).attempts = d₁.attempts) ∧
        ((if Deliveries.isStale now d₁ then { d₁ with lockedUntil := none } else d₁).status =
          d₁.status) := by
    intro d₁
    split <;> exact ⟨rfl, rfl⟩
  rw [(hreleased d₁).1, (hreleased d₁).2]
  let expired := Reaper.expireAll now (Reaper.overdue db now batch) db
  have hrows : expired.deliveries = db.deliveries := expireAll_deliveries ..
  by_cases hrepeated : ∃ c ∈ Deliveries.listRepeatCandidates expired now batch,
      c.delivery.1 = j ∧ (Reaper.repeatAt now c).isSome = true
  · obtain ⟨c, hc, rfl, hrepeat⟩ := hrepeated
    obtain ⟨moment, hmoment⟩ := Option.isSome_iff_exists.mp hrepeat
    obtain ⟨hrow, hsent⟩ := Deliveries.mem_listRepeatCandidates hc
    rw [repeatAll_requeues (Deliveries.nodup_listRepeatCandidates ..) hc hmoment hrow] at hd₁
    cases hd₁
    exact ⟨c.delivery.2, hrows ▸ hrow, rfl, by simp [Reaper.requeue, hsent]⟩
  · rw [repeatAll_other fun c hc hrepeat heq ↦ hrepeated ⟨c, hc, heq, hrepeat⟩] at hd₁
    exact ⟨d₁, hrows ▸ hd₁, rfl, Iff.rfl⟩

/-- A call of another service keeps the attempts, and fails nothing. -/
theorem serve_row {op : Operation} (hstep : work settings c (.serve op) = some c')
    (hborn : j < c.world.db.deliveries.next) (hd : c'.world.db.deliveries j = some d) :
    ∃ d', c.world.db.deliveries j = some d' ∧ d.attempts = d'.attempts ∧
      (d.status = .failed ↔ d'.status = .failed) := by
  obtain ⟨hop, w, hw, rfl⟩ := work_serve hstep
  cases op with
  | deliver => exact absurd rfl hop
  | react now i userId action =>
    obtain ⟨result, hreact⟩ := perform_react hw
    rcases Reactions.react_eq_ok hreact with ⟨-, heq⟩ | ⟨-, d₀, o, r, u, reaction, hd₀, -, -, -, hopen,
      hreaction, heq⟩
    · exact ⟨d, heq ▸ hd, rfl, Iff.rfl⟩
    rw [show w.db = _ from heq, Reactions.deliveries_closeOccurrence] at hd
    have hrow := (Deliveries.deliveries_updateFields c.world.db i (Reactions.values reaction)
      j).symm.trans hd
    split at hrow
    · rename_i hj
      subst hj
      rw [hd₀] at hrow
      cases hrow
      refine ⟨d₀, hd₀, rfl, ?_⟩
      have hactive := (checkReactable_eq_none hopen).1
      have hnever : reaction.status ≠ .failed := by
        obtain ⟨-, ⟨-, hstatus⟩ | ⟨-, hanswer, -⟩⟩ := decideReaction_eq_ok hreaction
        · simp [hstatus]
        · intro hfailed
          rw [hfailed] at hanswer
          cases hanswer
      constructor
      · exact fun hfailed ↦ absurd hfailed hnever
      · intro hfailed
        rw [hfailed] at hactive
        cases hactive
    · exact ⟨d, hrow, rfl, Iff.rfl⟩
  | sweep now =>
    cases hw
    exact sweep_attempts hd
  | _ =>
    rcases perform_rows rfl hw with hext | ⟨-, p, hfilter⟩
    · rcases hext.back j d hd with hold | ⟨hfresh, -⟩
      · exact ⟨d, hold, rfl, Iff.rfl⟩
      · omega
    · rw [show w.db.deliveries j = _ from hfilter j, Option.filter_eq_some_iff] at hd
      exact ⟨d, hd.1, rfl, Iff.rfl⟩

end Rows

section Hands

variable {settings : Settings} {c c' : Crew} {e : Event} {j k : ℕ} {row : Delivery}

theorem rows_loadWork (db : Database) (rows : List (ℕ × Delivery)) :
    (Duty.working (Dispatching.loadWork db rows) .empty).rows = rows := by
  simp [Duty.rows, Dispatching.loadWork, Function.comp_def]

theorem update_duty {duties : ℕ → Option Duty} {k₀ : ℕ} {duty : Option Duty} {duty' : Duty}
    (h : Function.update duties k₀ duty k = some duty') :
    k = k₀ ∧ duty = some duty' ∨ duties k = some duty' := by
  by_cases hk : k = k₀
  · subst hk
    rw [Function.update_self] at h
    exact .inl ⟨rfl, h⟩
  · rw [Function.update_of_ne hk] at h
    exact .inr h

/-- What a worker has in hand it had before, unless it has just claimed it. -/
theorem work_duties (hstep : work settings c e = some c') {duty' : Duty}
    (hduty' : c'.duties k = some duty') :
    (∃ duty, c.duties k = some duty ∧ duty'.rows.Sublist duty.rows) ∨
      ∃ now locked, e = .claim k now locked ∧ duty'.rows =
        Deliveries.claimDue now settings.lockFor settings.dispatcherBatch locked c.world.db := by
  have hsame : c.duties k = some duty' →
      ∃ duty, c.duties k = some duty ∧ duty'.rows.Sublist duty.rows :=
    fun h ↦ ⟨duty', h, List.Sublist.refl _⟩
  cases e with
  | claim k₀ now locked =>
    obtain ⟨-, rfl⟩ := work_claim hstep
    rcases update_duty hduty' with ⟨rfl, heq⟩ | hold
    · cases heq
      exact .inr ⟨now, locked, rfl, rfl⟩
    · exact .inl (hsame hold)
  | load k₀ =>
    obtain ⟨rows, hduty, rfl⟩ := work_load hstep
    rcases update_duty hduty' with ⟨rfl, heq⟩ | hold
    · cases heq
      exact .inl ⟨_, hduty, by rw [rows_loadWork]; exact List.Sublist.refl _⟩
    · exact .inl (hsame hold)
  | verdict k₀ result now =>
    obtain ⟨w, rest, memory, hduty, rfl⟩ := work_verdict hstep
    rcases update_duty hduty' with ⟨rfl, heq⟩ | hold
    · cases heq
      exact .inl ⟨_, hduty, (List.sublist_cons_self w rest).map _⟩
    · exact .inl (hsame hold)
  | stop k₀ =>
    cases hstep
    rcases update_duty hduty' with ⟨-, heq⟩ | hold
    · cases heq
    · exact .inl (hsame hold)
  | serve op =>
    obtain ⟨-, w, -, rfl⟩ := work_serve hstep
    exact .inl (hsame hduty')

theorem Holds.back (hstep : work settings c e = some c') (h : Holds c' k j row) :
    Holds c k j row ∨ ∃ now locked, e = .claim k now locked ∧ (j, row) ∈
      Deliveries.claimDue now settings.lockFor settings.dispatcherBatch locked c.world.db := by
  obtain ⟨duty', hduty', hmem⟩ := h
  rcases work_duties hstep hduty' with ⟨duty, hduty, hsub⟩ | ⟨now, locked, he, hrows⟩
  · exact .inl ⟨duty, hduty, hsub.subset hmem⟩
  · exact .inr ⟨now, locked, he, hrows ▸ hmem⟩

/-- A worker lets go of a delivery by its verdict or its end only. -/
theorem Holds.forward (hstep : work settings c e = some c') (h : Holds c k j row) :
    Holds c' k j row ∨ e = .stop k ∨ (e.answer c j).isSome = true := by
  obtain ⟨duty, hduty, hmem⟩ := h
  cases e with
  | claim k₀ now locked =>
    obtain ⟨hfree, rfl⟩ := work_claim hstep
    have hk : k ≠ k₀ := by
      rintro rfl
      rw [hfree] at hduty
      cases hduty
    exact .inl ⟨duty, (Function.update_of_ne hk _ _).trans hduty, hmem⟩
  | load k₀ =>
    obtain ⟨rows, hrows, rfl⟩ := work_load hstep
    by_cases hk : k = k₀
    · subst hk
      rw [hrows] at hduty
      cases hduty
      exact .inl ⟨_, Function.update_self _ _ _, by rw [rows_loadWork]; exact hmem⟩
    · exact .inl ⟨duty, (Function.update_of_ne hk _ _).trans hduty, hmem⟩
  | verdict k₀ result now =>
    obtain ⟨w, rest, memory, hwork, rfl⟩ := work_verdict hstep
    by_cases hk : k = k₀
    · subst hk
      rw [hwork] at hduty
      cases hduty
      rcases List.mem_cons.mp hmem with heq | hmem
      · refine .inr (.inr ?_)
        rw [Event.answer, hwork]
        simp [(Prod.mk.inj heq).1]
      · exact .inl ⟨_, Function.update_self _ _ _, hmem⟩
    · exact .inl ⟨duty, (Function.update_of_ne hk _ _).trans hduty, hmem⟩
  | stop k₀ =>
    cases hstep
    by_cases hk : k = k₀
    · exact .inr (.inl (by rw [hk]))
    · exact .inl ⟨duty, (Function.update_of_ne hk _ _).trans hduty, hmem⟩
  | serve op =>
    obtain ⟨-, w, -, rfl⟩ := work_serve hstep
    exact .inl ⟨duty, hduty, hmem⟩

/-- Nobody but its claimant has a delivery in hand, and once only. -/
structure OneHand (c : Crew) (j : ℕ) : Prop where
  once : ∀ k duty, c.duties k = some duty → (duty.rows.map Prod.fst).count j ≤ 1
  alone : ∀ k k' row row', Holds c k j row → Holds c k' j row' → k = k'

theorem OneHand.of_idle (h : Idle c j) : OneHand c j := by
  refine ⟨fun k duty hduty ↦ ?_, fun k k' row row' hholds ↦ absurd hholds (h k row)⟩
  have hnone : j ∉ duty.rows.map Prod.fst := by
    intro hmem
    obtain ⟨x, hx, rfl⟩ := List.mem_map.mp hmem
    exact h k x.2 ⟨duty, hduty, hx⟩
  rw [List.count_eq_zero_of_not_mem hnone]
  exact Nat.zero_le 1

theorem OneHand.work (h : OneHand c j) (hstep : work settings c e = some c')
    (hclaim : ∀ k now locked, e = .claim k now locked → Returns settings c now locked j → Idle c j) :
    OneHand c' j := by
  have hnew : ∀ {k now locked row}, e = .claim k now locked → (j, row) ∈ Deliveries.claimDue now
      settings.lockFor settings.dispatcherBatch locked c.world.db → Idle c j :=
    fun he hmem ↦ hclaim _ _ _ he (List.mem_map.mpr ⟨_, hmem, rfl⟩)
  refine ⟨fun k duty' hduty' ↦ ?_, fun k k' row row' hholds hholds' ↦ ?_⟩
  · rcases work_duties hstep hduty' with ⟨duty, hduty, hsub⟩ | ⟨now, locked, -, hrows⟩
    · exact ((hsub.map Prod.fst).count_le j).trans (h.once k duty hduty)
    · rw [hrows]
      exact List.nodup_iff_count_le_one.mp (Deliveries.nodup_claimDue ..) j
  · rcases hholds.back hstep with hold | ⟨now, locked, he, hmem⟩
    · rcases hholds'.back hstep with hold' | ⟨now, locked, he, hmem⟩
      · exact h.alone k k' row row' hold hold'
      · exact absurd hold (hnew he hmem k row)
    · rcases hholds'.back hstep with hold' | ⟨now', locked', he', hmem'⟩
      · exact absurd hold' (hnew he hmem k' row')
      · rw [he] at he'
        exact (Event.claim.inj he').1

/-- With its verdict a delivery is out of everybody's hands. -/
theorem OneHand.idle_of_answer (h : OneHand c j) (hstep : Serial.work settings c e = some c')
    {result : SendResult} (hanswer : e.answer c j = some result) : Idle c' j := by
  obtain ⟨k, now, w, rest, memory, rfl, hduty, rfl⟩ := answer_eq_some hanswer
  intro k' row' hholds'
  have hhead : Holds c k w.id w.row := ⟨_, hduty, List.mem_cons_self⟩
  have hold : Holds c k' w.id row' := by
    rcases hholds'.back hstep with hold | ⟨now', locked, he, -⟩
    · exact hold
    · cases he
  obtain rfl := h.alone k k' _ _ hhead hold
  have honce := h.once k _ hduty
  rw [Duty.rows, List.map_cons, List.map_cons, List.count_cons_self] at honce
  have hnone : w.id ∉ (rest.map fun w ↦ (w.id, w.row)).map Prod.fst :=
    List.count_eq_zero.mp (by omega)
  rw [Serial.work, hduty] at hstep
  cases hstep
  obtain ⟨duty', hduty', hmem⟩ := hholds'
  have hrest := (Function.update_self ..).symm.trans hduty'
  cases hrest
  exact hnone (List.mem_map.mpr ⟨_, hmem, rfl⟩)

theorem not_failed_of_isDue {now : ℤ} {d : Delivery} (h : Deliveries.isDue now d = true) :
    d.status ≠ .failed := by
  intro hfailed
  simp [Deliveries.isDue, Deliveries.isQueued, hfailed] at h

/-- Short of a verdict on it, only its claim charges a delivery. -/
theorem work_attempts (hstep : work settings c e = some c')
    (hborn : j < c.world.db.deliveries.next) (hanswer : e.answer c j = none) {d : Delivery}
    (hd : c'.world.db.deliveries j = some d) :
    (∃ k, Holds c' k j d) ∧ d.status ≠ .failed ∨
      ∃ d', c.world.db.deliveries j = some d' ∧ d.attempts = d'.attempts ∧
        (d.status = .failed ↔ d'.status = .failed) := by
  have hsame : c.world.db.deliveries j = some d → ∃ d', c.world.db.deliveries j = some d' ∧
      d.attempts = d'.attempts ∧ (d.status = .failed ↔ d'.status = .failed) :=
    fun h ↦ ⟨d, h, rfl, Iff.rfl⟩
  cases e with
  | claim k now locked =>
    obtain ⟨-, rfl⟩ := work_claim hstep
    have hnodup := Deliveries.nodup_claimDue now settings.lockFor settings.dispatcherBatch locked
      c.world.db
    rcases Deliveries.deliveries_claimed hnodup c.world.db j with ⟨x, hx, rfl, hrow⟩ | hkept
    · cases hrow.symm.trans hd
      obtain ⟨d', -, hdue, -, hx'⟩ := Deliveries.mem_claimDue hx
      have hopen := not_failed_of_isDue hdue
      exact .inl ⟨⟨k, _, Function.update_self _ _ _, hx⟩, by rw [hx']; exact hopen⟩
    · exact .inr (hsame (hkept.symm.trans hd))
  | load k =>
    obtain ⟨rows, -, rfl⟩ := work_load hstep
    exact .inr (hsame hd)
  | verdict k result now =>
    obtain ⟨w, rest, memory, hduty, rfl⟩ := work_verdict hstep
    have hj : j ≠ w.id := by
      rintro rfl
      rw [Event.answer, hduty] at hanswer
      simp at hanswer
    refine .inr (hsame (.trans ?_ hd))
    exact ((Dispatching.deliveries_applyVerdict ..).trans (if_neg hj)).symm
  | stop k =>
    cases hstep
    exact .inr (hsame hd)
  | serve op => exact .inr (serve_row hstep hborn hd)

end Hands

/-- What an answer makes of a delivery that had met `before` failures. -/
def Judged (now : ℤ) (before after : ℕ) (d : Delivery) : SendResult → Prop
  | .delivered _ => d.status = .sent ∧ after = 0
  | .failed .transient _ _ => after = before + 1 ∧
      if after < 5 then d.status = .pending ∧ d.nextAttemptAt = now + 30 * second * 2 ^ (after - 1)
      else d.status = .failed
  | .failed .retryAfter _ _ => d.status = .pending ∧ after = before
  | .failed .forbidden _ _ | .failed .badRequest _ _ => False

/-- What has been charged to a delivery. -/
structure Counted (j : ℕ) (s : Strikes) : Prop where
  born : j < s.crew.world.db.deliveries.next
  oneHand : OneHand s.crew j
  idle : Idle s.crew j → ∀ d, s.crew.world.db.deliveries j = some d →
    d.attempts = s.count ∧ (s.count < 5 ∨ d.status = .failed)
  held : ∀ k row, Holds s.crew k j row → row.attempts = s.count + 1 ∧ s.count < 5

section Counting

variable {settings : Settings} {j : ℕ} {s s' : Strikes} {e : Event}

theorem judged_values {memory : Memory} {w : Work} {result : SendResult} {count : ℕ} {now : ℤ}
    (h : attempted memory w result = true) (hcharged : w.row.attempts = count + 1)
    (hlt : count < 5) (d : Delivery) :
    (verdictValues (conclude memory w result now) now d).attempts =
        strikesAfter count (some result) ∧
      Judged now count (strikesAfter count (some result))
        (verdictValues (conclude memory w result now) now d) result := by
  rcases @conclude_attempted _ _ _ now h with ⟨messageId, rfl, hverdict⟩ |
    ⟨errorClass, retryAfter, errorCode, rfl, rfl | rfl, hverdict⟩
  · simp [verdictValues, hverdict, strikesAfter, Judged, decideSuccess]
  · rw [hcharged, decideFailure_transient hlt] at hverdict
    by_cases hleft : count + 1 < 5
    · rw [if_pos hleft] at hverdict
      simp [verdictValues, hverdict, strikesAfter, Judged, hleft]
    · rw [if_neg hleft] at hverdict
      simp [verdictValues, hverdict, strikesAfter, Judged, hleft]
  · rw [hcharged] at hverdict
    obtain ⟨moment, hmoment⟩ := decideFailure_retryAfter count now errorCode retryAfter
    simp [verdictValues, hverdict, hmoment, strikesAfter, Judged]

theorem Counted.judged (h : Counted j s) (hguard : OneByOne settings j s e)
    (hstep : strike settings j s e = some s') {result : SendResult}
    (hanswer : e.answer s.crew j = some result) {d : Delivery}
    (hd : s'.crew.world.db.deliveries j = some d) :
    d.attempts = s'.count ∧ ∃ now, e.now = some now ∧ Judged now s.count s'.count d result := by
  obtain ⟨c, hwork, rfl⟩ := Option.map_eq_some_iff.mp hstep
  rw [hanswer]
  obtain ⟨k, now, w, rest, memory, rfl, hduty, rfl⟩ := answer_eq_some hanswer
  obtain ⟨hcharged, hlt⟩ := h.held k w.row ⟨_, hduty, List.mem_cons_self⟩
  rw [OneByOne, hduty] at hguard
  rw [work, hduty] at hwork
  cases hwork
  have hrow := Dispatching.deliveries_applyVerdict s.crew.world.db memory w
    (conclude memory w result now) now w.id
  rw [if_pos rfl, show _ = some d from hd] at hrow
  obtain ⟨d₀, -, rfl⟩ := Option.map_eq_some_iff.mp hrow.symm
  obtain ⟨hattempts, hjudged⟩ := judged_values (hguard rfl) hcharged hlt d₀
  exact ⟨hattempts, now, rfl, hjudged⟩

/-- Five failures, and nothing else, end a delivery. -/
theorem Judged.lt_or_failed {now : ℤ} {before after : ℕ} {d : Delivery} {result : SendResult}
    (h : Judged now before after d result) (hlt : before < 5) :
    (after < 5 ∨ d.status = .failed) ∧ (d.status = .failed → after = 5 ∧
      ∃ retryAfter errorCode, result = .failed .transient retryAfter errorCode) := by
  have hopen : ∀ {status}, d.status = status → status ≠ .failed → d.status = .failed → after = 5 ∧
      ∃ retryAfter errorCode, result = .failed .transient retryAfter errorCode :=
    fun heq hne hfailed ↦ absurd (heq.symm.trans hfailed) hne
  cases result with
  | delivered =>
    obtain ⟨hstatus, rfl⟩ := h
    exact ⟨.inl (by decide), hopen hstatus (by decide)⟩
  | failed errorClass retryAfter errorCode =>
    cases errorClass with
    | retryAfter =>
      obtain ⟨hstatus, rfl⟩ := h
      exact ⟨.inl hlt, hopen hstatus (by decide)⟩
    | transient =>
      obtain ⟨rfl, hrow⟩ := h
      split at hrow
      · exact ⟨.inl ‹_›, hopen hrow.1 (by decide)⟩
      · exact ⟨.inr hrow, fun _ ↦ ⟨by omega, retryAfter, errorCode, rfl⟩⟩
    | forbidden | badRequest => exact h.elim

theorem Counted.step (h : Counted j s) (hguard : OneByOne settings j s e)
    (hstep : strike settings j s e = some s') : Counted j s' := by
  obtain ⟨c, hwork, rfl⟩ := Option.map_eq_some_iff.mp hstep
  have hborn := h.born.trans_le (work_rows hwork).1
  have hone : OneHand c j := by
    refine h.oneHand.work hwork fun k now locked he hreturns ↦ ?_
    subst he
    exact hguard hreturns
  cases hanswer : e.answer s.crew j with
  | some result =>
    obtain ⟨k, now, w, rest, memory, he, hduty, hw⟩ := answer_eq_some hanswer
    have hlt := (h.held k w.row ⟨_, hduty, hw ▸ List.mem_cons_self⟩).2
    have hidle : Idle c j := h.oneHand.idle_of_answer hwork hanswer
    refine ⟨hborn, hone, fun _ d hd ↦ ?_, fun k row hholds ↦ absurd hholds (hidle k row)⟩
    obtain ⟨hattempts, now, -, hjudged⟩ := h.judged hguard hstep hanswer hd
    rw [hanswer] at hattempts hjudged
    exact ⟨hattempts, (hjudged.lt_or_failed hlt).1⟩
  | none =>
    have hback : Idle c j → Idle s.crew j := by
      intro hidle k row hholds
      rcases hholds.forward hwork with hholds' | rfl | hsome
      · exact hidle k row hholds'
      · exact hguard row hholds
      · rw [hanswer] at hsome
        cases hsome
    refine ⟨hborn, hone, fun hidle d hd ↦ ?_, fun k row hholds ↦ ?_⟩
    · rcases work_attempts hwork h.born hanswer hd with ⟨⟨k, hholds⟩, -⟩ |
        ⟨d', hd', hattempts, hfailed⟩
      · exact absurd hholds (hidle k d)
      · rw [hattempts, hfailed]
        exact h.idle (hback hidle) d' hd'
    · rcases hholds.back hwork with hold | ⟨now, locked, rfl, hmem⟩
      · exact h.held k row hold
      · have hidle : Idle s.crew j := hguard (List.mem_map.mpr ⟨_, hmem, rfl⟩)
        obtain ⟨d, hd, hdue, -, hrow⟩ := Deliveries.mem_claimDue hmem
        obtain ⟨hattempts, hopen⟩ := h.idle hidle d hd
        rw [show row = _ from hrow]
        exact ⟨congrArg Nat.succ hattempts, hopen.resolve_right (not_failed_of_isDue hdue)⟩

/-- The attempts of a delivery are the transient failures it has met since it
was last sent: the fifth ends it, and flood control costs nothing. -/
theorem retry_budget {c : Crew} {d₀ : Delivery} {events : List Event} (hidle : Idle c j)
    (hd₀ : c.world.db.deliveries j = some d₀) (hzero : d₀.attempts = 0)
    (hguard : Guarded (strike settings j) (OneByOne settings j) ⟨c, 0⟩ events)
    (hrun : run (strike settings j) ⟨c, 0⟩ events = some s) :
    (Idle s.crew j → ∀ d, s.crew.world.db.deliveries j = some d → d.attempts = s.count) ∧
      ∀ e s' d', OneByOne settings j s e → strike settings j s e = some s' →
        s'.crew.world.db.deliveries j = some d' →
          (∀ result, e.answer s.crew j = some result → d'.attempts = s'.count ∧
            ∃ now, e.now = some now ∧ Judged now s.count s'.count d' result) ∧
          ∀ d, s.crew.world.db.deliveries j = some d → d.status ≠ .failed → d'.status = .failed →
            s'.count = 5 ∧ ∃ retryAfter errorCode,
              e.answer s.crew j = some (.failed .transient retryAfter errorCode) := by
  have hstart : Counted j ⟨c, 0⟩ := by
    refine ⟨Table.lt_next hd₀, .of_idle hidle, fun _ d hd ↦ ?_, fun k row hholds ↦ ?_⟩
    · cases hd₀.symm.trans hd
      exact ⟨hzero, .inl (Nat.zero_lt_succ 4)⟩
    · exact absurd hholds (hidle k row)
  have h : Counted j s :=
    run_invariant (fun _ _ _ h hguard hstep ↦ h.step hguard hstep) hguard hrun hstart
  refine ⟨fun hidle d hd ↦ (h.idle hidle d hd).1, fun e s' d' hguard hstep hd' ↦
    ⟨fun result hanswer ↦ h.judged hguard hstep hanswer hd', fun d hd hopen hfailed ↦ ?_⟩⟩
  cases hanswer : e.answer s.crew j with
  | some result =>
    obtain ⟨k, now, w, rest, memory, -, hduty, hw⟩ := answer_eq_some hanswer
    have hlt := (h.held k w.row ⟨_, hduty, hw ▸ List.mem_cons_self⟩).2
    obtain ⟨-, now, -, hjudged⟩ := h.judged hguard hstep hanswer hd'
    obtain ⟨hfive, retryAfter, errorCode, rfl⟩ := (hjudged.lt_or_failed hlt).2 hfailed
    exact ⟨hfive, retryAfter, errorCode, rfl⟩
  | none =>
    obtain ⟨c', hwork, rfl⟩ := Option.map_eq_some_iff.mp hstep
    rcases work_attempts hwork h.born hanswer hd' with ⟨-, hnot⟩ | ⟨d₁, hd₁, -, hboth⟩
    · exact absurd hfailed hnot
    · cases hd.symm.trans hd₁
      exact absurd (hboth.mp hfailed) hopen

end Counting

section Sample

instance (settings : Settings) (j : ℕ) (s : Strikes) (k : ℕ) (result : SendResult) (now : ℤ) :
    Decidable (OneByOne settings j s (.verdict k result now)) :=
  match h : s.crew.duties k with
  | some (.working (w :: _) memory) =>
    decidable_of_iff (w.id = j → attempted memory w result = true) (by simp [OneByOne, h])
  | some (.working [] _) | some (.claimed _) | none => isTrue (by simp [OneByOne, h])

/-- A morning that is still to be sent, and no worker yet. -/
def queuedMorning : Crew where
  world.outbox := []
  world.db.users := .ofList [{ timezone := .utc }]
  world.db.categories := .empty
  world.db.reminders := .ofList
    [⟨0, 0, .active, everyMorning, .utc, 0, none, none, 1, 10, none, 0, some (2 * day)⟩]
  world.db.recipients := .ofList [⟨0, 0, .owner, some 0⟩]
  world.db.invites := .empty
  world.db.occurrences := .ofList [⟨0, 8 * hour, 8 * hour, .pending, 0, 32 * hour⟩]
  world.db.deliveries := .ofList
    [⟨0, 0, .pending, 0, 8 * hour, none, none, none, none, none, none⟩]
  world.db.actions := .empty
  duties := fun _ ↦ none

/-- The first failure. -/
theorem retry_budget_queuedMorning : ∃ s s' d',
    run (strike sampleSettings 0) ⟨queuedMorning, 0⟩ [.claim 0 (8 * hour) noneLocked, .load 0] =
      some s ∧
    strike sampleSettings 0 s (.verdict 0 (.failed .transient none "timeout") (8 * hour)) =
      some s' ∧ s'.crew.world.db.deliveries 0 = some d' ∧ d'.attempts = s'.count ∧
        Judged (8 * hour) s.count s'.count d' (.failed .transient none "timeout") := by
  have hruns : (run (strike sampleSettings 0) ⟨queuedMorning, 0⟩
      [.claim 0 (8 * hour) noneLocked, .load 0]).any (fun s ↦
        decide (OneByOne sampleSettings 0 s
          (.verdict 0 (.failed .transient none "timeout") (8 * hour))) &&
        (strike sampleSettings 0 s
          (.verdict 0 (.failed .transient none "timeout") (8 * hour))).any fun s' ↦
            (s'.crew.world.db.deliveries 0).isSome &&
            decide (Event.answer s.crew 0 (.verdict 0 (.failed .transient none "timeout") (8 * hour)) =
              some (.failed .transient none "timeout"))) = true := by
    decide +kernel
  have hidle : Idle queuedMorning 0 := by
    rintro k row ⟨duty, hduty, -⟩
    cases hduty
  obtain ⟨s, hrun, hruns⟩ := (Option.any_eq_true _ _).mp hruns
  rw [Bool.and_eq_true, decide_eq_true_eq] at hruns
  obtain ⟨hguard, hruns⟩ := hruns
  obtain ⟨s', hstep, hruns⟩ := (Option.any_eq_true _ _).mp hruns
  rw [Bool.and_eq_true, decide_eq_true_eq] at hruns
  obtain ⟨hsome, hanswer⟩ := hruns
  obtain ⟨d', hd'⟩ := Option.isSome_iff_exists.mp hsome
  have hearly : Guarded (strike sampleSettings 0) (OneByOne sampleSettings 0) ⟨queuedMorning, 0⟩
      [.claim 0 (8 * hour) noneLocked, .load 0] :=
    ⟨fun _ ↦ hidle, fun s₁ _ ↦ ⟨trivial, fun s₂ _ ↦ trivial⟩⟩
  obtain ⟨hattempts, now, hnow, hjudged⟩ :=
    ((retry_budget hidle rfl rfl hearly hrun).2 _ s' d' hguard hstep hd').1 _ hanswer
  cases hnow
  exact ⟨s, s', d', hrun, hstep, hd', hattempts, hjudged⟩

end Sample

end Remindo.Serial
