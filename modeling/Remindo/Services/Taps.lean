import Remindo.Services.Reactions

namespace Remindo.Services.Taps

open Remindo.Domain Remindo.Db Remindo.Foundation
open Reactions (react react_eq_ok values journalEntry closeOccurrence)

/-- A press of one of the buttons under a delivery. -/
structure Tap where
  now : ℤ
  userId : ℕ
  action : Action

/-- The database after a tap; one that fails is rolled back. -/
def tap (deliveryId : ℕ) (db : Database) (t : Tap) : Database :=
  match react db t.now deliveryId t.userId t.action with
  | .ok (_, db') => db'
  | .error _ => db

def taps (deliveryId : ℕ) (db : Database) (ts : List Tap) : Database := ts.foldl (tap deliveryId) db

/-- The tap is accepted. -/
def Applies (deliveryId : ℕ) (db : Database) (t : Tap) : Prop :=
  ∃ result, react db t.now deliveryId t.userId t.action = .ok (result, tap deliveryId db t) ∧
    result.applied = true

/-- The delivery waits for the end of a snooze. -/
def Snoozed (deliveryId : ℕ) (db : Database) (til : ℤ) : Prop :=
  ∃ d, db.deliveries deliveryId = some d ∧ d.status = .snoozed ∧ d.snoozedUntil = some til

section Taps

variable {j : ℕ} {db : Database} {t : Tap} {ts : List Tap} {til : ℤ}

theorem taps_append (j : ℕ) (db : Database) (early late : List Tap) :
    taps j db (early ++ late) = taps j (taps j db early) late := List.foldl_append

theorem tap_cases (j : ℕ) (db : Database) (t : Tap) :
    ¬Applies j db t ∧ tap j db t = db ∨ Applies j db t ∧
      ∃ d o r u reaction, db.deliveries j = some d ∧ db.occurrences d.occurrenceId = some o ∧
        db.reminders o.reminderId = some r ∧
        checkReactable t.action.kind d.status o.status o.expiresAt d.snoozedUntil t.now = none ∧
        decideReaction t.action.kind t.now r.snoozeMinutes (quietHoursOf u) o.expiresAt =
          .ok reaction ∧
        (tap j db t).deliveries j = some (values reaction d) ∧
        (tap j db t).actions = db.actions.writes
          (db.actions.insert [journalEntry j t.userId reaction t.now r.snoozeMinutes]) := by
  cases hreact : react db t.now j t.userId t.action with
  | error e =>
    have htap : tap j db t = db := by rw [tap, hreact]
    refine .inl ⟨?_, htap⟩
    rintro ⟨result, hok, -⟩
    rw [hreact] at hok
    cases hok
  | ok out =>
    obtain ⟨result, db'⟩ := out
    have htap : tap j db t = db' := by rw [tap, hreact]
    rcases react_eq_ok hreact with ⟨hrejected, heq⟩ | ⟨happlied, d, o, r, u, reaction, hd, -, ho, hr,
      hopen, hreaction, heq⟩
    · refine .inl ⟨?_, htap.trans heq⟩
      rintro ⟨result', hok, happlied⟩
      rw [hreact] at hok
      cases hok
      rw [hrejected] at happlied
      cases happlied
    · refine .inr ⟨⟨result, by rw [htap, hreact], happlied⟩, d, o, r, u, reaction, hd, ho, hr, hopen,
        hreaction, ?_, ?_⟩
      · rw [htap, heq, Reactions.deliveries_closeOccurrence]
        refine (Deliveries.deliveries_updateFields ..).trans ?_
        rw [if_pos rfl, hd]
        rfl
      · rw [htap, heq, Reactions.actions_closeOccurrence]
        rfl

theorem decideReaction_snooze {now : ℤ} {snoozeMinutes : ℕ} {quiet : QuietHours} {expiresAt : ℤ}
    {reaction : Reaction}
    (h : decideReaction .snooze now snoozeMinutes quiet expiresAt = .ok reaction) :
    1 ≤ snoozeMinutes ∧
      reaction = ⟨.snooze, .snoozed, none, some (postpone now snoozeMinutes quiet expiresAt)⟩ := by
  rw [decideReaction, if_pos rfl] at h
  split at h
  · cases h
  · cases h
    exact ⟨by omega, rfl⟩

/-- What an accepted snooze finds and what it leaves. -/
structure Snoozes (j : ℕ) (db : Database) (t : Tap) (til : ℤ) : Prop where
  row : ∃ d, (tap j db t).deliveries j = some d ∧ d.status = .snoozed ∧ d.snoozedUntil = some til ∧
    d.nextAttemptAt = til
  free : ∀ earlier, Snoozed j db earlier → earlier ≤ t.now
  later : t.now < til
  /-- The snooze is as long as asked for, and ends before the occurrence does. -/
  promised : ∃ d o r, db.deliveries j = some d ∧ db.occurrences d.occurrenceId = some o ∧
    db.reminders o.reminderId = some r ∧ (t.now + r.snoozeMinutes * minute < o.expiresAt →
      t.now + r.snoozeMinutes * minute ≤ til ∧ til < o.expiresAt)

theorem Snoozes.snoozed (h : Snoozes j db t til) : Snoozed j (tap j db t) til := by
  obtain ⟨d, hd, hstatus, huntil, -⟩ := h.row
  exact ⟨d, hd, hstatus, huntil⟩

theorem snoozes_of_applies (h : Applies j db t) (hsnooze : t.action = .snooze) :
    ∃ til, Snoozes j db t til := by
  rcases tap_cases j db t with ⟨hnot, -⟩ | ⟨-, d, o, r, u, reaction, hd, ho, hr, hopen, hreaction,
    hrow, -⟩
  · exact absurd h hnot
  rw [hsnooze] at hopen hreaction
  obtain ⟨hminutes, rfl⟩ := decideReaction_snooze hreaction
  have hle := le_postpone t.now r.snoozeMinutes (quietHoursOf u) o.expiresAt
  refine ⟨postpone t.now r.snoozeMinutes (quietHoursOf u) o.expiresAt, ⟨_, hrow, rfl, rfl, rfl⟩,
    ?_, ?_, d, o, r, hd, ho, hr, fun hlives ↦ ⟨hle, postpone_lt _ hlives⟩⟩
  · rintro earlier ⟨d', hd', hstatus, huntil⟩
    obtain rfl := Option.some_inj.mp (hd.symm.trans hd')
    have hfree := not_isPostponed_of_checkReactable hopen
    by_contra hrunning
    simp [isPostponed, hstatus, huntil, not_le.mp hrunning] at hfree
  · simp only [minute] at *
    omega

/-- A tap leaves a running snooze running, replaces one that has run out by a
later one, or closes the delivery for good. -/
theorem Snoozed.tap (h : Snoozed j db til) (t : Tap) :
    (∃ til', til ≤ til' ∧ Snoozed j (Taps.tap j db t) til') ∨
      ∃ d, (Taps.tap j db t).deliveries j = some d ∧ d.status.isTerminal = true := by
  rcases tap_cases j db t with ⟨-, hsame⟩ | ⟨happlies, d, o, r, u, reaction, hd, ho, hr, hopen,
    hreaction, hrow, -⟩
  · exact .inl ⟨til, le_rfl, hsame.symm ▸ h⟩
  by_cases hsnooze : t.action = .snooze
  · obtain ⟨til', hsnoozes⟩ := snoozes_of_applies happlies hsnooze
    have := hsnoozes.free til h
    have := hsnoozes.later
    exact .inl ⟨til', by omega, hsnoozes.snoozed⟩
  · refine .inr ⟨_, hrow, ?_⟩
    obtain ⟨-, ⟨hkind, -⟩ | ⟨-, hanswer, -⟩⟩ := decideReaction_eq_ok hreaction
    · cases haction : t.action <;> simp_all [Action.kind]
    · exact DeliveryStatus.isTerminal_of_isAnswer hanswer

theorem tap_of_isTerminal {d : Delivery} (hd : db.deliveries j = some d)
    (hclosed : d.status.isTerminal = true) (t : Tap) : ¬Applies j db t ∧ tap j db t = db := by
  rcases tap_cases j db t with h | ⟨-, d', o, r, u, reaction, hd', -, -, hopen, -⟩
  · exact h
  · obtain rfl := Option.some_inj.mp (hd.symm.trans hd')
    have := (checkReactable_eq_none hopen).1
    rw [hclosed] at this
    cases this

theorem Snoozed.taps (h : Snoozed j db til) (ts : List Tap) :
    (∃ til', til ≤ til' ∧ Snoozed j (Taps.taps j db ts) til') ∨
      ∃ d, (Taps.taps j db ts).deliveries j = some d ∧ d.status.isTerminal = true := by
  induction ts using List.reverseRecOn with
  | nil => exact .inl ⟨til, le_rfl, h⟩
  | append_singleton ts t ih =>
    have hlast : Taps.taps j db (ts ++ [t]) = Taps.tap j (Taps.taps j db ts) t :=
      taps_append j db ts [t]
    rw [hlast]
    rcases ih with ⟨til', hle, hsnoozed⟩ | ⟨d, hd, hclosed⟩
    · exact (hsnoozed.tap t).imp_left fun ⟨til'', hle', h'⟩ ↦ ⟨til'', hle.trans hle', h'⟩
    · exact .inr ⟨d, by rw [(tap_of_isTerminal hd hclosed t).2]; exact hd, hclosed⟩

/-- However the buttons of a delivery are pressed, each press is either refused
and changes nothing, or journaled; a snooze is accepted only once every earlier
one has run out. -/
theorem snooze_idempotent (j : ℕ) (db : Database) (early : List Tap) (t : Tap) :
    (¬Applies j (taps j db early) t → taps j db (early ++ [t]) = taps j db early) ∧
    (Applies j (taps j db early) t → ∃ entry : DeliveryAction, entry.deliveryId = j ∧
      entry.kind = t.action.kind ∧ entry.createdAt = t.now ∧
        (taps j db (early ++ [t])).actions = (taps j db early).actions.writes
          ((taps j db early).actions.insert [entry])) ∧
    (Applies j (taps j db early) t → t.action = .snooze →
      (∃ til, Snoozes j (taps j db early) t til) ∧
      ∀ before after til, early = before ++ after → Snoozed j (taps j db before) til →
        til ≤ t.now) := by
  have hlast : taps j db (early ++ [t]) = tap j (taps j db early) t := taps_append j db early [t]
  rw [hlast]
  refine ⟨fun hnot ↦ ?_, fun happlies ↦ ?_, fun happlies hsnooze ↦ ?_⟩
  · exact (tap_cases j _ t).elim (fun h ↦ h.2) fun h ↦ absurd h.1 hnot
  · rcases tap_cases j (taps j db early) t with ⟨hnot, -⟩ | ⟨-, d, o, r, u, reaction, -, -, -, -,
      hreaction, -, hactions⟩
    · exact absurd happlies hnot
    · exact ⟨_, rfl, (decideReaction_eq_ok hreaction).1, rfl, hactions⟩
  · obtain ⟨til', hsnoozes⟩ := snoozes_of_applies happlies hsnooze
    refine ⟨⟨til', hsnoozes⟩, ?_⟩
    rintro before after til rfl hsnoozed
    rw [taps_append] at happlies hsnoozes
    rcases hsnoozed.taps after with ⟨til'', hle, hrunning⟩ | ⟨d, hd, hclosed⟩
    · exact hle.trans (hsnoozes.free _ hrunning)
    · exact absurd happlies (tap_of_isTerminal hd hclosed t).1

end Taps

end Remindo.Services.Taps
