import Mathlib.Logic.Relation
import Remindo.Services.Digest

namespace Remindo.Serial.Digests

open Remindo.Domain Remindo.Db
open Remindo.Services.Digest (Gateway Report Turn sentTo)

/-- `DIGEST_WEEKDAY`, `DIGEST_HOUR` and `DIGEST_BATCH_SIZE`. -/
structure Setup where
  weekday : ℕ
  hour : Fin 24
  batchSize : ℕ
  inRange : 1 ≤ weekday ∧ weekday ≤ 7

/-- The cycle between two ticks: when the last one was, the database, and the
reports that have reached their users. -/
structure Cycle where
  clock : ℤ
  db : Database
  sent : List Report

def Cycle.tick (setup : Setup) (s : Cycle) (now : ℤ) (gateway : Gateway) : Cycle :=
  let done := Services.Digest.run setup.weekday setup.hour setup.batchSize now gateway s.db
  ⟨now, done.1, s.sent ++ done.2.2⟩

/-- Whatever else is written, the user stays in the zone, and the mark is the
digest's own. -/
inductive Step (setup : Setup) (userId : ℕ) (s : Cycle) : Cycle → Prop
  | tick (now : ℤ) (gateway : Gateway) (later : s.clock ≤ now) :
      Step setup userId s (s.tick setup now gateway)
  | other (db : Database) (keeps : ∀ u, s.db.users userId = some u → ∃ u', db.users userId = some u' ∧
      u'.timezone = u.timezone ∧ u'.digestSentAt = u.digestSentAt) :
      Step setup userId s { s with db := db }

/-- A mark that has not gone back. -/
def Since (mark mark' : Option ℤ) : Prop :=
  ∀ sent, mark = some sent → ∃ sent', mark' = some sent' ∧ sent ≤ sent'

theorem Since.refl (mark : Option ℤ) : Since mark mark := fun sent h ↦ ⟨sent, h, le_rfl⟩

theorem Since.trans {a b c : Option ℤ} (h : Since a b) (h' : Since b c) : Since a c := by
  intro sent hsent
  obtain ⟨sent', hsent', hle⟩ := h sent hsent
  obtain ⟨sent'', hsent'', hle'⟩ := h' sent' hsent'
  exact ⟨sent'', hsent'', hle.trans hle'⟩

/-- Every report is about a moment up to the mark, which is a weekly one. -/
structure Ledger (setup : Setup) (tz : Zone) (u : User) (sent : List ℤ) : Prop where
  timezone : u.timezone = tz
  weekly : ∀ mark, u.digestSentAt = some mark →
    ∃ d, isoweekday d = setup.weekday ∧ mark = weeklyMoment tz setup.hour d
  marked : ∀ m ∈ sent, ∃ mark, u.digestSentAt = some mark ∧ m ≤ mark
  once : sent.Nodup

variable {setup : Setup} {userId : ℕ} {tz : Zone} {u u' : User} {sent sent' : List ℤ} {now : ℤ}

theorem Ledger.due (h : Ledger setup tz u sent) {moment : ℤ}
    (hdue : digestDueAt now u.timezone setup.weekday setup.hour u.digestSentAt (quietHoursOf u) =
      some moment) :
    (∃ d, isoweekday d = setup.weekday ∧ moment = weeklyMoment tz setup.hour d) ∧ moment ≤ now ∧
      ∀ mark, u.digestSentAt = some mark → mark < moment := by
  obtain ⟨rfl, hnew, -⟩ := digestDueAt_eq_some.mp hdue
  have hspec := lastDigestMoment_spec now u.timezone setup.inRange setup.hour
  rw [h.timezone] at hspec hnew ⊢
  exact ⟨hspec.1, hspec.2, hnew⟩

theorem Ledger.mark (h : Ledger setup tz u sent) {moment : ℤ} (isBlocked : Bool)
    (hdue : digestDueAt now u.timezone setup.weekday setup.hour u.digestSentAt (quietHoursOf u) =
      some moment) :
    Ledger setup tz { u with digestSentAt := some moment, isBlocked := isBlocked } sent ∧
      Since u.digestSentAt (some moment) ∧ ∀ m ∈ sent, m < moment := by
  obtain ⟨hweekly, -, hnew⟩ := h.due hdue
  have hlater : ∀ m ∈ sent, m < moment := by
    intro m hm
    obtain ⟨mark, hmark, hle⟩ := h.marked m hm
    exact hle.trans_lt (hnew mark hmark)
  refine ⟨⟨h.timezone, fun mark hmark ↦ ?_, fun m hm ↦ ⟨moment, rfl, (hlater m hm).le⟩, h.once⟩,
    fun mark hmark ↦ ⟨moment, rfl, (hnew mark hmark).le⟩, hlater⟩
  cases hmark
  exact hweekly

theorem Ledger.turn (h : Ledger setup tz u sent)
    (hturn : Turn setup.weekday setup.hour now u u' sent') :
    Ledger setup tz u' (sent ++ sent') ∧ Since u.digestSentAt u'.digestSentAt := by
  cases hturn with
  | kept => exact ⟨by rwa [List.append_nil], .refl _⟩
  | marked isBlocked hdue =>
    obtain ⟨hledger, hsince, -⟩ := h.mark isBlocked hdue
    exact ⟨by rwa [List.append_nil], hsince⟩
  | @reported moment hdue =>
    obtain ⟨hledger, hsince, hlater⟩ := h.mark u.isBlocked hdue
    refine ⟨⟨hledger.timezone, hledger.weekly, fun m hm ↦ ?_, ?_⟩, hsince⟩
    · rcases List.mem_append.mp hm with hm | hm
      · exact hledger.marked m hm
      · exact ⟨moment, rfl, (List.mem_singleton.mp hm).le⟩
    · refine List.nodup_append.mpr ⟨h.once, List.nodup_singleton _, fun m hm m' hm' ↦ ?_⟩
      rw [List.mem_singleton.mp hm']
      exact (hlater m hm).ne

/-- The mark of the user, as the cycle stands. -/
def Cycle.mark (s : Cycle) (userId : ℕ) : Option ℤ := (s.db.users userId).bind User.digestSentAt

/-- The user's row and the reports to them, as the cycle stands. -/
def Cycle.Keeps (setup : Setup) (userId : ℕ) (tz : Zone) (s : Cycle) : Prop :=
  ∃ u, s.db.users userId = some u ∧ Ledger setup tz u (sentTo userId s.sent)

theorem Cycle.Keeps.step {s s' : Cycle} (h : s.Keeps setup userId tz) (hstep : Step setup userId s s') :
    s'.Keeps setup userId tz ∧ Since (s.mark userId) (s'.mark userId) := by
  obtain ⟨u, hrow, hledger⟩ := h
  cases hstep with
  | tick now gateway later =>
    obtain ⟨u', hrow', hturn⟩ := Services.Digest.run_turn setup.weekday setup.hour setup.batchSize
      now gateway hrow
    obtain ⟨hledger', hsince⟩ := hledger.turn hturn
    refine ⟨⟨u', hrow', ?_⟩, ?_⟩
    · rwa [Cycle.tick, Services.Digest.sentTo_append]
    · simpa only [Cycle.mark, Cycle.tick, hrow, hrow', Option.bind_some] using hsince
  | other db keeps =>
    obtain ⟨u', hrow', hzone, hmark⟩ := keeps u hrow
    refine ⟨⟨u', hrow', hzone.trans hledger.timezone, ?_, ?_, hledger.once⟩, ?_⟩
    · exact hmark ▸ hledger.weekly
    · exact hmark ▸ hledger.marked
    · simp [Cycle.mark, hrow, hrow', hmark, Since.refl]

theorem Cycle.Keeps.run {s s' : Cycle} (h : s.Keeps setup userId tz)
    (hrun : Relation.ReflTransGen (Step setup userId) s s') :
    s'.Keeps setup userId tz ∧ Since (s.mark userId) (s'.mark userId) := by
  induction hrun with
  | refl => exact ⟨h, .refl _⟩
  | tail _ hstep ih =>
    obtain ⟨hkeeps, hsince⟩ := ih.1.step hstep
    exact ⟨hkeeps, ih.2.trans hsince⟩

/-- The prefilter lets through whom a digest is owed to. -/
theorem Ledger.isUnmarked (h : Ledger setup tz u sent) (hsteady : Steady tz) {moment : ℤ}
    (hdue : digestDueAt now u.timezone setup.weekday setup.hour u.digestSentAt (quietHoursOf u) =
      some moment) : Users.isUnmarked now u = true := by
  obtain ⟨⟨d', hday', rfl⟩, hpast, hnew⟩ := h.due hdue
  rw [Users.isUnmarked, Option.all_eq_true]
  intro mark hmark
  obtain ⟨d, hday, rfl⟩ := h.weekly mark hmark
  have hlt : d < d' := by
    by_contra hge
    have := weeklyMoment_mono tz setup.hour (not_lt.mp hge)
    have := hnew _ hmark
    omega
  have := hsteady.weeklyMoment_lt setup.hour (le_add_week_of_lt (hday.trans hday'.symm) hlt)
  rw [decide_eq_true_eq, Users.digestPrefilterDays]
  omega

/-- The cycle before the user's first digest. -/
structure Cycle.Fresh (s : Cycle) (userId : ℕ) (tz : Zone) : Prop where
  row : ∃ u, s.db.users userId = some u ∧ u.timezone = tz ∧ u.digestSentAt = none
  sent : s.sent = []

theorem Cycle.Fresh.keeps {s : Cycle} (h : s.Fresh userId tz) (setup : Setup) :
    s.Keeps setup userId tz := by
  obtain ⟨u, hrow, hzone, hmark⟩ := h.row
  refine ⟨u, hrow, hzone, ?_, ?_, ?_⟩
  · simp [hmark]
  · simp [h.sent]
  · simp [h.sent]

/-- The mark never goes back, no weekly moment is reported to a user twice, and
whenever a digest is owed the query lets its user through. -/
theorem digest_never_repeated {s₀ s : Cycle} (hsteady : Steady tz) (hfresh : s₀.Fresh userId tz)
    (hrun : Relation.ReflTransGen (Step setup userId) s₀ s) :
    (∀ s', Relation.ReflTransGen (Step setup userId) s s' → Since (s.mark userId) (s'.mark userId)) ∧
      (sentTo userId s.sent).Nodup ∧
        ∀ now u moment, s.clock ≤ now → s.db.users userId = some u →
          digestDueAt now u.timezone setup.weekday setup.hour u.digestSentAt (quietHoursOf u) =
            some moment → Users.isUnmarked now u = true := by
  obtain ⟨hkeeps, -⟩ := (hfresh.keeps setup).run hrun
  refine ⟨fun s' hrun' ↦ (hkeeps.run hrun').2, ?_⟩
  obtain ⟨u, hrow, hledger⟩ := hkeeps
  refine ⟨hledger.once, fun now u' moment _ hrow' hdue ↦ ?_⟩
  obtain rfl := Option.some_inj.mp (hrow.symm.trans hrow')
  exact hledger.isUnmarked hsteady hdue

section Sample

theorem springForward_steady : Steady springForward := by
  intro u v _
  simp only [springForward, Foundation.LocalClock.rises]
  split <;> omega

theorem monday_inRange : 1 ≤ 1 ∧ 1 ≤ 7 := by decide

/-- Mondays at nine. -/
def mondayNine : Setup := ⟨1, (WallTime.oclock 9).hour, 100, monday_inRange⟩

/-- One user, who has answered one reminder before their first digest. -/
def beforeFirst : Cycle where
  clock := 0
  db :=
    { Database.initial (.ofList [{ timezone := springForward, onboardedAt := some 0 }]) .empty with
      reminders := .ofList
        [⟨0, 0, .active, everyMorning, springForward, 0, none, none, 1, 10, none, 0, none⟩]
      occurrences := .ofList [⟨0, 0, 0, .done, 0, day⟩]
      deliveries := .ofList [⟨0, 0, .done, 1, 0, none, none, some 0, some 0, none, none⟩]
      actions := .ofList [⟨0, 0, .done, none, 1774251000 * second⟩] }
  sent := []

/-- At nine on the Monday before the clocks go forward the message fails for a while. -/
def failedOnce : Cycle :=
  beforeFirst.tick mondayNine (1774252800 * second) fun _ ↦ some .transient

/-- A minute later it goes out, and a minute after that the week is over. -/
def sentOnce : Cycle :=
  (failedOnce.tick mondayNine (1774252860 * second) fun _ ↦ none).tick mondayNine
    (1774252920 * second) fun _ ↦ none

theorem digest_never_repeated_spring :
    (failedOnce.sent = [] ∧ sentTo 0 sentOnce.sent = [1774252800 * second]) ∧
    (∀ s', Relation.ReflTransGen (Step mondayNine 0) sentOnce s' →
      Since (sentOnce.mark 0) (s'.mark 0)) ∧
      (sentTo 0 sentOnce.sent).Nodup ∧
        ∀ now u moment, sentOnce.clock ≤ now → sentOnce.db.users 0 = some u →
          digestDueAt now u.timezone mondayNine.weekday mondayNine.hour u.digestSentAt (quietHoursOf u) =
            some moment → Users.isUnmarked now u = true := by
  have hfailed : Relation.ReflTransGen (Step mondayNine 0) beforeFirst failedOnce :=
    .single (.tick _ _ (by decide))
  have hrun : Relation.ReflTransGen (Step mondayNine 0) beforeFirst sentOnce :=
    (hfailed.tail (.tick _ _ (by decide))).tail (.tick _ _ (by decide))
  exact ⟨by decide +kernel, digest_never_repeated springForward_steady ⟨⟨_, rfl, rfl, rfl⟩, rfl⟩ hrun⟩

end Sample

end Remindo.Serial.Digests
