import Remindo.Domain.Dates
import Remindo.Domain.Streaks
import Remindo.Services.Stats

namespace Remindo.Services.History

open Remindo.Domain Remindo.Db
open Stats (record summaryFor)

section Recent

variable {records : List ActionRecord} {tz : WallClock} {moment days : ℤ} {c : ℕ}

/-- The part of a history the summary is made from. -/
def recent (moment : ℤ) (records : List ActionRecord) : List ActionRecord :=
  records.filter fun r ↦ decide (moment - statsHistoryDays * day ≤ r.happenedAt)

theorem recent_filter (p : ActionRecord → Bool) (moment : ℤ) (records : List ActionRecord) :
    (recent moment records).filter p = recent moment (records.filter p) := by
  simp only [recent, List.filter_filter, Bool.and_comm]

theorem recent_subset (moment : ℤ) (records : List ActionRecord) : recent moment records ⊆ records :=
  List.filter_subset_self _

/-- The window of a summary lies inside the part that is read. -/
theorem period_recent (hdays : days ≤ statsHistoryDays) (records : List ActionRecord) (moment : ℤ) :
    period (recent moment records) moment days = period records moment days := by
  have hread : ∀ r : ActionRecord, inPeriod moment days r.happenedAt = true →
      moment - statsHistoryDays * day ≤ r.happenedAt := by
    intro r hr
    have := (of_decide_eq_true hr).1
    simp only [statsHistoryDays, day] at *
    omega
  simp only [period_eq, recent, List.countP_filter]
  congr 1
  all_goals
    refine List.countP_congr fun r _ ↦ ?_
    have := hread r
    simp_all

theorem doneDays_recent_subset : doneDays (recent moment records) tz ⊆ doneDays records tz :=
  doneDays_mono (recent_subset moment records)

/-- A day after the one the reading starts on keeps its outcomes. -/
theorem mem_doneDays_recent (hdates : NoReentry tz) {d : ℤ} (hd : d ∈ doneDays records tz)
    (hlate : dateOf (astimezone (moment - statsHistoryDays * day) tz) < d) :
    d ∈ doneDays (recent moment records) tz := by
  obtain ⟨r, hr, hdone, rfl⟩ := mem_doneDays.mp hd
  refine mem_doneDays.mpr ⟨r, List.mem_filter.mpr ⟨hr, decide_eq_true ?_⟩, hdone, rfl⟩
  by_contra hearly
  have := hdates.dateOf_mono (not_le.mp hearly).le
  omega

theorem currentStreak_recent (hdates : NoReentry tz) {today : ℤ}
    (hlate : dateOf (astimezone (moment - statsHistoryDays * day) tz) <
      streakStart (doneDays records tz) today) :
    currentStreak (doneDays (recent moment records) tz) today =
      currentStreak (doneDays records tz) today := by
  refine currentStreak_eq_of_subset doneDays_recent_subset fun d hd hstart ↦ ?_
  exact mem_doneDays_recent hdates hd (hlate.trans_le hstart)

end Recent

section Whole

variable {db : Database} {userId : ℕ} {user : User} {moment : ℤ} {c : ℕ}

/-- Everything the journal says of the user up to `moment`. -/
def wholeJournal (db : Database) (userId : ℕ) (moment : ℤ) : List ActionRecord :=
  (db.actions.select fun _ a ↦ decide (a.userId = userId) && decide (a.createdAt ≤ moment)).filterMap
    fun x ↦ (Deliveries.categoryOf db x.2.deliveryId).map fun c ↦ record (x, c)

theorem listActionsForUser_eq (db : Database) (userId : ℕ) (moment : ℤ) :
    (Deliveries.listActionsForUser db userId (moment - statsHistoryDays * day) (some moment)
      none).map record = recent moment (wholeJournal db userId moment) := by
  have hread : (db.actions.select fun _ a ↦ decide (a.userId = userId) &&
        decide (moment - statsHistoryDays * day ≤ a.createdAt) &&
          (some moment).all fun t ↦ decide (a.createdAt ≤ t)) =
      (db.actions.select fun _ a ↦ decide (a.userId = userId) && decide (a.createdAt ≤ moment)).filter
        fun x ↦ decide (moment - statsHistoryDays * day ≤ x.2.createdAt) := by
    rw [db.actions.filter_select _ fun _ a ↦ decide (moment - statsHistoryDays * day ≤ a.createdAt)]
    congr 1
    funext i a
    rw [Option.all_some, Bool.and_right_comm]
  rw [Deliveries.listActionsForUser, hread, recent, wholeJournal, List.map_filterMap,
    List.filterMap_filter, List.filter_filterMap]
  congr 1
  funext x
  cases Deliveries.categoryOf db x.2.deliveryId with
  | none => split <;> rfl
  | some c => simp only [Option.filter_some, Option.map_some, record]; rfl

theorem listActionsForUser_category (db : Database) (userId : ℕ) (since moment : ℤ) (c : ℕ) :
    (Deliveries.listActionsForUser db userId since (some moment) (some c)).map record =
      ((Deliveries.listActionsForUser db userId since (some moment) none).map record).filter
        fun r ↦ decide (r.categoryId = c) := by
  simp only [Deliveries.listActionsForUser, List.map_filterMap, List.filter_filterMap]
  congr 1
  funext x
  cases Deliveries.categoryOf db x.2.deliveryId with
  | none => rfl
  | some c' => by_cases hc : c' = c <;> simp [Option.filter_some, record, hc]

theorem summaryFor_eq : summaryFor db userId user moment none =
    buildSummary (recent moment (wholeJournal db userId moment)) user.timezone moment := by
  rw [summaryFor, listActionsForUser_eq]

theorem summaryFor_category : summaryFor db userId user moment (some c) =
    buildSummary ((recent moment (wholeJournal db userId moment)).filter fun r ↦
      decide (r.categoryId = c)) user.timezone moment := by
  rw [summaryFor, listActionsForUser_category, listActionsForUser_eq]

/-- A summary made from the recent part of the journal, beside the one the whole
of it gives. -/
structure Faithful (journal : List ActionRecord) (tz : WallClock) (moment : ℤ)
    (fast whole : StatsSummary) : Prop where
  figures : fast.last7Days = whole.last7Days ∧ fast.last30Days = whole.last30Days
  categories : ∀ r ∈ journal, r.kind.isOutcome = true → inPeriod moment 30 r.happenedAt = true →
    ∃ e ∈ fast.byCategory, ∃ e' ∈ whole.byCategory, e.categoryId = r.categoryId ∧
      e'.categoryId = r.categoryId ∧ e.last7Days = e'.last7Days ∧ e.last30Days = e'.last30Days
  streaks : fast.currentStreak ≤ whole.currentStreak ∧ fast.longestStreak ≤ whole.longestStreak
  categoryStreaks : ∀ e ∈ fast.byCategory, ∃ e' ∈ whole.byCategory, e'.categoryId = e.categoryId ∧
    e.currentStreak ≤ e'.currentStreak ∧ e.longestStreak ≤ e'.longestStreak
  current : dateOf (astimezone (moment - statsHistoryDays * day) tz) <
      streakStart (doneDays (journal.filter fun r ↦ r.kind.isOutcome) tz)
        (dateOf (astimezone moment tz)) →
    fast.currentStreak = whole.currentStreak

theorem buildSummary_recent (records : List ActionRecord) {tz : WallClock} (hdates : NoReentry tz)
    (moment : ℤ) : Faithful records tz moment (buildSummary (recent moment records) tz moment)
      (buildSummary records tz moment) where
  figures := by
    simp only [buildSummary, recent_filter]
    exact ⟨period_recent (by decide) _ _, period_recent (by decide) _ _⟩
  categories r hr hkind hwindow := by
    have hread : r ∈ recent moment (records.filter fun r ↦ r.kind.isOutcome) := by
      have := (of_decide_eq_true hwindow).1
      refine List.mem_filter.mpr ⟨List.mem_filter.mpr ⟨hr, hkind⟩, decide_eq_true ?_⟩
      simp only [statsHistoryDays, day] at *
      omega
    have hentry := recent_subset _ _ hread
    rw [← recent_filter] at hread
    refine ⟨_, categoryEntry_mem hread, _, categoryEntry_mem hentry, rfl, rfl, ?_⟩
    simp only [categoryEntry, recent_filter]
    exact ⟨period_recent (by decide) _ _, period_recent (by decide) _ _⟩
  streaks := by
    simp only [buildSummary, recent_filter]
    exact ⟨currentStreak_mono doneDays_recent_subset _, longestStreak_mono doneDays_recent_subset⟩
  categoryStreaks e he := by
    obtain ⟨⟨r, hr, hc⟩, he⟩ := mem_breakdown.mp he
    rw [recent_filter] at hr
    refine ⟨_, categoryEntry_mem (recent_subset _ _ hr), hc, ?_⟩
    rw [he, ← hc]
    simp only [categoryEntry, recent_filter]
    exact ⟨currentStreak_mono doneDays_recent_subset _, longestStreak_mono doneDays_recent_subset⟩
  current hlate := by
    simp only [buildSummary, recent_filter]
    exact currentStreak_recent hdates hlate

/-- Thirty days of the journal give the figures of the whole of it. -/
theorem summaryFor_faithful (db : Database) (userId : ℕ) (user : User)
    (hdates : NoReentry user.timezone) (moment : ℤ) :
    Faithful (wholeJournal db userId moment) user.timezone moment
        (summaryFor db userId user moment none)
        (buildSummary (wholeJournal db userId moment) user.timezone moment) ∧
      ∀ e ∈ (summaryFor db userId user moment none).byCategory,
        e.Agrees (summaryFor db userId user moment (some e.categoryId)) := by
  refine ⟨?_, fun e he ↦ ?_⟩
  · rw [summaryFor_eq]
    exact buildSummary_recent _ hdates moment
  · rw [summaryFor_eq] at he
    rw [summaryFor_category]
    exact agrees_of_mem he

/-- Two mornings of one reminder, both answered, forty days apart. -/
def twoAnswers : Database where
  users := .ofList [{ timezone := springForward }]
  categories := .empty
  reminders := .ofList [⟨0, 0, .active, everyMorning, springForward, 0, none, none, 2, 10, none, 0, none⟩]
  recipients := .empty
  invites := .empty
  occurrences := .ofList [⟨0, 0, 0, .done, 0, day⟩, ⟨0, 40 * day, 40 * day, .done, 0, 41 * day⟩]
  deliveries := .ofList [⟨0, 0, .done, 1, 0, none, none, some 0, some hour, none, none⟩,
    ⟨1, 0, .done, 1, 40 * day, none, none, some (40 * day), some (40 * day + hour), none, none⟩]
  actions := .ofList [⟨0, 0, .done, none, hour⟩, ⟨1, 0, .done, none, 40 * day + hour⟩]

theorem summaryFor_faithful_twoAnswers :
    Faithful (wholeJournal twoAnswers 0 (41 * day)) springForward (41 * day)
        (summaryFor twoAnswers 0 { timezone := springForward } (41 * day) none)
        (buildSummary (wholeJournal twoAnswers 0 (41 * day)) springForward (41 * day)) ∧
      ∀ e ∈ (summaryFor twoAnswers 0 { timezone := springForward } (41 * day) none).byCategory,
        e.Agrees (summaryFor twoAnswers 0 { timezone := springForward } (41 * day)
          (some e.categoryId)) :=
  summaryFor_faithful twoAnswers 0 { timezone := springForward } noReentry_springForward (41 * day)

end Whole

end Remindo.Services.History
