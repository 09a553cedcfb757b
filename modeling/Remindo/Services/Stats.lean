import Remindo.Db.Repositories
import Remindo.Domain.Stats

namespace Remindo.Services.Stats

open Remindo.Domain Remindo.Db

def record (x : (ℕ × DeliveryAction) × ℕ) : ActionRecord := ⟨x.1.2.createdAt, x.1.2.kind, x.2⟩

/-- The summary as it stood at `moment`, for a user row already in hand. -/
def summaryFor (db : Database) (userId : ℕ) (user : User) (moment : ℤ) (categoryId : Option ℕ) :
    StatsSummary :=
  let rows := Deliveries.listActionsForUser db userId (moment - statsHistoryDays * day)
    (some moment) categoryId
  buildSummary (rows.map record) user.timezone moment

/-- The journal rows that the last seven days of the summary count. -/
def weekRows (db : Database) (userId : ℕ) (moment : ℤ) : List ((ℕ × DeliveryAction) × ℕ) :=
  (Deliveries.listActionsForUser db userId (moment - statsHistoryDays * day)
    (some moment) none).filter fun x ↦ x.1.2.kind.isOutcome && inPeriod moment 7 x.1.2.createdAt

theorem last7Days_total (db : Database) (userId : ℕ) (user : User) (moment : ℤ) :
    (summaryFor db userId user moment none).last7Days.total = (weekRows db userId moment).length := by
  simp only [summaryFor, buildSummary, period, weekRows, List.filter_map, List.length_map,
    List.filter_filter]
  congr 2
  funext x
  exact Bool.and_comm _ _

/-- The entry is an outcome of the user, and its reminder is still there. -/
structure Reads (db : Database) (userId entry : ℕ) (action : DeliveryAction) : Prop where
  row : db.actions entry = some action
  user : action.userId = userId
  outcome : action.kind.isOutcome = true
  category : (Deliveries.categoryOf db action.deliveryId).isSome = true

/-- The entry is counted in the last seven days. -/
def Counts (db : Database) (userId : ℕ) (moment : ℤ) (entry : ℕ) : Prop :=
  ∃ action c, ((entry, action), c) ∈ weekRows db userId moment

theorem counts_iff {db : Database} {userId entry : ℕ} {moment : ℤ} :
    Counts db userId moment entry ↔ ∃ action, Reads db userId entry action ∧
      moment - 7 * day < action.createdAt ∧ action.createdAt ≤ moment := by
  simp only [Counts, weekRows, List.mem_filter, Deliveries.mem_listActionsForUser, inPeriod,
    Bool.and_eq_true, decide_eq_true_eq]
  constructor
  · rintro ⟨action, c, ⟨hrow, huser, -, -, hc⟩, hkind, hrange⟩
    exact ⟨action, ⟨hrow, huser, hkind, by simp [hc]⟩, hrange⟩
  · rintro ⟨action, hreads, hrange⟩
    obtain ⟨c, hc⟩ := Option.isSome_iff_exists.mp hreads.category
    refine ⟨action, c, ⟨hreads.row, hreads.user, ?_, hrange.2, hc⟩, hreads.outcome, hrange⟩
    simp only [statsHistoryDays, day] at *
    omega

end Remindo.Services.Stats
