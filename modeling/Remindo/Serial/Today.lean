import Remindo.Serial.Schema
import Remindo.Serial.Waiting
import Remindo.Services.Today

namespace Remindo.Serial

open Remindo.Domain Remindo.Db Remindo.Services Remindo.Foundation

section Categories

variable {settings : Services.Settings} {w w' : World} {op : Operation} {rid : ℕ} {r' : Reminder}

/-- A reminder keeps its category, or is given one that is there. -/
theorem category_back (h : perform settings w op = some w')
    (hr' : w'.db.reminders rid = some r') :
    (∃ r, w.db.reminders rid = some r ∧ r.categoryId = r'.categoryId) ∨
      ∃ c, w.db.categories r'.categoryId = some c := by
  cases hr : w.db.reminders rid with
  | none =>
    obtain ⟨c, hc, -⟩ := perform_reminder_new h hr' hr
    exact .inr ⟨c, hc⟩
  | some r =>
    have hsame (heq : w'.db.reminders rid = w.db.reminders rid) :
        r.categoryId = r'.categoryId := by
      cases (heq.trans hr).symm.trans hr'
      rfl
    by_cases hop : op.movesCalendar = false
    · exact .inl ⟨r, rfl, hsame (by rw [(sameCalendar_perform hop h).1])⟩
    cases op with
    | create now ownerId draft =>
      obtain ⟨db', hdb, rfl⟩ := over_eq_some h
      obtain ⟨-, rfl⟩ := Reminders.create_eq_ok hdb
      exact .inl ⟨r, rfl, hsame ((Table.writes_insert ..).trans (if_pos (Table.lt_next hr)))⟩
    | materialize now =>
      cases h
      obtain ⟨f, hf, hkept⟩ := @Planning.materializeAll_rows settings.planning
        (now + settings.planning.horizon) (Db.Reminders.dueForPlanning w.db
          (now + settings.planning.horizon) settings.planning.batchSize) w.db rid
      obtain ⟨status, plannedUntil, firedCount, hrow, -⟩ := hkept r
      rw [hr, Option.map_some, hrow] at hf
      cases hf.symm.trans hr'
      exact .inl ⟨r, rfl, rfl⟩
    | setStatus now ownerId rid₀ status =>
      obtain ⟨db', hdb, rfl⟩ := over_eq_some h
      obtain ⟨r₀, -, rfl⟩ := Reminders.setStatus_eq_ok hdb
      refine .inl ⟨r, rfl, ?_⟩
      by_cases hrid : rid = rid₀
      · subst hrid
        split at hr' <;>
          simp [Db.Reminders.setStatus, Reminders.dropQueued_reminders, hr] at hr' <;>
            rw [← hr']
      · refine hsame ?_
        split <;> simp [Db.Reminders.setStatus, Reminders.dropQueued_reminders, hrid]
    | update now ownerId rid₀ change =>
      obtain ⟨db', hdb, rfl⟩ := over_eq_some h
      obtain ⟨r₀, -, huse, rfl⟩ := Reminders.update_eq_ok hdb
      by_cases hrid : rid = rid₀
      · subst hrid
        have hcategory : r'.categoryId = change.categoryId.getD r.categoryId := by
          split at hr' <;>
            simp [Reminders.changed, Reminders.dropQueued_reminders, hr] at hr' <;> rw [← hr']
        cases hchange : change.categoryId with
        | none =>
          rw [hchange] at hcategory
          exact .inl ⟨r, rfl, hcategory.symm⟩
        | some categoryId =>
          rw [hchange] at hcategory
          obtain ⟨c, hc, -⟩ := huse categoryId hchange
          exact .inr ⟨c, hcategory ▸ hc⟩
      · refine .inl ⟨r, rfl, hsame ?_⟩
        split <;> simp [Reminders.dropQueued_reminders, hrid]
    | _ => exact absurd rfl hop

def Categorised (db : Database) : Prop := db.reminders.Refers Reminder.categoryId db.categories

variable {config : Config} {o o' : Office} {call : Call}

theorem categorised_attend (ho : Categorised o.world.db) (h : attend config o call = some o') :
    Categorised o'.world.db := by
  cases handled h with
  | operation hw =>
    refine Table.Refers.step ho (fun i r' hr' ↦ ?_) fun k c hc ↦ ⟨c, ?_⟩
    · rcases category_back hw hr' with hold | ⟨c, hc⟩
      · exact .inl hold
      · exact .inr ⟨c, by rw [perform_categories hw, hc]⟩
    · rw [perform_categories hw, hc]
  | categories _ _ hkept => exact Table.Refers.step ho (fun i r hr ↦ .inl ⟨r, hr, rfl⟩) hkept
  | @delete ownerId rid r hr howner =>
    refine Table.Refers.step ho (fun i r' hr' ↦ .inl ⟨r', ?_, rfl⟩) fun k c hc ↦ ⟨c, hc⟩
    simp only [Reminders.delete_reminders] at hr'
    split at hr'
    · cases hr'
    · exact hr'
  | digest now gateway hdb =>
    obtain ⟨users, hrun, -⟩ := digest_run_users config.digest.weekday config.digest.hour now gateway
      config.digest.batchSize o.world.db
    cases hdb.symm.trans hrun
    exact ho
  | newcomer => exact ho
  | known => exact ho
  | setting => exact ho

end Categories

section Today

open Db.Deliveries Services.Today

variable {db : Database} {now start stop : ℤ} {userId size : ℕ} {user : User}

/-- No join leaves a delivery out. -/
theorem dayRow_isSome (hdb : Schema db) (hcategories : Categorised db) {d : Delivery}
    {o : Occurrence} (ho : db.occurrences d.occurrenceId = some o)
    (hday : start ≤ o.fireAt ∧ o.fireAt < stop) :
    ∃ row, dayRow db start stop d = some row ∧ row.delivery = d := by
  obtain ⟨r, hr⟩ := hdb.occurrences _ o ho
  obtain ⟨c, hc⟩ := hcategories _ r hr
  exact ⟨⟨d, o, r, c⟩, by simp [dayRow, ho, hr, hc, hday], rfl⟩

variable {config : Config} {o : Office} {calls : List Call} {categories : Table Category}

/-- The pages of `/today` show each delivery of the local date once, in the order
they fire in, and nothing else. -/
theorem today_shows_each_once (hrun : run (attend config) (.initial categories) calls = some o)
    (hdates : NoReentry user.timezone) (hsize : 0 < size) :
    let shown page := rowsForUser o.world.db now userId user page size
    let before (x y : ℕ × DayRow) :=
      precedes x.2.occurrence.fireAt x.1 y.2.occurrence.fireAt y.1 = true
    (∀ j d, o.world.db.deliveries j = some d → IsDue o.world.db now userId user.timezone d →
      ∃! page, page < pageCount (listForUser o.world.db now userId user 0 size).2 size ∧
        j ∈ (shown page).map Prod.fst) ∧
    (∀ page, ∀ x ∈ shown page, o.world.db.deliveries x.1 = some x.2.delivery ∧
      IsDue o.world.db now userId user.timezone x.2.delivery) ∧
    (∀ page, (shown page).Pairwise before) ∧
    ∀ page page', page < page' → ∀ x ∈ shown page, ∀ y ∈ shown page', before x y := by
  intro shown before
  obtain ⟨hschema, hcategories⟩ : Schema o.world.db ∧ Categorised o.world.db := by
    refine run_preserves (P := fun o ↦ Schema o.world.db ∧ Categorised o.world.db)
      (fun _ _ _ ho h ↦ ⟨schema_attend ho.1 h, categorised_attend ho.2 h⟩) hrun
        ⟨schema_initial .empty categories, fun i r hr ↦ ?_⟩
    cases hr
  let bounds := localDayBounds (localToday now user.timezone) user.timezone
  let rows := dayQuery o.world.db userId bounds.1 bounds.2
  let ordered := orderBy (fun row ↦ row.occurrence.fireAt) rows
  have hsorted : ordered.Pairwise before :=
    @pairwise_orderBy DayRow (fun row ↦ row.occurrence.fireAt) rows pairwise_dayQuery
  have hids : (ordered.map Prod.fst).Nodup :=
    ((List.perm_insertionSort _ _).map _).nodup_iff.mpr nodup_dayQuery
  have hlength : (ordered.map Prod.fst).length = rows.length := by
    rw [List.length_map]
    exact (List.perm_insertionSort _ _).length_eq
  refine ⟨fun j d hd hdue ↦ ?_, fun page x hx ↦ ?_, fun page ↦ pairwise_pageOf hsorted,
    fun page page' hlt x hx y hy ↦ pageOf_before hsorted hsize hlt hx hy⟩
  · obtain ⟨huser, c, hc, hdate⟩ := hdue
    obtain ⟨row, hrow, rfl⟩ := dayRow_isSome hschema hcategories hc
      ((localDay_iff hdates).mpr hdate)
    have hmem : j ∈ ordered.map Prod.fst :=
      List.mem_map.mpr ⟨(j, row), mem_orderBy.mpr (mem_dayQuery.mpr ⟨hd, huser, hrow⟩), rfl⟩
    have hpage := existsUnique_page hsize hids hmem
    rw [hlength] at hpage
    simp only [pageOf, ← List.map_drop, ← List.map_take] at hpage
    exact hpage
  · have hx := mem_orderBy.mp (List.mem_of_mem_drop (List.mem_of_mem_take hx))
    obtain ⟨hd, huser, hrow⟩ := mem_dayQuery.mp hx
    obtain ⟨-, hc, hday⟩ := dayRow_eq_some hrow
    exact ⟨hd, huser, x.2.occurrence, hc, (localDay_iff hdates).mp hday⟩

theorem noReentry_utc : NoReentry Zone.utc := by
  refine noReentry_of_dateOf_mono fun u v huv ↦ ?_
  simp only [astimezone, Zone.utc, LocalClock.offsetAt, dateOf, second, day]
  omega

/-- The owner's second Monday, before the message of that day. -/
theorem today_shows_each_once_sample : ∃ o : Office,
    run (attend sampleConfig) (.initial sampleCategories) sampleSharing = some o ∧
      ∃! page, page < pageCount
          (listForUser o.world.db (11 * day) 0 { timezone := .utc } 0 5).2 5 ∧
        2 ∈ (rowsForUser o.world.db (11 * day) 0 { timezone := .utc } page 5).map Prod.fst := by
  have hruns : (run (attend sampleConfig) (.initial sampleCategories) sampleSharing).any (fun o ↦
      (o.world.db.deliveries 2).any fun d ↦ decide (d.userId = 0) &&
        (o.world.db.occurrences d.occurrenceId).any fun c ↦
          decide (localToday c.fireAt Zone.utc = localToday (11 * day) Zone.utc)) = true := by
    decide +kernel
  obtain ⟨o, hrun, hruns⟩ := (Option.any_eq_true _ _).mp hruns
  obtain ⟨d, hd, hruns⟩ := (Option.any_eq_true _ _).mp hruns
  obtain ⟨huser, hruns⟩ := Bool.and_eq_true_iff.mp hruns
  obtain ⟨c, hc, hdate⟩ := (Option.any_eq_true _ _).mp hruns
  obtain ⟨hshown, -⟩ := @today_shows_each_once (11 * day) 0 5 { timezone := .utc } sampleConfig o
    sampleSharing sampleCategories hrun noReentry_utc (by decide)
  exact ⟨o, hrun, hshown 2 d hd ⟨of_decide_eq_true huser, c, hc, of_decide_eq_true hdate⟩⟩

end Today

end Remindo.Serial
