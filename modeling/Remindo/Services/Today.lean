import Remindo.Db.Repositories
import Remindo.Domain.LocalDays
import Remindo.Foundation.Pages

namespace Remindo

open Domain Db Foundation

namespace Db.Deliveries

/-- A delivery with the rows it is joined with. -/
structure DayRow where
  delivery : Delivery
  occurrence : Occurrence
  reminder : Reminder
  category : Category

def dayRow (db : Database) (start stop : ℤ) (d : Delivery) : Option DayRow := do
  let o ← db.occurrences d.occurrenceId
  let r ← db.reminders o.reminderId
  let c ← db.categories r.categoryId
  if start ≤ o.fireAt ∧ o.fireAt < stop then some ⟨d, o, r, c⟩ else none

/-- Deliveries addressed to one user inside one local day. -/
def dayQuery (db : Database) (userId : ℕ) (start stop : ℤ) : List (ℕ × DayRow) :=
  (db.deliveries.select fun _ d ↦ decide (d.userId = userId)).filterMap fun x ↦
    (dayRow db start stop x.2).map fun row ↦ (x.1, row)

def listForDay (db : Database) (userId : ℕ) (start stop : ℤ) (limit offset : ℕ) :
    List (ℕ × DayRow) :=
  ((orderBy (fun row ↦ row.occurrence.fireAt) (dayQuery db userId start stop)).drop offset).take
    limit

def countForDay (db : Database) (userId : ℕ) (start stop : ℤ) : ℕ :=
  (dayQuery db userId start stop).length

end Db.Deliveries

namespace Services.Today

open Db.Deliveries

/-- One delivery of the day. -/
structure TodayEntry where
  fireAt : ℤ
  emoji : Text
  status : DeliveryStatus

def entry (row : DayRow) : TodayEntry :=
  ⟨row.occurrence.fireAt, row.category.emoji, row.delivery.status⟩

/-- A page of the user's day, in their own timezone. -/
def rowsForUser (db : Database) (now : ℤ) (userId : ℕ) (user : User) (page pageSize : ℕ) :
    List (ℕ × DayRow) :=
  let (start, stop) := localDayBounds (localToday now user.timezone) user.timezone
  listForDay db userId start stop pageSize (page * pageSize)

def listForUser (db : Database) (now : ℤ) (userId : ℕ) (user : User) (page pageSize : ℕ) :
    List TodayEntry × ℕ :=
  let (start, stop) := localDayBounds (localToday now user.timezone) user.timezone
  ((rowsForUser db now userId user page pageSize).map fun x ↦ entry x.2,
    countForDay db userId start stop)

/-- The delivery is the user's, and fires on the date their clock shows. -/
def IsDue (db : Database) (now : ℤ) (userId : ℕ) (timezone : WallClock) (d : Delivery) : Prop :=
  d.userId = userId ∧ ∃ o, db.occurrences d.occurrenceId = some o ∧
    localToday o.fireAt timezone = localToday now timezone

section Day

variable {db : Database} {now start stop : ℤ} {userId j : ℕ} {d : Delivery}

theorem dayRow_eq_some {row : DayRow} (h : dayRow db start stop d = some row) :
    row.delivery = d ∧ db.occurrences d.occurrenceId = some row.occurrence ∧
      start ≤ row.occurrence.fireAt ∧ row.occurrence.fireAt < stop := by
  obtain ⟨o, ho, h⟩ := Option.bind_eq_some_iff.mp h
  obtain ⟨r, -, h⟩ := Option.bind_eq_some_iff.mp h
  obtain ⟨c, -, h⟩ := Option.bind_eq_some_iff.mp h
  split at h
  · rename_i hday
    cases h
    exact ⟨rfl, ho, hday⟩
  · cases h

theorem mem_dayQuery {row : DayRow} : (j, row) ∈ dayQuery db userId start stop ↔
    db.deliveries j = some row.delivery ∧ row.delivery.userId = userId ∧
      dayRow db start stop row.delivery = some row := by
  rw [dayQuery, List.mem_filterMap]
  constructor
  · rintro ⟨⟨i, d⟩, hd, hrow⟩
    obtain ⟨row', hrow, heq⟩ := Option.map_eq_some_iff.mp hrow
    cases heq
    obtain ⟨hd, huser⟩ := Table.mem_select.mp hd
    obtain ⟨rfl, -⟩ := dayRow_eq_some hrow
    exact ⟨hd, of_decide_eq_true huser, hrow⟩
  · rintro ⟨hd, huser, hrow⟩
    refine ⟨(j, row.delivery), Table.mem_select.mpr ⟨hd, decide_eq_true huser⟩, ?_⟩
    rw [hrow]
    rfl

theorem pairwise_dayQuery : (dayQuery db userId start stop).Pairwise fun a b ↦ a.1 < b.1 := by
  rw [dayQuery]
  refine List.pairwise_filterMap.mpr ((Table.pairwise_select ..).imp ?_)
  intro a b hab x hx y hy
  obtain ⟨_, -, rfl⟩ := Option.map_eq_some_iff.mp hx
  obtain ⟨_, -, rfl⟩ := Option.map_eq_some_iff.mp hy
  exact hab

theorem nodup_dayQuery : ((dayQuery db userId start stop).map Prod.fst).Nodup :=
  List.pairwise_map.mpr (pairwise_dayQuery.imp fun h ↦ Nat.ne_of_lt h)

theorem localDay_iff {timezone : WallClock} (hdates : NoReentry timezone) {t : ℤ} :
    (localDayBounds (localToday now timezone) timezone).1 ≤ t ∧
      t < (localDayBounds (localToday now timezone) timezone).2 ↔
        localToday t timezone = localToday now timezone := by
  rw [localDayBounds, toUtc_midnight_le_iff hdates, ← not_le, toUtc_midnight_le_iff hdates]
  omega

end Day

end Services.Today

end Remindo
