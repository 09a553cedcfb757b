import Remindo.Serial.Calendar
import Remindo.Services.Coverage

namespace Remindo.Serial

open Remindo.Domain Remindo.Db Remindo.Services Remindo.Foundation
open Remindo.Services.Planning (Materialised BudgetSpent OnWatermark Watermark lifetime boundsOf)

/-- A cycle never expands more than ten years at once. -/
def Operation.shortWindows (settings : Settings) (w : World) : Operation → Prop
  | .materialize now =>
    ∀ x ∈ Db.Reminders.dueForPlanning w.db (now + settings.planning.horizon)
        settings.planning.batchSize,
      planUntil (boundsOf x.2) (now + settings.planning.horizon) - planAfter (boundsOf x.2) ≤
        3650 * day
  | _ => True

instance (settings : Settings) (w : World) :
    ∀ op : Operation, Decidable (op.shortWindows settings w)
  | .materialize _ => inferInstanceAs (Decidable (∀ x ∈ _, _))
  | .create .. | .deliver .. | .react .. | .sweep .. | .setStatus .. | .update .. | .issueInvite ..
  | .revokeInvite .. | .openInvite .. | .accept .. | .decline .. | .leave .. => isTrue trivial

section Keys

variable {db db' : Database} {rid : ℕ} {m : ℤ}

theorem SameCalendar.materialised (h : SameCalendar db db') :
    Materialised db' rid m ↔ Materialised db rid m := by
  have hkey : ∀ db : Database, Materialised db rid m ↔
      ∃ i, (db.occurrences i).map Occurrence.key = some (rid, m) := by
    intro db
    simp only [Materialised, Option.map_eq_some_iff]
  rw [hkey, hkey]
  exact exists_congr fun i ↦ by rw [h.2 i]

theorem SameCalendar.countForReminder (h : SameCalendar db db') :
    Occurrences.countForReminder db' rid = Occurrences.countForReminder db rid := by
  refine Table.count_congr fun i ↦ ?_
  have hany : ∀ o : Option Occurrence,
      (o.any fun o ↦ decide (o.reminderId = rid)) =
        (o.map Occurrence.key).any fun k ↦ decide (k.1 = rid) := by
    intro o
    cases o <;> rfl
  rw [hany, hany, h.2 i]

theorem SameCalendar.unique (h : SameCalendar db db')
    (hunique : db.occurrences.Unique Occurrence.key) :
    db'.occurrences.Unique Occurrence.key := by
  intro i j o o' ho ho' hkey
  have hi := h.2 i
  have hj := h.2 j
  rw [ho, Option.map_some, eq_comm, Option.map_eq_some_iff] at hi
  rw [ho', Option.map_some, eq_comm, Option.map_eq_some_iff] at hj
  obtain ⟨p, hp, hpkey⟩ := hi
  obtain ⟨q, hq, hqkey⟩ := hj
  exact hunique i j p q hp hq (hpkey.trans (hkey.trans hqkey.symm))

theorem SameCalendar.watermark (h : SameCalendar db db') (hw : Watermark db) : Watermark db' := by
  refine ⟨h.unique hw.unique, fun rid r hr ↦ ?_⟩
  rw [h.1] at hr
  exact (hw.onWatermark rid r hr).congr (fun m hm ↦ h.materialised.mpr hm) h.countForReminder.ge

end Keys

section Editing

variable {db : Database} {rid : ℕ} {r : Reminder}

/-- The watermark only depends on the plan of a reminder. -/
theorem OnWatermark.of_samePlan {r' : Reminder} (hbounds : boundsOf r' = boundsOf r)
    (hschedule : r'.schedule = r.schedule) (hzone : r'.timezone = r.timezone)
    (h : OnWatermark db rid r) : OnWatermark db rid r' := by
  have hplanned : r'.plannedUntil = r.plannedUntil := congrArg PlanBounds.plannedUntil hbounds
  have hmax : r'.maxOccurrences = r.maxOccurrences := congrArg PlanBounds.maxOccurrences hbounds
  have hlife : lifetime r' = lifetime r := by
    rw [lifetime, lifetime, hbounds, hschedule, hzone]
  intro p hp
  rw [hplanned] at hp
  rw [BudgetSpent, hmax, Planning.Covers, hlife]
  exact h p hp

theorem updateFields_watermark (hw : Watermark db) (hr : db.reminders rid = some r)
    {values : Reminder → Reminder}
    (hvalues : (values r).plannedUntil = none ∨ boundsOf (values r) = boundsOf r ∧
      (values r).schedule = r.schedule ∧ (values r).timezone = r.timezone) :
    Watermark (db.run (Db.Reminders.updateFields rid values)) := by
  refine ⟨hw.unique, fun rid' r' hr' ↦ ?_⟩
  rw [Db.Reminders.reminders_updateFields] at hr'
  split at hr'
  · rename_i heq
    rw [hr] at hr'
    cases hr'
    rcases hvalues with hnone | ⟨hbounds, hschedule, hzone⟩
    · intro p hp
      rw [hnone] at hp
      cases hp
    · rw [heq]
      exact OnWatermark.of_samePlan hbounds hschedule hzone (hw.onWatermark rid r hr)
  · exact hw.onWatermark rid' r' hr'

theorem dropQueued_watermark (hw : Watermark db) :
    Watermark (Reminders.dropQueued rid r db) := by
  refine ⟨fun i j o o' ho ho' hkey ↦ ?_, fun rid' r' hr' ↦ ?_⟩
  · rw [Reminders.dropQueued_occurrences, Option.filter_eq_some_iff] at ho ho'
    exact hw.unique i j o o' ho.1 ho'.1 hkey
  · rw [Reminders.dropQueued_reminders] at hr'
    split at hr'
    · obtain ⟨r₀, -, rfl⟩ := Option.map_eq_some_iff.mp hr'
      intro p hp
      cases hp
    · rename_i hne
      exact (hw.onWatermark rid' r' hr').congr
        (fun m hm ↦ Reminders.dropQueued_materialised hne hm) (Reminders.dropQueued_count hne).ge

end Editing

section Runs

variable {settings : Settings} {w w' : World}

theorem watermark_perform {op : Operation} (hw : Watermark w.db)
    (hshort : op.shortWindows settings w) (h : perform settings w op = some w') :
    Watermark w'.db := by
  by_cases hop : op.movesCalendar = false
  · exact (sameCalendar_perform hop h).watermark hw
  cases op with
  | create now ownerId draft =>
    obtain ⟨db', hdb, rfl⟩ := over_eq_some h
    obtain ⟨-, rfl⟩ := Reminders.create_eq_ok hdb
    refine ⟨hw.unique, fun rid r hr ↦ ?_⟩
    change w.db.reminders.writes (w.db.reminders.insert [_]) rid = some r at hr
    rw [Table.writes_insert] at hr
    split at hr
    · exact hw.onWatermark rid r hr
    · intro p hp
      obtain rfl := List.mem_singleton.mp (List.mem_of_getElem? hr)
      cases hp
  | materialize now =>
    cases h
    exact (Planning.materializeAll_spec hw (fun x hx ↦ by
      obtain ⟨hrow, hdue⟩ := Db.Reminders.mem_dueForPlanning hx
      exact ⟨hrow, hdue, hshort x hx⟩) (Db.Reminders.nodup_dueForPlanning _ _ _)).1
  | setStatus now ownerId rid status =>
    obtain ⟨db', hdb, rfl⟩ := over_eq_some h
    obtain ⟨r, hr, rfl⟩ := Reminders.setStatus_eq_ok hdb
    have hrow := (Reminders.getEditable_eq_ok hr).1
    split
    · exact updateFields_watermark hw hrow (.inr ⟨rfl, rfl, rfl⟩)
    · obtain ⟨fired, hdropped⟩ := Reminders.dropQueued_row hrow
      exact updateFields_watermark (dropQueued_watermark hw) hdropped (.inl rfl)
  | update now ownerId rid change =>
    obtain ⟨db', hdb, rfl⟩ := over_eq_some h
    obtain ⟨r, hr, -, rfl⟩ := Reminders.update_eq_ok hdb
    have hrow := (Reminders.getEditable_eq_ok hr).1
    split
    · obtain ⟨fired, hdropped⟩ := Reminders.dropQueued_row hrow
      exact updateFields_watermark (dropQueued_watermark hw) hdropped (.inl rfl)
    · rename_i hsome
      have hschedule : change.schedule = none := by simpa using hsome
      have hsame : (Reminders.changed change r).schedule = r.schedule := by
        rw [Reminders.changed, hschedule, Option.getD_none]
      refine updateFields_watermark hw hrow (.inr ⟨?_, hsame, rfl⟩)
      rw [boundsOf, boundsOf, hsame]
      rfl
  | _ => exact absurd rfl hop

/-- The moment is one the reminder fires at, and has exactly one row. -/
def FiredOnce (db : Database) (rid : ℕ) (m : ℤ) : Prop :=
  ∃! i, ∃ o, db.occurrences i = some o ∧ o.key = (rid, m)

/-- What the planner promises about a world, and about its next cycle. -/
structure WatermarkKept (settings : Settings) (w : World) : Prop where
  covered : ∀ rid r p, w.db.reminders rid = some r → r.plannedUntil = some p →
    BudgetSpent w.db rid r ∨ ∀ m ∈ firings r.schedule r.timezone, r.startsAt ≤ m → m ≤ p →
      (∀ e, r.endsAt = some e → m ≤ e) → FiredOnce w.db rid m
  finished : ∀ now w', (Operation.materialize now).shortWindows settings w →
    perform settings w (.materialize now) = some w' →
      ∀ rid r r', w.db.reminders rid = some r → r.status ≠ .archived →
        w'.db.reminders rid = some r' → r'.status = .archived →
          BudgetSpent w'.db rid r ∨ ∀ m ∈ firings r.schedule r.timezone, r.startsAt ≤ m →
            (∀ e, r.endsAt = some e → m ≤ e) → FiredOnce w'.db rid m
  moved : ∀ now w', (Operation.materialize now).shortWindows settings w →
    perform settings w (.materialize now) = some w' →
      ∀ rid r, (rid, r) ∈ Db.Reminders.dueForPlanning w.db (now + settings.planning.horizon)
          settings.planning.batchSize →
        (w.db.users r.ownerId).isSome = true →
          ∃ r', w'.db.reminders rid = some r' ∧ (r'.status = .archived ∨
            ∃ p', r'.plannedUntil = some p' ∧ ∀ p, r.plannedUntil = some p → p < p')

/-- One cycle over a database whose reminders are all on their watermark. -/
theorem watermark_cycle {now : ℤ} (hw : Watermark w.db)
    (hcycle : (Operation.materialize now).shortWindows settings w)
    (h : perform settings w (.materialize now) = some w') :
    Watermark w'.db ∧
      (∀ rid, (∀ x ∈ Db.Reminders.dueForPlanning w.db (now + settings.planning.horizon)
          settings.planning.batchSize, x.1 = rid → w.db.users x.2.ownerId = none) →
        w'.db.reminders rid = w.db.reminders rid) ∧
      ∀ x ∈ Db.Reminders.dueForPlanning w.db (now + settings.planning.horizon)
          settings.planning.batchSize, (w.db.users x.2.ownerId).isSome = true →
        ∃ r', w'.db.reminders x.1 = some r' ∧ Planning.Advanced w'.db x.1 x.2 r' := by
  cases h
  obtain ⟨hw', hother, hdone⟩ := Planning.materializeAll_spec hw (fun x hx ↦ by
    obtain ⟨hrow, hdue⟩ := Db.Reminders.mem_dueForPlanning hx
    exact ⟨hrow, hdue, hcycle x hx⟩) (Db.Reminders.nodup_dueForPlanning _ _ _)
  exact ⟨hw', fun rid hrid ↦ (hother rid hrid).1, hdone⟩

/-- Whatever the planner, the owners and everybody else do, nothing behind a
watermark is missing or doubled; a cycle archives only what has nothing left,
and moves on every reminder it processes. -/
theorem planner_watermark {users : Table User} {categories : Table Category} {ops : List Operation}
    (hshort : Guarded (perform settings) (fun w op ↦ op.shortWindows settings w)
      (.initial users categories) ops)
    (hrun : run (perform settings) (.initial users categories) ops = some w) :
    WatermarkKept settings w := by
  have hw : Watermark w.db := run_invariant
    (fun _ _ _ hw hshort h ↦ watermark_perform hw hshort h) hshort hrun
    (Planning.watermark_initial users categories)
  refine ⟨fun rid r p hr hp ↦ ?_, fun now w' hcycle h rid r r' hr hopen hr' harchived ↦ ?_,
    fun now w' hcycle h rid r hdue howner ↦ ?_⟩
  · refine (hw.onWatermark rid r hr p hp).imp_right fun hcovers m hm hstart hle hend ↦ ?_
    exact (hcovers m ⟨hm, hstart, hend⟩ hle).unique hw.unique
  · obtain ⟨hw', hother, hdone⟩ := watermark_cycle hw hcycle h
    by_cases hskip : ∀ x ∈ Db.Reminders.dueForPlanning w.db (now + settings.planning.horizon)
        settings.planning.batchSize, x.1 = rid → w.db.users x.2.ownerId = none
    · rw [hother rid hskip, hr] at hr'
      cases hr'
      exact absurd harchived hopen
    · push Not at hskip
      obtain ⟨x, hx, rfl, howner⟩ := hskip
      obtain ⟨r₁, hr₁, hadvanced⟩ := hdone x hx (Option.isSome_iff_ne_none.mpr howner)
      obtain rfl := Option.some_inj.mp ((Db.Reminders.mem_dueForPlanning hx).1.symm.trans hr)
      obtain rfl := Option.some_inj.mp (hr₁.symm.trans hr')
      refine (hadvanced.finished harchived).imp_right fun hall m hm hstart hend ↦ ?_
      exact (hall m ⟨hm, hstart, hend⟩).unique hw'.unique
  · obtain ⟨-, -, hdone⟩ := watermark_cycle hw hcycle h
    obtain ⟨r', hr', hadvanced⟩ := hdone (rid, r) hdue howner
    exact ⟨r', hr', hadvanced.moves⟩

end Runs

section Sample

/-- Two people in UTC who never asked for silence. -/
def sampleUsers : Table User :=
  .ofList [{ timezone := .utc }, { timezone := .utc }]

/-- One of the presets. -/
def sampleCategories : Table Category :=
  .ofList [{ ownerId := none, code := "task".toList, title := "Task".toList, emoji := "📌".toList }]

def sampleSettings : Settings := ⟨⟨14 * day, day, 100⟩, minute, 10, 100⟩

/-- Every Monday at eight. -/
def sampleDraft : Reminders.Draft :=
  ⟨0, weeklyFrom 4 (.oclock 8), .utc, none, none, none, 10, none⟩

/-- A reminder planned, paused, resumed and given another schedule. -/
def sampleLife : List Operation :=
  [.create 0 0 sampleDraft, .materialize 0, .setStatus day 0 0 .paused, .materialize (2 * day),
    .setStatus (3 * day) 0 0 .active, .materialize (3 * day),
    .update (10 * day) 0 0 ⟨none, some (weeklyFrom 6 (.oclock 9)), none, none, false⟩,
    .materialize (10 * day)]

theorem sampleLife_runs :
    (run (perform sampleSettings) (.initial sampleUsers sampleCategories) sampleLife).isSome = true := by
  decide +kernel

theorem planner_watermark_sample :
    WatermarkKept sampleSettings
      ((run (perform sampleSettings) (.initial sampleUsers sampleCategories) sampleLife).get
        sampleLife_runs) :=
  planner_watermark (show Guarded _ _ _ sampleLife by decide +kernel) (Option.some_get _).symm

end Sample

end Remindo.Serial
