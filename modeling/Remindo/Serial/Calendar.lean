import Remindo.Serial.Operations
import Remindo.Services.Coverage

namespace Remindo.Serial

open Remindo.Domain Remindo.Db Remindo.Services Remindo.Foundation

/-- Nobody has moved a reminder, nor added or dropped an occurrence. -/
def SameCalendar (db db' : Database) : Prop :=
  db'.reminders = db.reminders ∧
    ∀ i, (db'.occurrences i).map Occurrence.key = (db.occurrences i).map Occurrence.key

/-- The operations that plan, start, stop or change a reminder. -/
def Operation.movesCalendar : Operation → Bool
  | .create .. | .materialize .. | .setStatus .. | .update .. => true
  | _ => false

namespace SameCalendar

theorem refl (db : Database) : SameCalendar db db := ⟨rfl, fun _ ↦ rfl⟩

theorem trans {db db' db'' : Database} (h : SameCalendar db db') (h' : SameCalendar db' db'') :
    SameCalendar db db'' := ⟨h'.1.trans h.1, fun i ↦ (h'.2 i).trans (h.2 i)⟩

theorem of_tables {db db' : Database} (hr : db'.reminders = db.reminders)
    (ho : db'.occurrences = db.occurrences) : SameCalendar db db' := ⟨hr, fun i ↦ by rw [ho]⟩

end SameCalendar

/-- An occurrence, whatever has become of it. -/
def unstated (o : Occurrence) : Occurrence := { o with status := .pending }

/-- Of categories, reminders and occurrences only the status of some occurrence
has changed. -/
structure Restated (db db' : Database) : Prop where
  categories : db'.categories = db.categories
  reminders : db'.reminders = db.reminders
  occurrences : ∀ i, (db'.occurrences i).map unstated = (db.occurrences i).map unstated

namespace Restated

theorem refl (db : Database) : Restated db db := ⟨rfl, rfl, fun _ ↦ rfl⟩

theorem trans {db db' db'' : Database} (h : Restated db db') (h' : Restated db' db'') :
    Restated db db'' :=
  ⟨h'.categories.trans h.categories, h'.reminders.trans h.reminders,
    fun i ↦ (h'.occurrences i).trans (h.occurrences i)⟩

theorem of_tables {db db' : Database} (hc : db'.categories = db.categories)
    (hr : db'.reminders = db.reminders) (ho : db'.occurrences = db.occurrences) :
    Restated db db' := ⟨hc, hr, fun i ↦ by rw [ho]⟩

theorem map_eq {α : Type} {db db' : Database} (h : Restated db db') {f : Occurrence → α}
    (hf : ∀ o, f (unstated o) = f o) (i : ℕ) :
    (db'.occurrences i).map f = (db.occurrences i).map f := by
  have hunstated : ∀ o : Option Occurrence, o.map f = (o.map unstated).map f := by
    intro o
    rw [Option.map_map]
    exact Option.map_congr fun o _ ↦ (hf o).symm
  rw [hunstated, hunstated (db.occurrences i), h.occurrences i]

theorem sameCalendar {db db' : Database} (h : Restated db db') : SameCalendar db db' :=
  ⟨h.reminders, h.map_eq fun _ ↦ rfl⟩

end Restated

section Queue

variable (db : Database)

theorem restated_setStatus (i : ℕ) (status : OccurrenceStatus) :
    Restated db (db.run (Occurrences.setStatus i status)) := by
  refine ⟨rfl, rfl, fun j ↦ ?_⟩
  rw [Occurrences.occurrences_setStatus]
  split
  · rename_i hj
    rw [Option.map_map, hj]
    rfl
  · rfl

theorem restated_closeOccurrence (i : ℕ) (reaction : Reaction) :
    Restated db (Reactions.closeOccurrence i reaction db) := by
  rw [Reactions.closeOccurrence]
  split
  · split
    · exact restated_setStatus db _ _
    · exact .refl db
  · exact .refl db

theorem restated_applyVerdict (memory : Dispatching.Memory) (w : Dispatching.Work)
    (outcome : Dispatching.Outcome) (now : ℤ) :
    Restated db (Dispatching.applyVerdict db memory w outcome now) := by
  have hrows : Restated db (Dispatching.writeVerdict db w outcome now) := by
    rw [Dispatching.writeVerdict]
    split <;> exact .of_tables rfl rfl rfl
  rw [Dispatching.applyVerdict]
  split
  · exact hrows.trans (restated_setStatus _ _ _)
  · exact hrows

theorem restated_deliverAll (gateway : Dispatching.Gateway) (batch : List Dispatching.Work)
    (memory : Dispatching.Memory) :
    Restated db (Dispatching.deliverAll gateway batch memory db).2 := by
  induction batch generalizing memory db with
  | nil => exact .refl db
  | cons w rest ih => exact (restated_applyVerdict db _ _ _ _).trans (ih _ _)

theorem restated_deliver (now lockFor : ℤ) (batch : ℕ) (gateway : Dispatching.Gateway) :
    Restated db (Dispatching.deliver db now lockFor batch gateway).2 := by
  rw [Dispatching.deliver]
  refine .trans ?_ (restated_deliverAll _ _ _ _)
  exact .of_tables rfl rfl rfl

theorem restated_journalSilence (now : ℤ) (sent : List (ℕ × Delivery)) :
    Restated db (Reaper.journalSilence now sent db) := by
  induction sent generalizing db with
  | nil => exact .refl db
  | cons d rest ih =>
    have hjournal : Restated db (db.run (Deliveries.addAction (Reaper.autoExpire now d))) :=
      .of_tables rfl rfl rfl
    exact hjournal.trans (ih _)

theorem restated_expireAll (now : ℤ) (overdue : List (ℕ × Occurrence)) :
    Restated db (Reaper.expireAll now overdue db) := by
  induction overdue generalizing db with
  | nil => exact .refl db
  | cons o rest ih =>
    exact (restated_journalSilence db now _).trans
      ((restated_setStatus _ _ _).trans (ih _))

theorem sameCalendar_bumpRepeats (i : ℕ) :
    SameCalendar db (db.run (Occurrences.bumpRepeats i)) := by
  refine ⟨rfl, fun j ↦ ?_⟩
  rw [Occurrences.occurrences_bumpRepeats]
  split
  · rename_i hj
    rw [Option.map_map, hj]
    rfl
  · rfl

theorem sameCalendar_repeatAll (now : ℤ) (candidates : List Deliveries.RepeatCandidate)
    (bumped : List ℕ) : SameCalendar db (Reaper.repeatAll now candidates bumped db) := by
  refine Reaper.repeatAll_preserves (fun _ _ _ h ↦ ?_) (fun db' i h ↦ ?_) now candidates bumped
    (.refl db)
  · exact h.trans (.of_tables rfl rfl)
  · exact h.trans (sameCalendar_bumpRepeats db' i)

theorem sameCalendar_sweep (now : ℤ) (batch : ℕ) :
    SameCalendar db (Reaper.sweep db now batch) :=
  (restated_expireAll db now _).sameCalendar.trans
    ((sameCalendar_repeatAll _ now _ []).trans (.of_tables rfl rfl))

end Queue

theorem restated_react {db db' : Database} {now : ℤ} {deliveryId userId : ℕ} {action : Action}
    {result : ReactionResult}
    (h : Reactions.react db now deliveryId userId action = .ok (result, db')) :
    Restated db db' := by
  rcases Reactions.react_eq_ok h with ⟨-, rfl⟩ | ⟨-, d, o, r, u, reaction, -, -, -, -, -, -, rfl⟩
  · exact .refl db'
  · refine .trans ?_ (restated_closeOccurrence _ _ _)
    exact .of_tables rfl rfl rfl

/-- Dispatching, answering and sharing leave an occurrence alone but for its status. -/
theorem restated_perform {settings : Settings} {w w' : World} {op : Operation}
    (hop : op.movesCalendar = false) (hsweep : ∀ now, op ≠ .sweep now)
    (h : perform settings w op = some w') : Restated w.db w'.db := by
  cases op with
  | create | materialize | setStatus | update => cases hop
  | deliver now gateway =>
    cases h
    exact restated_deliver w.db _ _ _ _
  | react now deliveryId userId action =>
    obtain ⟨result, db', hreact, rfl⟩ := over_snd_eq_some h
    exact restated_react hreact
  | sweep now => exact absurd rfl (hsweep now)
  | issueInvite now ownerId reminderId token =>
    obtain ⟨db', hdb, rfl⟩ := over_eq_some h
    obtain rfl := Sharing.issueInvite_eq_ok hdb
    exact .of_tables rfl rfl rfl
  | revokeInvite now ownerId reminderId =>
    obtain ⟨db', hdb, rfl⟩ := over_eq_some h
    obtain rfl := Sharing.revokeInvite_eq_ok hdb
    exact .of_tables rfl rfl rfl
  | openInvite now token userId =>
    obtain ⟨db', hdb, rfl⟩ := over_eq_some h
    rcases Sharing.openInvite_eq_ok hdb with rfl | ⟨rid, -, rfl⟩
    · exact .refl _
    · exact .of_tables rfl rfl rfl
  | accept now userId reminderId =>
    obtain ⟨db', hdb, rfl⟩ := over_eq_some h
    obtain ⟨_, -, hdb⟩ := bind_eq_ok.mp hdb
    cases hdb
    refine .of_tables ?_ ?_ ?_ <;> split <;> rfl
  | decline now userId reminderId =>
    cases h
    exact .of_tables rfl rfl rfl
  | leave now userId reminderId =>
    cases h
    exact .of_tables rfl rfl rfl

/-- Dispatching, answering, sweeping and sharing leave the calendar alone. -/
theorem sameCalendar_perform {settings : Settings} {w w' : World} {op : Operation}
    (hop : op.movesCalendar = false) (h : perform settings w op = some w') :
    SameCalendar w.db w'.db := by
  by_cases hsweep : ∃ now, op = .sweep now
  · obtain ⟨now, rfl⟩ := hsweep
    cases h
    exact sameCalendar_sweep w.db now _
  · exact (restated_perform hop (fun now heq ↦ hsweep ⟨now, heq⟩) h).sameCalendar

section Categories

theorem categories_materializeAll (settings : Planning.Settings) (horizonEnd : ℤ)
    (due : List (ℕ × Reminder)) (db : Database) :
    (Planning.materializeAll settings horizonEnd due db).categories = db.categories := by
  induction due generalizing db with
  | nil => rfl
  | cons x rest ih =>
    rw [Planning.materializeAll]
    split
    · exact ih db
    · refine (ih _).trans ?_
      rw [Planning.materializeOne_eq, Planning.settle]
      split <;> rfl

theorem perform_categories {settings : Settings} {w w' : World} {op : Operation}
    (h : perform settings w op = some w') : w'.db.categories = w.db.categories := by
  by_cases hsweep : ∃ now, op = .sweep now
  · obtain ⟨now, rfl⟩ := hsweep
    cases h
    exact (Reaper.repeatAll_tables ..).2.1.trans (restated_expireAll ..).categories
  by_cases hop : op.movesCalendar = false
  · exact (restated_perform hop (fun now heq ↦ hsweep ⟨now, heq⟩) h).categories
  cases op with
  | create now ownerId draft =>
    obtain ⟨db', hdb, rfl⟩ := over_eq_some h
    obtain ⟨-, rfl⟩ := Reminders.create_eq_ok hdb
    rfl
  | materialize now =>
    cases h
    exact categories_materializeAll ..
  | setStatus now ownerId rid status =>
    obtain ⟨db', hdb, rfl⟩ := over_eq_some h
    obtain ⟨_, -, rfl⟩ := Reminders.setStatus_eq_ok hdb
    split <;> rfl
  | update now ownerId rid change =>
    obtain ⟨db', hdb, rfl⟩ := over_eq_some h
    obtain ⟨_, -, -, rfl⟩ := Reminders.update_eq_ok hdb
    split <;> rfl
  | _ => exact absurd rfl hop

end Categories

section Reminders

variable {settings : Settings} {w w' : World} {op : Operation} {rid : ℕ}

/-- What may become of a reminder: nothing brings an archived one back. -/
structure Amends (db : Database) (r r' : Reminder) : Prop where
  ownerId : r'.ownerId = r.ownerId
  maxRepeats : r'.maxRepeats = r.maxRepeats
  opened : r'.status ≠ .archived → r.status ≠ .archived ∧
    (r'.categoryId = r.categoryId ∨ Reminders.MayUse db r.ownerId r'.categoryId)

theorem Amends.refl (db : Database) (r : Reminder) : Amends db r r :=
  ⟨rfl, rfl, fun hopen ↦ ⟨hopen, .inl rfl⟩⟩

theorem Amends.updateFields {db db' : Database} {r r' : Reminder} {values : Reminder → Reminder}
    (hr' : db'.reminders rid = some r') (h : Amends db r (values r')) :
    ∃ r'', (db'.run (Db.Reminders.updateFields rid values)).reminders rid = some r'' ∧
      Amends db r r'' := ⟨values r', by simp [hr'], h⟩

theorem perform_reminder {r : Reminder} (h : perform settings w op = some w')
    (hr : w.db.reminders rid = some r) :
    ∃ r', w'.db.reminders rid = some r' ∧ Amends w.db r r' := by
  have hsame (heq : w'.db.reminders rid = w.db.reminders rid) :
      ∃ r', w'.db.reminders rid = some r' ∧ Amends w.db r r' := ⟨r, heq.trans hr, .refl w.db r⟩
  by_cases hop : op.movesCalendar = false
  · refine hsame ?_
    rw [(sameCalendar_perform hop h).1]
  cases op with
  | create now ownerId draft =>
    obtain ⟨db', hdb, rfl⟩ := over_eq_some h
    obtain ⟨-, rfl⟩ := Reminders.create_eq_ok hdb
    refine hsame ?_
    exact (Table.writes_insert ..).trans (if_pos (Table.lt_next hr))
  | materialize now =>
    cases h
    obtain ⟨f, hf, hkept⟩ := @Planning.materializeAll_rows settings.planning
      (now + settings.planning.horizon) (Db.Reminders.dueForPlanning w.db
        (now + settings.planning.horizon) settings.planning.batchSize) w.db rid
    obtain ⟨status, plannedUntil, firedCount, hrow, hstatus⟩ := hkept r
    rw [hr, Option.map_some, hrow] at hf
    refine ⟨_, hf, rfl, rfl, fun hopen ↦ ⟨?_, .inl rfl⟩⟩
    rcases hstatus with rfl | rfl
    · exact hopen
    · exact absurd rfl hopen
  | setStatus now ownerId rid₀ status =>
    obtain ⟨db', hdb, rfl⟩ := over_eq_some h
    obtain ⟨r₀, hr₀, rfl⟩ := Reminders.setStatus_eq_ok hdb
    obtain ⟨hrow, -, hopen⟩ := Reminders.getEditable_eq_ok hr₀
    by_cases hrid : rid = rid₀
    · subst hrid
      cases hrow.symm.trans hr
      obtain ⟨fired, hdropped⟩ := @Reminders.dropQueued_row rid r r w.db hr
      split
      · exact Amends.updateFields hr ⟨rfl, rfl, fun _ ↦ ⟨hopen, .inl rfl⟩⟩
      · exact Amends.updateFields hdropped ⟨rfl, rfl, fun _ ↦ ⟨hopen, .inl rfl⟩⟩
    · refine hsame ?_
      split <;> simp [Db.Reminders.setStatus, Reminders.dropQueued_reminders, hrid]
  | update now ownerId rid₀ change =>
    obtain ⟨db', hdb, rfl⟩ := over_eq_some h
    obtain ⟨r₀, hr₀, huse, rfl⟩ := Reminders.update_eq_ok hdb
    obtain ⟨hrow, howner, hopen⟩ := Reminders.getEditable_eq_ok hr₀
    by_cases hrid : rid = rid₀
    · subst hrid
      cases hrow.symm.trans hr
      obtain ⟨fired, hdropped⟩ := @Reminders.dropQueued_row rid r r w.db hr
      have hcategory : change.categoryId.getD r.categoryId = r.categoryId ∨
          Reminders.MayUse w.db r.ownerId (change.categoryId.getD r.categoryId) := by
        cases hchange : change.categoryId with
        | none => exact .inl rfl
        | some categoryId => exact .inr (howner ▸ huse categoryId hchange)
      split
      · exact Amends.updateFields hdropped ⟨rfl, rfl, fun _ ↦ ⟨hopen, hcategory⟩⟩
      · exact Amends.updateFields hr ⟨rfl, rfl, fun _ ↦ ⟨hopen, hcategory⟩⟩
    · refine hsame ?_
      split <;> simp [Reminders.dropQueued_reminders, hrid]
  | _ => exact absurd rfl hop

/-- A reminder comes from `create`, with a category its owner may use. -/
theorem perform_reminder_new {r' : Reminder} (h : perform settings w op = some w')
    (hr' : w'.db.reminders rid = some r') (hnew : w.db.reminders rid = none) :
    Reminders.MayUse w.db r'.ownerId r'.categoryId := by
  have hnone : w'.db.reminders rid ≠ none := by simp [hr']
  by_cases hop : op.movesCalendar = false
  · rw [(sameCalendar_perform hop h).1] at hnone
    exact absurd hnew hnone
  cases op with
  | create now ownerId draft =>
    obtain ⟨db', hdb, rfl⟩ := over_eq_some h
    obtain ⟨huse, rfl⟩ := Reminders.create_eq_ok hdb
    rcases Table.insert_some hr' with hold | ⟨-, rfl⟩
    · rw [hnew] at hold
      cases hold
    · exact huse
  | materialize now =>
    cases h
    obtain ⟨f, hf, -⟩ := @Planning.materializeAll_rows settings.planning
      (now + settings.planning.horizon) (Db.Reminders.dueForPlanning w.db
        (now + settings.planning.horizon) settings.planning.batchSize) w.db rid
    rw [hnew] at hf
    exact absurd hf hnone
  | setStatus now ownerId rid₀ status =>
    obtain ⟨db', hdb, rfl⟩ := over_eq_some h
    obtain ⟨r₀, hr₀, rfl⟩ := Reminders.setStatus_eq_ok hdb
    have hrid : rid ≠ rid₀ := by
      rintro rfl
      rw [(Reminders.getEditable_eq_ok hr₀).1] at hnew
      cases hnew
    refine absurd ?_ hnone
    split <;> simp [Db.Reminders.setStatus, Reminders.dropQueued_reminders, hrid, hnew]
  | update now ownerId rid₀ change =>
    obtain ⟨db', hdb, rfl⟩ := over_eq_some h
    obtain ⟨r₀, hr₀, -, rfl⟩ := Reminders.update_eq_ok hdb
    have hrid : rid ≠ rid₀ := by
      rintro rfl
      rw [(Reminders.getEditable_eq_ok hr₀).1] at hnew
      cases hnew
    refine absurd ?_ hnone
    split <;> simp [Reminders.dropQueued_reminders, hrid, hnew]
  | _ => exact absurd rfl hop

end Reminders

end Remindo.Serial
