import Remindo.Concurrent.Cycle
import Remindo.Services.Coverage

namespace Remindo.Concurrent

open Remindo.Domain Remindo.Db Remindo.Services Remindo.Foundation Remindo.Foundation.ReadCommitted

/-- What is unsent lies on the schedule of a reminder that is not paused, and
nothing is missing behind the watermark. -/
def Obeys (db : Database) (reminderId : ℕ) : Prop :=
  ∀ r, db.reminders reminderId = some r →
    (∀ i o, db.occurrences i = some o → Occurrences.isUnsent db reminderId i o = true →
      r.status ≠ .paused ∧ o.scheduledFor ∈ firings r.schedule r.timezone) ∧
    Planning.OnWatermark db reminderId r

/-- Neither the planner nor an owner touches a delivery that has left `pending`,
or the presence of a reminder. -/
structure Frame (before rows : Rows) : Prop where
  sent : ∀ j d, d.status ≠ .pending →
    (rows.deliveries j = some d ↔ before.deliveries j = some d)
  present : ∀ i, (rows.reminders i).isSome = (before.reminders i).isSome

namespace Materializing

namespace Stage

def horizonEnd : Stage → ℤ
  | .next horizonEnd _ _ => horizonEnd
  | .owned turn _ | .counted turn _ _ | .inserted turn _ _ | .joined turn _ _ _
  | .listed turn _ _ _ | .settling turn _ _ | .settled turn _ => turn.horizonEnd

def done : Stage → List (ℕ × Reminder)
  | .next _ done _ => done
  | .owned turn _ | .counted turn _ _ | .inserted turn _ _ | .joined turn _ _ _
  | .listed turn _ _ _ | .settling turn _ _ | .settled turn _ => turn.done

/-- The reminders whose budget is still to be read. -/
def waiting : Stage → List (ℕ × Reminder)
  | .next _ _ rest => rest
  | .owned turn _ => turn.current :: turn.rest
  | .counted turn _ _ | .inserted turn _ _ | .joined turn _ _ _ | .listed turn _ _ _
  | .settling turn _ _ | .settled turn _ => turn.rest

def rows : Stage → List Delivery
  | .listed _ _ _ rows => rows
  | _ => []

end Stage

theorem Stage.waiting_subset (r : Stage) : r.waiting ⊆ r.batch := by
  cases r with
  | next horizonEnd done rest => exact List.subset_append_right done rest
  | owned turn owner => exact List.subset_append_right turn.done (turn.current :: turn.rest)
  | _ => exact fun x hx ↦ List.mem_append_right _ (List.mem_cons_of_mem _ hx)

theorem Stage.done_subset (r : Stage) : r.done ⊆ r.batch := by
  cases r <;> exact List.subset_append_left _ _

/-- The row a cycle makes of a reminder fires as before, and is not paused. -/
structure Replans (r r' : Reminder) : Prop where
  schedule : r'.schedule = r.schedule
  timezone : r'.timezone = r.timezone
  status : r'.status ≠ .paused

/-- What the cycle knows about the reminder it is at. -/
def Stage.Current (known : Set ℕ) (view : Database) : Stage → Prop
  | .counted turn _ before =>
    view.reminders turn.current.1 = some turn.current.2 ∧
      before = Occurrences.countForReminder view turn.current.1 ∧
      (turn.current.1 ∈ known → Planning.OnWatermark view turn.current.1 turn.current.2)
  | .inserted turn before firedCount | .joined turn before firedCount _
  | .listed turn before firedCount _ | .settling turn before firedCount =>
    view.reminders turn.current.1 = some turn.current.2 ∧
      (turn.current.1 ∈ known → Planning.OnWatermark view turn.current.1
        (Planning.replanned turn.current.2 (turn.outcome before firedCount) firedCount))
  | .settled turn _ =>
    ∃ r', view.reminders turn.current.1 = some r' ∧ Replans turn.current.2 r' ∧
      (turn.current.1 ∈ known → Planning.OnWatermark view turn.current.1 r')
  | .next .. | .owned .. => True

/-- The reminders of the batch are still those the cycle has read. -/
structure Snapshots (known : Set ℕ) (view : Database) (committed : Rows) (r : Stage) : Prop where
  due : ∀ x ∈ r.batch, x.2.status = .active ∧
    planUntil (Planning.boundsOf x.2) r.horizonEnd - planAfter (Planning.boundsOf x.2) ≤ 3650 * day
  snapshot : ∀ x ∈ r.batch, committed.reminders x.1 = some x.2
  others : ∀ i, i ∉ r.batch.map Prod.fst → view.reminders i = committed.reminders i
  waiting : ∀ x ∈ r.waiting, view.reminders x.1 = some x.2 ∧
    (x.1 ∈ known → Planning.OnWatermark view x.1 x.2)
  current : r.Current known view
  done : ∀ x ∈ r.done, ∃ r', view.reminders x.1 = some r' ∧ Replans x.2 r' ∧
    (x.1 ∈ known → Planning.OnWatermark view x.1 r')
  rows : ∀ d ∈ r.rows, d.status = .pending

end Materializing

namespace Editing

namespace Stage

def request : Stage → Request
  | .editing request _ | .dropped request _ _ | .reset request _ _ | .flushed request => request

/-- The call that is about to take the queue back. -/
def dropping : Stage → Option Request
  | .editing request _ => some request
  | _ => none

/-- The call that has taken the queue back. -/
def overriding : Stage → Option Request
  | .dropped request _ _ | .reset request _ _ | .flushed request => some request
  | .editing .. => none

/-- The watermark is reset as well. -/
def hasReset : Stage → Bool
  | .reset .. | .flushed .. => true
  | _ => false

end Stage

/-- What an owner's call sees while it takes the queue back. -/
structure Overrides (before : Database) (view committed : Rows) (holds : Lock → Prop) (r : Stage) :
    Prop where
  drops : r.request.drops = true
  present : (before.reminders r.request.reminderId).isSome = true
  occurrences : ∀ i, view.occurrences i = committed.occurrences i ∨ view.occurrences i = none ∧
    ∀ o, committed.occurrences i = some o → o.reminderId = r.request.reminderId
  reminders : ∀ i, i ≠ r.request.reminderId → view.reminders i = committed.reminders i
  unsent : ∀ request ∈ r.overriding, ∀ i o, view.occurrences i = some o →
    o.reminderId = request.reminderId → o.status = .pending → Occurrences.answered before i = true
  reset : r.hasReset = true → holds (.reminder r.request.reminderId) ∧
    ∀ r', view.reminders r.request.reminderId = some r' → r'.plannedUntil = none

end Editing

/-- The reminders of an open cycle's batch. -/
def Stage.planning : Stage → List ℕ
  | .materializing r => r.batch.map Prod.fst
  | _ => []

def Stage.dropping : Stage → Option Editing.Request
  | .editing r => r.dropping
  | _ => none

def Stage.overriding : Stage → Option Editing.Request
  | .editing r => r.overriding
  | _ => none

def Stage.isIdle : Stage → Bool
  | .idle => true
  | _ => false

def Input.cycle : Input → Option ℤ
  | .materialize now => some now
  | _ => none

theorem Stage.not_planning_of_overriding {r : Stage} {request : Editing.Request} {reminderId : ℕ}
    (h : request ∈ r.overriding) : reminderId ∉ r.planning := by
  cases r with
  | editing r => exact List.not_mem_nil
  | idle => cases h
  | reacting r => cases h
  | delivering r => cases h
  | sweeping r => cases h
  | materializing r => cases h
  | joining r => cases h

/-- One planner, and pauses and schedule edits beside it. -/
def OnlyOverrides : Event Input → Prop
  | .move i (.materialize _) => i = 0
  | .move _ (.edit (.setStatus _ _ status)) => status = .paused
  | .move _ (.edit (.update _ _ _ change)) => change.schedule.isSome = true
  | .move _ .go | .crash _ => True
  | _ => False

/-- A queue is taken back while no open cycle has the reminder in its batch, and
a cycle reads its batch while nobody has taken back a queue of it without being
committed; its windows are not too long to search. -/
def OverridesFairly (settings : Settings) (sessions : Set ℕ) (s : Sessions) : Event Input → Prop
  | .move i input =>
    (∀ request ∈ (s.stage i).dropping, request.reminderId ∉ (s.stage 0).planning) ∧
    ((s.stage i).isIdle = true → ∀ now ∈ input.cycle,
      ∀ x ∈ Db.Reminders.dueForPlanning (s.view i) (now + settings.planning.horizon)
          settings.planning.batchSize,
        planUntil (Planning.boundsOf x.2) (now + settings.planning.horizon) -
            planAfter (Planning.boundsOf x.2) ≤ 3650 * day ∧
          ∀ j ∈ sessions, ∀ request ∈ (s.stage j).overriding, request.reminderId ≠ x.1)
  | .crash _ => True

/-- Some pause or schedule edit of the reminder is committed on the way. -/
def Overridden (settings : Settings) (reminderId : ℕ) : Sessions → List (Event Input) → Prop
  | _, [] => False
  | s, e :: es =>
    (∃ i ∈ s.committer (program settings) e, ∃ request ∈ (s.stage i).overriding,
      request.reminderId = reminderId) ∨
    ∃ s', step (program settings) .idle s e = some s' ∧ Overridden settings reminderId s' es

section Frames

variable {before db : Database} {view committed : Rows} {i : ℕ}

theorem Frame.answered (h : Frame before.rows db.rows) (i : ℕ) :
    Occurrences.answered db i = Occurrences.answered before i := by
  rw [Bool.eq_iff_iff, Occurrences.answered_iff, Occurrences.answered_iff]
  refine exists_congr fun j ↦ exists_congr fun d ↦ ?_
  by_cases hsent : d.status = .pending
  · simp [hsent]
  · exact and_congr_left fun _ ↦ h.sent j d hsent

theorem Frame.isUnsent (h : Frame before.rows db.rows) (reminderId i : ℕ) (o : Occurrence) :
    Occurrences.isUnsent db reminderId i o = Occurrences.isUnsent before reminderId i o := by
  rw [Occurrences.isUnsent, Occurrences.isUnsent, h.answered i]

theorem Frame.updateReminder {before : Rows} (h : Frame before db.rows) (i : ℕ)
    (values : Reminder → Reminder) :
    Frame before (db.run (Db.Reminders.updateFields i values)).rows :=
  ⟨h.sent, fun j ↦ (Db.Reminders.isSome_updateFields db i values j).trans (h.present j)⟩

/-- Only unsent occurrences are taken back, and nothing of theirs has gone out. -/
theorem Frame.deleteUnsent (h : Frame before.rows db.rows) (reminderId : ℕ) :
    Frame before.rows (db.run (Occurrences.deleteUnsent reminderId)).rows := by
  refine ⟨fun j d hd ↦ Iff.trans ?_ (h.sent j d hd), h.present⟩
  change (db.run (Occurrences.deleteUnsent reminderId)).deliveries j = some d ↔
    db.deliveries j = some d
  rw [Occurrences.deliveries_deleteUnsent, Option.filter_eq_some_iff]
  refine ⟨And.left, fun hrow ↦ ⟨hrow, ?_⟩⟩
  rw [Bool.not_eq_true']
  exact eq_false_of_ne_true fun hgone ↦ hd (Occurrences.pending_of_unsent hrow hgone)

/-- A watermark rests on the rows of its own reminder. -/
theorem onWatermark_kept {db' : Database} {reminderId : ℕ} {r : Reminder}
    (h : Planning.OnWatermark db reminderId r)
    (hkept : ∀ i o, db.occurrences i = some o → o.reminderId = reminderId →
      db'.occurrences i = some o) : Planning.OnWatermark db' reminderId r := by
  refine h.congr (fun m ⟨i, o, ho, hkey⟩ ↦ ⟨i, o, hkept i o ho (congrArg Prod.fst hkey), hkey⟩) ?_
  exact Table.count_mono fun i o ho hrid ↦ hkept i o ho (of_decide_eq_true hrid)

end Frames

namespace Materializing

section Moves

variable {settings : Planning.Settings} {db view view' : Database} {committed committed' : Rows}
  {w : Writes} {held shared awaited : List Lock} {known : Set ℕ} {now : ℤ} {r r' : Stage}
  {next : Option Stage}

theorem Snapshots.transfer (h : Snapshots known view committed r)
    (hview : ∀ x ∈ r.batch, view'.reminders x.1 = view.reminders x.1)
    (hcommitted : ∀ x ∈ r.batch, committed'.reminders x.1 = committed.reminders x.1)
    (hothers : ∀ i, i ∉ r.batch.map Prod.fst → view'.reminders i = committed'.reminders i)
    (hkept : ∀ x ∈ r.batch, ∀ i o, o.reminderId = x.1 →
      (view'.occurrences i = some o ↔ view.occurrences i = some o)) :
    Snapshots known view' committed' r := by
  have hwaiting := r.waiting_subset
  have hdone := r.done_subset
  have hwatermark : ∀ x ∈ r.batch, ∀ r', (x.1 ∈ known → Planning.OnWatermark view x.1 r') →
      x.1 ∈ known → Planning.OnWatermark view' x.1 r' :=
    fun x hx r' hw hmem ↦ onWatermark_kept (hw hmem) fun i o ho hrid ↦ (hkept x hx i o hrid).mpr ho
  refine ⟨h.due, fun x hx ↦ (hcommitted x hx).trans (h.snapshot x hx), hothers, fun x hx ↦ ?_, ?_,
    fun x hx ↦ ?_, h.rows⟩
  · obtain ⟨hrow, hw⟩ := h.waiting x hx
    exact ⟨(hview x (hwaiting hx)).trans hrow, hwatermark x (hwaiting hx) _ hw⟩
  · have hcurrent := h.current
    have hmem : ∀ turn : Turn, r.batch = turn.done ++ turn.current :: turn.rest →
        turn.current ∈ r.batch := by
      intro turn hbatch
      rw [hbatch]
      exact List.mem_append_right _ List.mem_cons_self
    cases r with
    | next horizonEnd done rest => trivial
    | owned turn owner => trivial
    | counted turn owner before =>
      have hmem := hmem turn rfl
      obtain ⟨hrow, hcount, hw⟩ := hcurrent
      refine ⟨(hview _ hmem).trans hrow, hcount.trans ?_, hwatermark _ hmem _ hw⟩
      refine Table.count_congr fun i ↦ ?_
      rw [Bool.eq_iff_iff, Option.any_eq_true, Option.any_eq_true]
      refine exists_congr fun o ↦ ?_
      by_cases hrid : o.reminderId = turn.current.1
      · rw [hkept _ hmem i o hrid]
      · simp [hrid]
    | inserted turn before firedCount =>
      exact ⟨(hview _ (hmem turn rfl)).trans hcurrent.1, hwatermark _ (hmem turn rfl) _ hcurrent.2⟩
    | joined turn before firedCount userIds =>
      exact ⟨(hview _ (hmem turn rfl)).trans hcurrent.1, hwatermark _ (hmem turn rfl) _ hcurrent.2⟩
    | listed turn before firedCount rows =>
      exact ⟨(hview _ (hmem turn rfl)).trans hcurrent.1, hwatermark _ (hmem turn rfl) _ hcurrent.2⟩
    | settling turn before firedCount =>
      exact ⟨(hview _ (hmem turn rfl)).trans hcurrent.1, hwatermark _ (hmem turn rfl) _ hcurrent.2⟩
    | settled turn exhausted =>
      obtain ⟨r', hrow, hreplans, hw⟩ := hcurrent
      exact ⟨r', (hview _ (hmem turn rfl)).trans hrow, hreplans, hwatermark _ (hmem turn rfl) _ hw⟩
  · obtain ⟨r', hrow, hreplans, hw⟩ := h.done x hx
    exact ⟨r', (hview x (hdone hx)).trans hrow, hreplans, hwatermark x (hdone hx) _ hw⟩

/-- To know more reminders, but none of the batch, is to know nothing new. -/
theorem Snapshots.more {known' : Set ℕ} (h : Snapshots known view committed r)
    (hless : ∀ i ∈ known', i ∈ r.batch.map Prod.fst → i ∈ known) :
    Snapshots known' view committed r := by
  have hmem : ∀ turn : Turn, r.batch = turn.done ++ turn.current :: turn.rest →
      turn.current.1 ∈ known' → turn.current.1 ∈ known := by
    intro turn hbatch hk
    refine hless _ hk ?_
    rw [hbatch]
    exact List.mem_map_of_mem (List.mem_append_right _ List.mem_cons_self)
  have hwaiting : ∀ x ∈ r.waiting, x.1 ∈ known' → x.1 ∈ known :=
    fun x hx hk ↦ hless _ hk (List.mem_map_of_mem (r.waiting_subset hx))
  have hdone : ∀ x ∈ r.done, x.1 ∈ known' → x.1 ∈ known :=
    fun x hx hk ↦ hless _ hk (List.mem_map_of_mem (r.done_subset hx))
  refine ⟨h.due, h.snapshot, h.others, fun x hx ↦ ?_, ?_, fun x hx ↦ ?_, h.rows⟩
  · obtain ⟨hrow, hw⟩ := h.waiting x hx
    exact ⟨hrow, fun hk ↦ hw (hwaiting x hx hk)⟩
  · have hcurrent := h.current
    cases r with
    | next horizonEnd done rest => trivial
    | owned turn owner => trivial
    | counted turn owner before =>
      exact ⟨hcurrent.1, hcurrent.2.1, fun hk ↦ hcurrent.2.2 (hmem turn rfl hk)⟩
    | inserted turn before firedCount =>
      exact ⟨hcurrent.1, fun hk ↦ hcurrent.2 (hmem turn rfl hk)⟩
    | joined turn before firedCount userIds =>
      exact ⟨hcurrent.1, fun hk ↦ hcurrent.2 (hmem turn rfl hk)⟩
    | listed turn before firedCount rows =>
      exact ⟨hcurrent.1, fun hk ↦ hcurrent.2 (hmem turn rfl hk)⟩
    | settling turn before firedCount =>
      exact ⟨hcurrent.1, fun hk ↦ hcurrent.2 (hmem turn rfl hk)⟩
    | settled turn exhausted =>
      obtain ⟨r', hrow, hreplans, hw⟩ := hcurrent
      exact ⟨r', hrow, hreplans, fun hk ↦ hw (hmem turn rfl hk)⟩
  · obtain ⟨r', hrow, hreplans, hw⟩ := h.done x hx
    exact ⟨r', hrow, hreplans, fun hk ↦ hw (hdone x hx hk)⟩

theorem Snapshots.congr (h : Snapshots known view committed r) (hrows : view'.rows = view.rows) :
    Snapshots known view' committed r := by
  have hreminders := congrFun (congrArg Rows.reminders hrows)
  have hoccurrences := congrFun (congrArg Rows.occurrences hrows)
  refine h.transfer (fun x _ ↦ hreminders x.1) (fun _ _ ↦ rfl)
    (fun i hi ↦ (hreminders i).trans (h.others i hi)) fun x _ i o _ ↦ ?_
  exact Eq.congr_left (hoccurrences i)

theorem Snapshots.start
    (hobeys : ∀ i ∈ known, Obeys db i)
    (hspan : ∀ x ∈ Db.Reminders.dueForPlanning db (now + settings.horizon) settings.batchSize,
      planUntil (Planning.boundsOf x.2) (now + settings.horizon) -
        planAfter (Planning.boundsOf x.2) ≤ 3650 * day)
    (h : start settings now db = .exec w held shared awaited next) :
    ∃ r, next = some r ∧ Snapshots known (apply db w) db.rows r := by
  cases h
  refine ⟨_, rfl, fun x hx ↦ ⟨?_, hspan x hx⟩, fun x hx ↦ (Db.Reminders.mem_dueForPlanning hx).1,
    fun i _ ↦ rfl, fun x hx ↦ ?_, trivial, fun x hx ↦ absurd hx List.not_mem_nil,
    fun d hd ↦ absurd hd List.not_mem_nil⟩
  · have hdue := (Db.Reminders.mem_dueForPlanning hx).2
    simp only [Db.Reminders.isDue, Bool.and_eq_true, decide_eq_true_eq] at hdue
    exact hdue.1.1
  · have hrow := (Db.Reminders.mem_dueForPlanning hx).1
    exact ⟨hrow, fun hmem ↦ (hobeys x.1 hmem x.2 hrow).2⟩

/-- A write to the row of the reminder the cycle is at leaves what it knows of
the others. -/
theorem Snapshots.written (hcycle : Cycle db.rows committed r) (h : Snapshots known db committed r)
    (turn : Turn) (values : Reminder → Reminder)
    (hbatch : r.batch = turn.done ++ turn.current :: turn.rest) (hwaiting : r.waiting = turn.rest)
    (hdone : r.done = turn.done) :
    let db' := db.run (Db.Reminders.updateFields turn.current.1 values)
    (∀ i, i ∉ (turn.done ++ turn.current :: turn.rest).map Prod.fst →
      db'.reminders i = committed.reminders i) ∧
    (∀ x ∈ turn.rest, db'.reminders x.1 = some x.2 ∧
      (x.1 ∈ known → Planning.OnWatermark db' x.1 x.2)) ∧
    ∀ x ∈ turn.done, ∃ r', db'.reminders x.1 = some r' ∧ Replans x.2 r' ∧
      (x.1 ∈ known → Planning.OnWatermark db' x.1 r') := by
  intro db'
  have hsame : ∀ i, i ≠ turn.current.1 → db'.reminders i = db.reminders i :=
    fun i hi ↦ (Db.Reminders.reminders_updateFields ..).trans (if_neg hi)
  have hkeep : ∀ {i : ℕ} {r' : Reminder}, (i ∈ known → Planning.OnWatermark db i r') →
      i ∈ known → Planning.OnWatermark db' i r' :=
    fun hw hmem ↦ onWatermark_kept (hw hmem) fun _ _ ho _ ↦ ho
  refine ⟨fun i hi ↦ ?_, fun x hx ↦ ?_, fun x hx ↦ ?_⟩
  · have hother : i ≠ turn.current.1 := by
      rintro rfl
      exact hi (List.mem_map_of_mem (List.mem_append_right _ List.mem_cons_self))
    exact (hsame i hother).trans (h.others i (hbatch ▸ hi))
  · obtain ⟨hrow, hw⟩ := h.waiting x (hwaiting ▸ hx)
    exact ⟨(hsame x.1 (hcycle.ne_current hbatch (.inr hx))).trans hrow, hkeep hw⟩
  · obtain ⟨r', hrow, hreplans, hw⟩ := h.done x (hdone ▸ hx)
    exact ⟨r', (hsame x.1 (hcycle.ne_current hbatch (.inl hx))).trans hrow, hreplans, hkeep hw⟩

/-- Without its owner a reminder leaves the batch as it was read. -/
theorem Snapshots.passedOver {horizonEnd : ℤ} {done rest : List (ℕ × Reminder)}
    {x : ℕ × Reminder} (h : Snapshots known db committed (.next horizonEnd done (x :: rest))) :
    Snapshots known db committed (.next horizonEnd done rest) := by
  have hmem : ∀ y ∈ done ++ rest, y ∈ done ++ x :: rest := by
    intro y hy
    rw [List.mem_append] at hy ⊢
    exact hy.imp_right (List.mem_cons_of_mem x)
  have hx : x ∈ done ++ x :: rest := List.mem_append_right _ List.mem_cons_self
  refine ⟨fun y hy ↦ h.due y (hmem y hy), fun y hy ↦ h.snapshot y (hmem y hy), fun i hi ↦ ?_,
    fun y hy ↦ h.waiting y (List.mem_cons_of_mem _ hy), trivial, h.done, h.rows⟩
  by_cases hix : i = x.1
  · rw [hix]
    exact (h.waiting x List.mem_cons_self).1.trans (h.snapshot x hx).symm
  · refine h.others i ?_
    simpa [Stage.batch, hix] using hi

theorem Snapshots.inserted {turn : Turn} {owner : User} {before : ℕ}
    (h : Snapshots known db committed (.counted turn owner before)) {w : Writes}
    (hw : w = Occurrences.insertMissing ((turn.moments before).map
      (Planning.occurrenceRow turn.current.1 (quietHoursOf owner) settings.ttl)) db)
    (hkept : ∀ i o, db.occurrences i = some o → (apply db w).occurrences i = some o) :
    Snapshots known (apply db w) committed
      (.inserted turn before (before + w.occurrences.length)) := by
  have hspan := (h.due turn.current (List.mem_append_right _ List.mem_cons_self)).2
  have hkeep : ∀ {i : ℕ} {r' : Reminder}, (i ∈ known → Planning.OnWatermark db i r') →
      i ∈ known → Planning.OnWatermark (apply db w) i r' :=
    fun hmark hmem ↦ onWatermark_kept (hmark hmem) fun i o ho _ ↦ hkept i o ho
  subst hw
  obtain ⟨hrow, hcount, hmark⟩ := h.current
  refine ⟨h.due, h.snapshot, h.others, fun x hx ↦ ?_, ⟨hrow, fun hmem ↦ ?_⟩, fun x hx ↦ ?_,
    fun d hd ↦ absurd hd List.not_mem_nil⟩
  · exact (h.waiting x hx).imp_right hkeep
  · -- This is what a cycle on its own would have made of the reminder.
    subst hcount
    have honce : Planning.OnWatermark (Planning.materializeOne settings turn.horizonEnd
        (turn.current.1, turn.current.2) owner db) _ _ := (hmark hmem).materializeOne hspan
    refine onWatermark_kept honce fun i o ho _ ↦ ?_
    rw [Planning.materializeOne_occurrences] at ho
    exact ho
  · obtain ⟨r', hrow', hreplans, hmark'⟩ := h.done x hx
    exact ⟨r', hrow', hreplans, hkeep hmark'⟩

theorem Snapshots.settled {turn : Turn} {before firedCount : ℕ} {exhausted : Bool}
    (hcycle : Cycle db.rows committed (.settling turn before firedCount))
    (h : Snapshots known db committed (.settling turn before firedCount)) :
    Snapshots known (db.run (Db.Reminders.setPlanningState turn.current.1
      (turn.outcome before firedCount).plannedUntil firedCount)) committed
      (.settled turn exhausted) := by
  obtain ⟨hrow, hw⟩ := h.current
  have hactive := (h.due turn.current (List.mem_append_right _ List.mem_cons_self)).1
  obtain ⟨hothers, hwaiting, hdone⟩ := h.written hcycle turn (fun r ↦
    { r with plannedUntil := some (turn.outcome before firedCount).plannedUntil
             firedCount := firedCount }) rfl rfl rfl
  refine ⟨h.due, h.snapshot, hothers, hwaiting,
    ⟨_, (Db.Reminders.reminders_updateFields ..).trans ((if_pos rfl).trans (congrArg _ hrow)),
      ⟨rfl, rfl, ?_⟩, fun hmem ↦ onWatermark_kept (hw hmem) fun _ _ ho _ ↦ ho⟩, hdone,
    fun d hd ↦ absurd hd List.not_mem_nil⟩
  change turn.current.2.status ≠ .paused
  rw [hactive]
  decide

theorem mem_batch_finish {turn : Turn} {x : ℕ × Reminder} :
    x ∈ turn.finish.batch ↔ x ∈ turn.done ++ turn.current :: turn.rest :=
  List.perm_middle.symm.mem_iff

theorem mem_ids_finish {turn : Turn} {i : ℕ} : i ∈ turn.finish.batch.map Prod.fst ↔
    i ∈ (turn.done ++ turn.current :: turn.rest).map Prod.fst :=
  (List.perm_middle.symm.map Prod.fst).mem_iff

theorem Snapshots.finished {turn : Turn} {exhausted : Bool}
    (h : Snapshots known db committed (.settled turn exhausted)) :
    Snapshots known db committed turn.finish := by
  refine ⟨fun x hx ↦ h.due x (mem_batch_finish.mp hx),
    fun x hx ↦ h.snapshot x (mem_batch_finish.mp hx), fun i hi ↦ h.others i (mt mem_ids_finish.mpr hi),
    h.waiting, trivial, fun x hx ↦ ?_, fun d hd ↦ absurd hd List.not_mem_nil⟩
  rcases List.mem_cons.mp hx with rfl | hx
  · exact h.current
  · exact h.done x hx

theorem Snapshots.archived {turn : Turn} {exhausted : Bool}
    (hcycle : Cycle db.rows committed (.settled turn exhausted))
    (h : Snapshots known db committed (.settled turn exhausted)) :
    Snapshots known (db.run (Db.Reminders.setStatus turn.current.1 .archived)) committed
      turn.finish := by
  obtain ⟨r₁, hrow, hreplans, hw⟩ := h.current
  obtain ⟨hothers, hwaiting, hdone⟩ := h.written hcycle turn
    (fun r ↦ { r with status := .archived }) rfl rfl rfl
  refine ⟨fun x hx ↦ h.due x (mem_batch_finish.mp hx),
    fun x hx ↦ h.snapshot x (mem_batch_finish.mp hx), fun i hi ↦ hothers i (mt mem_ids_finish.mpr hi),
    hwaiting, trivial, fun x hx ↦ ?_, fun d hd ↦ absurd hd List.not_mem_nil⟩
  rcases List.mem_cons.mp hx with rfl | hx
  · exact ⟨_, (Db.Reminders.reminders_updateFields ..).trans ((if_pos rfl).trans (congrArg _ hrow)),
      ⟨hreplans.schedule, hreplans.timezone, by simp⟩,
      fun hmem ↦ onWatermark_kept (hw hmem) fun _ _ ho _ ↦ ho⟩
  · exact hdone x hx

theorem Snapshots.exec (hcycle : Cycle db.rows committed r) (h : Snapshots known db committed r)
    (hmove : move settings r db = .exec w held shared awaited next) :
    ∃ r', next = some r' ∧ Snapshots known (apply db w) committed r' := by
  obtain ⟨r', rfl, hadds⟩ := move_adds hmove
  refine ⟨r', rfl, ?_⟩
  cases r with
  | next horizonEnd done rest =>
    cases rest with
    | nil => cases hmove
    | cons x rest =>
      rw [move] at hmove
      split at hmove
      · cases hmove
        exact h.passedOver
      · cases hmove
        exact ⟨h.due, h.snapshot, h.others, h.waiting, trivial, h.done, h.rows⟩
  | owned turn owner =>
    cases hmove
    obtain ⟨hrow, hw⟩ := h.waiting turn.current List.mem_cons_self
    exact ⟨h.due, h.snapshot, h.others, fun x hx ↦ h.waiting x (List.mem_cons_of_mem _ hx),
      ⟨hrow, rfl, hw⟩, h.done, h.rows⟩
  | counted turn owner before =>
    cases hmove
    exact h.inserted rfl hadds.occurrences
  | inserted turn before firedCount =>
    rw [move] at hmove
    split at hmove <;> cases hmove <;>
      exact ⟨h.due, h.snapshot, h.others, h.waiting, h.current, h.done,
        fun d hd ↦ absurd hd List.not_mem_nil⟩
  | joined turn before firedCount userIds =>
    cases hmove
    refine ⟨h.due, h.snapshot, h.others, h.waiting, h.current, h.done, fun d hd ↦ ?_⟩
    obtain ⟨o, -, hd⟩ := List.mem_flatMap.mp hd
    obtain ⟨u, -, rfl⟩ := List.mem_map.mp hd
    rfl
  | listed turn before firedCount rows =>
    have hkeep : ∀ {i : ℕ} {r' : Reminder}, (i ∈ known → Planning.OnWatermark db i r') →
        i ∈ known → Planning.OnWatermark (apply db w) i r' :=
      fun hw hmem ↦ onWatermark_kept (hw hmem) fun i o ho _ ↦ hadds.occurrences i o ho
    obtain ⟨rfl, hnext⟩ := enqueue_eq_exec hmove
    cases hnext
    exact ⟨h.due, h.snapshot, h.others, fun x hx ↦ (h.waiting x hx).imp_right hkeep,
      h.current.imp_right hkeep, fun x hx ↦ (h.done x hx).imp fun _ ↦ .imp_right (.imp_right hkeep),
      fun d hd ↦ absurd hd List.not_mem_nil⟩
  | settling turn before firedCount =>
    cases hmove
    exact h.settled hcycle
  | settled turn exhausted =>
    rw [move] at hmove
    split at hmove
    · cases hmove
      exact h.archived hcycle
    · cases hmove
      exact h.finished

theorem Snapshots.frame {before : Rows} (h : Snapshots known db committed r)
    (hframe : Frame before db.rows) (hmove : move settings r db = .exec w held shared awaited next) :
    Frame before (apply db w).rows := by
  cases r with
  | next horizonEnd done rest =>
    cases rest with
    | nil => cases hmove
    | cons x rest =>
      rw [move] at hmove
      split at hmove <;> cases hmove <;> exact hframe
  | owned turn owner =>
    cases hmove
    exact hframe
  | counted turn owner before =>
    cases hmove
    exact ⟨hframe.sent, hframe.present⟩
  | inserted turn before firedCount =>
    rw [move] at hmove
    split at hmove <;> cases hmove <;> exact hframe
  | joined turn before firedCount userIds =>
    cases hmove
    exact hframe
  | listed turn before firedCount rows =>
    obtain ⟨rfl, -⟩ := enqueue_eq_exec hmove
    refine ⟨fun j d hd ↦ Iff.trans ⟨fun hrow ↦ ?_, Table.insertMissing_kept⟩ (hframe.sent j d hd),
      hframe.present⟩
    rcases Table.insertMissing_some hrow with hold | ⟨-, hmem, -⟩
    · exact hold
    · exact absurd (h.rows d hmem) hd
  | settling turn before firedCount =>
    cases hmove
    exact hframe.updateReminder _ _
  | settled turn exhausted =>
    rw [move] at hmove
    split at hmove
    · cases hmove
      exact hframe.updateReminder _ _
    · cases hmove
      exact hframe

/-- A cycle that commits leaves what the reminders of its batch fire at. -/
theorem Snapshots.obeys {before committed : Database} {horizonEnd : ℤ}
    {done : List (ℕ × Reminder)} {i : ℕ}
    (hcycle : Cycle view.rows committed.rows (.next horizonEnd done []))
    (h : Snapshots known view committed.rows (.next horizonEnd done []))
    (hview : Frame before.rows view.rows) (hcommitted : Frame before.rows committed.rows)
    (hi : i ∈ known) (hobeys : Obeys committed i) : Obeys view i := by
  intro r hr
  have hunsent : ∀ k o, Occurrences.isUnsent view i k o = Occurrences.isUnsent committed i k o :=
    fun k o ↦ (hview.isUnsent i k o).trans (hcommitted.isUnsent i k o).symm
  have hplans : ∀ k o, view.occurrences k = some o → Occurrences.isUnsent view i k o = true →
      committed.occurrences k = some o ∨ ∃ x ∈ done, x.1 = i ∧
        o.scheduledFor ∈ firings x.2.schedule x.2.timezone := by
    intro k o ho hqueued
    cases hrow : committed.occurrences k with
    | some o' =>
      cases (hcycle.occurrences k o' hrow).symm.trans ho
      exact .inl rfl
    | none =>
      obtain ⟨x, hx, hfires⟩ := hcycle.plans k o ho hrow
      simp only [Occurrences.isUnsent, Bool.and_eq_true, decide_eq_true_eq] at hqueued
      exact .inr ⟨x, hx, hfires.1.symm.trans hqueued.1.1, hfires.2⟩
  by_cases hbatch : i ∈ done.map Prod.fst
  · obtain ⟨x, hx, rfl⟩ := List.mem_map.mp hbatch
    obtain ⟨r', hr', hreplans, hw⟩ := h.done x hx
    cases hr'.symm.trans hr
    have hmem : x ∈ (Stage.next horizonEnd done []).batch := List.mem_append_left _ hx
    refine ⟨fun k o ho hqueued ↦ ⟨hreplans.status, ?_⟩, hw hi⟩
    rw [hreplans.schedule, hreplans.timezone]
    rcases hplans k o ho hqueued with hold | ⟨y, hy, hxy, hfires⟩
    · rw [hunsent] at hqueued
      exact ((hobeys x.2 (h.snapshot x hmem)).1 k o hold hqueued).2
    · have hyx : y = x := by
        refine List.inj_on_of_nodup_map hcycle.nodup ?_ hmem hxy
        exact List.mem_append_left _ hy
      rw [← hyx]
      exact hfires
  · have hsame := h.others i (by simpa [Stage.batch] using hbatch)
    obtain ⟨hqueue, hw⟩ := hobeys r (hsame.symm.trans hr)
    refine ⟨fun k o ho hqueued ↦ ?_, onWatermark_kept hw fun k o ho _ ↦ hcycle.occurrences k o ho⟩
    rcases hplans k o ho hqueued with hold | ⟨y, hy, hyi, -⟩
    · rw [hunsent] at hqueued
      exact hqueue k o hold hqueued
    · exact absurd (hyi ▸ List.mem_map_of_mem hy) hbatch

end Moves

end Materializing

namespace Editing

section Moves

variable {before db : Database} {view committed view' committed' : Rows} {holds holds' : Lock → Prop}
  {w : Writes} {held shared awaited : List Lock} {request : Request} {r : Stage}
  {next : Option Stage}

theorem Overrides.start (holds : Lock → Prop) (hframe : Frame before.rows db.rows) (hdrops : request.drops = true)
    (h : start request db = .exec w held shared awaited next) :
    ∃ r, next = some r ∧ r.overriding = none ∧
      Overrides before (apply db w).rows db.rows holds r := by
  rw [Editing.start] at h
  split at h
  · cases h
  · rename_i r hr
    split at h
    · cases h
      have hrow := (Services.Reminders.getEditable_eq_ok hr).1
      refine ⟨_, rfl, rfl, hdrops, ?_, fun i ↦ .inl rfl, fun i _ ↦ rfl,
        fun q hq ↦ absurd hq (Option.not_mem_none q), fun hno ↦ by cases hno⟩
      refine (hframe.present _).symm.trans ?_
      exact congrArg Option.isSome hrow
    · cases h

/-- The queue is taken back. -/
theorem Overrides.dropped {request : Request} {r : Reminder} {count : ℕ}
    (hframe : Frame before.rows db.rows)
    (h : Overrides before db.rows committed holds (.editing request r)) :
    Overrides before (db.run (Occurrences.deleteUnsent request.reminderId)).rows committed holds'
      (.dropped request r count) := by
  have hkept := Occurrences.occurrences_deleteUnsent db request.reminderId
  refine ⟨h.drops, h.present, fun i ↦ ?_, h.reminders, fun q hq i o ho hrid hpending ↦ ?_,
    fun hno ↦ by cases hno⟩
  · change (db.run (Occurrences.deleteUnsent request.reminderId)).occurrences i = _ ∨
      (db.run (Occurrences.deleteUnsent request.reminderId)).occurrences i = none ∧ _
    have hsame : db.occurrences i = committed.occurrences i ∨ db.occurrences i = none ∧
        ∀ o, committed.occurrences i = some o → o.reminderId = request.reminderId :=
      h.occurrences i
    rw [hkept]
    cases ho : db.occurrences i with
    | none =>
      rw [ho] at hsame
      exact hsame
    | some o =>
      rw [ho] at hsame
      rw [Option.filter_some]
      split
      · exact hsame
      · rename_i hgone
        refine .inr ⟨rfl, fun o' ho' ↦ ?_⟩
        rcases hsame with hsame | ⟨hno, -⟩
        · cases hsame.trans ho'
          simp only [Bool.not_eq_true', Bool.not_eq_false, Occurrences.isUnsent, Bool.and_eq_true,
            decide_eq_true_eq] at hgone
          exact hgone.1.1
        · cases hno
  · cases hq
    change (db.run (Occurrences.deleteUnsent request.reminderId)).occurrences i = some o at ho
    rw [hkept, Option.filter_eq_some_iff] at ho
    by_contra hunanswered
    rw [← hframe.answered] at hunanswered
    simp [Occurrences.isUnsent, hrid, hpending, hunanswered] at ho

/-- A write to the reminder that leaves its watermark unset, its row being held. -/
theorem Overrides.updated {r' : Stage} {values : Reminder → Reminder}
    (h : Overrides before db.rows committed holds r)
    (hrequest : r'.request = r.request) (hoverriding : r'.overriding = r.overriding)
    (hlock : holds' (.reminder r.request.reminderId))
    (hreset : ∀ row, db.reminders r.request.reminderId = some row →
      (values row).plannedUntil = none) :
    Overrides before (db.run (Db.Reminders.updateFields r.request.reminderId values)).rows committed
      holds' r' := by
  have hset := Db.Reminders.reminders_updateFields db r.request.reminderId values
  refine ⟨hrequest ▸ h.drops, hrequest ▸ h.present, hrequest ▸ h.occurrences, fun i hi ↦ ?_,
    fun q hq ↦ h.unsent q (hoverriding ▸ hq), fun _ ↦ ⟨hrequest ▸ hlock, fun row hrow ↦ ?_⟩⟩
  · rw [hrequest] at hi
    exact (hset i).trans ((if_neg hi).trans (h.reminders i hi))
  · rw [hrequest] at hrow
    have hrow := (hset r.request.reminderId).symm.trans hrow
    rw [if_pos rfl] at hrow
    obtain ⟨row', hrow', rfl⟩ := Option.map_eq_some_iff.mp hrow
    exact hreset row' hrow'

theorem Overrides.exec (hframe : Frame before.rows db.rows)
    (h : Overrides before db.rows committed holds r)
    (hmove : move r db = .exec w held shared awaited next)
    (hholds : ∀ l, holds l ∨ l ∈ locks w → holds' l) :
    ∃ r', next = some r' ∧ r'.request = r.request ∧
      (∀ q ∈ r'.overriding, q ∈ r.dropping ∨ q ∈ r.overriding) ∧
      Frame before.rows (apply db w).rows ∧
      Overrides before (apply db w).rows committed holds' r' := by
  have hpresent := h.present
  cases r with
  | editing request r =>
    have hdrops : request.drops = true := h.drops
    rw [move, if_pos hdrops] at hmove
    cases hmove
    exact ⟨_, rfl, rfl, fun q hq ↦ .inl hq, hframe.deleteUnsent _, h.dropped hframe⟩
  | dropped request r count =>
    cases hmove
    obtain ⟨row, hrow⟩ : ∃ row, db.reminders request.reminderId = some row := by
      rw [← Option.isSome_iff_exists]
      exact (hframe.present _).trans hpresent
    have hlock : Lock.reminder request.reminderId ∈
        locks (Db.Reminders.resetPlanning request.reminderId (r.firedCount - count) db) := by
      simp [locks, Writes.locks, mem_rowLocks, Db.Reminders.resetPlanning,
        Db.Reminders.updateFields, Table.update, hrow]
    exact ⟨_, rfl, rfl, fun q hq ↦ .inr hq, hframe.updateReminder _ _,
      h.updated rfl rfl (hholds _ (.inr hlock)) fun row' hrow' ↦ rfl⟩
  | reset request loaded edited =>
    obtain ⟨hheld, hreset⟩ := h.reset rfl
    rw [move] at hmove
    split at hmove
    · cases hmove
      exact ⟨_, rfl, rfl, fun q hq ↦ .inr hq, hframe.updateReminder _ _,
        h.updated rfl rfl (hholds _ (.inl hheld)) hreset⟩
    · cases hmove
      exact ⟨_, rfl, rfl, fun q hq ↦ .inr hq, hframe, h.drops, hpresent, h.occurrences, h.reminders,
        h.unsent, fun _ ↦ ⟨hholds _ (.inl hheld), hreset⟩⟩
  | flushed request => cases hmove

/-- An owner's call is not disturbed by what others commit, if they queue
nothing for the reminder once its queue is taken back. -/
theorem Overrides.beside (h : Overrides before view committed holds r)
    (hbeside : Beside view committed view' committed')
    (hholds : ∀ l, holds l → holds' l)
    (hkept : ∀ i r', holds (.reminder i) → view'.reminders i = some r' → view.reminders i = some r')
    (hqueued : ∀ q ∈ r.overriding, ∀ i o, committed'.occurrences i = some o →
      o.reminderId = q.reminderId → committed.occurrences i = some o) :
    Overrides before view' committed' holds' r := by
  refine ⟨h.drops, h.present, fun i ↦ ?_, fun i hi ↦ ?_, fun q hq i o ho hrid hpending ↦ ?_,
    fun hreset ↦ ?_⟩
  · rcases hbeside.occurrences i with ⟨hview, hcommitted⟩ | ⟨hview, -⟩
    · rw [hview, hcommitted]
      exact h.occurrences i
    · exact .inl hview
  · rcases hbeside.reminders i with ⟨hview, hcommitted⟩ | ⟨hview, -⟩
    · rw [hview, hcommitted, h.reminders i hi]
    · exact hview
  · refine h.unsent q hq i o ?_ hrid hpending
    rcases hbeside.occurrences i with ⟨hview, -⟩ | ⟨hview, hview'⟩
    · exact hview.symm.trans ho
    · exact hview'.trans (hqueued q hq i o (hview.symm.trans ho) hrid)
  · obtain ⟨hheld, hnone⟩ := h.reset hreset
    exact ⟨hholds _ hheld, fun r' hr' ↦ hnone r' (hkept _ r' hheld hr')⟩

/-- Once an owner's call commits, nothing of the old queue is left, and the
watermark is reset. -/
theorem Overrides.obeys {committed : Database} {known : Set ℕ}
    (h : Overrides before db.rows committed.rows holds r) (hmove : move r db = .commit next)
    (hview : Frame before.rows db.rows) (hcommitted : Frame before.rows committed.rows)
    (hobeys : ∀ i ∈ known, Obeys committed i) :
    r.overriding = some r.request ∧
      ∀ i, i ∈ known ∨ i = r.request.reminderId → Obeys db i := by
  have hflushed : ∃ request, r = .flushed request := by
    cases r with
    | flushed request => exact ⟨request, rfl⟩
    | editing request r =>
      have hdrops : request.drops = true := h.drops
      rw [move, if_pos hdrops] at hmove
      cases hmove
    | dropped request r count => cases hmove
    | reset request loaded edited =>
      rw [move] at hmove
      split at hmove <;> cases hmove
  obtain ⟨request, rfl⟩ := hflushed
  refine ⟨rfl, fun i hi r hr ↦ ?_⟩
  by_cases hrid : i = request.reminderId
  · refine ⟨fun k o ho hunsent ↦ ?_, fun p hp ↦ ?_⟩
    · simp only [Occurrences.isUnsent, Bool.and_eq_true, decide_eq_true_eq, Bool.not_eq_true',
        hview.answered] at hunsent
      rw [h.unsent request rfl k o ho (hunsent.1.1.trans hrid) hunsent.1.2] at hunsent
      exact absurd hunsent.2 (by simp)
    · rw [(h.reset rfl).2 r (hrid ▸ hr)] at hp
      cases hp
  · obtain ⟨hqueue, hw⟩ := hobeys i (hi.resolve_right hrid) r ((h.reminders i hrid).symm.trans hr)
    refine ⟨fun k o ho hunsent ↦ hqueue k o ?_ ?_, onWatermark_kept hw fun k o ho hok ↦ ?_⟩
    · rcases h.occurrences k with hsame | ⟨hno, -⟩
      · exact hsame.symm.trans ho
      · cases hno.symm.trans ho
    · rwa [hcommitted.isUnsent, ← hview.isUnsent]
    · rcases h.occurrences k with hsame | ⟨-, hother⟩
      · exact hsame.trans ho
      · exact absurd (hok.symm.trans (hother o ho)) hrid

end Moves

end Editing

section Invariant

variable {settings : Settings} {before : Database} {known : Set ℕ} {s s' : Sessions}
  {e : Event Input} {i j : ℕ} {input : Input} {locked : Lock → Bool} {db : Database}
  {m : Move Writes Lock Stage}

structure Overriding (before : Database) (known : Set ℕ) (s : Sessions) : Prop where
  owned : s.Owned
  stages : ∀ i, s.stage i = .idle ∧ (s.session i).log = [] ∨
    (i = 0 ∧ ∃ r, s.stage i = .materializing r) ∨ ∃ r, s.stage i = .editing r
  frame : Frame before.rows s.committed.rows
  frames : ∀ i, Frame before.rows (s.view i).rows
  cycle : ∀ r, s.stage 0 = .materializing r →
    Materializing.Cycle (s.view 0).rows s.committed.rows r ∧
      Materializing.Snapshots known (s.view 0) s.committed.rows r
  edits : ∀ i r, s.stage i = .editing r →
    Editing.Overrides before (s.view i).rows s.committed.rows (fun l ↦ s.owner l = some i) r
  apart : ∀ i, ∀ request ∈ (s.stage i).overriding, request.reminderId ∉ (s.stage 0).planning
  obeys : ∀ i ∈ known, Obeys s.committed i

/-- The reminders a commit has been the last word on. -/
def overridden (settings : Settings) (s : Sessions) (e : Event Input) : Set ℕ :=
  {reminderId | ∃ i ∈ s.committer (program settings) e, ∃ request ∈ (s.stage i).overriding,
    request.reminderId = reminderId}

theorem Frame.beside {before view committed view' committed' : Rows} (h : Frame before view)
    (hcommitted : Frame before committed') (hbeside : Beside view committed view' committed') :
    Frame before view' := by
  refine ⟨fun k d hd ↦ ?_, fun k ↦ ?_⟩
  · rcases hbeside.deliveries k with ⟨hview, -⟩ | ⟨hview, -⟩
    · rw [hview]
      exact h.sent k d hd
    · rw [hview]
      exact hcommitted.sent k d hd
  · rcases hbeside.reminders k with ⟨hview, -⟩ | ⟨hview, -⟩
    · rw [hview]
      exact h.present k
    · rw [hview]
      exact hcommitted.present k

/-- What a step changes of the committed rows. -/
structure Changes (known : Set ℕ) (s s' : Sessions) (e : Event Input) (edited : Set ℕ) : Prop where
  frame : ∀ before : Database, Frame before.rows s.committed.rows →
    (∀ i, Frame before.rows (s.view i).rows) → Frame before.rows s'.committed.rows
  planned : ∀ i o, s'.committed.occurrences i = some o → s.committed.occurrences i = some o ∨
    e.by = 0 ∧ o.reminderId ∈ (s.stage 0).planning
  kept : e.by ≠ 0 → ∀ i o, s.committed.occurrences i = some o →
    o.reminderId ∈ (s.stage 0).planning → s'.committed.occurrences i = some o
  reminders : e.by ≠ 0 → ∀ i ∈ (s.stage 0).planning,
    s'.committed.reminders i = s.committed.reminders i
  obeys : ∀ i, i ∈ known ∨ i ∈ edited → Obeys s'.committed i

theorem Obeys.congr {db' : Database} (h : Obeys db i) (hrows : db'.rows = db.rows) :
    Obeys db' i := by
  have hoccurrences := congrFun (congrArg Rows.occurrences hrows)
  have hframe : Frame db.rows db'.rows := by
    rw [hrows]
    exact ⟨fun _ _ _ ↦ Iff.rfl, fun _ ↦ rfl⟩
  intro r hr
  obtain ⟨hqueue, hw⟩ := h r ((congrFun (congrArg Rows.reminders hrows) i).symm.trans hr)
  refine ⟨fun k o ho hunsent ↦ hqueue k o ((hoccurrences k).symm.trans ho) ?_,
    onWatermark_kept hw fun k o ho _ ↦ (hoccurrences k).trans ho⟩
  rwa [← hframe.isUnsent]

theorem Overriding.changes (h : Overriding before known s)
    (hstep : Step (program settings) .idle s e s') :
    Changes known s s' e (overridden settings s e) := by
  have hsame : s'.committed.rows = s.committed.rows → s.committer (program settings) e = none →
      Changes known s s' e (overridden settings s e) := by
    intro hrows hnone
    have hoccurrences := congrFun (congrArg Rows.occurrences hrows)
    have hreminders := congrFun (congrArg Rows.reminders hrows)
    refine ⟨fun before hframe _ ↦ hrows ▸ hframe,
      fun k o ho ↦ .inl ((hoccurrences k).symm.trans ho), fun _ k o ho _ ↦ (hoccurrences k).trans ho,
      fun _ k _ ↦ hreminders k, fun k hk ↦ (h.obeys k ?_).congr hrows⟩
    refine hk.resolve_right ?_
    rintro ⟨j, hj, -⟩
    rw [hnone] at hj
    cases hj
  cases hstep with
  | exec hmove hfree => exact hsame (rows_committed_exec _ _ _ _) (by rw [System.committer, hmove])
  | rollback hmove => exact hsame rfl (by rw [System.committer, hmove])
  | crash i => exact hsame rfl rfl
  | @commit i input next hmove =>
    have hcommitter : s.committer (program settings) (.move i input) = some i := by
      rw [System.committer, hmove]
    rcases h.stages i with ⟨hidle, -⟩ | ⟨rfl, r, hr⟩ | ⟨r, hr⟩
    · rw [hidle] at hmove
      rcases program_commit hmove with ⟨-, hno⟩ | ⟨r, -, hno, -⟩
      · exact absurd rfl hno
      · cases hno
    · rw [hr] at hmove
      obtain ⟨next, hplan, rfl⟩ := Move.map_eq_commit (Option.some_inj.mp hmove)
      obtain ⟨horizonEnd, done, rfl⟩ := Materializing.move_commit hplan
      obtain ⟨hcycle, hsnapshots⟩ := h.cycle _ hr
      refine ⟨fun before _ hframes ↦ hframes 0, fun k o ho ↦ ?_, fun hno ↦ absurd rfl hno,
        fun hno ↦ absurd rfl hno, fun k hk ↦ ?_⟩
      · cases hrow : s.committed.occurrences k with
        | some o' =>
          cases (hcycle.occurrences k o' hrow).symm.trans ho
          exact .inl rfl
        | none =>
          obtain ⟨x, hx, hfires⟩ := hcycle.plans k o ho hrow
          refine .inr ⟨rfl, ?_⟩
          rw [hr, hfires.1]
          exact List.mem_map_of_mem (List.mem_append_left _ hx)
      · have hk : k ∈ known := by
          refine hk.resolve_right ?_
          rintro ⟨j, hj, request, hrequest, -⟩
          rw [hcommitter] at hj
          cases hj
          rw [hr] at hrequest
          cases hrequest
        exact hsnapshots.obeys hcycle (h.frames 0) h.frame hk (h.obeys k hk)
    · rw [hr] at hmove
      obtain ⟨next, hedit, rfl⟩ := Move.map_eq_commit (Option.some_inj.mp hmove)
      have hedits := h.edits i r hr
      obtain ⟨hover, hobeys⟩ := hedits.obeys hedit (h.frames i) h.frame h.obeys
      have hstage : r.request ∈ (s.stage i).overriding := by
        rw [hr]
        exact hover
      have hapart := h.apart i r.request hstage
      refine ⟨fun before _ hframes ↦ hframes i, fun k o ho ↦ ?_, fun _ k o ho hplanning ↦ ?_,
        fun _ k hk ↦ ?_, fun k hk ↦ hobeys k (hk.imp_right ?_)⟩
      · rcases hedits.occurrences k with hsame | ⟨hnone, -⟩
        · exact .inl (hsame.symm.trans ho)
        · cases hnone.symm.trans ho
      · rcases hedits.occurrences k with hsame | ⟨-, hown⟩
        · exact hsame.trans ho
        · exact absurd (hown o ho ▸ hplanning) hapart
      · exact hedits.reminders k fun hno ↦ hapart (hno ▸ hk)
      · rintro ⟨j, hj, request, hrequest, hk⟩
        rw [hcommitter] at hj
        cases hj
        rw [hr] at hrequest
        cases hover.symm.trans hrequest
        exact hk.symm

theorem Overriding.cycle_other (h : Overriding before known s)
    (hstep : Step (program settings) .idle s e s') (hj : (0 : ℕ) ≠ e.by) {r : Materializing.Stage}
    (hr : s.stage 0 = .materializing r) :
    Materializing.Cycle (s'.view 0).rows s'.committed.rows r ∧
      Materializing.Snapshots known (s'.view 0) s'.committed.rows r := by
  have hbeside := beside_step hstep h.owned hj
  have hchanges := h.changes hstep
  obtain ⟨hcycle, hsnapshots⟩ := h.cycle r hr
  have hbatch : ∀ x ∈ r.batch, x.1 ∈ (s.stage 0).planning := by
    intro x hx
    rw [hr]
    exact List.mem_map_of_mem hx
  refine ⟨hcycle.beside hbeside, hsnapshots.transfer (fun x hx ↦ ?_)
    (fun x hx ↦ hchanges.reminders hj.symm x.1 (hbatch x hx)) (fun k hk ↦ ?_)
    fun x hx k o hrid ↦ ?_⟩
  · rcases hbeside.reminders x.1 with ⟨hview, -⟩ | ⟨hview, hview'⟩
    · exact hview
    · exact hview.trans ((hchanges.reminders hj.symm x.1 (hbatch x hx)).trans hview'.symm)
  · rcases hbeside.reminders k with ⟨hview, hcommitted⟩ | ⟨hview, -⟩
    · exact hview.trans ((hsnapshots.others k hk).trans hcommitted.symm)
    · exact hview
  · rcases hbeside.occurrences k with ⟨hview, -⟩ | ⟨hview, hview'⟩
    · exact Eq.congr_left hview
    · refine (Eq.congr_left hview).trans (Iff.trans ⟨fun ho ↦ ?_, fun ho ↦ ?_⟩
        (Eq.congr_left hview').symm)
      · exact (hchanges.planned k o ho).resolve_right fun hno ↦ hj hno.1.symm
      · exact hchanges.kept hj.symm k o ho (hrid ▸ hbatch x hx)

theorem Overriding.edits_other (h : Overriding before known s)
    (hstep : Step (program settings) .idle s e s') (hj : j ≠ e.by) {r : Editing.Stage}
    (hr : s.stage j = .editing r) :
    Editing.Overrides before (s'.view j).rows s'.committed.rows (fun l ↦ s'.owner l = some j) r := by
  have hchanges := h.changes hstep
  refine (h.edits j r hr).beside (beside_step hstep h.owned hj) (fun l ↦ hstep.owner_other hj)
    (fun k r' hheld hr' ↦ ?_) fun request hrequest k o ho hrid ↦ ?_
  · exact ((guards_reminders k).kept_other hstep h.owned hj hheld).1.symm.trans hr'
  · refine (hchanges.planned k o ho).resolve_right fun hno ↦ h.apart j request ?_ (hrid ▸ hno.2)
    rw [hr]
    exact hrequest

theorem program_overrides (honly : OnlyOverrides (.move i input))
    (hmove : program settings .idle input locked db = some m) :
    (∃ now, i = 0 ∧ input.cycle = some now ∧
      m = (Materializing.start settings.planning now db).map (.of .materializing)) ∨
      ∃ request : Editing.Request, request.drops = true ∧
        m = (Editing.start request db).map (.of .editing) := by
  cases input with
  | materialize now => exact .inl ⟨now, honly, rfl, (Option.some_inj.mp hmove).symm⟩
  | edit request =>
    refine .inr ⟨request, ?_, (Option.some_inj.mp hmove).symm⟩
    cases request with
    | setStatus ownerId reminderId status =>
      cases (show status = .paused from honly)
      rfl
    | update now ownerId reminderId change => exact honly
  | go => cases hmove
  | react tap => cases honly
  | deliver now => cases honly
  | answer result now => cases honly
  | sweep now => cases honly
  | accept request => cases honly

/-- A step keeps the invariant, given where it leaves the session that takes
it: the others are beside it. -/
theorem Overriding.moved (h : Overriding before known s)
    (hstep : Step (program settings) .idle s e s') (hview : Frame before.rows (s'.view e.by).rows)
    (hself : s'.stage e.by = .idle ∧ (s'.session e.by).log = [] ∨
      (e.by = 0 ∧ ∃ r, s'.stage e.by = .materializing r ∧
        Materializing.Cycle (s'.view e.by).rows s'.committed.rows r ∧
          Materializing.Snapshots known (s'.view e.by) s'.committed.rows r ∧
            overridden settings s e = ∅) ∨
      ∃ r, s'.stage e.by = .editing r ∧ Editing.Overrides before (s'.view e.by).rows
        s'.committed.rows (fun l ↦ s'.owner l = some e.by) r)
    (hover : ∀ request ∈ (s'.stage e.by).overriding,
      request ∈ (s.stage e.by).overriding ∨ request.reminderId ∉ (s.stage 0).planning)
    (hplan : e.by = 0 → ∀ k ∈ (s'.stage 0).planning, k ∈ (s.stage 0).planning ∨
      ∀ j, ∀ request ∈ (s.stage j).overriding, request.reminderId ≠ k) :
    Overriding before {k | k ∈ known ∨ k ∈ overridden settings s e} s' := by
  have hchanges := h.changes hstep
  have hframe := hchanges.frame before h.frame h.frames
  -- A cycle knows more reminders only when its batch has none of those.
  have hmore : ∀ {view : Database} {committed : Rows} {r : Materializing.Stage},
      (∀ k ∈ overridden settings s e, k ∉ r.batch.map Prod.fst) →
      Materializing.Snapshots known view committed r →
        Materializing.Snapshots {k | k ∈ known ∨ k ∈ overridden settings s e} view committed r :=
    fun hno hsnapshots ↦ hsnapshots.more fun k hk hmem ↦ hk.resolve_right fun hover ↦ hno k hover hmem
  refine ⟨hstep.owned h.owned, fun j ↦ ?_, hframe, fun j ↦ ?_, fun r hr ↦ ?_, fun j r hr ↦ ?_,
    fun j request hrequest hplanning ↦ ?_, hchanges.obeys⟩
  · by_cases hj : j = e.by
    · rw [hj]
      refine hself.imp_right (.imp ?_ ?_)
      · exact fun ⟨hzero, r, hr, _⟩ ↦ ⟨hzero, r, hr⟩
      · exact fun ⟨r, hr, _⟩ ↦ ⟨r, hr⟩
    · rw [hstep.stage_other hj, hstep.session_other hj]
      exact h.stages j
  · by_cases hj : j = e.by
    · rw [hj]
      exact hview
    · exact (h.frames j).beside hframe (beside_step hstep h.owned hj)
  · by_cases hj : 0 = e.by
    · rcases hself with ⟨hidle, -⟩ | ⟨-, r', hr', hcycle, hsnapshots, hnone⟩ | ⟨r', hr', -⟩
      · rw [← hj] at hidle
        cases hidle.symm.trans hr
      · rw [← hj] at hr' hcycle hsnapshots
        cases hr'.symm.trans hr
        refine ⟨hcycle, hmore (fun k hk ↦ ?_) hsnapshots⟩
        rw [hnone] at hk
        exact absurd hk (Set.notMem_empty k)
      · rw [← hj] at hr'
        cases hr'.symm.trans hr
    · rw [hstep.stage_other hj] at hr
      obtain ⟨hcycle, hsnapshots⟩ := h.cycle_other hstep hj hr
      refine ⟨hcycle, hmore (fun k hk ↦ ?_) hsnapshots⟩
      obtain ⟨i, -, request, hrequest, rfl⟩ := hk
      have hapart := h.apart i request hrequest
      rwa [hr] at hapart
  · by_cases hj : j = e.by
    · rw [hj] at hr ⊢
      rcases hself with ⟨hidle, -⟩ | ⟨-, r', hr', -⟩ | ⟨r', hr', hedits⟩
      · cases hidle.symm.trans hr
      · cases hr'.symm.trans hr
      · cases hr'.symm.trans hr
        exact hedits
    · rw [hstep.stage_other hj] at hr
      exact h.edits_other hstep hj hr
  · have hold : request ∈ (s.stage j).overriding ∨
        request.reminderId ∉ (s.stage 0).planning := by
      by_cases hj : j = e.by
      · rw [hj] at hrequest ⊢
        exact hover request hrequest
      · rw [hstep.stage_other hj] at hrequest
        exact .inl hrequest
    by_cases hzero : e.by = 0
    · rcases hplan hzero _ hplanning with hplanned | hfresh
      · exact hold.elim (fun hold ↦ h.apart j request hold hplanned) fun hno ↦ hno hplanned
      · -- The planner has moved, so nobody else has.
        refine hfresh j request ?_ rfl
        by_cases hj : j = e.by
        · rw [hj, hzero] at hrequest
          exact absurd hplanning (Stage.not_planning_of_overriding hrequest)
        · rwa [hstep.stage_other hj] at hrequest
    · rw [hstep.stage_other (Ne.symm hzero)] at hplanning
      exact hold.elim (fun hold ↦ h.apart j request hold hplanning) fun hno ↦ hno hplanning

theorem Overriding.ended (h : Overriding before known s)
    (hstep : Step (program settings) .idle s e s') (hidle : s'.stage e.by = .idle)
    (hlog : (s'.session e.by).log = []) (hview : Frame before.rows (s'.view e.by).rows) :
    Overriding before {k | k ∈ known ∨ k ∈ overridden settings s e} s' := by
  refine h.moved hstep hview (.inl ⟨hidle, hlog⟩) (fun request hrequest ↦ ?_) fun hzero k hk ↦ ?_
  · rw [hidle] at hrequest
    cases hrequest
  · rw [hzero] at hidle
    rw [hidle] at hk
    cases hk

theorem Overriding.opened {w : Writes} {held shared awaited : List Lock} {next : Stage}
    (h : Overriding before known s) (honly : OnlyOverrides (.move i input))
    (hguard : OverridesFairly settings .univ s (.move i input))
    (hmove : program settings (s.stage i) input (s.lockedFor i) (s.view i) =
      some (.exec w held shared awaited next))
    (hidle : s.stage i = .idle) (hlog : (s.session i).log = [])
    (hnone : overridden settings s (.move i input) = ∅)
    (hstep : Step (program settings) .idle s (.move i input) (s.exec i w held shared next)) :
    Overriding before {k | k ∈ known ∨ k ∈ overridden settings s (.move i input)}
      (s.exec i w held shared next) := by
  have hmake := h.moved hstep
  have hrows := rows_view_exec (s := s) (i := i) w held shared next
  have hcommitted := rows_committed_exec (s := s) (i := i) w held shared next
  have hstage := stage_exec_self (s := s) (i := i) w held shared next
  rw [Event.by, hstage, hrows, hcommitted] at hmake
  have hview : s.view i = s.committed := by
    rw [System.view, hlog]
    rfl
  rw [hidle, hview] at hmove
  rcases program_overrides honly hmove with ⟨now, rfl, hnow, hmove⟩ | ⟨request, hdrops, hmove⟩
  · obtain ⟨next, hstart, rfl⟩ := Move.map_eq_exec hmove.symm
    obtain ⟨r, rfl, hcycle⟩ := Materializing.Cycle.start hstart
    have hfair := hguard.2 (by rw [hidle]; rfl) now hnow
    rw [hview] at hfair
    obtain ⟨r', hr', hsnapshots⟩ := Materializing.Snapshots.start h.obeys
      (fun x hx ↦ (hfair x hx).1) hstart
    cases hr'
    have hplanning : ∀ k ∈ r.batch.map Prod.fst,
        ∀ j, ∀ request ∈ (s.stage j).overriding, request.reminderId ≠ k := by
      intro k hk j request hrequest
      cases hstart
      obtain ⟨x, hx, rfl⟩ := List.mem_map.mp hk
      exact (hfair x hx).2 j trivial request hrequest
    have happly : apply (s.view 0) w = s.committed := by
      rw [hview]
      cases hstart
      rfl
    refine hmake ?_ (.inr (.inl ⟨rfl, r, rfl, ?_, ?_, hnone⟩)) (fun _ hno ↦ by cases hno)
      fun _ k hk ↦ .inr (hplanning k ?_)
    · rw [happly]
      exact h.frame
    · rw [hview]
      exact hcycle
    · refine Materializing.Snapshots.congr ?_ hrows
      rw [hview]
      exact hsnapshots
    · rw [hstage] at hk
      exact hk
  · obtain ⟨next, hstart, rfl⟩ := Move.map_eq_exec hmove.symm
    obtain ⟨r, rfl, hover, hedits⟩ := Editing.Overrides.start
      (fun l ↦ (s.exec i w held shared (.of .editing next)).owner l = some i)
      h.frame hdrops hstart
    have happly : apply (s.view i) w = s.committed := by
      rw [hview]
      rw [Editing.start] at hstart
      split at hstart
      · cases hstart
      · split at hstart <;> cases hstart
        rfl
    refine hmake ?_ (.inr (.inr ⟨r, rfl, ?_⟩)) (fun request hrequest ↦ ?_) fun hzero k hk ↦ ?_
    · rw [happly]
      exact h.frame
    · rw [happly]
      have hback : (apply s.committed w).rows = s.committed.rows := by
        rw [← hview, happly, hview]
      rwa [hback] at hedits
    · change request ∈ r.overriding at hrequest
      rw [hover] at hrequest
      cases hrequest
    · cases hzero
      rw [hstage] at hk
      cases hk

theorem Overriding.step (h : Overriding before known s) (honly : OnlyOverrides e)
    (hguard : OverridesFairly settings .univ s e) (hstep : Step (program settings) .idle s e s') :
    Overriding before {k | k ∈ known ∨ k ∈ overridden settings s e} s' := by
  have hexec := hstep
  have hmake := h.moved hstep
  have hend := h.ended hstep
  cases hstep with
  | crash i =>
    refine hend (stage_close_self _ _) (by rw [Event.by, session_close_self]) ?_
    rw [Event.by, view_close_self]
    exact h.frame
  | @commit i input next hmove =>
    have hidle : next = .idle := by
      rcases program_commit hmove with ⟨hidle, -⟩ | ⟨r, -, hr, -⟩
      · exact hidle
      · rcases h.stages i with ⟨hno, -⟩ | ⟨-, r', hno⟩ | ⟨r', hno⟩ <;> cases hno.symm.trans hr
    rw [hidle] at hend ⊢
    refine hend (stage_close_self _ _) (by rw [Event.by, session_close_self]) ?_
    rw [Event.by, view_close_self]
    exact h.frames i
  | @rollback i input next hmove =>
    rw [program_rollback hmove] at hend ⊢
    refine hend (stage_close_self _ _) (by rw [Event.by, session_close_self]) ?_
    rw [Event.by, view_close_self]
    exact h.frame
  | @exec i input w held shared awaited next hmove hfree =>
    have hnone : overridden settings s (.move i input) = ∅ := by
      refine Set.eq_empty_of_forall_notMem fun k ⟨j, hj, _⟩ ↦ ?_
      rw [System.committer, hmove] at hj
      cases hj
    have hholds : ∀ l, s.owner l = some i ∨ l ∈ locks w →
        (s.exec i w held shared next).owner l = some i := by
      intro l hl
      change (if l ∈ locks w ++ held then some i else s.owner l) = some i
      split
      · rfl
      · rename_i hno
        exact hl.resolve_right fun hw ↦ hno (List.mem_append_left _ hw)
    have hrows := rows_view_exec (s := s) (i := i) w held shared next
    have hcommitted := rows_committed_exec (s := s) (i := i) w held shared next
    have hstage := stage_exec_self (s := s) (i := i) w held shared next
    rw [Event.by, hstage, hrows, hcommitted] at hmake
    rcases h.stages i with ⟨hidle, hlog⟩ | ⟨rfl, r, hr⟩ | ⟨r, hr⟩
    · exact h.opened honly hguard hmove hidle hlog hnone hexec
    · rw [hr] at hmove
      obtain ⟨next, hplan, rfl⟩ := Move.map_eq_exec (Option.some_inj.mp hmove)
      obtain ⟨hcycle, hsnapshots⟩ := h.cycle r hr
      obtain ⟨r', rfl, hcycle'⟩ := hcycle.exec hplan
      obtain ⟨r'', hr'', hsnapshots'⟩ := hsnapshots.exec hcycle hplan
      cases hr''
      refine hmake (hsnapshots.frame (h.frames 0) hplan)
        (.inr (.inl ⟨rfl, r', rfl, hcycle', hsnapshots'.congr hrows, hnone⟩))
        (fun _ hno ↦ by cases hno) fun _ k hk ↦ .inl ?_
      rw [hstage] at hk
      rw [hr]
      obtain ⟨x, hx, rfl⟩ := List.mem_map.mp hk
      exact List.mem_map_of_mem ((Materializing.move_batch hplan hcycle.nodup).2 hx)
    · rw [hr] at hmove
      obtain ⟨next, hedit, rfl⟩ := Move.map_eq_exec (Option.some_inj.mp hmove)
      obtain ⟨r', rfl, hrequest, hover, hframe', hedits⟩ :=
        (h.edits i r hr).exec (h.frames i) hedit hholds
      refine hmake hframe' (.inr (.inr ⟨r', rfl, hedits⟩)) (fun request hmem ↦ ?_) fun hzero k hk ↦ ?_
      · rcases hover request hmem with hdrop | hold
        · refine .inr (hguard.1 request ?_)
          rw [hr]
          exact hdrop
        · rw [hr]
          exact .inl hold
      · cases hzero
        rw [hstage] at hk
        cases hk

theorem overriding_start (before : Database) :
    Overriding before {i | Obeys before i} (System.start before .idle : Sessions) where
  owned _ _ hw := by cases hw
  stages _ := .inl ⟨rfl, rfl⟩
  frame := ⟨fun _ _ _ ↦ Iff.rfl, fun _ ↦ rfl⟩
  frames _ := ⟨fun _ _ _ ↦ Iff.rfl, fun _ ↦ rfl⟩
  cycle _ hr := by cases hr
  edits _ _ hr := by cases hr
  apart _ _ hno := by cases hno
  obeys _ hi := hi

theorem Overriding.run {es : List (Event Input)} {reminderId : ℕ} (h : Overriding before known s)
    (hfair : Guarded (ReadCommitted.step (program settings) .idle)
      (fun s e ↦ OverridesFairly settings .univ s e ∧ OnlyOverrides e) s es)
    (hrun : Foundation.run (ReadCommitted.step (program settings) .idle) s es = some s')
    (hover : reminderId ∈ known ∨ Overridden settings reminderId s es) :
    Obeys s'.committed reminderId := by
  induction es generalizing s known with
  | nil =>
    cases hrun
    exact h.obeys reminderId (hover.resolve_right id)
  | cons e es ih =>
    obtain ⟨s₁, hstep, hrun⟩ := Option.bind_eq_some_iff.mp hrun
    refine ih (h.step hfair.1.2 hfair.1.1 (step_cases hstep)) (hfair.2 s₁ hstep) hrun ?_
    rcases hover with hmem | hnow | ⟨s₂, hstep', hlater⟩
    · exact .inl (.inl hmem)
    · exact .inl (.inr hnow)
    · cases hstep.symm.trans hstep'
      exact .inr hlater

end Invariant

/-- As long as pauses, schedule edits and the planner keep out of each other's
way, a reminder that obeys its owner goes on doing so, and one that was
overridden does so whatever it was before. -/
theorem override_wins {settings : Settings} {db : Database} {es : List (Event Input)} {s : Sessions}
    {reminderId : ℕ} (honly : ∀ e ∈ es, OnlyOverrides e)
    (hfair : Guarded (step (program settings) .idle) (OverridesFairly settings .univ)
      (.start db .idle) es)
    (hrun : run (step (program settings) .idle) (.start db .idle) es = some s)
    (hover : Obeys db reminderId ∨ Overridden settings reminderId (.start db .idle) es) :
    Obeys s.committed reminderId :=
  (overriding_start db).run (hfair.and_forall honly) hrun hover

section Sample

instance (settings : Settings) (n : ℕ) (s : Sessions) :
    ∀ e, Decidable (OverridesFairly settings (Set.Iio n) s e)
  | .move i input =>
    inferInstanceAs (Decidable (
      (∀ request ∈ (s.stage i).dropping, request.reminderId ∉ (s.stage 0).planning) ∧
      ((s.stage i).isIdle = true → ∀ now ∈ input.cycle,
        ∀ x ∈ Db.Reminders.dueForPlanning (s.view i) (now + settings.planning.horizon)
            settings.planning.batchSize,
          planUntil (Planning.boundsOf x.2) (now + settings.planning.horizon) -
              planAfter (Planning.boundsOf x.2) ≤ 3650 * day ∧
            ∀ j, j < n → ∀ request ∈ (s.stage j).overriding, request.reminderId ≠ x.1)))
  | .crash _ => isTrue trivial

theorem overridesFairly_all {settings : Settings} {n : ℕ} {s : Sessions} {e : Event Input}
    (hidle : ∀ j, n ≤ j → s.stage j = .idle) (h : OverridesFairly settings (Set.Iio n) s e) :
    OverridesFairly settings .univ s e := by
  cases e with
  | crash i => trivial
  | move i input =>
    refine ⟨h.1, fun hi now hnow x hx ↦ ⟨(h.2 hi now hnow x hx).1, fun j _ request hrequest ↦ ?_⟩⟩
    by_cases hj : j < n
    · exact (h.2 hi now hnow x hx).2 j hj request hrequest
    · rw [hidle j (not_lt.mp hj)] at hrequest
      cases hrequest

/-- Every Monday at eight. -/
def weeklySchedule : Schedule := weeklyFrom 4 (.oclock 8)

def weeklyDb : Database :=
  { sampleDb [] [] with
    reminders := .ofList
      [{ sampleReminder with schedule := weeklySchedule, firedCount := 0, plannedUntil := none }] }

/-- The owner has the reminder on the screen while it is planned, and pauses it
afterwards. -/
def pausedAfterwards : List (Event Input) :=
  .move 0 (.materialize 0) :: going 0 3 ++ .move 1 (.edit (.setStatus 0 0 .paused)) :: going 0 6 ++
    going 1 4

/-- The reminder is paused between the planner's reading of it and the rest of
the cycle. -/
def pausedBetween : List (Event Input) :=
  .move 0 (.materialize 0) :: .move 1 (.edit (.setStatus 0 0 .paused)) :: going 1 4 ++ going 0 9

theorem obeys_weeklyDb : Obeys weeklyDb 0 := by
  intro r hr
  cases hr
  exact ⟨fun i o ho ↦ (by cases ho), fun p hp ↦ by cases hp⟩

theorem override_wins_sample :
    ∃ (s : Sessions) (r : Reminder), run (step (program sampleSettings) .idle)
        (.start weeklyDb .idle) pausedAfterwards = some s ∧
      s.committed.reminders 0 = some r ∧ r.status = .paused ∧ Obeys s.committed 0 := by
  have hruns : (run (step (program sampleSettings) .idle) (.start weeklyDb .idle : Sessions)
      pausedAfterwards).any (fun s ↦
        (s.committed.reminders 0).any fun r ↦ decide (r.status = .paused)) = true := by
    decide +kernel
  obtain ⟨s, hrun, hruns⟩ := (Option.any_eq_true _ _).mp hruns
  obtain ⟨r, hr, hpaused⟩ := (Option.any_eq_true _ _).mp hruns
  have honly : ∀ e ∈ pausedAfterwards, OnlyOverrides e := by
    simp [pausedAfterwards, going, OnlyOverrides]
  have hfair : Guarded (step (program sampleSettings) .idle)
      (OverridesFairly sampleSettings (Set.Iio 2)) (.start weeklyDb .idle) pausedAfterwards := by
    decide +kernel
  refine ⟨s, r, hrun, hr, of_decide_eq_true hpaused, override_wins honly (Guarded.of_below
    (fun s e hidle h ↦ overridesFairly_all hidle h) (fun _ _ ↦ rfl) ?_ hfair) hrun
      (.inl obeys_weeklyDb)⟩
  decide

/-- The pause is committed, and then the cycle commits the queue it has put in
for the reminder it took to be active. -/
theorem paused_behind_the_planner :
    ∃ s : Sessions, Obeys weeklyDb 0 ∧ (∀ e ∈ pausedBetween, OnlyOverrides e) ∧
      run (step (program sampleSettings) .idle) (.start weeklyDb .idle) pausedBetween = some s ∧
        ¬Obeys s.committed 0 := by
  have hruns : (run (step (program sampleSettings) .idle) (.start weeklyDb .idle : Sessions)
      pausedBetween).any (fun s ↦ (s.committed.reminders 0).any fun r ↦
        (s.committed.occurrences 0).any fun o ↦
          decide (r.status = .paused ∧ Occurrences.isUnsent s.committed 0 0 o = true)) = true := by
    decide +kernel
  obtain ⟨s, hrun, hruns⟩ := (Option.any_eq_true _ _).mp hruns
  obtain ⟨r, hr, hruns⟩ := (Option.any_eq_true _ _).mp hruns
  obtain ⟨o, ho, hruns⟩ := (Option.any_eq_true _ _).mp hruns
  obtain ⟨hpaused, hunsent⟩ := of_decide_eq_true hruns
  refine ⟨s, obeys_weeklyDb, by simp [pausedBetween, going, OnlyOverrides], hrun, fun hobeys ↦ ?_⟩
  exact ((hobeys r hr).1 0 o ho hunsent).1 hpaused

end Sample

end Remindo.Concurrent
