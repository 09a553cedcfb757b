import Remindo.Concurrent.Cycle

namespace Remindo.Concurrent

open Remindo.Domain Remindo.Db Remindo.Services Remindo.Foundation Remindo.Foundation.ReadCommitted

/-- The reminder has the occurrence in its queue, for later. -/
def Ahead (reminderId : ℕ) (after : ℤ) (o : Occurrence) : Prop :=
  o.reminderId = reminderId ∧ o.status = .pending ∧ after < o.fireAt

def Delivered (rows : Rows) (occurrenceId userId : ℕ) : Prop :=
  ∃ k d, rows.deliveries k = some d ∧ d.key = (occurrenceId, userId)

/-- Everybody who has accepted has a delivery for whatever was queued for later
by then, apart from what `before` already had. -/
def Covered (before rows : Rows) : Prop :=
  ∀ x u a i o, rows.recipients x = some u → u.acceptedAt = some a → rows.occurrences i = some o →
    Ahead u.reminderId a o →
      before.recipients x = some u ∧ before.occurrences i = some o ∨ Delivered rows i u.userId

namespace Materializing

/-- How a new occurrence is going to reach a recipient who has been read. -/
def Stage.Owes : Stage → Rows → ℕ → Occurrence → ℕ → Prop
  | .joined turn _ _ userIds, view, i, o, userId =>
    o.reminderId = turn.current.1 ∧ userId ∈ userIds ∨ Delivered view i userId
  | .listed _ _ _ rows, view, i, _, userId =>
    (∃ d ∈ rows, d.key = (i, userId)) ∨ Delivered view i userId
  | _, view, i, _, userId => Delivered view i userId

/-- The cycle sees the recipients that are committed, and owes them what it has
put in for reminders whose recipients it has read. -/
structure Promises (view committed : Rows) (r : Stage) : Prop where
  recipients : ∀ x, view.recipients x = committed.recipients x
  owes : ∀ i o x u a, view.occurrences i = some o → committed.occurrences i = none →
    o.reminderId ∈ r.passed → committed.recipients x = some u → u.acceptedAt = some a →
      Ahead u.reminderId a o → r.Owes view i o u.userId

end Materializing

namespace Joining

namespace Stage

/-- The acceptance that is about to list what it has missed. -/
def listing : Stage → Option Request
  | .accepted request true => some request
  | _ => none

/-- The acceptance that has listed what it has missed. -/
def backfilling : Stage → Option Request
  | .listed request _ | .queued request => some request
  | _ => none

/-- The recipient's row, as the acceptance leaves it. -/
def Accepts : Stage → Recipient → Prop
  | .accepted request true, u | .listed request _, u | .queued request, u =>
    u.key = (request.reminderId, request.userId) ∧ u.acceptedAt = some request.now
  | _, _ => False

def Owes : Stage → Rows → ℕ → Prop
  | .listed _ upcoming, _, i => i ∈ upcoming.map Prod.fst
  | .queued request, view, i => Delivered view i request.userId
  | _, _, _ => True

end Stage

/-- The acceptance sees the occurrences that are committed, and owes its
recipient those it has listed. -/
structure Promises (view committed : Rows) (r : Stage) : Prop where
  recipients : ∀ x, view.recipients x = committed.recipients x ∨
    ∃ u, view.recipients x = some u ∧ r.Accepts u
  occurrences : ∀ i, view.occurrences i = committed.occurrences i
  deliveries : ∀ i d, committed.deliveries i = some d → view.deliveries i = some d
  owes : ∀ request ∈ r.backfilling, ∀ i o, committed.occurrences i = some o →
    Ahead request.reminderId request.now o → r.Owes view i

end Joining

/-- The acceptance whose listing a session is at, or is past. -/
def Stage.listing : Stage → Option Joining.Request
  | .joining r => r.listing
  | _ => none

def Stage.backfilling : Stage → Option Joining.Request
  | .joining r => r.backfilling
  | _ => none

/-- The reminders whose recipients a session has read, and the one whose
recipients it is about to read. -/
def Stage.passed : Stage → List ℕ
  | .materializing r => r.passed
  | _ => []

def Stage.reading : Stage → Option ℕ
  | .materializing (.inserted turn _ _) => some turn.current.1
  | _ => none

theorem Stage.not_passed_of_backfilling {r : Stage} {request : Joining.Request} {reminderId : ℕ}
    (h : request ∈ r.backfilling) : reminderId ∉ r.passed := by
  cases r with
  | joining r => exact List.not_mem_nil
  | idle => cases h
  | reacting r => cases h
  | delivering r => cases h
  | sweeping r => cases h
  | materializing r => cases h
  | editing r => cases h

/-- Nothing the acceptance is to have missed is in session `j` alone. -/
def NoneAhead (s : Sessions) (j : ℕ) (request : Joining.Request) : Prop :=
  ∀ x ∈ Occurrences.listUpcoming (s.view j) request.reminderId request.now,
    (s.committed.occurrences x.1).isSome = true

/-- An acceptance lists the queue, or the planner reads the recipients, while
the other of the two has already read and is not committed, only if the planner
has put in nothing that lies ahead of the acceptance. -/
def JoinsFairly (sessions : Set ℕ) (s : Sessions) : Event Input → Prop
  | .move i _ =>
    (∀ request ∈ (s.stage i).listing, ∀ j ∈ sessions,
      request.reminderId ∈ (s.stage j).passed → NoneAhead s j request) ∧
    ∀ reminderId ∈ (s.stage i).reading, ∀ j ∈ sessions, ∀ request ∈ (s.stage j).backfilling,
      request.reminderId = reminderId → NoneAhead s i request
  | .crash _ => True

/-- Only cycles and acceptances are started. -/
def OnlyJoins : Event Input → Prop
  | .move _ (.materialize _) | .move _ (.accept _) | .move _ .go | .crash _ => True
  | _ => False

section Moves

variable {settings : Planning.Settings} {db : Database} {view committed view' committed' : Rows}
  {w : Writes} {held shared awaited : List Lock} {now : ℤ} {i userId : ℕ}

theorem Delivered.mono (h : Delivered view i userId)
    (hkept : ∀ k d, view.deliveries k = some d → view'.deliveries k = some d) :
    Delivered view' i userId := by
  obtain ⟨k, d, hd, hkey⟩ := h
  exact ⟨k, d, hkept k d hd, hkey⟩

/-- What is enqueued is there, by this insertion or by an earlier one. -/
theorem delivered_insertMissing {rows : List Delivery} {d : Delivery} (hd : d ∈ rows)
    (hkey : d.key = (i, userId)) :
    Delivered (apply db (Deliveries.insertMissing rows db)).rows i userId := by
  obtain ⟨k, e, he, hsame⟩ : ∃ k e,
      (apply db (Deliveries.insertMissing rows db)).deliveries k = some e ∧ e.key = d.key :=
    Table.insertMissing_covers hd
  exact ⟨k, e, he, hsame.trans hkey⟩

namespace Materializing

variable {r : Stage} {next : Option Stage}

theorem Stage.Owes.mono {o : Occurrence} (h : r.Owes view i o userId)
    (hkept : ∀ k d, view.deliveries k = some d → view'.deliveries k = some d) :
    r.Owes view' i o userId := by
  cases r with
  | joined turn before firedCount userIds => exact h.imp_right fun h ↦ h.mono hkept
  | listed turn before firedCount rows => exact h.imp_right fun h ↦ h.mono hkept
  | next horizonEnd done rest => exact Delivered.mono h hkept
  | owned turn owner => exact Delivered.mono h hkept
  | counted turn owner before => exact Delivered.mono h hkept
  | inserted turn before firedCount => exact Delivered.mono h hkept
  | settling turn before firedCount => exact Delivered.mono h hkept
  | settled turn exhausted => exact Delivered.mono h hkept

theorem Promises.start (h : start settings now db = .exec w held shared awaited next) :
    ∃ r, next = some r ∧ Promises (apply db w).rows db.rows r := by
  cases h
  refine ⟨_, rfl, fun x ↦ rfl, fun i o x u a ho hnone ↦ ?_⟩
  cases ho.symm.trans hnone

theorem Promises.exec (hcycle : Cycle db.rows committed r) (h : Promises db.rows committed r)
    (hmove : move settings r db = .exec w held shared awaited next) :
    ∃ r', next = some r' ∧ Promises (apply db w).rows committed r' := by
  obtain ⟨r', rfl, hadds⟩ := move_adds hmove
  refine ⟨r', rfl, fun x ↦ ?_, fun i o x u a ho hnone hpassed hu ha hahead ↦ ?_⟩
  · have hnone := move_recipients hmove
    change db.recipients.writes w.recipients x = _
    rw [hnone]
    exact h.recipients x
  have hold : ∀ turn : Turn, o.reminderId ≠ turn.current.1 →
      o.reminderId ∈ turn.current.1 :: turn.done.map Prod.fst →
      o.reminderId ∈ turn.done.map Prod.fst :=
    fun turn hne hmem ↦ (List.mem_cons.mp hmem).resolve_left hne
  have hdone : ∀ (i : ℕ) (turn : Turn), o.reminderId = turn.current.1 →
      ∀ x ∈ turn.done, Fires x o → o.reminderId ∈ turn.done.map Prod.fst :=
    fun _ turn _ x hx hfires ↦ List.mem_map.mpr ⟨x, hx, hfires.1.symm⟩
  cases r with
  | next horizonEnd done rest =>
    cases rest with
    | nil => cases hmove
    | cons y rest =>
      rw [move] at hmove
      split at hmove <;> cases hmove <;> exact h.owes i o x u a ho hnone hpassed hu ha hahead
  | owned turn owner =>
    cases hmove
    exact h.owes i o x u a ho hnone hpassed hu ha hahead
  | counted turn owner before =>
    cases hmove
    rcases Table.insertMissing_some ho with hrow | ⟨-, hmem, -⟩
    · exact h.owes i o x u a hrow hnone hpassed hu ha hahead
    · obtain ⟨m, -, rfl⟩ := List.mem_map.mp hmem
      exact absurd hpassed (hcycle.current_notMem rfl)
  | inserted turn before firedCount =>
    -- What the turn has put in is owed to those it finds among the recipients.
    by_cases hcurrent : o.reminderId = turn.current.1
    · rw [move] at hmove
      split at hmove
      · rename_i hempty
        cases hmove
        rcases hcycle.plans i o ho hnone with ⟨y, hy, hfires⟩ | hplans
        · exact h.owes i o x u a ho hnone (hdone i turn hcurrent y hy hfires) hu ha hahead
        · rw [Turn.Plans, hempty] at hplans
          exact absurd hplans.2 List.not_mem_nil
      · cases hmove
        refine .inl ⟨hcurrent, List.mem_map.mpr ⟨(x, u), Table.mem_select.mpr ⟨?_, ?_⟩, rfl⟩⟩
        · exact (h.recipients x).trans hu
        · simp [← hahead.1, hcurrent, ha]
    · rw [move] at hmove
      split at hmove
      · cases hmove
        exact h.owes i o x u a ho hnone (hold turn hcurrent hpassed) hu ha hahead
      · cases hmove
        exact .inr (h.owes i o x u a ho hnone (hold turn hcurrent hpassed) hu ha hahead)
  | joined turn before firedCount userIds =>
    cases hmove
    rcases h.owes i o x u a ho hnone hpassed hu ha hahead with ⟨hcurrent, huser⟩ | hdelivered
    swap
    · exact .inr hdelivered
    rcases hcycle.plans i o ho hnone with ⟨y, hy, hfires⟩ | hplans
    · exact absurd (hcurrent ▸ hdone i turn hcurrent y hy hfires) (hcycle.current_notMem rfl)
    · refine .inl ⟨Deliveries.queued i u.userId o.fireAt, List.mem_flatMap.mpr ⟨(i, o), ?_, ?_⟩, rfl⟩
      · exact Table.mem_select.mpr ⟨ho, by simpa using And.intro hplans.1 hplans.2⟩
      · exact List.mem_map.mpr ⟨u.userId, huser, rfl⟩
  | listed turn before firedCount rows =>
    obtain ⟨rfl, hnext⟩ := enqueue_eq_exec hmove
    cases hnext
    rcases h.owes i o x u a ho hnone hpassed hu ha hahead with ⟨d, hd, hkey⟩ | hdelivered
    · exact delivered_insertMissing hd hkey
    · exact hdelivered.mono hadds.deliveries
  | settling turn before firedCount =>
    cases hmove
    exact h.owes i o x u a ho hnone hpassed hu ha hahead
  | settled turn exhausted =>
    rw [move] at hmove
    split at hmove <;> cases hmove <;> exact h.owes i o x u a ho hnone hpassed hu ha hahead

/-- What others commit is owed already, as long as nobody they let in is behind
what the cycle has put in. -/
theorem Promises.beside (h : Promises view committed r)
    (hbeside : Beside view committed view' committed')
    (hkept : ∀ i d, committed.deliveries i = some d → committed'.deliveries i = some d)
    (hjoined : ∀ i o x u a, view.occurrences i = some o → committed.occurrences i = none →
      o.reminderId ∈ r.passed → committed'.recipients x = some u → u.acceptedAt = some a →
        Ahead u.reminderId a o → committed.recipients x = some u) :
    Promises view' committed' r := by
  have hdeliveries : ∀ k d, view.deliveries k = some d → view'.deliveries k = some d := by
    intro k d hd
    rcases hbeside.deliveries k with ⟨hview, -⟩ | ⟨hview, hview'⟩
    · exact hview.trans hd
    · exact hview.trans (hkept k d (hview'.symm.trans hd))
  refine ⟨fun x ↦ ?_, fun i o x u a ho hnone hpassed hu ha hahead ↦ ?_⟩
  · rcases hbeside.recipients x with ⟨hview, hcommitted⟩ | ⟨hview, -⟩
    · rw [hview, hcommitted, h.recipients x]
    · exact hview
  · rcases hbeside.occurrences i with ⟨hview, hcommitted⟩ | ⟨hview, -⟩
    · have ho := hview.symm.trans ho
      have hnone := hcommitted.symm.trans hnone
      have hu := hjoined i o x u a ho hnone hpassed hu ha hahead
      exact (h.owes i o x u a ho hnone hpassed hu ha hahead).mono hdeliveries
    · cases ho.symm.trans (hview.trans hnone)

/-- A reminder whose recipients are read is no longer added to. -/
theorem Cycle.passes {r' : Stage} (h : Cycle db.rows committed r)
    (hmove : move settings r db = .exec w held shared awaited (some r')) {i : ℕ} {o : Occurrence}
    (ho : (apply db w).occurrences i = some o) (hnone : committed.occurrences i = none)
    (hpassed : o.reminderId ∈ r'.passed) :
    db.occurrences i = some o ∧
      (o.reminderId ∈ r.passed ∨ o.reminderId ∈ (Concurrent.Stage.materializing r).reading) := by
  cases r with
  | next horizonEnd done rest =>
    cases rest with
    | nil => cases hmove
    | cons y rest =>
      rw [move] at hmove
      split at hmove <;> cases hmove <;> exact ⟨ho, .inl hpassed⟩
  | owned turn owner =>
    cases hmove
    exact ⟨ho, .inl hpassed⟩
  | counted turn owner before =>
    cases hmove
    rcases Table.insertMissing_some ho with hrow | ⟨-, hmem, -⟩
    · exact ⟨hrow, .inl hpassed⟩
    · obtain ⟨m, -, rfl⟩ := List.mem_map.mp hmem
      exact absurd hpassed (h.current_notMem rfl)
  | inserted turn before firedCount =>
    rw [move] at hmove
    split at hmove
    · rename_i hempty
      cases hmove
      refine ⟨ho, .inl ?_⟩
      rcases h.plans i o ho hnone with ⟨y, hy, hfires⟩ | hplans
      · exact List.mem_map.mpr ⟨y, hy, hfires.1.symm⟩
      · rw [Turn.Plans, hempty] at hplans
        exact absurd hplans.2 List.not_mem_nil
    · cases hmove
      refine ⟨ho, (List.mem_cons.mp hpassed).symm.imp_right fun hcurrent ↦ ?_⟩
      exact congrArg some hcurrent.symm
  | joined turn before firedCount userIds =>
    cases hmove
    exact ⟨ho, .inl hpassed⟩
  | listed turn before firedCount rows =>
    obtain ⟨rfl, hnext⟩ := enqueue_eq_exec hmove
    cases hnext
    exact ⟨ho, .inl hpassed⟩
  | settling turn before firedCount =>
    cases hmove
    exact ⟨ho, .inl hpassed⟩
  | settled turn exhausted =>
    rw [move] at hmove
    split at hmove <;> cases hmove <;> exact ⟨ho, .inl hpassed⟩

theorem Promises.commit {before : Rows} (hcycle : Cycle db.rows committed r)
    (h : Promises db.rows committed r) (hmove : move settings r db = .commit next)
    (hcovered : Covered before committed) : Covered before db.rows := by
  obtain ⟨horizonEnd, done, rfl⟩ := move_commit hmove
  intro x u a i o hu ha ho hahead
  rw [h.recipients x] at hu
  cases hrow : committed.occurrences i with
  | some o' =>
    cases (hcycle.occurrences i o' hrow).symm.trans ho
    exact (hcovered x u a i o hu ha hrow hahead).imp_right fun h ↦ h.mono hcycle.deliveries
  | none =>
    obtain ⟨y, hy, hfires⟩ := hcycle.plans i o ho hrow
    exact .inr (h.owes i o x u a ho hrow (List.mem_map.mpr ⟨y, hy, hfires.1.symm⟩) hu ha hahead)

end Materializing

namespace Joining

variable {request : Request} {r : Stage} {next : Option Stage}

theorem Promises.start (h : start request db = .exec w held shared awaited next) :
    ∃ r, next = some r ∧ r.backfilling = none ∧ Promises (apply db w).rows db.rows r := by
  rw [Joining.start] at h
  split at h
  · cases h
  · split at h
    · cases h
      exact ⟨_, rfl, rfl, fun x ↦ .inl rfl, fun i ↦ rfl, fun i d hd ↦ hd,
        fun q hq ↦ absurd hq (Option.not_mem_none q)⟩
    · cases h

theorem Promises.exec (h : Promises db.rows committed r)
    (hmove : move r db = .exec w held shared awaited next) :
    ∃ r', next = some r' ∧ (∀ q ∈ r'.backfilling, q ∈ r.listing ∨ q ∈ r.backfilling) ∧
      Promises (apply db w).rows committed r' := by
  cases r with
  | found request =>
    rw [move] at hmove
    split at hmove
    · cases hmove
    · cases hmove
      refine ⟨_, rfl, fun q hq ↦ absurd hq (Option.not_mem_none q), fun x ↦ ?_, h.occurrences,
        h.deliveries, fun q hq ↦ absurd hq (Option.not_mem_none q)⟩
      refine (h.recipients x).imp_right fun hno ↦ ?_
      obtain ⟨u, -, hno⟩ := hno
      cases hno
  | participating request =>
    cases hmove
    refine ⟨_, rfl, fun q hq ↦ ?_, fun x ↦ ?_, h.occurrences, h.deliveries, fun q hq ↦ ?_⟩
    · cases hflag : decide ((Recipients.accept request.reminderId request.userId request.now db).recipients
        ≠ []) <;> rw [hflag] at hq <;> cases hq
    · have hrow : db.recipients x = committed.recipients x := by
        refine (h.recipients x).resolve_right fun hno ↦ ?_
        obtain ⟨u, -, hno⟩ := hno
        cases hno
      by_cases hnil : (Recipients.accept request.reminderId request.userId request.now db).recipients = []
      · refine .inl ?_
        change db.recipients.writes _ x = _
        rw [hnil]
        exact hrow
      · rw [decide_eq_true hnil]
        have hrows := Recipients.recipients_accept db request.reminderId request.userId request.now x
        change (db.run _).recipients x = _ ∨ ∃ u, (db.run _).recipients x = some u ∧ _
        rw [hrows]
        cases hu : db.recipients x with
        | none => exact .inl (hu.symm.trans hrow)
        | some u =>
          rw [Option.map_some]
          split
          · rename_i hpending
            simp only [Bool.and_eq_true, decide_eq_true_eq] at hpending
            exact .inr ⟨_, rfl, hpending.1.1, rfl⟩
          · exact .inl (hu.symm.trans hrow)
    · cases hflag : decide ((Recipients.accept request.reminderId request.userId request.now db).recipients
        ≠ []) <;> rw [hflag] at hq <;> cases hq
  | accepted request updated =>
    cases updated with
    | false => cases hmove
    | true =>
      cases hmove
      refine ⟨_, rfl, fun q hq ↦ .inl hq, h.recipients, h.occurrences, h.deliveries,
        fun q hq i o ho hahead ↦ ?_⟩
      cases hq
      exact List.mem_map.mpr ⟨(i, o), Occurrences.mem_listUpcoming.mpr
        ⟨(h.occurrences i).trans ho, hahead⟩, rfl⟩
  | listed request upcoming =>
    obtain ⟨rfl, rfl⟩ := enqueue_eq_exec hmove
    refine ⟨_, rfl, fun q hq ↦ .inr hq, h.recipients, h.occurrences, fun i d hd ↦ ?_,
      fun q hq i o ho hahead ↦ ?_⟩
    · exact Table.insertMissing_kept (h.deliveries i d hd)
    · cases hq
      obtain ⟨y, hy, rfl⟩ := List.mem_map.mp (h.owes request rfl i o ho hahead)
      exact delivered_insertMissing (List.mem_map.mpr ⟨y, hy, rfl⟩) rfl
  | queued request => cases hmove

/-- What others commit lies behind the acceptance, once it has listed. -/
theorem Promises.beside (h : Promises view committed r)
    (hbeside : Beside view committed view' committed')
    (hkept : ∀ i d, committed.deliveries i = some d → committed'.deliveries i = some d)
    (hplanned : ∀ request ∈ r.backfilling, ∀ i o, committed'.occurrences i = some o →
      Ahead request.reminderId request.now o → committed.occurrences i = some o) :
    Promises view' committed' r := by
  have hdeliveries : ∀ k d, view.deliveries k = some d → view'.deliveries k = some d := by
    intro k d hd
    rcases hbeside.deliveries k with ⟨hview, -⟩ | ⟨hview, hview'⟩
    · exact hview.trans hd
    · exact hview.trans (hkept k d (hview'.symm.trans hd))
  refine ⟨fun x ↦ ?_, fun i ↦ ?_, fun i d hd ↦ ?_, fun q hq i o ho hahead ↦ ?_⟩
  · rcases hbeside.recipients x with ⟨hview, hcommitted⟩ | ⟨hview, -⟩
    · rw [hview, hcommitted]
      exact h.recipients x
    · exact .inl hview
  · rcases hbeside.occurrences i with ⟨hview, hcommitted⟩ | ⟨hview, -⟩
    · rw [hview, hcommitted, h.occurrences i]
    · exact hview
  · rcases hbeside.deliveries i with ⟨hview, hcommitted⟩ | ⟨hview, -⟩
    · exact hview.trans (h.deliveries i d (hcommitted.symm.trans hd))
    · exact hview.trans hd
  · have howes := h.owes q hq i o (hplanned q hq i o ho hahead) hahead
    cases r with
    | found request => cases hq
    | participating request => cases hq
    | accepted request updated => cases hq
    | listed request upcoming => exact howes
    | queued request => exact Delivered.mono howes hdeliveries

theorem Stage.Accepts.of_commit {u : Recipient} (h : r.Accepts u) (hmove : move r db = .commit next) :
    ∃ request, r = .queued request := by
  cases r with
  | queued request => exact ⟨request, rfl⟩
  | found request => cases h
  | participating request => cases h
  | accepted request updated =>
    cases updated with
    | false => cases h
    | true => cases hmove
  | listed request upcoming =>
    rw [move, enqueue] at hmove
    split at hmove <;> cases hmove

theorem Promises.commit {before : Rows} (h : Promises db.rows committed r)
    (hmove : move r db = .commit next) (hcovered : Covered before committed) :
    Covered before db.rows := by
  intro x u a i o hu ha ho hahead
  rw [h.occurrences i] at ho
  rcases h.recipients x with hrow | ⟨u', hu', haccepts⟩
  · rw [hrow] at hu
    exact (hcovered x u a i o hu ha ho hahead).imp_right fun hd ↦ hd.mono h.deliveries
  · cases hu'.symm.trans hu
    obtain ⟨request, rfl⟩ := haccepts.of_commit hmove
    obtain ⟨hkey, haccepted⟩ := haccepts
    cases haccepted.symm.trans ha
    have hreminder : u.reminderId = request.reminderId := congrArg Prod.fst hkey
    have huser : u.userId = request.userId := congrArg Prod.snd hkey
    rw [hreminder] at hahead
    rw [huser]
    exact .inr (h.owes request rfl i o ho hahead)

end Joining

end Moves

section Invariant

variable {settings : Settings} {before : Rows} {s s' : Sessions} {e : Event Input} {i j : ℕ}
  {input : Input} {locked : Lock → Bool} {db : Database} {m : Move Writes Lock Stage}
  {request : Joining.Request}

/-- A cycle that has read the recipients of a reminder has put in nothing that
lies ahead of an acceptance that has listed its queue. -/
def Apart (s : Sessions) : Prop :=
  ∀ i j, ∀ request ∈ (s.stage i).backfilling,
    request.reminderId ∈ (s.stage j).passed → NoneAhead s j request

structure Sharing (before : Rows) (s : Sessions) : Prop where
  owned : s.Owned
  stages : ∀ i, s.stage i = .idle ∧ (s.session i).log = [] ∨
    (∃ r, s.stage i = .materializing r) ∨ ∃ r, s.stage i = .joining r
  cycles : ∀ i r, s.stage i = .materializing r →
    Materializing.Cycle (s.view i).rows s.committed.rows r ∧
      Materializing.Promises (s.view i).rows s.committed.rows r
  joins : ∀ i r, s.stage i = .joining r →
    Joining.Promises (s.view i).rows s.committed.rows r
  apart : Apart s
  covered : Covered before s.committed.rows

theorem NoneAhead.isSome (h : NoneAhead s j request) {k : ℕ} {o : Occurrence}
    (ho : (s.view j).occurrences k = some o) (hahead : Ahead request.reminderId request.now o) :
    (s.committed.occurrences k).isSome = true :=
  h (k, o) (Occurrences.mem_listUpcoming.mpr ⟨ho, hahead⟩)

theorem NoneAhead.of_forall (h : ∀ k o, (s.view j).occurrences k = some o →
    Ahead request.reminderId request.now o → (s.committed.occurrences k).isSome = true) :
    NoneAhead s j request := by
  intro x hx
  obtain ⟨ho, hahead⟩ := Occurrences.mem_listUpcoming.mp hx
  exact h x.1 x.2 ho hahead

theorem NoneAhead.other (h : NoneAhead s j request) (hown : s.Owned)
    (hstep : Step (program settings) .idle s e s') (hj : j ≠ e.by) : NoneAhead s' j request := by
  refine .of_forall fun k o ho hahead ↦ ?_
  rcases (guards_occurrences k).view_other hstep hown hj with ⟨hview, hcommitted⟩ | ⟨hview, -⟩
  · rw [hcommitted]
    exact h.isSome (hview.symm.trans ho) hahead
  · rw [← hview, ho]
    rfl

/-- What a step may bring into the committed rows. -/
structure Brings (before : Rows) (s s' : Sessions) (i : ℕ) : Prop where
  deliveries : ∀ k d, s.committed.deliveries k = some d → s'.committed.deliveries k = some d
  occurrences : ∀ k o, s'.committed.occurrences k = some o → s.committed.occurrences k = some o ∨
    s.committed.occurrences k = none ∧ (s.view i).occurrences k = some o ∧
      o.reminderId ∈ (s.stage i).passed
  recipients : ∀ x u a, s'.committed.recipients x = some u → u.acceptedAt = some a →
    s.committed.recipients x = some u ∨
      ∃ request ∈ (s.stage i).backfilling, u.reminderId = request.reminderId ∧ a = request.now
  covered : Covered before s'.committed.rows

theorem Sharing.brings (h : Sharing before s) (hstep : Step (program settings) .idle s e s') :
    Brings before s s' e.by := by
  have hsame : s'.committed.rows = s.committed.rows → Brings before s s' e.by := by
    intro hrows
    have hdeliveries := congrArg Rows.deliveries hrows
    have hoccurrences := congrArg Rows.occurrences hrows
    have hrecipients := congrArg Rows.recipients hrows
    refine ⟨fun k d hd ↦ (congrFun hdeliveries k).trans hd,
      fun k o ho ↦ .inl ((congrFun hoccurrences k).symm.trans ho),
      fun x u a hu _ ↦ .inl ((congrFun hrecipients x).symm.trans hu), ?_⟩
    rw [hrows]
    exact h.covered
  cases hstep with
  | exec hmove hfree => exact hsame (rows_committed_exec _ _ _ _)
  | rollback hmove => exact hsame rfl
  | crash i => exact hsame rfl
  | @commit i input next hmove =>
    rcases h.stages i with ⟨hidle, -⟩ | ⟨r, hr⟩ | ⟨r, hr⟩
    · rw [hidle] at hmove
      rcases program_commit hmove with ⟨-, hno⟩ | ⟨r, -, hno, -⟩
      · exact absurd rfl hno
      · cases hno
    · rw [hr] at hmove
      obtain ⟨next, hplan, rfl⟩ := Move.map_eq_commit (Option.some_inj.mp hmove)
      obtain ⟨hcycle, hpromises⟩ := h.cycles i r hr
      refine ⟨hcycle.deliveries, fun k o ho ↦ ?_, fun x u a hu _ ↦ .inl ?_,
        hpromises.commit hcycle hplan h.covered⟩
      · cases hrow : s.committed.occurrences k with
        | some o' =>
          cases (hcycle.occurrences k o' hrow).symm.trans ho
          exact .inl rfl
        | none =>
          obtain ⟨horizonEnd, done, rfl⟩ := Materializing.move_commit hplan
          obtain ⟨y, hy, hfires⟩ := hcycle.plans k o ho hrow
          refine .inr ⟨rfl, ho, ?_⟩
          rw [Event.by, hr]
          exact List.mem_map.mpr ⟨y, hy, hfires.1.symm⟩
      · exact (hpromises.recipients x).symm.trans hu
    · rw [hr] at hmove
      obtain ⟨next, hjoin, rfl⟩ := Move.map_eq_commit (Option.some_inj.mp hmove)
      have hpromises := h.joins i r hr
      refine ⟨hpromises.deliveries, fun k o ho ↦ .inl ((hpromises.occurrences k).symm.trans ho),
        fun x u a hu ha ↦ ?_, hpromises.commit hjoin h.covered⟩
      rcases hpromises.recipients x with hrow | ⟨u', hu', haccepts⟩
      · exact .inl (hrow.symm.trans hu)
      · cases hu'.symm.trans hu
        obtain ⟨request, rfl⟩ := haccepts.of_commit hjoin
        obtain ⟨hkey, haccepted⟩ := haccepts
        cases haccepted.symm.trans ha
        rw [Event.by, hr]
        exact .inr ⟨request, rfl, congrArg Prod.fst hkey, rfl⟩

theorem Sharing.cycles_other (h : Sharing before s) (hstep : Step (program settings) .idle s e s')
    (hj : j ≠ e.by) {r : Materializing.Stage} (hr : s.stage j = .materializing r) :
    Materializing.Cycle (s'.view j).rows s'.committed.rows r ∧
      Materializing.Promises (s'.view j).rows s'.committed.rows r := by
  have hbeside := beside_step hstep h.owned hj
  have hbrings := h.brings hstep
  obtain ⟨hcycle, hpromises⟩ := h.cycles j r hr
  refine ⟨hcycle.beside hbeside, hpromises.beside hbeside hbrings.deliveries
    fun i o x u a ho hnone hpassed hu ha hahead ↦ ?_⟩
  refine (hbrings.recipients x u a hu ha).resolve_right fun ⟨request, hrequest, hreminder, hnow⟩ ↦ ?_
  rw [hreminder, hnow] at hahead
  have hpassed : request.reminderId ∈ (s.stage j).passed := by
    rw [hr, ← hahead.1]
    exact hpassed
  have hsome := (h.apart e.by j request hrequest hpassed).isSome ho hahead
  rw [show s.committed.occurrences i = none from hnone] at hsome
  cases hsome

theorem Sharing.joins_other (h : Sharing before s) (hstep : Step (program settings) .idle s e s')
    (hj : j ≠ e.by) {r : Joining.Stage} (hr : s.stage j = .joining r) :
    Joining.Promises (s'.view j).rows s'.committed.rows r := by
  have hbrings := h.brings hstep
  refine (h.joins j r hr).beside (beside_step hstep h.owned hj) hbrings.deliveries
    fun request hrequest k o ho hahead ↦ ?_
  refine (hbrings.occurrences k o ho).resolve_right fun ⟨hnone, hview, hpassed⟩ ↦ ?_
  rw [hahead.1] at hpassed
  have hbackfilling : request ∈ (s.stage j).backfilling := by
    rw [hr]
    exact hrequest
  have hsome := (h.apart j e.by request hbackfilling hpassed).isSome hview hahead
  rw [hnone] at hsome
  cases hsome

theorem program_joins (honly : OnlyJoins (.move i input))
    (hmove : program settings .idle input locked db = some m) :
    (∃ now, m = (Materializing.start settings.planning now db).map (.of .materializing)) ∨
      ∃ request, m = (Joining.start request db).map (.of .joining) := by
  cases input with
  | materialize now => exact .inl ⟨now, (Option.some_inj.mp hmove).symm⟩
  | accept request => exact .inr ⟨request, (Option.some_inj.mp hmove).symm⟩
  | go => cases hmove
  | react tap => cases honly
  | deliver now => cases honly
  | answer result now => cases honly
  | sweep now => cases honly
  | edit request => cases honly

/-- A step keeps the invariant, given where it leaves the session that takes
it: the others are beside it. -/
theorem Sharing.moved (h : Sharing before s) (hstep : Step (program settings) .idle s e s')
    (hself : s'.stage e.by = .idle ∧ (s'.session e.by).log = [] ∨
      (∃ r, s'.stage e.by = .materializing r ∧
        Materializing.Cycle (s'.view e.by).rows s'.committed.rows r ∧
          Materializing.Promises (s'.view e.by).rows s'.committed.rows r) ∨
      ∃ r, s'.stage e.by = .joining r ∧ Joining.Promises (s'.view e.by).rows s'.committed.rows r)
    (hlists : ∀ request ∈ (s'.stage e.by).backfilling, request ∈ (s.stage e.by).backfilling ∨
      ∀ j, request.reminderId ∈ (s.stage j).passed → NoneAhead s j request)
    (hreads : ∀ i, i ≠ e.by → ∀ request ∈ (s.stage i).backfilling,
      request.reminderId ∈ (s'.stage e.by).passed → NoneAhead s' e.by request) :
    Sharing before s' := by
  refine ⟨hstep.owned h.owned, fun j ↦ ?_, fun j r hr ↦ ?_, fun j r hr ↦ ?_,
    fun i j request hrequest hpassed ↦ ?_, (h.brings hstep).covered⟩
  · by_cases hj : j = e.by
    · rw [hj]
      exact hself.imp_right (.imp (fun ⟨r, hr, _⟩ ↦ ⟨r, hr⟩) fun ⟨r, hr, _⟩ ↦ ⟨r, hr⟩)
    · rw [hstep.stage_other hj, hstep.session_other hj]
      exact h.stages j
  · by_cases hj : j = e.by
    · rw [hj] at hr ⊢
      rcases hself with ⟨hidle, -⟩ | ⟨r', hr', hfacts⟩ | ⟨r', hr', -⟩
      · cases hidle.symm.trans hr
      · cases hr'.symm.trans hr
        exact hfacts
      · cases hr'.symm.trans hr
    · rw [hstep.stage_other hj] at hr
      exact h.cycles_other hstep hj hr
  · by_cases hj : j = e.by
    · rw [hj] at hr ⊢
      rcases hself with ⟨hidle, -⟩ | ⟨r', hr', -⟩ | ⟨r', hr', hfacts⟩
      · cases hidle.symm.trans hr
      · cases hr'.symm.trans hr
      · cases hr'.symm.trans hr
        exact hfacts
    · rw [hstep.stage_other hj] at hr
      exact h.joins_other hstep hj hr
  · by_cases hj : j = e.by
    · rw [hj] at hpassed ⊢
      have hi : i ≠ e.by := fun hi ↦ Stage.not_passed_of_backfilling (hi ▸ hrequest) hpassed
      rw [hstep.stage_other hi] at hrequest
      exact hreads i hi request hrequest hpassed
    · rw [hstep.stage_other hj] at hpassed
      refine NoneAhead.other ?_ h.owned hstep hj
      by_cases hi : i = e.by
      · rw [hi] at hrequest
        rcases hlists request hrequest with hold | hnew
        · exact h.apart e.by j request hold hpassed
        · exact hnew j hpassed
      · rw [hstep.stage_other hi] at hrequest
        exact h.apart i j request hrequest hpassed

theorem Sharing.ended (h : Sharing before s) (hstep : Step (program settings) .idle s e s')
    (hidle : s'.stage e.by = .idle) (hlog : (s'.session e.by).log = []) : Sharing before s' := by
  refine h.moved hstep (.inl ⟨hidle, hlog⟩) (fun request hrequest ↦ ?_) fun i _ request _ hpassed ↦ ?_
  · rw [hidle] at hrequest
    cases hrequest
  · rw [hidle] at hpassed
    cases hpassed

theorem Sharing.step (h : Sharing before s) (honly : OnlyJoins e) (hguard : JoinsFairly .univ s e)
    (hstep : Step (program settings) .idle s e s') : Sharing before s' := by
  have hmake := h.moved hstep
  have hend := h.ended hstep
  cases hstep with
  | crash i => exact hend (stage_close_self _ _) (by rw [Event.by, session_close_self])
  | @commit i input next hmove =>
    have hidle : next = .idle := by
      rcases program_commit hmove with ⟨hidle, -⟩ | ⟨r, -, hr, -⟩
      · exact hidle
      · rcases h.stages i with ⟨hno, -⟩ | ⟨r', hno⟩ | ⟨r', hno⟩ <;> cases hno.symm.trans hr
    rw [hidle] at hend ⊢
    exact hend (stage_close_self _ _) (by rw [Event.by, session_close_self])
  | @rollback i input next hmove =>
    rw [program_rollback hmove] at hend ⊢
    exact hend (stage_close_self _ _) (by rw [Event.by, session_close_self])
  | @exec i input w held shared awaited next hmove hfree =>
    rw [Event.by, stage_exec_self, rows_view_exec, rows_committed_exec] at hmake
    rcases h.stages i with ⟨hidle, hlog⟩ | ⟨r, hr⟩ | ⟨r, hr⟩
    · have hview : s.committed.rows = (s.view i).rows := by
        rw [System.view, hlog]
        rfl
      rw [hidle] at hmove
      rw [hview] at hmake
      rcases program_joins honly hmove with ⟨now, hmove⟩ | ⟨request, hmove⟩
      · obtain ⟨next, hstart, rfl⟩ := Move.map_eq_exec hmove.symm
        obtain ⟨r, rfl, hcycle⟩ := Materializing.Cycle.start hstart
        obtain ⟨r', hr', hpromises⟩ := Materializing.Promises.start hstart
        cases hr'
        refine hmake (.inr (.inl ⟨r, rfl, hcycle, hpromises⟩)) (fun _ hno ↦ by cases hno)
          fun i _ request _ hpassed ↦ ?_
        cases hstart
        cases hpassed
      · obtain ⟨next, hstart, rfl⟩ := Move.map_eq_exec hmove.symm
        obtain ⟨r, rfl, hnone, hpromises⟩ := Joining.Promises.start hstart
        refine hmake (.inr (.inr ⟨r, rfl, hpromises⟩)) (fun request hrequest ↦ ?_)
          fun _ _ _ _ hno ↦ absurd hno List.not_mem_nil
        change request ∈ r.backfilling at hrequest
        rw [hnone] at hrequest
        cases hrequest
    · rw [hr] at hmove
      obtain ⟨next, hplan, rfl⟩ := Move.map_eq_exec (Option.some_inj.mp hmove)
      obtain ⟨hcycle, hpromises⟩ := h.cycles i r hr
      obtain ⟨r', rfl, hcycle'⟩ := hcycle.exec hplan
      obtain ⟨r'', hr'', hpromises'⟩ := hpromises.exec hcycle hplan
      cases hr''
      refine hmake (.inr (.inl ⟨r', rfl, hcycle', hpromises'⟩)) (fun _ hno ↦ by cases hno)
        fun j hj request hrequest hpassed ↦ .of_forall fun k o ho hahead ↦ ?_
      have hview : (apply (s.view i) w).occurrences k = some o :=
        ((guards_occurrences k).view_exec_self _ _ _ _).symm.trans ho
      rw [(guards_occurrences k).committed_exec]
      cases hnone : s.committed.occurrences k with
      | some o' => rfl
      | none =>
        rw [← hahead.1] at hpassed
        obtain ⟨hold, hread⟩ := hcycle.passes hplan hview hnone hpassed
        have hahead' : NoneAhead s i request := by
          rcases hread with hread | hread
          · refine h.apart j i request hrequest ?_
            rw [hr, ← hahead.1]
            exact hread
          · refine hguard.2 o.reminderId ?_ j trivial request hrequest hahead.1.symm
            rw [hr]
            exact hread
        have hsome := hahead'.isSome hold hahead
        rw [hnone] at hsome
        exact hsome
    · rw [hr] at hmove
      obtain ⟨next, hjoin, rfl⟩ := Move.map_eq_exec (Option.some_inj.mp hmove)
      obtain ⟨r', rfl, hlists, hpromises⟩ := (h.joins i r hr).exec hjoin
      refine hmake (.inr (.inr ⟨r', rfl, hpromises⟩)) (fun request hrequest ↦ ?_)
        fun _ _ _ _ hno ↦ absurd hno List.not_mem_nil
      rcases hlists request hrequest with hlisting | hlisted
      · refine .inr fun j hpassed ↦ hguard.1 request ?_ j trivial hpassed
        rw [hr]
        exact hlisting
      · rw [hr]
        exact .inl hlisted

end Invariant

theorem sharing_start (db : Database) : Sharing db.rows (System.start db .idle : Sessions) where
  owned _ _ hw := by cases hw
  stages _ := .inl ⟨rfl, rfl⟩
  cycles _ _ hr := by cases hr
  joins _ _ hr := by cases hr
  apart _ _ _ hno := by cases hno
  covered _ _ _ _ _ hu _ ho _ := .inl ⟨hu, ho⟩

/-- As long as the planner and an acceptance do not both read before the other
commits what it would have found, nobody who accepts misses an occurrence. -/
theorem acceptance_misses_nothing {settings : Settings} {db : Database} {es : List (Event Input)}
    {s : Sessions} (honly : ∀ e ∈ es, OnlyJoins e)
    (hfair : Guarded (step (program settings) .idle) (JoinsFairly .univ) (.start db .idle) es)
    (hrun : run (step (program settings) .idle) (.start db .idle) es = some s) :
    Covered db.rows s.committed.rows := by
  have hboth : Guarded (step (program settings) .idle)
      (fun s e ↦ JoinsFairly .univ s e ∧ OnlyJoins e) (.start db .idle) es :=
    hfair.and_forall honly
  exact (run_invariant (fun _ _ _ h hguard hstep ↦ h.step hguard.2 hguard.1 (step_cases hstep))
    hboth hrun (sharing_start db)).covered

section Sample

instance (s : Sessions) (j : ℕ) (request : Joining.Request) : Decidable (NoneAhead s j request) :=
  inferInstanceAs (Decidable (∀ _ ∈ _, _))

instance (n : ℕ) (s : Sessions) : ∀ e, Decidable (JoinsFairly (Set.Iio n) s e)
  | .move i _ =>
    inferInstanceAs (Decidable ((∀ request ∈ (s.stage i).listing, ∀ j, j < n →
      request.reminderId ∈ (s.stage j).passed → NoneAhead s j request) ∧
      ∀ reminderId ∈ (s.stage i).reading, ∀ j, j < n → ∀ request ∈ (s.stage j).backfilling,
        request.reminderId = reminderId → NoneAhead s i request))
  | .crash _ => isTrue trivial

theorem joinsFairly_all {n : ℕ} {s : Sessions} {e : Event Input}
    (hidle : ∀ j, n ≤ j → s.stage j = .idle) (h : JoinsFairly (Set.Iio n) s e) :
    JoinsFairly .univ s e := by
  cases e with
  | crash i => trivial
  | move i input =>
    refine ⟨fun request hrequest j _ hpassed ↦ ?_, fun reminderId hread j _ request hrequest ↦ ?_⟩
    · by_cases hj : j < n
      · exact h.1 request hrequest j hj hpassed
      · rw [hidle j (not_lt.mp hj)] at hpassed
        cases hpassed
    · by_cases hj : j < n
      · exact h.2 reminderId hread j hj request hrequest
      · rw [hidle j (not_lt.mp hj)] at hrequest
        cases hrequest

/-- A reminder nobody has planned yet, and a watcher who is invited to it. -/
def invitedDb : Database :=
  { sampleDb [] [] with
    reminders := .ofList [{ sampleReminder with firedCount := 0, plannedUntil := none }]
    recipients := .ofList [⟨0, 0, .owner, some 0⟩, ⟨0, 1, .watcher, none⟩] }

/-- A cycle puts in the occurrence, the watcher accepts, and the cycle goes on
to read the recipients. -/
def acceptedBetween : List (Event Input) :=
  .move 0 (.materialize 0) :: going 0 3 ++ .move 1 (.accept ⟨0, 1, 0⟩) :: going 1 5 ++ going 0 6

/-- The same, but the cycle has read the recipients when the watcher accepts. -/
def acceptedBehind : List (Event Input) :=
  .move 0 (.materialize 0) :: going 0 4 ++ .move 1 (.accept ⟨0, 1, 0⟩) :: going 1 5 ++ going 0 5

theorem acceptance_misses_nothing_sample :
    ∃ s : Sessions, run (step (program sampleSettings) .idle) (.start invitedDb .idle)
        acceptedBetween = some s ∧ (s.committed.occurrences 0).isSome = true ∧
          Covered invitedDb.rows s.committed.rows := by
  have hruns : (run (step (program sampleSettings) .idle) (.start invitedDb .idle : Sessions)
      acceptedBetween).any (fun s ↦ (s.committed.occurrences 0).isSome) = true := by
    decide +kernel
  obtain ⟨s, hrun, hplanned⟩ := (Option.any_eq_true _ _).mp hruns
  have honly : ∀ e ∈ acceptedBetween, OnlyJoins e := by
    simp [acceptedBetween, going, OnlyJoins]
  have hfair : Guarded (step (program sampleSettings) .idle) (JoinsFairly (Set.Iio 2))
      (.start invitedDb .idle) acceptedBetween := by
    decide +kernel
  refine ⟨s, hrun, hplanned, acceptance_misses_nothing honly (Guarded.of_below
    (fun s e hidle h ↦ joinsFairly_all hidle h) (fun _ _ ↦ rfl) ?_ hfair) hrun⟩
  decide

/-- The cycle has read the recipients without the watcher, and the watcher
lists the queue without what the cycle has put in. -/
theorem accepted_behind_the_planner :
    ∃ s : Sessions, (∀ e ∈ acceptedBehind, OnlyJoins e) ∧
      run (step (program sampleSettings) .idle) (.start invitedDb .idle) acceptedBehind = some s ∧
        ¬Covered invitedDb.rows s.committed.rows := by
  have hruns : (run (step (program sampleSettings) .idle) (.start invitedDb .idle : Sessions)
      acceptedBehind).any (fun s ↦
        (s.committed.recipients 1).any (fun u ↦ (s.committed.occurrences 0).any fun o ↦
          decide (u.userId = 1 ∧ u.acceptedAt = some 0 ∧ o.reminderId = u.reminderId ∧
            o.status = .pending ∧ 0 < o.fireAt)) &&
        decide (s.committed.deliveries.find (fun d ↦ decide (d.key = (0, 1))) = none)) = true := by
    decide +kernel
  obtain ⟨s, hrun, hruns⟩ := (Option.any_eq_true _ _).mp hruns
  rw [Bool.and_eq_true] at hruns
  obtain ⟨u, hu, hrows⟩ := (Option.any_eq_true _ _).mp hruns.1
  obtain ⟨o, ho, hrows⟩ := (Option.any_eq_true _ _).mp hrows
  obtain ⟨huser, ha, hahead⟩ := of_decide_eq_true hrows
  refine ⟨s, by simp [acceptedBehind, going, OnlyJoins], hrun, fun hcovered ↦ ?_⟩
  rcases hcovered 1 u 0 0 o hu ha ho hahead with ⟨-, hbefore⟩ | ⟨k, d, hd, hkey⟩
  · cases hbefore
  · have hnone := Table.find_none.mp (of_decide_eq_true hruns.2) k d hd
    rw [hkey, huser] at hnone
    cases hnone

end Sample

end Remindo.Concurrent
