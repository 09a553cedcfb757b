import Remindo.Concurrent.Cycle

namespace Remindo.Concurrent

open Remindo.Domain Remindo.Db Remindo.Services Remindo.Foundation Remindo.Foundation.ReadCommitted

/-- The rows of the queue that come to an end. -/
inductive Row
  | occurrence (id : ℕ)
  | delivery (id : ℕ)
  deriving DecidableEq

inductive RowStatus
  | occurrence (status : OccurrenceStatus)
  | delivery (status : DeliveryStatus)
  deriving DecidableEq

def RowStatus.isTerminal : RowStatus → Bool
  | .occurrence status => status.isTerminal
  | .delivery status => status.isTerminal

namespace Row

def lock : Row → Lock
  | .occurrence i => .occurrence i
  | .delivery i => .delivery i

def status : Row → Database → Option RowStatus
  | .occurrence i, db => (db.occurrences i).map fun o ↦ .occurrence o.status
  | .delivery i, db => (db.deliveries i).map fun d ↦ .delivery d.status

theorem guards : ∀ k : Row, Guards Writes k.lock k.status
  | .occurrence i => (guards_occurrences i).comp (Option.map fun o ↦ RowStatus.occurrence o.status)
  | .delivery i => (guards_deliveries i).comp (Option.map fun d ↦ RowStatus.delivery d.status)

end Row

/-- What keeps the rows that have ended, and takes up none of them. -/
structure Mindful (final : RowStatus → Bool) (used using' : List Row) (db : Database) (w : Writes) :
    Prop where
  takes : ∀ k ∈ using', k ∈ used ∨ (k.status db).any final = false
  keeps : ∀ k, k ∉ used → (k.status db).any final = true → k.status (apply db w) = k.status db

section Statements

variable {final : RowStatus → Bool} {used using' : List Row} {db : Database} {w : Writes}

theorem status_updateFields (db : Database) (i : ℕ) (values : Delivery → Delivery) (k : Row) :
    k.status (apply db (Deliveries.updateFields i values db)) =
      if k = .delivery i then (db.deliveries i).map fun d ↦ .delivery (values d).status
      else k.status db := by
  cases k with
  | occurrence j => rw [if_neg (by simp)]; rfl
  | delivery j =>
    have hrow := Deliveries.deliveries_updateFields db i values j
    change ((db.run (Deliveries.updateFields i values)).deliveries j).map _ = _
    rw [hrow]
    by_cases hj : j = i
    · simp [hj, Function.comp_def]
    · simp [hj, Row.status]

theorem status_setStatus (db : Database) (i : ℕ) (status : OccurrenceStatus) (k : Row) :
    k.status (apply db (Occurrences.setStatus i status db)) =
      if k = .occurrence i then (db.occurrences i).map fun _ ↦ .occurrence status
      else k.status db := by
  cases k with
  | delivery j => rw [if_neg (by simp)]; rfl
  | occurrence j =>
    have hrow := Occurrences.occurrences_setStatus db i status j
    change ((db.run (Occurrences.setStatus i status)).occurrences j).map _ = _
    rw [hrow]
    by_cases hj : j = i
    · simp [hj, Function.comp_def]
    · simp [hj, Row.status]

theorem status_of_nil (hoccurrences : w.occurrences = []) (hdeliveries : w.deliveries = [])
    (k : Row) : k.status (apply db w) = k.status db := by
  cases k with
  | occurrence i => simp [Row.status, apply, hoccurrences]
  | delivery i => simp [Row.status, apply, hdeliveries]

theorem status_bumpRepeats (db : Database) (i : ℕ) (k : Row) :
    k.status (apply db (Occurrences.bumpRepeats i db)) = k.status db := by
  cases k with
  | delivery j => rfl
  | occurrence j =>
    have hrow := Table.writes_update db.occurrences i
      (fun o ↦ { o with repeatsSent := o.repeatsSent + 1 }) j
    change ((db.occurrences.writes _).rows j).map _ = _
    refine (congrArg (Option.map _) hrow).trans ?_
    split
    · rename_i hj
      rw [Option.map_map, hj]
      rfl
    · rfl

theorem status_releaseStaleLocks (db : Database) (now : ℤ) (k : Row) :
    k.status (apply db (Deliveries.releaseStaleLocks now db)) = k.status db := by
  cases k with
  | occurrence j => rfl
  | delivery j =>
    have hrow := Deliveries.deliveries_releaseStaleLocks db now j
    change ((db.run (Deliveries.releaseStaleLocks now)).deliveries j).map _ = _
    rw [hrow, Option.map_map]
    refine Option.map_congr fun d _ ↦ ?_
    dsimp only [Function.comp]
    split <;> rfl

theorem open_occurrence (hfinal : ∀ status, final status = true → status.isTerminal = true) {i : ℕ}
    {o : Occurrence} (hrow : db.occurrences i = some o) (hopen : o.status.isTerminal = false) :
    ((Row.occurrence i).status db).any final = false := by
  rw [Row.status, hrow]
  refine eq_false_of_ne_true fun h ↦ ?_
  have hterminal : o.status.isTerminal = true := hfinal _ h
  exact Bool.false_ne_true (hopen.symm.trans hterminal)

theorem open_delivery (hfinal : ∀ status, final status = true → status.isTerminal = true) {i : ℕ}
    {d : Delivery} (hrow : db.deliveries i = some d) (hopen : d.status.isTerminal = false) :
    ((Row.delivery i).status db).any final = false := by
  rw [Row.status, hrow]
  refine eq_false_of_ne_true fun h ↦ ?_
  have hterminal : d.status.isTerminal = true := hfinal _ h
  exact Bool.false_ne_true (hopen.symm.trans hterminal)

theorem Mindful.of_nil (hoccurrences : w.occurrences = []) (hdeliveries : w.deliveries = [])
    (htakes : ∀ k ∈ using', k ∈ used ∨ (k.status db).any final = false) :
    Mindful final used using' db w :=
  ⟨htakes, fun k _ _ ↦ status_of_nil hoccurrences hdeliveries k⟩

theorem Mindful.updateFields {i : ℕ} {values : Delivery → Delivery} (hi : .delivery i ∈ used)
    (htakes : using' ⊆ used) :
    Mindful final used using' db (Deliveries.updateFields i values db) := by
  refine ⟨fun k hk ↦ .inl (htakes hk), fun k hk _ ↦ ?_⟩
  rw [status_updateFields, if_neg]
  exact fun h ↦ hk (h ▸ hi)

theorem Mindful.setStatus {i : ℕ} {status : OccurrenceStatus} (hi : .occurrence i ∈ used)
    (htakes : using' ⊆ used) :
    Mindful final used using' db (Occurrences.setStatus i status db) := by
  refine ⟨fun k hk ↦ .inl (htakes hk), fun k hk _ ↦ ?_⟩
  rw [status_setStatus, if_neg]
  exact fun h ↦ hk (h ▸ hi)

end Statements

namespace Reacting

/-- The rows a reaction has found open, as far as it may write to them. -/
def Stage.uses : Stage → List Row
  | .locked tap d => if d.status.isTerminal then [] else [.delivery tap.deliveryId]
  | .opened tap d o =>
    if (checkReactable tap.action.kind d.status o.status o.expiresAt d.snoozedUntil tap.now).isNone
    then [.delivery tap.deliveryId, .occurrence d.occurrenceId] else []
  | .decided tap d reaction _ | .written tap d reaction _ | .journaled tap d reaction =>
    if reaction.isTerminal then [.delivery tap.deliveryId, .occurrence d.occurrenceId]
    else [.delivery tap.deliveryId]
  | .timed tap d _ _ | .counted tap d _ | .closed tap d =>
    [.delivery tap.deliveryId, .occurrence d.occurrenceId]

/-- An outcome is what ends a delivery. -/
def Stage.sound : Stage → Prop
  | .decided _ _ reaction _ | .written _ _ reaction _ | .journaled _ _ reaction =>
    reaction.kind.isOutcome = true → reaction.isTerminal = true
  | _ => True

variable {final : RowStatus → Bool} {db : Database} {w : Writes} {held shared awaited : List Lock}
  {tap : Tap} {r : Stage} {next : Option Stage}

theorem start_mindful (hfinal : ∀ status, final status = true → status.isTerminal = true)
    (h : start tap db = .exec w held shared awaited next) :
    ∃ r, next = some r ∧ r.sound ∧ Mindful final [] r.uses db w := by
  rw [start] at h
  split at h
  · cases h
  · rename_i d hd
    cases h
    refine ⟨_, rfl, trivial, .of_nil rfl rfl fun k hk ↦ .inr ?_⟩
    rw [Stage.uses] at hk
    split at hk
    · cases hk
    · rename_i hopen
      rw [List.mem_singleton.mp hk]
      exact open_delivery hfinal hd (eq_false_of_ne_true hopen)

theorem move_mindful (hfinal : ∀ status, final status = true → status.isTerminal = true)
    (hsound : r.sound) (h : move r db = .exec w held shared awaited next) :
    ∃ r', next = some r' ∧ r'.sound ∧ Mindful final r.uses r'.uses db w := by
  cases r with
  | locked tap d =>
    rw [move] at h
    split at h
    · cases h
    · split at h
      · cases h
      · rename_i o ho
        cases h
        refine ⟨_, rfl, trivial, .of_nil rfl rfl fun k hk ↦ ?_⟩
        dsimp only [Stage.uses] at hk ⊢
        split at hk
        · rename_i hreactable
          have hopen := checkReactable_eq_none (Option.isNone_iff_eq_none.mp hreactable)
          rw [if_neg (by simp [hopen.1])]
          rcases List.mem_cons.mp hk with rfl | hk
          · exact .inl (List.mem_singleton_self _)
          · rw [List.mem_singleton.mp hk]
            exact .inr (open_occurrence hfinal ho hopen.2.1)
        · cases hk
  | opened tap d o =>
    rw [move] at h
    split at h
    · cases h
    · rename_i hreactable
      split at h
      · cases h
      · cases h
        refine ⟨_, rfl, trivial, .of_nil rfl rfl fun k hk ↦ .inl ?_⟩
        rw [Stage.uses, if_pos (by rw [hreactable]; rfl)]
        exact hk
  | timed tap d o snoozeMinutes =>
    rw [move] at h
    split at h
    · cases h
    · split at h
      · cases h
      · rename_i reaction hreaction
        cases h
        refine ⟨_, rfl, fun houtcome ↦ ?_, .of_nil rfl rfl fun k hk ↦ .inl ?_⟩
        · obtain ⟨hkind, ⟨hsnooze, -⟩ | ⟨-, hanswer, -⟩⟩ := decideReaction_eq_ok hreaction
          · rw [hkind, hsnooze] at houtcome
            cases houtcome
          · exact DeliveryStatus.isTerminal_of_isAnswer hanswer
        · dsimp only [Stage.uses] at hk ⊢
          split at hk
          · exact hk
          · rw [List.mem_singleton.mp hk]
            exact List.mem_cons_self
  | decided tap d reaction snoozeMinutes =>
    cases h
    refine ⟨_, rfl, hsound, .updateFields ?_ fun k hk ↦ hk⟩
    rw [Stage.uses]
    split <;> exact List.mem_cons_self
  | written tap d reaction snoozeMinutes =>
    cases h
    exact ⟨_, rfl, hsound, .of_nil rfl rfl fun k hk ↦ .inl hk⟩
  | journaled tap d reaction =>
    rw [move] at h
    split at h
    · rename_i hterminal
      cases h
      refine ⟨_, rfl, trivial, .of_nil rfl rfl fun k hk ↦ .inl ?_⟩
      rw [Stage.uses, if_pos hterminal]
      exact hk
    · cases h
  | counted tap d status =>
    cases status with
    | none => cases h
    | some status =>
      cases h
      exact ⟨_, rfl, trivial, .setStatus (List.mem_cons_of_mem _ List.mem_cons_self) fun k hk ↦ hk⟩
  | closed tap d => cases h

end Reacting

namespace Sweeping

open Reaper

/-- Rows a sweep has journaled the silence of. -/
def toldRows (told : List (ℕ × Delivery)) : List Row :=
  told.flatMap fun d ↦ [.delivery d.1, .occurrence d.2.occurrenceId]

def repeatedRows (now : ℤ) (candidates : List Deliveries.RepeatCandidate) : List Row :=
  (candidates.filter fun c ↦ (repeatAt now c).isSome).map fun c ↦ .delivery c.delivery.1

/-- The rows a sweep has found overdue, silent or unanswered. -/
def Stage.uses : Stage → List Row
  | .expiring _ told rest => toldRows told ++ rest.map fun o ↦ .occurrence o.1
  | .journaling _ told o sent rest =>
    toldRows told ++ sent.map (fun d ↦ .delivery d.1) ++
      .occurrence o.1 :: rest.map fun o ↦ .occurrence o.1
  | .repeating now told candidates _ | .bumping now told _ candidates _ =>
    toldRows told ++ repeatedRows now candidates
  | .released told => toldRows told

/-- No occurrence is swept twice, and no silence of one is journaled twice. -/
def Stage.sound : Stage → Prop
  | .expiring _ told rest =>
    (rest.map Prod.fst).Nodup ∧ ∀ d ∈ told, d.2.occurrenceId ∉ rest.map Prod.fst
  | .journaling _ told o sent rest =>
    (o.1 :: rest.map Prod.fst).Nodup ∧ (∀ d ∈ told, d.2.occurrenceId ∉ rest.map Prod.fst) ∧
      (sent.map Prod.fst).Nodup ∧ (∀ d ∈ sent, d.2.occurrenceId = o.1) ∧
        ∀ d ∈ told, d.2.occurrenceId = o.1 → d.1 ∉ sent.map Prod.fst
  | _ => True

variable {final : RowStatus → Bool} {db : Database} {w : Writes} {held shared awaited : List Lock}
  {batch : ℕ} {now : ℤ} {r : Stage} {next : Option Stage}

theorem start_mindful (hfinal : ∀ status, final status = true → status.isTerminal = true)
    (h : start batch now db = .exec w held shared awaited next) :
    ∃ r, next = some r ∧ r.sound ∧ Mindful final [] r.uses db w := by
  cases h
  have hnodup : ((overdue db now batch).map Prod.fst).Nodup :=
    (Occurrences.nodup_listExpired db now batch).sublist (List.filter_sublist.map _)
  refine ⟨_, rfl, ⟨hnodup, fun d hd ↦ absurd hd List.not_mem_nil⟩,
    .of_nil rfl rfl fun k hk ↦ .inr ?_⟩
  obtain ⟨o, ho, rfl⟩ := List.mem_map.mp hk
  obtain ⟨hrow, -, hopen⟩ := Occurrences.mem_listExpired (List.mem_of_mem_filter ho)
  exact open_occurrence hfinal hrow hopen

theorem move_mindful (hfinal : ∀ status, final status = true → status.isTerminal = true)
    (hsound : r.sound) (h : move batch r db = .exec w held shared awaited next) :
    ∃ r', next = some r' ∧ r'.sound ∧ Mindful final r.uses r'.uses db w := by
  cases r with
  | expiring now told rest =>
    cases rest with
    | nil =>
      cases h
      refine ⟨_, rfl, trivial, .of_nil rfl rfl fun k hk ↦ ?_⟩
      rcases List.mem_append.mp hk with hk | hk
      · exact .inl (List.mem_append_left _ hk)
      · obtain ⟨c, hc, rfl⟩ := List.mem_map.mp hk
        obtain ⟨hrow, hsent⟩ := Deliveries.mem_listRepeatCandidates (List.mem_of_mem_filter hc)
        exact .inr (open_delivery hfinal hrow (by rw [hsent]; rfl))
    | cons o rest =>
      cases h
      obtain ⟨hnodup, htold⟩ := hsound
      have hfresh : ∀ d ∈ told, d.2.occurrenceId ≠ o.1 ∧ d.2.occurrenceId ∉ rest.map Prod.fst :=
        fun d hd ↦ not_or.mp fun h ↦ htold d hd (List.mem_cons.mpr h)
      refine ⟨_, rfl, ⟨hnodup, fun d hd ↦ (hfresh d hd).2, Table.nodup_select_ids _ _,
        fun d hd ↦ (Deliveries.mem_listSentForOccurrence hd).2.1,
        fun d hd ho ↦ absurd ho (hfresh d hd).1⟩, .of_nil rfl rfl fun k hk ↦ ?_⟩
      rcases List.mem_append.mp hk with hk | hk
      · rcases List.mem_append.mp hk with hk | hk
        · exact .inl (List.mem_append_left _ hk)
        · obtain ⟨d, hd, rfl⟩ := List.mem_map.mp hk
          obtain ⟨hrow, -, hsent⟩ := Deliveries.mem_listSentForOccurrence hd
          exact .inr (open_delivery hfinal hrow (by rw [hsent]; rfl))
      · exact .inl (List.mem_append_right _ hk)
  | journaling now told o sent rest =>
    cases sent with
    | nil =>
      cases h
      obtain ⟨hnodup, htold, -⟩ := hsound
      refine ⟨_, rfl, ⟨(List.nodup_cons.mp hnodup).2, htold⟩, .setStatus ?_ fun k hk ↦ ?_⟩
      · exact List.mem_append_right _ List.mem_cons_self
      · rcases List.mem_append.mp hk with hk | hk
        · exact List.mem_append_left _ (List.mem_append_left _ hk)
        · exact List.mem_append_right _ (List.mem_cons_of_mem _ hk)
    | cons d sent =>
      cases h
      obtain ⟨hnodup, htold, hsent, hparents, hfresh⟩ := hsound
      obtain ⟨hnew, hsent⟩ := List.nodup_cons.mp hsent
      have hparent := hparents d List.mem_cons_self
      refine ⟨_, rfl, ⟨hnodup, fun d' hd' ↦ ?_, hsent,
        fun d' hd' ↦ hparents d' (List.mem_cons_of_mem _ hd'), fun d' hd' ho ↦ ?_⟩,
        .of_nil rfl rfl fun k hk ↦ .inl ?_⟩
      · rcases List.mem_cons.mp hd' with rfl | hd'
        · rw [hparent]
          exact (List.nodup_cons.mp hnodup).1
        · exact htold d' hd'
      · rcases List.mem_cons.mp hd' with rfl | hd'
        · exact hnew
        · exact fun hmem ↦ hfresh d' hd' ho (List.mem_cons_of_mem _ hmem)
      simp only [Stage.uses, toldRows, List.flatMap_cons, List.mem_append, List.mem_cons,
        List.map_cons, hparent, List.not_mem_nil, or_false] at hk ⊢
      tauto
  | repeating now told candidates bumped =>
    cases candidates with
    | nil =>
      cases h
      exact ⟨_, rfl, trivial, fun k hk ↦ .inl (List.mem_append_left _ hk),
        fun k _ _ ↦ status_releaseStaleLocks db now k⟩
    | cons c rest =>
      rw [move] at h
      split at h
      · rename_i hnone
        cases h
        refine ⟨_, rfl, trivial, .of_nil rfl rfl fun k hk ↦ .inl ?_⟩
        rw [Stage.uses, repeatedRows, List.filter_cons_of_neg (by simp [hnone])]
        exact hk
      · rename_i moment hmoment
        cases h
        have huses : (Stage.repeating now told (c :: rest) bumped).uses =
            toldRows told ++ .delivery c.delivery.1 :: repeatedRows now rest := by
          rw [Stage.uses, repeatedRows, List.filter_cons_of_pos (by simp [hmoment])]
          rfl
        rw [huses]
        have hkeep : toldRows told ++ repeatedRows now rest ⊆
            toldRows told ++ .delivery c.delivery.1 :: repeatedRows now rest := by
          intro k hk
          rw [List.mem_append, List.mem_cons]
          exact (List.mem_append.mp hk).imp_right .inr
        refine ⟨_, rfl, ?_, .updateFields (List.mem_append_right _ List.mem_cons_self) ?_⟩
        · split <;> trivial
        · split <;> exact hkeep
  | bumping now told i rest bumped =>
    cases h
    exact ⟨_, rfl, trivial, fun k hk ↦ .inl hk, fun k _ _ ↦ status_bumpRepeats db i k⟩
  | released told => cases h

end Sweeping

namespace Delivering

open Dispatching

/-- The occurrences the rest of a batch may still mark: an attempt that is going
to be aborted marks nothing. -/
def markable (memory : Memory) (batch : List Work) : List Row :=
  batch.filterMap fun w ↦ w.context.bind fun c ↦
    if isSendable (memory.occurrenceStatus c) ∧ memory.userBlocked c = false then
      some (.occurrence c.occurrence.1)
    else none

def batchRows (memory : Memory) (batch : List Work) : List Row :=
  batch.map (fun w ↦ .delivery w.id) ++ markable memory batch

def markedRows (outcome : Outcome) (memory : Memory) : List Row :=
  (outcome.marks memory).toList.map .occurrence

/-- The rows a batch was claimed or loaded with. -/
def Stage.uses : Stage → List Row
  | .claimed rows | .leased rows => rows.map fun d ↦ .delivery d.1
  | .ready batch memory => batchRows memory batch
  | .concluded w outcome _ rest memory =>
    .delivery w.id :: markedRows outcome memory ++ batchRows memory rest
  | .written _ outcome rest memory | .flagged _ outcome rest memory =>
    markedRows outcome memory ++ batchRows memory rest
  | .marked w outcome rest memory => batchRows (memory.after w outcome) rest

/-- The rows of the attempt whose verdict is written, but not committed. -/
def Stage.pending : Stage → List Row
  | .written w _ _ _ | .flagged w _ _ _ => [.delivery w.id]
  | .marked w outcome _ memory => .delivery w.id :: markedRows outcome memory
  | _ => []

def Stage.sound : Stage → Prop
  | .claimed rows | .leased rows => (rows.map Prod.fst).Nodup
  | .ready batch _ => (batch.map Work.id).Nodup
  | .concluded w _ _ rest _ | .written w _ rest _ | .flagged w _ rest _ | .marked w _ rest _ =>
    (w.id :: rest.map Work.id).Nodup

theorem mem_markable {memory : Memory} {batch : List Work} {k : Row} :
    k ∈ markable memory batch ↔ ∃ w ∈ batch, ∃ c, w.context = some c ∧
      (isSendable (memory.occurrenceStatus c) = true ∧ memory.userBlocked c = false) ∧
        k = .occurrence c.occurrence.1 := by
  simp only [markable, List.mem_filterMap, Option.bind_eq_some_iff, Option.ite_none_right_eq_some,
    Option.some_inj]
  refine exists_congr fun w ↦ and_congr_right fun _ ↦ exists_congr fun c ↦ and_congr_right fun _ ↦
    and_congr_right fun _ ↦ eq_comm

/-- An attempt marks the occurrence it was loaded with, if anything. -/
theorem marks_conclude {memory : Memory} {w : Work} {result : SendResult} {now : ℤ} {k : Row}
    (h : k ∈ markedRows (conclude memory w result now) memory) : k ∈ markable memory [w] := by
  obtain ⟨i, hi, rfl⟩ := List.mem_map.mp h
  obtain ⟨c, hc, hmarks⟩ := Option.bind_eq_some_iff.mp (Option.mem_toList.mp hi)
  rw [Option.ite_none_right_eq_some, Option.some_inj] at hmarks
  obtain ⟨hw, hcheck, -⟩ := conclude_sent hc
  have hreached : memory.userBlocked c = false := (checkDeliverable_eq_none.mp hcheck).2
  exact mem_markable.mpr
    ⟨w, List.mem_singleton_self w, c, hw, ⟨hmarks.1, hreached⟩, by rw [hmarks.2]⟩

/-- What the session itself has marked, it does not mark again. -/
theorem markable_after {memory : Memory} {w : Work} {outcome : Outcome} {rest : List Work} {k : Row}
    (h : k ∈ markable (memory.after w outcome) rest) :
    k ∈ markable memory rest ∧ k ∉ markedRows outcome memory := by
  obtain ⟨w', hw', c, hc, ⟨hsendable, hreached⟩, rfl⟩ := mem_markable.mp h
  have hsent : c.occurrence.1 ∉ (memory.after w outcome).sent := by
    intro hmem
    rw [Memory.occurrenceStatus, if_pos hmem] at hsendable
    cases hsendable
  rw [Memory.occurrenceStatus, if_neg hsent] at hsendable
  rw [Memory.after, List.mem_append, not_or] at hsent
  have hbefore := Memory.userBlocked_of_after hreached
  refine ⟨mem_markable.mpr ⟨w', hw', c, hc, ⟨?_, hbefore⟩, rfl⟩, fun hmarked ↦ hsent.1 ?_⟩
  · rw [Memory.occurrenceStatus, if_neg hsent.2]
    exact hsendable
  · obtain ⟨i, hi, heq⟩ := List.mem_map.mp hmarked
    cases heq
    exact hi

variable {final : RowStatus → Bool} {db : Database} {w : Writes} {held shared awaited : List Lock}
  {lockFor now : ℤ} {batch : ℕ} {locked : Lock → Bool} {r : Stage} {next : Option Stage}
  {answer : Option (SendResult × ℤ)}

theorem start_mindful (hfinal : ∀ status, final status = true → status.isTerminal = true)
    (h : start lockFor batch now locked db = .exec w held shared awaited next) :
    ∃ r, next = some r ∧ r.sound ∧ Mindful final [] r.uses db w ∧
      ∀ k, k ∉ r.pending → (k : Row).status (apply db w) = k.status db := by
  cases h
  have hnodup := Deliveries.nodup_claimDue now lockFor batch (fun i ↦ (forUpdate i).any locked) db
  have hsame : ∀ k : Row, k.status (apply db (Deliveries.claimed (Deliveries.claimDue now lockFor
      batch (fun i ↦ (forUpdate i).any locked) db))) = k.status db := by
    intro k
    cases k with
    | occurrence i => rfl
    | delivery i =>
      change Option.map (fun d : Delivery ↦ RowStatus.delivery d.status) _ = _
      rcases Deliveries.deliveries_claimed hnodup db i with ⟨x, hx, hi, hrow⟩ | hrow
      · obtain ⟨d, hd, -, -, hclaimed⟩ := Deliveries.mem_claimDue hx
        refine (congrArg _ hrow).trans ?_
        rw [Row.status, ← hi, hd, hclaimed]
        rfl
      · exact congrArg _ hrow
  refine ⟨_, rfl, hnodup, ⟨fun k hk ↦ .inr ?_, fun k _ _ ↦ hsame k⟩, fun k _ ↦ hsame k⟩
  obtain ⟨x, hx, rfl⟩ := List.mem_map.mp hk
  obtain ⟨d, hd, hdue, -⟩ := Deliveries.mem_claimDue hx
  rw [Deliveries.isDue, Bool.and_assoc, Bool.and_eq_true] at hdue
  exact open_delivery hfinal hd (Deliveries.isTerminal_of_isQueued hdue.1)

theorem move_mindful (hfinal : ∀ status, final status = true → status.isTerminal = true)
    (hsound : r.sound) (h : move r answer db = some (.exec w held shared awaited next)) :
    ∃ r', next = some r' ∧ r'.sound ∧ Mindful final r.uses r'.uses db w ∧
      ∀ k, k ∉ r'.pending → k ∉ r.pending ∧ (k : Row).status (apply db w) = k.status db := by
  have hread : ∀ (r' : Stage) (k : Row), r'.pending = r.pending → k ∉ r'.pending →
      k ∉ r.pending ∧ k.status (apply db ({} : Writes)) = k.status db :=
    fun r' k hpending hk ↦ ⟨hpending ▸ hk, rfl⟩
  cases r with
  | claimed rows => cases h
  | leased rows =>
    cases h
    refine ⟨_, rfl, ?_, .of_nil rfl rfl fun k hk ↦ ?_, fun k ↦ hread _ k rfl⟩
    · change ((loadWork db rows).map Work.id).Nodup
      rw [loadWork, List.map_map]
      exact hsound
    · rcases List.mem_append.mp hk with hk | hk
      · rw [loadWork, List.map_map] at hk
        exact .inl hk
      · obtain ⟨w, hw, c, hc, ⟨hsendable, -⟩, rfl⟩ := mem_markable.mp hk
        obtain ⟨x, hx, rfl⟩ := List.mem_map.mp hw
        obtain ⟨-, hrow, -⟩ := Deliveries.loadSendContext_eq_some hc
        have hopen : c.occurrence.2.status.isTerminal = false := not_isTerminal_of_isSendable hsendable
        exact .inr (open_occurrence hfinal hrow hopen)
  | ready works memory =>
    cases works with
    | nil => cases h
    | cons w rest =>
      cases answer with
      | none => cases h
      | some answer =>
        cases h
        refine ⟨_, rfl, hsound, .of_nil rfl rfl fun k hk ↦ .inl ?_, fun k ↦ hread _ k rfl⟩
        have hfirst : k ∈ markable memory [w] → k ∈ markable memory (w :: rest) := by
          intro hk
          obtain ⟨w', hw', hrest⟩ := mem_markable.mp hk
          exact mem_markable.mpr ⟨w', List.mem_singleton.mp hw' ▸ List.mem_cons_self, hrest⟩
        have hlater : k ∈ markable memory rest → k ∈ markable memory (w :: rest) := by
          intro hk
          obtain ⟨w', hw', hrest⟩ := mem_markable.mp hk
          exact mem_markable.mpr ⟨w', List.mem_cons_of_mem _ hw', hrest⟩
        simp only [Stage.uses, batchRows, List.map_cons, List.cons_append, List.mem_cons,
          List.mem_append] at hk ⊢
        rcases hk with hk | hk | hk | hk
        · exact .inl hk
        · exact .inr (.inr (hfirst (marks_conclude hk)))
        · exact .inr (.inl hk)
        · exact .inr (.inr (hlater hk))
  | concluded w outcome now rest memory =>
    cases h
    refine ⟨_, rfl, hsound, .updateFields List.mem_cons_self fun k hk ↦ List.mem_cons_of_mem _ hk,
      fun k hk ↦ ⟨List.not_mem_nil, ?_⟩⟩
    rw [status_updateFields, if_neg fun h : k = .delivery w.id ↦ hk (h ▸ List.mem_singleton_self _)]
  | written w outcome rest memory =>
    rw [move] at h
    split at h
    · cases h
      refine ⟨_, rfl, hsound, .of_nil rfl rfl fun k hk ↦ .inl hk, fun k hk ↦ ⟨hk, ?_⟩⟩
      cases k <;> rfl
    · cases h
      exact ⟨_, rfl, hsound, .of_nil rfl rfl fun k hk ↦ .inl hk, fun k ↦ hread _ k rfl⟩
  | flagged w outcome rest memory =>
    have hafter : ∀ k ∈ batchRows (memory.after w outcome) rest, k ∈ batchRows memory rest := by
      intro k hk
      exact (List.mem_append.mp hk).elim (List.mem_append_left _)
        fun hk ↦ List.mem_append_right _ (markable_after hk).1
    rw [move] at h
    split at h
    · rename_i hnone
      cases h
      refine ⟨_, rfl, hsound, .of_nil rfl rfl fun k hk ↦ .inl (List.mem_append_right _ (hafter k hk)),
        fun k hk ↦ ⟨fun hmem ↦ hk (List.mem_cons.mpr (.inl (List.mem_singleton.mp hmem))), rfl⟩⟩
    · rename_i i hmarks
      cases h
      have hmarked : markedRows outcome memory = [.occurrence i] := by
        rw [markedRows, hmarks]
        rfl
      refine ⟨_, rfl, hsound, .setStatus ?_ fun k hk ↦ List.mem_append_right _ (hafter k hk),
        fun k hk ↦ ⟨fun hmem ↦ hk (List.mem_cons.mpr (.inl (List.mem_singleton.mp hmem))), ?_⟩⟩
      · rw [Stage.uses, hmarked]
        exact List.mem_cons_self
      · rw [status_setStatus, if_neg]
        intro h
        refine hk (List.mem_cons_of_mem _ ?_)
        rw [hmarked, h]
        exact List.mem_cons_self
  | marked w outcome rest memory => cases h

theorem move_commit (hsound : r.sound) (h : move r answer db = some (.commit next)) :
    ∃ r', next = some r' ∧ r'.sound ∧ ∀ k ∈ r'.uses, k ∈ r.uses ∧ k ∉ r.pending := by
  cases r with
  | claimed rows =>
    cases h
    exact ⟨_, rfl, hsound, fun k hk ↦ ⟨hk, List.not_mem_nil⟩⟩
  | leased rows => cases h
  | ready works memory => cases works <;> cases answer <;> cases h
  | concluded w outcome now rest memory => cases h
  | written w outcome rest memory =>
    rw [move] at h
    split at h <;> cases h
  | flagged w outcome rest memory =>
    rw [move] at h
    split at h <;> cases h
  | marked w outcome rest memory =>
    cases h
    obtain ⟨hfirst, hrest⟩ := List.nodup_cons.mp hsound
    refine ⟨_, rfl, hrest, fun k hk ↦ ⟨hk, fun hpending ↦ ?_⟩⟩
    rcases List.mem_append.mp hk with hk | hk
    · obtain ⟨w', hw', rfl⟩ := List.mem_map.mp hk
      rcases List.mem_cons.mp hpending with hself | hmarked
      · exact hfirst (List.mem_map.mpr ⟨w', hw', Row.delivery.inj hself⟩)
      · obtain ⟨i, -, heq⟩ := List.mem_map.mp hmarked
        cases heq
    · rcases List.mem_cons.mp hpending with hself | hmarked
      · obtain ⟨w', hw', c, -, -, rfl⟩ := mem_markable.mp hk
        cases hself
      · exact (markable_after hk).2 hmarked

end Delivering

namespace Materializing

variable {final : RowStatus → Bool} {db : Database} {w : Writes}

theorem Adds.mindful (h : Adds db w) : Mindful final [] [] db w := by
  refine ⟨fun k hk ↦ absurd hk List.not_mem_nil, fun k _ hfinal ↦ ?_⟩
  cases k with
  | occurrence i =>
    cases ho : db.occurrences i with
    | none =>
      rw [Row.status, ho] at hfinal
      cases hfinal
    | some o => rw [Row.status, Row.status, h.occurrences i o ho, ho]
  | delivery i =>
    cases hd : db.deliveries i with
    | none =>
      rw [Row.status, hd] at hfinal
      cases hfinal
    | some d => rw [Row.status, Row.status, h.deliveries i d hd, hd]

end Materializing

namespace Stage

/-- The rows a session has found open and may write to. -/
def uses : Stage → List Row
  | .reacting r => r.uses
  | .delivering r => r.uses
  | .sweeping r => r.uses
  | _ => []

def sound : Stage → Prop
  | .reacting r => r.sound
  | .delivering r => r.sound
  | .sweeping r => r.sound
  -- Nobody shares or edits a reminder here.
  | .joining _ | .editing _ => False
  | _ => True

/-- The rows whose change is not committed. Only the dispatcher goes on after
its commit; of the others nothing has to be known. -/
def pending : Stage → Set Row
  | .idle => ∅
  | .delivering r => {k | k ∈ r.pending}
  | _ => .univ

end Stage

section Queue

variable {final : RowStatus → Bool} {settings : Settings} {s : Stage} {input : Input}
  {locked : Lock → Bool} {db : Database} {w : Writes} {held shared awaited : List Lock}
  {next : Stage}

theorem queue_eq_some {m : Move Writes Lock Stage} (h : queue settings s input locked db = some m) :
    input.isQueue = true ∧ program settings s input locked db = some m := by
  rw [queue] at h
  split at h
  · exact ⟨by assumption, h⟩
  · cases h

theorem queue_exec (hfinal : ∀ status, final status = true → status.isTerminal = true)
    (hsound : s.sound) (h : queue settings s input locked db = some (.exec w held shared awaited next)) :
    next.sound ∧ Mindful final s.uses next.uses db w ∧
      ∀ k, k ∉ next.pending → k ∉ s.pending ∧ (k : Row).status (apply db w) = k.status db := by
  obtain ⟨hqueue, h⟩ := queue_eq_some h
  have hopen : ∀ {k : Row}, k ∉ (Set.univ : Set Row) →
      k ∉ s.pending ∧ k.status (apply db w) = k.status db := fun hk ↦ absurd trivial hk
  cases s with
  | idle =>
    cases input with
    | react tap =>
      obtain ⟨next, hmove, rfl⟩ := Move.map_eq_exec (Option.some_inj.mp h)
      obtain ⟨r, rfl, hsound, hmindful⟩ := Reacting.start_mindful hfinal hmove
      exact ⟨hsound, hmindful, fun k ↦ hopen⟩
    | deliver now =>
      obtain ⟨next, hmove, rfl⟩ := Move.map_eq_exec (Option.some_inj.mp h)
      obtain ⟨r, rfl, hsound, hmindful, hpending⟩ := Delivering.start_mindful hfinal hmove
      exact ⟨hsound, hmindful, fun k hk ↦ ⟨Set.notMem_empty k, hpending k hk⟩⟩
    | sweep now =>
      obtain ⟨next, hmove, rfl⟩ := Move.map_eq_exec (Option.some_inj.mp h)
      obtain ⟨r, rfl, hsound, hmindful⟩ := Sweeping.start_mindful hfinal hmove
      exact ⟨hsound, hmindful, fun k ↦ hopen⟩
    | materialize now =>
      obtain ⟨next, hmove, rfl⟩ := Move.map_eq_exec (Option.some_inj.mp h)
      obtain ⟨r, rfl, hadds⟩ := Materializing.start_adds hmove
      exact ⟨trivial, hadds.mindful, fun k ↦ hopen⟩
    | accept request => cases hqueue
    | edit request => cases hqueue
    | answer result now => cases h
    | go => cases h
  | reacting r =>
    obtain ⟨next, hmove, rfl⟩ := Move.map_eq_exec (Option.some_inj.mp h)
    obtain ⟨r, rfl, hsound, hmindful⟩ := Reacting.move_mindful hfinal hsound hmove
    exact ⟨hsound, hmindful, fun k ↦ hopen⟩
  | delivering r =>
    obtain ⟨m, hmove, hmap⟩ := Option.map_eq_some_iff.mp h
    obtain ⟨next, rfl, rfl⟩ := Move.map_eq_exec hmap
    obtain ⟨r, rfl, hsound, hmindful, hpending⟩ := Delivering.move_mindful hfinal hsound hmove
    exact ⟨hsound, hmindful, hpending⟩
  | sweeping r =>
    obtain ⟨next, hmove, rfl⟩ := Move.map_eq_exec (Option.some_inj.mp h)
    obtain ⟨r, rfl, hsound, hmindful⟩ := Sweeping.move_mindful hfinal hsound hmove
    exact ⟨hsound, hmindful, fun k ↦ hopen⟩
  | materializing r =>
    obtain ⟨next, hmove, rfl⟩ := Move.map_eq_exec (Option.some_inj.mp h)
    obtain ⟨r, rfl, hadds⟩ := Materializing.move_adds hmove
    exact ⟨trivial, hadds.mindful, fun k ↦ hopen⟩
  | joining r => cases hsound
  | editing r => cases hsound

theorem queue_commit (hsound : s.sound) (h : queue settings s input locked db = some (.commit next)) :
    next.sound ∧ ∀ k ∈ next.uses, k ∈ s.uses ∧ k ∉ s.pending := by
  rcases program_commit (queue_eq_some h).2 with ⟨rfl, -⟩ | ⟨r, next, rfl, rfl, hmove⟩
  · exact ⟨trivial, fun k hk ↦ absurd hk List.not_mem_nil⟩
  · obtain ⟨r', rfl, hsound, huses⟩ := Delivering.move_commit hsound hmove
    exact ⟨hsound, huses⟩

theorem queue_honours (settings : Settings)
    (hfinal : ∀ status, final status = true → status.isTerminal = true) :
    Honours Row.status (fun status ↦ status.any final = true) (fun s ↦ {k | k ∈ Stage.uses s})
      Stage.pending Stage.sound (queue settings) .idle where
  idle_sound := trivial
  idle_uses := Set.eq_empty_of_forall_notMem fun k ↦ List.not_mem_nil
  exec h hsound := by
    obtain ⟨hsound, hmindful, hpending⟩ := queue_exec hfinal hsound h
    refine ⟨hsound, fun k hk ↦ ?_, hmindful.keeps, hpending⟩
    exact (hmindful.takes k hk).imp_right fun hopen ↦ by rw [hopen]; exact Bool.false_ne_true
  commit h hsound := queue_commit hsound h
  rollback h _ := by
    rw [program_rollback (queue_eq_some h).2]
    exact ⟨trivial, fun k hk ↦ absurd hk List.not_mem_nil⟩

end Queue

/-- No commit ends a row that another of these sessions has found open and may
still write to. -/
def EndsTimely (final : RowStatus → Bool) (settings : Settings) (sessions : Set ℕ) (s : Sessions)
    (e : Event Input) : Prop :=
  Timely Row.status (fun status ↦ status.any final = true) (fun s ↦ {k | k ∈ Stage.uses s})
    (queue settings) sessions s e

/-- Nobody acts on a row that has ended. -/
abbrev Quiet (final : RowStatus → Bool) (s : Sessions) : Prop :=
  Settled Row.status (fun status ↦ status.any final = true) (fun s ↦ {k | k ∈ Stage.uses s})
    Stage.pending Stage.sound s

section Runs

variable {final : RowStatus → Bool} {settings : Settings} {db : Database} {es later : List (Event Input)}
  {s s' : Sessions}

/-- In a run of timely commits a row that has ended stays as it is. -/
theorem final_stays (hfinal : ∀ status, final status = true → status.isTerminal = true)
    (htimely : Guarded (step (queue settings) .idle) (EndsTimely final settings .univ)
      (.start db .idle) (es ++ later))
    (hrun : run (step (queue settings) .idle) (.start db .idle) es = some s)
    (hlater : run (step (queue settings) .idle) s later = some s') (k : Row)
    (hk : (k.status s.committed).any final = true) :
    k.status s'.committed = k.status s.committed := by
  have hhonours := queue_honours settings hfinal
  have hsettled := ((Settled.start hhonours db).run hhonours Row.guards htimely.append_left hrun).1
  exact (hsettled.run hhonours Row.guards (htimely.append_right hrun) hlater).2 k hk

/-- Only occurrences are final. -/
def isOccurrenceEnd : RowStatus → Bool
  | .occurrence status => status.isTerminal
  | .delivery _ => false

/-- As long as nobody ends an occurrence that another transaction is still
acting on, an occurrence that has ended keeps its status. -/
theorem ended_occurrence_stays
    (htimely : Guarded (step (queue settings) .idle) (EndsTimely isOccurrenceEnd settings .univ)
      (.start db .idle) (es ++ later))
    (hrun : run (step (queue settings) .idle) (.start db .idle) es = some s)
    (hlater : run (step (queue settings) .idle) s later = some s') {i : ℕ} {o : Occurrence}
    (ho : s.committed.occurrences i = some o) (hended : o.status.isTerminal = true) :
    ∃ o', s'.committed.occurrences i = some o' ∧ o'.status = o.status := by
  have hfinal : ∀ status, isOccurrenceEnd status = true → status.isTerminal = true := by
    intro status h
    cases status with
    | occurrence status => exact h
    | delivery status => cases h
  have hkept := final_stays hfinal htimely hrun hlater (.occurrence i) (by rw [Row.status, ho]; exact hended)
  rw [Row.status, Row.status, ho] at hkept
  obtain ⟨o', ho', hstatus⟩ := Option.map_eq_some_iff.mp hkept
  exact ⟨o', ho', RowStatus.occurrence.inj hstatus⟩

end Runs

section Sample

instance (final : RowStatus → Bool) (settings : Settings) (n : ℕ) (s : Sessions) (e : Event Input) :
    Decidable (EndsTimely final settings (Set.Iio n) s e) :=
  inferInstanceAs (Decidable (∀ i ∈ s.committer (queue settings) e, ∀ j, j < n → j ≠ i →
    ∀ k ∈ (s.stage j).uses, (k.status (s.view i)).any final = true →
      (k.status s.committed).any final = true))

theorem endsTimely_all {final : RowStatus → Bool} {settings : Settings} {n : ℕ} {s : Sessions}
    {e : Event Input} (hidle : ∀ j, n ≤ j → s.stage j = .idle)
    (h : EndsTimely final settings (Set.Iio n) s e) : EndsTimely final settings .univ s e :=
  Timely.of_below (Set.eq_empty_of_forall_notMem fun _ ↦ List.not_mem_nil) hidle h

/-- One occurrence, and the owner's delivery of it. -/
def oneQueued (occurrence : OccurrenceStatus) (delivery : DeliveryStatus) : Database :=
  sampleDb [sampleOccurrence occurrence] [sampleDelivery 0 delivery]

/-- A cycle up to the point where its one message is to be sent. -/
def claimBy (i : ℕ) (now : ℤ) : List (Event Input) := .move i (.deliver now) :: going i 2

/-- The message is sent, and the cycle ends. -/
def sendBy (i : ℕ) (now : ℤ) : List (Event Input) :=
  .move i (.answer (.delivered 7) now) :: going i 5

def sweepBy (i : ℕ) (now : ℤ) (statements : ℕ) : List (Event Input) :=
  .move i (.sweep now) :: going i statements

/-- The message goes out, and the silence that follows it is swept up. -/
def sentThenExpired : List (Event Input) :=
  claimBy 0 (5 * day) ++ sendBy 0 (5 * day) ++ sweepBy 1 (6 * day + minute) 6

/-- The next cycle finds nothing to send. -/
def emptyCycle : List (Event Input) := claimBy 0 (6 * day + hour) ++ going 0 1

theorem ended_occurrence_stays_sample :
    ∃ (s s' : Sessions) (o o' : Occurrence),
      run (step (queue sampleSettings) .idle) (.start (oneQueued .pending .pending) .idle)
        sentThenExpired = some s ∧
      run (step (queue sampleSettings) .idle) s emptyCycle = some s' ∧
      s.committed.occurrences 0 = some o ∧ o.status = .expired ∧
        s'.committed.occurrences 0 = some o' ∧ o'.status = o.status := by
  have hruns : (run (step (queue sampleSettings) .idle)
      (.start (oneQueued .pending .pending) .idle : Sessions) sentThenExpired).any (fun s ↦
        (s.committed.occurrences 0).any (fun o ↦ decide (o.status = .expired)) &&
          (run (step (queue sampleSettings) .idle) s emptyCycle).isSome) = true := by
    decide +kernel
  obtain ⟨s, hrun, hruns⟩ := (Option.any_eq_true _ _).mp hruns
  rw [Bool.and_eq_true, Option.any_eq_true] at hruns
  obtain ⟨⟨o, ho, hexpired⟩, hlater⟩ := hruns
  have hexpired := of_decide_eq_true hexpired
  obtain ⟨s', hlater⟩ := Option.isSome_iff_exists.mp hlater
  have htimely : Guarded (step (queue sampleSettings) .idle)
      (EndsTimely isOccurrenceEnd sampleSettings (Set.Iio 2))
      (.start (oneQueued .pending .pending) .idle) (sentThenExpired ++ emptyCycle) := by
    decide +kernel
  have htimely := Guarded.of_below (fun s e hidle h ↦ endsTimely_all hidle h) (fun _ _ ↦ rfl)
    (by decide) htimely
  obtain ⟨o', ho', hsame⟩ := ended_occurrence_stays htimely hrun hlater ho (by rw [hexpired]; rfl)
  exact ⟨s, s', o, o', hrun, hlater, ho, hexpired, ho', hsame⟩

/-- The context of the batch is loaded, the occurrence expires, and then the
message goes out. -/
theorem late_batch_revives :
    ∃ (s s' : Sessions) (o o' : Occurrence),
      run (step (queue sampleSettings) .idle) (.start (oneQueued .pending .pending) .idle)
        (claimBy 0 (6 * day - minute) ++ sweepBy 1 (6 * day + minute) 5) = some s ∧
      run (step (queue sampleSettings) .idle) s (sendBy 0 (6 * day + minute)) = some s' ∧
      s.committed.occurrences 0 = some o ∧ o.status.isTerminal = true ∧
        s'.committed.occurrences 0 = some o' ∧ o'.status ≠ o.status := by
  have hruns : (run (step (queue sampleSettings) .idle)
      (.start (oneQueued .pending .pending) .idle : Sessions)
      (claimBy 0 (6 * day - minute) ++ sweepBy 1 (6 * day + minute) 5)).any (fun s ↦
        (run (step (queue sampleSettings) .idle) s (sendBy 0 (6 * day + minute))).any fun s' ↦
          (s.committed.occurrences 0).any fun o ↦ (s'.committed.occurrences 0).any fun o' ↦
            decide (o.status.isTerminal = true ∧ o'.status ≠ o.status)) = true := by
    decide +kernel
  obtain ⟨s, hrun, hruns⟩ := (Option.any_eq_true _ _).mp hruns
  obtain ⟨s', hlater, hruns⟩ := (Option.any_eq_true _ _).mp hruns
  obtain ⟨o, ho, hruns⟩ := (Option.any_eq_true _ _).mp hruns
  obtain ⟨o', ho', hruns⟩ := (Option.any_eq_true _ _).mp hruns
  have hrevived := of_decide_eq_true hruns
  exact ⟨s, s', o, o', hrun, hlater, ho, hrevived.1, ho', hrevived.2⟩

end Sample

end Remindo.Concurrent
