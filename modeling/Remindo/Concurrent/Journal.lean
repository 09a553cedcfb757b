import Remindo.Concurrent.Finality

namespace Remindo.Concurrent

open Remindo.Domain Remindo.Db Remindo.Services Remindo.Foundation Remindo.Foundation.ReadCommitted

/-- The foreign key of a row of the queue. -/
def Row.parent : Row → Database → Option ℕ
  | .occurrence i, db => (db.occurrences i).map Occurrence.reminderId
  | .delivery i, db => (db.deliveries i).map Delivery.occurrenceId

theorem Row.guards_parent : ∀ k : Row, Guards Writes k.lock k.parent
  | .occurrence i => (guards_occurrences i).comp (Option.map Occurrence.reminderId)
  | .delivery i => (guards_deliveries i).comp (Option.map Delivery.occurrenceId)

/-- The statement takes no row of the queue away from its parent. -/
def Keeps (db : Database) (w : Writes) : Prop :=
  ∀ k : Row, (k.parent db).isSome = true → k.parent (apply db w) = k.parent db

section Links

variable {settings : Settings} {db : Database} {w : Writes} {held shared awaited : List Lock}
  {batch : ℕ} {answer : Option (SendResult × ℤ)}

theorem Keeps.of_nil (hoccurrences : w.occurrences = []) (hdeliveries : w.deliveries = []) :
    Keeps db w := by
  intro k _
  cases k with
  | occurrence i => simp [Row.parent, apply, hoccurrences]
  | delivery i => simp [Row.parent, apply, hdeliveries]

theorem Keeps.updateFields {values : Delivery → Delivery}
    (h : ∀ d, (values d).occurrenceId = d.occurrenceId) (i : ℕ) :
    Keeps db (Deliveries.updateFields i values db) := by
  intro k _
  cases k with
  | occurrence j => rfl
  | delivery j =>
    change ((db.run (Deliveries.updateFields i values)).deliveries j).map _ = _
    rw [Deliveries.deliveries_updateFields]
    split
    · rename_i hj
      rw [hj, Option.map_map, Row.parent]
      exact Option.map_congr fun d _ ↦ h d
    · rfl

theorem Keeps.releaseStaleLocks (now : ℤ) : Keeps db (Deliveries.releaseStaleLocks now db) := by
  intro k _
  cases k with
  | occurrence j => rfl
  | delivery j =>
    change ((db.run (Deliveries.releaseStaleLocks now)).deliveries j).map _ = _
    rw [Deliveries.deliveries_releaseStaleLocks, Option.map_map]
    refine Option.map_congr fun d _ ↦ ?_
    dsimp only [Function.comp]
    split <;> rfl

theorem Keeps.updateOccurrence {i : ℕ} {f : Occurrence → Occurrence}
    (h : ∀ o, (f o).reminderId = o.reminderId) :
    Keeps db { occurrences := db.occurrences.update i f } := by
  intro k _
  cases k with
  | delivery j => rfl
  | occurrence j =>
    change ((db.occurrences.writes (db.occurrences.update i f)).rows j).map _ = _
    rw [Table.writes_update]
    split
    · rename_i hj
      rw [hj, Option.map_map, Row.parent]
      exact Option.map_congr fun o _ ↦ h o
    · rfl

theorem Reacting.move_keeps {r : Reacting.Stage} {next : Option Reacting.Stage}
    (h : Reacting.move r db = .exec w held shared awaited next) : Keeps db w := by
  revert h
  fun_cases Reacting.move r db <;> intro h <;> cases h <;> first
    | exact .of_nil rfl rfl
    | refine .updateFields ?_ _; intro d; rfl
    | refine .updateOccurrence ?_; intro o; rfl

theorem Sweeping.move_keeps {r : Sweeping.Stage} {next : Option Sweeping.Stage}
    (h : Sweeping.move batch r db = .exec w held shared awaited next) : Keeps db w := by
  revert h
  fun_cases Sweeping.move batch r db <;> intro h <;> cases h <;> first
    | exact .of_nil rfl rfl
    | exact .releaseStaleLocks _
    | refine .updateFields ?_ _; intro d; rfl
    | refine .updateOccurrence ?_; intro o; rfl

theorem Delivering.start_keeps {lockFor now : ℤ} {locked : Lock → Bool}
    {next : Option Delivering.Stage}
    (h : Delivering.start lockFor batch now locked db = .exec w held shared awaited next) :
    Keeps db w := by
  cases h
  intro k _
  cases k with
  | occurrence i => rfl
  | delivery i =>
    have hnodup := Deliveries.nodup_claimDue now lockFor batch (fun i ↦ (forUpdate i).any locked) db
    change Option.map Delivery.occurrenceId _ = _
    rcases Deliveries.deliveries_claimed hnodup db i with ⟨x, hx, hi, hrow⟩ | hrow
    · obtain ⟨d, hd, -, -, hclaimed⟩ := Deliveries.mem_claimDue hx
      refine (congrArg _ hrow).trans ?_
      rw [Row.parent, ← hi, hd, hclaimed]
      rfl
    · exact congrArg _ hrow

theorem Delivering.move_keeps {r : Delivering.Stage} {next : Option Delivering.Stage}
    (h : Delivering.move r answer db = some (.exec w held shared awaited next)) : Keeps db w := by
  revert h
  fun_cases Delivering.move r answer db <;> intro h <;> cases h <;> first
    | exact .of_nil rfl rfl
    | refine .updateFields ?_ _; intro d; rfl
    | refine .updateOccurrence ?_; intro o; rfl

theorem Materializing.Adds.keeps (h : Materializing.Adds db w) : Keeps db w := by
  intro k hk
  cases k with
  | occurrence i =>
    obtain ⟨_, hk⟩ := Option.isSome_iff_exists.mp hk
    obtain ⟨o, ho, -⟩ := Option.map_eq_some_iff.mp hk
    rw [Row.parent, Row.parent, h.occurrences i o ho, ho]
  | delivery i =>
    obtain ⟨_, hk⟩ := Option.isSome_iff_exists.mp hk
    obtain ⟨d, hd, -⟩ := Option.map_eq_some_iff.mp hk
    rw [Row.parent, Row.parent, h.deliveries i d hd, hd]

theorem queue_keeps {s next : Stage} {input : Input} {locked : Lock → Bool} (hsound : s.sound)
    (h : queue settings s input locked db = some (.exec w held shared awaited next)) :
    Keeps db w := by
  obtain ⟨hqueue, h⟩ := queue_eq_some h
  cases s with
  | idle =>
    cases input with
    | react tap =>
      obtain ⟨next, hmove, -⟩ := Move.map_eq_exec (Option.some_inj.mp h)
      rw [Reacting.start] at hmove
      split at hmove <;> cases hmove
      exact .of_nil rfl rfl
    | deliver now =>
      obtain ⟨next, hmove, -⟩ := Move.map_eq_exec (Option.some_inj.mp h)
      exact Delivering.start_keeps hmove
    | sweep now =>
      obtain ⟨next, hmove, -⟩ := Move.map_eq_exec (Option.some_inj.mp h)
      cases hmove
      exact .of_nil rfl rfl
    | materialize now =>
      obtain ⟨next, hmove, -⟩ := Move.map_eq_exec (Option.some_inj.mp h)
      cases hmove
      exact .of_nil rfl rfl
    | accept request => cases hqueue
    | edit request => cases hqueue
    | answer result now => cases h
    | go => cases h
  | reacting r =>
    obtain ⟨next, hmove, -⟩ := Move.map_eq_exec (Option.some_inj.mp h)
    exact Reacting.move_keeps hmove
  | delivering r =>
    obtain ⟨m, hmove, hmap⟩ := Option.map_eq_some_iff.mp h
    obtain ⟨next, rfl, -⟩ := Move.map_eq_exec hmap
    exact Delivering.move_keeps hmove
  | sweeping r =>
    obtain ⟨next, hmove, -⟩ := Move.map_eq_exec (Option.some_inj.mp h)
    exact Sweeping.move_keeps hmove
  | materializing r =>
    obtain ⟨next, hmove, -⟩ := Move.map_eq_exec (Option.some_inj.mp h)
    exact (Materializing.move_adds hmove).choose_spec.2.keeps
  | joining r => cases hsound
  | editing r => cases hsound

/-- Parents are there to stay, so that everybody may act on them. -/
theorem queue_links (settings : Settings) :
    Honours Row.parent (fun parent ↦ parent.isSome = true) (fun _ ↦ ∅) (fun _ ↦ .univ)
      Stage.sound (queue settings) .idle where
  idle_sound := trivial
  idle_uses := rfl
  exec h hsound :=
    ⟨(queue_exec (fun _ h ↦ h) hsound h).1, fun _ hk ↦ absurd hk (Set.notMem_empty _),
      fun k _ hk ↦ queue_keeps hsound h k hk, fun k hk ↦ absurd trivial hk⟩
  commit h hsound := ⟨(queue_commit hsound h).1, fun _ hk ↦ absurd hk (Set.notMem_empty _)⟩
  rollback h _ := by
    rw [program_rollback (queue_eq_some h).2]
    exact ⟨trivial, Set.empty_subset _⟩

/-- Everybody sees the parents there are. -/
abbrev Linked (s : Sessions) : Prop :=
  Settled Row.parent (fun parent ↦ parent.isSome = true) (fun _ ↦ ∅) (fun _ ↦ .univ) Stage.sound s

theorem timely_links (s : Sessions) (e : Event Input) :
    Timely Row.parent (fun parent ↦ parent.isSome = true) (fun _ ↦ ∅) (queue settings) .univ s e :=
  fun _ _ _ _ _ _ hk ↦ absurd hk (Set.notMem_empty _)

end Links

/-- A delivery is over with its own status, or with its occurrence. -/
def isSettling : RowStatus → Bool
  | .delivery status => status.isTerminal
  | .occurrence status => decide (status = .expired)

theorem isTerminal_of_isSettling (status : RowStatus) (h : isSettling status = true) :
    status.isTerminal = true := by
  cases status with
  | delivery status => exact h
  | occurrence status => rw [of_decide_eq_true h]; rfl

/-- Entry `a` of the journal is an outcome of delivery `i`. -/
def IsOutcome (db : Database) (a i : ℕ) : Prop :=
  ∃ row, db.actions a = some row ∧ row.deliveryId = i ∧ row.kind.isOutcome = true

def Over (db : Database) (i : ℕ) : Prop :=
  ∃ j, (Row.delivery i).parent db = some j ∧
    (((Row.delivery i).status db).any isSettling = true ∨
      ((Row.occurrence j).status db).any isSettling = true)

/-- The journal has at most one outcome of a delivery, and only of one that is
over. -/
structure Journaled (db : Database) : Prop where
  once : ∀ a a' i, IsOutcome db a i → IsOutcome db a' i → a = a'
  ended : ∀ a i, IsOutcome db a i → Over db i

namespace Reacting.Stage

/-- The delivery the transaction has journaled an outcome of, with its occurrence. -/
def outcomes : Stage → List (ℕ × ℕ)
  | .journaled tap d reaction =>
    if reaction.isTerminal then [(tap.deliveryId, d.occurrenceId)] else []
  | .counted tap d _ | .closed tap d => [(tap.deliveryId, d.occurrenceId)]
  | _ => []

/-- The delivery the transaction has ended. -/
def ended : Stage → List Row
  | .written tap _ reaction _ | .journaled tap _ reaction =>
    if reaction.isTerminal then [.delivery tap.deliveryId] else []
  | .counted tap _ _ | .closed tap _ => [.delivery tap.deliveryId]
  | _ => []

end Reacting.Stage

namespace Sweeping.Stage

def told : Stage → List (ℕ × Delivery)
  | .expiring _ told _ | .journaling _ told _ _ _ | .repeating _ told _ _ | .bumping _ told _ _ _
  | .released told => told

def sent : Stage → List (ℕ × Delivery)
  | .journaling _ _ _ sent _ => sent
  | _ => []

def listed : Stage → List (ℕ × Occurrence)
  | .expiring _ _ rest => rest
  | .journaling _ _ o _ rest => o :: rest
  | _ => []

/-- The occurrence whose silence is being journaled is still to be ended. -/
def ended (r : Stage) : List Row :=
  (r.told.filter fun d ↦ decide (d.2.occurrenceId ∉ r.listed.map Prod.fst)).map
    fun d ↦ .occurrence d.2.occurrenceId

end Sweeping.Stage

namespace Stage

def outcomes : Stage → List (ℕ × ℕ)
  | .reacting r => r.outcomes
  | .sweeping r => r.told.map fun d ↦ (d.1, d.2.occurrenceId)
  | _ => []

/-- The rows the transaction has read, with their parents. -/
def known : Stage → List (Row × ℕ)
  | .reacting r => [(.delivery r.tap.deliveryId, r.row.occurrenceId)]
  | .sweeping r => (r.told ++ r.sent).map (fun d ↦ (.delivery d.1, d.2.occurrenceId)) ++
      r.listed.map fun o ↦ (.occurrence o.1, o.2.reminderId)
  | _ => []

def ended : Stage → List Row
  | .reacting r => r.ended
  | .sweeping r => r.ended
  | _ => []

variable {s : Stage} {x : ℕ × ℕ}

theorem known_of_outcomes (h : x ∈ s.outcomes) : (.delivery x.1, x.2) ∈ s.known := by
  cases s with
  | reacting r =>
    cases r with
    | journaled tap d reaction =>
      rw [outcomes, Reacting.Stage.outcomes] at h
      split at h
      · rw [List.mem_singleton.mp h]
        exact List.mem_singleton_self _
      · cases h
    | counted tap d status =>
      rw [List.mem_singleton.mp h]
      exact List.mem_singleton_self _
    | closed tap d =>
      rw [List.mem_singleton.mp h]
      exact List.mem_singleton_self _
    | _ => cases h
  | sweeping r =>
    obtain ⟨d, hd, rfl⟩ := List.mem_map.mp h
    exact List.mem_append_left _ (List.mem_map.mpr ⟨d, List.mem_append_left _ hd, rfl⟩)
  | _ => cases h

/-- A transaction acts on what it has journaled until it ends. -/
theorem uses_of_outcomes (h : x ∈ s.outcomes) :
    .delivery x.1 ∈ s.uses ∧ .occurrence x.2 ∈ s.uses := by
  cases s with
  | reacting r =>
    cases r with
    | journaled tap d reaction =>
      rw [outcomes, Reacting.Stage.outcomes] at h
      split at h
      · rename_i hterminal
        rw [List.mem_singleton.mp h, uses, Reacting.Stage.uses, if_pos hterminal]
        exact ⟨List.mem_cons_self, List.mem_cons_of_mem _ List.mem_cons_self⟩
      · cases h
    | counted tap d status =>
      rw [List.mem_singleton.mp h]
      exact ⟨List.mem_cons_self, List.mem_cons_of_mem _ List.mem_cons_self⟩
    | closed tap d =>
      rw [List.mem_singleton.mp h]
      exact ⟨List.mem_cons_self, List.mem_cons_of_mem _ List.mem_cons_self⟩
    | _ => cases h
  | sweeping r =>
    obtain ⟨d, hd, rfl⟩ := List.mem_map.mp h
    have htold : .delivery d.1 ∈ Sweeping.toldRows r.told ∧
        .occurrence d.2.occurrenceId ∈ Sweeping.toldRows r.told :=
      ⟨List.mem_flatMap.mpr ⟨d, hd, List.mem_cons_self⟩,
        List.mem_flatMap.mpr ⟨d, hd, List.mem_cons_of_mem _ List.mem_cons_self⟩⟩
    cases r with
    | expiring now told rest => exact htold.imp (List.mem_append_left _) (List.mem_append_left _)
    | journaling now told o sent rest =>
      exact htold.imp (fun h ↦ List.mem_append_left _ (List.mem_append_left _ h))
        fun h ↦ List.mem_append_left _ (List.mem_append_left _ h)
    | repeating now told candidates bumped =>
      exact htold.imp (List.mem_append_left _) (List.mem_append_left _)
    | bumping now told i candidates bumped =>
      exact htold.imp (List.mem_append_left _) (List.mem_append_left _)
    | released told => exact htold
  | _ => cases h

theorem ended_of_commit {settings : Settings} {input : Input} {locked : Lock → Bool}
    {db : Database} {next : Stage} (h : x ∈ s.outcomes)
    (hcommit : program settings s input locked db = some (.commit next)) :
    .delivery x.1 ∈ s.ended ∨ .occurrence x.2 ∈ s.ended := by
  cases s with
  | reacting r =>
    cases r with
    | journaled tap d reaction =>
      rw [outcomes, Reacting.Stage.outcomes] at h
      split at h
      · rename_i hterminal
        rw [List.mem_singleton.mp h, ended, Reacting.Stage.ended, if_pos hterminal]
        exact .inl (List.mem_singleton_self _)
      · cases h
    | counted tap d status =>
      rw [List.mem_singleton.mp h]
      exact .inl (List.mem_singleton_self _)
    | closed tap d =>
      rw [List.mem_singleton.mp h]
      exact .inl (List.mem_singleton_self _)
    | _ => cases h
  | sweeping r =>
    obtain ⟨d, hd, rfl⟩ := List.mem_map.mp h
    obtain ⟨next, hmove, -⟩ := Move.map_eq_commit (Option.some_inj.mp hcommit)
    have hlisted : r.listed = [] := by
      revert hmove
      fun_cases Sweeping.move settings.reaperBatch r db <;> intro hmove <;> cases hmove
      rfl
    refine .inr (List.mem_map.mpr ⟨d, List.mem_filter.mpr ⟨hd, ?_⟩, rfl⟩)
    rw [hlisted]
    rfl
  | _ => cases h

end Stage

/-- What one statement adds to what the transaction has read, ended and
journaled. -/
structure Progress (s next : Stage) (db : Database) (w : Writes) : Prop where
  known : ∀ x ∈ next.known, x ∈ s.known ∨ x.1.parent db = some x.2
  ended : ∀ k ∈ next.ended, k ∈ s.ended ∧ k.status (apply db w) = k.status db ∨
    k.lock ∈ locks w ∧ (k.status (apply db w)).any isSettling = true
  outcomes : ∀ x ∈ s.outcomes, x ∈ next.outcomes
  actions : w.actions = [] ∨ ∃ action, w = Deliveries.addAction action db ∧
    (action.kind.isOutcome = true → (∃ j, (action.deliveryId, j) ∈ next.outcomes) ∧
      ∀ j, (action.deliveryId, j) ∉ s.outcomes)

section Statements

variable {settings : Settings} {db : Database} {w : Writes} {held shared awaited : List Lock}
  {batch : ℕ}

theorem delivery_mem_locks {i : ℕ} {d : Delivery} (hd : db.deliveries i = some d)
    (values : Delivery → Delivery) : Lock.delivery i ∈ locks (Deliveries.updateFields i values db) := by
  simp [locks, Writes.locks, mem_rowLocks, Deliveries.updateFields, Table.update, hd]

theorem occurrence_mem_locks {i : ℕ} {o : Occurrence} (ho : db.occurrences i = some o)
    (status : OccurrenceStatus) : Lock.occurrence i ∈ locks (Occurrences.setStatus i status db) := by
  simp [locks, Writes.locks, mem_rowLocks, Occurrences.setStatus, Table.update, ho]

theorem Progress.of_blank {s next : Stage} (hknown : next.known = []) (hended : next.ended = [])
    (houtcomes : s.outcomes = []) (hactions : w.actions = []) : Progress s next db w where
  known x hx := by rw [hknown] at hx; cases hx
  ended k hk := by rw [hended] at hk; cases hk
  outcomes x hx := by rw [houtcomes] at hx; cases hx
  actions := .inl hactions

theorem Reacting.start_progress {tap : Reacting.Tap} {next : Option Reacting.Stage}
    (h : Reacting.start tap db = .exec w held shared awaited next) :
    Progress .idle (.of .reacting next) db w := by
  rw [Reacting.start] at h
  split at h
  · cases h
  · rename_i d hd
    cases h
    refine ⟨fun x hx ↦ .inr ?_, List.forall_mem_nil _, List.forall_mem_nil _, .inl rfl⟩
    rw [List.mem_singleton.mp hx, Row.parent]
    exact congrArg _ hd

theorem Reacting.move_progress {r : Reacting.Stage} {next : Option Reacting.Stage}
    (hsound : r.sound) (hknown : (Row.delivery r.tap.deliveryId).parent db = some r.row.occurrenceId)
    (h : Reacting.move r db = .exec w held shared awaited next) :
    Progress (.reacting r) (.of .reacting next) db w := by
  obtain ⟨d₀, hd₀, -⟩ := Option.map_eq_some_iff.mp hknown
  cases r with
  | locked tap d =>
    rw [Reacting.move] at h
    split at h
    · cases h
    · split at h <;> cases h
      exact ⟨fun x hx ↦ .inl hx, List.forall_mem_nil _, List.forall_mem_nil _, .inl rfl⟩
  | opened tap d o =>
    rw [Reacting.move] at h
    split at h
    · cases h
    · split at h <;> cases h
      exact ⟨fun x hx ↦ .inl hx, List.forall_mem_nil _, List.forall_mem_nil _, .inl rfl⟩
  | timed tap d o snoozeMinutes =>
    rw [Reacting.move] at h
    split at h
    · cases h
    · split at h <;> cases h
      exact ⟨fun x hx ↦ .inl hx, List.forall_mem_nil _, List.forall_mem_nil _, .inl rfl⟩
  | decided tap d reaction snoozeMinutes =>
    cases h
    refine ⟨fun x hx ↦ .inl hx, fun k hk ↦ .inr ?_, List.forall_mem_nil _, .inl rfl⟩
    change k ∈ (if reaction.isTerminal = true then [Row.delivery tap.deliveryId] else []) at hk
    split at hk
    · rename_i hterminal
      rw [List.mem_singleton.mp hk]
      refine ⟨delivery_mem_locks hd₀ _, ?_⟩
      rw [status_updateFields, if_pos rfl, show db.deliveries tap.deliveryId = some d₀ from hd₀]
      exact hterminal
    · cases hk
  | written tap d reaction snoozeMinutes =>
    cases h
    refine ⟨fun x hx ↦ .inl hx, fun k hk ↦ .inl ⟨hk, status_of_nil rfl rfl k⟩,
      List.forall_mem_nil _, .inr ⟨_, rfl, fun houtcome ↦ ⟨⟨d.occurrenceId, ?_⟩,
        fun _ ↦ List.not_mem_nil⟩⟩⟩
    have houtcomes : (Stage.reacting (.journaled tap d reaction)).outcomes =
        [(tap.deliveryId, d.occurrenceId)] := if_pos (hsound houtcome)
    exact houtcomes.symm ▸ List.mem_singleton_self (tap.deliveryId, d.occurrenceId)
  | journaled tap d reaction =>
    rw [Reacting.move] at h
    split at h
    · rename_i hterminal
      cases h
      have hended : (Stage.reacting (.journaled tap d reaction)).ended = [.delivery tap.deliveryId] :=
        if_pos hterminal
      have houtcomes : (Stage.reacting (.journaled tap d reaction)).outcomes =
          [(tap.deliveryId, d.occurrenceId)] := if_pos hterminal
      refine ⟨fun x hx ↦ .inl hx, fun k hk ↦ .inl ⟨hended ▸ hk, status_of_nil rfl rfl k⟩,
        fun x hx ↦ ?_, .inl rfl⟩
      rw [houtcomes] at hx
      exact hx
    · cases h
  | counted tap d status =>
    cases status with
    | none => cases h
    | some status =>
      cases h
      refine ⟨fun x hx ↦ .inl hx, fun k hk ↦ .inl ⟨hk, ?_⟩, fun x hx ↦ hx, .inl rfl⟩
      rw [List.mem_singleton.mp hk, status_setStatus, if_neg (by simp)]
  | closed tap d => cases h

theorem Sweeping.start_progress {now : ℤ} {next : Option Sweeping.Stage}
    (h : Sweeping.start batch now db = .exec w held shared awaited next) :
    Progress .idle (.of .sweeping next) db w := by
  cases h
  refine ⟨fun x hx ↦ .inr ?_, List.forall_mem_nil _, List.forall_mem_nil _, .inl rfl⟩
  obtain ⟨o, ho, rfl⟩ := List.mem_map.mp hx
  obtain ⟨hrow, -⟩ := Occurrences.mem_listExpired (List.mem_of_mem_filter ho)
  exact congrArg (Option.map Occurrence.reminderId) hrow

theorem Sweeping.known_told {r : Sweeping.Stage} {d : ℕ × Delivery} (h : d ∈ r.told) :
    ((.delivery d.1, d.2.occurrenceId) : Row × ℕ) ∈ (Stage.sweeping r).known :=
  List.mem_append_left _ (List.mem_map.mpr ⟨d, List.mem_append_left _ h, rfl⟩)

theorem Sweeping.known_sent {r : Sweeping.Stage} {d : ℕ × Delivery} (h : d ∈ r.sent) :
    ((.delivery d.1, d.2.occurrenceId) : Row × ℕ) ∈ (Stage.sweeping r).known :=
  List.mem_append_left _ (List.mem_map.mpr ⟨d, List.mem_append_right _ h, rfl⟩)

theorem Sweeping.known_listed {r : Sweeping.Stage} {o : ℕ × Occurrence} (h : o ∈ r.listed) :
    ((.occurrence o.1, o.2.reminderId) : Row × ℕ) ∈ (Stage.sweeping r).known :=
  List.mem_append_right _ (List.mem_map.mpr ⟨o, h, rfl⟩)

theorem Sweeping.mem_known {r : Sweeping.Stage} {x : Row × ℕ} (h : x ∈ (Stage.sweeping r).known) :
    (∃ d, (d ∈ r.told ∨ d ∈ r.sent) ∧ x = (.delivery d.1, d.2.occurrenceId)) ∨
      ∃ o ∈ r.listed, x = (.occurrence o.1, o.2.reminderId) := by
  rcases List.mem_append.mp h with h | h
  · obtain ⟨d, hd, rfl⟩ := List.mem_map.mp h
    exact .inl ⟨d, List.mem_append.mp hd, rfl⟩
  · obtain ⟨o, ho, rfl⟩ := List.mem_map.mp h
    exact .inr ⟨o, ho, rfl⟩

theorem Sweeping.mem_ended {r : Sweeping.Stage} {k : Row} :
    k ∈ (Stage.sweeping r).ended ↔
      ∃ d ∈ r.told, d.2.occurrenceId ∉ r.listed.map Prod.fst ∧ k = .occurrence d.2.occurrenceId := by
  change k ∈ r.ended ↔ _
  simp only [Sweeping.Stage.ended, List.mem_map, List.mem_filter, decide_eq_true_eq]
  refine exists_congr fun d ↦ ?_
  rw [and_assoc, @eq_comm _ k]

theorem Sweeping.progress_of_eq {r r' : Sweeping.Stage} (htold : r'.told = r.told)
    (hsent : r'.sent ⊆ r.sent) (hlisted : r'.listed = r.listed) (hactions : w.actions = [])
    (hstatus : ∀ i, (Row.occurrence i).status (apply db w) = (Row.occurrence i).status db) :
    Progress (.sweeping r) (.sweeping r') db w := by
  refine ⟨fun x hx ↦ .inl ?_, fun k hk ↦ .inl ?_, fun x hx ↦ ?_, .inl hactions⟩
  · rcases Sweeping.mem_known hx with ⟨d, hd | hd, rfl⟩ | ⟨o, ho, rfl⟩
    · exact Sweeping.known_told (htold ▸ hd)
    · exact Sweeping.known_sent (hsent hd)
    · exact Sweeping.known_listed (hlisted ▸ ho)
  · rw [Sweeping.mem_ended, htold, hlisted] at hk
    obtain ⟨d, hd, hfree, rfl⟩ := hk
    exact ⟨Sweeping.mem_ended.mpr ⟨d, hd, hfree, rfl⟩, hstatus _⟩
  · change x ∈ r'.told.map _
    rw [htold]
    exact hx

theorem Sweeping.journaling_progress {now : ℤ} {told sent : List (ℕ × Delivery)}
    {o : ℕ × Occurrence} {d : ℕ × Delivery} {rest : List (ℕ × Occurrence)}
    (hsound : (Sweeping.Stage.journaling now told o (d :: sent) rest).sound)
    (hknown : ∀ x ∈ (Stage.sweeping (.journaling now told o (d :: sent) rest)).known,
      x.1.parent db = some x.2) :
    Progress (.sweeping (.journaling now told o (d :: sent) rest))
      (.sweeping (.journaling now (d :: told) o sent rest)) db
      (Deliveries.addAction (Reaper.autoExpire now d) db) := by
  obtain ⟨-, -, -, hparents, hfresh⟩ := hsound
  have hd : d.2.occurrenceId = o.1 := hparents d List.mem_cons_self
  refine ⟨fun x hx ↦ .inl ?_, fun k hk ↦ .inl ⟨?_, status_of_nil rfl rfl k⟩,
    fun x hx ↦ List.mem_cons_of_mem _ hx, .inr ⟨_, rfl, fun _ ↦
      ⟨⟨d.2.occurrenceId, List.mem_cons_self⟩, fun j hj ↦ ?_⟩⟩⟩
  · rcases mem_known hx with ⟨d', hd' | hd', rfl⟩ | ⟨o', ho, rfl⟩
    · rcases List.mem_cons.mp hd' with rfl | hd'
      · exact known_sent List.mem_cons_self
      · exact known_told hd'
    · exact known_sent (List.mem_cons_of_mem _ hd')
    · exact known_listed ho
  · obtain ⟨d', hd', hfree, rfl⟩ := mem_ended.mp hk
    have hfree : d'.2.occurrenceId ∉ (o :: rest).map Prod.fst := hfree
    have hd' : d' ∈ told := by
      refine (List.mem_cons.mp hd').resolve_left fun hself ↦ hfree ?_
      rw [hself, hd]
      exact List.mem_cons_self
    exact mem_ended.mpr ⟨d', hd', hfree, rfl⟩
  · obtain ⟨t, ht, heq⟩ := List.mem_map.mp hj
    have htid : t.1 = d.1 := (Prod.mk.inj heq).1
    have hone : (Row.delivery t.1).parent db = some t.2.occurrenceId := hknown _ (known_told ht)
    have htwo : (Row.delivery d.1).parent db = some d.2.occurrenceId :=
      hknown _ (known_sent List.mem_cons_self)
    rw [htid, htwo, Option.some_inj] at hone
    refine hfresh t ht (hone.symm.trans hd) ?_
    rw [htid]
    exact List.mem_cons_self

theorem Sweeping.expire_progress {now : ℤ} {told : List (ℕ × Delivery)} {o : ℕ × Occurrence}
    {rest : List (ℕ × Occurrence)} (hsound : (Sweeping.Stage.journaling now told o [] rest).sound)
    (hknown : ∀ x ∈ (Stage.sweeping (.journaling now told o [] rest)).known,
      x.1.parent db = some x.2) :
    Progress (.sweeping (.journaling now told o [] rest)) (.sweeping (.expiring now told rest)) db
      (Occurrences.setStatus o.1 .expired db) := by
  obtain ⟨-, htold, -⟩ := hsound
  have hthere : (Row.occurrence o.1).parent db = some o.2.reminderId :=
    hknown _ (known_listed List.mem_cons_self)
  obtain ⟨o₀, ho₀, -⟩ := Option.map_eq_some_iff.mp hthere
  refine ⟨fun x hx ↦ .inl ?_, fun k hk ↦ ?_, fun x hx ↦ hx, .inl rfl⟩
  · rcases mem_known hx with ⟨d, hd | hd, rfl⟩ | ⟨o', ho, rfl⟩
    · exact known_told hd
    · cases hd
    · exact known_listed (List.mem_cons_of_mem _ ho)
  · obtain ⟨d, hd, hfree, rfl⟩ := mem_ended.mp hk
    rw [status_setStatus]
    by_cases ho : d.2.occurrenceId = o.1
    · rw [ho, if_pos rfl, ho₀]
      exact .inr ⟨occurrence_mem_locks ho₀ _, rfl⟩
    · rw [if_neg fun h ↦ ho (Row.occurrence.inj h)]
      have hfree : d.2.occurrenceId ∉ (o :: rest).map Prod.fst := fun hmem ↦
        (List.mem_cons.mp hmem).elim ho (htold d hd)
      exact .inl ⟨mem_ended.mpr ⟨d, hd, hfree, rfl⟩, rfl⟩

theorem Sweeping.move_progress {r : Sweeping.Stage} {next : Option Sweeping.Stage}
    (hsound : r.sound) (hknown : ∀ x ∈ (Stage.sweeping r).known, x.1.parent db = some x.2)
    (h : Sweeping.move batch r db = .exec w held shared awaited next) :
    Progress (.sweeping r) (.of .sweeping next) db w := by
  cases r with
  | expiring now told rest =>
    cases rest with
    | nil =>
      cases h
      exact progress_of_eq rfl (List.nil_subset _) rfl rfl fun i ↦ status_of_nil rfl rfl _
    | cons o rest =>
      cases h
      refine ⟨fun x hx ↦ ?_, fun k hk ↦ .inl ⟨hk, status_of_nil rfl rfl k⟩, fun x hx ↦ hx, .inl rfl⟩
      rcases mem_known hx with ⟨d, hd | hd, rfl⟩ | ⟨o', ho, rfl⟩
      · exact .inl (known_told hd)
      · obtain ⟨hrow, -⟩ := Deliveries.mem_listSentForOccurrence hd
        exact .inr (congrArg (Option.map Delivery.occurrenceId) hrow)
      · exact .inl (known_listed ho)
  | journaling now told o sent rest =>
    cases sent with
    | nil =>
      cases h
      exact expire_progress hsound hknown
    | cons d sent =>
      cases h
      exact journaling_progress hsound hknown
  | repeating now told candidates bumped =>
    cases candidates with
    | nil =>
      cases h
      exact progress_of_eq rfl (List.nil_subset _) rfl rfl fun i ↦ status_releaseStaleLocks ..
    | cons c rest =>
      rw [Sweeping.move] at h
      split at h
      · cases h
        exact progress_of_eq rfl (List.nil_subset _) rfl rfl fun i ↦ status_of_nil rfl rfl _
      · rename_i moment hmoment
        cases h
        split <;> exact progress_of_eq rfl (List.nil_subset _) rfl rfl fun i ↦ rfl
  | bumping now told i rest bumped =>
    cases h
    exact progress_of_eq rfl (List.nil_subset _) rfl rfl fun i ↦ status_bumpRepeats ..
  | released told => cases h

theorem Delivering.actions_nil {r : Delivering.Stage} {answer : Option (SendResult × ℤ)}
    {next : Option Delivering.Stage}
    (h : Delivering.move r answer db = some (.exec w held shared awaited next)) : w.actions = [] := by
  revert h
  fun_cases Delivering.move r answer db <;> intro h <;> cases h <;> rfl

theorem blank_of_delivering (next : Option Delivering.Stage) :
    (Stage.of .delivering next).known = [] ∧ (Stage.of .delivering next).ended = [] := by
  cases next <;> exact ⟨rfl, rfl⟩

theorem blank_of_materializing (next : Option Materializing.Stage) :
    (Stage.of .materializing next).known = [] ∧ (Stage.of .materializing next).ended = [] := by
  cases next <;> exact ⟨rfl, rfl⟩

theorem queue_progress {s next : Stage} {input : Input} {locked : Lock → Bool} (hsound : s.sound)
    (hknown : ∀ x ∈ s.known, x.1.parent db = some x.2)
    (h : queue settings s input locked db = some (.exec w held shared awaited next)) :
    Progress s next db w := by
  obtain ⟨hqueue, h⟩ := queue_eq_some h
  cases s with
  | idle =>
    cases input with
    | react tap =>
      obtain ⟨next, hmove, rfl⟩ := Move.map_eq_exec (Option.some_inj.mp h)
      exact Reacting.start_progress hmove
    | deliver now =>
      obtain ⟨next, hmove, rfl⟩ := Move.map_eq_exec (Option.some_inj.mp h)
      obtain ⟨hknown, hended⟩ := blank_of_delivering next
      cases hmove
      exact .of_blank hknown hended rfl rfl
    | sweep now =>
      obtain ⟨next, hmove, rfl⟩ := Move.map_eq_exec (Option.some_inj.mp h)
      exact Sweeping.start_progress hmove
    | materialize now =>
      obtain ⟨next, hmove, rfl⟩ := Move.map_eq_exec (Option.some_inj.mp h)
      obtain ⟨hknown, hended⟩ := blank_of_materializing next
      obtain ⟨-, -, hadds⟩ := Materializing.start_adds hmove
      exact .of_blank hknown hended rfl hadds.actions
    | accept request => cases hqueue
    | edit request => cases hqueue
    | answer result now => cases h
    | go => cases h
  | reacting r =>
    obtain ⟨next, hmove, rfl⟩ := Move.map_eq_exec (Option.some_inj.mp h)
    exact Reacting.move_progress hsound (hknown _ (List.mem_singleton_self _)) hmove
  | delivering r =>
    obtain ⟨m, hmove, hmap⟩ := Option.map_eq_some_iff.mp h
    obtain ⟨next, rfl, rfl⟩ := Move.map_eq_exec hmap
    obtain ⟨hknown, hended⟩ := blank_of_delivering next
    exact .of_blank hknown hended rfl (Delivering.actions_nil hmove)
  | sweeping r =>
    obtain ⟨next, hmove, rfl⟩ := Move.map_eq_exec (Option.some_inj.mp h)
    exact Sweeping.move_progress hsound hknown hmove
  | materializing r =>
    obtain ⟨next, hmove, rfl⟩ := Move.map_eq_exec (Option.some_inj.mp h)
    obtain ⟨hknown, hended⟩ := blank_of_materializing next
    obtain ⟨-, -, hadds⟩ := Materializing.move_adds hmove
    exact .of_blank hknown hended rfl hadds.actions
  | joining r => cases hsound
  | editing r => cases hsound

theorem blank_of_ended {s next : Stage} {input : Input} {locked : Lock → Bool} {m : Move Writes Lock Stage}
    (h : program settings s input locked db = some m) (hm : m = .commit next ∨ m = .rollback next) :
    next.outcomes = [] ∧ next.known = [] ∧ next.ended = [] := by
  rcases hm with rfl | rfl
  · rcases program_commit h with ⟨rfl, -⟩ | ⟨r, r', -, rfl, -⟩
    · exact ⟨rfl, rfl, rfl⟩
    · cases r' <;> exact ⟨rfl, rfl, rfl⟩
  · rw [program_rollback h]
    exact ⟨rfl, rfl, rfl⟩

end Statements

/-- What a session sees of the journal and of the rows it journals about,
against what is committed. -/
structure Ledger (view committed : Database) (holds : Lock → Prop) (s : Stage) : Prop where
  kept : ∀ a row, committed.actions a = some row → view.actions a = some row
  own : ∀ a i, IsOutcome view a i → IsOutcome committed a i ∨ ∃ j, (i, j) ∈ s.outcomes
  once : ∀ a a' i, IsOutcome view a i → IsOutcome view a' i →
    committed.actions a = none → committed.actions a' = none → a = a'
  known : ∀ x ∈ s.known, x.1.parent view = some x.2
  ended : ∀ k ∈ s.ended, holds k.lock ∧ (k.status view).any isSettling = true

section Ledgers

variable {view view' committed committed' db : Database} {holds holds' : Lock → Prop} {s next : Stage}
  {w : Writes}

theorem IsOutcome.congr {a i : ℕ} (h : view'.actions a = view.actions a) :
    IsOutcome view' a i ↔ IsOutcome view a i := by
  rw [IsOutcome, IsOutcome, h]

theorem Ledger.congr (h : Ledger view committed holds s)
    (hactions : ∀ a, view'.actions a = view.actions a)
    (hcommitted : ∀ a, committed'.actions a = committed.actions a)
    (hparent : ∀ k : Row, k.parent view' = k.parent view)
    (hstatus : ∀ k : Row, k.status view' = k.status view) : Ledger view' committed' holds s where
  kept a row ha := by
    rw [hactions]
    exact h.kept a row (hcommitted a ▸ ha)
  own a i ha := by
    rw [IsOutcome.congr (hactions a)] at ha
    rw [IsOutcome.congr (hcommitted a)]
    exact h.own a i ha
  once a a' i ha ha' hnone hnone' := by
    rw [IsOutcome.congr (hactions _)] at ha ha'
    exact h.once a a' i ha ha' (hcommitted a ▸ hnone) (hcommitted a' ▸ hnone')
  known x hx := (hparent x.1).trans (h.known x hx)
  ended k hk := ⟨(h.ended k hk).1, by rw [hstatus]; exact (h.ended k hk).2⟩

theorem Ledger.of_committed (houtcomes : next.known = []) (hended : next.ended = []) :
    Ledger db db holds next where
  kept _ _ ha := ha
  own _ _ ha := .inl ha
  once a a' i ha _ hnone _ := by
    obtain ⟨row, hrow, -⟩ := ha
    rw [hnone] at hrow
    cases hrow
  known x hx := by rw [houtcomes] at hx; cases hx
  ended k hk := by rw [hended] at hk; cases hk

/-- The rows an action adds to the journal, under an id of its own. -/
theorem actions_addAction (action : DeliveryAction) (db : Database) (a : ℕ) :
    (apply db (Deliveries.addAction action db)).actions a =
      if a = db.actions.next then some action else db.actions a := by
  have hrow := Table.writes_insert db.actions [action] a
  refine hrow.trans ?_
  split
  · rename_i hlt
    rw [if_neg (by omega)]
  · rename_i hge
    split
    · rename_i ha
      rw [ha, Nat.sub_self]
      rfl
    · rename_i ha
      rw [db.actions.fresh a (by omega)]
      exact List.getElem?_eq_none (by simp; omega)

theorem Ledger.exec (h : Ledger view committed holds s) (hprogress : Progress s next view w)
    (hkeeps : Keeps view w) (hholds : ∀ l, holds l ∨ l ∈ locks w → holds' l) :
    Ledger (apply view w) committed holds' next := by
  have hknown : ∀ x ∈ next.known, x.1.parent (apply view w) = some x.2 := by
    intro x hx
    have hparent : x.1.parent view = some x.2 := (hprogress.known x hx).elim (h.known x) id
    rw [hkeeps x.1 (by rw [hparent]; rfl), hparent]
  have hended : ∀ k ∈ next.ended,
      holds' k.lock ∧ (k.status (apply view w)).any isSettling = true := by
    intro k hk
    rcases hprogress.ended k hk with ⟨hold, hsame⟩ | ⟨hlock, hfinal⟩
    · obtain ⟨hlock, hfinal⟩ := h.ended k hold
      exact ⟨hholds _ (.inl hlock), hsame ▸ hfinal⟩
    · exact ⟨hholds _ (.inr hlock), hfinal⟩
  rcases hprogress.actions with hnil | ⟨action, rfl, houtcome⟩
  · have hactions : ∀ a, (apply view w).actions a = view.actions a := by
      intro a
      simp [apply, hnil]
    refine ⟨fun a row ha ↦ by rw [hactions]; exact h.kept a row ha, fun a i ha ↦ ?_,
      fun a a' i ha ha' ↦ ?_, hknown, hended⟩
    · rw [IsOutcome.congr (hactions a)] at ha
      exact (h.own a i ha).imp_right fun ⟨j, hj⟩ ↦ ⟨j, hprogress.outcomes _ hj⟩
    · rw [IsOutcome.congr (hactions _)] at ha ha'
      exact h.once a a' i ha ha'
  have hfresh : view.actions view.actions.next = none := view.actions.fresh _ le_rfl
  have hold : ∀ a, a ≠ view.actions.next →
      (apply view (Deliveries.addAction action view)).actions a = view.actions a := by
    intro a ha
    rw [actions_addAction, if_neg ha]
  have hnew : ∀ i, IsOutcome (apply view (Deliveries.addAction action view)) view.actions.next i →
      action.deliveryId = i ∧ action.kind.isOutcome = true := by
    intro i ⟨row, hrow, hi⟩
    rw [actions_addAction, if_pos rfl] at hrow
    cases hrow
    exact hi
  -- An outcome of the same delivery seen before is a committed one.
  have hfirst : ∀ a i, a ≠ view.actions.next →
      IsOutcome (apply view (Deliveries.addAction action view)) a i →
      IsOutcome (apply view (Deliveries.addAction action view)) view.actions.next i →
        committed.actions a ≠ none := by
    intro a i hne ha hlast hnone
    obtain ⟨rfl, hkind⟩ := hnew i hlast
    rw [IsOutcome.congr (hold a hne)] at ha
    rcases h.own a _ ha with ⟨row, hrow, -⟩ | ⟨j, hj⟩
    · rw [hnone] at hrow
      cases hrow
    · exact (houtcome hkind).2 j hj
  refine ⟨fun a row ha ↦ ?_, fun a i ha ↦ ?_, fun a a' i ha ha' hnone hnone' ↦ ?_, hknown, hended⟩
  · have hrow := h.kept a row ha
    rw [hold a fun heq ↦ by rw [heq, hfresh] at hrow; cases hrow]
    exact hrow
  · by_cases hne : a = view.actions.next
    · rw [hne] at ha
      obtain ⟨rfl, hkind⟩ := hnew i ha
      exact .inr (houtcome hkind).1
    · rw [IsOutcome.congr (hold a hne)] at ha
      exact (h.own a i ha).imp_right fun ⟨j, hj⟩ ↦ ⟨j, hprogress.outcomes _ hj⟩
  · by_cases hne : a = view.actions.next
    · by_cases hne' : a' = view.actions.next
      · rw [hne, hne']
      · rw [hne] at ha
        exact absurd hnone' (hfirst a' i hne' ha' ha)
    · by_cases hne' : a' = view.actions.next
      · rw [hne'] at ha'
        exact absurd hnone (hfirst a i hne ha ha')
      · rw [IsOutcome.congr (hold _ hne)] at ha
        rw [IsOutcome.congr (hold _ hne')] at ha'
        exact h.once a a' i ha ha' hnone hnone'

end Ledgers

/-- Of a run so far: the journal is in order, and so is what every session is
about to add to it. -/
structure InOrder (s : Sessions) : Prop where
  quiet : Quiet isSettling s
  linked : Linked s
  journaled : Journaled s.committed
  ledgers : ∀ i, Ledger (s.view i) s.committed (fun l ↦ s.owner l = some i) (s.stage i)

section Steps

variable {settings : Settings} {db : Database} {s s' : Sessions} {e : Event Input} {i j : ℕ}

theorem Over.congr {db' : Database} (hparent : ∀ k : Row, k.parent db' = k.parent db)
    (hstatus : ∀ k : Row, k.status db' = k.status db) (h : Over db i) : Over db' i := by
  obtain ⟨j, hj, hover⟩ := h
  exact ⟨j, (hparent _).trans hj, by rw [hstatus, hstatus]; exact hover⟩

theorem Journaled.congr {db' : Database} (h : Journaled db)
    (hactions : ∀ a, db'.actions a = db.actions a) (hparent : ∀ k : Row, k.parent db' = k.parent db)
    (hstatus : ∀ k : Row, k.status db' = k.status db) : Journaled db' where
  once a a' i ha ha' :=
    h.once a a' i ((IsOutcome.congr (hactions a)).mp ha) ((IsOutcome.congr (hactions a')).mp ha')
  ended a i ha := (h.ended a i ((IsOutcome.congr (hactions a)).mp ha)).congr hparent hstatus

theorem InOrder.ledger_other (h : InOrder s) (hstep : Step (queue settings) .idle s e s')
    (hlinks : ∀ k : Row, (k.parent s.committed).isSome = true →
      k.parent s'.committed = k.parent s.committed) (hj : j ≠ e.by) :
    Ledger (s'.view j) s'.committed (fun l ↦ s'.owner l = some j) (s'.stage j) := by
  have hown := h.quiet.owned
  have hledger := h.ledgers j
  have hview := fun a ↦ (guards_actions a).view_other hstep hown hj
  rw [hstep.stage_other hj]
  refine ⟨fun a row ha ↦ ?_, fun a i ha ↦ ?_, fun a a' i ha ha' hnone hnone' ↦ ?_, fun x hx ↦ ?_,
    fun k hk ↦ ?_⟩
  · rcases hview a with ⟨hsame, hcommitted⟩ | ⟨hsame, -⟩
    · exact hsame.trans (hledger.kept a row (hcommitted ▸ ha))
    · exact hsame.trans ha
  · rcases hview a with ⟨hsame, hcommitted⟩ | ⟨hsame, -⟩
    · rw [IsOutcome.congr hsame] at ha
      rw [IsOutcome.congr hcommitted]
      exact hledger.own a i ha
    · obtain ⟨row, hrow, hrest⟩ := ha
      exact .inl ⟨row, hsame ▸ hrow, hrest⟩
  · have hmine : ∀ a, IsOutcome (s'.view j) a i → s'.committed.actions a = none →
        IsOutcome (s.view j) a i ∧ s.committed.actions a = none := by
      intro a ha hnone
      rcases hview a with ⟨hsame, hcommitted⟩ | ⟨hsame, -⟩
      · exact ⟨(IsOutcome.congr hsame).mp ha, hcommitted ▸ hnone⟩
      · obtain ⟨row, hrow, -⟩ := ha
        rw [hsame, hnone] at hrow
        cases hrow
    obtain ⟨ha, hnone⟩ := hmine a ha hnone
    obtain ⟨ha', hnone'⟩ := hmine a' ha' hnone'
    exact hledger.once a a' i ha ha' hnone hnone'
  · have hparent := hledger.known x hx
    rcases (Row.guards_parent x.1).view_other hstep hown hj with ⟨hsame, -⟩ | ⟨hsame, hold⟩
    · exact hsame.trans hparent
    · rw [hsame, hlinks x.1 (by rw [← hold, hparent]; rfl), ← hold, hparent]
  · obtain ⟨hlock, hfinal⟩ := hledger.ended k hk
    refine ⟨hstep.owner_other hj hlock, ?_⟩
    rw [((Row.guards k).kept_other hstep hown hj hlock).1]
    exact hfinal

/-- A transaction commits outcomes of deliveries that have none yet. -/
theorem InOrder.journaled_commit (h : InOrder s) {input : Input} {next : Stage}
    (hmove : queue settings (s.stage i) input (s.lockedFor i) (s.view i) = some (.commit next)) :
    Journaled (s.view i) := by
  have hledger := h.ledgers i
  have hparent : ∀ (k : Row) p, k.parent s.committed = some p → k.parent (s.view i) = some p :=
    fun k p hk ↦ (h.linked.view i k (by rw [hk]; rfl)).trans hk
  have hfinal : ∀ k : Row, (k.status s.committed).any isSettling = true →
      (k.status (s.view i)).any isSettling = true :=
    fun k hk ↦ by rw [h.quiet.view i k hk]; exact hk
  -- What this transaction has journaled, nobody has committed.
  have hfirst : ∀ a k j, (k, j) ∈ (s.stage i).outcomes → ¬IsOutcome s.committed a k := by
    intro a k j hmem ha
    obtain ⟨j', hj', hover⟩ := h.journaled.ended a k ha
    have hj : (Row.delivery k).parent (s.view i) = some j :=
      hledger.known _ (Stage.known_of_outcomes hmem)
    rw [hparent _ _ hj', Option.some_inj] at hj
    obtain ⟨hdelivery, hoccurrence⟩ := Stage.uses_of_outcomes hmem
    rcases hover with hover | hover
    · exact h.quiet.uses i _ hdelivery hover
    · exact h.quiet.uses i _ (hj ▸ hoccurrence) hover
  refine ⟨fun a a' k ha ha' ↦ ?_, fun a k ha ↦ ?_⟩
  · rcases hledger.own a k ha with hold | ⟨j, hj⟩
    · rcases hledger.own a' k ha' with hold' | ⟨j, hj⟩
      · exact h.journaled.once a a' k hold hold'
      · exact absurd hold (hfirst a k j hj)
    · have hnone : ∀ a, IsOutcome (s.view i) a k → s.committed.actions a = none := by
        intro a ⟨row, hrow, hrest⟩
        cases hcommitted : s.committed.actions a with
        | none => rfl
        | some row' =>
          have hsame := hledger.kept a row' hcommitted
          rw [hrow, Option.some_inj] at hsame
          exact absurd ⟨row', hcommitted, hsame ▸ hrest⟩ (hfirst a k j hj)
      exact hledger.once a a' k ha ha' (hnone a ha) (hnone a' ha')
  · rcases hledger.own a k ha with hold | ⟨j, hj⟩
    · obtain ⟨j, hj, hover⟩ := h.journaled.ended a k hold
      exact ⟨j, hparent _ _ hj, hover.imp (hfinal _) (hfinal _)⟩
    · refine ⟨j, hledger.known _ (Stage.known_of_outcomes hj), ?_⟩
      exact (Stage.ended_of_commit hj (queue_eq_some hmove).2).imp (fun hk ↦ (hledger.ended _ hk).2)
        fun hk ↦ (hledger.ended _ hk).2

theorem InOrder.step (h : InOrder s) (htimely : EndsTimely isSettling settings .univ s e)
    (hstep : Step (queue settings) .idle s e s') : InOrder s' := by
  obtain ⟨hquiet, -⟩ := h.quiet.step (queue_honours settings isTerminal_of_isSettling) Row.guards htimely hstep
  obtain ⟨hlinked, hlinks⟩ :=
    h.linked.step (queue_links settings) Row.guards_parent (timely_links s e) hstep
  have hothers : ∀ j, j ≠ e.by →
      Ledger (s'.view j) s'.committed (fun l ↦ s'.owner l = some j) (s'.stage j) :=
    fun j hj ↦ h.ledger_other hstep hlinks hj
  have hmake : Journaled s'.committed →
      Ledger (s'.view e.by) s'.committed (fun l ↦ s'.owner l = some e.by) (s'.stage e.by) →
        InOrder s' := by
    intro hjournaled hself
    refine ⟨hquiet, hlinked, hjournaled, fun j ↦ ?_⟩
    by_cases hj : j = e.by
    · rw [hj]
      exact hself
    · exact hothers j hj
  cases hstep with
  | @exec i input w held shared awaited next hmove hfree =>
    have hsound := h.quiet.sound i
    have hcommitted : ∀ {β : Type} {l : Lock} {f : Database → β}, Guards Writes l f →
        f (s.exec i w held shared next).committed = f s.committed :=
      fun hf ↦ hf.committed_exec _ _ _ _
    have hview : ∀ {β : Type} {l : Lock} {f : Database → β}, Guards Writes l f →
        f ((s.exec i w held shared next).view i) = f (apply (s.view i) w) :=
      fun hf ↦ hf.view_exec_self _ _ _ _
    refine hmake (h.journaled.congr (fun a ↦ hcommitted (guards_actions a))
      (fun k ↦ hcommitted (Row.guards_parent k)) fun k ↦ hcommitted (Row.guards k)) ?_
    rw [Event.by, stage_exec_self]
    refine Ledger.congr ((h.ledgers i).exec (queue_progress hsound (h.ledgers i).known hmove)
      (queue_keeps hsound hmove) fun l hl ↦ ?_) (fun a ↦ hview (guards_actions a))
      (fun a ↦ hcommitted (guards_actions a)) (fun k ↦ hview (Row.guards_parent k))
      fun k ↦ hview (Row.guards k)
    change (if l ∈ locks w ++ held then some i else s.owner l) = some i
    split
    · rfl
    · rename_i hno
      exact hl.resolve_right fun hw ↦ hno (List.mem_append_left _ hw)
  | @commit i input next hmove =>
    obtain ⟨-, hknown, hended⟩ := blank_of_ended (queue_eq_some hmove).2 (.inl rfl)
    refine hmake (h.journaled_commit hmove) ?_
    rw [Event.by, stage_close_self, view_close_self]
    exact .of_committed hknown hended
  | @rollback i input next hmove =>
    obtain ⟨-, hknown, hended⟩ := blank_of_ended (queue_eq_some hmove).2 (.inr rfl)
    refine hmake h.journaled ?_
    rw [Event.by, stage_close_self, view_close_self]
    exact .of_committed hknown hended
  | crash i =>
    refine hmake h.journaled ?_
    rw [Event.by, stage_close_self, view_close_self]
    exact .of_committed rfl rfl

theorem inOrder_start (settings : Settings) (h : Journaled db) :
    InOrder (System.start db .idle : Sessions) where
  quiet := Settled.start (queue_honours settings isTerminal_of_isSettling) db
  linked := Settled.start (queue_links settings) db
  journaled := h
  ledgers _ := .of_committed rfl rfl

end Steps

/-- As long as nobody settles a delivery that another transaction is still
acting on, a delivery that has ended keeps its status, and the journal never
has a second outcome of it. -/
theorem settled_once {settings : Settings} {db : Database} {es later : List (Event Input)}
    {s s' : Sessions} (hdb : Journaled db)
    (htimely : Guarded (step (queue settings) .idle) (EndsTimely isSettling settings .univ)
      (.start db .idle) (es ++ later))
    (hrun : run (step (queue settings) .idle) (.start db .idle) es = some s)
    (hlater : run (step (queue settings) .idle) s later = some s') :
    (∀ i d, s.committed.deliveries i = some d → d.status.isTerminal = true →
      ∃ d', s'.committed.deliveries i = some d' ∧ d'.status = d.status) ∧
        ∀ a a' i, IsOutcome s'.committed a i → IsOutcome s'.committed a' i → a = a' := by
  refine ⟨fun i d hd hended ↦ ?_, ?_⟩
  · have hkept := final_stays isTerminal_of_isSettling htimely hrun hlater (.delivery i)
      (by rw [Row.status, hd]; exact hended)
    rw [Row.status, Row.status, hd] at hkept
    obtain ⟨d', hd', hstatus⟩ := Option.map_eq_some_iff.mp hkept
    exact ⟨d', hd', RowStatus.delivery.inj hstatus⟩
  · have hall : run (step (queue settings) .idle) (.start db .idle) (es ++ later) = some s' := by
      rw [run_append, hrun]
      exact hlater
    have horder : InOrder s' :=
      run_invariant (fun _ _ _ h htimely hstep ↦ h.step htimely (step_cases hstep)) htimely hall
        (inOrder_start settings hdb)
    exact horder.journaled.once

section Sample

theorem journaled_of_empty {db : Database} (h : db.actions = .empty) : Journaled db := by
  have hnone : ∀ a i, ¬IsOutcome db a i := by
    intro a i ⟨row, hrow, _⟩
    rw [h] at hrow
    cases hrow
  exact ⟨fun a a' i ha ↦ absurd ha (hnone a i), fun a i ha ↦ absurd ha (hnone a i)⟩

instance (db : Database) (a i : ℕ) : Decidable (IsOutcome db a i) :=
  decidable_of_iff ((db.actions a).any (fun row ↦
    decide (row.deliveryId = i) && row.kind.isOutcome) = true) <| by
      simp [IsOutcome, Option.any_eq_true]

/-- The message goes out, and is answered. -/
def sentThenDone : List (Event Input) :=
  claimBy 0 (5 * day) ++ sendBy 0 (5 * day) ++ tapBy 1 0 .done :: going 1 8

/-- The keyboard is pressed once more. -/
def secondTap : List (Event Input) := tapBy 1 0 .skip :: going 1 2

theorem settled_once_sample :
    ∃ (s s' : Sessions) (d' : Delivery),
      run (step (queue sampleSettings) .idle) (.start (oneQueued .pending .pending) .idle)
        sentThenDone = some s ∧
      run (step (queue sampleSettings) .idle) s secondTap = some s' ∧
      (s'.committed.deliveries 0 = some d' ∧ d'.status = .done) ∧
        ∀ a a', IsOutcome s'.committed a 0 → IsOutcome s'.committed a' 0 → a = a' := by
  have hruns : (run (step (queue sampleSettings) .idle)
      (.start (oneQueued .pending .pending) .idle : Sessions) sentThenDone).any (fun s ↦
        (s.committed.deliveries 0).any (fun d ↦ decide (d.status = .done)) &&
          (run (step (queue sampleSettings) .idle) s secondTap).isSome) = true := by
    decide +kernel
  obtain ⟨s, hrun, hruns⟩ := (Option.any_eq_true _ _).mp hruns
  rw [Bool.and_eq_true, Option.any_eq_true] at hruns
  obtain ⟨⟨d, hd, hdone⟩, hlater⟩ := hruns
  have hdone := of_decide_eq_true hdone
  obtain ⟨s', hlater⟩ := Option.isSome_iff_exists.mp hlater
  have htimely : Guarded (step (queue sampleSettings) .idle)
      (EndsTimely isSettling sampleSettings (Set.Iio 2))
      (.start (oneQueued .pending .pending) .idle) (sentThenDone ++ secondTap) := by
    decide +kernel
  have htimely := Guarded.of_below (fun s e hidle h ↦ endsTimely_all hidle h) (fun _ _ ↦ rfl)
    (by decide) htimely
  obtain ⟨hstays, honce⟩ := settled_once (journaled_of_empty rfl) htimely hrun hlater
  obtain ⟨d', hd', hsame⟩ := hstays 0 d hd (by rw [hdone]; rfl)
  exact ⟨s, s', d', hrun, hlater, ⟨hd', hsame.trans hdone⟩, fun a a' ↦ honce a a' 0⟩

/-- A repeat of the owner's message is queued, the first one still has its
buttons. -/
def repeatQueued : Database :=
  sampleDb [sampleOccurrence .sent] [sampleDelivery 0 .pending, sampleDelivery 1 .sent]

/-- The repeat is claimed, the owner answers the first message, the repeat goes
out over the answer, and the owner answers again. -/
theorem repeat_reopens_answer :
    ∃ (s s' : Sessions) (d d' : Delivery), Journaled repeatQueued ∧
      run (step (queue sampleSettings) .idle) (.start repeatQueued .idle)
        (claimBy 0 (5 * day) ++ tapBy 1 0 .done :: going 1 7) = some s ∧
      run (step (queue sampleSettings) .idle) s
        (sendBy 0 (5 * day) ++ tapBy 1 0 .skip :: going 1 7) = some s' ∧
      (s.committed.deliveries 0 = some d ∧ d.status = .done) ∧
      (s'.committed.deliveries 0 = some d' ∧ d'.status = .skipped) ∧
        IsOutcome s'.committed 0 0 ∧ IsOutcome s'.committed 1 0 := by
  have hruns : (run (step (queue sampleSettings) .idle) (.start repeatQueued .idle : Sessions)
      (claimBy 0 (5 * day) ++ tapBy 1 0 .done :: going 1 7)).any (fun s ↦
        (s.committed.deliveries 0).any (fun d ↦ decide (d.status = .done)) &&
          (run (step (queue sampleSettings) .idle) s
            (sendBy 0 (5 * day) ++ tapBy 1 0 .skip :: going 1 7)).any fun s' ↦
              (s'.committed.deliveries 0).any (fun d ↦ decide (d.status = .skipped)) &&
                decide (IsOutcome s'.committed 0 0 ∧ IsOutcome s'.committed 1 0)) = true := by
    decide +kernel
  obtain ⟨s, hrun, hruns⟩ := (Option.any_eq_true _ _).mp hruns
  rw [Bool.and_eq_true, Option.any_eq_true, Option.any_eq_true] at hruns
  obtain ⟨⟨d, hd, hdone⟩, s', hlater, hruns⟩ := hruns
  rw [Bool.and_eq_true, Option.any_eq_true] at hruns
  obtain ⟨⟨d', hd', hskipped⟩, htwice⟩ := hruns
  exact ⟨s, s', d, d', journaled_of_empty rfl, hrun, hlater, ⟨hd, of_decide_eq_true hdone⟩,
    ⟨hd', of_decide_eq_true hskipped⟩, of_decide_eq_true htwice⟩

end Sample

end Remindo.Concurrent
