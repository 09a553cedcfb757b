import Remindo.Foundation.Waiting
import Remindo.Serial.Arrival
import Remindo.Serial.Budget
import Remindo.Serial.Leases
import Remindo.Serial.Occurrences
import Remindo.Serial.RollUp
import Remindo.Serial.Sharing

namespace Remindo.Serial

open Remindo.Domain Remindo.Db Remindo.Services Remindo.Foundation

/-- The delivery of an occurrence to a user is there. -/
def Carried (db : Database) (i userId : ℕ) : Prop :=
  ∃ j d, db.deliveries j = some d ∧ d.key = (i, userId)

/-- The user is counted in for the reminder. -/
def Listening (db : Database) (rid userId : ℕ) : Prop :=
  ∃ k x, db.recipients k = some x ∧ x.key = (rid, userId) ∧ listens x = true

/-- Whoever is counted in has a delivery of each pending occurrence that fires
after `til`. -/
def Audible (til : ℤ) (db : Database) : Prop :=
  ∀ i o userId, db.occurrences i = some o → o.status = .pending → til < o.fireAt →
    Listening db o.reminderId userId → Carried db i userId

section Keys

variable {db db' db'' : Database}

/-- The deliveries are those of before, whatever has become of them. -/
def SameKeys (db db' : Database) : Prop :=
  ∀ j, (db'.deliveries j).map Delivery.key = (db.deliveries j).map Delivery.key

theorem SameKeys.trans (h : SameKeys db db') (h' : SameKeys db' db'') : SameKeys db db'' :=
  fun j ↦ (h' j).trans (h j)

theorem SameKeys.of_eq (h : db'.deliveries = db.deliveries) : SameKeys db db' := fun j ↦ by rw [h]

theorem SameKeys.of_update {k : ℕ} {f : Delivery → Delivery}
    (h : ∀ j, db'.deliveries j = if j = k then (db.deliveries k).map f else db.deliveries j)
    (hf : ∀ d, (f d).key = d.key) : SameKeys db db' := by
  intro j
  rw [h]
  split
  · rename_i hj
    rw [hj, Option.map_map]
    exact Option.map_congr fun d _ ↦ hf d
  · rfl

theorem SameKeys.back (h : SameKeys db db') {j : ℕ} {d' : Delivery}
    (hd' : db'.deliveries j = some d') : ∃ d, db.deliveries j = some d ∧ d.key = d'.key := by
  have hj := h j
  rw [hd', Option.map_some, eq_comm] at hj
  exact Option.map_eq_some_iff.mp hj

theorem SameKeys.carried (h : SameKeys db db') {i userId : ℕ} (hcarried : Carried db i userId) :
    Carried db' i userId := by
  obtain ⟨j, d, hd, hkey⟩ := hcarried
  have hj := h j
  rw [hd, Option.map_some] at hj
  obtain ⟨d', hd', hkey'⟩ := Option.map_eq_some_iff.mp hj
  exact ⟨j, d', hd', hkey'.trans hkey⟩

theorem sameKeys_deliver (db : Database) (now lockFor : ℤ) (batch : ℕ)
    (gateway : Dispatching.Gateway) :
    SameKeys db (Dispatching.deliver db now lockFor batch gateway).2 := by
  have hall : ∀ (works : List Dispatching.Work) (memory : Dispatching.Memory) (db : Database),
      SameKeys db (Dispatching.deliverAll gateway works memory db).2 := by
    intro works
    induction works with
    | nil => exact fun _ _ ↦ .of_eq rfl
    | cons w rest ih =>
      intro memory db
      have hverdict : SameKeys db (Dispatching.applyVerdict db memory w
          (Dispatching.conclude memory w (gateway w.id).1 (gateway w.id).2) (gateway w.id).2) :=
        .of_update (Dispatching.deliveries_applyVerdict db memory w _ _) fun d ↦ rfl
      exact hverdict.trans (ih _ _)
  refine .trans (fun j ↦ ?_) (hall _ _ _)
  rcases Deliveries.deliveries_claimed (Deliveries.nodup_claimDue now lockFor batch
      (fun _ ↦ false) db) db j with ⟨x, hx, rfl, hrow⟩ | hrow
  · obtain ⟨d, hd, -, -, heq⟩ := Deliveries.mem_claimDue hx
    rw [hrow, hd, heq]
    rfl
  · rw [hrow]

theorem sameKeys_sweep (db : Database) (now : ℤ) (batch : ℕ) :
    SameKeys db (Reaper.sweep db now batch) := by
  let expired := Reaper.expireAll now (Reaper.overdue db now batch) db
  have hexpired : SameKeys db expired := .of_eq (expireAll_deliveries ..)
  have hrepeated : SameKeys db (Reaper.repeatAll now
      (Deliveries.listRepeatCandidates expired now batch) [] expired) := by
    refine Reaper.repeatAll_preserves (fun db' i moment h ↦ ?_) (fun _ _ h ↦ h) now _ [] hexpired
    exact h.trans (.of_update (Deliveries.deliveries_updateFields db' i _) fun d ↦ rfl)
  refine hrepeated.trans fun j ↦ ?_
  rw [Reaper.sweep, Deliveries.deliveries_releaseStaleLocks, Option.map_map]
  refine Option.map_congr fun d _ ↦ ?_
  rw [Function.comp_apply]
  split <;> rfl

end Keys

section Operations

variable {settings : Settings} {w w' : World} {op : Operation}

/-- Working through the queue neither adds a delivery nor drops one. -/
theorem perform_sameKeys (hop : op.isQueueing = true) (h : perform settings w op = some w') :
    SameKeys w.db w'.db := by
  cases op with
  | deliver now gateway =>
    cases h
    exact sameKeys_deliver _ _ _ _ _
  | react now deliveryId userId action =>
    obtain ⟨result, hreact⟩ := perform_react h
    rcases react_rows hreact with ⟨-, hsame⟩ | ⟨-, reaction, hrows⟩
    · exact .of_eq hsame
    · exact .of_update hrows fun d ↦ rfl
  | sweep now =>
    cases h
    exact sameKeys_sweep _ _ _
  | _ => cases hop

end Operations

section Coverage

variable {db db' : Database} {til : ℤ}

theorem Audible.kept (h : Audible til db) (ho : Continued db db')
    (hl : ∀ rid userId, Listening db' rid userId → Listening db rid userId)
    (hc : ∀ i o userId, db'.occurrences i = some o → Listening db' o.reminderId userId →
      Carried db i userId → Carried db' i userId) : Audible til db' := by
  intro i o' userId ho' hpending hahead hlistens
  obtain ⟨o, hrow, hcont⟩ := ho i o' ho'
  refine hc i o' userId ho' hlistens (h i o userId hrow (hcont.pending hpending) ?_ ?_)
  · rw [← hcont.fireAt]
    exact hahead
  · rw [← hcont.reminderId]
    exact hl _ _ hlistens

theorem Audible.dropQueued (h : Audible til db) (rid : ℕ) (r : Reminder) :
    Audible til (Reminders.dropQueued rid r db) := by
  refine h.kept (.of_filter (Reminders.dropQueued_occurrences rid r db)) (fun _ _ h ↦ h) ?_
  rintro i o userId ho - ⟨j, d, hd, hkey⟩
  rw [Reminders.dropQueued_occurrences, Option.filter_eq_some_iff] at ho
  refine ⟨j, d, ?_, hkey⟩
  have hi : d.occurrenceId = i := congrArg Prod.fst hkey
  change (db.run (Occurrences.deleteUnsent rid)).deliveries j = some d
  rw [Occurrences.deliveries_deleteUnsent, hd, Option.filter_some, if_pos]
  rw [hi, ho.1]
  exact ho.2

open Planning

theorem mem_listAcceptedUserIds_of_listening {rid userId : ℕ} (h : Listening db rid userId) :
    userId ∈ Recipients.listAcceptedUserIds db rid := by
  obtain ⟨k, x, hx, hkey, hlistens⟩ := h
  refine List.mem_map.mpr ⟨(k, x), Table.mem_select.mpr ⟨hx, ?_⟩, congrArg Prod.snd hkey⟩
  have hrid : x.reminderId = rid := congrArg Prod.fst hkey
  rw [hrid]
  simpa [listens] using hlistens

theorem Audible.materializeOne (h : Audible til db) (settings : Planning.Settings)
    (horizonEnd : ℤ) (rid : ℕ) (r : Reminder) (owner : User) :
    Audible til (Planning.materializeOne settings horizonEnd (rid, r) owner db) := by
  have hrecipients : (Planning.materializeOne settings horizonEnd (rid, r) owner db).recipients =
      db.recipients := by
    rw [materializeOne_eq, settle]
    split <;> rfl
  have hdeliveries : (Planning.materializeOne settings horizonEnd (rid, r) owner db).deliveries =
      ((db.apply (planWrites settings horizonEnd rid r owner db)).run (Deliveries.insertMissing
        (wantedDeliveries rid (plan horizonEnd rid r db)
          (db.apply (planWrites settings horizonEnd rid r owner db))))).deliveries := by
    rw [materializeOne_eq, settle]
    split <;> rfl
  intro i o userId ho hpending hahead hlistens
  rw [Listening, hrecipients] at hlistens
  rcases materializeOne_some ho with hold | ⟨-, m, hm, heq, -⟩
  · obtain ⟨j, d, hd, hkey⟩ := h i o userId hold hpending hahead hlistens
    refine ⟨j, d, ?_, hkey⟩
    rw [hdeliveries]
    exact Table.insertMissing_kept hd
  · rw [Carried, hdeliveries]
    refine Table.insertMissing_covers (r := Deliveries.queued i userId o.fireAt) ?_
    rw [wantedDeliveries, if_neg (List.ne_nil_of_mem hm)]
    refine List.mem_flatMap.mpr ⟨(i, o), Table.mem_select.mpr ⟨?_, ?_⟩,
      List.mem_map_of_mem (mem_listAcceptedUserIds_of_listening ?_)⟩
    · rw [materializeOne_occurrences] at ho
      exact ho
    · rw [heq]
      exact Bool.and_eq_true_iff.mpr ⟨decide_eq_true rfl, decide_eq_true hm⟩
    · rw [heq] at hlistens
      exact hlistens

theorem Audible.materializeAll (settings : Planning.Settings) (horizonEnd : ℤ)
    {due : List (ℕ × Reminder)} (h : Audible til db) :
    Audible til (Planning.materializeAll settings horizonEnd due db) := by
  induction due generalizing db with
  | nil => exact h
  | cons x rest ih =>
    rw [Planning.materializeAll]
    split
    · exact ih h
    · exact ih (h.materializeOne settings horizonEnd x.1 x.2 _)

theorem Audible.accept (h : Audible til db) {now : ℤ} {userId rid : ℕ} (hnow : now ≤ til)
    (hok : Sharing.accept db now userId rid = .ok db') : Audible til db' := by
  obtain ⟨_, -, hok⟩ := bind_eq_ok.mp hok
  cases hok
  split
  · rename_i hnone
    refine h.kept (.of_eq rfl) (fun rid' userId' hlistens ↦ ?_) fun _ _ _ _ _ hcarried ↦ hcarried
    change Listening { db with recipients := db.recipients.writes _ } rid' userId' at hlistens
    rw [hnone] at hlistens
    exact hlistens
  · intro i o userId' ho hpending hahead ⟨k, x, hx, hkey, hlistens⟩
    change (db.run (Recipients.accept rid userId now)).recipients k = some x at hx
    rw [Recipients.recipients_accept] at hx
    obtain ⟨x₀, hx₀, heq⟩ := Option.map_eq_some_iff.mp hx
    by_cases hjoins : (decide (x₀.key = (rid, userId)) && decide (x₀.role = .watcher) &&
        x₀.acceptedAt.isNone) = true
    · rw [if_pos hjoins] at heq
      simp only [Bool.and_eq_true, decide_eq_true_eq] at hjoins
      have hkey' : (rid, userId) = (o.reminderId, userId') := by
        rw [← hkey, ← heq]
        exact hjoins.1.1.symm
      cases hkey'
      exact Table.insertMissing_covers (List.mem_map_of_mem (f := fun o : ℕ × Occurrence ↦
        Deliveries.queued o.1 userId o.2.fireAt) (Occurrences.mem_listUpcoming.mpr
          ⟨ho, rfl, hpending, lt_of_le_of_lt hnow hahead⟩))
    · rw [if_neg hjoins] at heq
      obtain ⟨j, d, hd, hkey'⟩ := h i o userId' ho hpending hahead ⟨k, x, heq ▸ hx₀, hkey, hlistens⟩
      exact ⟨j, d, Table.insertMissing_kept hd, hkey'⟩

end Coverage

section Keys

open Planning

variable {db db' : Database}

theorem unique_of_back (h : db.deliveries.Unique Delivery.key)
    (hback : ∀ j d', db'.deliveries j = some d' → ∃ d, db.deliveries j = some d ∧ d.key = d'.key) :
    db'.deliveries.Unique Delivery.key := by
  intro i j r s hr hs hkey
  obtain ⟨r₀, hr₀, hkey₀⟩ := hback i r hr
  obtain ⟨s₀, hs₀, hkey₁⟩ := hback j s hs
  exact h i j r₀ s₀ hr₀ hs₀ (hkey₀.trans (hkey.trans hkey₁.symm))

theorem unique_of_filter (h : db.deliveries.Unique Delivery.key) {p : Delivery → Bool}
    (hrows : ∀ j, db'.deliveries j = (db.deliveries j).filter p) :
    db'.deliveries.Unique Delivery.key :=
  unique_of_back h fun j d hd ↦ ⟨d, (Option.filter_eq_some_iff.mp ((hrows j).symm.trans hd)).1, rfl⟩

theorem unique_materializeAll (settings : Planning.Settings) (horizonEnd : ℤ)
    {due : List (ℕ × Reminder)} (h : db.deliveries.Unique Delivery.key) :
    (materializeAll settings horizonEnd due db).deliveries.Unique Delivery.key := by
  induction due generalizing db with
  | nil => exact h
  | cons x rest ih =>
    rw [materializeAll]
    split
    · exact ih h
    · refine ih ?_
      rw [materializeOne_eq, settle]
      split <;> exact h.insertMissing _

end Keys

/-- Nobody leaves a reminder of their own. -/
def Operation.LeavesAsWatcher (w : World) : Operation → Prop
  | .leave _ userId rid => ∀ k x, w.db.recipients k = some x → x.key = (rid, userId) →
      x.role = .watcher
  | _ => True

section Runs

variable {settings : Settings} {w w' : World} {op : Operation} {til : ℤ}

theorem audible_perform (hw : Audible til w.db) (haccounted : Accounted w.db)
    (hnow : op.now ≤ til) (hleave : op.LeavesAsWatcher w) (h : perform settings w op = some w') :
    Audible til w'.db := by
  by_cases hqueue : op.isQueueing = true
  · have hkeys := perform_sameKeys hqueue h
    refine hw.kept (perform_occurrences h fun now heq ↦ by rw [heq] at hqueue; cases hqueue)
      (fun rid userId hlistens ↦ ?_) fun _ _ _ _ _ hcarried ↦ hkeys.carried hcarried
    rwa [Listening, (sameSharing_perform (shares_of_isQueueing hqueue) h).recipients] at hlistens
  have hcontinued : (∀ now, op ≠ .materialize now) → Continued w.db w'.db := perform_occurrences h
  cases op with
  | create now ownerId draft =>
    have ho := hcontinued fun _ heq ↦ by cases heq
    obtain ⟨db', hdb, rfl⟩ := over_eq_some h
    obtain ⟨-, rfl⟩ := Reminders.create_eq_ok hdb
    intro i o userId hrow hpending hahead ⟨k, x, hx, hkey, hlistens⟩
    rcases Table.insert_some hx with hold | ⟨-, rfl⟩
    · exact hw i o userId hrow hpending hahead ⟨k, x, hold, hkey, hlistens⟩
    -- The reminder is new: no occurrence is its.
    · have hnone := haccounted.none w.db.reminders.next (w.db.reminders.fresh _ le_rfl)
      have hrid := Table.count_eq_zero.mp hnone i o hrow
      exact absurd (congrArg Prod.fst hkey).symm (of_decide_eq_false hrid)
  | materialize now =>
    cases h
    exact hw.materializeAll _ _
  | setStatus now ownerId rid status =>
    obtain ⟨db', hdb, rfl⟩ := over_eq_some h
    obtain ⟨r, -, rfl⟩ := Reminders.setStatus_eq_ok hdb
    split
    · exact hw
    · exact hw.dropQueued rid r
  | update now ownerId rid change =>
    obtain ⟨db', hdb, rfl⟩ := over_eq_some h
    obtain ⟨r, -, -, rfl⟩ := Reminders.update_eq_ok hdb
    split
    · exact hw.dropQueued rid r
    · exact hw
  | issueInvite now ownerId rid token =>
    obtain ⟨db', hdb, rfl⟩ := over_eq_some h
    obtain rfl := Sharing.issueInvite_eq_ok hdb
    exact hw
  | revokeInvite now ownerId rid =>
    obtain ⟨db', hdb, rfl⟩ := over_eq_some h
    obtain rfl := Sharing.revokeInvite_eq_ok hdb
    exact hw
  | openInvite now token userId =>
    obtain ⟨db', hdb, rfl⟩ := over_eq_some h
    rcases Sharing.openInvite_eq_ok hdb with rfl | ⟨rid, -, rfl⟩
    · exact hw
    · refine hw.kept (.of_eq rfl) ?_ fun _ _ _ _ _ hcarried ↦ hcarried
      rintro rid' userId' ⟨k, x, hx, hkey, hlistens⟩
      rcases Table.insert_some hx with hold | ⟨-, rfl⟩
      · exact ⟨k, x, hold, hkey, hlistens⟩
      · cases hlistens
  | accept now userId rid =>
    obtain ⟨db', hdb, rfl⟩ := over_eq_some h
    exact hw.accept hnow hdb
  | decline now userId rid =>
    cases h
    refine hw.kept (.of_eq rfl) ?_ fun _ _ _ _ _ hcarried ↦ hcarried
    rintro rid' userId' ⟨k, x, hx, hkey, hlistens⟩
    exact ⟨k, x, (Option.filter_eq_some_iff.mp ((Table.writes_deleteWhere ..).symm.trans hx)).1,
      hkey, hlistens⟩
  | leave now userId rid =>
    cases h
    have hback : ∀ rid' userId', Listening (Sharing.leave w.db userId rid) rid' userId' →
        Listening w.db rid' userId' ∧ (rid', userId') ≠ (rid, userId) := by
      rintro rid' userId' ⟨k, x, hx, hkey, hlistens⟩
      have hrow := Option.filter_eq_some_iff.mp ((Table.writes_deleteWhere ..).symm.trans hx)
      refine ⟨⟨k, x, hrow.1, hkey, hlistens⟩, fun heq ↦ ?_⟩
      have hwatcher := hleave k x hrow.1 (hkey.trans heq)
      have hstays := hrow.2
      rw [hkey, heq, hwatcher] at hstays
      simp at hstays
    refine hw.kept (.of_eq rfl) (fun _ _ hlistens ↦ (hback _ _ hlistens).1) ?_
    rintro i o userId' ho hlistens ⟨j, d, hd, hkey⟩
    refine ⟨j, d, (Table.writes_deleteWhere ..).trans ?_, hkey⟩
    have hstays : Deliveries.isPendingFor w.db rid userId d = false := by
      by_contra hgone
      rw [Bool.not_eq_false, Deliveries.isPendingFor, Bool.and_eq_true, Bool.and_eq_true,
        decide_eq_true_eq, show d.occurrenceId = i from congrArg Prod.fst hkey,
        show w.db.occurrences i = some o from ho, Option.any_some] at hgone
      refine (hback _ _ hlistens).2 (Prod.ext (of_decide_eq_true hgone.2) ?_)
      exact (congrArg Prod.snd hkey).symm.trans hgone.1.1
    rw [hd, Option.filter_some, hstays]
    rfl
  | deliver | react | sweep => exact absurd rfl hqueue

theorem unique_perform (hw : w.db.deliveries.Unique Delivery.key)
    (h : perform settings w op = some w') : w'.db.deliveries.Unique Delivery.key := by
  by_cases hqueue : op.isQueueing = true
  · exact unique_of_back hw fun j d hd ↦ (perform_sameKeys hqueue h).back hd
  cases op with
  | materialize now =>
    cases h
    exact unique_materializeAll _ _ hw
  | accept now userId rid =>
    obtain ⟨db', hdb, rfl⟩ := over_eq_some h
    obtain ⟨_, -, hdb⟩ := bind_eq_ok.mp hdb
    cases hdb
    split
    · exact hw
    · exact hw.insertMissing _
  | leave now userId rid =>
    cases h
    exact unique_of_filter hw fun _ ↦ Table.writes_deleteWhere ..
  | setStatus now ownerId rid status =>
    obtain ⟨db', hdb, rfl⟩ := over_eq_some h
    obtain ⟨r, -, rfl⟩ := Reminders.setStatus_eq_ok hdb
    split
    · exact hw
    · exact unique_of_filter hw (Occurrences.deliveries_deleteUnsent w.db rid)
  | update now ownerId rid change =>
    obtain ⟨db', hdb, rfl⟩ := over_eq_some h
    obtain ⟨r, -, -, rfl⟩ := Reminders.update_eq_ok hdb
    split
    · exact unique_of_filter hw (Occurrences.deliveries_deleteUnsent w.db rid)
    · exact hw
  | create now ownerId draft =>
    obtain ⟨db', hdb, rfl⟩ := over_eq_some h
    obtain ⟨-, rfl⟩ := Reminders.create_eq_ok hdb
    exact hw
  | issueInvite now ownerId rid token =>
    obtain ⟨db', hdb, rfl⟩ := over_eq_some h
    obtain rfl := Sharing.issueInvite_eq_ok hdb
    exact hw
  | revokeInvite now ownerId rid =>
    obtain ⟨db', hdb, rfl⟩ := over_eq_some h
    obtain rfl := Sharing.revokeInvite_eq_ok hdb
    exact hw
  | openInvite now token userId =>
    obtain ⟨db', hdb, rfl⟩ := over_eq_some h
    rcases Sharing.openInvite_eq_ok hdb with rfl | ⟨rid, -, rfl⟩ <;> exact hw
  | decline now userId rid =>
    cases h
    exact hw
  | deliver | react | sweep => exact absurd rfl hqueue

/-- Whoever listens to a reminder, from whenever on, has exactly one delivery of
each of its pending occurrences that has yet to fire. -/
theorem everybody_is_queued {users : Table User} {categories : Table Category}
    {ops : List Operation} (hclock : ∀ op ∈ ops, op.now ≤ til)
    (hleave : Guarded (perform settings) (fun w op ↦ op.LeavesAsWatcher w)
      (.initial users categories) ops)
    (hrun : run (perform settings) (.initial users categories) ops = some w)
    {i k : ℕ} {o : Occurrence} {x : Recipient} (ho : w.db.occurrences i = some o)
    (hpending : o.status = .pending) (hahead : til < o.fireAt)
    (hx : w.db.recipients k = some x) (hrid : x.reminderId = o.reminderId)
    (hlistens : listens x = true) :
    ∃! j, ∃ d, w.db.deliveries j = some d ∧ d.key = (i, x.userId) := by
  have hkept : Audible til w.db ∧ Accounted w.db ∧ w.db.deliveries.Unique Delivery.key := by
    refine run_invariant (P := fun w : World ↦ Audible til w.db ∧ Accounted w.db ∧
      w.db.deliveries.Unique Delivery.key) (fun w op w' hw hop h ↦ ?_) (hleave.and_forall hclock)
      hrun ⟨fun i o userId ho ↦ ?_, accounted_initial users categories, fun i j d d' hd ↦ ?_⟩
    · exact ⟨audible_perform hw.1 hw.2.1 hop.2 hop.1 h, accounted_perform hw.2.1 h,
        unique_perform hw.2.2 h⟩
    · cases ho
    · cases hd
  obtain ⟨haudible, -, hunique⟩ := hkept
  obtain ⟨j, d, hd, hkey⟩ := haudible i o x.userId ho hpending hahead
    ⟨k, x, hx, by rw [Recipient.key, hrid], hlistens⟩
  refine ⟨j, ⟨d, hd, hkey⟩, fun j' hj' ↦ ?_⟩
  obtain ⟨d', hd', hkey'⟩ := hj'
  exact hunique j' j d' d hd' hd (hkey'.trans hkey.symm)

/-- A watcher who joins when the first fortnight is already planned. -/
def lateComer : List Operation :=
  [.create 0 0 sampleDraft, .materialize 0, .issueInvite 0 0 0 "link", .openInvite 0 "link" 1,
    .accept 0 1 0]

theorem lateComer_leaves {w : World} :
    Guarded (perform sampleSettings) (fun w op ↦ op.LeavesAsWatcher w) w lateComer := by
  have hfree : Guarded (perform sampleSettings) (fun _ _ ↦ True) w lateComer :=
    .of_forall fun _ _ ↦ trivial
  refine hfree.mono fun w op hop _ ↦ ?_
  cases op with
  | leave => simp [lateComer] at hop
  | _ => trivial

theorem everybody_is_queued_sample :
    ∃ w o x, run (perform sampleSettings) (.initial sampleUsers sampleCategories) lateComer = some w ∧
      w.db.occurrences 0 = some o ∧ w.db.recipients 1 = some x ∧ x.role = .watcher ∧
        ∃! j, ∃ d, w.db.deliveries j = some d ∧ d.key = (0, x.userId) := by
  have hruns : (run (perform sampleSettings) (.initial sampleUsers sampleCategories) lateComer).any
      (fun w ↦ (w.db.occurrences 0).any fun o ↦ (w.db.recipients 1).any fun x ↦
        decide (o.status = .pending ∧ 0 < o.fireAt ∧ x.reminderId = o.reminderId ∧
          listens x = true ∧ x.role = .watcher)) = true := by
    decide +kernel
  obtain ⟨w, hrun, hruns⟩ := (Option.any_eq_true _ _).mp hruns
  obtain ⟨o, ho, hruns⟩ := (Option.any_eq_true _ _).mp hruns
  obtain ⟨x, hx, hruns⟩ := (Option.any_eq_true _ _).mp hruns
  obtain ⟨hpending, hahead, hrid, hlistens, hrole⟩ := of_decide_eq_true hruns
  have hclock : ∀ op ∈ lateComer, op.now ≤ 0 := by decide
  exact ⟨w, o, x, hrun, ho, hx, hrole, everybody_is_queued hclock lateComer_leaves hrun ho hpending
    hahead hx hrid hlistens⟩

end Runs

section Consent

open Planning

/-- Something is queued for the user about the reminder. -/
def Addressed (db : Database) (rid userId : ℕ) : Prop :=
  ∃ j d o, db.deliveries j = some d ∧ d.userId = userId ∧
    db.occurrences d.occurrenceId = some o ∧ o.reminderId = rid

variable {settings : Services.Settings} {w w' : World} {op : Operation}

theorem listening_of_wanted {db : Database} {rid : ℕ} {moments : List ℤ} {d : Delivery}
    (hd : d ∈ wantedDeliveries rid moments db) :
    ∃ o, db.occurrences d.occurrenceId = some o ∧ Listening db o.reminderId d.userId := by
  rw [wantedDeliveries] at hd
  split at hd
  · cases hd
  · obtain ⟨x, hx, hd⟩ := List.mem_flatMap.mp hd
    obtain ⟨u, hu, rfl⟩ := List.mem_map.mp hd
    obtain ⟨ho, hpick⟩ := Table.mem_select.mp hx
    refine ⟨x.2, ho, ?_⟩
    rw [of_decide_eq_true (Bool.and_eq_true_iff.mp hpick).1]
    exact mem_listAcceptedUserIds hu

theorem listening_of_materializeAll (settings : Planning.Settings) (horizonEnd : ℤ)
    {due : List (ℕ × Reminder)} {db : Database} {j : ℕ} {d : Delivery}
    (hd : (materializeAll settings horizonEnd due db).deliveries j = some d) :
    db.deliveries j = some d ∨ ∃ o,
      (materializeAll settings horizonEnd due db).occurrences d.occurrenceId = some o ∧
        Listening (materializeAll settings horizonEnd due db) o.reminderId d.userId := by
  have hone : ∀ (x : ℕ × Reminder) (owner : User) (db : Database),
      (materializeOne settings horizonEnd x owner db).recipients = db.recipients := by
    intro x owner db
    rw [materializeOne_eq, settle]
    split <;> rfl
  have hall : ∀ (due : List (ℕ × Reminder)) (db : Database),
      (materializeAll settings horizonEnd due db).recipients = db.recipients := by
    intro due
    induction due with
    | nil => exact fun _ ↦ rfl
    | cons x rest ih =>
      intro db
      rw [materializeAll]
      split
      · exact ih db
      · exact (ih _).trans (hone ..)
  induction due generalizing db with
  | nil => exact .inl hd
  | cons x rest ih =>
    rw [materializeAll] at hd ⊢
    split
    · rename_i hnone
      rw [hnone] at hd
      exact ih hd
    · rename_i owner howner
      rw [howner] at hd
      rcases ih hd with hrow | hnew
      · have hdeliveries : (materializeOne settings horizonEnd x owner db).deliveries =
            ((db.apply (planWrites settings horizonEnd x.1 x.2 owner db)).run
              (Deliveries.insertMissing (wantedDeliveries x.1 (plan horizonEnd x.1 x.2 db)
                (db.apply (planWrites settings horizonEnd x.1 x.2 owner db))))).deliveries := by
          rw [materializeOne_eq, settle]
          split <;> rfl
        rw [hdeliveries] at hrow
        rcases Table.insertMissing_some hrow with hold | ⟨-, hmem, -⟩
        · exact .inl hold
        · obtain ⟨o, ho, hlistens⟩ := listening_of_wanted hmem
          refine .inr ⟨o, (extends_materializeAll settings horizonEnd rest _).occurrences _ o ?_, ?_⟩
          · rw [materializeOne_occurrences]
            exact ho
          · rw [Listening, hall, hone]
            exact hlistens
      · exact .inr hnew

/-- Only whoever is counted in gets a delivery. -/
theorem new_delivery_listens {j : ℕ} {d : Delivery} (h : perform settings w op = some w')
    (hd : w'.db.deliveries j = some d) : (∃ d₀, w.db.deliveries j = some d₀ ∧ d₀.key = d.key) ∨
      ∃ o, w'.db.occurrences d.occurrenceId = some o ∧
        Listening w'.db o.reminderId d.userId := by
  by_cases hqueue : op.isQueueing = true
  · exact .inl ((perform_sameKeys hqueue h).back hd)
  have hfilter : ∀ {p : Delivery → Bool}, (w.db.deliveries j).filter p = some d →
      ∃ d₀, w.db.deliveries j = some d₀ ∧ d₀.key = d.key :=
    fun hrow ↦ ⟨d, (Option.filter_eq_some_iff.mp hrow).1, rfl⟩
  cases op with
  | materialize now =>
    cases h
    exact (listening_of_materializeAll _ _ hd).imp_left fun hold ↦ ⟨d, hold, rfl⟩
  | accept now userId rid =>
    obtain ⟨db', hdb, rfl⟩ := over_eq_some h
    obtain ⟨_, -, hdb⟩ := bind_eq_ok.mp hdb
    cases hdb
    by_cases hnone : (Recipients.accept rid userId now w.db).recipients = []
    · rw [if_pos hnone] at hd
      exact .inl ⟨d, hd, rfl⟩
    · rw [if_neg hnone] at hd ⊢
      rcases Table.insertMissing_some hd with hold | ⟨-, hmem, -⟩
      · exact .inl ⟨d, hold, rfl⟩
      · obtain ⟨⟨i, o⟩, hx, rfl⟩ := List.mem_map.mp hmem
        obtain ⟨ho, hrid, -⟩ := Occurrences.mem_listUpcoming.mp hx
        obtain ⟨⟨k, x⟩, hwrite⟩ := List.exists_mem_of_ne_nil _ hnone
        obtain ⟨⟨k, x₀⟩, hrow, heq⟩ := List.mem_map.mp hwrite
        obtain ⟨hrow, hpick⟩ := Table.mem_select.mp hrow
        refine .inr ⟨o, ho, k, { x₀ with acceptedAt := some now }, ?_, ?_, by simp [listens]⟩
        · change (w.db.run (Recipients.accept rid userId now)).recipients k = _
          rw [Recipients.recipients_accept, hrow, Option.map_some, if_pos hpick]
        · simp only [Bool.and_eq_true, decide_eq_true_eq] at hpick
          rw [hrid]
          exact hpick.1.1
  | leave now userId rid =>
    cases h
    exact .inl (hfilter ((Table.writes_deleteWhere ..).symm.trans hd))
  | setStatus now ownerId rid status =>
    obtain ⟨db', hdb, rfl⟩ := over_eq_some h
    obtain ⟨r, -, rfl⟩ := Reminders.setStatus_eq_ok hdb
    split at hd
    · exact .inl ⟨d, hd, rfl⟩
    · exact .inl (hfilter ((Occurrences.deliveries_deleteUnsent w.db rid j).symm.trans hd))
  | update now ownerId rid change =>
    obtain ⟨db', hdb, rfl⟩ := over_eq_some h
    obtain ⟨r, -, -, rfl⟩ := Reminders.update_eq_ok hdb
    split at hd
    · exact .inl (hfilter ((Occurrences.deliveries_deleteUnsent w.db rid j).symm.trans hd))
    · exact .inl ⟨d, hd, rfl⟩
  | create now ownerId draft =>
    obtain ⟨db', hdb, rfl⟩ := over_eq_some h
    obtain ⟨-, rfl⟩ := Reminders.create_eq_ok hdb
    exact .inl ⟨d, hd, rfl⟩
  | issueInvite now ownerId rid token =>
    obtain ⟨db', hdb, rfl⟩ := over_eq_some h
    obtain rfl := Sharing.issueInvite_eq_ok hdb
    exact .inl ⟨d, hd, rfl⟩
  | revokeInvite now ownerId rid =>
    obtain ⟨db', hdb, rfl⟩ := over_eq_some h
    obtain rfl := Sharing.revokeInvite_eq_ok hdb
    exact .inl ⟨d, hd, rfl⟩
  | openInvite now token userId =>
    obtain ⟨db', hdb, rfl⟩ := over_eq_some h
    rcases Sharing.openInvite_eq_ok hdb with rfl | ⟨rid, -, rfl⟩ <;> exact .inl ⟨d, hd, rfl⟩
  | decline now userId rid =>
    cases h
    exact .inl ⟨d, hd, rfl⟩
  | deliver | react | sweep => exact absurd rfl hqueue

theorem addressed_back {rid userId : ℕ} (hparented : Parented w.board)
    (h : perform settings w op = some w') (haddressed : Addressed w'.db rid userId) :
    Addressed w.db rid userId ∨ Listening w'.db rid userId := by
  obtain ⟨j, d, o, hd, huser, ho, hrid⟩ := haddressed
  rcases new_delivery_listens h hd with ⟨d₀, hd₀, hkey⟩ | ⟨o', ho', hlistens⟩
  · have hparent : d₀.occurrenceId = d.occurrenceId := congrArg Prod.fst hkey
    obtain ⟨f, hf⟩ := hparented j _ (World.letters_of hd₀)
    obtain ⟨o₁, ho₁, -⟩ := World.firing_some.mp hf
    have ho₁ : w.db.occurrences d.occurrenceId = some o₁ := hparent ▸ ho₁
    rcases perform_occurrence h ho with ⟨o₀, ho₀, hcont⟩ | ⟨hnone, -⟩
    · exact .inl ⟨j, d₀, o₀, hd₀, (congrArg Prod.snd hkey).trans huser, hparent.symm ▸ ho₀,
        hcont.reminderId.symm.trans hrid⟩
    · cases ho₁.symm.trans hnone
  · cases ho.symm.trans ho'
    rw [← hrid, ← huser]
    exact .inr hlistens

/-- Nobody hears from a reminder without having been its owner, or having
accepted the invitation, by then. -/
theorem nobody_uninvited {users : Table User} {categories : Table Category}
    {ops : List Operation} (hrun : run (perform settings) (.initial users categories) ops = some w)
    {m : Message} (hm : m ∈ w.outbox) : ∃ early late w₁, ops = early ++ late ∧
      run (perform settings) (.initial users categories) early = some w₁ ∧
        Listening w₁.db m.reminderId m.userId := by
  refine (exists_onset (fun w : World ↦ Parented w.board)
    (fun w ↦ Listening w.db m.reminderId m.userId)
    (fun w ↦ m ∈ w.outbox ∨ Addressed w.db m.reminderId m.userId)
    (fun w op w' hw h ↦ (perform_changes (meets_free settings w op) h).invariant
      (fun _ _ hb hchange ↦ hb.change hchange) hw)
    (fun w op w' hw h hlast ↦ ?_) hrun (fun _ _ h ↦ by cases h) (.inl hm)).resolve_left ?_
  · rcases hlast with hsent | haddressed
    · rcases outbox_perform h with ⟨now, gateway, rfl⟩ | hsame
      · cases h
        rcases List.mem_append.mp hsent with hold | hnew
        · exact .inl (.inl hold)
        · obtain ⟨x, -, d, o, -, hd, huser, hparent, -, ho, hrid, -⟩ := mem_deliver hnew
          exact .inl (.inr ⟨x.1, d, o, hd, huser, hparent ▸ ho, hrid⟩)
      · exact .inl (.inl (hsame ▸ hsent))
    · exact (addressed_back hw h haddressed).imp_left .inr
  · rintro (hsent | ⟨j, d, o, hd, -⟩)
    · cases hsent
    · cases hd

theorem nobody_uninvited_sample :
    ∃ w m, run (perform sampleSettings) (.initial sampleUsers sampleCategories)
        (lateComer ++ [.deliver (5 * day) (answering [] (5 * day))]) = some w ∧
      m ∈ w.outbox ∧ m.userId = 1 ∧ ∃ early late w₁,
        lateComer ++ [.deliver (5 * day) (answering [] (5 * day))] = early ++ late ∧
          run (perform sampleSettings) (.initial sampleUsers sampleCategories) early = some w₁ ∧
            Listening w₁.db m.reminderId m.userId := by
  have hruns : (run (perform sampleSettings) (.initial sampleUsers sampleCategories)
      (lateComer ++ [.deliver (5 * day) (answering [] (5 * day))])).any (fun w ↦
        w.outbox.any fun m ↦ decide (m.userId = 1)) = true := by
    decide +kernel
  obtain ⟨w, hrun, hruns⟩ := (Option.any_eq_true _ _).mp hruns
  obtain ⟨m, hm, huser⟩ := List.any_eq_true.mp hruns
  exact ⟨w, m, hrun, hm, of_decide_eq_true huser, nobody_uninvited hrun hm⟩

end Consent

end Remindo.Serial
