import Remindo.Serial.Repeats
import Remindo.Serial.Silence

namespace Remindo.Serial

open Remindo.Domain Remindo.Db Remindo.Services Remindo.Foundation
open Reaper (repeatAt repeatAll expireAll overdue requeue sweep)

section Candidates

variable {db : Database} {now : ℤ} {batch : ℕ} {j : ℕ}

/-- What the query for repeats would return without its limit. -/
def allCandidates (db : Database) (now : ℤ) : List Deliveries.RepeatCandidate :=
  (orderBy (fun d ↦ d.sentAt.getD 0) (db.deliveries.select fun i d ↦
    (Deliveries.repeatCandidate db (i, d)).any (Deliveries.isRepeatCandidate now))).filterMap
      (Deliveries.repeatCandidate db)

/-- A delivery that the domain would have sent again now. -/
def Owed (db : Database) (now : ℤ) (j : ℕ) : Prop :=
  ∃ d c moment, db.deliveries j = some d ∧ Deliveries.repeatCandidate db (j, d) = some c ∧
    d.status = .sent ∧ d.reactedAt = none ∧ now < c.occurrence.2.expiresAt ∧
      repeatAt now c = some moment

theorem listRepeatCandidates_eq (db : Database) (now : ℤ) (limit : ℕ) :
    Deliveries.listRepeatCandidates db now limit = (allCandidates db now).take limit := by
  refine filterMap_take (fun x hx ↦ ?_) limit
  have hdue := (Table.mem_select.mp (mem_orderBy.mp hx)).2
  cases hc : Deliveries.repeatCandidate db x with
  | none =>
    rw [hc] at hdue
    cases hdue
  | some c => rfl

theorem mem_allCandidates {c : Deliveries.RepeatCandidate} : c ∈ allCandidates db now ↔
    Deliveries.repeatCandidate db c.delivery = some c ∧
      db.deliveries c.delivery.1 = some c.delivery.2 ∧ Deliveries.isRepeatCandidate now c = true := by
  rw [allCandidates, List.mem_filterMap]
  constructor
  · rintro ⟨x, hx, hc⟩
    obtain ⟨hrow, hdue⟩ := Table.mem_select.mp (mem_orderBy.mp hx)
    obtain rfl := (Deliveries.repeatCandidate_eq_some hc).1
    rw [hc] at hdue
    exact ⟨hc, hrow, hdue⟩
  · rintro ⟨hc, hrow, hdue⟩
    refine ⟨c.delivery, mem_orderBy.mpr (Table.mem_select.mpr ⟨hrow, ?_⟩), hc⟩
    rw [hc]
    exact hdue

theorem nodup_allCandidates (db : Database) (now : ℤ) :
    ((allCandidates db now).map fun c ↦ c.delivery.1).Nodup := by
  have hnodup := Deliveries.nodup_listRepeatCandidates db now (allCandidates db now).length
  rwa [listRepeatCandidates_eq, List.take_length] at hnodup

/-- The query matches whatever the domain would have sent again. -/
theorem owed_iff : Owed db now j ↔
    ∃ c ∈ allCandidates db now, c.delivery.1 = j ∧ (repeatAt now c).isSome = true := by
  constructor
  · rintro ⟨d, c, moment, hd, hc, hsent, hsilent, hlives, hrepeat⟩
    obtain ⟨hrow, -⟩ := Deliveries.repeatCandidate_eq_some hc
    obtain ⟨hbudget, minutes, sentAt, hminutes, hsentAt, hdue⟩ := decideRepeat_eq_some hrepeat
    rw [hrow] at hsentAt
    change d.sentAt = some sentAt at hsentAt
    refine ⟨c, mem_allCandidates.mpr ⟨hrow ▸ hc, hrow ▸ hd, ?_⟩, by rw [hrow], by rw [hrepeat]; rfl⟩
    simp [Deliveries.isRepeatCandidate, hminutes, hrow, hsentAt, hsent, hsilent, hbudget, hlives, hdue]
  · rintro ⟨c, hc, rfl, hrepeat⟩
    obtain ⟨hc, hrow, hdue⟩ := mem_allCandidates.mp hc
    obtain ⟨moment, hmoment⟩ := Option.isSome_iff_exists.mp hrepeat
    simp only [Deliveries.isRepeatCandidate, Bool.and_eq_true, decide_eq_true_eq,
      Option.isNone_iff_eq_none] at hdue
    exact ⟨c.delivery.2, c, moment, hrow, hc, hdue.1.1.1.1, hdue.1.1.1.2, hdue.1.2, hmoment⟩

end Candidates

section Sweep

variable {db : Database} {now : ℤ} {batch : ℕ} {j : ℕ}

theorem journalSilence_users (now : ℤ) (sent : List (ℕ × Delivery)) (db : Database) :
    (Reaper.journalSilence now sent db).users = db.users := by
  induction sent generalizing db with
  | nil => rfl
  | cons d rest ih => exact ih _

theorem expireAll_users (now : ℤ) (late : List (ℕ × Occurrence)) (db : Database) :
    (expireAll now late db).users = db.users := by
  induction late generalizing db with
  | nil => rfl
  | cons x rest ih => exact (ih _).trans (journalSilence_users ..)

/-- What is expired was no candidate before and is none after. -/
theorem repeatCandidate_expireAll (db : Database) (now : ℤ) (batch : ℕ) (x : ℕ × Delivery) :
    Deliveries.repeatCandidate (expireAll now (overdue db now batch) db) x =
        Deliveries.repeatCandidate db x ∨
      (Deliveries.repeatCandidate (expireAll now (overdue db now batch) db) x).any
          (Deliveries.isRepeatCandidate now) = false ∧
        (Deliveries.repeatCandidate db x).any (Deliveries.isRepeatCandidate now) = false := by
  have hreminders := (restated_expireAll db now (overdue db now batch)).reminders
  have husers := expireAll_users now (overdue db now batch) db
  by_cases hlate : x.2.occurrenceId ∈ (overdue db now batch).map Prod.fst
  · obtain ⟨y, hy, hid⟩ := List.mem_map.mp hlate
    obtain ⟨ho, hover, -⟩ := Occurrences.mem_listExpired (List.mem_of_mem_filter hy)
    have hnever : ∀ db', (∀ o, db'.occurrences x.2.occurrenceId = some o → o.expiresAt < now) →
        (Deliveries.repeatCandidate db' x).any (Deliveries.isRepeatCandidate now) = false := by
      intro db' hdead
      cases hc : Deliveries.repeatCandidate db' x with
      | none => rfl
      | some c =>
        obtain ⟨-, hparent, hrow, -⟩ := Deliveries.repeatCandidate_eq_some hc
        have := hdead _ (hparent ▸ hrow)
        simp [Deliveries.isRepeatCandidate, not_lt.mpr this.le]
    refine .inr ⟨hnever _ fun o hrow ↦ ?_, hnever _ fun o hrow ↦ ?_⟩
    · rw [expireAll_occurrences, if_pos hlate, ← hid, ho] at hrow
      cases hrow
      exact hover
    · rw [← hid, ho] at hrow
      cases hrow
      exact hover
  · refine .inl ?_
    have hrow := @expireAll_occurrences db now x.2.occurrenceId (overdue db now batch)
    rw [if_neg hlate] at hrow
    rw [Deliveries.repeatCandidate, Deliveries.repeatCandidate, hrow, husers]
    simp only [hreminders]

/-- Expiring leaves alone what may still be sent again. -/
theorem allCandidates_expireAll (db : Database) (now : ℤ) (batch : ℕ) :
    allCandidates (expireAll now (overdue db now batch) db) now = allCandidates db now := by
  have hmatches : ∀ x, (Deliveries.repeatCandidate (expireAll now (overdue db now batch) db) x).any
      (Deliveries.isRepeatCandidate now) =
        (Deliveries.repeatCandidate db x).any (Deliveries.isRepeatCandidate now) := by
    intro x
    rcases repeatCandidate_expireAll db now batch x with hsame | ⟨hnever, hnever'⟩
    · rw [hsame]
    · rw [hnever, hnever']
  rw [allCandidates, allCandidates, expireAll_deliveries]
  simp only [hmatches]
  refine List.filterMap_congr fun x hx ↦ ?_
  have hdue := (Table.mem_select.mp (mem_orderBy.mp hx)).2
  refine (repeatCandidate_expireAll db now batch x).resolve_right fun hnever ↦ ?_
  rw [hnever.2] at hdue
  cases hdue

/-- Exactly the candidates within the limit that the domain accepts are sent
again. -/
theorem isRepeated_sweep_iff : isRepeated db (sweep db now batch) j = true ↔
    ∃ c ∈ (allCandidates db now).take batch, (repeatAt now c).isSome = true ∧ c.delivery.1 = j := by
  have hcandidates : Deliveries.listRepeatCandidates (expireAll now (overdue db now batch) db) now
      batch = (allCandidates db now).take batch := by
    rw [listRepeatCandidates_eq, allCandidates_expireAll]
  constructor
  · intro hrepeated
    rw [← hcandidates]
    exact exists_of_isRepeated hrepeated
  · rintro ⟨c, hc, hrepeat, rfl⟩
    obtain ⟨moment, hmoment⟩ := Option.isSome_iff_exists.mp hrepeat
    obtain ⟨-, hrow, hdue⟩ := mem_allCandidates.mp (List.mem_of_mem_take hc)
    have hrow' := hrow
    rw [← expireAll_deliveries now (overdue db now batch) db] at hrow'
    have hnodup := Deliveries.nodup_listRepeatCandidates
      (expireAll now (overdue db now batch) db) now batch
    have hrequeued := @repeatAll_requeues _ now _ [] hnodup c (hcandidates ▸ hc) moment hmoment _ hrow'
    have hsent : c.delivery.2.status = .sent := by
      simp only [Deliveries.isRepeatCandidate, Bool.and_eq_true, decide_eq_true_eq] at hdue
      exact hdue.1.1.1.1
    rw [isRepeated, sweep, Deliveries.deliveries_releaseStaleLocks, hrequeued, hrow]
    simp [hsent, requeue, Deliveries.isStale]

/-- Whatever the domain accepts is sent again by the sweep, unless the sweep has
sent a whole batch of others. -/
def Fair (db : Database) (now : ℤ) (batch : ℕ) : Prop :=
  ∀ j, Owed db now j → isRepeated db (sweep db now batch) j = true ∨
    ∃ others : List ℕ, others.Nodup ∧ others.length = batch ∧ j ∉ others ∧
      ∀ k ∈ others, isRepeated db (sweep db now batch) k = true

/-- The sweep is fair exactly if the limit cuts off nothing that would be sent
again, or nothing within it is declined. -/
theorem fair_iff (db : Database) (now : ℤ) (batch : ℕ) : Fair db now batch ↔
    (∀ c ∈ (allCandidates db now).drop batch, repeatAt now c = none) ∨
      ∀ c ∈ (allCandidates db now).take batch, (repeatAt now c).isSome = true := by
  let queue := (allCandidates db now).map fun c ↦ c.delivery.1
  have hqueue : queue.Nodup := nodup_allCandidates db now
  have howed : ∀ j, Owed db now j → j ∈ queue := by
    intro j hj
    obtain ⟨c, hc, hid, -⟩ := owed_iff.mp hj
    exact List.mem_map.mpr ⟨c, hc, hid⟩
  have hself : ∀ c ∈ allCandidates db now,
      Owed db now c.delivery.1 ↔ (repeatAt now c).isSome = true := by
    intro c hc
    rw [owed_iff]
    refine ⟨fun ⟨c', hc', hid, hrepeat⟩ ↦ ?_, fun hrepeat ↦ ⟨c, hc, rfl, hrepeat⟩⟩
    rwa [List.inj_on_of_nodup_map hqueue hc' hc hid] at hrepeat
  have hrepeated : ∀ j, isRepeated db (sweep db now batch) j = true ↔
      j ∈ queue.take batch ∧ Owed db now j := by
    intro j
    rw [isRepeated_sweep_iff, ← List.map_take, List.mem_map]
    constructor
    · rintro ⟨c, hc, hrepeat, rfl⟩
      exact ⟨⟨c, hc, rfl⟩, (hself c (List.mem_of_mem_take hc)).mpr hrepeat⟩
    · rintro ⟨⟨c, hc, rfl⟩, howes⟩
      exact ⟨c, hc, (hself c (List.mem_of_mem_take hc)).mp howes, rfl⟩
  have hcut : (∀ j ∈ queue.drop batch, ¬Owed db now j) ↔
      ∀ c ∈ (allCandidates db now).drop batch, repeatAt now c = none := by
    rw [← List.map_drop, List.forall_mem_map]
    refine forall₂_congr fun c hc ↦ ?_
    rw [hself c (List.mem_of_mem_drop hc), Option.not_isSome_iff_eq_none]
  have htaken : (∀ j ∈ queue.take batch, Owed db now j) ↔
      ∀ c ∈ (allCandidates db now).take batch, (repeatAt now c).isSome = true := by
    rw [← List.map_take, List.forall_mem_map]
    exact forall₂_congr fun c hc ↦ hself c (List.mem_of_mem_take hc)
  rw [← hcut, ← htaken, ← batch_fair_iff hqueue (Owed db now) batch, Fair]
  simp only [hrepeated]
  refine forall_congr' fun j ↦ ⟨fun h _ howes ↦ ?_, fun h howes ↦ ?_⟩
  · exact (h howes).imp_left And.left
  · exact (h (howed j howes) howes).imp_left fun htake ↦ ⟨htake, howes⟩

/-- Two mornings that were sent and not answered: the recipient of the earlier
one sleeps until it has expired. -/
def heavySleeper : Database where
  users := .ofList
    [{ timezone := .utc, quietStart := some (.oclock 22), quietEnd := some (.oclock 8) },
      { timezone := .utc }]
  categories := .empty
  reminders := .ofList
    [⟨0, 0, .active, everyMorning, .utc, 0, none, none, 1, 10, some 900, 2, some (2 * day)⟩,
      ⟨1, 0, .active, everyMorning, .utc, 0, none, none, 1, 10, some 900, 2, some (2 * day)⟩]
  recipients := .ofList [⟨0, 0, .owner, some 0⟩, ⟨1, 1, .owner, some 0⟩]
  invites := .empty
  occurrences := .ofList [⟨0, 8 * hour, 8 * hour, .sent, 0, 32 * hour⟩,
    ⟨1, 8 * hour, 8 * hour, .sent, 0, 32 * hour⟩]
  deliveries := .ofList
    [⟨0, 0, .sent, 0, 8 * hour, none, some 1, some (8 * hour), none, none, none⟩,
      ⟨1, 1, .sent, 0, 8 * hour, none, some 2, some (8 * hour + second), none, none, none⟩]
  actions := .empty

/-- With room for one, the declined repeat takes the place of the other. -/
theorem heavySleeper_displaces : ¬Fair heavySleeper (23 * hour + second) 1 := by
  intro hfair
  have howed : Owed heavySleeper (23 * hour + second) 1 :=
    ⟨_, _, 23 * hour + second, rfl, rfl, rfl, rfl, by decide, by decide +kernel⟩
  rcases hfair 1 howed with hrepeated |
    ⟨others, -, hlength, hother, hall⟩
  · revert hrepeated
    decide +kernel
  · obtain ⟨k, rfl⟩ := List.length_eq_one_iff.mp hlength
    have hk := hall k List.mem_cons_self
    have hrow : k < 2 := by
      by_contra hge
      have hnone : heavySleeper.deliveries k = none := heavySleeper.deliveries.fresh k (not_lt.mp hge)
      rw [isRepeated, hnone] at hk
      cases hk
    have hk0 : k = 0 := by
      have : k ≠ 1 := fun heq ↦ hother (heq ▸ List.mem_cons_self)
      omega
    subst hk0
    revert hk
    decide +kernel

end Sweep

end Remindo.Serial
