import Remindo.Foundation.Listing
import Remindo.Serial.Digests

namespace Remindo.Serial.Digests

open Remindo.Domain Remindo.Db Remindo.Foundation
open Remindo.Services.Digest (Gateway run)

section Batch

variable {setup : Setup} {db : Database} {now : ℤ} {gateway : Gateway} {i : ℕ} {u : User}

/-- The weekly moment the tick finds owed by a row. -/
def due (setup : Setup) (now : ℤ) (u : User) : Option ℤ :=
  digestDueAt now u.timezone setup.weekday setup.hour u.digestSentAt (quietHoursOf u)

/-- What the query for candidates would return without its limit. -/
def queue (db : Database) (now : ℤ) : List (ℕ × User) :=
  nullsFirst User.digestSentAt (db.users.select fun _ u ↦ Users.isDigestCandidate now u)

/-- An onboarded, unblocked user with the digest switched on, to whom one is due. -/
def Owed (setup : Setup) (db : Database) (now : ℤ) (i : ℕ) : Prop :=
  ∃ u, db.users i = some u ∧ (u.onboardedAt.isSome = true ∧ u.isBlocked = false ∧
    u.digestEnabled = true) ∧ (due setup now u).isSome = true

/-- The tick reads the user, finds a digest due, and marks it or has been asked
by the transport to come back. -/
def Processed (setup : Setup) (db : Database) (now : ℤ) (gateway : Gateway) (i : ℕ) : Prop :=
  ∃ u moment, (i, u) ∈ Users.listDigestCandidates db now setup.batchSize ∧
    due setup now u = some moment ∧
      (((run setup.weekday setup.hour setup.batchSize now gateway db).1.users i).bind
          User.digestSentAt = some moment ∨
        gateway i = some .retryAfter ∨ gateway i = some .transient)

theorem mem_queue : (i, u) ∈ queue db now ↔
    db.users i = some u ∧ Users.isDigestCandidate now u = true := by
  rw [queue, (nullsFirst_perm _ _).mem_iff, Table.mem_select]

theorem nodup_queue (db : Database) (now : ℤ) : ((queue db now).map Prod.fst).Nodup := by
  have hnodup := Users.nodup_listDigestCandidates db now (queue db now).length
  rwa [Users.listDigestCandidates, ← queue, List.take_length] at hnodup

theorem owed_of_mem_queue (hmem : (i, u) ∈ queue db now) :
    Owed setup db now i ↔ (due setup now u).isSome = true := by
  obtain ⟨hrow, hcandidate⟩ := mem_queue.mp hmem
  simp only [Users.isDigestCandidate, Bool.and_eq_true, Bool.not_eq_true'] at hcandidate
  obtain ⟨⟨⟨honboarded, hopen⟩, henabled⟩, -⟩ := hcandidate
  constructor
  · rintro ⟨u', hrow', -, hdue⟩
    rwa [Option.some_inj.mp (hrow.symm.trans hrow')]
  · exact fun hdue ↦ ⟨u, hrow, ⟨honboarded, hopen, henabled⟩, hdue⟩

/-- Whoever is read and owed something is seen to. -/
theorem processed_iff : Processed setup db now gateway i ↔
    i ∈ ((queue db now).map Prod.fst).take setup.batchSize ∧ Owed setup db now i := by
  have hlist : Users.listDigestCandidates db now setup.batchSize =
      (queue db now).take setup.batchSize := rfl
  rw [← List.map_take, List.mem_map]
  constructor
  · rintro ⟨u, moment, hmem, hdue, -⟩
    rw [hlist] at hmem
    refine ⟨⟨(i, u), hmem, rfl⟩, (owed_of_mem_queue (List.mem_of_mem_take hmem)).mpr ?_⟩
    rw [hdue]
    rfl
  · rintro ⟨⟨⟨_, u⟩, hmem, rfl⟩, howed⟩
    obtain ⟨moment, hdue⟩ := Option.isSome_iff_exists.mp
      ((owed_of_mem_queue (List.mem_of_mem_take hmem)).mp howed)
    have hrow := Users.mem_listDigestCandidates (hlist ▸ hmem)
    exact ⟨u, moment, hlist ▸ hmem, hdue, Services.Digest.each_marks
      (Users.nodup_listDigestCandidates db now setup.batchSize) (hlist ▸ hmem) hrow hdue _ _⟩

/-- Every digest that is owed is seen to in the tick, unless a whole batch of
others was. -/
def Fair (setup : Setup) (db : Database) (now : ℤ) (gateway : Gateway) : Prop :=
  ∀ i, Owed setup db now i → Processed setup db now gateway i ∨
    ∃ others : List ℕ, others.Nodup ∧ others.length = setup.batchSize ∧ i ∉ others ∧
      ∀ j ∈ others, Processed setup db now gateway j

/-- The tick is fair exactly if the query leaves out nobody who is owed and the
limit cuts off nobody either, or a full batch is read and all of it is due. -/
theorem digest_batch_fair_iff (setup : Setup) (db : Database) (now : ℤ) (gateway : Gateway) :
    Fair setup db now gateway ↔
      ((∀ i u, db.users i = some u → Owed setup db now i → Users.isUnmarked now u = true) ∧
          ∀ c ∈ (queue db now).drop setup.batchSize, due setup now c.2 = none) ∨
        setup.batchSize ≤ (queue db now).length ∧
          ∀ c ∈ (queue db now).take setup.batchSize, (due setup now c.2).isSome = true := by
  have hread : (∀ i, Owed setup db now i → i ∈ (queue db now).map Prod.fst) ↔
      ∀ i u, db.users i = some u → Owed setup db now i → Users.isUnmarked now u = true := by
    constructor
    · intro hall i u hrow howed
      obtain ⟨⟨_, u'⟩, hmem, rfl⟩ := List.mem_map.mp (hall i howed)
      obtain ⟨hrow', hcandidate⟩ := mem_queue.mp hmem
      obtain rfl := Option.some_inj.mp (hrow.symm.trans hrow')
      simp only [Users.isDigestCandidate, Bool.and_eq_true] at hcandidate
      exact hcandidate.2
    · rintro hall i ⟨u, hrow, ⟨honboarded, hopen, henabled⟩, hdue⟩
      have hunmarked := hall i u hrow ⟨u, hrow, ⟨honboarded, hopen, henabled⟩, hdue⟩
      refine List.mem_map.mpr ⟨(i, u), mem_queue.mpr ⟨hrow, ?_⟩, rfl⟩
      simp [Users.isDigestCandidate, honboarded, hopen, henabled, hunmarked]
  have hcut : (∀ i ∈ ((queue db now).map Prod.fst).drop setup.batchSize, ¬Owed setup db now i) ↔
      ∀ c ∈ (queue db now).drop setup.batchSize, due setup now c.2 = none := by
    rw [← List.map_drop, List.forall_mem_map]
    refine forall₂_congr fun c hc ↦ ?_
    rw [owed_of_mem_queue (List.mem_of_mem_drop hc), Option.not_isSome_iff_eq_none]
  have htaken : (∀ i ∈ ((queue db now).map Prod.fst).take setup.batchSize, Owed setup db now i) ↔
      ∀ c ∈ (queue db now).take setup.batchSize, (due setup now c.2).isSome = true := by
    rw [← List.map_take, List.forall_mem_map]
    exact forall₂_congr fun c hc ↦ owed_of_mem_queue (List.mem_of_mem_take hc)
  have hfair := batch_fair_all_iff (nodup_queue db now) (Owed setup db now) setup.batchSize
  rw [hread, hcut, htaken, List.length_map] at hfair
  rw [← hfair, Fair]
  simp only [processed_iff]
  exact forall₂_congr fun i howed ↦ or_congr_left (and_iff_left howed)

/-- Two users on a Monday at nine: the first one sleeps in. -/
def lateMonday : Database := .initial
  (.ofList
    [{ timezone := .utc, quietStart := some (.oclock 22), quietEnd := some (.oclock 10),
       onboardedAt := some 0 },
      { timezone := .utc, onboardedAt := some 0 }]) .empty

def mondayOne : Setup := { mondayNine with batchSize := 1 }

/-- With room for one, whoever sleeps in keeps the digest from the other. -/
theorem sleeper_holds_the_batch :
    ¬Fair mondayOne lateMonday (4 * day + 9 * hour + second) (fun _ ↦ none) := by
  intro hfair
  have hlist : (Users.listDigestCandidates lateMonday (4 * day + 9 * hour + second) 1).map Prod.fst =
      [0] := by
    decide +kernel
  have hnobody : ∀ j, ¬Processed mondayOne lateMonday (4 * day + 9 * hour + second)
      (fun _ ↦ none) j := by
    rintro j ⟨u, moment, hmem, hdue, -⟩
    have hid : j ∈ (Users.listDigestCandidates lateMonday (4 * day + 9 * hour + second) 1).map
        Prod.fst := List.mem_map_of_mem (f := Prod.fst) hmem
    obtain rfl := List.mem_singleton.mp (hlist ▸ hid)
    have hnone : (lateMonday.users 0).bind (due mondayOne (4 * day + 9 * hour + second)) = none := by
      decide +kernel
    rw [Users.mem_listDigestCandidates hmem, Option.bind_some, hdue] at hnone
    cases hnone
  have howed : Owed mondayOne lateMonday (4 * day + 9 * hour + second) 1 :=
    ⟨_, rfl, ⟨rfl, rfl, rfl⟩, by decide +kernel⟩
  rcases hfair 1 howed with hself | ⟨others, -, hlength, -, hothers⟩
  · exact hnobody 1 hself
  · obtain ⟨j, rfl⟩ := List.length_eq_one_iff.mp hlength
    exact hnobody j (hothers j List.mem_cons_self)

end Batch

end Remindo.Serial.Digests
