import Remindo.Domain.Digest
import Remindo.Services.Stats

namespace Remindo.Services.Digest

open Remindo.Domain Remindo.Db Remindo.Foundation

structure DigestResult where
  considered : ℕ := 0
  sent : ℕ := 0
  empty : ℕ := 0
  blocked : ℕ := 0
  failed : ℕ := 0
  deferred : ℕ := 0
  deriving DecidableEq

/-- What the weekly message is rendered from. -/
structure Report where
  userId : ℕ
  moment : ℤ
  summary : StatsSummary
  window : DigestWindow
  deriving DecidableEq

/-- The report keeps to the weekly moment, whenever it goes out. -/
def reportAt (db : Database) (userId : ℕ) (user : User) (moment : ℤ) : Report :=
  ⟨userId, moment, Stats.summaryFor db userId user moment none, digestWindow moment user.timezone⟩

/-- The transport's answer to each user's message, `none` being a success. -/
abbrev Gateway := ℕ → Option ErrorClass

/-- The database after a step of the cycle, what it adds to the result, and the
message that reached its user. -/
structure Outcome where
  db : Database
  result : DigestResult
  sent : Option Report := none

def mark (db : Database) (userId : ℕ) (moment : ℤ) : Database :=
  db.run (Users.markDigestSent userId moment)

/-- A retry-after or a transient fault leaves the mark off, and the next tick
tries again; the others stop this week's digest for good. -/
def failed (db : Database) (userId : ℕ) (moment : ℤ) : ErrorClass → Outcome
  | .retryAfter | .transient => ⟨db, { deferred := 1 }, none⟩
  | .forbidden => ⟨mark (db.run (Users.markBlocked userId true)) userId moment, { blocked := 1 }, none⟩
  | .badRequest => ⟨mark db userId moment, { failed := 1 }, none⟩

def send (gateway : Gateway) (db : Database) (report : Report) : Outcome :=
  match gateway report.userId with
  | none => ⟨mark db report.userId report.moment, { sent := 1 }, some report⟩
  | some error => failed db report.userId report.moment error

/-- One user's digest, by the row the candidates were read with. -/
def one (weekday : ℕ) (hour : Fin 24) (now : ℤ) (gateway : Gateway) (db : Database)
    (candidate : ℕ × User) : Outcome :=
  match digestDueAt now candidate.2.timezone weekday hour candidate.2.digestSentAt
      (quietHoursOf candidate.2) with
  | none => ⟨db, { deferred := 1 }, none⟩
  | some moment =>
    let report := reportAt db candidate.1 candidate.2 moment
    -- Nothing happened, so there is nothing to report, but the mark still goes down.
    if report.summary.last7Days.total = 0 then ⟨mark db candidate.1 moment, { empty := 1 }, none⟩
    else send gateway db report

def add (left right : DigestResult) : DigestResult where
  considered := left.considered
  sent := left.sent + right.sent
  empty := left.empty + right.empty
  blocked := left.blocked + right.blocked
  failed := left.failed + right.failed
  deferred := left.deferred + right.deferred

/-- The candidates in turn, each on a transaction of its own. -/
def each (weekday : ℕ) (hour : Fin 24) (now : ℤ) (gateway : Gateway) :
    List (ℕ × User) → Database × DigestResult × List Report → Database × DigestResult × List Report
  | [], acc => acc
  | candidate :: rest, (db, result, sent) =>
    let outcome := one weekday hour now gateway db candidate
    each weekday hour now gateway rest
      (outcome.db, add result outcome.result, sent ++ outcome.sent.toList)

def run (weekday : ℕ) (hour : Fin 24) (batchSize : ℕ) (now : ℤ) (gateway : Gateway) (db : Database) :
    Database × DigestResult × List Report :=
  let candidates := Users.listDigestCandidates db now batchSize
  each weekday hour now gateway candidates (db, { considered := candidates.length }, [])

/-- The moments one user has been reported to at. -/
def sentTo (userId : ℕ) (reports : List Report) : List ℤ :=
  (reports.filter fun r ↦ decide (r.userId = userId)).map Report.moment

@[simp] theorem sentTo_nil (userId : ℕ) : sentTo userId [] = [] := rfl

@[simp] theorem sentTo_append (userId : ℕ) (reports reports' : List Report) :
    sentTo userId (reports ++ reports') = sentTo userId reports ++ sentTo userId reports' := by
  simp [sentTo]

section Turns

variable {weekday : ℕ} {hour : Fin 24} {now moment : ℤ} {gateway : Gateway} {db : Database}
  {i j : ℕ} {u : User}

@[simp] theorem users_mark : (mark db i moment).users j =
    if j = i then (db.users i).map (fun u ↦ { u with digestSentAt := some moment })
    else db.users j := Table.writes_update ..

@[simp] theorem users_markBlocked {blocked : Bool} : (db.run (Users.markBlocked i blocked)).users j =
    if j = i then (db.users i).map (fun u ↦ { u with isBlocked := blocked })
    else db.users j := Table.writes_update ..

theorem users_mark_self (hrow : db.users i = some u) (moment : ℤ) :
    (mark db i moment).users i = some { u with digestSentAt := some moment } := by simp [hrow]

theorem users_mark_blocked (hrow : db.users i = some u) (moment : ℤ) :
    (mark (db.run (Users.markBlocked i true)) i moment).users i =
      some { u with digestSentAt := some moment, isBlocked := true } := by simp [hrow]

/-- What one tick may do to a user, and what it reports to them: nothing, or it
marks the moment that is due, with or without a message about it. -/
inductive Turn (weekday : ℕ) (hour : Fin 24) (now : ℤ) (u : User) : User → List ℤ → Prop
  | kept : Turn weekday hour now u u []
  | marked {moment : ℤ} (isBlocked : Bool)
      (due : digestDueAt now u.timezone weekday hour u.digestSentAt (quietHoursOf u) = some moment) :
      Turn weekday hour now u { u with digestSentAt := some moment, isBlocked := isBlocked } []
  | reported {moment : ℤ}
      (due : digestDueAt now u.timezone weekday hour u.digestSentAt (quietHoursOf u) = some moment) :
      Turn weekday hour now u { u with digestSentAt := some moment } [moment]

theorem one_turn (weekday : ℕ) (hour : Fin 24) (now : ℤ) (gateway : Gateway)
    (hrow : db.users i = some u) :
    ∃ u', (one weekday hour now gateway db (i, u)).db.users i = some u' ∧
      Turn weekday hour now u u' (sentTo i (one weekday hour now gateway db (i, u)).sent.toList) := by
  rw [one]
  split
  · exact ⟨u, hrow, .kept⟩
  · rename_i moment hdue
    dsimp only
    split
    · exact ⟨_, users_mark_self hrow moment, .marked u.isBlocked hdue⟩
    · rw [send]
      split
      · exact ⟨_, users_mark_self hrow moment, by simpa [sentTo, reportAt] using .reported hdue⟩
      · rename_i error herror
        cases error with
        | retryAfter | transient => exact ⟨u, hrow, .kept⟩
        | forbidden => exact ⟨_, users_mark_blocked hrow moment, .marked true hdue⟩
        | badRequest => exact ⟨_, users_mark_self hrow moment, .marked u.isBlocked hdue⟩

/-- One user's digest is nothing to the others. -/
theorem one_frame (weekday : ℕ) (hour : Fin 24) (now : ℤ) (gateway : Gateway) (db : Database)
    {candidate : ℕ × User} (h : i ≠ candidate.1) :
    (one weekday hour now gateway db candidate).db.users i = db.users i ∧
      sentTo i (one weekday hour now gateway db candidate).sent.toList = [] := by
  rw [one]
  split
  · simp
  · dsimp only
    split
    · simp [h]
    · rw [send]
      split
      · simp [reportAt, sentTo, h, h.symm]
      · rename_i error herror
        cases error <;> simp [failed, reportAt, h]

theorem each_frame {candidates : List (ℕ × User)} (h : i ∉ candidates.map Prod.fst)
    (db : Database) (result : DigestResult) (reports : List Report) :
    (each weekday hour now gateway candidates (db, result, reports)).1.users i = db.users i ∧
      sentTo i (each weekday hour now gateway candidates (db, result, reports)).2.2 =
        sentTo i reports := by
  induction candidates generalizing db result reports with
  | nil => exact ⟨rfl, rfl⟩
  | cons candidate rest ih =>
    obtain ⟨hne, hrest⟩ := not_or.mp (List.mem_cons.not.mp h)
    obtain ⟨hrow, hsent⟩ := one_frame weekday hour now gateway db hne
    rw [each]
    refine ⟨(ih hrest _ _ _).1.trans hrow, (ih hrest _ _ _).2.trans ?_⟩
    rw [sentTo_append, hsent, List.append_nil]

theorem each_turn {candidates : List (ℕ × User)} (hnodup : (candidates.map Prod.fst).Nodup)
    (hrow : db.users i = some u) (hrows : ∀ u', (i, u') ∈ candidates → u' = u)
    (result : DigestResult) (reports : List Report) :
    ∃ u' moments,
      (each weekday hour now gateway candidates (db, result, reports)).1.users i = some u' ∧
        sentTo i (each weekday hour now gateway candidates (db, result, reports)).2.2 =
          sentTo i reports ++ moments ∧ Turn weekday hour now u u' moments := by
  induction candidates generalizing db result reports with
  | nil => exact ⟨u, [], hrow, (List.append_nil _).symm, .kept⟩
  | cons candidate rest ih =>
    obtain ⟨hfresh, hrest⟩ := List.nodup_cons.mp hnodup
    rw [each]
    by_cases hself : candidate.1 = i
    · obtain rfl : candidate = (i, u) :=
        Prod.ext hself (hrows _ (hself ▸ List.mem_cons_self))
      obtain ⟨u', hu', hturn⟩ := one_turn weekday hour now gateway hrow
      obtain ⟨hkept, hsent⟩ := each_frame hfresh (one weekday hour now gateway db (i, u)).db
        (add result (one weekday hour now gateway db (i, u)).result)
        (reports ++ (one weekday hour now gateway db (i, u)).sent.toList)
      exact ⟨u', _, hkept.trans hu', hsent.trans (sentTo_append _ _ _), hturn⟩
    · obtain ⟨hkept, hsent⟩ := one_frame weekday hour now gateway db (Ne.symm hself)
      have hturn := ih hrest (hkept.trans hrow) (fun u' hu' ↦ hrows u' (List.mem_cons_of_mem _ hu'))
        (add result (one weekday hour now gateway db candidate).result)
        (reports ++ (one weekday hour now gateway db candidate).sent.toList)
      rwa [sentTo_append, hsent, List.append_nil] at hturn

/-- A digest that is due is marked, unless the transport asks for another time. -/
theorem one_marks {weekday : ℕ} {hour : Fin 24} {now moment : ℤ} (gateway : Gateway)
    (hrow : db.users i = some u)
    (hdue : digestDueAt now u.timezone weekday hour u.digestSentAt (quietHoursOf u) = some moment) :
    ((one weekday hour now gateway db (i, u)).db.users i).bind User.digestSentAt = some moment ∨
      gateway i = some .retryAfter ∨ gateway i = some .transient := by
  rw [one, hdue]
  dsimp only
  split
  · rw [users_mark_self hrow]
    exact .inl rfl
  · rw [send]
    split
    · refine .inl ?_
      dsimp only [reportAt]
      rw [users_mark_self hrow]
      rfl
    · rename_i error herror
      cases error with
      | retryAfter => exact .inr (.inl herror)
      | transient => exact .inr (.inr herror)
      | forbidden =>
        refine .inl ?_
        dsimp only [reportAt, failed]
        rw [users_mark_blocked hrow]
        rfl
      | badRequest =>
        refine .inl ?_
        dsimp only [reportAt, failed]
        rw [users_mark_self hrow]
        rfl

theorem each_marks {candidates : List (ℕ × User)} (hnodup : (candidates.map Prod.fst).Nodup)
    (hmem : (i, u) ∈ candidates) (hrow : db.users i = some u)
    (hdue : digestDueAt now u.timezone weekday hour u.digestSentAt (quietHoursOf u) = some moment)
    (result : DigestResult) (reports : List Report) :
    ((each weekday hour now gateway candidates (db, result, reports)).1.users i).bind
        User.digestSentAt = some moment ∨
      gateway i = some .retryAfter ∨ gateway i = some .transient := by
  induction candidates generalizing db result reports with
  | nil => cases hmem
  | cons candidate rest ih =>
    obtain ⟨hfresh, hrest⟩ := List.nodup_cons.mp hnodup
    rw [each]
    rcases List.mem_cons.mp hmem with rfl | hmem
    · rw [(each_frame hfresh _ _ _).1]
      exact one_marks gateway hrow hdue
    · have hne : i ≠ candidate.1 := fun heq ↦
        hfresh (heq ▸ List.mem_map_of_mem (f := Prod.fst) hmem)
      exact ih hrest hmem ((one_frame weekday hour now gateway db hne).1.trans hrow) _ _

theorem run_turn (weekday : ℕ) (hour : Fin 24) (batchSize : ℕ) (now : ℤ) (gateway : Gateway)
    (hrow : db.users i = some u) :
    ∃ u', (run weekday hour batchSize now gateway db).1.users i = some u' ∧
      Turn weekday hour now u u' (sentTo i (run weekday hour batchSize now gateway db).2.2) := by
  have hrows : ∀ u', (i, u') ∈ Users.listDigestCandidates db now batchSize → u' = u := fun u' hu' ↦
    Option.some_inj.mp ((Users.mem_listDigestCandidates hu').symm.trans hrow)
  obtain ⟨u', moments, hu', hsent, hturn⟩ := each_turn (Users.nodup_listDigestCandidates db now batchSize)
    hrow hrows { considered := (Users.listDigestCandidates db now batchSize).length } []
  exact ⟨u', hu', hsent ▸ hturn⟩

end Turns

end Remindo.Services.Digest
