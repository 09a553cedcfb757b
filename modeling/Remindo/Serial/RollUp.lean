import Remindo.Serial.Strides
import Remindo.Serial.Watermark

namespace Remindo.Serial

open Remindo.Domain Remindo.Db Remindo.Services Remindo.Foundation

/-- Somebody has answered the occurrence. -/
def Answered (db : Database) (i : ℕ) : Prop :=
  ∃ j d, db.deliveries j = some d ∧ d.occurrenceId = i ∧ d.status.isAnswer = true

/-- Nobody is left to answer it. -/
def Finished (db : Database) (i : ℕ) : Prop :=
  ∀ j d, db.deliveries j = some d → d.occurrenceId = i → d.status.isTerminal = true

/-- These deliveries are the last open ones of an open occurrence that has been
answered. -/
def Strands (db : Database) (gone : ℕ → Delivery → Bool) : Prop :=
  ∃ i o, db.occurrences i = some o ∧ o.status.isTerminal = false ∧ Answered db i ∧
    ¬Finished db i ∧ ∀ j d, db.deliveries j = some d → d.occurrenceId = i →
      d.status.isTerminal = false → gone j d = true

/-- An answered occurrence is closed with its last delivery. -/
def RolledUp (db : Database) : Prop :=
  ∀ i o, db.occurrences i = some o → o.status ≠ .expired → Answered db i → Finished db i →
    o.status = .done ∨ o.status = .skipped

/-- No attempt gives up, and no leave takes back, what strands an answer. -/
def answersKept : Rules where
  mayEnd db gone := ¬Strands db gone
  mayPlan _ := True
  mayJoin _ := True

structure RollUp (db : Database) : Prop where
  parented : ∀ j d, db.deliveries j = some d → (db.occurrences d.occurrenceId).isSome = true
  sound : ∀ i o, db.occurrences i = some o → o.status ≠ .failed
  rolled : RolledUp db

section Steps

variable {db db' : Database} {w w' : World} {i : ℕ}

theorem answered_congr (h : ∀ j d, d.occurrenceId = i →
    (db'.deliveries j = some d ↔ db.deliveries j = some d)) : Answered db' i ↔ Answered db i := by
  refine exists_congr fun j ↦ exists_congr fun d ↦ ?_
  by_cases hd : d.occurrenceId = i
  · rw [h j d hd]
  · simp [hd]

theorem finished_congr (h : ∀ j d, d.occurrenceId = i →
    (db'.deliveries j = some d ↔ db.deliveries j = some d)) : Finished db' i ↔ Finished db i := by
  refine forall_congr' fun j ↦ forall_congr' fun d ↦ ?_
  by_cases hd : d.occurrenceId = i
  · rw [h j d hd]
  · simp [hd]

theorem Moves.elsewhere {j : ℕ} {d d' : Delivery} (h : Moves db db' j d d')
    (hi : i ≠ d.occurrenceId) (k : ℕ) (e : Delivery) (he : e.occurrenceId = i) :
    db'.deliveries k = some e ↔ db.deliveries k = some e := by
  by_cases hk : k = j
  · subst hk
    rw [h.before, h.after]
    constructor
    · rintro ⟨⟩
      exact absurd (he.symm.trans h.parent) hi
    · rintro ⟨⟩
      exact absurd he.symm hi
  · rw [h.rest k hk]

theorem Moves.not_finished {j : ℕ} {d d' : Delivery} (h : Moves db db' j d d') :
    ¬Finished db d.occurrenceId := by
  intro hfinished
  have hopen := h.opened
  rw [hfinished j d h.before rfl] at hopen
  cases hopen

/-- Once the last open deliveries are gone without an answer stranded, an
answered occurrence must have been closed before. -/
theorem RollUp.closed_of_ended (h : RollUp db) {gone : ℕ → Delivery → Bool}
    (hend : ¬Strands db gone) {o : Occurrence} (ho : db.occurrences i = some o)
    (hexpired : o.status ≠ .expired) (hanswered : Answered db i)
    (hlast : ∀ j d, db.deliveries j = some d → d.occurrenceId = i →
      d.status.isTerminal = false → gone j d = true) : o.status = .done ∨ o.status = .skipped := by
  by_cases hfinished : Finished db i
  · exact h.rolled i o ho hexpired hanswered hfinished
  · have hclosed : o.status.isTerminal = true := by
      by_contra hopen
      exact hend ⟨i, o, ho, eq_false_of_ne_true hopen, hanswered, hfinished, hlast⟩
    cases hstatus : o.status with
    | done => exact .inl rfl
    | skipped => exact .inr rfl
    | expired => exact absurd hstatus hexpired
    | failed => exact absurd hstatus (h.sound i o ho)
    | pending | dispatching | sent =>
      rw [hstatus] at hclosed
      cases hclosed

theorem RollUp.turns (h : RollUp db) {k : ℕ} {o' : Occurrence} {status : OccurrenceStatus}
    (hk : Turns db db' k o' status) (hstatus : status ≠ .failed)
    (hparented : ∀ j d, db'.deliveries j = some d →
      ∃ d₀, db.deliveries j = some d₀ ∧ d₀.occurrenceId = d.occurrenceId)
    (hrolled : status = .expired ∨ status = .done ∨ status = .skipped ∨ ¬Finished db' k)
    (hrest : ∀ i, i ≠ k → ∀ j d, d.occurrenceId = i →
      (db'.deliveries j = some d ↔ db.deliveries j = some d)) : RollUp db' := by
  refine ⟨fun j d hd ↦ ?_, fun i o ho ↦ ?_, fun i o ho hexpired hanswered hfinished ↦ ?_⟩
  · obtain ⟨d₀, hd₀, hparent⟩ := hparented j d hd
    have hbefore := h.parented j d₀ hd₀
    rw [hparent] at hbefore
    by_cases hi : d.occurrenceId = k
    · have hafter := hk.after
      rw [hi, Option.isSome_iff_ne_none]
      intro hnone
      rw [hnone] at hafter
      cases hafter
    · rw [← Option.isSome_map, hk.rest _ hi, Option.isSome_map]
      exact hbefore
  · rcases hk.back ho with ⟨-, hstate⟩ | ⟨-, o₁, ho₁, hstate⟩
    · rw [show o.status = status from congrArg Prod.snd hstate]
      exact hstatus
    · rw [← show o₁.status = o.status from congrArg Prod.snd hstate]
      exact h.sound i o₁ ho₁
  · rcases hk.back ho with ⟨rfl, hstate⟩ | ⟨hi, o₁, ho₁, hstate⟩
    · rw [show o.status = status from congrArg Prod.snd hstate] at hexpired ⊢
      rcases hrolled with hrolled | hrolled | hrolled | hrolled
      · exact absurd hrolled hexpired
      · exact .inl hrolled
      · exact .inr hrolled
      · exact absurd hfinished hrolled
    · rw [← show o₁.status = o.status from congrArg Prod.snd hstate] at hexpired ⊢
      exact h.rolled i o₁ ho₁ hexpired ((answered_congr (hrest i hi)).mp hanswered)
        ((finished_congr (hrest i hi)).mp hfinished)

/-- With the occurrences as they were, it is enough to look at what the
deliveries say now. -/
theorem RollUp.sameStates (h : RollUp db) (hstates : SameStates db db')
    (hparented : ∀ j d, db'.deliveries j = some d → (db.occurrences d.occurrenceId).isSome = true)
    (hrolled : ∀ i o, db.occurrences i = some o → o.status ≠ .expired → Answered db' i →
      Finished db' i → o.status = .done ∨ o.status = .skipped) : RollUp db' := by
  have hback : ∀ i o, db'.occurrences i = some o →
      ∃ o₀, db.occurrences i = some o₀ ∧ o₀.status = o.status := by
    intro i o ho
    obtain ⟨o₀, ho₀, -, hstatus⟩ := hstates.symm.exists_some ho
    exact ⟨o₀, ho₀, hstatus⟩
  refine ⟨fun j d hd ↦ ?_, fun i o ho ↦ ?_, fun i o ho hexpired hanswered hfinished ↦ ?_⟩
  · rw [← Option.isSome_map, hstates, Option.isSome_map]
    exact hparented j d hd
  · obtain ⟨o₀, ho₀, hstatus⟩ := hback i o ho
    rw [← hstatus]
    exact h.sound i o₀ ho₀
  · obtain ⟨o₀, ho₀, hstatus⟩ := hback i o ho
    rw [← hstatus] at hexpired ⊢
    exact hrolled i o₀ ho₀ hexpired hanswered hfinished

theorem not_terminal_of_answer {s : DeliveryStatus} (hanswer : s.isAnswer = true)
    (hopen : s.isTerminal = false) : False := by
  rw [DeliveryStatus.isTerminal_of_isAnswer hanswer] at hopen
  cases hopen

theorem RollUp.plan (h : RollUp db) (hd : db'.deliveries = db.deliveries)
    (hkept : ∀ i o, db.occurrences i = some o → db'.occurrences i = some o)
    (hnew : ∀ i o, db'.occurrences i = some o → db.occurrences i = some o ∨
      db.occurrences i = none ∧ o.status = .pending) : RollUp db' := by
  refine ⟨fun j d hj ↦ ?_, fun i o ho ↦ ?_, fun i o ho hexpired hanswered hfinished ↦ ?_⟩
  · rw [hd] at hj
    obtain ⟨o, ho⟩ := Option.isSome_iff_exists.mp (h.parented j d hj)
    rw [hkept _ o ho]
    rfl
  · rcases hnew i o ho with hold | ⟨-, hpending⟩
    · exact h.sound i o hold
    · rw [hpending]
      nofun
  · have hsame : ∀ j d, d.occurrenceId = i → (db'.deliveries j = some d ↔
        db.deliveries j = some d) := fun j d _ ↦ by rw [hd]
    rcases hnew i o ho with hold | ⟨hnone, -⟩
    · exact h.rolled i o hold hexpired ((answered_congr hsame).mp hanswered)
        ((finished_congr hsame).mp hfinished)
    · obtain ⟨j, d, hj, hparent, -⟩ := (answered_congr hsame).mp hanswered
      have hsome := h.parented j d hj
      rw [hparent, hnone] at hsome
      cases hsome

theorem RollUp.drop (h : RollUp db) {rid : ℕ}
    (ho : ∀ i, db'.occurrences i =
      (db.occurrences i).filter fun o ↦ !Occurrences.isUnsent db rid i o)
    (hd : ∀ j, db'.deliveries j = (db.deliveries j).filter fun d ↦
      !(db.occurrences d.occurrenceId).any (Occurrences.isUnsent db rid d.occurrenceId)) :
    RollUp db' := by
  have hback : ∀ i o, db'.occurrences i = some o → db.occurrences i = some o ∧
      Occurrences.isUnsent db rid i o = false := by
    intro i o hi
    rw [ho, Option.filter_eq_some_iff, Bool.not_eq_true'] at hi
    exact hi
  refine ⟨fun j d hj ↦ ?_, fun i o hi ↦ h.sound i o (hback i o hi).1,
    fun i o hi hexpired hanswered hfinished ↦ ?_⟩
  · rw [hd, Option.filter_eq_some_iff, Bool.not_eq_true'] at hj
    obtain ⟨o, hi⟩ := Option.isSome_iff_exists.mp (h.parented j d hj.1)
    rw [hi, Option.any_some] at hj
    rw [ho, hi, Option.filter_some, hj.2]
    rfl
  · obtain ⟨hold, hkeep⟩ := hback i o hi
    have hsame : ∀ j d, d.occurrenceId = i → (db'.deliveries j = some d ↔
        db.deliveries j = some d) := by
      intro j d hparent
      rw [hd, Option.filter_eq_some_iff, hparent, hold, Option.any_some, hkeep]
      simp
    exact h.rolled i o hold hexpired ((answered_congr hsame).mp hanswered)
      ((finished_congr hsame).mp hfinished)

theorem Moves.parented {j k : ℕ} {d d' e : Delivery} (h : Moves db db' j d d')
    (hk : db'.deliveries k = some e) :
    ∃ e₀, db.deliveries k = some e₀ ∧ e₀.occurrenceId = e.occurrenceId := by
  by_cases hkj : k = j
  · subst hkj
    obtain rfl := Option.some_inj.mp (h.after.symm.trans hk)
    exact ⟨d, h.before, h.parent.symm⟩
  · exact ⟨e, h.rest k hkj ▸ hk, rfl⟩

theorem RollUp.hold (h : RollUp db) (hstates : SameStates db db')
    (hd : ∀ j, db'.deliveries j = db.deliveries j ∨
      ∃ d d', db.deliveries j = some d ∧ db'.deliveries j = some d' ∧
        d'.occurrenceId = d.occurrenceId ∧ d.status.isTerminal = false ∧
        d'.status.isTerminal = false) : RollUp db' := by
  refine h.sameStates hstates (fun j d hj ↦ ?_) fun i o ho hexpired hanswered hfinished ↦
    h.rolled i o ho hexpired ?_ fun j d hj hparent ↦ ?_
  · rcases hd j with hsame | ⟨d₀, d', hbefore, hafter, hparent, -⟩
    · exact h.parented j d (hsame ▸ hj)
    · obtain rfl := Option.some_inj.mp (hafter.symm.trans hj)
      rw [hparent]
      exact h.parented j d₀ hbefore
  · obtain ⟨j, d, hj, hparent, hanswer⟩ := hanswered
    rcases hd j with hsame | ⟨-, d', -, hafter, -, -, hopen⟩
    · exact ⟨j, d, hsame ▸ hj, hparent, hanswer⟩
    · obtain rfl := Option.some_inj.mp (hafter.symm.trans hj)
      exact (not_terminal_of_answer hanswer hopen).elim
  · rcases hd j with hsame | ⟨d₀, d', hbefore, hafter, hparent', -, hopen⟩
    · exact hfinished j d (hsame ▸ hj) hparent
    · obtain rfl := Option.some_inj.mp (hbefore.symm.trans hj)
      rw [hfinished j d' hafter (hparent'.trans hparent)] at hopen
      cases hopen

theorem RollUp.enqueue (h : RollUp db) (hstates : SameStates db db')
    (hkept : ∀ j d, db.deliveries j = some d → db'.deliveries j = some d)
    (hnew : ∀ j d, db'.deliveries j = some d → db.deliveries j = some d ∨
      d.status = .pending ∧ (db.occurrences d.occurrenceId).isSome = true) : RollUp db' := by
  refine h.sameStates hstates (fun j d hj ↦ ?_) fun i o ho hexpired hanswered hfinished ↦
    h.rolled i o ho hexpired ?_ fun j d hj hparent ↦ hfinished j d (hkept j d hj) hparent
  · exact (hnew j d hj).elim (h.parented j d) And.right
  · obtain ⟨j, d, hj, hparent, hanswer⟩ := hanswered
    rcases hnew j d hj with hold | ⟨hpending, -⟩
    · exact ⟨j, d, hold, hparent, hanswer⟩
    · rw [hpending] at hanswer
      cases hanswer

theorem RollUp.giveUp (h : RollUp db) {j : ℕ} {d d' : Delivery} (hstates : SameStates db db')
    (hj : Moves db db' j d d') (hsilent : d'.status.isAnswer = false)
    (hend : ¬Strands db fun k _ ↦ decide (k = j)) : RollUp db' := by
  refine h.sameStates hstates (fun k e hk ↦ ?_) fun i o ho hexpired hanswered hfinished ↦
    h.closed_of_ended hend ho hexpired ?_ fun k e hk hparent hopen ↦ decide_eq_true ?_
  · obtain ⟨e₀, hk₀, hparent⟩ := hj.parented hk
    exact hparent ▸ h.parented k e₀ hk₀
  · obtain ⟨k, e, hk, hparent, hanswer⟩ := hanswered
    have hkj : k ≠ j := by
      rintro rfl
      obtain rfl := Option.some_inj.mp (hj.after.symm.trans hk)
      rw [hsilent] at hanswer
      cases hanswer
    exact ⟨k, e, hj.rest k hkj ▸ hk, hparent, hanswer⟩
  · by_contra hkj
    rw [hfinished k e ((hj.rest k hkj).trans hk) hparent] at hopen
    cases hopen

theorem RollUp.send (h : RollUp db) {j : ℕ} {d d' : Delivery} {o : Occurrence}
    (hj : Moves db db' j d d') (hsent : d'.status = .sent)
    (hi : Turns db db' d.occurrenceId o .sent) : RollUp db' := by
  refine h.turns hi nofun (fun k e hk ↦ hj.parented hk) (.inr (.inr (.inr fun hfinished ↦ ?_)))
    fun i hne ↦ hj.elsewhere hne
  have hterminal := hfinished j d' hj.after hj.parent
  rw [hsent] at hterminal
  cases hterminal

/-- An answer that leaves somebody to answer still. -/
theorem RollUp.answer (h : RollUp db) {j k : ℕ} {d d' e : Delivery} (hj : Moves db db' j d d')
    (hstates : SameStates db db') (hk : db'.deliveries k = some e)
    (hparent : e.occurrenceId = d.occurrenceId) (hopen : e.status.isTerminal = false) :
    RollUp db' := by
  refine h.sameStates hstates (fun k e hk ↦ ?_) fun i o ho hexpired hanswered hfinished ↦ ?_
  · obtain ⟨e₀, hk₀, hparent⟩ := hj.parented hk
    exact hparent ▸ h.parented k e₀ hk₀
  · have hne : i ≠ d.occurrenceId := by
      intro heq
      rw [hfinished k e hk (hparent.trans heq.symm)] at hopen
      cases hopen
    exact h.rolled i o ho hexpired ((answered_congr (hj.elsewhere hne)).mp hanswered)
      ((finished_congr (hj.elsewhere hne)).mp hfinished)

theorem RollUp.withdraw (h : RollUp db) {gone : ℕ → Delivery → Bool}
    (hstates : SameStates db db')
    (hd : ∀ j, db'.deliveries j = (db.deliveries j).filter fun d ↦ !gone j d)
    (hend : ¬Strands db gone) : RollUp db' := by
  have hback : ∀ j d, db'.deliveries j = some d ↔ db.deliveries j = some d ∧ gone j d = false := by
    intro j d
    rw [hd, Option.filter_eq_some_iff, Bool.not_eq_true']
  refine h.sameStates hstates (fun j d hj ↦ h.parented j d ((hback j d).mp hj).1)
    fun i o ho hexpired hanswered hfinished ↦
      h.closed_of_ended hend ho hexpired ?_ fun j d hj hparent hopen ↦ ?_
  · obtain ⟨j, d, hj, hparent, hanswer⟩ := hanswered
    exact ⟨j, d, ((hback j d).mp hj).1, hparent, hanswer⟩
  · by_contra hkeep
    rw [hfinished j d ((hback j d).mpr ⟨hj, eq_false_of_ne_true hkeep⟩) hparent] at hopen
    cases hopen

theorem RollUp.stride (h : RollUp w.db) (hstride : Stride answersKept w w') : RollUp w'.db := by
  cases hstride with
  | hold hstates hd => exact h.hold hstates hd
  | plan hd hkept hnew =>
    exact h.plan hd hkept fun i o ho ↦ (hnew i o ho).imp_right fun hnew ↦ ⟨hnew.1, hnew.2.2⟩
  | enqueue hstates hkept hnew =>
    refine h.enqueue hstates hkept fun j d hj ↦ (hnew j d hj).imp_right fun hnew ↦ ⟨hnew.2.1, ?_⟩
    obtain ⟨-, -, o, ho, -⟩ := hnew
    rw [ho]
    rfl
  | giveUp hstates hj hended hsilent hend => exact h.giveUp hstates hj hsilent hend
  | send hj hsent hi hmessage => exact h.send hj hsent hi
  | answer hj hanswer hi =>
    rcases hi with ⟨hstates, k, e, hk, hparent, hopen⟩ | ⟨o, status, hi, hclosed⟩
    · exact h.answer hj hstates hk hparent hopen
    · refine h.turns hi ?_ (fun k e hk ↦ hj.parented hk) (.inr (hclosed.imp_right .inl))
        fun i hne ↦ hj.elsewhere hne
      rcases hclosed with rfl | rfl <;> nofun
  | expire hd hi =>
    exact h.turns hi nofun (fun j d hj ↦ ⟨d, hd ▸ hj, rfl⟩) (.inl rfl)
      fun i _ j d _ ↦ by rw [hd]
  | withdraw hstates hgone hd hend => exact h.withdraw hstates hd hend
  | drop rid ho hd => exact h.drop ho hd

theorem rollUp_perform {settings : Settings} {op : Operation} (h : RollUp w.db)
    (hobeys : op.Obeys answersKept settings w) (hstep : perform settings w op = some w') :
    RollUp w'.db := by
  have hstrides := perform_strides hobeys hstep
  clear hstep
  induction hstrides with
  | refl => exact h
  | tail _ hstride ih => exact ih.stride hstride

theorem rollUp_initial (users : Table User) (categories : Table Category) :
    RollUp (.initial users categories) where
  parented j d h := by cases h
  sound i o h := by cases h
  rolled i o h := by cases h

end Steps

/-- As long as nobody strands an answer, an answered occurrence is closed by
the time its last delivery is, and stays so. -/
theorem answers_roll_up {settings : Settings} {users : Table User} {categories : Table Category}
    {ops later : List Operation}
    {w w' : World}
    (hkept : Guarded (perform settings) (fun w op ↦ op.Obeys answersKept settings w)
      (.initial users categories) ops)
    (hrun : run (perform settings) (.initial users categories) ops = some w)
    (hlater : run (perform settings) w later = some w') {i : ℕ} {o : Occurrence}
    (ho : w.db.occurrences i = some o) (hexpired : o.status ≠ .expired)
    (hanswered : Answered w.db i) (hfinished : Finished w.db i) :
    (o.status = .done ∨ o.status = .skipped) ∧
      ∃ o', w'.db.occurrences i = some o' ∧ o'.status = o.status := by
  have hrolled : RollUp w.db :=
    run_invariant (fun _ _ _ h hobeys hstep ↦ rollUp_perform h hobeys hstep) hkept hrun
      (rollUp_initial users categories)
  have hclosed := hrolled.rolled i o ho hexpired hanswered hfinished
  refine ⟨hclosed, ?_⟩
  have hterminal : o.status.isTerminal = true := by rcases hclosed with h | h <;> rw [h] <;> rfl
  obtain ⟨o', ho', hstate⟩ := Option.map_eq_some_iff.mp (closed_run hlater ho hterminal)
  exact ⟨o', ho', congrArg Prod.snd hstate⟩

section Sample

instance (db : Database) (i : ℕ) : Decidable (Answered db i) :=
  decidable_of_iff ((db.deliveries.find fun d ↦
    decide (d.occurrenceId = i) && d.status.isAnswer) ≠ none) <| by
      rw [Ne, Table.find_none, not_forall]
      refine exists_congr fun j ↦ ?_
      rw [not_forall]
      refine exists_congr fun d ↦ ?_
      simp

instance (db : Database) (i : ℕ) : Decidable (Finished db i) :=
  decidable_of_iff _ Occurrences.allDeliveriesTerminal_iff

instance (db : Database) (gone : ℕ → Delivery → Bool) : Decidable (Strands db gone) :=
  decidable_of_iff (∃ x ∈ db.occurrences.select (fun _ o ↦ !o.status.isTerminal),
    Answered db x.1 ∧ ¬Finished db x.1 ∧ ∀ y ∈ db.deliveries.select (fun _ d ↦
      decide (d.occurrenceId = x.1) && !d.status.isTerminal), gone y.1 y.2 = true) <| by
    constructor
    · intro ⟨x, hx, hanswered, hfinished, hlast⟩
      obtain ⟨ho, hopen⟩ := Table.mem_select.mp hx
      refine ⟨x.1, x.2, ho, by simpa using hopen, hanswered, hfinished, fun j d hj hparent hd ↦ ?_⟩
      exact hlast (j, d) (Table.mem_select.mpr ⟨hj, by simp [hparent, hd]⟩)
    · intro ⟨i, o, ho, hopen, hanswered, hfinished, hlast⟩
      refine ⟨(i, o), Table.mem_select.mpr ⟨ho, by simp [hopen]⟩, hanswered, hfinished, ?_⟩
      intro y hy
      obtain ⟨hj, hd⟩ := Table.mem_select.mp hy
      rw [Bool.and_eq_true, decide_eq_true_eq, Bool.not_eq_true'] at hd
      exact hlast y.1 y.2 hj hd.1 hd.2

instance (db : Database) (gone : ℕ → Delivery → Bool) : Decidable (answersKept.mayEnd db gone) :=
  inferInstanceAs (Decidable (¬_))

instance (rid : ℕ) : Decidable (answersKept.mayPlan rid) := isTrue trivial

instance (o : Occurrence) : Decidable (answersKept.mayJoin o) := isTrue trivial

/-- The gateway that answers the deliveries by these results, at one moment. -/
def answering (results : List SendResult) (now : ℤ) : Dispatching.Gateway :=
  fun j ↦ (results.getD j (.delivered 0), now)

/-- A reminder of two recipients, up to the first attempt on both deliveries:
the owner gets the message, the watcher's transport fails for a while. -/
def sharedLife : List Operation :=
  [.create 0 0 sampleDraft, .issueInvite 0 0 0 "link", .openInvite 0 "link" 1, .accept 0 1 0,
    .materialize 0,
    .deliver (5 * day) (answering [.delivered 7, .failed .transient none "TelegramNetworkError"] (5 * day))]

/-- The owner answers, and then the watcher gets the message and answers too. -/
def everybodyAnswers : List Operation :=
  sharedLife ++ [.react (5 * day) 0 0 .done,
    .deliver (5 * day + hour) (answering [.delivered 7, .delivered 8] (5 * day + hour)),
    .react (5 * day + hour) 1 1 .skip]

/-- The owner answers, and then the watcher turns out to have blocked the bot. -/
def watcherBlocks : List Operation :=
  sharedLife ++ [.react (5 * day) 0 0 .done,
    .deliver (5 * day + hour) (answering [.delivered 7, .failed .forbidden none "TelegramForbiddenError"]
      (5 * day + hour))]

theorem answers_roll_up_sample :
    ∃ w o, run (perform sampleSettings) (.initial sampleUsers sampleCategories) everybodyAnswers = some w ∧
      w.db.occurrences 0 = some o ∧ (o.status = .done ∨ o.status = .skipped) := by
  have hanswered :
    (run (perform sampleSettings) (.initial sampleUsers sampleCategories) everybodyAnswers).any
      (fun w ↦ (w.db.occurrences 0).any fun o ↦
        decide (o.status ≠ .expired ∧ Answered w.db 0 ∧ Finished w.db 0)) = true := by
    decide +kernel
  obtain ⟨w, hrun, hanswered⟩ := (Option.any_eq_true _ _).mp hanswered
  obtain ⟨o, ho, hanswered⟩ := (Option.any_eq_true _ _).mp hanswered
  obtain ⟨hexpired, hanswered, hfinished⟩ := of_decide_eq_true hanswered
  have hkept : Guarded (perform sampleSettings) (fun w op ↦ op.Obeys answersKept sampleSettings w)
      (.initial sampleUsers sampleCategories) everybodyAnswers := by
    decide +kernel
  exact ⟨w, o, hrun, ho,
    (answers_roll_up hkept hrun (show run _ w [] = some w from rfl) ho hexpired hanswered
      hfinished).1⟩

/-- A block is the last word on the answered occurrence, which is then swept up
as silence. -/
theorem block_strands_answer :
    ∃ w o w' o',
      run (perform sampleSettings) (.initial sampleUsers sampleCategories) watcherBlocks = some w ∧
      w.db.occurrences 0 = some o ∧ o.status ≠ .expired ∧ Answered w.db 0 ∧ Finished w.db 0 ∧
        ¬(o.status = .done ∨ o.status = .skipped) ∧
          perform sampleSettings w (.sweep (8 * day)) = some w' ∧
            w'.db.occurrences 0 = some o' ∧ o'.status = .expired := by
  have hstranded : (run (perform sampleSettings) (.initial sampleUsers sampleCategories) watcherBlocks).any
      (fun w ↦ ((w.db.occurrences 0).any fun o ↦
        decide (o.status ≠ .expired ∧ Answered w.db 0 ∧ Finished w.db 0 ∧
          ¬(o.status = .done ∨ o.status = .skipped))) &&
        ((Reaper.sweep w.db (8 * day) sampleSettings.reaperBatch).occurrences 0).any fun o ↦
          decide (o.status = .expired)) = true := by
    decide +kernel
  obtain ⟨w, hrun, hstranded⟩ := (Option.any_eq_true _ _).mp hstranded
  rw [Bool.and_eq_true, Option.any_eq_true, Option.any_eq_true] at hstranded
  obtain ⟨⟨o, ho, hopen⟩, o', ho', hexpired⟩ := hstranded
  obtain ⟨hopen, hanswered, hfinished, hclosed⟩ := of_decide_eq_true hopen
  exact ⟨w, o, _, o', hrun, ho, hopen, hanswered, hfinished, hclosed, rfl, ho',
    of_decide_eq_true hexpired⟩

end Sample

end Remindo.Serial
