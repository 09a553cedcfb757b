import Remindo.Serial.Calendar
import Remindo.Serial.RollUp

namespace Remindo.Serial

open Remindo.Domain Remindo.Db Remindo.Services Remindo.Foundation

/-- Some recipient of the occurrence has a message of it. -/
def Told (outbox : List Message) (i : ℕ) : Prop := ∃ m ∈ outbox, m.occurrenceId = i

/-- An occurrence has left `pending` only by being sent or closed. -/
def Heard (w : World) : Prop :=
  ∀ i o, w.db.occurrences i = some o →
    o.status = .pending ∨ o.status.isTerminal = true ∨ Told w.outbox i

/-- A pause that leaves no occurrence half taken back: what is still pending
has only pending deliveries, or only terminal ones. -/
def CleanPause (db : Database) (rid : ℕ) : Prop :=
  ∀ i o, db.occurrences i = some o → o.reminderId = rid → o.status = .pending →
    Occurrences.answered db i = false ∨ Finished db i

/-- The operation does not resume the reminder, and lets nobody join what a
pause has left pending. -/
def Operation.LeavesPaused (rid : ℕ) (w : World) : Operation → Prop
  | .setStatus _ _ rid' status => ¬(rid' = rid ∧ status = .active)
  | .accept now userId rid' =>
    rid' = rid → (Recipients.accept rid userId now w.db).recipients ≠ [] →
      Occurrences.listUpcoming w.db rid now = []
  | _ => True

/-- Every occurrence of the reminder nobody had heard of is out of the
dispatcher's reach. -/
def Quiet (rid : ℕ) (before : List Message) (db : Database) : Prop :=
  ∀ i o, db.occurrences i = some o → o.reminderId = rid →
    Told before i ∨ o.status.isTerminal = true ∨ Finished db i

/-- The messages that have gone out since, about what was known already. -/
def Hushed (rid : ℕ) (before : List Message) (w : World) : Prop :=
  ∃ messages, w.outbox = before ++ messages ∧
    ∀ m ∈ messages, m.reminderId = rid → Told before m.occurrenceId

/-- Nobody plans the reminder or joins it. -/
def hushed (rid : ℕ) : Rules where
  mayEnd _ _ := True
  mayPlan r := r ≠ rid
  mayJoin o := o.reminderId ≠ rid

section Steps

variable {rules : Rules} {db db' : Database} {w w' : World} {rid : ℕ} {before : List Message}

theorem Heard.stride (h : Heard w) (hstride : Stride rules w w') : Heard w' := by
  have hsame : ∀ {db : Database}, SameStates w.db db → Heard { w with db := db } := by
    intro db hstates i o ho
    obtain ⟨o₀, ho₀, -, hstatus⟩ := hstates.symm.exists_some ho
    have hheard := h i o₀ ho₀
    rw [hstatus] at hheard
    exact hheard
  have hturns : ∀ {db : Database} {outbox : List Message} {k : ℕ} {o₀ : Occurrence}
      {status : OccurrenceStatus}, Turns w.db db k o₀ status →
      (status.isTerminal = true ∨ Told outbox k) → (∀ i, Told w.outbox i → Told outbox i) →
        Heard ⟨db, outbox⟩ := by
    intro db outbox k o₀ status hk htold hmono i o ho
    rcases hk.back ho with ⟨rfl, hstate⟩ | ⟨-, o₁, ho₁, hstate⟩
    · rw [show o.status = status from congrArg Prod.snd hstate]
      exact .inr htold
    · have hheard := h i o₁ ho₁
      rw [show o₁.status = o.status from congrArg Prod.snd hstate] at hheard
      exact hheard.imp_right fun hheard ↦ hheard.imp_right (hmono i)
  cases hstride with
  | hold hstates | enqueue hstates | giveUp hstates | withdraw hstates => exact hsame hstates
  | plan hd hkept hnew =>
    intro i o ho
    rcases hnew i o ho with hold | ⟨-, -, hpending⟩
    · exact h i o hold
    · exact .inl hpending
  | @send db j d d' o message hj hsent hi hmessage =>
    refine hturns hi (.inr ⟨message, by simp, hmessage.1⟩) fun i ⟨m, hm, hmi⟩ ↦ ?_
    exact ⟨m, List.mem_append_left _ hm, hmi⟩
  | answer hj hanswer hi =>
    rcases hi with ⟨hstates, -⟩ | ⟨o, status, hi, hclosed⟩
    · exact hsame hstates
    · refine hturns hi (.inl ?_) fun _ htold ↦ htold
      rcases hclosed with rfl | rfl <;> rfl
  | expire hd hi => exact hturns hi (.inl rfl) fun _ htold ↦ htold
  | drop rid ho hd =>
    intro i o hi
    rw [ho, Option.filter_eq_some_iff] at hi
    exact h i o hi.1

theorem Quiet.stride (h : Quiet rid before w.db) (hstride : Stride (hushed rid) w w') :
    Quiet rid before w'.db := by
  have hsame : ∀ {db : Database}, SameStates w.db db →
      (∀ i o, w.db.occurrences i = some o → o.reminderId = rid → Finished w.db i →
        Finished db i) → Quiet rid before db := by
    intro db hstates hfinished i o ho hrid
    obtain ⟨o₀, ho₀, hrid₀, hstatus⟩ := hstates.symm.exists_some ho
    have hquiet := h i o₀ ho₀ (hrid₀.trans hrid)
    rw [hstatus] at hquiet
    exact hquiet.imp_right fun hquiet ↦
      hquiet.imp_right (hfinished i o₀ ho₀ (hrid₀.trans hrid))
  have hmoves : ∀ {db : Database} {j : ℕ} {d d' : Delivery}, Moves w.db db j d d' → ∀ i,
      Finished w.db i → Finished db i := by
    intro db j d d' hj i hfinished
    have hne : i ≠ d.occurrenceId := fun heq ↦ hj.not_finished (heq ▸ hfinished)
    exact (finished_congr (hj.elsewhere hne)).mpr hfinished
  have hturns : ∀ {db : Database} {k : ℕ} {o₀ : Occurrence} {status : OccurrenceStatus},
      Turns w.db db k o₀ status → (o₀.reminderId = rid → Told before k ∨ status.isTerminal = true) →
        (∀ i, Finished w.db i → Finished db i) → Quiet rid before db := by
    intro db k o₀ status hk htold hfinished i o ho hrid
    rcases hk.back ho with ⟨rfl, hstate⟩ | ⟨-, o₁, ho₁, hstate⟩
    · rw [show o.status = status from congrArg Prod.snd hstate]
      have hrid₀ : o.reminderId = o₀.reminderId := congrArg Prod.fst hstate
      exact (htold (hrid₀.symm.trans hrid)).imp_right .inl
    · have hquiet := h i o₁ ho₁ ((congrArg Prod.fst hstate).trans hrid)
      rw [show o₁.status = o.status from congrArg Prod.snd hstate] at hquiet
      exact hquiet.imp_right fun hquiet ↦ hquiet.imp_right (hfinished i)
  cases hstride with
  | hold hstates hd =>
    refine hsame hstates fun i o _ _ hfinished j d hj hparent ↦ ?_
    rcases hd j with hunchanged | ⟨d₀, d', hbefore, hafter, hparent', hopen, -⟩
    · exact hfinished j d (hunchanged ▸ hj) hparent
    · obtain rfl := Option.some_inj.mp (hafter.symm.trans hj)
      rw [hfinished j d₀ hbefore (hparent'.symm.trans hparent)] at hopen
      cases hopen
  | plan hd hkept hnew =>
    intro i o ho hrid
    rcases hnew i o ho with hold | ⟨-, hplan, -⟩
    · have hquiet := h i o hold hrid
      refine hquiet.imp_right fun hquiet ↦ hquiet.imp_right fun hfinished j d hj ↦ ?_
      exact hfinished j d (hd ▸ hj)
    · exact absurd hrid hplan
  | enqueue hstates hkept hnew =>
    refine hsame hstates fun i o ho hrid hfinished j d hj hparent ↦ ?_
    rcases hnew j d hj with hold | ⟨-, -, o', ho', hallowed⟩
    · exact hfinished j d hold hparent
    · rw [hparent] at ho'
      obtain rfl := Option.some_inj.mp (ho.symm.trans ho')
      exact absurd hrid (hallowed.elim id id)
  | giveUp hstates hj => exact hsame hstates fun i _ _ _ ↦ hmoves hj i
  | @send db j d d' o message hj hsent hi hmessage =>
    refine hturns hi (fun hrid ↦ ?_) fun i ↦ hmoves hj i
    rcases h _ o hi.before hrid with htold | hclosed | hfinished
    · exact .inl htold
    · rw [hi.opened] at hclosed
      cases hclosed
    · exact absurd hfinished hj.not_finished
  | answer hj hanswer hi =>
    rcases hi with ⟨hstates, -⟩ | ⟨o, status, hi, hclosed⟩
    · exact hsame hstates fun i _ _ _ ↦ hmoves hj i
    · refine hturns hi (fun _ ↦ .inr ?_) fun i ↦ hmoves hj i
      rcases hclosed with rfl | rfl <;> rfl
  | expire hd hi =>
    refine hturns hi (fun _ ↦ .inr rfl) fun i hfinished j d hj ↦ ?_
    exact hfinished j d (hd ▸ hj)
  | withdraw hstates hgone hd =>
    refine hsame hstates fun i _ _ _ hfinished j d hj ↦ ?_
    rw [hd, Option.filter_eq_some_iff] at hj
    exact hfinished j d hj.1
  | drop rid' ho hd =>
    intro i o hi hrid
    rw [ho, Option.filter_eq_some_iff] at hi
    refine (h i o hi.1 hrid).imp_right fun hquiet ↦ hquiet.imp_right fun hfinished j d hj ↦ ?_
    rw [hd, Option.filter_eq_some_iff] at hj
    exact hfinished j d hj.1

theorem Hushed.stride (h : Hushed rid before w) (hquiet : Quiet rid before w.db)
    (hstride : Stride rules w w') : Hushed rid before w' := by
  cases hstride with
  | @send db j d d' o message hj hsent hi hmessage =>
    obtain ⟨messages, houtbox, htold⟩ := h
    refine ⟨messages ++ [message], by rw [houtbox, List.append_assoc], fun m hm hrid ↦ ?_⟩
    rcases List.mem_append.mp hm with hm | hm
    · exact htold m hm hrid
    · rw [List.mem_singleton.mp hm] at hrid ⊢
      rw [hmessage.1]
      rcases hquiet _ o hi.before (hmessage.2.symm.trans hrid) with htold | hclosed | hfinished
      · exact htold
      · rw [hi.opened] at hclosed
        cases hclosed
      · exact absurd hfinished hj.not_finished
  | _ => exact h

section Operations

variable {settings : Settings} {op : Operation}

/-- Only a resume makes a reminder active. -/
theorem inactive_perform {row : Reminder} (hrow : w.db.reminders rid = some row)
    (hstatus : row.status ≠ .active) (hleaves : op.LeavesPaused rid w)
    (h : perform settings w op = some w') :
    ∃ row', w'.db.reminders rid = some row' ∧ row'.status ≠ .active := by
  have hupdate : ∀ (db : Database) (rid' : ℕ) (values : Reminder → Reminder),
      (∃ row', db.reminders rid = some row' ∧ row'.status ≠ .active) →
      (∀ row', row'.status ≠ .active → rid' = rid → (values row').status ≠ .active) →
        ∃ row', (db.run (Db.Reminders.updateFields rid' values)).reminders rid = some row' ∧
          row'.status ≠ .active := by
    intro db rid' values ⟨row', hrow', hstatus'⟩ hvalues
    rw [Db.Reminders.reminders_updateFields]
    split
    · rename_i hrid
      rw [← hrid, hrow']
      exact ⟨_, rfl, hvalues row' hstatus' hrid.symm⟩
    · exact ⟨row', hrow', hstatus'⟩
  have hdrop : ∀ (rid' : ℕ) (r : Reminder), ∃ row',
      (Reminders.dropQueued rid' r w.db).reminders rid = some row' ∧ row'.status ≠ .active := by
    intro rid' r
    refine hupdate _ rid' _ (hupdate _ rid' _ ⟨row, hrow, hstatus⟩ ?_) ?_ <;>
      exact fun _ hstatus' _ ↦ hstatus'
  by_cases hop : op.movesCalendar = false
  · rw [(sameCalendar_perform hop h).1]
    exact ⟨row, hrow, hstatus⟩
  cases op with
  | create now ownerId draft =>
    obtain ⟨db', hdb, rfl⟩ := over_eq_some h
    obtain ⟨-, rfl⟩ := Reminders.create_eq_ok hdb
    refine ⟨row, ?_, hstatus⟩
    change w.db.reminders.writes (w.db.reminders.insert [_]) rid = some row
    rw [Table.writes_insert, if_pos (Table.lt_next hrow), hrow]
  | materialize now =>
    cases h
    obtain ⟨row', hrow', -, -, hactive⟩ := Planning.materializeAll_reminders hrow
    exact ⟨row', hrow', fun h ↦ hstatus (hactive h)⟩
  | setStatus now ownerId rid' status =>
    obtain ⟨db', hdb, rfl⟩ := over_eq_some h
    obtain ⟨r, -, rfl⟩ := Reminders.setStatus_eq_ok hdb
    split
    · refine hupdate _ rid' _ ⟨row, hrow, hstatus⟩ fun _ _ hrid hactive ↦ hleaves ⟨hrid, hactive⟩
    · exact hupdate _ rid' _ (hdrop rid' r) fun _ _ hrid hactive ↦ hleaves ⟨hrid, hactive⟩
  | update now ownerId rid' change =>
    obtain ⟨db', hdb, rfl⟩ := over_eq_some h
    obtain ⟨r, -, -, rfl⟩ := Reminders.update_eq_ok hdb
    split
    · exact hupdate _ rid' _ (hdrop rid' r) fun _ hstatus' _ ↦ hstatus'
    · exact hupdate _ rid' _ ⟨row, hrow, hstatus⟩ fun _ hstatus' _ ↦ hstatus'
  | _ => exact absurd rfl hop

theorem obeys_hushed (settings : Settings) {row : Reminder} (hrow : w.db.reminders rid = some row)
    (hstatus : row.status ≠ .active) (hleaves : op.LeavesPaused rid w) :
    op.Obeys (hushed rid) settings w := by
  cases op with
  | deliver now gateway => exact mayGiveUp_of_forall (fun _ _ ↦ trivial) ..
  | materialize now =>
    intro ⟨rid', r⟩ hx hrid
    obtain ⟨hrow', hdue⟩ := Db.Reminders.mem_dueForPlanning hx
    change rid' = rid at hrid
    subst hrid
    rw [hrow] at hrow'
    cases hrow'
    simp only [Db.Reminders.isDue, Bool.and_eq_true, decide_eq_true_eq] at hdue
    exact hstatus hdue.1.1
  | accept now userId rid' =>
    intro hjoins x hx hrid
    have hmine := (Table.mem_select.mp (mem_orderBy.mp hx)).2
    simp only [Bool.and_eq_true, decide_eq_true_eq] at hmine
    have heq : rid' = rid := hmine.1.1.symm.trans hrid
    subst heq
    rw [hleaves rfl hjoins] at hx
    cases hx
  | _ => trivial

/-- What holds of a reminder from its pause until it is resumed. -/
structure Paused (rid : ℕ) (before : List Message) (w : World) : Prop where
  inactive : ∃ row, w.db.reminders rid = some row ∧ row.status ≠ .active
  quiet : Quiet rid before w.db
  hushed : Hushed rid before w

theorem Paused.perform (hpaused : Paused rid before w) (hleaves : op.LeavesPaused rid w)
    (h : perform settings w op = some w') : Paused rid before w' := by
  obtain ⟨row, hrow, hstatus⟩ := hpaused.inactive
  have hstrides := perform_strides (obeys_hushed settings hrow hstatus hleaves) h
  have hboth : Quiet rid before w'.db ∧ Hushed rid before w' := by
    clear h
    induction hstrides with
    | refl => exact ⟨hpaused.quiet, hpaused.hushed⟩
    | tail _ hstride ih => exact ⟨ih.1.stride hstride, ih.2.stride ih.1 hstride⟩
  exact ⟨inactive_perform hrow hstatus hleaves h, hboth.1, hboth.2⟩

theorem heard_run {users : Table User} {categories : Table Category} {ops : List Operation}
    (hrun : run (perform settings) (.initial users categories) ops = some w) : Heard w := by
  refine run_preserves (fun w₁ op w₂ h hstep ↦ ?_) hrun fun i o ho ↦ ?_
  · have hstrides := perform_strides (obeys_free settings w₁ op) hstep
    clear hstep
    induction hstrides with
    | refl => exact h
    | tail _ hstride ih => exact ih.stride hstride
  · cases ho

/-- What the pause itself leaves. -/
theorem paused_of_pause {now : ℤ} {ownerId : ℕ} (hheard : Heard w) (hclean : CleanPause w.db rid)
    (h : perform settings w (.setStatus now ownerId rid .paused) = some w') :
    Paused rid w'.outbox w' := by
  obtain ⟨db', hdb, rfl⟩ := over_eq_some h
  obtain ⟨r, hr, rfl⟩ := Reminders.setStatus_eq_ok hdb
  have hrow := (Reminders.getEditable_eq_ok hr).1
  obtain ⟨fired, hdropped⟩ := Reminders.dropQueued_row (r := r) hrow
  refine ⟨⟨{ r with plannedUntil := none, firedCount := fired, status := .paused }, ?_, nofun⟩,
    fun i o ho hrid ↦ ?_, [], (List.append_nil _).symm, nofun⟩
  · change ((Reminders.dropQueued rid r w.db).run (Db.Reminders.setStatus rid .paused)).reminders
      rid = _
    rw [Db.Reminders.setStatus, Db.Reminders.reminders_updateFields, if_pos rfl, hdropped]
    rfl
  · change (Reminders.dropQueued rid r w.db).occurrences i = some o at ho
    rw [Reminders.dropQueued_occurrences, Option.filter_eq_some_iff, Bool.not_eq_true'] at ho
    obtain ⟨ho, hkept⟩ := ho
    rcases hheard i o ho with hpending | hclosed | htold
    · rcases hclean i o ho hrid hpending with hqueued | hfinished
      · simp [Occurrences.isUnsent, hqueued, hrid, hpending] at hkept
      · refine .inr (.inr fun j d hj ↦ hfinished j d ?_)
        change (Table.writes _ (Table.deleteWhere _ _)) j = some d at hj
        rw [Table.writes_deleteWhere, Option.filter_eq_some_iff] at hj
        exact hj.1
    · exact .inr (.inl hclosed)
    · exact .inl htold

end Operations

end Steps

/-- After a clean pause, and until somebody resumes the reminder or joins what
the pause had left behind, only recipients of occurrences that were already
under way hear of it. -/
theorem pause_is_silent {settings : Settings} {users : Table User} {categories : Table Category}
    {ops later : List Operation}
    {w₀ w₁ w₂ : World} {now : ℤ} {ownerId rid : ℕ}
    (hrun : run (perform settings) (.initial users categories) ops = some w₀)
    (hclean : CleanPause w₀.db rid)
    (hpause : perform settings w₀ (.setStatus now ownerId rid .paused) = some w₁)
    (hleaves : Guarded (perform settings) (fun w op ↦ op.LeavesPaused rid w) w₁ later)
    (hlater : run (perform settings) w₁ later = some w₂) :
    ∃ messages, w₂.outbox = w₀.outbox ++ messages ∧
      ∀ m ∈ messages, m.reminderId = rid → Told w₀.outbox m.occurrenceId := by
  have hpaused := paused_of_pause (heard_run hrun) hclean hpause
  have hbefore : w₁.outbox = w₀.outbox := by
    obtain ⟨db', -, rfl⟩ := over_eq_some hpause
    rfl
  rw [hbefore] at hpaused
  exact (run_invariant (fun _ _ _ h hleaves hstep ↦ h.perform hleaves hstep) hleaves hlater
    hpaused).hushed

section Sample

instance (db : Database) (rid : ℕ) : Decidable (CleanPause db rid) :=
  decidable_of_iff (∀ x ∈ db.occurrences.select (fun _ o ↦
      decide (o.reminderId = rid) && decide (o.status = .pending)),
    Occurrences.answered db x.1 = false ∨ Finished db x.1) <| by
    constructor
    · intro h i o ho hrid hpending
      exact h (i, o) (Table.mem_select.mpr ⟨ho, by simp [hrid, hpending]⟩)
    · intro h x hx
      obtain ⟨ho, hpick⟩ := Table.mem_select.mp hx
      rw [Bool.and_eq_true, decide_eq_true_eq, decide_eq_true_eq] at hpick
      exact h x.1 x.2 ho hpick.1 hpick.2

instance (rid : ℕ) (w : World) : ∀ op : Operation, Decidable (op.LeavesPaused rid w)
  | .setStatus .. => inferInstanceAs (Decidable (¬_))
  | .accept .. => inferInstanceAs (Decidable (_ = _ → _ ≠ [] → _ = []))
  | .create .. | .materialize .. | .deliver .. | .react .. | .sweep .. | .update ..
  | .issueInvite .. | .revokeInvite .. | .openInvite .. | .decline .. | .leave .. => isTrue trivial

instance (outbox : List Message) (i : ℕ) : Decidable (Told outbox i) :=
  inferInstanceAs (Decidable (∃ m ∈ outbox, _))

/-- The planner and the dispatcher go on while the reminder is paused. -/
def quietWeeks : List Operation :=
  [.materialize (5 * day), .deliver (20 * day) (answering [] (20 * day))]

/-- The watcher's message is still owed when the owner pauses. -/
theorem pause_is_silent_sample :
    ∃ w₀ w₁ w₂, run (perform sampleSettings) (.initial sampleUsers sampleCategories) sharedLife = some w₀ ∧
      perform sampleSettings w₀ (.setStatus (5 * day) 0 0 .paused) = some w₁ ∧
        run (perform sampleSettings) w₁ quietWeeks = some w₂ ∧
          ∃ messages, w₂.outbox = w₀.outbox ++ messages ∧
            ∀ m ∈ messages, m.reminderId = 0 → Told w₀.outbox m.occurrenceId := by
  have hruns :
    (run (perform sampleSettings) (.initial sampleUsers sampleCategories) sharedLife).any (fun w ↦
      decide (CleanPause w.db 0) &&
        (perform sampleSettings w (.setStatus (5 * day) 0 0 .paused)).any fun w ↦
          decide (Guarded (perform sampleSettings) (fun w op ↦ op.LeavesPaused 0 w) w
            quietWeeks) && (run (perform sampleSettings) w quietWeeks).isSome) = true := by
    decide +kernel
  obtain ⟨w₀, hrun, hruns⟩ := (Option.any_eq_true _ _).mp hruns
  rw [Bool.and_eq_true, decide_eq_true_eq] at hruns
  obtain ⟨w₁, hpause, hlater⟩ := (Option.any_eq_true _ _).mp hruns.2
  rw [Bool.and_eq_true, decide_eq_true_eq] at hlater
  obtain ⟨w₂, hlater₂⟩ := Option.isSome_iff_exists.mp hlater.2
  exact ⟨w₀, w₁, w₂, hrun, hpause, hlater₂,
    pause_is_silent hrun hruns.1 hpause hlater.1 hlater₂⟩

/-- The first attempts fail, for good on the watcher's side. -/
def halfFailed : List Operation :=
  sharedLife.take 5 ++ [.deliver (5 * day) (answering [.failed .transient none
    "TelegramNetworkError", .failed .forbidden none "TelegramForbiddenError"] (5 * day))]

/-- The blocked delivery keeps its occurrence through the pause, and the retry
of the other one goes out. -/
theorem retry_breaks_pause :
    ∃ w₀ w₁ w₂ m,
      run (perform sampleSettings) (.initial sampleUsers sampleCategories) halfFailed = some w₀ ∧
      perform sampleSettings w₀ (.setStatus (5 * day) 0 0 .paused) = some w₁ ∧
        perform sampleSettings w₁ (.deliver (6 * day) (answering [] (6 * day))) = some w₂ ∧
          m ∈ w₂.outbox ∧ m.reminderId = 0 ∧ ¬Told w₀.outbox m.occurrenceId := by
  have hleaks :
    (run (perform sampleSettings) (.initial sampleUsers sampleCategories) halfFailed).any (fun w₀ ↦
      (perform sampleSettings w₀ (.setStatus (5 * day) 0 0 .paused)).any fun w₁ ↦
        (perform sampleSettings w₁ (.deliver (6 * day) (answering [] (6 * day)))).any fun w₂ ↦
          w₂.outbox.any fun m ↦
            decide (m.reminderId = 0 ∧ ¬Told w₀.outbox m.occurrenceId)) = true := by
    decide +kernel
  obtain ⟨w₀, hrun, hleaks⟩ := (Option.any_eq_true _ _).mp hleaks
  obtain ⟨w₁, hpause, hleaks⟩ := (Option.any_eq_true _ _).mp hleaks
  obtain ⟨w₂, hdeliver, hleaks⟩ := (Option.any_eq_true _ _).mp hleaks
  obtain ⟨m, hm, hleaks⟩ := List.any_eq_true.mp hleaks
  exact ⟨w₀, w₁, w₂, m, hrun, hpause, hdeliver, hm, of_decide_eq_true hleaks⟩

end Sample

end Remindo.Serial
