import Remindo.Serial.Calendar
import Remindo.Serial.TakingBack

namespace Remindo.Serial

open Remindo.Domain Remindo.Db Remindo.Services Remindo.Foundation

/-- The user joins the reminder again. -/
def Operation.rejoins (rid user : ℕ) : Operation → Bool
  | .accept _ userId reminderId => decide (reminderId = rid) && decide (userId = user)
  | _ => false

/-- A sweep finds no delivery of this user and reminder that is due for a repeat. -/
def Operation.RepeatsNothing (rid user : ℕ) (settings : Settings) (w : World) : Operation → Prop
  | .sweep now =>
    let expired := Reaper.expireAll now (Reaper.overdue w.db now settings.reaperBatch) w.db
    ∀ c ∈ Deliveries.listRepeatCandidates expired now settings.reaperBatch,
      c.delivery.2.userId = user → c.occurrence.2.reminderId = rid → Reaper.repeatAt now c = none
  | _ => True

/-- At some point of the run the delivery was snoozed, and it has not been sent
since. -/
def AwaitsSnooze (settings : Settings) (w₀ : World) (before : List Operation) (j : ℕ) : Prop :=
  ∃ early late w₁ w, before = early ++ late ∧ run (perform settings) w₀ early = some w₁ ∧
    run (perform settings) w₁ late = some w ∧
      (∃ d, w₁.db.deliveries j = some d ∧ d.status = .snoozed) ∧
        ∀ m ∈ w.outbox.drop w₁.outbox.length, m.deliveryId ≠ j

/-- What happens to a reminder one user has left; taps are told apart. -/
def departed (rid user : ℕ) (tap : Prop) : Guard where
  maySend _ _ := True
  mayRepeat l f := ¬(l.userId = user ∧ f.reminderId = rid)
  mayCover _ _ := True
  mayJoin _ r u _ := ¬(r = rid ∧ u = user)
  mayOpen r := r ≠ rid
  mayTap := tap
  mayExpire := True

/-- A letter of this user and reminder. -/
def Mine (rid user : ℕ) (b : Board) (l : Letter) : Prop :=
  l.userId = user ∧ ∃ f, b.firings l.occurrenceId = some f ∧ f.reminderId = rid

/-- The user receives nothing new of the reminder. -/
structure Away (rid user : ℕ) (b : Board) : Prop where
  parented : Parented b
  nobody : ∀ k x, b.recipients k = some x → x.key = (rid, user) → listens x = false

section Steps

variable {rid user : ℕ} {tap : Prop} {b b' : Board}

theorem Away.change (h : Away rid user b) (hchange : Change (departed rid user tap) b b') :
    Away rid user b' := by
  refine ⟨h.parented.change hchange, fun k x hx hkey ↦ ?_⟩
  cases hchange with
  | @join rid' user' now letters hinvited hmay =>
    obtain ⟨y, hy, rfl⟩ := Option.map_eq_some_iff.mp hx
    by_cases hpick : isInvited rid' user' y = true
    · rw [accepted, if_pos hpick] at hkey
      simp only [isInvited, Bool.and_eq_true, decide_eq_true_eq] at hpick
      have heq : (rid', user') = (rid, user) := hpick.1.1.symm.trans hkey
      exact absurd ⟨congrArg Prod.fst heq, congrArg Prod.snd heq⟩ hmay
    · rw [accepted, if_neg hpick] at hkey ⊢
      exact h.nobody k y hy hkey
  | @invite k' y hk hfirst hrole hpending =>
    change Function.update b.recipients k' (some y) k = some x at hx
    rw [Function.update_apply] at hx
    split at hx
    · cases hx
      simp [listens, hrole, hpending]
    · exact h.nobody k x hx hkey
  | @own k' y hk hrole hmay =>
    change Function.update b.recipients k' (some y) k = some x at hx
    rw [Function.update_apply] at hx
    split at hx
    · cases hx
      exact absurd (congrArg Prod.fst hkey) hmay
    · exact h.nobody k x hx hkey
  | part =>
    exact h.nobody k x (Option.filter_eq_some_iff.mp hx).1 hkey
  | _ => exact h.nobody k x hx hkey

theorem Mine.back (hparented : Parented b) (hchange : Change (departed rid user tap) b b') {j : ℕ}
    {l l' : Letter} (hl : b.letters j = some l) (hparent : l'.occurrenceId = l.occurrenceId)
    (huser : l'.userId = l.userId) (h : Mine rid user b' l') : Mine rid user b l := by
  obtain ⟨hmine, f', hf', hrid⟩ := h
  rw [hparent] at hf'
  refine ⟨huser ▸ hmine, ?_⟩
  rcases hchange.firing_back hf' with ⟨f, hf, heq⟩ | ⟨hnone, -⟩
  · exact ⟨f, hf, by rw [heq] at hrid; exact hrid⟩
  · obtain ⟨f, hf⟩ := hparented j l hl
    rw [hnone] at hf
    cases hf

/-- How far an operation has got that nobody taps in: the user's queued letters
were queued before it, and each is sent once at most. -/
structure Waits (rid user : ℕ) (b₀ : Board) (messages : List Message) (b : Board) : Prop where
  away : Away rid user b
  outbox : b.outbox = b₀.outbox ++ messages
  queued : ∀ j l, b.letters j = some l → l.isQueued = true → Mine rid user b l →
    (∃ l₀, b₀.letters j = some l₀ ∧ l₀.isQueued = true ∧ Mine rid user b₀ l₀) ∧
      ∀ m ∈ messages, m.deliveryId ≠ j
  sent : ∀ m ∈ messages, m.userId = user → m.reminderId = rid →
    ∃ l₀, b₀.letters m.deliveryId = some l₀ ∧ l₀.isQueued = true ∧ Mine rid user b₀ l₀

theorem Waits.refl (h : Away rid user b) : Waits rid user b [] b :=
  ⟨h, (List.append_nil _).symm, fun _ l hl hqueued hmine ↦ ⟨⟨l, hl, hqueued, hmine⟩, nofun⟩, nofun⟩

variable {b₀ : Board} {messages : List Message}

/-- Where a queued letter of the user comes from. -/
def Queued (rid user : ℕ) (b b' : Board) : Prop :=
  ∀ j l', b'.letters j = some l' → l'.isQueued = true → Mine rid user b' l' →
    ∃ l, b.letters j = some l ∧ l.isQueued = true ∧ l'.occurrenceId = l.occurrenceId ∧
      l'.userId = l.userId

theorem Queued.of_subset (h : ∀ j l, b'.letters j = some l → b.letters j = some l) :
    Queued rid user b b' :=
  fun j l hl hqueued _ ↦ ⟨l, h j l hl, hqueued, rfl, rfl⟩

theorem Queued.of_set {j : ℕ} {l l₁ : Letter} (hj : b.letters j = some l)
    (h : ∀ k, b'.letters k = (b.setLetter j l₁).letters k)
    (hqueue : l₁.isQueued = true → Mine rid user b' l₁ → l.isQueued = true)
    (hparent : l₁.occurrenceId = l.occurrenceId) (huser : l₁.userId = l.userId) :
    Queued rid user b b' := by
  intro k l' hl' hqueued hmine
  rw [h, Board.letters_setLetter] at hl'
  split at hl'
  · rename_i heq
    cases hl'
    exact ⟨l, heq ▸ hj, hqueue hqueued hmine, hparent, huser⟩
  · exact ⟨l', hl', hqueued, rfl, rfl⟩

theorem Waits.change (h : Waits rid user b₀ messages b)
    (hchange : Change (departed rid user False) b b') :
    ∃ messages', Waits rid user b₀ messages' b' := by
  have haway := h.away.change hchange
  have hback : ∀ {j l l'}, b.letters j = some l → l'.occurrenceId = l.occurrenceId →
      l'.userId = l.userId → Mine rid user b' l' → Mine rid user b l :=
    Mine.back h.away.parented hchange
  -- A change that sends nothing keeps what waits.
  have hquiet : b'.outbox = b.outbox → Queued rid user b b' →
      ∃ messages', Waits rid user b₀ messages' b' := by
    refine fun houtbox hletters ↦ ⟨messages, haway, houtbox.trans h.outbox,
      fun j l' hl' hqueued hmine ↦ ?_, h.sent⟩
    obtain ⟨l, hl, hold, hparent, huser⟩ := hletters j l' hl' hqueued hmine
    exact h.queued j l hl hold (hback hl hparent huser hmine)
  cases hchange with
  | retry hj hqueued | giveUp hj hqueued =>
    exact hquiet rfl (.of_set hj (fun _ ↦ rfl) (fun _ _ ↦ hqueued) rfl rfl)
  | requeue hj hsent hi hmay =>
    refine hquiet rfl (.of_set hj (fun _ ↦ rfl) (fun _ hmine ↦ ?_) rfl rfl)
    obtain ⟨huser, f', hf', hrid⟩ := hmine
    cases hi.symm.trans hf'
    exact absurd ⟨huser, hrid⟩ hmay
  | snooze hj hlive hi hopen hmay => exact hmay.elim
  | answer hj hlive hi hopen hanswer hmay => exact hmay.elim
  | @send j l f t hj hqueued hi hopen hmay =>
    refine ⟨messages ++ [⟨j, l.occurrenceId, f.reminderId, l.userId, t⟩], haway, ?_,
      fun k l' hl' hqueued' hmine ↦ ?_, fun m hm huser hrid ↦ ?_⟩
    · change b.outbox ++ [_] = _
      rw [h.outbox, List.append_assoc]
    · have hl := hl'
      change (b.setLetter j _).letters k = some l' at hl
      rw [Board.letters_setLetter] at hl
      split at hl
      · cases hl
        simp [Letter.isQueued] at hqueued'
      · rename_i hne
        obtain ⟨hold, hunsent⟩ := h.queued k l' hl hqueued' (hback hl rfl rfl hmine)
        refine ⟨hold, fun m hm ↦ ?_⟩
        rcases List.mem_append.mp hm with hm | hm
        · exact hunsent m hm
        · rw [List.mem_singleton.mp hm]
          exact Ne.symm hne
    · rcases List.mem_append.mp hm with hm | hm
      · exact h.sent m hm huser hrid
      · rw [List.mem_singleton.mp hm] at huser hrid ⊢
        exact (h.queued j l hj hqueued ⟨huser, f, hi, hrid⟩).1
  | close | expire | plan | invite | own | part => exact hquiet rfl (.of_subset fun _ _ hl ↦ hl)
  | cover hkept hnew =>
    refine hquiet rfl fun j l' hl' hqueued hmine ↦ ?_
    rcases hnew j l' hl' with hold | ⟨-, -, -, f, hf, ⟨k, x, hx, hkey, hlistens⟩, -⟩
    · exact ⟨l', hold, hqueued, rfl, rfl⟩
    · obtain ⟨huser, f', hf', hrid⟩ := hmine
      cases hf.symm.trans hf'
      rw [huser, hrid] at hkey
      rw [h.away.nobody k x hx hkey] at hlistens
      cases hlistens
  | join hinvited hmay hkept hnew =>
    refine hquiet rfl fun j l' hl' hqueued hmine ↦ ?_
    rcases hnew j l' hl' with hold | ⟨-, -, -, huser, f, hf, hrid, -⟩
    · exact ⟨l', hold, hqueued, rfl, rfl⟩
    · obtain ⟨huser', f', hf', hrid'⟩ := hmine
      cases hf.symm.trans hf'
      exact absurd ⟨hrid.symm.trans hrid', huser.symm.trans huser'⟩ hmay
  | @withdraw _ _ gone hgone =>
    refine hquiet rfl (.of_subset fun j l hl ↦ ?_)
    change (if gone j then none else b.letters j) = some l at hl
    split at hl
    · cases hl
    · exact hl
  | @drop _ unsent gone hunsent hgone =>
    refine hquiet rfl (.of_subset fun j l hl ↦ ?_)
    change (if gone j then none else b.letters j) = some l at hl
    split at hl
    · cases hl
    · exact hl

theorem Waits.changes {b₁ : Board} (haway : Away rid user b₀)
    (hchanges : Changes (departed rid user False) b₀ b₁) :
    ∃ messages, Waits rid user b₀ messages b₁ :=
  hchanges.invariant (P := fun b ↦ ∃ messages, Waits rid user b₀ messages b)
    (fun _ _ ⟨_, h⟩ hchange ↦ h.change hchange) ⟨[], .refl haway⟩

end Steps

section Runs

variable {settings : Settings} {rid user : ℕ} {w w₀ w₁ w' : World} {op : Operation}
  {before : List Operation} {j : ℕ}

theorem reminder_perform (hr : (w.db.reminders rid).isSome = true)
    (h : perform settings w op = some w') : (w'.db.reminders rid).isSome = true := by
  have hupdate : ∀ (db : Database) (i : ℕ) (values : Reminder → Reminder),
      (db.reminders rid).isSome = true →
        ((db.run (Db.Reminders.updateFields i values)).reminders rid).isSome = true := by
    intro db i values hdb
    rw [Db.Reminders.reminders_updateFields]
    split
    · rename_i hi
      rw [Option.isSome_map, ← hi, hdb]
    · exact hdb
  by_cases hop : op.movesCalendar = false
  · rw [(sameCalendar_perform hop h).1, hr]
  cases op with
  | create now ownerId draft =>
    obtain ⟨db', hdb, rfl⟩ := over_eq_some h
    obtain ⟨-, rfl⟩ := Reminders.create_eq_ok hdb
    obtain ⟨r, hr⟩ := Option.isSome_iff_exists.mp hr
    change ((w.db.reminders.writes (w.db.reminders.insert [_])) rid).isSome = true
    rw [Table.writes_insert, if_pos (Table.lt_next hr), hr, Option.isSome_some]
  | materialize now =>
    cases h
    obtain ⟨r, hr⟩ := Option.isSome_iff_exists.mp hr
    obtain ⟨r', hr', -⟩ : ∃ r', (Planning.materialize settings.planning now w.db).reminders rid =
        some r' ∧ _ := Planning.materializeAll_reminders hr
    exact Option.isSome_iff_exists.mpr ⟨r', hr'⟩
  | setStatus now ownerId rid' status =>
    obtain ⟨db', hdb, rfl⟩ := over_eq_some h
    obtain ⟨r, -, rfl⟩ := Reminders.setStatus_eq_ok hdb
    refine hupdate _ _ _ ?_
    split
    · exact hr
    · exact hupdate _ _ _ (hupdate _ _ _ hr)
  | update now ownerId rid' change =>
    obtain ⟨db', hdb, rfl⟩ := over_eq_some h
    obtain ⟨r, -, -, rfl⟩ := Reminders.update_eq_ok hdb
    refine hupdate _ _ _ ?_
    split
    · exact hupdate _ _ _ (hupdate _ _ _ hr)
    · exact hr
  | _ => exact absurd rfl hop

/-- A departure leaves the user with what they have snoozed. -/
theorem away_of_leave {now : ℤ} (hparented : Parented w.board)
    (hwatcher : ∀ k x, w.db.recipients k = some x → x.key = (rid, user) → x.role = .watcher)
    (h : perform settings w (.leave now user rid) = some w') :
    Away rid user w'.board ∧ ∀ j l, w'.board.letters j = some l → l.isQueued = true →
      Mine rid user w'.board l → l.status = .snoozed := by
  cases h
  have hrows : ∀ k, (Sharing.leave w.db user rid).recipients k =
      (w.db.recipients k).filter fun x ↦
        !(decide (x.key = (rid, user)) && decide (x.role = .watcher)) :=
    fun k ↦ Table.writes_deleteWhere ..
  have hletters : ∀ j, (Sharing.leave w.db user rid).deliveries j =
      (w.db.deliveries j).filter fun d ↦ !Deliveries.isPendingFor w.db rid user d :=
    fun j ↦ Table.writes_deleteWhere ..
  refine ⟨⟨fun j l hl ↦ ?_, fun k x hx hkey ↦ ?_⟩, fun j l hl hqueued ⟨huser, f, hf, hrid⟩ ↦ ?_⟩
  · obtain ⟨d, hd, rfl⟩ := World.letter_some.mp hl
    rw [hletters, Option.filter_eq_some_iff] at hd
    exact hparented j _ (World.letters_of hd.1)
  · change (Sharing.leave w.db user rid).recipients k = some x at hx
    rw [hrows, Option.filter_eq_some_iff] at hx
    simp [hkey, hwatcher k x hx.1 hkey] at hx
  · obtain ⟨d, hd, rfl⟩ := World.letter_some.mp hl
    rw [hletters, Option.filter_eq_some_iff] at hd
    obtain ⟨o, ho, rfl⟩ := World.firing_some.mp hf
    simp only [Letter.isQueued, Bool.or_eq_true, decide_eq_true_eq] at hqueued
    refine hqueued.resolve_left fun hpending ↦ ?_
    have hgone : Deliveries.isPendingFor w.db rid user d = true := by
      simp only [Deliveries.isPendingFor, Bool.and_eq_true, decide_eq_true_eq, Option.any_eq_true]
      exact ⟨⟨huser, hpending⟩, o, ho, hrid⟩
    rw [hgone] at hd
    cases hd.2

/-- A tap may queue a letter only as a snooze. -/
theorem react_letters {now : ℤ} {deliveryId userId : ℕ} {action : Action}
    (h : perform settings w (.react now deliveryId userId action) = some w') :
    w'.outbox = w.outbox ∧ ∀ j l, w'.board.letters j = some l → l.isQueued = true →
      l.status = .snoozed ∨ w.board.letters j = some l := by
  obtain ⟨result, db', hreact, rfl⟩ := over_snd_eq_some h
  refine ⟨rfl, fun j l hl hqueued ↦ ?_⟩
  rcases Reactions.react_eq_ok hreact with ⟨-, heq⟩ | ⟨-, d, o, r, u, reaction, hd, -, -, -, -, hreaction,
    heq⟩
  · rw [heq] at hl
    exact .inr hl
  · obtain ⟨e, he, rfl⟩ := World.letter_some.mp hl
    change db'.deliveries j = some e at he
    rw [heq, Reactions.deliveries_closeOccurrence] at he
    change (w.db.run (Deliveries.updateFields deliveryId (Reactions.values reaction))).deliveries
      j = some e at he
    rw [Deliveries.deliveries_updateFields] at he
    split at he
    · rw [hd] at he
      cases he
      obtain ⟨-, ⟨-, hstatus⟩ | ⟨-, hanswer, -⟩⟩ := decideReaction_eq_ok hreaction
      · exact .inl hstatus
      · have hended := DeliveryStatus.isTerminal_of_isAnswer hanswer
        rw [show (letterOf (Reactions.values reaction d)).status = reaction.status from rfl] at *
        have hlive := Letter.not_isTerminal_of_isQueued hqueued
        rw [show (letterOf (Reactions.values reaction d)).status = reaction.status from rfl,
          hended] at hlive
        cases hlive
    · exact .inr (World.letters_of he)

theorem AwaitsSnooze.now (hrun : run (perform settings) w₀ before = some w) {d : Delivery}
    (hd : w.db.deliveries j = some d) (hsnoozed : d.status = .snoozed) :
    AwaitsSnooze settings w₀ before j :=
  ⟨before, [], w, w, (List.append_nil _).symm, hrun, rfl, ⟨d, hd, hsnoozed⟩, by simp⟩

theorem AwaitsSnooze.step (h : AwaitsSnooze settings w₀ before j)
    (hrun : run (perform settings) w₀ before = some w) (hop : perform settings w op = some w')
    {messages : List Message} (houtbox : w'.outbox = w.outbox ++ messages)
    (hunsent : ∀ m ∈ messages, m.deliveryId ≠ j) :
    AwaitsSnooze settings w₀ (before ++ [op]) j := by
  obtain ⟨early, late, w₁, w₂, rfl, hearly, hlate, hsnoozed, hsilent⟩ := h
  rw [run_append, hearly, Option.bind_some, hlate, Option.some_inj] at hrun
  subst hrun
  refine ⟨early, late ++ [op], w₁, w', (List.append_assoc ..), hearly, ?_, hsnoozed, fun m hm ↦ ?_⟩
  · rw [run_append, hlate, Option.bind_some, run, hop]
    rfl
  · rw [houtbox, List.drop_append, List.mem_append] at hm
    exact hm.elim (hsilent m) fun hm ↦ hunsent m (List.mem_of_mem_drop hm)

/-- What the departed user's board guards ask holds of every operation that is
neither a tap nor a return. -/
theorem meets_departed (hr : (w.db.reminders rid).isSome = true)
    (hstays : op.rejoins rid user = false) (hrepeats : op.RepeatsNothing rid user settings w)
    {tap : Prop} (htap : (∃ now i u action, op = .react now i u action) → tap) :
    op.Meets (departed rid user tap) settings w := by
  cases op with
  | create now ownerId draft =>
    intro hrid
    change w.db.reminders.next = rid at hrid
    rw [w.db.reminders.fresh rid hrid.le] at hr
    cases hr
  | materialize now =>
    exact fun _ _ _ _ _ _ _ _ _ _ _ ↦ ⟨fun _ _ _ _ _ ↦ trivial, fun _ ↦ trivial⟩
  | deliver now gateway => exact sendsWhen_of_forall (fun _ _ ↦ trivial) ..
  | react now i u action => exact htap ⟨now, i, u, action, rfl⟩
  | sweep now =>
    refine ⟨trivial, fun c hc hplan ⟨huser, hrid⟩ ↦ ?_⟩
    rw [hrepeats c hc huser hrid] at hplan
    cases hplan
  | accept now u r =>
    intro _ ⟨hrid, huser⟩
    simp [Operation.rejoins, hrid, huser] at hstays
  | _ => trivial

/-- What holds along a run that has begun with the departure. -/
structure Departed (settings : Settings) (rid user : ℕ) (w₀ : World) (before : List Operation)
    (w : World) : Prop where
  reminder : (w.db.reminders rid).isSome = true
  away : Away rid user w.board
  awaits : ∀ j l, w.board.letters j = some l → l.isQueued = true → Mine rid user w.board l →
    AwaitsSnooze settings w₀ before j

/-- One operation: who is still queued has been snoozed, and who is told had
been. -/
theorem Departed.step (h : Departed settings rid user w₀ before w)
    (hrun : run (perform settings) w₀ before = some w) (hstays : op.rejoins rid user = false)
    (hrepeats : op.RepeatsNothing rid user settings w) (hop : perform settings w op = some w') :
    Departed settings rid user w₀ (before ++ [op]) w' ∧
      ∀ m ∈ w'.outbox.drop w.outbox.length, m.userId = user → m.reminderId = rid →
        AwaitsSnooze settings w₀ before m.deliveryId := by
  have hrun' : run (perform settings) w₀ (before ++ [op]) = some w' := by
    rw [run_append, hrun, Option.bind_some, run, hop]
    rfl
  have hreminder := reminder_perform h.reminder hop
  by_cases htap : ∃ now i u action, op = .react now i u action
  · have haway : Away rid user w'.board :=
      (perform_changes (meets_departed h.reminder hstays hrepeats fun _ ↦ trivial) hop).invariant
        (fun _ _ h hchange ↦ h.change hchange) h.away
    obtain ⟨now, i, u, action, rfl⟩ := htap
    obtain ⟨houtbox, hletters⟩ := react_letters hop
    refine ⟨⟨hreminder, haway, fun j l hl hqueued hmine ↦ ?_⟩, by rw [houtbox]; simp⟩
    rcases hletters j l hl hqueued with hsnoozed | hold
    · obtain ⟨d, hd, rfl⟩ := World.letter_some.mp hl
      exact .now hrun' hd hsnoozed
    · obtain ⟨huser, f, hf, hrid⟩ := hmine
      have hmine : Mine rid user w.board l := by
        refine ⟨huser, ?_⟩
        obtain ⟨f₀, hf₀⟩ := h.away.parented j l hold
        obtain ⟨o, ho, rfl⟩ := World.firing_some.mp hf
        obtain ⟨o₀, ho₀, rfl⟩ := World.firing_some.mp hf₀
        have hkey := (sameCalendar_perform rfl hop).2 l.occurrenceId
        rw [ho, ho₀, Option.map_some, Option.map_some, Option.some_inj] at hkey
        exact ⟨_, hf₀, (congrArg Prod.fst hkey).symm.trans hrid⟩
      have hsilent : w'.outbox = w.outbox ++ [] := by rw [houtbox, List.append_nil]
      refine (h.awaits j l hold hqueued hmine).step hrun hop hsilent ?_
      intro m hm
      cases hm
  · have hmeets : op.Meets (departed rid user False) settings w :=
      meets_departed h.reminder hstays hrepeats htap
    obtain ⟨messages, hwaits⟩ := Waits.changes h.away (perform_changes hmeets hop)
    have houtbox : w'.outbox = w.outbox ++ messages := hwaits.outbox
    refine ⟨⟨hreminder, hwaits.away, fun j l hl hqueued hmine ↦ ?_⟩, fun m hm huser hrid ↦ ?_⟩
    · obtain ⟨⟨l₀, hl₀, hqueued₀, hmine₀⟩, hunsent⟩ := hwaits.queued j l hl hqueued hmine
      exact (h.awaits j l₀ hl₀ hqueued₀ hmine₀).step hrun hop houtbox hunsent
    · rw [houtbox, List.drop_left] at hm
      obtain ⟨l₀, hl₀, hqueued₀, hmine₀⟩ := hwaits.sent m hm huser hrid
      exact h.awaits _ l₀ hl₀ hqueued₀ hmine₀

theorem Departed.run (h : Departed settings rid user w₀ [] w₀)
    (hstays : ∀ op ∈ before, op.rejoins rid user = false)
    (hrepeats : Guarded (perform settings) (fun w op ↦ op.RepeatsNothing rid user settings w)
      w₀ before) (hrun : Foundation.run (perform settings) w₀ before = some w) :
    Departed settings rid user w₀ before w := by
  induction before using List.reverseRecOn generalizing w with
  | nil =>
    cases hrun
    exact h
  | append_singleton before op ih =>
    rw [run_append, Option.bind_eq_some_iff] at hrun
    obtain ⟨w₁, hbefore, hlast⟩ := hrun
    obtain ⟨w₂, hop, hlast⟩ := Option.bind_eq_some_iff.mp hlast
    cases hlast
    have hguard := hrepeats.append_right hbefore
    exact ((ih (fun op hop ↦ hstays op (List.mem_append_left _ hop)) hrepeats.append_left
      hbefore).step hbefore (hstays op (by simp)) hguard.1 hop).1

/-- After a watcher has left, and as long as no repeat is queued for them, they
only hear of what they snoozed. -/
theorem leaving_silences {users : Table User} {categories : Table Category}
    {ops later after : List Operation} {now : ℤ}
    (hrun : Foundation.run (perform settings) (.initial users categories) ops = some w)
    (hreminder : (w.db.reminders rid).isSome = true)
    (hwatcher : ∀ k x, w.db.recipients k = some x → x.key = (rid, user) → x.role = .watcher)
    (hleave : perform settings w (.leave now user rid) = some w₀)
    (hstays : ∀ op ∈ later, op.rejoins rid user = false)
    (hrepeats : Guarded (perform settings) (fun w op ↦ op.RepeatsNothing rid user settings w)
      w₀ later)
    (hlater : later = before ++ op :: after)
    (hbefore : Foundation.run (perform settings) w₀ before = some w₁)
    (hop : perform settings w₁ op = some w') :
    ∀ m ∈ w'.outbox.drop w₁.outbox.length, m.userId = user → m.reminderId = rid →
      AwaitsSnooze settings w₀ before m.deliveryId := by
  subst hlater
  obtain ⟨haway, hsnoozed⟩ := away_of_leave (parented_run hrun) hwatcher hleave
  have hstart : Departed settings rid user w₀ [] w₀ := by
    refine ⟨reminder_perform hreminder hleave, haway, fun j l hl hqueued hmine ↦ ?_⟩
    obtain ⟨d, hd, rfl⟩ := World.letter_some.mp hl
    exact .now rfl hd (hsnoozed j _ hl hqueued hmine)
  have hreached := hstart.run (fun op hop ↦ hstays op (List.mem_append_left _ hop))
    hrepeats.append_left hbefore
  exact (hreached.step hbefore (hstays op (by simp)) (hrepeats.append_right hbefore).1 hop).2

end Runs

section Sample

instance (rid user : ℕ) (settings : Settings) (w : World) (op : Operation) :
    Decidable (op.RepeatsNothing rid user settings w) :=
  match op with
  | .sweep _ => List.decidableBAll _ _
  | .create .. | .materialize .. | .deliver .. | .react .. | .setStatus .. | .update .. |
    .issueInvite .. | .revokeInvite .. | .openInvite .. | .accept .. | .decline .. |
    .leave .. => isTrue trivial

/-- An hour after the departure the watcher gets what they had snoozed. -/
theorem leaving_silences_sample :
    ∃ w w₀ w',
      run (perform sampleSettings) (.initial sampleUsers sampleCategories) watcherSnoozes = some w ∧
      perform sampleSettings w (.leave (5 * day) 1 0) = some w₀ ∧
        perform sampleSettings w₀ (.deliver (5 * day + hour)
          (answering [] (5 * day + hour))) = some w' ∧
          w'.outbox.length = w₀.outbox.length + 1 ∧
            ∀ m ∈ w'.outbox.drop w₀.outbox.length, m.userId = 1 → m.reminderId = 0 →
              AwaitsSnooze sampleSettings w₀ [] m.deliveryId := by
  have hruns :
    (run (perform sampleSettings) (.initial sampleUsers sampleCategories) watcherSnoozes).any (fun w ↦
      (w.db.reminders 0).isSome && (perform sampleSettings w (.leave (5 * day) 1 0)).any fun w₀ ↦
        (perform sampleSettings w₀ (.deliver (5 * day + hour)
          (answering [] (5 * day + hour)))).any fun w' ↦
            decide (w'.outbox.length = w₀.outbox.length + 1)) = true := by
    decide +kernel
  have hrows :
    (run (perform sampleSettings) (.initial sampleUsers sampleCategories) watcherSnoozes).any (fun w ↦
      decide (∀ x ∈ w.db.recipients.select (fun _ x ↦ decide (x.key = (0, 1))),
        x.2.role = .watcher)) = true := by
    decide +kernel
  obtain ⟨w, hrun, hruns⟩ := (Option.any_eq_true _ _).mp hruns
  rw [hrun, Option.any_some, decide_eq_true_eq] at hrows
  rw [Bool.and_eq_true] at hruns
  obtain ⟨w₀, hleave, hsend⟩ := (Option.any_eq_true _ _).mp hruns.2
  obtain ⟨w', hsend, hlength⟩ := (Option.any_eq_true _ _).mp hsend
  have hrepeats : Guarded (perform sampleSettings)
      (fun w op ↦ op.RepeatsNothing 0 1 sampleSettings w) w₀
      [.deliver (5 * day + hour) (answering [] (5 * day + hour))] :=
    ⟨trivial, fun _ _ ↦ trivial⟩
  refine ⟨w, w₀, w', hrun, hleave, hsend, of_decide_eq_true hlength, ?_⟩
  exact leaving_silences hrun hruns.1
    (fun k x hx hkey ↦ hrows (k, x) (Table.mem_select.mpr ⟨hx, decide_eq_true hkey⟩)) hleave
    (List.forall_mem_singleton.mpr rfl) hrepeats (List.nil_append _).symm rfl hsend

/-- A reminder that is repeated every hour, shown to both recipients. -/
def hourlyRepeats : List Operation :=
  [.create 0 0 { sampleDraft with repeatAfterMinutes := some 60 }, .issueInvite 0 0 0 "link",
    .openInvite 0 "link" 1, .accept 0 1 0, .materialize 0,
    .deliver (5 * day) (answering [] (5 * day))]

/-- The reaper repeats what is still on the departed watcher's screen. -/
theorem repeat_reaches_departed :
    ∃ w w₀ w₁ w' m,
      run (perform sampleSettings) (.initial sampleUsers sampleCategories) hourlyRepeats = some w ∧
      perform sampleSettings w (.leave (5 * day) 1 0) = some w₀ ∧
        perform sampleSettings w₀ (.sweep (5 * day + hour)) = some w₁ ∧
          perform sampleSettings w₁ (.deliver (5 * day + hour)
            (answering [] (5 * day + hour))) = some w' ∧
            m ∈ w'.outbox.drop w₁.outbox.length ∧ m.userId = 1 ∧ m.reminderId = 0 ∧
              ¬AwaitsSnooze sampleSettings w₀ [.sweep (5 * day + hour)] m.deliveryId := by
  have hleaks :
    (run (perform sampleSettings) (.initial sampleUsers sampleCategories) hourlyRepeats).any (fun w ↦
      (perform sampleSettings w (.leave (5 * day) 1 0)).any fun w₀ ↦
        (perform sampleSettings w₀ (.sweep (5 * day + hour))).any fun w₁ ↦
          (perform sampleSettings w₁ (.deliver (5 * day + hour)
            (answering [] (5 * day + hour)))).any fun w' ↦
            (w'.outbox.drop w₁.outbox.length).any fun m ↦
              decide (m.userId = 1 ∧ m.reminderId = 0) &&
                !(w₀.db.deliveries m.deliveryId).any (fun d ↦ decide (d.status = .snoozed)) &&
                !(w₁.db.deliveries m.deliveryId).any fun d ↦ decide (d.status = .snoozed))
      = true := by
    decide +kernel
  obtain ⟨w, hrun, hleaks⟩ := (Option.any_eq_true _ _).mp hleaks
  obtain ⟨w₀, hleave, hleaks⟩ := (Option.any_eq_true _ _).mp hleaks
  obtain ⟨w₁, hsweep, hleaks⟩ := (Option.any_eq_true _ _).mp hleaks
  obtain ⟨w', hsend, hleaks⟩ := (Option.any_eq_true _ _).mp hleaks
  obtain ⟨m, hm, hleaks⟩ := List.any_eq_true.mp hleaks
  simp only [Bool.and_eq_true, decide_eq_true_eq, Bool.not_eq_true', Option.any_eq_false] at hleaks
  obtain ⟨⟨⟨huser, hrid⟩, hbefore⟩, hafter⟩ := hleaks
  refine ⟨w, w₀, w₁, w', m, hrun, hleave, hsweep, hsend, hm, huser, hrid, ?_⟩
  intro ⟨early, late, w₂, w₃, hsplit, hearly, hlate, ⟨d, hd, hsnoozed⟩, _⟩
  rcases List.append_eq_singleton_iff.mp hsplit.symm with ⟨rfl, rfl⟩ | ⟨rfl, rfl⟩
  · cases hearly
    simpa [hsnoozed] using hbefore d hd
  · cases hlate
    rw [run, hsweep] at hearly
    cases hearly
    simpa [hsnoozed] using hafter d hd

end Sample

end Remindo.Serial
