import Remindo.Serial.Arrival

namespace Remindo.Serial

open Remindo.Domain Remindo.Db Remindo.Services Remindo.Foundation

/-- What planner cycles may queue, and who may join when. -/
def covering (mayCover : Firing → Recipient → Prop)
    (mayJoin : Board → (reminderId userId : ℕ) → (now : ℤ) → Prop) : Guard :=
  { Guard.free with mayCover := mayCover, mayJoin := mayJoin }

/-- A planner cycle queues only what it may. -/
def Operation.CoversOnly (mayCover : Firing → Recipient → Prop) (settings : Settings) (w : World) :
    Operation → Prop
  | .materialize now =>
    ∀ x ∈ Db.Reminders.dueForPlanning w.db (now + settings.planning.horizon)
      settings.planning.batchSize, ∀ owner, w.db.users x.2.ownerId = some owner →
        CoversWhen mayCover settings.planning (now + settings.planning.horizon) w.db x.1 x.2 owner
  | _ => True

theorem meets_covering {mayCover : Firing → Recipient → Prop}
    {mayJoin : Board → ℕ → ℕ → ℤ → Prop} {settings : Settings} {w : World} {op : Operation}
    (hcover : op.CoversOnly mayCover settings w)
    (hjoin : ∀ now user rid, op = .accept now user rid →
      (∃ k x, w.db.recipients k = some x ∧ isInvited rid user x = true) →
        mayJoin w.board rid user now) : op.Meets (covering mayCover mayJoin) settings w := by
  cases op with
  | materialize now => exact hcover
  | deliver now gateway => exact sendsWhen_of_forall (fun _ _ ↦ trivial) ..
  | sweep now => exact ⟨trivial, fun _ _ _ ↦ trivial⟩
  | accept now user rid => exact hjoin now user rid rfl
  | _ => trivial

def isAnswered (status : OccurrenceStatus) : Bool :=
  decide (status = .done) || decide (status = .skipped)

/-- What everybody has answered has no open delivery left. -/
def AnsweredByAll (b : Board) : Prop :=
  ∀ j l f, b.letters j = some l → b.firings l.occurrenceId = some f →
    isAnswered f.status = true → l.status.isTerminal = true

section Answers

variable {g : Guard} {b b' : Board}

/-- An open letter belongs to an occurrence nobody has closed with an answer. -/
theorem AnsweredByAll.setLetter (h : AnsweredByAll b) {j : ℕ} {l : Letter} (l' : Letter)
    (hj : b.letters j = some l) (hlive : l.status.isTerminal = false)
    (hparent : l'.occurrenceId = l.occurrenceId) : AnsweredByAll (b.setLetter j l') := by
  intro k l₁ f hk hf hanswered
  rw [Board.letters_setLetter] at hk
  split at hk
  · cases hk
    have hended := h j l f hj (hparent ▸ hf) hanswered
    rw [hlive] at hended
    cases hended
  · exact h k l₁ f hk hf hanswered

theorem AnsweredByAll.setFiring (h : AnsweredByAll b) {i : ℕ} (f : Firing)
    (hstatus : isAnswered f.status = true →
      ∀ j l, b.letters j = some l → l.occurrenceId = i → l.status.isTerminal = true) :
    AnsweredByAll (b.setFiring i f) := by
  intro j l f' hl hf hanswered
  rw [Board.firings_setFiring] at hf
  split at hf
  · cases hf
    exact hstatus hanswered j l hl ‹_›
  · exact h j l f' hl hf hanswered

theorem AnsweredByAll.remove (h : AnsweredByAll b) {gone : ℕ → Bool}
    (hletters : b'.letters = (b.remove gone).letters)
    (hfirings : ∀ i f, b'.firings i = some f → b.firings i = some f) : AnsweredByAll b' := by
  intro j l f hl hf hanswered
  rw [hletters] at hl
  change (if gone j then none else b.letters j) = some l at hl
  split at hl
  · cases hl
  · exact h j l f hl (hfirings _ f hf) hanswered

theorem AnsweredByAll.change (h : AnsweredByAll b)
    (hcover : ∀ f x, g.mayCover f x → isAnswered f.status = false) (hchange : Change g b b') :
    AnsweredByAll b' := by
  cases hchange with
  | retry hj hqueued | giveUp hj hqueued =>
    exact h.setLetter _ hj (Letter.not_isTerminal_of_isQueued hqueued) rfl
  | requeue hj hsent => exact h.setLetter _ hj (by rw [hsent]; rfl) rfl
  | snooze hj hlive | answer hj hlive => exact h.setLetter _ hj hlive rfl
  | @send j l f t hj hqueued =>
    have hsent : AnsweredByAll (b.setLetter j { l with status := .sent, sentAt := some t }) :=
      h.setLetter _ hj (Letter.not_isTerminal_of_isQueued hqueued) rfl
    exact hsent.setFiring _ nofun
  | close hi hopen hended => exact h.setFiring _ fun _ ↦ hended
  | expire => exact h.setFiring _ nofun
  | plan hkept hnew =>
    intro j l f hl hf hanswered
    rcases hnew _ f hf with hold | ⟨-, hpending⟩
    · exact h j l f hl hold hanswered
    · rw [hpending] at hanswered
      cases hanswered
  | cover hkept hnew =>
    intro j l f hl hf hanswered
    rcases hnew j l hl with hold | ⟨-, -, -, f', hf', ⟨k, x, hx, hkey, hlistens⟩, hmay⟩
    · exact h j l f hold hf hanswered
    · cases hf'.symm.trans hf
      rw [hcover _ _ (hmay k x hx hkey hlistens)] at hanswered
      cases hanswered
  | join hinvited hmay hkept hnew =>
    intro j l f hl hf hanswered
    rcases hnew j l hl with hold | ⟨-, -, -, -, f', hf', -, hpending, -⟩
    · exact h j l f hold hf hanswered
    · cases hf'.symm.trans hf
      rw [hpending] at hanswered
      cases hanswered
  | invite | own | part => exact h
  | withdraw => exact h.remove rfl fun _ _ hf ↦ hf
  | @drop _ unsent gone =>
    refine h.remove (rfl : _ = (b.remove gone).letters) fun i f hf ↦ ?_
    change (if unsent i then none else b.firings i) = some f at hf
    split at hf
    · cases hf
    · exact hf

end Answers

/-- The planner covers an occurrence again only while nobody has closed it. -/
abbrev Operation.LeavesAnswers (settings : Settings) (w : World) (op : Operation) : Prop :=
  op.CoversOnly (fun f _ ↦ isAnswered f.status = false) settings w

theorem answers_are_final {settings : Settings} {users : Table User} {categories : Table Category}
    {ops : List Operation}
    {w : World} (hleaves : Guarded (perform settings) (fun w op ↦ op.LeavesAnswers settings w)
      (.initial users categories) ops)
    (hrun : run (perform settings) (.initial users categories) ops = some w) {j : ℕ}
    {d : Delivery} {o : Occurrence} (hd : w.db.deliveries j = some d)
    (ho : w.db.occurrences d.occurrenceId = some o) (hclosed : o.status = .done ∨ o.status = .skipped) :
    d.status = .done ∨ d.status = .skipped ∨ d.status = .failed ∨ d.status = .blocked := by
  have hfinal : AnsweredByAll w.board :=
    run_board (fun _ _ h hchange ↦ h.change (fun _ _ hmay ↦ hmay) hchange)
      (hleaves.mono fun _ _ _ hop ↦ meets_covering hop fun _ _ _ _ _ ↦ trivial) hrun
      (P := AnsweredByAll) (g := covering (fun f _ ↦ isAnswered f.status = false)
        fun _ _ _ _ ↦ True) nofun
  have hanswered : isAnswered o.status = true := by rcases hclosed with h | h <;> rw [h] <;> rfl
  exact DeliveryStatus.isTerminal_iff.mp
    (hfinal j (letterOf d) (firingOf o) (World.letters_of hd) (World.firings_of ho) hanswered)

/-- The row is accepted before the occurrence falls due. -/
def Precedes (x : Recipient) (f : Firing) : Prop :=
  x.role = .watcher → ∀ t, x.acceptedAt = some t → t < f.fireAt

/-- Watchers have letters only about what was still ahead when they joined. -/
structure HearsAhead (b : Board) : Prop where
  parented : Parented b
  unique : ∀ k k' x y, b.recipients k = some x → b.recipients k' = some y →
    x.role = .watcher → y.role = .watcher → x.key = y.key → k = k'
  ahead : ∀ k x j l f, b.recipients k = some x → b.letters j = some l → l.userId = x.userId →
    b.firings l.occurrenceId = some f → f.reminderId = x.reminderId → Precedes x f

section Newcomers

variable {g : Guard} {b b' : Board}

theorem HearsAhead.setLetter (h : HearsAhead b) {j : ℕ} {l : Letter} (l' : Letter)
    (hj : b.letters j = some l) (hparent : l'.occurrenceId = l.occurrenceId)
    (huser : l'.userId = l.userId) : HearsAhead (b.setLetter j l') := by
  refine ⟨h.parented.setLetter _ hj hparent, h.unique, fun k x j' l₁ f hx hl hmine hf hrid ↦ ?_⟩
  rw [Board.letters_setLetter] at hl
  split at hl
  · cases hl
    exact h.ahead k x j l f hx hj (huser ▸ hmine) (hparent ▸ hf) hrid
  · exact h.ahead k x j' l₁ f hx hl hmine hf hrid

theorem HearsAhead.setFiring (h : HearsAhead b) {i : ℕ} {f₀ : Firing} (status : OccurrenceStatus)
    (hi : b.firings i = some f₀) : HearsAhead (b.setFiring i { f₀ with status := status }) := by
  refine ⟨h.parented.setFiring _ _, h.unique, fun k x j l f hx hl hmine hf hrid ↦ ?_⟩
  rw [Board.firings_setFiring] at hf
  split at hf
  · rename_i heq
    cases hf
    exact h.ahead k x j l f₀ hx hl hmine (heq ▸ hi) hrid
  · exact h.ahead k x j l f hx hl hmine hf hrid

theorem HearsAhead.subset (h : HearsAhead b) (hparented : Parented b')
    (hrecipients : ∀ k x, b'.recipients k = some x → b.recipients k = some x)
    (hletters : ∀ j l, b'.letters j = some l → b.letters j = some l)
    (hfirings : ∀ i f, b'.firings i = some f → b.firings i = some f) : HearsAhead b' :=
  ⟨hparented, fun k k' x y hx hy ↦ h.unique k k' x y (hrecipients k x hx) (hrecipients k' y hy),
    fun k x j l f hx hl hmine hf ↦
      h.ahead k x j l f (hrecipients k x hx) (hletters j l hl) hmine (hfirings _ f hf)⟩

/-- A row nobody has accepted yet hears nothing. -/
theorem HearsAhead.newRow (h : HearsAhead b) {k : ℕ} {x : Recipient} (hk : b.recipients k = none)
    (hfirst : x.role = .watcher → ∀ k' y, b.recipients k' = some y → y.key ≠ x.key)
    (hsilent : ∀ f, Precedes x f) :
    HearsAhead { b with recipients := Function.update b.recipients k (some x) } := by
  have hrow : ∀ {k' : ℕ} {y : Recipient},
      Function.update b.recipients k (some x) k' = some y →
        k' = k ∧ y = x ∨ k' ≠ k ∧ b.recipients k' = some y := by
    intro k' y hy
    rw [Function.update_apply] at hy
    split at hy
    · cases hy
      exact .inl ⟨‹_›, rfl⟩
    · exact .inr ⟨‹_›, hy⟩
  refine ⟨h.parented, fun k₁ k₂ y₁ y₂ h₁ h₂ hrole₁ hrole₂ hkey ↦ ?_,
    fun k' y j l f hy hl hmine hf hrid ↦ ?_⟩
  · rcases hrow h₁ with ⟨rfl, rfl⟩ | ⟨-, hold₁⟩ <;> rcases hrow h₂ with ⟨rfl, rfl⟩ | ⟨-, hold₂⟩
    · rfl
    · exact absurd hkey.symm (hfirst hrole₁ k₂ y₂ hold₂)
    · exact absurd hkey (hfirst hrole₂ k₁ y₁ hold₁)
    · exact h.unique k₁ k₂ y₁ y₂ hold₁ hold₂ hrole₁ hrole₂ hkey
  · rcases hrow hy with ⟨-, rfl⟩ | ⟨-, hy⟩
    · exact hsilent f
    · exact h.ahead k' y j l f hy hl hmine hf hrid

theorem HearsAhead.join (h : HearsAhead b) {reminderId userId : ℕ} {now : ℤ}
    {letters : ℕ → Option Letter}
    (hinvited : ∃ k x, b.recipients k = some x ∧ isInvited reminderId userId x = true)
    (hfresh : ∀ j l f, b.letters j = some l → l.userId = userId →
      b.firings l.occurrenceId = some f → f.reminderId = reminderId → now < f.fireAt)
    (hnew : ∀ j l, letters j = some l → b.letters j = some l ∨
      l.userId = userId ∧ ∃ f, b.firings l.occurrenceId = some f ∧ f.reminderId = reminderId ∧
        now < f.fireAt)
    (hparented : Parented { b with
      recipients := fun k ↦ (b.recipients k).map (accepted reminderId userId now)
      letters := letters }) :
    HearsAhead { b with
      recipients := fun k ↦ (b.recipients k).map (accepted reminderId userId now)
      letters := letters } := by
  obtain ⟨k₀, x₀, hx₀, hinvited⟩ := hinvited
  have hpick := hinvited
  simp only [isInvited, Bool.and_eq_true, decide_eq_true_eq] at hpick
  have hstatic : ∀ y : Recipient, (accepted reminderId userId now y).key = y.key ∧
      (accepted reminderId userId now y).role = y.role := by
    intro y
    rw [accepted]
    split <;> exact ⟨rfl, rfl⟩
  refine ⟨hparented, fun k k' x y hx hy hrolex hroley hkey ↦ ?_,
    fun k x j l f hx hl hmine hf hrid hrole t ht ↦ ?_⟩
  · obtain ⟨x', hx', rfl⟩ := Option.map_eq_some_iff.mp hx
    obtain ⟨y', hy', rfl⟩ := Option.map_eq_some_iff.mp hy
    rw [(hstatic x').1, (hstatic y').1] at hkey
    rw [(hstatic _).2] at hrolex hroley
    exact h.unique k k' x' y' hx' hy' hrolex hroley hkey
  · obtain ⟨y, hy, rfl⟩ := Option.map_eq_some_iff.mp hx
    by_cases hmatch : isInvited reminderId userId y = true
    · have hkey := hmatch
      simp only [isInvited, Bool.and_eq_true, decide_eq_true_eq] at hkey
      rw [accepted, if_pos hmatch] at hmine hrid ht
      cases ht
      have huser : l.userId = userId := hmine.trans (congrArg Prod.snd hkey.1.1)
      have hreminder : f.reminderId = reminderId := hrid.trans (congrArg Prod.fst hkey.1.1)
      rcases hnew j l hl with hold | ⟨-, f', hf', -, hahead⟩
      · exact hfresh j l f hold huser hf hreminder
      · cases hf'.symm.trans hf
        exact hahead
    · rw [accepted, if_neg hmatch] at hmine hrid ht hrole
      rcases hnew j l hl with hold | ⟨huser, f', hf', hreminder, -⟩
      · exact h.ahead k y j l f hy hold hmine hf hrid hrole t ht
      · -- Only one row is the invited user's, and it is not this one.
        cases hf'.symm.trans hf
        have hkey : y.key = x₀.key := by
          rw [hpick.1.1, Recipient.key, ← hmine, ← hrid, huser, hreminder]
        cases h.unique k k₀ y x₀ hy hx₀ hrole hpick.1.2 hkey
        cases hy.symm.trans hx₀
        exact absurd hinvited hmatch

theorem HearsAhead.change (h : HearsAhead b) (hcover : ∀ f x, g.mayCover f x → Precedes x f)
    (hjoin : ∀ b rid user now, g.mayJoin b rid user now → ∀ j l f, b.letters j = some l →
      l.userId = user → b.firings l.occurrenceId = some f → f.reminderId = rid → now < f.fireAt)
    (hchange : Change g b b') : HearsAhead b' := by
  have hparented := h.parented.change hchange
  cases hchange with
  | retry hj | giveUp hj | requeue hj | snooze hj => exact h.setLetter _ hj rfl rfl
  | @answer j l f status hj =>
    have hset := h.setLetter { l with status := status } hj rfl rfl
    exact ⟨hparented, hset.unique, hset.ahead⟩
  | @send j l f t hj hqueued hi =>
    have hset := (h.setLetter { l with status := .sent, sentAt := some t } hj rfl rfl).setFiring
      .sent hi
    exact ⟨hparented, hset.unique, hset.ahead⟩
  | close hi => exact h.setFiring _ hi
  | expire hi =>
    have hset := h.setFiring .expired hi
    exact ⟨hparented, hset.unique, hset.ahead⟩
  | plan hkept hnew =>
    refine ⟨hparented, h.unique, fun k x j l f hx hl hmine hf ↦ ?_⟩
    obtain ⟨f', hf'⟩ := h.parented j l hl
    cases (hkept _ _ hf').symm.trans hf
    exact h.ahead k x j l _ hx hl hmine hf'
  | cover hkept hnew =>
    refine ⟨hparented, h.unique, fun k x j l f hx hl hmine hf hrid hrole t ht ↦ ?_⟩
    rcases hnew j l hl with hold | ⟨-, -, -, f', hf', -, hmay⟩
    · exact h.ahead k x j l f hx hold hmine hf hrid hrole t ht
    · cases hf'.symm.trans hf
      refine hcover _ x (hmay k x hx ?_ ?_) hrole t ht
      · rw [Recipient.key, hmine, hrid]
      · simp [listens, ht]
  | join hinvited hmay hkept hnew =>
    refine h.join hinvited (hjoin b _ _ _ hmay) (fun j l hl ↦ ?_) hparented
    refine (hnew j l hl).imp_right ?_
    rintro ⟨_, _, _, huser, f, hf, hrid, _, hahead⟩
    exact ⟨huser, f, hf, hrid, hahead⟩
  | invite hk hfirst hrole hpending =>
    exact h.newRow hk (fun _ ↦ hfirst) fun f _ t ht ↦ by rw [hpending] at ht; cases ht
  | own hk hrole =>
    refine h.newRow hk (fun hwatcher ↦ ?_) fun f hwatcher ↦ ?_ <;>
    · rw [hrole] at hwatcher
      cases hwatcher
  | part =>
    refine h.subset hparented (fun k x hx ↦ ?_) (fun _ _ hl ↦ hl) fun _ _ hf ↦ hf
    exact (Option.filter_eq_some_iff.mp hx).1
  | @withdraw _ _ gone =>
    refine h.subset hparented (fun _ _ hx ↦ hx) (fun j l hl ↦ ?_) fun _ _ hf ↦ hf
    change (if gone j then none else b.letters j) = some l at hl
    split at hl
    · cases hl
    · exact hl
  | @drop _ unsent gone =>
    refine h.subset hparented (fun _ _ hx ↦ hx) (fun j l hl ↦ ?_) fun i f hf ↦ ?_
    · change (if gone j then none else b.letters j) = some l at hl
      split at hl
      · cases hl
      · exact hl
    · change (if unsent i then none else b.firings i) = some f at hf
      split at hf
      · cases hf
      · exact hf

end Newcomers

/-- Who accepts has no delivery left of the reminder that is due already. -/
def Operation.JoinsAfresh (w : World) : Operation → Prop
  | .accept now user rid =>
    (∃ k x, w.db.recipients k = some x ∧ isInvited rid user x = true) →
      ∀ j d, w.db.deliveries j = some d → d.userId = user →
        ∀ o, w.db.occurrences d.occurrenceId = some o → o.reminderId = rid → now < o.fireAt
  | _ => True

/-- A cycle queues nothing for a watcher that fell due before they accepted,
and nobody comes back to what they have had before. -/
def Operation.KeepsToFuture (settings : Settings) (w : World) (op : Operation) : Prop :=
  op.CoversOnly (fun f x ↦ Precedes x f) settings w ∧ op.JoinsAfresh w

section Runs

variable {settings : Settings} {users : Table User} {categories : Table Category}
    {ops : List Operation} {w w' : World}

/-- Who may join: nobody with a letter about something already due. -/
def joinsAfresh (b : Board) (rid user : ℕ) (now : ℤ) : Prop :=
  ∀ j l f, b.letters j = some l → l.userId = user → b.firings l.occurrenceId = some f →
    f.reminderId = rid → now < f.fireAt

theorem hearsAhead_run
    (hfuture : Guarded (perform settings) (fun w op ↦ op.KeepsToFuture settings w)
      (.initial users categories) ops)
    (hrun : run (perform settings) (.initial users categories) ops = some w) :
    HearsAhead w.board := by
  have hmeets : Guarded (perform settings) (fun w op ↦
      op.Meets (covering (fun f x ↦ Precedes x f) joinsAfresh) settings w)
      (.initial users categories) ops := by
    refine hfuture.mono fun w op _ hop ↦ meets_covering hop.1 fun now user rid hop' hinvited ↦ ?_
    subst hop'
    intro j l f hl huser hf hrid
    obtain ⟨d, hd, rfl⟩ := World.letter_some.mp hl
    obtain ⟨o, ho, rfl⟩ := World.firing_some.mp hf
    exact hop.2 hinvited j d hd huser o ho hrid
  have hinitial : HearsAhead (World.initial users categories).board :=
    ⟨fun _ _ hl ↦ (by cases hl), fun _ _ _ _ hx ↦ (by cases hx), fun _ _ _ _ _ hx ↦ (by cases hx)⟩
  exact run_board (fun _ _ h hchange ↦
    h.change (fun _ _ hmay ↦ hmay) (fun _ _ _ _ hmay ↦ hmay) hchange) hmeets hrun hinitial

/-- A watcher has deliveries, and gets messages, only about what fell due after
they had accepted. -/
theorem newcomers_hear_ahead {op : Operation}
    (hfuture : Guarded (perform settings) (fun w op ↦ op.KeepsToFuture settings w)
      (.initial users categories) ops)
    (hrun : run (perform settings) (.initial users categories) ops = some w)
    {k : ℕ} {x : Recipient} {t : ℤ} (hx : w.db.recipients k = some x)
    (hwatcher : x.role = .watcher) (haccepted : x.acceptedAt = some t) :
    (∀ j d o, w.db.deliveries j = some d → d.userId = x.userId →
      w.db.occurrences d.occurrenceId = some o → o.reminderId = x.reminderId → t < o.fireAt) ∧
    (perform settings w op = some w' → ∀ m ∈ w'.outbox.drop w.outbox.length,
      (m.reminderId, m.userId) = x.key →
        ∃ o, w.db.occurrences m.occurrenceId = some o ∧ t < o.fireAt) := by
  have hahead := hearsAhead_run hfuture hrun
  have hrows : ∀ j d o, w.db.deliveries j = some d → d.userId = x.userId →
      w.db.occurrences d.occurrenceId = some o → o.reminderId = x.reminderId → t < o.fireAt :=
    fun j d o hd huser ho hrid ↦ hahead.ahead k x j (letterOf d) (firingOf o) hx
      (World.letters_of hd) huser (World.firings_of ho) hrid hwatcher t haccepted
  refine ⟨hrows, fun hop m hm hkey ↦ ?_⟩
  obtain ⟨now, gateway, rfl, hm⟩ := mem_new_outbox hop hm
  obtain ⟨y, -, d, o, -, hd, huser, hparent, -, ho, hreminder, -⟩ := mem_deliver hm
  refine ⟨o, ho, hrows y.1 d o hd ?_ (hparent ▸ ho) ?_⟩
  · exact huser.trans (congrArg Prod.snd hkey)
  · exact hreminder.trans (congrArg Prod.fst hkey)

end Runs

section Sample

instance {mayCover : Firing → Recipient → Prop} [∀ f x, Decidable (mayCover f x)]
    (settings : Planning.Settings) (horizonEnd : ℤ) (db : Database) (rid : ℕ) (r : Reminder)
    (owner : User) : Decidable (CoversWhen mayCover settings horizonEnd db rid r owner) :=
  decidable_of_iff (∀ m ∈ Planning.plan horizonEnd rid r db,
    ∀ x ∈ db.recipients.select (fun _ x ↦ decide (x.reminderId = rid) && listens x),
      (∀ o ∈ db.occurrences.select (fun _ o ↦ decide (o.key = (rid, m))),
        db.deliveries.count (fun d ↦ decide (d.key = (o.1, x.2.userId))) = 0 →
          mayCover (firingOf o.2) x.2) ∧
      (db.occurrences.count (fun o ↦ decide (o.key = (rid, m))) = 0 → mayCover (firingOf
        (Planning.occurrenceRow rid (quietHoursOf owner) settings.ttl m)) x.2)) <| by
    refine forall₂_congr fun m _ ↦ ⟨fun h k x hx hrid hlistens ↦ ?_, fun h x hx ↦ ?_⟩
    · have hrow : (k, x) ∈ db.recipients.select fun _ x ↦ decide (x.reminderId = rid) && listens x :=
        Table.mem_select.mpr ⟨hx, by simp [hrid, hlistens]⟩
      refine ⟨fun i o ho hkey hfirst ↦ (h _ hrow).1 (i, o) ?_ ?_, fun hnone ↦ (h _ hrow).2 ?_⟩
      · exact Table.mem_select.mpr ⟨ho, decide_eq_true hkey⟩
      · exact Table.count_eq_zero.mpr fun j d hd ↦ decide_eq_false (hfirst j d hd)
      · exact Table.count_eq_zero.mpr fun i o ho ↦ decide_eq_false fun hkey ↦ hnone ⟨i, o, ho, hkey⟩
    · obtain ⟨hrow, hpick⟩ := Table.mem_select.mp hx
      rw [Bool.and_eq_true, decide_eq_true_eq] at hpick
      obtain ⟨hold, hnew⟩ := h x.1 x.2 hrow hpick.1 hpick.2
      refine ⟨fun o ho hnone ↦ ?_, fun hnone ↦ hnew fun ⟨i, o, ho, hkey⟩ ↦ ?_⟩
      · obtain ⟨ho, hkey⟩ := Table.mem_select.mp ho
        refine hold o.1 o.2 ho (of_decide_eq_true hkey) fun j d hd ↦ ?_
        exact of_decide_eq_false (Table.count_eq_zero.mp hnone j d hd)
      · exact of_decide_eq_false (Table.count_eq_zero.mp hnone i o ho) hkey

instance {mayCover : Firing → Recipient → Prop} [∀ f x, Decidable (mayCover f x)]
    (settings : Settings) (w : World) (op : Operation) :
    Decidable (op.CoversOnly mayCover settings w) :=
  match op with
  | .materialize now =>
    decidable_of_iff (∀ x ∈ Db.Reminders.dueForPlanning w.db (now + settings.planning.horizon)
      settings.planning.batchSize, ∀ owner ∈ w.db.users x.2.ownerId,
        CoversWhen mayCover settings.planning (now + settings.planning.horizon) w.db x.1 x.2 owner)
      Iff.rfl
  | .create .. | .deliver .. | .react .. | .sweep .. | .setStatus .. | .update .. |
    .issueInvite .. | .revokeInvite .. | .openInvite .. | .accept .. | .decline .. |
    .leave .. => isTrue trivial

theorem answers_are_final_sample :
    ∃ w d o,
      run (perform sampleSettings) (.initial sampleUsers sampleCategories) everybodyAnswers = some w ∧
      w.db.deliveries 1 = some d ∧ w.db.occurrences d.occurrenceId = some o ∧ o.status = .skipped ∧
        (d.status = .done ∨ d.status = .skipped ∨ d.status = .failed ∨ d.status = .blocked) := by
  have hruns :
    (run (perform sampleSettings) (.initial sampleUsers sampleCategories) everybodyAnswers).any (fun w ↦
      (w.db.deliveries 1).any fun d ↦ (w.db.occurrences d.occurrenceId).any fun o ↦
        decide (o.status = .skipped)) = true := by
    decide +kernel
  have hleaves : Guarded (perform sampleSettings) (fun w op ↦ op.LeavesAnswers sampleSettings w)
      (.initial sampleUsers sampleCategories) everybodyAnswers := by
    decide +kernel
  obtain ⟨w, hrun, hruns⟩ := (Option.any_eq_true _ _).mp hruns
  obtain ⟨d, hd, hruns⟩ := (Option.any_eq_true _ _).mp hruns
  obtain ⟨o, ho, hskipped⟩ := (Option.any_eq_true _ _).mp hruns
  have hskipped := of_decide_eq_true hskipped
  exact ⟨w, d, o, hrun, hd, ho, hskipped, answers_are_final hleaves hrun hd ho (.inr hskipped)⟩

/-- The owner answers, somebody else joins, and the reminder is paused, resumed
and planned once more. -/
def joinedLater : List Operation :=
  plannedLife ++ [.deliver (5 * day) (answering [] (5 * day)), .react (5 * day) 0 0 .done,
    .issueInvite (5 * day) 0 0 "link", .openInvite (5 * day) "link" 1, .accept (5 * day) 1 0,
    .setStatus (5 * day) 0 0 .paused, .setStatus (5 * day) 0 0 .active, .materialize (5 * day)]

/-- The planner covers the answered occurrence for the newcomer too. -/
theorem replan_reopens_answered :
    ∃ w j d o, run (perform sampleSettings) (.initial sampleUsers sampleCategories) joinedLater = some w ∧
      w.db.deliveries j = some d ∧ w.db.occurrences d.occurrenceId = some o ∧ o.status = .done ∧
        d.status = .pending := by
  have hruns :
    (run (perform sampleSettings) (.initial sampleUsers sampleCategories) joinedLater).any (fun w ↦
      (w.db.deliveries.select fun _ d ↦ decide (d.status = .pending)).any fun d ↦
        (w.db.occurrences d.2.occurrenceId).any fun o ↦ decide (o.status = .done)) = true := by
    decide +kernel
  obtain ⟨w, hrun, hruns⟩ := (Option.any_eq_true _ _).mp hruns
  obtain ⟨⟨j, d⟩, hd, hruns⟩ := List.any_eq_true.mp hruns
  obtain ⟨hd, hpending⟩ := Table.mem_select.mp hd
  obtain ⟨o, ho, hdone⟩ := (Option.any_eq_true _ _).mp hruns
  exact ⟨w, j, d, o, hrun, hd, ho, of_decide_eq_true hdone, of_decide_eq_true hpending⟩

instance (x : Recipient) (f : Firing) : Decidable (Precedes x f) :=
  inferInstanceAs (Decidable (x.role = .watcher → ∀ t ∈ x.acceptedAt, t < f.fireAt))

instance (w : World) (op : Operation) : Decidable (op.JoinsAfresh w) :=
  match op with
  | .accept now user rid =>
    decidable_of_iff (w.db.recipients.count (isInvited rid user) ≠ 0 →
      ∀ d ∈ w.db.deliveries.select (fun _ d ↦ decide (d.userId = user)),
        ∀ o ∈ w.db.occurrences d.2.occurrenceId, o.reminderId = rid → now < o.fireAt) <| by
      rw [ne_eq, Table.count_eq_zero]
      push Not
      refine imp_congr (by simp) ⟨fun h j d hd huser o ho ↦ ?_, fun h d hd o ho ↦ ?_⟩
      · exact h (j, d) (Table.mem_select.mpr ⟨hd, decide_eq_true huser⟩) o ho
      · obtain ⟨hd, huser⟩ := Table.mem_select.mp hd
        exact h d.1 d.2 hd (of_decide_eq_true huser) o ho
  | .create .. | .materialize .. | .deliver .. | .react .. | .sweep .. | .setStatus .. |
    .update .. | .issueInvite .. | .revokeInvite .. | .openInvite .. | .decline .. | .leave .. =>
    isTrue trivial

instance (settings : Settings) (w : World) (op : Operation) :
    Decidable (op.KeepsToFuture settings w) :=
  inferInstanceAs (Decidable (_ ∧ _))

theorem newcomers_hear_ahead_sample :
    ∃ w w' x, run (perform sampleSettings) (.initial sampleUsers sampleCategories) sharedLife = some w ∧
      perform sampleSettings w (.deliver (5 * day + hour) (answering [] (5 * day + hour))) =
        some w' ∧ w.db.recipients 1 = some x ∧ x.role = .watcher ∧ x.acceptedAt = some 0 ∧
          (∀ j d o, w.db.deliveries j = some d → d.userId = x.userId →
            w.db.occurrences d.occurrenceId = some o → o.reminderId = x.reminderId →
              0 < o.fireAt) ∧
          ∀ m ∈ w'.outbox.drop w.outbox.length, (m.reminderId, m.userId) = x.key →
            ∃ o, w.db.occurrences m.occurrenceId = some o ∧ 0 < o.fireAt := by
  have hruns :
    (run (perform sampleSettings) (.initial sampleUsers sampleCategories) sharedLife).any (fun w ↦
      (perform sampleSettings w (.deliver (5 * day + hour)
        (answering [] (5 * day + hour)))).isSome &&
          (w.db.recipients 1).any fun x ↦ decide (x.role = .watcher ∧ x.acceptedAt = some 0)) =
      true := by
    decide +kernel
  have hfuture : Guarded (perform sampleSettings) (fun w op ↦ op.KeepsToFuture sampleSettings w)
      (.initial sampleUsers sampleCategories) sharedLife := by
    decide +kernel
  obtain ⟨w, hrun, hruns⟩ := (Option.any_eq_true _ _).mp hruns
  rw [Bool.and_eq_true, Option.isSome_iff_exists] at hruns
  obtain ⟨⟨w', hsend⟩, hrow⟩ := hruns
  obtain ⟨x, hx, hrow⟩ := (Option.any_eq_true _ _).mp hrow
  obtain ⟨hrole, haccepted⟩ := of_decide_eq_true hrow
  obtain ⟨hrows, hmessages⟩ := newcomers_hear_ahead hfuture hrun hx hrole haccepted
  exact ⟨w, w', x, hrun, hsend, hx, hrole, haccepted, hrows, hmessages hsend⟩

/-- The owner has the message when somebody else joins, an hour before the
reminder is paused, resumed and planned once more. -/
def joinedLate : List Operation :=
  plannedLife ++ [.deliver (5 * day) (answering [] (5 * day)), .issueInvite (5 * day) 0 0 "link",
    .openInvite (5 * day) "link" 1, .accept (5 * day) 1 0,
    .setStatus (5 * day + hour) 0 0 .paused, .setStatus (5 * day + hour) 0 0 .active,
    .materialize (5 * day + hour)]

/-- The newcomer is sent what fell due the day before they joined. -/
theorem replan_reaches_back :
    ∃ w w' x t m o,
      run (perform sampleSettings) (.initial sampleUsers sampleCategories) joinedLate = some w ∧
      w.db.recipients 1 = some x ∧ x.role = .watcher ∧ x.acceptedAt = some t ∧
        (∃ j d, w.db.deliveries j = some d ∧ d.userId = x.userId ∧
          d.occurrenceId = m.occurrenceId) ∧
        w.db.occurrences m.occurrenceId = some o ∧ o.reminderId = x.reminderId ∧ o.fireAt < t ∧
          perform sampleSettings w (.deliver (5 * day + hour)
            (answering [] (5 * day + hour))) = some w' ∧
            m ∈ w'.outbox.drop w.outbox.length ∧ m.userId = x.userId := by
  have hruns :
    (run (perform sampleSettings) (.initial sampleUsers sampleCategories) joinedLate).any (fun w ↦
      (w.db.recipients 1).any fun x ↦ decide (x.role = .watcher) && x.acceptedAt.any fun t ↦
        (perform sampleSettings w (.deliver (5 * day + hour)
          (answering [] (5 * day + hour)))).any fun w' ↦
            (w'.outbox.drop w.outbox.length).any fun m ↦ decide (m.userId = x.userId) &&
              (w.db.deliveries m.deliveryId).any (fun d ↦
                decide (d.userId = x.userId ∧ d.occurrenceId = m.occurrenceId)) &&
              (w.db.occurrences m.occurrenceId).any fun o ↦
                decide (o.reminderId = x.reminderId ∧ o.fireAt < t)) = true := by
    decide +kernel
  obtain ⟨w, hrun, hruns⟩ := (Option.any_eq_true _ _).mp hruns
  obtain ⟨x, hx, hruns⟩ := (Option.any_eq_true _ _).mp hruns
  simp only [Bool.and_eq_true, decide_eq_true_eq, Option.any_eq_true] at hruns
  obtain ⟨hrole, t, ht, w', hsend, hruns⟩ := hruns
  obtain ⟨m, hm, hruns⟩ := List.any_eq_true.mp hruns
  simp only [Bool.and_eq_true, decide_eq_true_eq, Option.any_eq_true] at hruns
  obtain ⟨⟨huser, d, hd, hmine⟩, o, ho, hrid, hlate⟩ := hruns
  exact ⟨w, w', x, t, m, o, hrun, hx, hrole, ht, ⟨m.deliveryId, d, hd, hmine⟩, ho, hrid, hlate,
    hsend, hm, huser⟩

end Sample

end Remindo.Serial
