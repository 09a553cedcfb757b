import Remindo.Serial.TakingBack

namespace Remindo.Serial

open Remindo.Domain Remindo.Db Remindo.Services Remindo.Foundation

section Messages

open Dispatching

variable {db db' : Database} {memory : Memory} {w : Work} {c : Deliveries.SendContext}

/-- A claimed delivery, with the rows the session has read for it. -/
structure Loaded (db : Database) (w : Work) : Prop where
  row : ∃ d, db.deliveries w.id = some d ∧ d.userId = w.row.userId ∧
    ∀ c, w.context = some c → d.occurrenceId = c.occurrence.1
  context : ∀ c, w.context = some c →
    db.occurrences c.occurrence.1 = some c.occurrence.2 ∧ c.occurrence.2.reminderId = c.reminder.1
  user : ∀ c, w.context = some c →
    c.user.1 = w.row.userId ∧ db.users c.user.1 = some c.user.2

/-- What the session has marked was open when it was read. -/
def MarksOpen (db : Database) (memory : Memory) : Prop :=
  ∀ i ∈ memory.sent, ∃ o, db.occurrences i = some o ∧ o.status.isTerminal = false

theorem Loaded.opened (h : Loaded db w) (hmarks : MarksOpen db memory) (hc : w.context = some c)
    (hopen : (memory.occurrenceStatus c).isTerminal = false) :
    c.occurrence.2.status.isTerminal = false := by
  rw [Memory.occurrenceStatus] at hopen
  split at hopen
  · rename_i hmarked
    obtain ⟨o, ho, hstatus⟩ := hmarks _ hmarked
    cases ho.symm.trans (h.context c hc).1
    exact hstatus
  · exact hopen

theorem MarksOpen.after (hmarks : MarksOpen db memory) (h : Loaded db w) (result : SendResult)
    (now : ℤ) : MarksOpen db (memory.after w (conclude memory w result now)) := by
  intro i hi
  rw [Memory.after, List.mem_append, Option.mem_toList] at hi
  rcases hi with hi | hi
  · obtain ⟨c, hc, hmarked⟩ := Option.bind_eq_some_iff.mp hi
    split at hmarked
    · rename_i hsendable
      cases hmarked
      have hc := (conclude_sent hc).1
      exact ⟨_, (h.context c hc).1, h.opened hmarks hc (not_isTerminal_of_isSendable hsendable)⟩
    · cases hmarked
  · exact hmarks i hi

/-- A message is about a delivery of the batch that `check_deliverable` let
through as it was read, and that the gateway took. -/
theorem mem_deliverAll {gateway : Gateway} {batch : List Work}
    (hloaded : ∀ w ∈ batch, Loaded db w) (hmarks : MarksOpen db memory) {m : Message}
    (hm : m ∈ (deliverAll gateway batch memory db').1) :
    ∃ w ∈ batch, ∃ d o, m.deliveryId = w.id ∧ db.deliveries w.id = some d ∧
      d.userId = m.userId ∧ d.occurrenceId = m.occurrenceId ∧
        db.occurrences m.occurrenceId = some o ∧ o.reminderId = m.reminderId ∧
          o.status.isTerminal = false ∧ m.sentAt = (gateway w.id).2 ∧
            (∃ u, db.users m.userId = some u ∧ u.isBlocked = false) ∧
              ∃ messageId, (gateway w.id).1 = .delivered messageId := by
  induction batch generalizing memory db' with
  | nil => cases hm
  | cons w rest ih =>
    have hw := hloaded w List.mem_cons_self
    rcases List.mem_append.mp hm with hm | hm
    · obtain ⟨c, hc, rfl⟩ := Option.map_eq_some_iff.mp (Option.mem_toList.mp hm)
      obtain ⟨hc, hcheck, hsent⟩ := conclude_sent hc
      obtain ⟨d, hd, huser, hparent⟩ := hw.row
      obtain ⟨ho, hreminder⟩ := hw.context c hc
      obtain ⟨hwho, hu⟩ := hw.user c hc
      obtain ⟨hopen, hreached⟩ := checkDeliverable_eq_none.mp hcheck
      have hunblocked : c.user.2.isBlocked = false := (Bool.or_eq_false_iff.mp hreached).2
      exact ⟨w, List.mem_cons_self, d, c.occurrence.2, rfl, hd, huser, hparent c hc, ho, hreminder,
        hw.opened hmarks hc hopen, rfl, ⟨c.user.2, hwho ▸ hu, hunblocked⟩, hsent⟩
    · obtain ⟨v, hv, hrest⟩ := ih (fun v hv ↦ hloaded v (List.mem_cons_of_mem _ hv))
        (hmarks.after hw _ _) hm
      exact ⟨v, List.mem_cons_of_mem _ hv, hrest⟩

theorem deliverAll_parent {gateway : Gateway} {batch : List Work} {j : ℕ} {d : Delivery}
    (hd : (deliverAll gateway batch memory db).2.deliveries j = some d) :
    ∃ d', db.deliveries j = some d' ∧ d'.occurrenceId = d.occurrenceId := by
  induction batch generalizing memory db with
  | nil => exact ⟨d, hd, rfl⟩
  | cons w rest ih =>
    obtain ⟨d', hd', hparent⟩ := ih hd
    rw [deliveries_applyVerdict] at hd'
    split at hd'
    · rename_i hj
      obtain ⟨d₀, hd₀, rfl⟩ := Option.map_eq_some_iff.mp hd'
      exact ⟨d₀, hj ▸ hd₀, hparent⟩
    · exact ⟨d', hd', hparent⟩

theorem deliverAll_open {gateway : Gateway} {batch : List Work} {i : ℕ} {o : Occurrence}
    (ho : db.occurrences i = some o) (hopen : o.status.isTerminal = false) :
    ∃ o', (deliverAll gateway batch memory db).2.occurrences i = some o' ∧
      o'.status.isTerminal = false ∧ o'.expiresAt = o.expiresAt := by
  induction batch generalizing memory db o with
  | nil => exact ⟨o, ho, hopen, rfl⟩
  | cons w rest ih =>
    have hmark := occurrences_applyVerdict db memory w
      (conclude memory w (gateway w.id).1 (gateway w.id).2) (gateway w.id).2 i
    split at hmark
    · rw [ho, Option.map_some] at hmark
      obtain ⟨o', ho', hopen', hend⟩ := ih hmark rfl
      exact ⟨o', ho', hopen', hend⟩
    · exact ih (hmark.trans ho) hopen

theorem mem_deliver {now lockFor : ℤ} {batch : ℕ} {gateway : Gateway} {m : Message}
    (hm : m ∈ (deliver db now lockFor batch gateway).1) :
    ∃ x ∈ Deliveries.claimDue now lockFor batch (fun _ ↦ false) db, ∃ d o,
      m.deliveryId = x.1 ∧ db.deliveries x.1 = some d ∧ d.userId = m.userId ∧
        d.occurrenceId = m.occurrenceId ∧ x.2.occurrenceId = m.occurrenceId ∧
          db.occurrences m.occurrenceId = some o ∧ o.reminderId = m.reminderId ∧
            o.status.isTerminal = false ∧ m.sentAt = (gateway x.1).2 ∧
              (∃ u, db.users m.userId = some u ∧ u.isBlocked = false) ∧
                ∃ messageId, (gateway x.1).1 = .delivered messageId := by
  let rows := Deliveries.claimDue now lockFor batch (fun _ ↦ false) db
  have hnodup := Deliveries.nodup_claimDue now lockFor batch (fun _ ↦ false) db
  have hloaded : ∀ w ∈ loadWork (db.apply (Deliveries.claimed rows)) rows,
      Loaded (db.apply (Deliveries.claimed rows)) w := by
    intro w hw
    obtain ⟨x, hx, rfl⟩ := List.mem_map.mp hw
    have hleased := Deliveries.deliveries_claimed_of_mem hnodup db hx
    refine ⟨⟨x.2, hleased, rfl, fun c hc ↦ ?_⟩, fun c hc ↦ ?_, fun c hc ↦ ?_⟩
    · obtain ⟨⟨d, hd, hparent, -⟩, -⟩ := Deliveries.loadSendContext_eq_some hc
      cases hleased.symm.trans hd
      exact hparent
    · obtain ⟨-, ho, hreminder, -⟩ := Deliveries.loadSendContext_eq_some hc
      exact ⟨ho, hreminder⟩
    · obtain ⟨⟨d, hd, -, huser⟩, -, -, hu⟩ := Deliveries.loadSendContext_eq_some hc
      cases hleased.symm.trans hd
      exact ⟨huser.symm, hu⟩
  have hmarks : MarksOpen (db.apply (Deliveries.claimed rows)) .empty := fun _ hi ↦ by cases hi
  obtain ⟨w, hw, d, o, hid, hd, huser, hparent, ho, hreminder, hopen, hsent, hreached⟩ :=
    mem_deliverAll hloaded hmarks hm
  obtain ⟨x, hx, rfl⟩ := List.mem_map.mp hw
  cases (Deliveries.deliveries_claimed_of_mem hnodup db hx).symm.trans hd
  obtain ⟨d₀, hd₀, -, -, hrow⟩ := Deliveries.mem_claimDue hx
  refine ⟨x, hx, d₀, o, hid, hd₀, ?_, ?_, hparent, ho, hreminder, hopen, hsent, hreached⟩
  · rw [← huser, hrow]
  · rw [← hparent, hrow]

/-- A message goes to somebody who is not marked as having blocked the bot. -/
theorem mem_deliver_unblocked {now lockFor : ℤ} {batch : ℕ} {gateway : Gateway} {m : Message}
    (hm : m ∈ (deliver db now lockFor batch gateway).1) :
    ∃ u, db.users m.userId = some u ∧ u.isBlocked = false :=
  let ⟨_, _, _, _, _, _, _, _, _, _, _, _, _, hreached, _⟩ := mem_deliver hm
  hreached

end Messages

/-- What a cycle claims and `check_deliverable` lets through is not sent after
the end of its occurrence. -/
def Operation.SendsInTime (settings : Settings) (w : World) : Operation → Prop
  | .deliver now gateway =>
    ∀ x ∈ Deliveries.claimDue now settings.lockFor settings.dispatcherBatch (fun _ ↦ false) w.db,
      ∀ o, w.db.occurrences x.2.occurrenceId = some o → ∀ u, w.db.users x.2.userId = some u →
        checkDeliverable o.status u.isBlocked = none →
          (∃ messageId, (gateway x.1).1 = .delivered messageId) → (gateway x.1).2 < o.expiresAt
  | _ => True

section Runs

variable {settings : Settings} {w w' : World} {op : Operation} {m : Message}

/-- Only the dispatcher sends. -/
theorem outbox_perform (h : perform settings w op = some w') :
    (∃ now gateway, op = .deliver now gateway) ∨ w'.outbox = w.outbox := by
  cases op with
  | deliver now gateway => exact .inl ⟨now, gateway, rfl⟩
  | materialize | sweep | decline | leave =>
    cases h
    exact .inr rfl
  | _ =>
    obtain ⟨db', -, rfl⟩ := over_eq_some h
    exact .inr rfl

theorem mem_new_outbox (h : perform settings w op = some w')
    (hm : m ∈ w'.outbox.drop w.outbox.length) : ∃ now gateway, op = .deliver now gateway ∧
      m ∈ (Dispatching.deliver w.db now settings.lockFor settings.dispatcherBatch gateway).1 := by
  rcases outbox_perform h with ⟨now, gateway, rfl⟩ | hsame
  · cases h
    rw [List.drop_left] at hm
    exact ⟨now, gateway, rfl, hm⟩
  · rw [hsame, List.drop_length] at hm
    cases hm

/-- A tap on the message, made as it is sent, is not refused for being late. -/
def Answerable (w : World) (m : Message) : Prop :=
  ∀ action result db, Reactions.react w.db m.sentAt m.deliveryId m.userId action =
    .ok (result, db) → result.reason ≠ some .expired

theorem answerable_of_open {o : Occurrence} (ho : w.db.occurrences m.occurrenceId = some o)
    (hopen : o.status.isTerminal = false) (hearly : m.sentAt < o.expiresAt)
    (hparent : ∀ d, w.db.deliveries m.deliveryId = some d → d.occurrenceId = m.occurrenceId) :
    Answerable w m := by
  intro action result db hreact hlate
  obtain ⟨d, hd, hreact⟩ := bind_eq_ok.mp hreact
  obtain ⟨_, -, hreact⟩ := bind_eq_ok.mp hreact
  obtain ⟨o', ho', hreact⟩ := bind_eq_ok.mp hreact
  rw [require_eq_ok, hparent d (require_eq_ok.mp hd), ho] at ho'
  cases ho'
  split at hreact
  · rename_i reason hreason
    cases hreact
    cases hlate
    rw [checkReactable, hopen] at hreason
    split at hreason
    · cases hreason
    · rw [if_neg (by simp [hearly])] at hreason
      split at hreason <;> cases hreason
  · obtain ⟨r, -, hreact⟩ := bind_eq_ok.mp hreact
    obtain ⟨u, -, hreact⟩ := bind_eq_ok.mp hreact
    obtain ⟨reaction, -, hreact⟩ := bind_eq_ok.mp hreact
    cases hreact
    cases hlate

/-- What one operation sends in time is answerable as it is sent. -/
theorem arrives_alive_step (htimely : op.SendsInTime settings w)
    (hop : perform settings w op = some w') (hm : m ∈ w'.outbox.drop w.outbox.length) :
    (∃ o, w'.db.occurrences m.occurrenceId = some o ∧ m.sentAt < o.expiresAt) ∧
      Answerable w' m := by
  obtain ⟨now, gateway, rfl, hm⟩ := mem_new_outbox hop hm
  obtain ⟨x, hx, d, o, hid, hd, huser, -, hclaimed, ho, -, hopen, hsent, ⟨u, hu, hreached⟩,
    htaken⟩ := mem_deliver hm
  have hwho : x.2.userId = m.userId := by
    obtain ⟨d', hd', -, -, hrow⟩ := Deliveries.mem_claimDue hx
    cases hd.symm.trans hd'
    rw [hrow, ← huser]
  have hcheck : checkDeliverable o.status u.isBlocked = none :=
    checkDeliverable_eq_none.mpr ⟨hopen, hreached⟩
  have hearly : m.sentAt < o.expiresAt :=
    hsent ▸ htimely x hx o (hclaimed ▸ ho) u (hwho ▸ hu) hcheck htaken
  cases hop
  let rows := Deliveries.claimDue now settings.lockFor settings.dispatcherBatch (fun _ ↦ false) w.db
  have hleased : (w.db.apply (Deliveries.claimed rows)).deliveries x.1 = some x.2 :=
    Deliveries.deliveries_claimed_of_mem (Deliveries.nodup_claimDue ..) w.db hx
  obtain ⟨o', ho', hopen', hend⟩ : ∃ o', (Dispatching.deliver w.db now settings.lockFor
      settings.dispatcherBatch gateway).2.occurrences m.occurrenceId = some o' ∧
        o'.status.isTerminal = false ∧ o'.expiresAt = o.expiresAt :=
    deliverAll_open ho hopen
  refine ⟨⟨o', ho', hend ▸ hearly⟩, answerable_of_open ho' hopen' (hend ▸ hearly) fun d' hd' ↦ ?_⟩
  obtain ⟨d₀, hd₀, hparent₀⟩ := deliverAll_parent hd'
  rw [hid, hleased] at hd₀
  cases hd₀
  rw [← hparent₀, hclaimed]

/-- As long as the reaper has swept what is overdue, and nothing a cycle sends
lapses before its turn, no message arrives dead. -/
theorem arrives_alive {users : Table User} {categories : Table Category}
    {ops before after : List Operation}
    (htimely : Guarded (perform settings) (fun w op ↦ op.SendsInTime settings w)
      (.initial users categories) ops) (hops : ops = before ++ op :: after)
    (hbefore : run (perform settings) (.initial users categories) before = some w)
    (hop : perform settings w op = some w') :
    ∀ m ∈ w'.outbox.drop w.outbox.length,
      (∃ o, w'.db.occurrences m.occurrenceId = some o ∧ m.sentAt < o.expiresAt) ∧
        Answerable w' m := by
  subst hops
  exact fun m hm ↦ arrives_alive_step (htimely.append_right hbefore).1 hop hm

end Runs

section Sample

instance (result : SendResult) : Decidable (∃ messageId, result = .delivered messageId) :=
  match result with
  | .delivered messageId => isTrue ⟨messageId, rfl⟩
  | .failed .. => isFalse fun ⟨_, h⟩ ↦ nomatch h

instance (settings : Settings) (w : World) (op : Operation) :
    Decidable (op.SendsInTime settings w) :=
  match op with
  | .deliver now gateway =>
    inferInstanceAs (Decidable (∀ x ∈ Deliveries.claimDue now settings.lockFor
      settings.dispatcherBatch (fun _ ↦ false) w.db, ∀ o ∈ w.db.occurrences x.2.occurrenceId,
        ∀ u ∈ w.db.users x.2.userId, checkDeliverable o.status u.isBlocked = none →
          (∃ messageId, (gateway x.1).1 = .delivered messageId) →
            (gateway x.1).2 < o.expiresAt))
  | .create .. | .materialize .. | .react .. | .sweep .. | .setStatus .. | .update .. |
    .issueInvite .. | .revokeInvite .. | .openInvite .. | .accept .. | .decline .. |
    .leave .. => isTrue trivial

/-- A weekly reminder, planned on its first day. -/
def plannedLife : List Operation := [.create 0 0 sampleDraft, .materialize 0]

theorem arrives_alive_sample :
    ∃ w w', run (perform sampleSettings) (.initial sampleUsers sampleCategories) plannedLife =
        some w ∧
      perform sampleSettings w (.deliver (5 * day) (answering [] (5 * day))) = some w' ∧
        w'.outbox ≠ [] ∧ ∀ m ∈ w'.outbox.drop w.outbox.length,
          (∃ o, w'.db.occurrences m.occurrenceId = some o ∧ m.sentAt < o.expiresAt) ∧
            Answerable w' m := by
  have hruns :
    (run (perform sampleSettings) (.initial sampleUsers sampleCategories) plannedLife).any (fun w ↦
      (perform sampleSettings w (.deliver (5 * day) (answering [] (5 * day)))).any fun w' ↦
        decide (w'.outbox ≠ [])) = true := by
    decide +kernel
  have htimely : Guarded (perform sampleSettings) (fun w op ↦ op.SendsInTime sampleSettings w)
      (.initial sampleUsers sampleCategories)
      (plannedLife ++ [.deliver (5 * day) (answering [] (5 * day))]) := by
    decide +kernel
  obtain ⟨w, hrun, hruns⟩ := (Option.any_eq_true _ _).mp hruns
  obtain ⟨w', hsend, hsent⟩ := (Option.any_eq_true _ _).mp hruns
  exact ⟨w, w', hrun, hsend, of_decide_eq_true hsent, arrives_alive htimely rfl hrun hsend⟩

/-- The dispatcher, down for a week, sends what the reaper has not swept yet;
the tap that answers it is refused. -/
theorem late_message_is_dead :
    ∃ w w' m o, run (perform sampleSettings) (.initial sampleUsers sampleCategories) plannedLife =
        some w ∧
      perform sampleSettings w (.deliver (10 * day) (answering [] (10 * day))) = some w' ∧
        m ∈ w'.outbox.drop w.outbox.length ∧ w'.db.occurrences m.occurrenceId = some o ∧
          o.expiresAt < m.sentAt ∧ ¬Answerable w' m := by
  have hruns :
    (run (perform sampleSettings) (.initial sampleUsers sampleCategories) plannedLife).any (fun w ↦
      (perform sampleSettings w (.deliver (10 * day) (answering [] (10 * day)))).any fun w' ↦
        (w'.outbox.drop w.outbox.length).any fun m ↦
          (w'.db.occurrences m.occurrenceId).any (fun o ↦ decide (o.expiresAt < m.sentAt)) &&
            (Reactions.react w'.db m.sentAt m.deliveryId m.userId .done).toOption.any fun out ↦
              decide (out.1.reason = some .expired)) = true := by
    decide +kernel
  obtain ⟨w, hrun, hruns⟩ := (Option.any_eq_true _ _).mp hruns
  obtain ⟨w', hsend, hruns⟩ := (Option.any_eq_true _ _).mp hruns
  obtain ⟨m, hm, hruns⟩ := List.any_eq_true.mp hruns
  simp only [Bool.and_eq_true, decide_eq_true_eq, Option.any_eq_true] at hruns
  obtain ⟨⟨o, ho, hlate⟩, out, hreact, hrefused⟩ := hruns
  refine ⟨w, w', m, o, hrun, hsend, hm, ho, hlate, fun hanswerable ↦ ?_⟩
  refine hanswerable .done out.1 out.2 ?_ hrefused
  cases hcall : Reactions.react w'.db m.sentAt m.deliveryId m.userId .done with
  | error e =>
    rw [hcall] at hreact
    cases hreact
  | ok result =>
    rw [hcall] at hreact
    cases hreact
    rfl

end Sample

end Remindo.Serial
