import Remindo.Serial.Blocked

namespace Remindo.Serial

open Remindo.Domain Remindo.Db Remindo.Services Remindo.Foundation

/-- Who the users are is known of each of them, and of no one twice. -/
structure Acquainted (o : Office) : Prop where
  next : o.accounts.next = o.world.db.users.next
  rows : ∀ i, (o.accounts i).isSome = (o.world.db.users i).isSome
  single : o.accounts.Unique Account.tgUserId
  quiet : ∀ i u, o.world.db.users i = some u → Onboarding.IsQuiet u

/-- What does not change about a user. -/
structure Lasting (o o' : Office) : Prop where
  accounts : ∀ i a, o.accounts i = some a → ∃ a', o'.accounts i = some a' ∧
    a'.tgUserId = a.tgUserId
  onboarded : ∀ i u t, o.world.db.users i = some u → u.onboardedAt = some t →
    ∃ u', o'.world.db.users i = some u' ∧ u'.onboardedAt = some t

/-- What a call may do to the users it finds. -/
structure Amended (db db' : Database) : Prop where
  next : db'.users.next = db.users.next
  rows : ∀ i, db.users i = none ∧ db'.users i = none ∨ ∃ u u', db.users i = some u ∧
    db'.users i = some u' ∧ (Onboarding.IsQuiet u → Onboarding.IsQuiet u') ∧
      ∀ t, u.onboardedAt = some t → u'.onboardedAt = some t

section Users

variable {db db' : Database} {i : ℕ} {u : User}

theorem Amended.of_eq (h : db'.users = db.users) : Amended db db' := by
  refine ⟨by rw [h], fun i ↦ ?_⟩
  rw [h]
  cases hu : db.users i with
  | none => exact .inl ⟨rfl, rfl⟩
  | some u => exact .inr ⟨u, u, rfl, rfl, id, fun _ ↦ id⟩

theorem Amended.updateFields (db : Database) (userId : ℕ) {values : User → User}
    (hquiet : ∀ u, Onboarding.IsQuiet u → Onboarding.IsQuiet (values u))
    (honboarded : ∀ u t, u.onboardedAt = some t → (values u).onboardedAt = some t) :
    Amended db (db.run (Users.updateFields userId values)) := by
  refine ⟨Table.next_writes_update .., fun i ↦ ?_⟩
  rw [Users.users_updateFields]
  cases hu : db.users i with
  | none =>
    refine .inl ⟨rfl, ?_⟩
    split
    · rename_i hi
      rw [← hi, hu, Option.map_none]
    · rfl
  | some u =>
    refine .inr ?_
    split
    · rename_i hi
      exact ⟨u, values u, rfl, by rw [← hi, hu, Option.map_some], hquiet u, honboarded u⟩
    · exact ⟨u, u, rfl, rfl, id, fun _ ↦ id⟩

theorem Marked.amended (h : Marked db db') : Amended db db' := by
  refine ⟨h.next, fun i ↦ ?_⟩
  obtain ⟨blocked, hrow⟩ := h.rows i
  cases hu : db.users i with
  | none => exact .inl ⟨rfl, by rw [hrow, hu, Option.map_none]⟩
  | some u =>
    exact .inr ⟨u, { u with isBlocked := u.isBlocked || blocked }, rfl,
      by rw [hrow, hu, Option.map_some], id, fun _ ↦ id⟩

theorem amended_digest (setup : Digests.Setup) (now : ℤ) (gateway : Digest.Gateway)
    (db : Database) :
    Amended db (Digest.run setup.weekday setup.hour setup.batchSize now gateway db).1 := by
  obtain ⟨users, hdb, hnext⟩ :=
    digest_run_users setup.weekday setup.hour now gateway setup.batchSize db
  refine ⟨by rw [hdb]; exact hnext, fun i ↦ ?_⟩
  cases hu : db.users i with
  | none =>
    have hno : i ∉ (Users.listDigestCandidates db now setup.batchSize).map Prod.fst := by
      intro hmem
      obtain ⟨⟨j, u⟩, hrow, rfl⟩ := List.mem_map.mp hmem
      cases hu.symm.trans (Users.mem_listDigestCandidates hrow)
    exact .inl ⟨rfl, (Digest.each_frame hno ..).1.trans hu⟩
  | some u =>
    obtain ⟨u', hu', hturn⟩ :=
      Digest.run_turn setup.weekday setup.hour setup.batchSize now gateway hu
    refine .inr ⟨u, u', rfl, hu', ?_⟩
    generalize Digest.sentTo i _ = reported at hturn
    cases hturn with
    | kept => exact ⟨id, fun _ ↦ id⟩
    | marked isBlocked hdue => exact ⟨id, fun _ ↦ id⟩
    | reported hdue => exact ⟨id, fun _ ↦ id⟩

end Users

section Runs

variable {config : Config} {o o₁ o' : Office} {call : Call} {calls later : List Call}
  {categories : Table Category} {sender : Onboarding.Sender}

theorem Lasting.refl (o : Office) : Lasting o o :=
  ⟨fun _ a ha ↦ ⟨a, ha, rfl⟩, fun _ u _ hu ht ↦ ⟨u, hu, ht⟩⟩

theorem Lasting.trans (h : Lasting o o₁) (h' : Lasting o₁ o') : Lasting o o' := by
  refine ⟨fun i a ha ↦ ?_, fun i u t hu ht ↦ ?_⟩
  · obtain ⟨a₁, ha₁, heq⟩ := h.accounts i a ha
    obtain ⟨a', ha', heq'⟩ := h'.accounts i a₁ ha₁
    exact ⟨a', ha', heq'.trans heq⟩
  · obtain ⟨u₁, hu₁, ht₁⟩ := h.onboarded i u t hu ht
    exact h'.onboarded i u₁ t hu₁ ht₁

theorem Acquainted.amended (ho : Acquainted o) (h : Amended o.world.db o'.world.db)
    (haccounts : o'.accounts = o.accounts) : Acquainted o' ∧ Lasting o o' := by
  refine ⟨⟨by rw [haccounts, h.next, ho.next], fun i ↦ ?_, haccounts ▸ ho.single,
    fun i u' hu' ↦ ?_⟩, fun i a ha ↦ ⟨a, haccounts ▸ ha, rfl⟩, fun i u t hu ht ↦ ?_⟩
  · rw [haccounts, ho.rows]
    rcases h.rows i with ⟨hnone, hnone'⟩ | ⟨u, u', hu, hu', -⟩
    · rw [hnone, hnone']
    · rw [hu, hu']
      rfl
  · rcases h.rows i with ⟨-, hnone⟩ | ⟨u, u₁, hu, hu₁, hquiet, -⟩
    · cases hnone.symm.trans hu'
    · cases hu₁.symm.trans hu'
      exact hquiet (ho.quiet i u hu)
  · rcases h.rows i with ⟨hnone, -⟩ | ⟨u₁, u', hu₁, hu', -, hkept⟩
    · cases hnone.symm.trans hu
    · cases hu₁.symm.trans hu
      exact ⟨u', hu', hkept t ht⟩

theorem Acquainted.insert (ho : Acquainted o) {a : Account} {u : User}
    (hnew : ∀ i b, o.accounts i = some b → b.tgUserId ≠ a.tgUserId)
    (hquiet : Onboarding.IsQuiet u) :
    let o' : Office := ⟨{ o.world with db := o.world.db.run (Users.add u) },
      o.accounts.writes (o.accounts.insert [a]), o.reports⟩
    Acquainted o' ∧ Lasting o o' := by
  have haccounts : ∀ i, o.accounts.writes (o.accounts.insert [a]) i =
      if i < o.accounts.next then o.accounts i else [a][i - o.accounts.next]? :=
    fun _ ↦ Table.writes_insert ..
  have husers : ∀ i, (o.world.db.run (Users.add u)).users i =
      if i < o.world.db.users.next then o.world.db.users i else [u][i - o.world.db.users.next]? :=
    fun _ ↦ Table.writes_insert ..
  refine ⟨⟨?_, fun i ↦ ?_, ho.single.step (n := o.accounts.next) fun i b hb ↦ ?_, fun i v hv ↦ ?_⟩,
    fun i b hb ↦ ⟨b, ?_, rfl⟩, fun i v t hv ht ↦ ⟨v, ?_, ht⟩⟩
  · change (o.accounts.writes (o.accounts.insert [a])).next =
      (o.world.db.users.writes (o.world.db.users.insert [u])).next
    rw [Table.next_writes_insert, Table.next_writes_insert, ho.next]
    rfl
  · rw [haccounts, husers, ho.next]
    split
    · exact ho.rows i
    · cases i - o.world.db.users.next <;> rfl
  · rcases Table.insert_some hb with hold | ⟨hi, rfl⟩
    · exact .inl ⟨b, hold, rfl⟩
    · exact .inr ⟨hi, hnew⟩
  · rcases Table.insert_some hv with hold | ⟨-, rfl⟩
    · exact ho.quiet i v hold
    · exact hquiet
  · exact (haccounts i).trans ((if_pos (Table.lt_next hb)).trans hb)
  · exact (husers i).trans ((if_pos (Table.lt_next hv)).trans hv)

theorem Acquainted.refresh (ho : Acquainted o) (i : ℕ) (sender : Onboarding.Sender) :
    let o' : Office := ⟨o.world,
      o.accounts.writes (o.accounts.update i (Onboarding.refreshed sender)), o.reports⟩
    Acquainted o' ∧ Lasting o o' := by
  have hrow : ∀ j, o.accounts.writes (o.accounts.update i (Onboarding.refreshed sender)) j =
      if j = i then (o.accounts i).map (Onboarding.refreshed sender) else o.accounts j :=
    fun _ ↦ Table.writes_update ..
  refine ⟨⟨(Table.next_writes_update ..).trans ho.next, fun j ↦ ?_,
    ho.single.of_back fun j b hb ↦ ?_, ho.quiet⟩, fun j b hb ↦ ?_, fun _ u _ hu ht ↦ ⟨u, hu, ht⟩⟩
  · rw [hrow, ← ho.rows]
    split
    · rename_i hj
      rw [Option.isSome_map, hj]
    · rfl
  · rw [hrow] at hb
    split at hb
    · rename_i hj
      obtain ⟨b₀, hb₀, rfl⟩ := Option.map_eq_some_iff.mp hb
      exact ⟨b₀, hj ▸ hb₀, rfl⟩
    · exact ⟨b, hb, rfl⟩
  · simp only [hrow]
    split
    · rename_i hj
      exact ⟨Onboarding.refreshed sender b, by rw [← hj, hb, Option.map_some], rfl⟩
    · exact ⟨b, hb, rfl⟩

theorem Acquainted.attend (ho : Acquainted o) (h : Serial.attend config o call = some o') :
    Acquainted o' ∧ Lasting o o' := by
  cases handled h with
  | operation hw => exact ho.amended (marked_perform hw).amended rfl
  | categories => exact ho.amended (.of_eq rfl) rfl
  | delete => exact ho.amended (.of_eq rfl) rfl
  | digest now gateway hdb =>
    exact ho.amended (hdb ▸ amended_digest config.digest now gateway o.world.db) rfl
  | newcomer hnew => exact ho.insert hnew (.inl ⟨rfl, rfl⟩)
  | @known sender i _ _ _ =>
    let unblocked : Office :=
      { o with world := { o.world with db := o.world.db.run (Users.markBlocked i false) } }
    have hunblocked : Acquainted unblocked ∧ Lasting o unblocked :=
      ho.amended (.updateFields _ i (fun _ ↦ id) fun _ _ ↦ id) rfl
    obtain ⟨hknown, hlasting⟩ := hunblocked.1.refresh i sender
    exact ⟨hknown, hunblocked.2.trans hlasting⟩
  | setting userId hvalues =>
    exact ho.amended (.updateFields _ userId hvalues.quiet hvalues.onboarded) rfl

theorem acquainted_initial (categories : Table Category) : Acquainted (.initial categories) := by
  refine ⟨rfl, fun _ ↦ rfl, fun i j a b ha ↦ ?_, fun i u hu ↦ ?_⟩
  · cases ha
  · cases hu

/-- Whoever has just written is reached where they wrote from. -/
theorem recognised (ho : Acquainted o) (h : attend config o (.contact sender) = some o') :
    ∃ i a u, o'.accounts i = some a ∧ a.tgUserId = sender.tgUserId ∧
      a.tgChatId = sender.tgChatId ∧ o'.world.db.users i = some u ∧ u.isBlocked = false := by
  rcases contact_cases h with ⟨-, rfl⟩ | ⟨i, a, ha, htg, rfl⟩
  · refine ⟨o.accounts.next, sender.account, { timezone := config.defaultTimezone }, ?_, rfl, rfl,
      ?_, rfl⟩
    · exact (Table.writes_insert ..).trans (by simp)
    · exact (Table.writes_insert ..).trans (by simp [ho.next])
  · obtain ⟨u, hu⟩ : ∃ u, o.world.db.users i = some u := by
      rw [← Option.isSome_iff_exists, ← ho.rows, ha]
      rfl
    refine ⟨i, Onboarding.refreshed sender a, { u with isBlocked := false }, ?_, htg, rfl, ?_, rfl⟩
    · exact (Table.writes_update ..).trans (by rw [if_pos rfl, ha, Option.map_some])
    · exact (Table.writes_update ..).trans (by rw [if_pos rfl, hu, Option.map_some])

theorem acquainted_run (ho : Acquainted o) (hrun : run (attend config) o calls = some o') :
    Acquainted o' ∧ Lasting o o' := by
  refine run_preserves (P := fun o' ↦ Acquainted o' ∧ Lasting o o') (fun o₁ call o₂ h hstep ↦ ?_)
    hrun ⟨ho, .refl o⟩
  obtain ⟨hknown, hlasting⟩ := h.1.attend hstep
  exact ⟨hknown, h.2.trans hlasting⟩

/-- Whoever writes is one user from then on, and nobody else is that user. -/
theorem one_account_each (hbefore : run (attend config) (.initial categories) calls = some o)
    (hcontact : attend config o (.contact sender) = some o₁)
    (hafter : run (attend config) o₁ later = some o') :
    ∃ i, (∃ a u, o₁.accounts i = some a ∧ a.tgUserId = sender.tgUserId ∧
        a.tgChatId = sender.tgChatId ∧ o₁.world.db.users i = some u ∧ u.isBlocked = false) ∧
      (∀ j a, o'.accounts j = some a → (a.tgUserId = sender.tgUserId ↔ j = i)) ∧
        Acquainted o' ∧ Lasting o₁ o' := by
  have ho := (acquainted_run (acquainted_initial categories) hbefore).1
  obtain ⟨i, a, u, ha, htg, hrecognised⟩ := recognised ho hcontact
  obtain ⟨ho', hlasting⟩ := acquainted_run (ho.attend hcontact).1 hafter
  obtain ⟨a', ha', heq⟩ := hlasting.accounts i a ha
  refine ⟨i, ⟨a, u, ha, htg, hrecognised⟩, fun j b hb ↦ ⟨fun hsame ↦ ?_, fun hj ↦ ?_⟩, ho',
    hlasting⟩
  · exact ho'.single j i b a' hb ha' (hsame.trans (heq.trans htg).symm)
  · subst hj
    cases hb.symm.trans ha'
    exact heq.trans htg

theorem one_account_each_sample : ∃ o₁ o' : Office,
    attend sampleConfig (.initial sampleCategories) (.contact ann) = some o₁ ∧
      run (attend sampleConfig) o₁ sampleSharing = some o' ∧
        ∃ i, (∀ j a, o'.accounts j = some a → (a.tgUserId = 7 ↔ j = i)) ∧ Acquainted o' ∧
          Lasting o₁ o' := by
  have hruns : ((attend sampleConfig (.initial sampleCategories) (.contact ann)).any fun o₁ ↦
      (run (attend sampleConfig) o₁ sampleSharing).isSome) = true := by
    decide +kernel
  obtain ⟨o₁, hcontact, hruns⟩ := (Option.any_eq_true _ _).mp hruns
  obtain ⟨o', hafter⟩ := Option.isSome_iff_exists.mp hruns
  have hbefore : run (attend sampleConfig) (.initial sampleCategories) [] =
      some (.initial sampleCategories) := rfl
  obtain ⟨i, -, honly, hknown⟩ := one_account_each hbefore hcontact hafter
  exact ⟨o₁, o', hcontact, hafter, i, honly, hknown⟩

end Runs

end Remindo.Serial
