import Remindo.Serial.Schema
import Remindo.Serial.Users

namespace Remindo.Serial

open Remindo.Domain Remindo.Db Remindo.Services Remindo.Foundation

section Digests

variable {weekday : ℕ} {hour : Fin 24} {now : ℤ} {gateway : Digest.Gateway} {db : Database} {i : ℕ}
  {u : User}

theorem digest_one_sent {candidate : ℕ × User} {r : Digest.Report}
    (h : (Digest.one weekday hour now gateway db candidate).sent = some r) :
    r.userId = candidate.1 := by
  rw [Digest.one] at h
  split at h
  · cases h
  · dsimp only at h
    split at h
    · cases h
    · rw [Digest.send] at h
      split at h
      · cases h
        rfl
      · rename_i error _
        cases error <;> cases h

theorem digest_each_sent {candidates : List (ℕ × User)} {result : Digest.DigestResult}
    {reports : List Digest.Report} : Appends (fun r ↦ r.userId ∈ candidates.map Prod.fst) reports
      (Digest.each weekday hour now gateway candidates (db, result, reports)).2.2 := by
  induction candidates generalizing db result reports with
  | nil => exact .of_eq rfl
  | cons candidate rest ih =>
    rw [Digest.each]
    let outcome := Digest.one weekday hour now gateway db candidate
    obtain ⟨sent, heq, hsent⟩ :=
      @ih outcome.db (Digest.add result outcome.result) (reports ++ outcome.sent.toList)
    refine ⟨outcome.sent.toList ++ sent, by rw [← List.append_assoc]; exact heq, fun r hr ↦ ?_⟩
    change r.userId ∈ candidate.1 :: rest.map Prod.fst
    rw [List.mem_cons]
    rcases List.mem_append.mp hr with hr | hr
    · exact .inl (digest_one_sent (Option.mem_toList.mp hr))
    · exact .inr (hsent r hr)

/-- Whoever is marked is no candidate. -/
theorem digest_run_blocked (batchSize : ℕ) (hu : db.users i = some u)
    (hblocked : u.isBlocked = true) :
    (Digest.run weekday hour batchSize now gateway db).1.users i = some u ∧
      Appends (fun r ↦ r.userId ≠ i) [] (Digest.run weekday hour batchSize now gateway db).2.2 := by
  have hno : i ∉ (Users.listDigestCandidates db now batchSize).map Prod.fst := by
    intro hmem
    obtain ⟨⟨j, u'⟩, hrow, rfl⟩ := List.mem_map.mp hmem
    obtain ⟨hu', hcandidate⟩ := Table.mem_select.mp (mem_take_nullsFirst hrow)
    cases hu.symm.trans hu'
    simp [Users.isDigestCandidate, hblocked] at hcandidate
  obtain ⟨sent, heq, hsent⟩ := @digest_each_sent weekday hour now gateway db
    (Users.listDigestCandidates db now batchSize)
    { considered := (Users.listDigestCandidates db now batchSize).length } []
  exact ⟨(Digest.each_frame hno ..).1.trans hu, sent, heq, fun r hr heq ↦ hno (heq ▸ hsent r hr)⟩

end Digests

section Runs

variable {config : Config} {o o' : Office} {call : Call} {calls : List Call} {i : ℕ} {a : Account}
  {u : User} {tgUserId : ℤ}

/-- The account has blocked the bot, as far as the bot knows. -/
def Blocked (o : Office) (i : ℕ) (tgUserId : ℤ) : Prop :=
  (∃ a, o.accounts i = some a ∧ a.tgUserId = tgUserId) ∧
    ∃ u, o.world.db.users i = some u ∧ u.isBlocked = true

/-- What happens while the user keeps away. -/
structure Silent (i : ℕ) (o o' : Office) : Prop where
  messages : Appends (fun m ↦ m.userId ≠ i) o.world.outbox o'.world.outbox
  reports : Appends (fun r ↦ r.userId ≠ i) o.reports o'.reports

theorem Silent.of_eq (houtbox : o'.world.outbox = o.world.outbox)
    (hreports : o'.reports = o.reports) : Silent i o o' := ⟨.of_eq houtbox, .of_eq hreports⟩

theorem blocked_attend (ho : Blocked o i tgUserId)
    (hquiet : ∀ sender, call = .contact sender → sender.tgUserId ≠ tgUserId)
    (h : attend config o call = some o') : Blocked o' i tgUserId ∧ Silent i o o' := by
  obtain ⟨haccount, u, hu, hblocked⟩ := ho
  cases handled h with
  | operation hw =>
    obtain ⟨blocked, hrow⟩ := (marked_perform hw).rows i
    refine ⟨⟨haccount, _, hrow.trans (by rw [hu, Option.map_some]), by simp [hblocked]⟩,
      appends_perform hw fun now gateway m hm heq ↦ ?_, .of_eq rfl⟩
    obtain ⟨u', hu', hopen⟩ := mem_deliver_unblocked hm
    rw [heq, hu] at hu'
    cases hu'
    rw [hblocked] at hopen
    cases hopen
  | categories => exact ⟨⟨haccount, u, hu, hblocked⟩, .of_eq rfl rfl⟩
  | delete => exact ⟨⟨haccount, u, hu, hblocked⟩, .of_eq rfl rfl⟩
  | digest now gateway hdb hreports =>
    obtain ⟨hrow, sent, heq, hsent⟩ := @digest_run_blocked config.digest.weekday config.digest.hour
      now gateway o.world.db i u config.digest.batchSize hu hblocked
    rw [hdb] at hrow
    rw [hreports] at heq
    exact ⟨⟨haccount, u, hrow, hblocked⟩, .of_eq rfl, sent, congrArg (o.reports ++ ·) heq, hsent⟩
  | newcomer =>
    obtain ⟨a, ha, htg⟩ := haccount
    refine ⟨⟨⟨a, ?_, htg⟩, u, ?_, hblocked⟩, .of_eq rfl rfl⟩
    · exact (Table.writes_insert ..).trans ((if_pos (Table.lt_next ha)).trans ha)
    · exact (Table.writes_insert ..).trans ((if_pos (Table.lt_next hu)).trans hu)
  | @known sender j a' ha' htg' =>
    obtain ⟨a, ha, htg⟩ := haccount
    have hne : i ≠ j := by
      rintro rfl
      cases ha.symm.trans ha'
      exact hquiet sender rfl (htg'.symm.trans htg)
    refine ⟨⟨⟨a, ?_, htg⟩, u, ?_, hblocked⟩, .of_eq rfl rfl⟩
    · exact (Table.writes_update ..).trans ((if_neg hne).trans ha)
    · exact (Table.writes_update ..).trans ((if_neg hne).trans hu)
  | setting userId hvalues =>
    refine ⟨⟨haccount, ?_⟩, .of_eq rfl rfl⟩
    simp only [Users.users_updateFields]
    split
    · rename_i hi
      exact ⟨_, by rw [← hi, hu, Option.map_some], (hvalues.blocked u).trans hblocked⟩
    · exact ⟨u, hu, hblocked⟩

/-- Whoever has blocked the bot hears nothing from it until they write to it
again. -/
theorem blocked_hear_nothing (hblocked : Blocked o i tgUserId)
    (hquiet : ∀ sender, .contact sender ∈ calls → sender.tgUserId ≠ tgUserId)
    (hrun : run (attend config) o calls = some o') : Blocked o' i tgUserId ∧ Silent i o o' := by
  have hfree : Guarded (attend config) (fun _ call ↦ ∀ sender, call = .contact sender →
      sender.tgUserId ≠ tgUserId) o calls :=
    .of_mem fun call hcall sender heq ↦ hquiet sender (heq ▸ hcall)
  refine run_invariant (P := fun o' ↦ Blocked o' i tgUserId ∧ Silent i o o')
    (fun o₁ call o₂ h hcall hstep ↦ ?_) hfree hrun ⟨hblocked, .of_eq rfl rfl⟩
  obtain ⟨hkept, hsilent⟩ := blocked_attend h.1 hcall hstep
  exact ⟨hkept, h.2.messages.trans hsilent.messages, h.2.reports.trans hsilent.reports⟩

/-- The watcher blocks the bot after the first message. -/
def sampleLoss : List Call :=
  sampleSharing ++ [.serve (.other (.deliver (12 * day) fun j ↦
    (if j = 3 then .failed .forbidden none "TelegramForbiddenError" else .delivered 9, 12 * day)))]

def sampleKeepingAway : List Call :=
  [.contact ann, .serve (.other (.materialize (13 * day))), .digest (18 * day) fun _ ↦ none,
    .serve (.other (.deliver (19 * day) (answering [] (19 * day))))]

theorem sampleKeepingAway_quiet (sender : Onboarding.Sender)
    (h : .contact sender ∈ sampleKeepingAway) : sender.tgUserId ≠ 8 := by
  obtain rfl : sender = ann := by simpa [sampleKeepingAway] using h
  decide

theorem blocked_hear_nothing_sample : ∃ o o' : Office,
    run (attend sampleConfig) (.initial sampleCategories) sampleLoss = some o ∧
      o.world.outbox.length = 3 ∧ o'.world.outbox.length = 4 ∧ o'.reports.length = 1 ∧
        Blocked o' 1 8 ∧ Silent 1 o o' := by
  have hruns : (run (attend sampleConfig) (.initial sampleCategories) sampleLoss).any (fun o ↦
      decide (o.world.outbox.length = 3) && ((o.accounts 1).any (fun a ↦ decide (a.tgUserId = 8)) &&
        ((o.world.db.users 1).any User.isBlocked &&
          (run (attend sampleConfig) o sampleKeepingAway).any fun o' ↦
            decide (o'.world.outbox.length = 4 ∧ o'.reports.length = 1)))) = true := by
    decide +kernel
  obtain ⟨o, hrun, hruns⟩ := (Option.any_eq_true _ _).mp hruns
  obtain ⟨hbefore, hruns⟩ := Bool.and_eq_true_iff.mp hruns
  obtain ⟨haccount, hruns⟩ := Bool.and_eq_true_iff.mp hruns
  obtain ⟨hblocked, hruns⟩ := Bool.and_eq_true_iff.mp hruns
  obtain ⟨o', hafter, hlength⟩ := (Option.any_eq_true _ _).mp hruns
  obtain ⟨a, ha, htg⟩ := (Option.any_eq_true _ _).mp haccount
  obtain ⟨hmessages, hreports⟩ := of_decide_eq_true hlength
  have hkept := blocked_hear_nothing
    ⟨⟨a, ha, of_decide_eq_true htg⟩, (Option.any_eq_true _ _).mp hblocked⟩
    sampleKeepingAway_quiet hafter
  exact ⟨o, o', hrun, of_decide_eq_true hbefore, hmessages, hreports, hkept⟩

end Runs

end Remindo.Serial
