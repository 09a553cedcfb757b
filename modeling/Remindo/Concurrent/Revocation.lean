import Remindo.Concurrent.Watchers

namespace Remindo.Concurrent.Invitations

open Remindo.Domain Remindo.Db Remindo.Services Remindo.Foundation Remindo.Foundation.ReadCommitted

def IsRevoked (invite : Option Invite) : Prop :=
  invite.any (fun i ↦ i.revokedAt.isSome) = true

instance (invite : Option Invite) : Decidable (IsRevoked invite) :=
  inferInstanceAs (Decidable (_ = true))

namespace Stage

/-- The invitation a call has found live and may still let its user in by. -/
def through : Stage → List ℕ
  | .opening (.found link) | .opening (.locked link) | .opening (.looked link none)
  | .opening (.adding link) | .opening (.added link) => [link.inviteId]
  | _ => []

/-- The call whose row is in, and not yet committed. -/
def added : Stage → Option Opening.Link
  | .opening (.added link) => some link
  | _ => none

/-- The transaction may have taken an invitation back. -/
def takesBack : Stage → Bool
  | .revoking (.revoked _) | .revoking .issued => true
  | _ => false

end Stage

/-- No commit takes back an invitation that another of these sessions has found
live and may still let its user in by. -/
def RevokesTimely (sessions : Set ℕ) (s : Sessions) (e : Event Input) : Prop :=
  Timely (fun k (db : Database) ↦ db.invites k) IsRevoked (fun p ↦ {k | k ∈ Stage.through p})
    program sessions s e

/-- A commit brings in a watcher by the invitation. -/
def Joins (s : Sessions) (e : Event Input) (inviteId : ℕ) : Prop :=
  ∃ i ∈ s.committer program e, ∃ link ∈ (s.stage i).added, link.inviteId = inviteId

/-- What a statement does to the invitations, and which it goes by. -/
structure Respects (p next : Stage) (db : Database) (w : Writes) : Prop where
  takes : ∀ k ∈ next.through, k ∈ p.through ∨ ¬IsRevoked (db.invites k)
  keeps : ∀ k, IsRevoked (db.invites k) → (db.apply w).invites k = db.invites k
  quiet : next.takesBack = false →
    p.takesBack = false ∧ ∀ k, (db.apply w).invites k = db.invites k

section Moves

variable {db : Database} {w : Writes} {held shared awaited : List Lock} {locked : Lock → Bool}

theorem Respects.of_same {p next : Stage} (htakes : ∀ k ∈ next.through,
      k ∈ p.through ∨ ¬IsRevoked (db.invites k))
    (hquiet : next.takesBack = false → p.takesBack = false) (hw : w.invites = []) :
    Respects p next db w := by
  have hsame : ∀ k, (db.apply w).invites k = db.invites k := by
    intro k
    rw [Database.invites_apply, hw, Table.writes_nil]
  exact ⟨htakes, fun k _ ↦ hsame k, fun h ↦ ⟨hquiet h, hsame⟩⟩

theorem not_isRevoked_of_live {db : Database} {k : ℕ} {invite : Invite} {now : ℤ}
    (hinvite : db.invites k = some invite)
    (hlive : inviteState invite.expiresAt invite.revokedAt now = .live) :
    ¬IsRevoked (db.invites k) := by
  rw [IsRevoked, hinvite, Option.any_some]
  intro hrevoked
  rw [inviteState, if_pos hrevoked] at hlive
  cases hlive

theorem Opening.start_respects {request : Request} {next : Option Stage}
    (h : start request db = .exec w held shared awaited next) :
    Respects .idle (.of .opening next) db w := by
  rw [start] at h
  split at h
  · cases h
  · rename_i inviteId invite hfind
    split at h
    · rename_i hlive
      obtain ⟨rfl, rfl⟩ := read_eq_exec h
      refine .of_same (fun k hk ↦ .inr ?_) (fun _ ↦ rfl) rfl
      obtain rfl := List.mem_singleton.mp hk
      exact not_isRevoked_of_live (Table.find_some hfind).1 hlive
    · cases h

theorem Opening.move_respects {p : Stage} {next : Option Stage}
    (h : move p locked db = some (.exec w held shared awaited next)) :
    Respects (.opening p) (.of .opening next) db w := by
  cases p with
  | found link =>
    rw [move] at h
    split at h <;> cases h
    exact .of_same (fun _ hk ↦ .inl hk) (fun _ ↦ rfl) rfl
  | locked link =>
    obtain ⟨rfl, rfl⟩ := read_eq_exec (Option.some_inj.mp h)
    refine .of_same (fun k hk ↦ .inl ?_) (fun _ ↦ rfl) rfl
    cases hget : Recipients.get db link.invite.reminderId link.request.userId with
    | none =>
      rw [hget] at hk
      exact hk
    | some existing =>
      rw [hget] at hk
      cases hk
  | looked link existing =>
    rw [move] at h
    split at h
    · cases h
    · obtain ⟨rfl, rfl⟩ := read_eq_exec (Option.some_inj.mp h)
      cases existing with
      | none => exact .of_same (fun _ hk ↦ .inl hk) (fun _ ↦ rfl) rfl
      | some existing => exact .of_same (fun _ hk ↦ by cases hk) (fun _ ↦ rfl) rfl
  | adding link =>
    rw [move] at h
    split at h
    · split at h <;> cases h
    · cases h
      exact .of_same (fun _ hk ↦ .inl hk) (fun _ ↦ rfl) rfl
  | added link => cases h
  | standing link => cases h

theorem Joining.move_invites {p : Joining.Stage} {next : Option Joining.Stage}
    (h : Joining.move p db = .exec w held shared awaited next) : w.invites = [] := by
  cases p with
  | found request =>
    rw [Joining.move] at h
    split at h
    · cases h
    · rw [(read_eq_exec h).1]
  | participating request =>
    cases h
    rfl
  | accepted request updated =>
    cases updated with
    | false => cases h
    | true => rw [(read_eq_exec h).1]
  | listed request upcoming =>
    rw [(enqueue_eq_exec h).1]
    rfl
  | queued request => cases h

theorem Removing.move_invites {p : Stage} {next : Option Stage}
    (h : move p db = .exec w held shared awaited next) : w.invites = [] := by
  cases p with
  | dropped request =>
    cases h
    rfl
  | removed => cases h

/-- An invitation is taken back once, and a new one has an id of its own. -/
theorem Revoking.move_respects {p : Stage} {next : Option Stage}
    (h : move p locked db = some (.exec w held shared awaited next)) :
    Respects (.revoking p) (.of .revoking next) db w := by
  cases p with
  | owned request =>
    cases h
    refine ⟨fun _ hk ↦ (by cases hk), fun k hk ↦ ?_, fun hquiet ↦ by cases hquiet⟩
    rw [Invites.revokeLive, Database.invites_apply, Table.writes_updateWhere]
    obtain ⟨invite, hinvite, hrevoked⟩ := (Option.any_eq_true _ _).mp hk
    obtain ⟨revokedAt, hrevoked⟩ := Option.isSome_iff_exists.mp hrevoked
    simp [hinvite, hrevoked]
  | revoked request =>
    obtain ⟨now, ownerId, reminderId, token⟩ := request
    cases token with
    | none => cases h
    | some token =>
      rw [move] at h
      split at h
      · split at h <;> cases h
      · cases h
        refine ⟨fun _ hk ↦ (by cases hk), fun k hk ↦ ?_, fun hquiet ↦ by cases hquiet⟩
        obtain ⟨invite, hinvite, -⟩ := (Option.any_eq_true _ _).mp hk
        rw [Invites.add, Database.invites_apply, Table.writes_insert,
          if_pos (Table.lt_next hinvite)]
  | issued => cases h

theorem program_respects {p next : Stage} {input : Input}
    (h : program p input locked db = some (.exec w held shared awaited next)) :
    Respects p next db w := by
  cases p with
  | idle =>
    cases input with
    | openInvite request =>
      obtain ⟨r, hmove, rfl⟩ := Move.map_eq_exec (Option.some_inj.mp h)
      exact Opening.start_respects hmove
    | accept request =>
      obtain ⟨r, hmove, rfl⟩ := Move.map_eq_exec (Option.some_inj.mp h)
      obtain ⟨rfl, r, rfl⟩ := Joining.start_exec hmove
      exact .of_same (fun _ hk ↦ by cases hk) (fun _ ↦ rfl) rfl
    | decline request =>
      obtain ⟨r, hmove, rfl⟩ := Move.map_eq_exec (Option.some_inj.mp h)
      cases hmove
      exact .of_same (fun _ hk ↦ by cases hk) (fun _ ↦ rfl) rfl
    | leave request =>
      obtain ⟨r, hmove, rfl⟩ := Move.map_eq_exec (Option.some_inj.mp h)
      cases hmove
      exact .of_same (fun _ hk ↦ by cases hk) (fun _ ↦ rfl) rfl
    | issueInvite now ownerId reminderId token =>
      obtain ⟨r, hmove, rfl⟩ := Move.map_eq_exec (Option.some_inj.mp h)
      obtain ⟨rfl, rfl⟩ := Revoking.start_exec hmove
      exact .of_same (fun _ hk ↦ by cases hk) (fun _ ↦ rfl) rfl
    | revokeInvite now ownerId reminderId =>
      obtain ⟨r, hmove, rfl⟩ := Move.map_eq_exec (Option.some_inj.mp h)
      obtain ⟨rfl, rfl⟩ := Revoking.start_exec hmove
      exact .of_same (fun _ hk ↦ by cases hk) (fun _ ↦ rfl) rfl
    | go => cases h
  | opening p =>
    obtain ⟨m, hmove, hmap⟩ := Option.map_eq_some_iff.mp h
    obtain ⟨r, rfl, rfl⟩ := Move.map_eq_exec hmap
    exact Opening.move_respects hmove
  | accepting p =>
    obtain ⟨r, hmove, rfl⟩ := Move.map_eq_exec (Option.some_inj.mp h)
    obtain ⟨⟨r', rfl⟩, -⟩ := Joining.move_exec hmove
    exact .of_same (fun _ hk ↦ by cases hk) (fun _ ↦ rfl) (Joining.move_invites hmove)
  | removing p =>
    obtain ⟨r, hmove, rfl⟩ := Move.map_eq_exec (Option.some_inj.mp h)
    obtain ⟨rfl, -⟩ := Removing.move_exec hmove
    exact .of_same (fun _ hk ↦ by cases hk) (fun _ ↦ rfl) (Removing.move_invites hmove)
  | revoking p =>
    obtain ⟨m, hmove, hmap⟩ := Option.map_eq_some_iff.mp h
    obtain ⟨r, rfl, rfl⟩ := Move.map_eq_exec hmap
    exact Revoking.move_respects hmove

theorem program_honours :
    Honours (fun k (db : Database) ↦ db.invites k) IsRevoked (fun p ↦ {k | k ∈ Stage.through p})
      (fun p ↦ {_k | p.takesBack = true}) (fun _ ↦ True) program .idle where
  idle_sound := trivial
  idle_uses := Set.eq_empty_of_forall_notMem fun _ ↦ List.not_mem_nil
  exec h _ := by
    have hrespects := program_respects h
    refine ⟨trivial, hrespects.takes, fun k _ ↦ hrespects.keeps k, fun k hk ↦ ?_⟩
    obtain ⟨hp, hsame⟩ := hrespects.quiet (eq_false_of_ne_true hk)
    exact ⟨fun hback ↦ absurd (hp.symm.trans hback) nofun, hsame k⟩
  commit h _ := by
    rw [program_ends (.inl h)]
    exact ⟨trivial, fun _ hk ↦ absurd hk List.not_mem_nil⟩
  rollback h _ := by
    rw [program_ends (.inr h)]
    exact ⟨trivial, fun _ hk ↦ absurd hk List.not_mem_nil⟩

end Moves

/-- As long as nobody takes back an invitation that somebody is just following,
a link that has been taken back lets nobody in. -/
theorem revoked_lets_nobody_in {db : Database} {es later : List (Event Input)} {s s' : Sessions}
    {e : Event Input} {inviteId : ℕ} {invite : Invite}
    (htimely : Guarded (step program .idle) (RevokesTimely .univ) (.start db .idle) (es ++ later))
    (hrun : run (step program .idle) (.start db .idle) es = some s)
    (hinvite : s.committed.invites inviteId = some invite)
    (hrevoked : invite.revokedAt.isSome = true)
    (hlater : run (step program .idle) s later = some s') : ¬Joins s' e inviteId := by
  have hsettled := ((Settled.start program_honours db).run program_honours guards_invites
    htimely.append_left hrun).1
  obtain ⟨hsettled', hkept⟩ :=
    hsettled.run program_honours guards_invites (htimely.append_right hrun) hlater
  have hfinal : IsRevoked (s.committed.invites inviteId) := by
    rw [IsRevoked, hinvite, Option.any_some, hrevoked]
  intro ⟨i, _, link, hlink, hid⟩
  have hthrough : inviteId ∈ (s'.stage i).through := by
    revert hlink
    fun_cases Stage.added (s'.stage i) <;> simp_all [Stage.through]
  refine hsettled'.uses i inviteId hthrough ?_
  rw [hkept inviteId hfinal]
  exact hfinal

section Sample

instance (n : ℕ) (s : Sessions) (e : Event Input) : Decidable (RevokesTimely (Set.Iio n) s e) :=
  inferInstanceAs (Decidable (∀ i ∈ s.committer program e, ∀ j, j < n → j ≠ i →
    ∀ k ∈ (s.stage j).through, IsRevoked ((s.view i).invites k) →
      IsRevoked (s.committed.invites k)))

def revokeBy (i : ℕ) : List (Event Input) := .move i (.revokeInvite 0 0 0) :: going i 2

/-- One user is in before the link is taken back, the next comes too late. -/
theorem revoked_lets_nobody_in_sample :
    ∃ (s s' : Sessions) (invite : Invite),
      run (step program .idle) (.start (linkedDb 0) .idle)
        (openBy 0 1 :: going 0 5 ++ revokeBy 1) = some s ∧
      s.committed.invites 0 = some invite ∧ invite.revokedAt.isSome = true ∧
      run (step program .idle) s [openBy 0 2] = some s' ∧ ¬Joins s' (.move 0 .go) 0 := by
  have hruns : (run (step program .idle) (.start (linkedDb 0) .idle : Sessions)
      (openBy 0 1 :: going 0 5 ++ revokeBy 1)).any (fun s ↦
        (s.committed.invites 0).any (fun i ↦ i.revokedAt.isSome) &&
          (run (step program .idle) s [openBy 0 2]).isSome) = true := by
    decide +kernel
  obtain ⟨s, hrun, hruns⟩ := (Option.any_eq_true _ _).mp hruns
  rw [Bool.and_eq_true, Option.any_eq_true] at hruns
  obtain ⟨⟨invite, hinvite, hrevoked⟩, hlater⟩ := hruns
  obtain ⟨s', hlater⟩ := Option.isSome_iff_exists.mp hlater
  have htimely : Guarded (step program .idle) (RevokesTimely (Set.Iio 2))
      (.start (linkedDb 0) .idle) (openBy 0 1 :: going 0 5 ++ revokeBy 1 ++ [openBy 0 2]) := by
    decide +kernel
  have htimely := Guarded.of_below (fun s e hidle h ↦
    Timely.of_below (Set.eq_empty_of_forall_notMem fun _ ↦ List.not_mem_nil) hidle h)
    (fun _ _ ↦ rfl) (by decide) htimely
  exact ⟨s, s', invite, hrun, hinvite, hrevoked, hlater,
    revoked_lets_nobody_in htimely hrun hinvite hrevoked hlater⟩

/-- The link is read live, taken back, and then let in by. -/
theorem revoked_link_lets_in :
    ∃ (s s' s'' : Sessions) (invite : Invite),
      run (step program .idle) (.start (linkedDb 0) .idle) (openBy 0 1 :: revokeBy 1) = some s ∧
      s.committed.invites 0 = some invite ∧ invite.revokedAt.isSome = true ∧
      run (step program .idle) s (going 0 4) = some s' ∧ Joins s' (.move 0 .go) 0 ∧
      step program .idle s' (.move 0 .go) = some s'' ∧
      s'.committed.recipients 1 = none ∧
        s''.committed.recipients 1 = some ⟨0, 1, .watcher, none⟩ := by
  have hruns : (run (step program .idle) (.start (linkedDb 0) .idle : Sessions)
      (openBy 0 1 :: revokeBy 1)).any (fun s ↦
        (s.committed.invites 0).any (fun i ↦ i.revokedAt.isSome) &&
          (run (step program .idle) s (going 0 4)).any fun s' ↦
            decide (s'.committer program (.move 0 .go) = some 0) &&
              (s'.stage 0).added.any (fun link ↦ decide (link.inviteId = 0)) &&
              decide (s'.committed.recipients 1 = none) &&
              (step program .idle s' (.move 0 .go)).any fun s'' ↦
                decide (s''.committed.recipients 1 = some ⟨0, 1, .watcher, none⟩)) = true := by
    decide +kernel
  obtain ⟨s, hrun, hruns⟩ := (Option.any_eq_true _ _).mp hruns
  rw [Bool.and_eq_true, Option.any_eq_true, Option.any_eq_true] at hruns
  obtain ⟨⟨invite, hinvite, hrevoked⟩, s', hlater, hruns⟩ := hruns
  simp only [Bool.and_eq_true, decide_eq_true_eq, Option.any_eq_true] at hruns
  obtain ⟨⟨⟨hcommits, link, hlink, hid⟩, hnone⟩, s'', hstep, hrow⟩ := hruns
  exact ⟨s, s', s'', invite, hrun, hinvite, hrevoked, hlater, ⟨0, hcommits, link, hlink, hid⟩,
    hstep, hnone, hrow⟩

end Sample

end Remindo.Concurrent.Invitations
