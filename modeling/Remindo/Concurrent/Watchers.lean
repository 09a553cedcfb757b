import Remindo.Concurrent.Invitations
import Remindo.Concurrent.System

namespace Remindo.Concurrent.Invitations

open Remindo.Domain Remindo.Db Remindo.Services Remindo.Foundation Remindo.Foundation.ReadCommitted

/-- What a recipient's row may be to one that sees more of it: gone, or
accepted, if it is a watcher's. -/
structure Kept (view committed : Option Recipient) : Prop where
  back : ∀ r, view = some r → ∃ u, committed = some u ∧ u.key = r.key ∧ u.role = r.role
  owner : ∀ u, u.role = .owner → (view = some u ↔ committed = some u)

theorem Kept.of_eq {view committed : Option Recipient} (h : view = committed) :
    Kept view committed := by
  subst h
  exact ⟨fun r hr ↦ ⟨r, hr, rfl, rfl⟩, fun _ _ ↦ .rfl⟩

theorem Kept.trans {a b c : Option Recipient} (h : Kept a b) (h' : Kept b c) : Kept a c where
  back r hr := by
    obtain ⟨u, hu, hkey, hrole⟩ := h.back r hr
    obtain ⟨x, hx, hkey', hrole'⟩ := h'.back u hu
    exact ⟨x, hx, hkey'.trans hkey, hrole'.trans hrole⟩
  owner u hu := (h.owner u hu).trans (h'.owner u hu)

theorem kept_accept (db : Database) (reminderId userId : ℕ) (now : ℤ) (x : ℕ) :
    Kept ((db.run (Recipients.accept reminderId userId now)).recipients x) (db.recipients x) := by
  rw [Recipients.recipients_accept]
  cases hu : db.recipients x with
  | none => exact .of_eq rfl
  | some u =>
    rw [Option.map_some]
    split
    · rename_i hpending
      simp only [Bool.and_eq_true, decide_eq_true_eq] at hpending
      refine ⟨fun r hr ↦ ?_, fun r hr ↦ ⟨fun h ↦ ?_, fun h ↦ ?_⟩⟩
      · cases hr
        exact ⟨u, rfl, rfl, rfl⟩
      · cases h
        exact absurd (hpending.1.2.symm.trans hr) nofun
      · cases h
        exact absurd (hpending.1.2.symm.trans hr) nofun
    · exact .of_eq rfl

theorem kept_removeWatcher (db : Database) (reminderId userId x : ℕ) :
    Kept ((db.run (Recipients.removeWatcher reminderId userId)).recipients x)
      (db.recipients x) := by
  rw [Database.run, Recipients.removeWatcher, Database.recipients_apply,
    Table.writes_deleteWhere]
  refine ⟨fun r hr ↦ ?_, fun u hu ↦ ⟨fun h ↦ (Option.filter_eq_some_iff.mp h).1, fun h ↦ ?_⟩⟩
  · exact ⟨r, (Option.filter_eq_some_iff.mp hr).1, rfl, rfl⟩
  · exact Option.filter_eq_some_iff.mpr ⟨h, by simp [hu]⟩

/-- The calls that hold their reminder for themselves. -/
def Stage.joining : Stage → Option Opening.Link
  | .opening (.locked link) | .opening (.looked link _) | .opening (.adding link)
  | .opening (.added link) | .opening (.standing link) => some link
  | _ => none

/-- The calls that have found no row of their user. -/
def Stage.newcomer : Stage → Option Opening.Link
  | .opening (.looked link none) | .opening (.adding link) | .opening (.added link) => some link
  | _ => none

/-- The calls that have found room for their user. -/
def Stage.admitted : Stage → Option Opening.Link
  | .opening (.adding link) | .opening (.added link) => some link
  | _ => none

/-- How what a session sees of the recipients differs from what is committed. -/
def Stage.Shows (view committed : ℕ → Option Recipient) : Stage → Prop
  | .opening (.added link) => ∃ k, view k = some link.row ∧ committed k = none ∧
      ∀ x, x ≠ k → view x = committed x
  | .idle | .opening _ => ∀ x, view x = committed x
  | .accepting _ | .removing _ | .revoking _ => ∀ x, Kept (view x) (committed x)

def IsNew (db : Database) (link : Opening.Link) : Prop :=
  ∀ x u, db.recipients x = some u → u.key ≠ link.row.key

def HasRoom (db : Database) (reminderId : ℕ) : Prop :=
  Recipients.countWatchers db reminderId < reminderWatchersMax

section Counting

variable {d committed : Database} {reminderId : ℕ}

theorem isWatcher_back {reminderId : ℕ} {view committed : Option Recipient}
    (h : Kept view committed)
    (hview : view.any (fun r ↦ decide (r.reminderId = reminderId) && decide (r.role = .watcher)) =
      true) :
    committed.any (fun r ↦ decide (r.reminderId = reminderId) && decide (r.role = .watcher)) =
      true := by
  obtain ⟨r, hr, hwatcher⟩ := (Option.any_eq_true _ _).mp hview
  obtain ⟨u, hu, hkey, hrole⟩ := h.back r hr
  have hreminder : u.reminderId = r.reminderId := congrArg Prod.fst hkey
  refine (Option.any_eq_true _ _).mpr ⟨u, hu, ?_⟩
  rw [hreminder, hrole]
  exact hwatcher

theorem countWatchers_le (h : ∀ x, Kept (d.recipients x) (committed.recipients x)) :
    Recipients.countWatchers d reminderId ≤ Recipients.countWatchers committed reminderId :=
  Table.count_le fun x ↦ isWatcher_back (h x)

end Counting

section Shows

variable {p : Stage} {view committed view' committed' : ℕ → Option Recipient}

theorem Stage.Shows.kept (h : p.Shows view committed) :
    (∀ x, Kept (view x) (committed x)) ∨ ∃ link k, p = .opening (.added link) ∧
      view k = some link.row ∧ committed k = none ∧ ∀ x, x ≠ k → view x = committed x := by
  cases p with
  | idle => exact .inl fun x ↦ .of_eq (h x)
  | opening p =>
    cases p with
    | added link =>
      obtain ⟨k, hk⟩ := h
      exact .inr ⟨link, k, rfl, hk⟩
    | found link => exact .inl fun x ↦ .of_eq (h x)
    | locked link => exact .inl fun x ↦ .of_eq (h x)
    | looked link existing => exact .inl fun x ↦ .of_eq (h x)
    | adding link => exact .inl fun x ↦ .of_eq (h x)
    | standing link => exact .inl fun x ↦ .of_eq (h x)
  | accepting p => exact .inl h
  | removing p => exact .inl h
  | revoking p => exact .inl h

theorem Stage.Shows.owner (h : p.Shows view committed) {u : Recipient} (hu : u.role = .owner)
    (x : ℕ) : view x = some u ↔ committed x = some u := by
  rcases h.kept with h | ⟨link, k, -, hk, hnone, hrest⟩
  · exact (h x).owner u hu
  · by_cases hx : x = k
    · subst hx
      rw [hk, hnone]
      refine ⟨fun h ↦ ?_, nofun⟩
      cases h
      cases hu
    · rw [hrest x hx]

/-- Others move on rows that a session has not written. -/
theorem Stage.Shows.other (h : p.Shows view committed)
    (hbeside : ∀ x, view' x = view x ∧ committed' x = committed x ∨
      view' x = committed' x ∧ view x = committed x) : p.Shows view' committed' := by
  have heq : ∀ x, view x = committed x → view' x = committed' x := by
    intro x hx
    rcases hbeside x with ⟨hview, hcommitted⟩ | ⟨hview, -⟩
    · rw [hview, hcommitted, hx]
    · exact hview
  have hkept : (∀ x, Kept (view x) (committed x)) → ∀ x, Kept (view' x) (committed' x) := by
    intro h x
    rcases hbeside x with ⟨hview, hcommitted⟩ | ⟨hview, -⟩
    · rw [hview, hcommitted]
      exact h x
    · exact .of_eq hview
  cases p with
  | idle => exact fun x ↦ heq x (h x)
  | opening p =>
    cases p with
    | added link =>
      obtain ⟨k, hk, hnone, hrest⟩ := h
      have hown : view' k = view k ∧ committed' k = committed k := by
        refine (hbeside k).resolve_right fun hsame ↦ ?_
        rw [hk, hnone] at hsame
        exact nomatch hsame.2
      exact ⟨k, hown.1.trans hk, hown.2.trans hnone, fun x hx ↦ heq x (hrest x hx)⟩
    | found link => exact fun x ↦ heq x (h x)
    | locked link => exact fun x ↦ heq x (h x)
    | looked link existing => exact fun x ↦ heq x (h x)
    | adding link => exact fun x ↦ heq x (h x)
    | standing link => exact fun x ↦ heq x (h x)
  | accepting p => exact hkept h
  | removing p => exact hkept h
  | revoking p => exact hkept h

end Shows

/-- How a statement may move a session on towards a row of its user. -/
structure Admits (p next : Stage) (held : List Lock) (committed : Database) : Prop where
  joining : ∀ link ∈ next.joining,
    link ∈ p.joining ∨ .reminder link.invite.reminderId ∈ held
  newcomer : ∀ link ∈ next.newcomer, link ∈ p.newcomer ∨ IsNew committed link
  admitted : ∀ link ∈ next.admitted,
    link ∈ p.admitted ∨ HasRoom committed link.invite.reminderId

section Moves

variable {view committed : Database} {w : Writes} {held shared awaited : List Lock}
  {locked : Lock → Bool}

theorem Admits.of_none {p next : Stage} (hjoining : next.joining = none)
    (hnewcomer : next.newcomer = none) (hadmitted : next.admitted = none) :
    Admits p next held committed where
  joining link h := by rw [hjoining] at h; cases h
  newcomer link h := by rw [hnewcomer] at h; cases h
  admitted link h := by rw [hadmitted] at h; cases h

theorem isNew_of_get {link : Opening.Link}
    (hsame : ∀ x, view.recipients x = committed.recipients x)
    (h : Recipients.get view link.invite.reminderId link.request.userId = none) :
    IsNew committed link := by
  intro x u hu
  exact of_decide_eq_false (Table.find_none.mp h x u ((hsame x).trans hu))

theorem hasRoom_of_checkJoin {reminderId : ℕ}
    (hsame : ∀ x, view.recipients x = committed.recipients x)
    (h : checkJoin none (Recipients.countWatchers view reminderId) reminderWatchersMax = .ok ()) :
    HasRoom committed reminderId := by
  have hcount : Recipients.countWatchers committed reminderId =
      Recipients.countWatchers view reminderId := Table.count_congr fun x ↦ by rw [hsame x]
  rw [HasRoom, hcount]
  rw [checkJoin] at h
  split at h
  · cases h
  · omega

theorem Opening.start_exec {request : Request} {next : Option Stage}
    (h : start request view = .exec w held shared awaited next) :
    w = {} ∧ ∃ link, next = some (.found link) := by
  rw [start] at h
  split at h
  · cases h
  · split at h
    · obtain ⟨rfl, rfl⟩ := read_eq_exec h
      exact ⟨rfl, _, rfl⟩
    · cases h

theorem Opening.move_exec {p : Stage} {next : Option Stage}
    (hshows : (Invitations.Stage.opening p).Shows view.recipients committed.recipients)
    (h : move p locked view = some (.exec w held shared awaited next)) :
    (Stage.of .opening next).Shows (view.apply w).recipients committed.recipients ∧
      Admits (.opening p) (.of .opening next) held committed := by
  cases p with
  | found link =>
    rw [move] at h
    split at h <;> cases h
    exact ⟨hshows, fun _ hlink ↦ .inr (by cases hlink; exact List.mem_singleton_self _),
      fun _ hlink ↦ (by cases hlink), fun _ hlink ↦ (by cases hlink)⟩
  | locked link =>
    obtain ⟨rfl, rfl⟩ := read_eq_exec (Option.some_inj.mp h)
    refine ⟨hshows, fun _ hlink ↦ .inl hlink, fun link' hlink ↦ .inr ?_,
      fun _ hlink ↦ (by cases hlink)⟩
    cases hget : Recipients.get view link.invite.reminderId link.request.userId with
    | none =>
      rw [hget] at hlink
      cases hlink
      exact isNew_of_get hshows hget
    | some existing =>
      rw [hget] at hlink
      cases hlink
  | looked link existing =>
    rw [move] at h
    split at h
    · cases h
    · rename_i hjoin
      obtain ⟨rfl, rfl⟩ := read_eq_exec (Option.some_inj.mp h)
      cases existing with
      | none =>
        refine ⟨hshows, fun _ hlink ↦ .inl hlink, fun _ hlink ↦ .inl hlink, fun _ hlink ↦ .inr ?_⟩
        cases hlink
        exact hasRoom_of_checkJoin hshows hjoin
      | some existing =>
        exact ⟨hshows, fun _ hlink ↦ .inl hlink, fun _ hlink ↦ (by cases hlink),
          fun _ hlink ↦ (by cases hlink)⟩
  | adding link =>
    rw [move] at h
    split at h
    · split at h <;> cases h
    · cases h
      refine ⟨⟨view.recipients.next, ?_, ?_, fun x hx ↦ ?_⟩, fun _ hlink ↦ .inl hlink,
        fun _ hlink ↦ .inl hlink, fun _ hlink ↦ .inl hlink⟩
      · rw [Recipients.add, Database.recipients_apply, Table.writes_insert, if_neg (by omega),
          Nat.sub_self]
        rfl
      · exact (hshows _).symm.trans (view.recipients.fresh _ le_rfl)
      · rw [Recipients.add, Database.recipients_apply, Table.writes_insert, ← hshows x]
        split
        · rfl
        · rw [List.getElem?_eq_none (by simp; omega), view.recipients.fresh x (by omega)]
  | added link => cases h
  | standing link => cases h

theorem Joining.start_exec {request : Joining.Request} {next : Option Joining.Stage}
    (h : Joining.start request view = .exec w held shared awaited next) :
    w = {} ∧ ∃ r, next = some r := by
  rw [Joining.start] at h
  split at h
  · cases h
  · split at h
    · obtain ⟨rfl, rfl⟩ := read_eq_exec h
      exact ⟨rfl, _, rfl⟩
    · cases h

theorem Joining.move_exec {p : Joining.Stage} {next : Option Joining.Stage}
    (h : Joining.move p view = .exec w held shared awaited next) :
    (∃ r, next = some r) ∧ ∀ x, Kept ((view.apply w).recipients x) (view.recipients x) := by
  cases p with
  | found request =>
    rw [Joining.move] at h
    split at h
    · cases h
    · obtain ⟨rfl, rfl⟩ := read_eq_exec h
      exact ⟨⟨_, rfl⟩, fun x ↦ .of_eq rfl⟩
  | participating request =>
    cases h
    exact ⟨⟨_, rfl⟩, kept_accept view _ _ _⟩
  | accepted request updated =>
    cases updated with
    | false => cases h
    | true =>
      obtain ⟨rfl, rfl⟩ := read_eq_exec h
      exact ⟨⟨_, rfl⟩, fun x ↦ .of_eq rfl⟩
  | listed request upcoming =>
    obtain ⟨rfl, rfl⟩ := enqueue_eq_exec h
    exact ⟨⟨_, rfl⟩, fun x ↦ .of_eq rfl⟩
  | queued request => cases h

theorem Removing.removeWatcher_exec {request : Request} {next : Option Stage}
    (h : removeWatcher request view = .exec w held shared awaited next) :
    next = some .removed ∧ ∀ x, Kept ((view.apply w).recipients x) (view.recipients x) := by
  cases h
  exact ⟨rfl, kept_removeWatcher view _ _⟩

theorem Removing.move_exec {p : Stage} {next : Option Stage}
    (h : move p view = .exec w held shared awaited next) :
    next = some .removed ∧ ∀ x, Kept ((view.apply w).recipients x) (view.recipients x) := by
  cases p with
  | dropped request => exact removeWatcher_exec h
  | removed => cases h

theorem Revoking.start_exec {request : Request} {next : Option Stage}
    (h : start request view = .exec w held shared awaited next) :
    w = {} ∧ next = some (.owned request) := by
  rw [start] at h
  split at h
  · cases h
  · exact read_eq_exec h

theorem Revoking.move_exec {p : Stage} {next : Option Stage}
    (h : move p locked view = some (.exec w held shared awaited next)) :
    (∃ r, next = some r) ∧ ∀ x, (view.apply w).recipients x = view.recipients x := by
  cases p with
  | owned request =>
    cases h
    exact ⟨⟨_, rfl⟩, fun x ↦ rfl⟩
  | revoked request =>
    obtain ⟨now, ownerId, reminderId, token⟩ := request
    cases token with
    | none => cases h
    | some token =>
      rw [move] at h
      split at h
      · split at h <;> cases h
      · cases h
        exact ⟨⟨_, rfl⟩, fun x ↦ rfl⟩
  | issued => cases h

theorem program_exec {p next : Stage} {input : Input}
    (hshows : p.Shows view.recipients committed.recipients)
    (h : program p input locked view = some (.exec w held shared awaited next)) :
    next.Shows (view.apply w).recipients committed.recipients ∧ Admits p next held committed := by
  cases p with
  | idle =>
    cases input with
    | openInvite request =>
      obtain ⟨r, hmove, rfl⟩ := Move.map_eq_exec (Option.some_inj.mp h)
      obtain ⟨rfl, link, rfl⟩ := Opening.start_exec hmove
      exact ⟨hshows, .of_none rfl rfl rfl⟩
    | accept request =>
      obtain ⟨r, hmove, rfl⟩ := Move.map_eq_exec (Option.some_inj.mp h)
      obtain ⟨rfl, r, rfl⟩ := Joining.start_exec hmove
      exact ⟨fun x ↦ .of_eq (hshows x), .of_none rfl rfl rfl⟩
    | decline request =>
      obtain ⟨r, hmove, rfl⟩ := Move.map_eq_exec (Option.some_inj.mp h)
      obtain ⟨rfl, hkept⟩ := Removing.removeWatcher_exec hmove
      exact ⟨fun x ↦ (hkept x).trans (.of_eq (hshows x)), .of_none rfl rfl rfl⟩
    | leave request =>
      obtain ⟨r, hmove, rfl⟩ := Move.map_eq_exec (Option.some_inj.mp h)
      cases hmove
      exact ⟨fun x ↦ .of_eq (hshows x), .of_none rfl rfl rfl⟩
    | issueInvite now ownerId reminderId token =>
      obtain ⟨r, hmove, rfl⟩ := Move.map_eq_exec (Option.some_inj.mp h)
      obtain ⟨rfl, rfl⟩ := Revoking.start_exec hmove
      exact ⟨fun x ↦ .of_eq (hshows x), .of_none rfl rfl rfl⟩
    | revokeInvite now ownerId reminderId =>
      obtain ⟨r, hmove, rfl⟩ := Move.map_eq_exec (Option.some_inj.mp h)
      obtain ⟨rfl, rfl⟩ := Revoking.start_exec hmove
      exact ⟨fun x ↦ .of_eq (hshows x), .of_none rfl rfl rfl⟩
    | go => cases h
  | opening p =>
    obtain ⟨m, hmove, hmap⟩ := Option.map_eq_some_iff.mp h
    obtain ⟨r, rfl, rfl⟩ := Move.map_eq_exec hmap
    exact Opening.move_exec hshows hmove
  | accepting p =>
    obtain ⟨r, hmove, rfl⟩ := Move.map_eq_exec (Option.some_inj.mp h)
    obtain ⟨⟨r, rfl⟩, hkept⟩ := Joining.move_exec hmove
    exact ⟨fun x ↦ (hkept x).trans (hshows x), .of_none rfl rfl rfl⟩
  | removing p =>
    obtain ⟨r, hmove, rfl⟩ := Move.map_eq_exec (Option.some_inj.mp h)
    obtain ⟨rfl, hkept⟩ := Removing.move_exec hmove
    exact ⟨fun x ↦ (hkept x).trans (hshows x), .of_none rfl rfl rfl⟩
  | revoking p =>
    obtain ⟨m, hmove, hmap⟩ := Option.map_eq_some_iff.mp h
    obtain ⟨r, rfl, rfl⟩ := Move.map_eq_exec hmap
    obtain ⟨⟨r, rfl⟩, hsame⟩ := Revoking.move_exec hmove
    exact ⟨fun x ↦ (Kept.of_eq (hsame x)).trans (hshows x), .of_none rfl rfl rfl⟩

end Moves

section Ends

variable {view : Database} {locked : Lock → Bool}

theorem Opening.start_ends {request : Request} {next : Option Stage} :
    start request view = .commit next ∨ start request view = .rollback next → next = none := by
  fun_cases start request view <;> simp_all [read]

theorem Opening.move_ends {p : Stage} {next : Option Stage} :
    move p locked view = some (.commit next) ∨ move p locked view = some (.rollback next) →
      next = none := by
  fun_cases move p locked view <;> simp_all [read]

theorem Removing.move_ends {p : Stage} {next : Option Stage} :
    move p view = .commit next ∨ move p view = .rollback next → next = none := by
  fun_cases move p view <;> simp_all [removeWatcher]

theorem Revoking.start_ends {request : Request} {next : Option Stage} :
    start request view = .commit next ∨ start request view = .rollback next → next = none := by
  fun_cases start request view <;> simp_all [read]

theorem Revoking.move_ends {p : Stage} {next : Option Stage} :
    move p locked view = some (.commit next) ∨ move p locked view = some (.rollback next) →
      next = none := by
  fun_cases move p locked view <;> simp_all

/-- A call is one transaction. -/
theorem program_ends {p next : Stage} {input : Input}
    (h : program p input locked view = some (.commit next) ∨
      program p input locked view = some (.rollback next)) : next = .idle := by
  have hends : ∀ {S : Type} {f : S → Stage} {m : Move Writes Lock (Option S)},
      (∀ r, m = .commit r ∨ m = .rollback r → r = none) →
        m.map (.of f) = .commit next ∨ m.map (.of f) = .rollback next → next = .idle := by
    intro S f m hnone hmap
    rcases hmap with hmap | hmap
    · obtain ⟨r, hm, rfl⟩ := Move.map_eq_commit hmap
      rw [hnone r (.inl hm)]
      rfl
    · obtain ⟨r, hm, rfl⟩ := Move.map_eq_rollback hmap
      rw [hnone r (.inr hm)]
      rfl
  cases p with
  | idle =>
    cases input with
    | openInvite request =>
      exact hends (fun r ↦ Opening.start_ends) (h.imp Option.some_inj.mp Option.some_inj.mp)
    | accept request =>
      exact hends (fun r ↦ Joining.start_ends) (h.imp Option.some_inj.mp Option.some_inj.mp)
    | decline request => rcases h with h | h <;> cases h
    | leave request => rcases h with h | h <;> cases h
    | issueInvite now ownerId reminderId token =>
      exact hends (fun r ↦ Revoking.start_ends) (h.imp Option.some_inj.mp Option.some_inj.mp)
    | revokeInvite now ownerId reminderId =>
      exact hends (fun r ↦ Revoking.start_ends) (h.imp Option.some_inj.mp Option.some_inj.mp)
    | go => rcases h with h | h <;> cases h
  | opening p =>
    cases hmove : Opening.move p locked view with
    | none => rw [program, hmove] at h; rcases h with h | h <;> cases h
    | some m =>
      rw [program, hmove] at h
      exact hends (fun r hr ↦ Opening.move_ends (hmove ▸ hr.imp (congrArg some) (congrArg some)))
        (h.imp Option.some_inj.mp Option.some_inj.mp)
  | accepting p =>
    exact hends (fun r ↦ Joining.move_ends) (h.imp Option.some_inj.mp Option.some_inj.mp)
  | removing p =>
    exact hends (fun r ↦ Removing.move_ends) (h.imp Option.some_inj.mp Option.some_inj.mp)
  | revoking p =>
    cases hmove : Revoking.move p locked view with
    | none => rw [program, hmove] at h; rcases h with h | h <;> cases h
    | some m =>
      rw [program, hmove] at h
      exact hends (fun r hr ↦ Revoking.move_ends (hmove ▸ hr.imp (congrArg some) (congrArg some)))
        (h.imp Option.some_inj.mp Option.some_inj.mp)

end Ends

/-- A call that has found its user new, or room for them, holds the reminder,
so nobody else can take the place. -/
structure Limited (reminderId : ℕ) (s : Sessions) : Prop where
  owned : s.Owned
  unique : s.committed.recipients.Unique Recipient.key
  limit : Recipients.countWatchers s.committed reminderId ≤ reminderWatchersMax
  shows : ∀ j, (s.stage j).Shows (s.view j).recipients s.committed.recipients
  holds : ∀ j, ∀ link ∈ (s.stage j).joining, s.owner (.reminder link.invite.reminderId) = some j
  newcomer : ∀ j, ∀ link ∈ (s.stage j).newcomer, IsNew s.committed link
  room : ∀ j, ∀ link ∈ (s.stage j).admitted, link.invite.reminderId = reminderId →
    HasRoom s.committed reminderId

section Steps

variable {reminderId : ℕ} {s s' : Sessions} {e : Event Input}

theorem Stage.joining_of_newcomer {p : Stage} {link : Opening.Link} (h : link ∈ p.newcomer) :
    link ∈ p.joining := by
  fun_cases Stage.newcomer p <;> simp_all [Stage.newcomer, Stage.joining]

theorem Stage.newcomer_of_admitted {p : Stage} {link : Opening.Link} (h : link ∈ p.admitted) :
    link ∈ p.newcomer := by
  fun_cases Stage.admitted p <;> simp_all [Stage.newcomer, Stage.admitted]

theorem Limited.start {db : Database} (hunique : db.recipients.Unique Recipient.key)
    (hlimit : Recipients.countWatchers db reminderId ≤ reminderWatchersMax) :
    Limited reminderId (.start db .idle) where
  owned _ _ h := by cases h
  unique := hunique
  limit := hlimit
  shows _ _ := rfl
  holds _ _ h := by cases h
  newcomer _ _ h := by cases h
  room _ _ h := by cases h

theorem Limited.exec {i : ℕ} {input : Input} {w : Writes} {held shared awaited : List Lock}
    {next : Stage} (h : Limited reminderId s)
    (hstep : Step program .idle s (.move i input) (s.exec i w held shared next))
    (hmove : program (s.stage i) input (s.lockedFor i) (s.view i) =
      some (.exec w held shared awaited next)) :
    Limited reminderId (s.exec i w held shared next) := by
  obtain ⟨hshows, hadmits⟩ := program_exec (h.shows i) hmove
  have hrecipients : ∀ x, (s.exec i w held shared next).committed.recipients x =
      s.committed.recipients x := fun x ↦ (guards_recipients x).committed_exec _ _ _ _
  have hcount : Recipients.countWatchers (s.exec i w held shared next).committed reminderId =
      Recipients.countWatchers s.committed reminderId :=
    Table.count_congr fun x ↦ by rw [hrecipients x]
  have hnew : ∀ link, IsNew s.committed link → IsNew (s.exec i w held shared next).committed link :=
    fun link hnew x u hu ↦ hnew x u ((hrecipients x).symm.trans hu)
  have hroom : HasRoom s.committed reminderId →
      HasRoom (s.exec i w held shared next).committed reminderId := by
    intro hroom
    rw [HasRoom, hcount]
    exact hroom
  have hother : ∀ j, j ≠ i → (s.exec i w held shared next).stage j = s.stage j :=
    fun j hj ↦ stage_exec_of_ne hj _ _ _ _
  refine ⟨hstep.owned h.owned, ?_, hcount ▸ h.limit, fun j ↦ ?_, fun j link hlink ↦ ?_,
    fun j link hlink ↦ ?_, fun j link hlink hid ↦ ?_⟩
  · intro x y r u hr hu hkey
    exact h.unique x y r u ((hrecipients x).symm.trans hr) ((hrecipients y).symm.trans hu) hkey
  · by_cases hj : j = i
    · subst hj
      rw [stage_exec_self]
      have hview : ∀ x, ((s.exec j w held shared next).view j).recipients x =
          ((s.view j).apply w).recipients x := fun x ↦ (guards_recipients x).view_exec_self _ _ _ _
      exact hshows.other fun x ↦ .inl ⟨hview x, hrecipients x⟩
    · rw [hother j hj]
      exact (h.shows j).other fun x ↦ (guards_recipients x).view_other hstep h.owned hj
  · by_cases hj : j = i
    · subst hj
      rw [stage_exec_self] at hlink
      change (if _ ∈ locks w ++ held then some j else _) = some j
      rcases hadmits.joining link hlink with hold | hheld
      · rw [h.holds j link hold, ite_self]
      · rw [if_pos (List.mem_append_right _ hheld)]
    · rw [hother j hj] at hlink
      exact hstep.owner_other hj (h.holds j link hlink)
  · by_cases hj : j = i
    · subst hj
      rw [stage_exec_self] at hlink
      exact hnew link ((hadmits.newcomer link hlink).elim (h.newcomer j link) id)
    · rw [hother j hj] at hlink
      exact hnew link (h.newcomer j link hlink)
  · by_cases hj : j = i
    · subst hj
      rw [stage_exec_self] at hlink
      refine hroom ((hadmits.admitted link hlink).elim (fun hold ↦ h.room j link hold hid) ?_)
      exact fun hroom ↦ hid ▸ hroom
    · rw [hother j hj] at hlink
      exact hroom (h.room j link hlink hid)

/-- A transaction ends over `d`: what `d` adds must leave the others their
place. -/
theorem Limited.close {i : ℕ} {d : Database} (h : Limited reminderId s) (hi : e.by = i)
    (hstep : Step program .idle s e (s.close i d .idle))
    (hunique : d.recipients.Unique Recipient.key)
    (hlimit : Recipients.countWatchers d reminderId ≤ reminderWatchersMax)
    (hnewcomer : ∀ j, j ≠ i → ∀ link ∈ (s.stage j).newcomer, IsNew d link)
    (hroom : ∀ j, j ≠ i → ∀ link ∈ (s.stage j).admitted, link.invite.reminderId = reminderId →
      HasRoom d reminderId) : Limited reminderId (s.close i d .idle) := by
  have hcases : ∀ j, j = i ∧ (s.close i d .idle).stage j = .idle ∨
      j ≠ i ∧ (s.close i d .idle).stage j = s.stage j := by
    intro j
    by_cases hj : j = i
    · exact .inl ⟨hj, hj ▸ stage_close_self _ _⟩
    · exact .inr ⟨hj, stage_close_of_ne hj _ _⟩
  refine ⟨hstep.owned h.owned, hunique, hlimit, fun j ↦ ?_, fun j link hlink ↦ ?_,
    fun j link hlink ↦ ?_, fun j link hlink hid ↦ ?_⟩
  · rcases hcases j with ⟨rfl, hstage⟩ | ⟨hj, hstage⟩
    · rw [hstage, view_close_self]
      exact fun x ↦ rfl
    · rw [hstage]
      exact (h.shows j).other fun x ↦
        (guards_recipients x).view_other hstep h.owned (hi ▸ hj)
  · rcases hcases j with ⟨-, hstage⟩ | ⟨hj, hstage⟩ <;> rw [hstage] at hlink
    · cases hlink
    · exact hstep.owner_other (hi ▸ hj) (h.holds j link hlink)
  · rcases hcases j with ⟨-, hstage⟩ | ⟨hj, hstage⟩ <;> rw [hstage] at hlink
    · cases hlink
    · exact hnewcomer j hj link hlink
  · rcases hcases j with ⟨-, hstage⟩ | ⟨hj, hstage⟩ <;> rw [hstage] at hlink
    · cases hlink
    · exact hroom j hj link hlink hid

theorem Limited.close_kept {i : ℕ} {d : Database} (h : Limited reminderId s) (hi : e.by = i)
    (hstep : Step program .idle s e (s.close i d .idle))
    (hkept : ∀ x, Kept (d.recipients x) (s.committed.recipients x)) :
    Limited reminderId (s.close i d .idle) := by
  refine h.close hi hstep ?_ ((countWatchers_le hkept).trans h.limit) ?_ ?_
  · intro x y r u hr hu hkey
    obtain ⟨r', hr', hrkey, -⟩ := (hkept x).back r hr
    obtain ⟨u', hu', hukey, -⟩ := (hkept y).back u hu
    exact h.unique x y r' u' hr' hu' (hrkey.trans (hkey.trans hukey.symm))
  · intro j _ link hlink x u hu
    obtain ⟨u', hu', hkey, -⟩ := (hkept x).back u hu
    exact hkey ▸ h.newcomer j link hlink x u' hu'
  · intro j _ link hlink hid
    exact (countWatchers_le hkept).trans_lt (h.room j link hlink hid)

/-- A row goes in under the lock of its reminder, into a place of its own. -/
theorem Limited.close_added {i k : ℕ} {d : Database} {link : Opening.Link}
    (h : Limited reminderId s) (hi : e.by = i)
    (hstep : Step program .idle s e (s.close i d .idle))
    (hstage : s.stage i = .opening (.added link)) (hk : d.recipients k = some link.row)
    (hnone : s.committed.recipients k = none)
    (hrest : ∀ x, x ≠ k → d.recipients x = s.committed.recipients x) :
    Limited reminderId (s.close i d .idle) := by
  have hlink : link ∈ (s.stage i).admitted := by rw [hstage]; rfl
  have hnew := h.newcomer i link (Stage.newcomer_of_admitted hlink)
  -- Two calls that have found no row of their user are on different reminders.
  have hapart : ∀ j, j ≠ i → ∀ link' ∈ (s.stage j).newcomer,
      link'.invite.reminderId ≠ link.invite.reminderId := by
    intro j hj link' hlink' hid
    have hown := h.holds j link' (Stage.joining_of_newcomer hlink')
    rw [hid, h.holds i link (Stage.joining_of_newcomer (Stage.newcomer_of_admitted hlink))] at hown
    exact hj (Option.some_inj.mp hown).symm
  have hcount : link.invite.reminderId ≠ reminderId →
      Recipients.countWatchers d reminderId ≤ Recipients.countWatchers s.committed reminderId := by
    intro hid
    refine Table.count_le fun x hx ↦ ?_
    by_cases hxk : x = k
    · subst hxk
      rw [hk] at hx
      simp only [Option.any_some, Opening.Link.row, Bool.and_eq_true, decide_eq_true_eq] at hx
      exact absurd hx.1 hid
    · rw [← hrest x hxk]
      exact hx
  refine h.close hi hstep ?_ ?_ ?_ ?_
  · intro x y r u hr hu hkey
    by_cases hx : x = k <;> by_cases hy : y = k
    · rw [hx, hy]
    · subst hx
      cases hk.symm.trans hr
      exact absurd hkey.symm (hnew y u ((hrest y hy).symm.trans hu))
    · subst hy
      cases hk.symm.trans hu
      exact absurd hkey (hnew x r ((hrest x hx).symm.trans hr))
    · exact h.unique x y r u ((hrest x hx).symm.trans hr) ((hrest y hy).symm.trans hu) hkey
  · by_cases hid : link.invite.reminderId = reminderId
    · have hroom : Recipients.countWatchers s.committed reminderId < reminderWatchersMax :=
        h.room i link hlink hid
      have hsucc : Recipients.countWatchers d reminderId ≤
          Recipients.countWatchers s.committed reminderId + 1 :=
        Table.count_le_succ fun x hx hany ↦ by rw [← hrest x hx]; exact hany
      omega
    · exact (hcount hid).trans h.limit
  · intro j hj link' hlink' x u hu
    by_cases hx : x = k
    · subst hx
      cases hk.symm.trans hu
      exact fun hkey ↦ hapart j hj link' hlink' (congrArg Prod.fst hkey).symm
    · exact h.newcomer j link' hlink' x u ((hrest x hx).symm.trans hu)
  · intro j hj link' hlink' hid
    have hne := hapart j hj link' (Stage.newcomer_of_admitted hlink')
    exact (hcount (hid ▸ hne.symm)).trans_lt (h.room j link' hlink' hid)

theorem Limited.step (h : Limited reminderId s) (hstep : Step program .idle s e s') :
    Limited reminderId s' ∧ ∀ x u, u.role = .owner →
      (s'.committed.recipients x = some u ↔ s.committed.recipients x = some u) := by
  cases hcase : hstep with
  | @exec i input w held shared awaited next hmove hfree =>
    exact ⟨h.exec hstep hmove, fun x u _ ↦ by rw [(guards_recipients x).committed_exec]⟩
  | @commit i input next hmove =>
    obtain rfl := program_ends (.inl hmove)
    refine ⟨?_, fun x u hu ↦ (h.shows i).owner hu x⟩
    rcases (h.shows i).kept with hkept | ⟨link, k, hstage, hk, hnone, hrest⟩
    · exact h.close_kept rfl hstep hkept
    · exact h.close_added rfl hstep hstage hk hnone hrest
  | @rollback i input next hmove =>
    obtain rfl := program_ends (.inr hmove)
    exact ⟨h.close_kept rfl hstep fun x ↦ .of_eq rfl, fun _ _ _ ↦ .rfl⟩
  | crash i => exact ⟨h.close_kept rfl hstep fun x ↦ .of_eq rfl, fun _ _ _ ↦ .rfl⟩

end Steps

/-- However the calls interleave, a reminder keeps to its limit of watchers,
nobody has two rows, and the owner's row stays what it was. -/
theorem watchers_limited {db : Database} {es : List (Event Input)} {s : Sessions} {reminderId : ℕ}
    (hunique : db.recipients.Unique Recipient.key)
    (hlimit : Recipients.countWatchers db reminderId ≤ reminderWatchersMax)
    (hrun : run (step program .idle) (.start db .idle) es = some s) :
    Recipients.countWatchers s.committed reminderId ≤ reminderWatchersMax ∧
      s.committed.recipients.Unique Recipient.key ∧
      ∀ x u, u.role = .owner →
        (s.committed.recipients x = some u ↔ db.recipients x = some u) := by
  have hlimited : Limited reminderId s ∧ ∀ x u, u.role = .owner →
      (s.committed.recipients x = some u ↔ db.recipients x = some u) := by
    refine run_preserves (P := fun s ↦ Limited reminderId s ∧ ∀ x u, u.role = .owner →
      (s.committed.recipients x = some u ↔ db.recipients x = some u)) ?_ hrun
      ⟨.start hunique hlimit, fun _ _ _ ↦ .rfl⟩
    intro s₁ e s₂ ⟨h, howner⟩ hstep
    obtain ⟨h', hsame⟩ := h.step (step_cases hstep)
    exact ⟨h', fun x u hu ↦ (hsame x u hu).trans (howner x u hu)⟩
  exact ⟨hlimited.1.limit, hlimited.1.unique, hlimited.2⟩

section Sample

/-- A reminder with so many watchers, and a link to it. -/
def linkedDb (watchers : ℕ) : Database where
  users := .ofList (List.replicate 12 { timezone := .utc })
  categories := .empty
  reminders := .ofList [sampleReminder]
  recipients := .ofList (⟨0, 0, .owner, some 0⟩ ::
    (List.range watchers).map fun i ↦ ⟨0, i + 1, .watcher, some 0⟩)
  invites := .ofList [⟨0, "link", day, none⟩]
  occurrences := .empty
  deliveries := .empty
  actions := .empty

def openBy (i userId : ℕ) : Event Input := .move i (.openInvite ⟨0, "link", userId⟩)

def going (i n : ℕ) : List (Event Input) := List.replicate n (.move i .go)

/-- Two users follow the link to the last place. -/
theorem watchers_limited_sample :
    ∃ s : Sessions, run (step program .idle) (.start (linkedDb 9) .idle)
        ([openBy 0 10, openBy 1 11] ++ going 0 5 ++ going 1 3) = some s ∧
      Recipients.countWatchers s.committed 0 ≤ reminderWatchersMax ∧
      s.committed.recipients.Unique Recipient.key ∧
      ∀ x u, u.role = .owner →
        (s.committed.recipients x = some u ↔ (linkedDb 9).recipients x = some u) := by
  have hruns : (run (step program .idle) (.start (linkedDb 9) .idle : Sessions)
      ([openBy 0 10, openBy 1 11] ++ going 0 5 ++ going 1 3)).isSome = true := by
    decide +kernel
  obtain ⟨s, hrun⟩ := Option.isSome_iff_exists.mp hruns
  exact ⟨s, hrun, watchers_limited (Table.unique_ofList (by decide)) (by decide +kernel) hrun⟩

end Sample

end Remindo.Concurrent.Invitations
