import Remindo.Serial.Leases
import Remindo.Services.Coverage

namespace Remindo.Serial

open Remindo.Domain Remindo.Db Remindo.Services Remindo.Foundation

/-- Nobody joins or leaves, and no link is made or taken back. -/
structure SameSharing (db db' : Database) : Prop where
  recipients : db'.recipients = db.recipients
  invites : db'.invites = db.invites

def Operation.shares : Operation → Bool
  | .create .. | .issueInvite .. | .revokeInvite .. | .openInvite .. | .accept .. | .decline ..
  | .leave .. => true
  | _ => false

theorem shares_of_isQueueing {op : Operation} (h : op.isQueueing = true) : op.shares = false := by
  cases op with
  | deliver | react | sweep => rfl
  | _ => cases h

section Queue

variable {db db' db'' : Database}

theorem SameSharing.refl (db : Database) : SameSharing db db := ⟨rfl, rfl⟩

theorem SameSharing.trans (h : SameSharing db db') (h' : SameSharing db' db'') :
    SameSharing db db'' := ⟨h'.recipients.trans h.recipients, h'.invites.trans h.invites⟩

theorem sameSharing_deliverAll (gateway : Dispatching.Gateway) (batch : List Dispatching.Work)
    (memory : Dispatching.Memory) (db : Database) :
    SameSharing db (Dispatching.deliverAll gateway batch memory db).2 := by
  induction batch generalizing memory db with
  | nil => exact .refl db
  | cons v rest ih =>
    refine .trans ?_ (ih _ _)
    rw [Dispatching.applyVerdict, Dispatching.writeVerdict]
    split <;> split <;> exact ⟨rfl, rfl⟩

theorem sameSharing_deliver (db : Database) (now lockFor : ℤ) (batch : ℕ)
    (gateway : Dispatching.Gateway) :
    SameSharing db (Dispatching.deliver db now lockFor batch gateway).2 := by
  let rows := Deliveries.claimDue now lockFor batch (fun _ ↦ false) db
  have hleased : SameSharing db (db.apply (Deliveries.claimed rows)) := ⟨rfl, rfl⟩
  exact hleased.trans (sameSharing_deliverAll ..)

theorem sameSharing_expireAll (now : ℤ) (overdue : List (ℕ × Occurrence)) (db : Database) :
    SameSharing db (Reaper.expireAll now overdue db) := by
  have hsilence : ∀ (sent : List (ℕ × Delivery)) (db : Database),
      SameSharing db (Reaper.journalSilence now sent db) := by
    intro sent
    induction sent with
    | nil => exact .refl
    | cons d rest ih => exact fun db ↦ ⟨(ih _).recipients, (ih _).invites⟩
  induction overdue generalizing db with
  | nil => exact .refl db
  | cons o rest ih =>
    have hsilent := hsilence (Deliveries.listSentForOccurrence db o.1) db
    exact ⟨(ih _).recipients.trans hsilent.recipients, (ih _).invites.trans hsilent.invites⟩

theorem sameSharing_sweep (db : Database) (now : ℤ) (batch : ℕ) :
    SameSharing db (Reaper.sweep db now batch) := by
  have hexpired : SameSharing db (Reaper.expireAll now (Reaper.overdue db now batch) db) :=
    sameSharing_expireAll ..
  obtain ⟨-, -, -, hrecipients, hinvites⟩ := Reaper.repeatAll_tables now
    (Deliveries.listRepeatCandidates (Reaper.expireAll now (Reaper.overdue db now batch) db) now
      batch) [] (Reaper.expireAll now (Reaper.overdue db now batch) db)
  exact ⟨hrecipients.trans hexpired.recipients, hinvites.trans hexpired.invites⟩

theorem sameSharing_materializeAll (settings : Planning.Settings) (horizonEnd : ℤ)
    (due : List (ℕ × Reminder)) (db : Database) :
    SameSharing db (Planning.materializeAll settings horizonEnd due db) := by
  induction due generalizing db with
  | nil => exact .refl db
  | cons x rest ih =>
    rw [Planning.materializeAll]
    split
    · exact ih db
    · refine .trans ?_ (ih _)
      rw [Planning.materializeOne_eq, Planning.settle]
      split <;> exact ⟨rfl, rfl⟩

end Queue

section Operations

variable {settings : Settings} {w w' : World} {op : Operation}

theorem sameSharing_perform (hop : op.shares = false) (h : perform settings w op = some w') :
    SameSharing w.db w'.db := by
  cases op with
  | materialize now =>
    cases h
    exact sameSharing_materializeAll ..
  | deliver now gateway =>
    cases h
    exact sameSharing_deliver ..
  | react now deliveryId userId action =>
    obtain ⟨result, hreact⟩ := perform_react h
    rcases Reactions.react_eq_ok hreact with ⟨-, heq⟩ | ⟨-, d, o, r, u, reaction, -, -, -, -, -, -, heq⟩
    · exact heq ▸ .refl w.db
    · rw [heq, Reactions.closeOccurrence]
      split
      · split <;> exact ⟨rfl, rfl⟩
      · exact ⟨rfl, rfl⟩
  | sweep now =>
    cases h
    exact sameSharing_sweep ..
  | setStatus now ownerId rid status =>
    obtain ⟨db', hdb, rfl⟩ := over_eq_some h
    obtain ⟨r, -, rfl⟩ := Reminders.setStatus_eq_ok hdb
    split <;> exact ⟨rfl, rfl⟩
  | update now ownerId rid change =>
    obtain ⟨db', hdb, rfl⟩ := over_eq_some h
    obtain ⟨r, -, -, rfl⟩ := Reminders.update_eq_ok hdb
    split <;> exact ⟨rfl, rfl⟩
  | _ => cases hop

end Operations

end Remindo.Serial
