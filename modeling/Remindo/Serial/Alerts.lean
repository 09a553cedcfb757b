import Remindo.Services.Ops

namespace Remindo.Serial.Alerts

open Remindo.Domain
open Remindo.Services.Ops

/-- One call of the monitor: when, what it read off the queue, and how the sends
of the tick went. -/
structure Tick where
  now : ℤ
  snapshot : QueueSnapshot
  gateway : Gateway

inductive Event
  | received (alert : Alert)
  | reported (kind : AlertKind)
  deriving DecidableEq

/-- The monitor's memory, and what it has done, the oldest first. -/
structure Watch where
  state : MonitorState
  log : List Event

def Watch.start : Watch := ⟨{}, []⟩

def Watch.tick (service : OpsService) (w : Watch) (t : Tick) : Watch :=
  let (result, state, alerts) := service.run t.now t.snapshot t.gateway w.state
  ⟨state, w.log ++ (alerts.map .received ++ (result.notified.map .reported).toList)⟩

def Watch.run (service : OpsService) (w : Watch) (ticks : List Tick) : Watch :=
  ticks.foldl (Watch.tick service) w

/-- The edges reported. -/
def edges : List Event → List AlertKind
  | [] => []
  | .received _ :: log => edges log
  | .reported kind :: log => kind :: edges log

/-- Strictly in turn, `kind` being the first. -/
def Alternates : AlertKind → List AlertKind → Prop
  | _, [] => True
  | kind, edge :: rest => edge = kind ∧ Alternates kind.opposite rest

/-- The edge that is next after those reported, `kind` having been the first. -/
def owed : AlertKind → List AlertKind → AlertKind
  | kind, [] => kind
  | kind, _ :: rest => owed kind.opposite rest

/-- In a log with the newest first: the admin has been told of the edge, and the
opposite one has not been reported since. -/
def Told (adminId : ℤ) (kind : AlertKind) : List Event → Prop
  | [] => False
  | .received alert :: log => alert.adminId = adminId ∧ alert.kind = kind ∨ Told adminId kind log
  | .reported edge :: log => edge ≠ kind.opposite ∧ Told adminId kind log

/-- In a log with the newest first: nobody is told what they have been told. -/
def NeverTwice : List Event → Prop
  | [] => True
  | .received alert :: log => ¬Told alert.adminId alert.kind log ∧ NeverTwice log
  | .reported _ :: log => NeverTwice log

section Logs

variable {kind : AlertKind} {log : List Event}

theorem edges_append (log log' : List Event) : edges (log ++ log') = edges log ++ edges log' := by
  induction log with
  | nil => rfl
  | cons event log ih => cases event <;> simp [edges, ih]

theorem edges_received (alerts : List Alert) : edges (alerts.map .received) = [] := by
  induction alerts with
  | nil => rfl
  | cons alert alerts ih => simpa [edges] using ih

theorem Alternates.concat {edges : List AlertKind} (h : Alternates kind edges) :
    Alternates kind (edges ++ [owed kind edges]) := by
  induction edges generalizing kind with
  | nil => exact ⟨rfl, trivial⟩
  | cons edge rest ih => exact ⟨h.1, ih h.2⟩

theorem owed_concat (edges : List AlertKind) (edge : AlertKind) :
    owed kind (edges ++ [edge]) = (owed kind edges).opposite := by
  induction edges generalizing kind with
  | nil => rfl
  | cons _ rest ih => exact ih

theorem Alternates.getLast? {edges : List AlertKind} (h : Alternates kind edges) (hne : edges ≠ []) :
    edges.getLast? = some (owed kind edges).opposite := by
  induction edges generalizing kind with
  | nil => exact absurd rfl hne
  | cons edge rest ih =>
    obtain ⟨rfl, hrest⟩ := h
    cases rest with
    | nil => simp [owed]
    | cons next rest => simpa [owed] using ih hrest (List.cons_ne_nil _ _)

/-- Between two alerts of one kind to one admin the opposite edge is reported. -/
theorem NeverTwice.between {alert alert' : Alert} {ys zs : List Event} (xs : List Event)
    (h : NeverTwice (xs ++ .received alert' :: (ys ++ .received alert :: zs)))
    (hadmin : alert'.adminId = alert.adminId) (hkind : alert'.kind = alert.kind) :
    .reported alert.kind.opposite ∈ ys := by
  induction xs with
  | nil =>
    obtain ⟨hnot, -⟩ := h
    rw [hadmin, hkind] at hnot
    by_contra hmissing
    refine hnot ?_
    clear hnot
    induction ys with
    | nil => exact .inl ⟨rfl, rfl⟩
    | cons event ys ih =>
      obtain ⟨hne, hys⟩ := not_or.mp (List.mem_cons.not.mp hmissing)
      cases event with
      | received other => exact .inr (ih hys)
      | reported edge => exact ⟨fun heq ↦ hne (heq ▸ rfl), ih hys⟩
  | cons event xs ih =>
    cases event with
    | received other => exact ih h.2
    | reported edge => exact ih h

theorem told_received {adminId : ℤ} (alerts : List Alert) :
    Told adminId kind (alerts.map .received ++ log) ↔
      (∃ alert ∈ alerts, alert.adminId = adminId ∧ alert.kind = kind) ∨ Told adminId kind log := by
  induction alerts with
  | nil => simp
  | cons alert alerts ih => simp [Told, ih, or_assoc]

/-- The alerts of one tick go to different admins, none of whom has been told. -/
theorem NeverTwice.received {alerts : List Alert} (h : NeverTwice log)
    (hkind : ∀ alert ∈ alerts, alert.kind = kind) (hnodup : (alerts.map Alert.adminId).Nodup)
    (hfresh : ∀ adminId, ¬Told adminId kind log) : NeverTwice (alerts.map .received ++ log) := by
  induction alerts with
  | nil => exact h
  | cons alert alerts ih =>
    obtain ⟨hnew, hrest⟩ := List.nodup_cons.mp hnodup
    refine ⟨?_, ih (fun other hother ↦ hkind other (List.mem_cons_of_mem _ hother)) hrest⟩
    rw [hkind alert List.mem_cons_self]
    intro htold
    rcases (told_received alerts).mp htold with ⟨other, hother, hsame, -⟩ | htold
    · exact hnew (hsame ▸ List.mem_map_of_mem hother)
    · exact hfresh _ htold

end Logs

/-- What holds of the monitor between two ticks. -/
structure Watch.Sound (w : Watch) : Prop where
  alternates : Alternates .raised (edges w.log)
  owed : w.state.alert = (owed .raised (edges w.log)).opposite.state
  settled : ∀ adminId kind, Told adminId kind w.log.reverse → w.state.alert = kind.state
  neverTwice : NeverTwice w.log.reverse

theorem Watch.Sound.start : Watch.start.Sound :=
  ⟨trivial, rfl, fun _ _ h ↦ h.elim, trivial⟩

variable {service : OpsService} {w : Watch}

theorem Watch.Sound.tick (h : w.Sound) (t : Tick) : (w.tick service t).Sound := by
  obtain ⟨hnone, hquiet, halert⟩ | ⟨edge, hstate, hsome, halert, hkind, hnodup⟩ :=
    service.run_cases t.now t.snapshot t.gateway w.state
  · have hlog : (w.tick service t).log = w.log := by simp [Watch.tick, hnone, hquiet]
    have hsame : (w.tick service t).state.alert = w.state.alert := halert
    constructor
    · rw [hlog]
      exact h.alternates
    · rw [hlog, hsame]
      exact h.owed
    · rw [hlog, hsame]
      exact h.settled
    · rw [hlog]
      exact h.neverTwice
  · set alerts := (service.run t.now t.snapshot t.gateway w.state).2.2
    have hlog : (w.tick service t).log = w.log ++ (alerts.map .received ++ [.reported edge]) := by
      simp [Watch.tick, hsome, alerts]
    have hreverse : (w.tick service t).log.reverse =
        .reported edge :: (alerts.reverse.map .received ++ w.log.reverse) := by simp [hlog]
    have hedges : edges (w.tick service t).log = edges w.log ++ [edge] := by
      rw [hlog, edges_append, edges_append, edges_received]
      rfl
    have hsame : (w.tick service t).state.alert = edge.state := halert
    -- The monitor believes the opposite of what it is about to report.
    have howed : Alerts.owed .raised (edges w.log) = edge := by
      have := AlertKind.state_injective (h.owed.symm.trans hstate)
      rw [← AlertKind.opposite_opposite edge, ← this, AlertKind.opposite_opposite]
    have hfresh : ∀ adminId, ¬Told adminId edge w.log.reverse := fun adminId htold ↦
      edge.opposite_ne (AlertKind.state_injective (hstate.symm.trans (h.settled adminId edge htold)))
    constructor
    · rw [hedges, ← howed]
      exact h.alternates.concat
    · rw [hedges, owed_concat, howed, AlertKind.opposite_opposite, hsame]
    · intro adminId kind htold
      rw [hreverse] at htold
      rw [hsame]
      rcases kind.eq_or_eq_opposite edge with rfl | hopposite
      · rfl
      · exact absurd hopposite htold.1
    · rw [hreverse]
      refine h.neverTwice.received (fun alert halert ↦ hkind alert (List.mem_reverse.mp halert)) ?_ hfresh
      rw [List.map_reverse]
      exact List.nodup_reverse.mpr hnodup

theorem Watch.Sound.run (h : w.Sound) (ticks : List Tick) : (w.run service ticks).Sound := by
  induction ticks generalizing w with
  | nil => exact h
  | cons t ticks ih => exact ih (h.tick t)

/-- Whatever the lags and the sends, edges are reported in turn from `raised` on,
the monitor is firing while the last of them is a raised one, and between two
alerts of one kind to one admin the opposite edge is reported. -/
theorem alerts_in_turn (service : OpsService) (ticks : List Tick) :
    let w := Watch.start.run service ticks
    Alternates .raised (edges w.log) ∧
      (w.state.alert = .firing ↔ (edges w.log).getLast? = some .raised) ∧
        ∀ (xs ys zs : List Event) (alert alert' : Alert),
          w.log = xs ++ .received alert :: (ys ++ .received alert' :: zs) →
          alert'.adminId = alert.adminId → alert'.kind = alert.kind →
            .reported alert.kind.opposite ∈ ys := by
  intro w
  have hsound : w.Sound := Watch.Sound.start.run ticks
  refine ⟨hsound.alternates, ?_, fun xs ys zs alert alert' hlog hadmin hkind ↦ ?_⟩
  · rw [hsound.owed]
    by_cases hnone : edges w.log = []
    · simp [hnone, owed, AlertKind.opposite, AlertKind.state]
    · rw [hsound.alternates.getLast? hnone]
      cases owed .raised (edges w.log) <;> simp [AlertKind.opposite, AlertKind.state]
  · have htwice := hsound.neverTwice
    rw [hlog] at htwice
    have := @NeverTwice.between alert alert' ys.reverse xs.reverse zs.reverse (by simpa using htwice)
      hadmin hkind
    exact List.mem_reverse.mp this

end Remindo.Serial.Alerts
