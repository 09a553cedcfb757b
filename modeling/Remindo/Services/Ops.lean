import Mathlib.Data.Finset.Sort
import Remindo.Domain.Contracts
import Remindo.Domain.Ops

namespace Remindo.Services.Ops

open Remindo.Domain

/-- What the monitor remembers between ticks. -/
structure MonitorState where
  alert : AlertState := .clear
  report : Option OpsReport := none
  /-- Admins who blocked the bot. -/
  mutedAdmins : Finset ℤ := ∅

structure MonitorResult where
  report : OpsReport
  state : AlertState
  notified : Option AlertKind := none
  recipients : ℕ := 0

/-- One operator's line, which `render_alert` makes of the kind and the report. -/
structure Alert where
  adminId : ℤ
  kind : AlertKind
  report : OpsReport
  deriving DecidableEq

/-- The transport's answer to each admin's message, `none` being a success. -/
abbrev Gateway := ℤ → Option ErrorClass

def alertFailed (adminId : ℤ) (error : ErrorClass) (state : MonitorState) : MonitorState :=
  match error with
  | .forbidden => { state with mutedAdmins := insert adminId state.mutedAdmins }
  | .retryAfter | .badRequest | .transient => state

/-- Message every admin in turn; the alerts are those that got through. -/
def notifyEach (gateway : Gateway) (kind : AlertKind) (report : OpsReport) :
    List ℤ → MonitorState → List Alert × MonitorState
  | [], state => ([], state)
  | adminId :: rest, state =>
    match gateway adminId with
    | some error => notifyEach gateway kind report rest (alertFailed adminId error state)
    | none =>
      let (alerts, state') := notifyEach gateway kind report rest state
      (⟨adminId, kind, report⟩ :: alerts, state')

def notify (gateway : Gateway) (kind : AlertKind) (report : OpsReport) (audience : Finset ℤ)
    (state : MonitorState) : List Alert × MonitorState :=
  notifyEach gateway kind report (audience.sort (· ≤ ·)) state

structure OpsService where
  adminIds : Finset ℤ
  alertLag : ℤ

/-- One tick over a reading of the queue, with the alerts that reached their
admins. -/
def OpsService.run (service : OpsService) (now : ℤ) (snapshot : QueueSnapshot) (gateway : Gateway)
    (state : MonitorState) : MonitorResult × MonitorState × List Alert :=
  let report := buildReport snapshot now
  let state := { state with report := some report }
  let decision := decideAlert state.alert report.lag service.alertLag
  match decision.notify with
  | none => (⟨report, decision.state, none, 0⟩, { state with alert := decision.state }, [])
  | some kind =>
    let audience := service.adminIds \ state.mutedAdmins
    let (alerts, state) := notify gateway kind report audience state
    -- Nobody heard it, so the edge has not been reported.
    if audience.Nonempty ∧ alerts.length = 0 then (⟨report, state.alert, none, 0⟩, state, [])
    else (⟨report, decision.state, some kind, alerts.length⟩,
      { state with alert := decision.state }, alerts)

section Tick

variable {gateway : Gateway} {kind : AlertKind} {report : OpsReport}

/-- Whom an alert reaches is asked once, about the one edge, and nothing but the
muted admins is remembered of it. -/
theorem notifyEach_spec (adminIds : List ℤ) (state : MonitorState) :
    ((notifyEach gateway kind report adminIds state).1.map Alert.adminId).Sublist adminIds ∧
      (∀ alert ∈ (notifyEach gateway kind report adminIds state).1, alert.kind = kind) ∧
        (notifyEach gateway kind report adminIds state).2.alert = state.alert := by
  induction adminIds generalizing state with
  | nil => simp [notifyEach]
  | cons adminId rest ih =>
    rw [notifyEach]
    cases gateway adminId with
    | none =>
      obtain ⟨hsub, hkind, halert⟩ := ih state
      simp [hsub, halert]
      exact hkind
    | some error =>
      obtain ⟨hsub, hkind, halert⟩ := ih (alertFailed adminId error state)
      refine ⟨hsub.cons _, hkind, halert.trans ?_⟩
      cases error <;> rfl

/-- A tick reports no edge and changes no belief, or it reports the one edge
that is owed, to each admin at most once. -/
theorem OpsService.run_cases (service : OpsService) (now : ℤ) (snapshot : QueueSnapshot)
    (gateway : Gateway) (state : MonitorState) :
    let done := service.run now snapshot gateway state
    done.1.notified = none ∧ done.2.2 = [] ∧ done.2.1.alert = state.alert ∨
      ∃ kind : AlertKind, state.alert = kind.opposite.state ∧ done.1.notified = some kind ∧
        done.2.1.alert = kind.state ∧ (∀ alert ∈ done.2.2, alert.kind = kind) ∧
          (done.2.2.map Alert.adminId).Nodup := by
  intro done
  obtain hstay | ⟨kind, hstate, hedge⟩ :=
    decideAlert_cases state.alert (buildReport snapshot now).lag service.alertLag
  · left
    simp only [done, run, hstay]
    exact ⟨trivial, trivial, trivial⟩
  · obtain ⟨hsub, hkind, halert⟩ := @notifyEach_spec gateway kind (buildReport snapshot now)
      ((service.adminIds \ state.mutedAdmins).sort (· ≤ ·))
      { state with report := some (buildReport snapshot now) }
    simp only [done, run, hedge, notify]
    split
    · exact .inl ⟨rfl, rfl, halert⟩
    · exact .inr ⟨kind, hstate, rfl, rfl, hkind, (Finset.sort_nodup _ _).sublist hsub⟩

end Tick

end Remindo.Services.Ops
