import Espos.Wifi.Event

namespace Espos.Wifi

open Espos.Clock

-- What the portal functions may change.
def withPortal (sm : Machine) (active : Bool) (clients : Int) (due : UInt32) (calls : List Call) :
    Machine :=
  { sm with
    st := { sm.st with portalActive := active, portalClients := clients }
    portalDueMs := due
    calls := calls }

def PortalOnly (sm sm' : Machine) : Prop :=
  ∃ active clients due calls, sm' = withPortal sm active clients due calls

variable {port : Port} {sm : Machine}

-- Only time holds the portal back.
structure Waits (now : UInt32) (sm : Machine) : Prop where
  enabled : sm.cfg.portalEnabled = true
  auto : sm.st.portalForce = .auto
  offline : sm.st.state ≠ .connected
  alone : ¬(sm.otherNetUp = true ∧ sm.cfg.portalOnline = false)
  closed : sm.st.portalActive = false
  networks : sm.cfg.netCount ≠ 0
  station : sm.cfg.staEnabled = true
  early : ahead now (portalDeadline sm) < 0

-- Raising the portal is not barred by an association under way.
def MayRaise (sm : Machine) : Prop :=
  sm.connectInFlight = false ∨ sm.cfg.netCount = 0 ∨ sm.cfg.staEnabled = false

-- What the policy comes down to.
inductive PolicyCase (port : Port) (sm : Machine) : Machine → Prop where
  | down (hw : ¬Waits port.now sm) : PolicyCase port sm (portalDown sm)
  | defer (hw : ¬Waits port.now sm) : PolicyCase port sm (setPortalDue sm 0)
  | up (hw : ¬Waits port.now sm) (hmay : MayRaise sm) : PolicyCase port sm (portalUp port sm)
  | keep (hw : ¬Waits port.now sm) (hactive : sm.st.portalActive = true) : PolicyCase port sm sm
  | schedule (hw : Waits port.now sm) :
      PolicyCase port sm (setPortalDue sm (moved (portalDeadline sm)))

theorem portalPolicy_cases : PolicyCase port sm (portalPolicy port sm) := by
  unfold portalPolicy
  split_ifs with henabled hdown hup hflight hconn hother hactive hidle hpast hflight
  · exact .down fun w => by simp [w.enabled] at henabled
  · exact .down fun w => by simp [w.auto] at hdown
  · exact .defer fun w => by simp [w.auto] at hup
  · exact .up (fun w => by simp [w.auto] at hup) (.inl (by simpa using hflight))
  · exact .down fun w => w.offline hconn
  · exact .down fun w => w.alone (by simpa using hother)
  · exact .keep (fun w => by simp [w.closed] at hactive) hactive
  · exact .up (fun w => by simp [w.networks, w.station] at hidle) (.inr (by simpa using hidle))
  · exact .defer fun w => absurd w.early (not_lt.mpr hpast)
  · exact .up (fun w => absurd w.early (not_lt.mpr hpast)) (.inl (by simpa using hflight))
  · have hauto : sm.st.portalForce = .auto := by
      cases hforce : sm.st.portalForce
      · rfl
      · exact absurd hforce hup
      · exact absurd hforce hdown
    simp only [Bool.or_eq_true, decide_eq_true_eq, Bool.not_eq_true', not_or] at hidle
    exact .schedule ⟨by simpa using henabled, hauto, hconn, by simpa using hother,
      by simpa using hactive, hidle.1, by simpa using hidle.2, not_le.mp hpast⟩

section Frame

variable (port : Port) (sm : Machine)

theorem portalUp_eq : ∃ active clients calls,
    portalUp port sm = withPortal sm active clients 0 calls := by
  unfold portalUp
  by_cases hclosed : (!sm.st.portalActive && sm.cfg.portalEnabled) = true
  · by_cases hup : port.portalStart sm.calls = true
    · simp only [hclosed, hup, if_true]
      exact ⟨_, _, _, rfl⟩
    · simp only [hclosed, hup, if_true]
      exact ⟨_, _, _, rfl⟩
  · simp only [hclosed]
    exact ⟨_, _, _, rfl⟩

theorem portalDown_eq : ∃ clients calls,
    portalDown sm = withPortal sm false clients 0 calls := by
  unfold portalDown
  by_cases hactive : sm.st.portalActive = true
  · simp only [hactive, if_true]
    exact ⟨_, _, rfl⟩
  · have hactive : sm.st.portalActive = false := by simpa using hactive
    refine ⟨sm.st.portalClients, sm.calls, ?_⟩
    rw [if_neg (by simp [hactive]), ← hactive]
    rfl

theorem portalOnly_policy : PortalOnly sm (portalPolicy port sm) := by
  have hup : PortalOnly sm (portalUp port sm) := by
    obtain ⟨active, clients, calls, h⟩ := portalUp_eq port sm
    exact ⟨active, clients, 0, calls, h⟩
  have hdown : PortalOnly sm (portalDown sm) := by
    obtain ⟨clients, calls, h⟩ := portalDown_eq sm
    exact ⟨false, clients, 0, calls, h⟩
  have hset (ms : UInt32) : PortalOnly sm (setPortalDue sm ms) :=
    ⟨sm.st.portalActive, sm.st.portalClients, ms, sm.calls, rfl⟩
  have hself : PortalOnly sm sm :=
    ⟨sm.st.portalActive, sm.st.portalClients, sm.portalDueMs, sm.calls, rfl⟩
  generalize hpolicy : portalPolicy port sm = sm'
  have hcase : PolicyCase port sm sm' := hpolicy ▸ portalPolicy_cases
  cases hcase with
  | down => exact hdown
  | defer => exact hset _
  | up => exact hup
  | keep => exact hself
  | schedule => exact hset _

@[simp] theorem portalPolicy_cfg : (portalPolicy port sm).cfg = sm.cfg := by
  obtain ⟨_, _, _, _, h⟩ := portalOnly_policy port sm
  rw [h]; rfl

@[simp] theorem portalPolicy_started : (portalPolicy port sm).started = sm.started := by
  obtain ⟨_, _, _, _, h⟩ := portalOnly_policy port sm
  rw [h]; rfl

@[simp] theorem portalPolicy_state : (portalPolicy port sm).st.state = sm.st.state := by
  obtain ⟨_, _, _, _, h⟩ := portalOnly_policy port sm
  rw [h]; rfl

@[simp] theorem portalPolicy_netIndex : (portalPolicy port sm).st.netIndex = sm.st.netIndex := by
  obtain ⟨_, _, _, _, h⟩ := portalOnly_policy port sm
  rw [h]; rfl

@[simp] theorem portalPolicy_backoffUntilMs :
    (portalPolicy port sm).st.backoffUntilMs = sm.st.backoffUntilMs := by
  obtain ⟨_, _, _, _, h⟩ := portalOnly_policy port sm
  rw [h]; rfl

@[simp] theorem portalPolicy_portalForce :
    (portalPolicy port sm).st.portalForce = sm.st.portalForce := by
  obtain ⟨_, _, _, _, h⟩ := portalOnly_policy port sm
  rw [h]; rfl

@[simp] theorem portalPolicy_otherNetUp :
    (portalPolicy port sm).otherNetUp = sm.otherNetUp := by
  obtain ⟨_, _, _, _, h⟩ := portalOnly_policy port sm
  rw [h]; rfl

@[simp] theorem portalPolicy_connectInFlight :
    (portalPolicy port sm).connectInFlight = sm.connectInFlight := by
  obtain ⟨_, _, _, _, h⟩ := portalOnly_policy port sm
  rw [h]; rfl

@[simp] theorem portalPolicy_stateDueMs :
    (portalPolicy port sm).stateDueMs = sm.stateDueMs := by
  obtain ⟨_, _, _, _, h⟩ := portalOnly_policy port sm
  rw [h]; rfl

@[simp] theorem portalPolicy_timerDueMs :
    (portalPolicy port sm).timerDueMs = sm.timerDueMs := by
  obtain ⟨_, _, _, _, h⟩ := portalOnly_policy port sm
  rw [h]; rfl

@[simp] theorem portalPolicy_timerIsPortal :
    (portalPolicy port sm).timerIsPortal = sm.timerIsPortal := by
  obtain ⟨_, _, _, _, h⟩ := portalOnly_policy port sm
  rw [h]; rfl

end Frame

-- The portal has no business being up.
def Refused (sm : Machine) : Prop :=
  sm.cfg.portalEnabled = false ∨ sm.st.portalForce = .down ∨
    (sm.st.portalForce = .auto ∧
      (sm.st.state = .connected ∨ (sm.otherNetUp = true ∧ sm.cfg.portalOnline = false)))

-- A portal that is up is not scheduled any more.
def Unscheduled (sm : Machine) : Prop :=
  sm.st.portalActive = true → sm.portalDueMs = 0

@[simp] theorem portalUp_portalDueMs : (portalUp port sm).portalDueMs = 0 := by
  obtain ⟨_, _, _, h⟩ := portalUp_eq port sm
  rw [h]; rfl

@[simp] theorem portalDown_portalDueMs : (portalDown sm).portalDueMs = 0 := by
  obtain ⟨_, _, h⟩ := portalDown_eq sm
  rw [h]; rfl

@[simp] theorem portalDown_portalActive : (portalDown sm).st.portalActive = false := by
  obtain ⟨_, _, h⟩ := portalDown_eq sm
  rw [h]; rfl

theorem portalPolicy_of_waits (hw : Waits port.now sm) :
    portalPolicy port sm = setPortalDue sm (moved (portalDeadline sm)) := by
  generalize hpolicy : portalPolicy port sm = sm'
  have hcase : PolicyCase port sm sm' := hpolicy ▸ portalPolicy_cases
  cases hcase with
  | schedule => rfl
  | down hno | defer hno | up hno | keep hno => exact absurd hw hno

theorem portalPolicy_of_not_waits (hu : Unscheduled sm) (hw : ¬Waits port.now sm) :
    (portalPolicy port sm).portalDueMs = 0 := by
  generalize hpolicy : portalPolicy port sm = sm'
  have hcase : PolicyCase port sm sm' := hpolicy ▸ portalPolicy_cases
  cases hcase with
  | down => exact portalDown_portalDueMs
  | defer => rfl
  | up => exact portalUp_portalDueMs
  | keep _ hactive => exact hu hactive
  | schedule hyes => exact absurd hyes hw

-- What the policy asks the port for: nothing, one start or one stop.
inductive PortalStep (port : Port) (sm sm' : Machine) : Prop where
  | same (hactive : sm'.st.portalActive = sm.st.portalActive) (hcalls : sm'.calls = sm.calls)
  | start (up : Bool) (hup : up = port.portalStart sm.calls) (hmay : MayRaise sm)
      (hclosed : sm.st.portalActive = false) (hactive : sm'.st.portalActive = up)
      (hcalls : sm'.calls = .portalStart up :: sm.calls)
  | stop (hopen : sm.st.portalActive = true) (hactive : sm'.st.portalActive = false)
      (hcalls : sm'.calls = .portalStop :: sm.calls)

theorem portalStep_up (hmay : MayRaise sm) : PortalStep port sm (portalUp port sm) := by
  unfold portalUp
  by_cases hclosed : (!sm.st.portalActive && sm.cfg.portalEnabled) = true
  · have hactive : sm.st.portalActive = false := by
      simp only [Bool.and_eq_true, Bool.not_eq_true'] at hclosed
      exact hclosed.1
    rw [if_pos hclosed]
    refine .start (port.portalStart sm.calls) rfl hmay hactive ?_ ?_
    · cases hup : port.portalStart sm.calls <;> simp [setPortalDue, setPortal, call, hactive]
    · cases hup : port.portalStart sm.calls <;> simp [setPortalDue, setPortal, call]
  · rw [if_neg hclosed]
    exact .same rfl rfl

theorem portalStep_down : PortalStep port sm (portalDown sm) := by
  unfold portalDown
  by_cases hactive : sm.st.portalActive = true
  · rw [if_pos hactive]
    exact .stop hactive rfl rfl
  · rw [if_neg hactive]
    exact .same rfl rfl

theorem portalStep_policy : PortalStep port sm (portalPolicy port sm) := by
  generalize hpolicy : portalPolicy port sm = sm'
  have hcase : PolicyCase port sm sm' := hpolicy ▸ portalPolicy_cases
  cases hcase with
  | down => exact portalStep_down
  | defer => exact .same rfl rfl
  | up _ hmay => exact portalStep_up hmay
  | keep => exact .same rfl rfl
  | schedule => exact .same rfl rfl

theorem PortalStep.mem_calls {sm' : Machine} {c : Call} (h : PortalStep port sm sm')
    (hc : c ∈ sm.calls) : c ∈ sm'.calls := by
  cases h with
  | same _ hcalls => rwa [hcalls]
  | start up _ _ _ _ hcalls => rw [hcalls]; exact List.mem_cons_of_mem _ hc
  | stop _ _ hcalls => rw [hcalls]; exact List.mem_cons_of_mem _ hc

-- What holds right after the portal policy has run.
structure Decided (now : UInt32) (sm : Machine) : Prop where
  refused : Refused sm → sm.st.portalActive = false
  unscheduled : Unscheduled sm
  future : sm.portalDueMs ≠ 0 → Future now sm.portalDueMs

theorem portalPolicy_refused (h : Refused sm) : (portalPolicy port sm).st.portalActive = false := by
  by_cases henabled : sm.cfg.portalEnabled = true
  swap
  · simp [portalPolicy, henabled]
  obtain hoff | hdown | ⟨hauto, hconn | ⟨hother, honline⟩⟩ := h
  · simp [henabled] at hoff
  · simp [portalPolicy, henabled, hdown]
  · simp [portalPolicy, henabled, hauto, hconn]
  · by_cases hconn : sm.st.state = .connected
    · simp [portalPolicy, henabled, hauto, hconn]
    · simp [portalPolicy, henabled, hauto, hconn, hother, honline]

theorem Decided.of_policy (hu : Unscheduled sm) : Decided port.now (portalPolicy port sm) := by
  have hrefused : Refused (portalPolicy port sm) →
      (portalPolicy port sm).st.portalActive = false := by
    intro h
    exact portalPolicy_refused (by simpa [Refused] using h)
  by_cases hw : Waits port.now sm
  · refine ⟨hrefused, ?_, ?_⟩
    · intro hactive
      simp [portalPolicy_of_waits hw, setPortalDue, hw.closed] at hactive
    · intro _
      rw [portalPolicy_of_waits hw]
      exact ⟨_, rfl, hw.early⟩
  · have hdue := portalPolicy_of_not_waits hu hw
    exact ⟨hrefused, fun _ => hdue, fun h => absurd hdue h⟩

end Espos.Wifi
