import Espos.Lib.Run
import Espos.Wifi.Policy

-- One round through the networks: how an attempt can end, and what holds of the
-- machine afterwards.

namespace Espos.Wifi

open Espos.Clock

variable {port : Port} {sm : Machine}

-- The machine after a connect its driver has refused.
def refuseConnect (port : Port) (sm : Machine) : Machine :=
  lost (setReason (issueConnect port sm) reasonConnectTimeout) reasonConnectTimeout

section Frame

variable (port : Port) (sm : Machine)

theorem beginAttempt_eq : ∃ i, beginAttempt sm = clearLink (setState { sm with
    st := { sm.st with netIndex := i, attempt := sm.st.attempt + 1 } } .connecting) := by
  unfold beginAttempt
  split
  · exact ⟨sm.st.netIndex, rfl⟩
  · exact ⟨0, rfl⟩

@[simp] theorem beginAttempt_cfg : (beginAttempt sm).cfg = sm.cfg := by
  obtain ⟨_, h⟩ := beginAttempt_eq sm
  rw [h]; rfl

@[simp] theorem beginAttempt_state : (beginAttempt sm).st.state = .connecting := by
  obtain ⟨_, h⟩ := beginAttempt_eq sm
  rw [h]; rfl

@[simp] theorem beginAttempt_started : (beginAttempt sm).started = sm.started := by
  obtain ⟨_, h⟩ := beginAttempt_eq sm
  rw [h]; rfl

@[simp] theorem beginAttempt_portalActive :
    (beginAttempt sm).st.portalActive = sm.st.portalActive := by
  obtain ⟨_, h⟩ := beginAttempt_eq sm
  rw [h]; rfl

@[simp] theorem beginAttempt_portalDueMs : (beginAttempt sm).portalDueMs = sm.portalDueMs := by
  obtain ⟨_, h⟩ := beginAttempt_eq sm
  rw [h]; rfl

@[simp] theorem beginAttempt_calls : (beginAttempt sm).calls = sm.calls := by
  obtain ⟨_, h⟩ := beginAttempt_eq sm
  rw [h]; rfl

@[simp] theorem beginAttempt_connectInFlight :
    (beginAttempt sm).connectInFlight = sm.connectInFlight := by
  obtain ⟨_, h⟩ := beginAttempt_eq sm
  rw [h]; rfl

theorem dropStation_eq : ∃ count calls,
    dropStation sm = { sm with st := { sm.st with disconnectCount := count }, calls := calls } := by
  unfold dropStation
  dsimp only
  split_ifs <;> exact ⟨_, _, rfl⟩

end Frame

theorem beginAttempt_netIndex (h : sm.cfg.netCount ≠ 0) :
    0 ≤ (beginAttempt sm).st.netIndex ∧ (beginAttempt sm).st.netIndex < sm.cfg.netCount := by
  unfold beginAttempt
  split
  · rename_i hvalid
    simpa [clearLink, setState, indexValid] using hvalid
  · simp only [clearLink, setState, setNetIndex]
    omega

theorem beginAttempt_of_valid (h : indexValid sm.cfg sm.st.netIndex = true) :
    (beginAttempt sm).st.netIndex = sm.st.netIndex := by
  simp [beginAttempt, h, clearLink, setState]

-- What an attempt comes to.
theorem attempt_eq (h : sm.cfg.netCount ≠ 0) (again : Machine → Machine) :
    attempt port sm again =
      if accepts port (beginAttempt sm) then associate port (issueConnect port (beginAttempt sm))
      else if indexValid sm.cfg ((beginAttempt sm).st.netIndex + 1) then
        again (nextNet port (refuseConnect port (beginAttempt sm)))
      else backOff port (refuseConnect port (beginAttempt sm)) := by
  by_cases haccepts : accepts port (beginAttempt sm) = true
  · simp [attempt, h, haccepts]
  · have haccepts : accepts port (beginAttempt sm) = false := by simpa using haccepts
    simp [attempt, h, haccepts, onStaDisconnected, attemptFailed, refuseConnect, setReason,
      issueConnect, call, lost, setInFlight, State.associating]

-- The attempt that follows a refusal is made with the next network.
theorem beginAttempt_nextNet (hindex : 0 ≤ (beginAttempt sm).st.netIndex)
    (hlt : (beginAttempt sm).st.netIndex + 1 < sm.cfg.netCount) :
    (beginAttempt (nextNet port (refuseConnect port (beginAttempt sm)))).st.netIndex =
      (beginAttempt sm).st.netIndex + 1 := by
  rw [beginAttempt_of_valid]
  · simp [nextNet, setInFlight, setNetIndex, refuseConnect, lost, setReason, issueConnect, call]
  · simp [indexValid, nextNet, setInFlight, setNetIndex, refuseConnect, lost, setReason,
      issueConnect, call]
    omega

-- The rule for whatever a cycle of attempts leads to: what holds when it starts
-- is kept from one network to the next, and each of its three ends gives `P`.
theorem attempts_rule {R P : Machine → Prop}
    (hempty : ∀ sm, R sm → sm.cfg.netCount = 0 → P (unconfigure port sm))
    (haccept : ∀ sm, R sm → sm.cfg.netCount ≠ 0 → accepts port (beginAttempt sm) = true →
      P (associate port (issueConnect port (beginAttempt sm))))
    (hback : ∀ sm, R sm → sm.cfg.netCount ≠ 0 → accepts port (beginAttempt sm) = false →
      sm.cfg.netCount ≤ (beginAttempt sm).st.netIndex + 1 →
      P (backOff port (refuseConnect port (beginAttempt sm))))
    (hnext : ∀ sm, R sm → sm.cfg.netCount ≠ 0 → accepts port (beginAttempt sm) = false →
      (beginAttempt sm).st.netIndex + 1 < sm.cfg.netCount →
      R (nextNet port (refuseConnect port (beginAttempt sm))))
    (n : Nat) (hr : R sm)
    (hn : (sm.cfg.netCount : Int) ≤ (beginAttempt sm).st.netIndex + n + 1) :
    P (attempts port n sm) := by
  have hbody (again : Machine → Machine) (sm : Machine) (hr : R sm)
      (hagain : sm.cfg.netCount ≠ 0 → accepts port (beginAttempt sm) = false →
        (beginAttempt sm).st.netIndex + 1 < sm.cfg.netCount →
        P (again (nextNet port (refuseConnect port (beginAttempt sm))))) :
      P (attempt port sm again) := by
    by_cases hcount : sm.cfg.netCount = 0
    · simpa [attempt, hcount] using hempty sm hr hcount
    have hindex := beginAttempt_netIndex hcount
    rw [attempt_eq hcount]
    by_cases haccepts : accepts port (beginAttempt sm) = true
    · rw [if_pos haccepts]
      exact haccept sm hr hcount haccepts
    rw [if_neg haccepts]
    have haccepts : accepts port (beginAttempt sm) = false := by simpa using haccepts
    by_cases hvalid : indexValid sm.cfg ((beginAttempt sm).st.netIndex + 1) = true
    · rw [if_pos hvalid]
      simp only [indexValid, Bool.and_eq_true, decide_eq_true_eq] at hvalid
      exact hagain hcount haccepts hvalid.2
    · rw [if_neg hvalid]
      simp only [indexValid, Bool.and_eq_true, decide_eq_true_eq] at hvalid
      exact hback sm hr hcount haccepts (by omega)
  induction n generalizing sm with
  | zero =>
    refine hbody id sm hr fun hcount _ hlt => ?_
    omega
  | succ n ih =>
    refine hbody (attempts port n) sm hr fun hcount haccepts hlt => ?_
    refine ih (hnext sm hr hcount haccepts hlt) ?_
    rw [beginAttempt_nextNet (beginAttempt_netIndex hcount).1 hlt]
    simp [nextNet, setInFlight, setNetIndex, refuseConnect, lost, setReason, issueConnect, call]
    omega

theorem startAttempt_rule {R P : Machine → Prop}
    (hempty : ∀ sm, R sm → sm.cfg.netCount = 0 → P (unconfigure port sm))
    (haccept : ∀ sm, R sm → sm.cfg.netCount ≠ 0 → accepts port (beginAttempt sm) = true →
      P (associate port (issueConnect port (beginAttempt sm))))
    (hback : ∀ sm, R sm → sm.cfg.netCount ≠ 0 → accepts port (beginAttempt sm) = false →
      sm.cfg.netCount ≤ (beginAttempt sm).st.netIndex + 1 →
      P (backOff port (refuseConnect port (beginAttempt sm))))
    (hnext : ∀ sm, R sm → sm.cfg.netCount ≠ 0 → accepts port (beginAttempt sm) = false →
      (beginAttempt sm).st.netIndex + 1 < sm.cfg.netCount →
      R (nextNet port (refuseConnect port (beginAttempt sm))))
    (hr : R sm) : P (startAttempt port sm) := by
  refine attempts_rule hempty haccept hback hnext sm.cfg.netCount hr ?_
  have hindex : 0 ≤ (beginAttempt sm).st.netIndex := by
    unfold beginAttempt
    split
    · rename_i hvalid
      simp only [indexValid, Bool.and_eq_true, decide_eq_true_eq] at hvalid
      exact hvalid.1
    · exact le_refl _
  omega

end Espos.Wifi

namespace Espos.Wifi

open Espos.Clock Espos.Run

-- A state that only a timeout or an event of the driver ends.
def State.waiting : State → Bool
  | .connecting | .obtainingIp | .backoff => true
  | .disabled | .unconfigured | .connected => false

-- The station is in use.
def State.trying : State → Bool
  | .connecting | .obtainingIp | .backoff | .connected => true
  | .disabled | .unconfigured => false

-- What an event keeps that leaves the portal as it is.
structure Steady (sm : Machine) : Prop where
  stopped : sm.started = false →
    sm.st.state = .disabled ∧ sm.st.portalActive = false ∧ sm.portalDueMs = 0
  trying : sm.st.state.trying = true → sm.cfg.staEnabled = true ∧ sm.cfg.netCount ≠ 0
  resting : sm.started = true → sm.st.state.trying = false →
    ¬(sm.cfg.staEnabled = true ∧ sm.cfg.netCount ≠ 0)
  waiting : sm.st.state.waiting = true → sm.stateDueMs ≠ 0 ∧ sm.timerDueMs ≠ 0
  still : sm.st.state.waiting = false →
    sm.stateDueMs = 0 ∧ (sm.timerDueMs ≠ 0 → sm.timerIsPortal = true)
  inFlight : sm.started = true → sm.connectInFlight = true → sm.st.state = .connecting
  backoff : sm.st.state = .backoff → sm.stateDueMs = moved sm.st.backoffUntilMs
  unscheduled : Unscheduled sm

-- What holds after every event.
structure Sound (sm : Machine) : Prop extends Steady sm where
  refused : Refused sm → sm.st.portalActive = false

variable {port : Port} {sm : Machine}

attribute [local simp] setState setPortal setPortalDue setInFlight setNetIndex setReason lost call
  issueConnect clearLink countDisconnect setDisconnectedSince

theorem sound_init (cfg : Cfg) : Sound (init cfg) := by
  refine ⟨?_, fun _ => rfl⟩
  constructor <;> simp [init, State.trying, State.waiting, Unscheduled]

theorem State.trying_of_waiting {s : State} (h : s.waiting = true) : s.trying = true := by
  cases s <;> simp_all [State.waiting, State.trying]

section Endings

-- The policy has run and the timer is armed next.
structure Closing (now : UInt32) (sm : Machine) : Prop extends Decided now sm where
  started : sm.started = true
  inFlight : sm.connectInFlight = true → sm.st.state = .connecting

theorem Closing.of_policy (hu : Unscheduled sm) (hs : sm.started = true)
    (hf : sm.connectInFlight = true → sm.st.state = .connecting) :
    Closing port.now (portalPolicy port sm) :=
  { Decided.of_policy hu with
    started := by simpa using hs
    inFlight := by simpa using hf }

-- A state with a timeout of its own.
structure Timed (sm : Machine) : Prop where
  waiting : sm.st.state.waiting = true
  cfg : sm.cfg.staEnabled = true ∧ sm.cfg.netCount ≠ 0

def withTimer (sm : Machine) (isDhcp isPortal : Bool) (due timer : UInt32) (calls : List Call) :
    Machine :=
  { sm with
    timerIsDhcp := isDhcp
    timerIsPortal := isPortal
    stateDueMs := due
    timerDueMs := timer
    calls := calls }

theorem Sound.withTimer {isDhcp isPortal : Bool} {due timer : UInt32} {calls : List Call}
    (h : Closing port.now sm) (ht : Timed sm) (hdue : due ≠ 0) (htimer : timer ≠ 0)
    (hb : sm.st.state = .backoff → due = moved sm.st.backoffUntilMs) :
    Sound (withTimer sm isDhcp isPortal due timer calls) where
  stopped := by simp [Wifi.withTimer, h.started]
  trying := fun _ => ht.cfg
  resting := by
    intro _ hrest
    have hrest : sm.st.state.trying = false := hrest
    simp [State.trying_of_waiting ht.waiting] at hrest
  waiting := fun _ => ⟨hdue, htimer⟩
  still := by
    intro hstill
    have hstill : sm.st.state.waiting = false := hstill
    simp [ht.waiting] at hstill
  inFlight := fun _ => h.inFlight
  backoff := hb
  refused := h.refused
  unscheduled := h.unscheduled

theorem Sound.of_arm {ms : UInt32} {isDhcp : Bool} (h : Closing port.now sm) (ht : Timed sm)
    (hb : sm.st.state = .backoff → sm.st.backoffUntilMs = port.now + ms) :
    Sound (notify (arm port sm ms isDhcp)) := by
  change Sound (Wifi.withTimer sm _ _ _ _ _)
  refine Sound.withTimer h ht (due_ne_zero _ _) (due_ne_zero _ _) fun hback => ?_
  rw [hb hback]
  rfl

theorem Sound.of_rearmState (h : Closing port.now sm) (ht : Timed sm) (hdue : sm.stateDueMs ≠ 0)
    (hb : sm.st.state = .backoff → sm.stateDueMs = moved sm.st.backoffUntilMs) :
    Sound (notify (rearmState port sm)) := by
  rw [rearmState, if_neg hdue]
  change Sound (Wifi.withTimer sm _ _ _ _ _)
  exact Sound.withTimer h ht hdue (due_ne_zero _ _) hb

theorem Sound.of_armPortalOnly (h : Closing port.now sm) (hw : sm.st.state.waiting = false)
    (ht : sm.st.state.trying = true → sm.cfg.staEnabled = true ∧ sm.cfg.netCount ≠ 0)
    (hr : sm.st.state.trying = false → ¬(sm.cfg.staEnabled = true ∧ sm.cfg.netCount ≠ 0)) :
    Sound (notify (armPortalOnly port sm)) := by
  have hback : sm.st.state ≠ .backoff := by
    intro hstate
    simp [hstate, State.waiting] at hw
  have hrefused := h.refused
  have hunscheduled := h.unscheduled
  unfold armPortalOnly
  split
  · refine ⟨?_, hrefused⟩
    constructor <;> simp_all [notify, call, h.started, h.inFlight]
    exact hunscheduled
  · refine ⟨?_, hrefused⟩
    constructor <;> simp_all [notify, call, h.started, h.inFlight]
    exact fun _ => rfl

-- What the events end with that run the policy outside of a transition.
theorem Sound.of_rearm (h : Closing port.now sm) (hs : Steady sm) :
    Sound (notify (rearmAfterPolicy port sm)) := by
  unfold rearmAfterPolicy
  by_cases hw : sm.st.state.waiting = true
  · have hdue := (hs.waiting hw).1
    rw [if_pos hdue]
    exact Sound.of_rearmState h ⟨hw, hs.trying (State.trying_of_waiting hw)⟩ hdue hs.backoff
  · have hw : sm.st.state.waiting = false := by simpa using hw
    rw [if_neg (not_not.mpr (hs.still hw).1)]
    exact Sound.of_armPortalOnly h hw hs.trying (hs.resting h.started)

theorem Steady.policy (hs : Steady sm) (hstarted : sm.started = true) :
    Sound (portalPolicy port sm) := by
  have hd : Decided port.now (portalPolicy port sm) := .of_policy hs.unscheduled
  refine ⟨⟨?_, ?_, ?_, ?_, ?_, ?_, ?_, hd.unscheduled⟩, hd.refused⟩
  · simp [hstarted]
  · simpa using hs.trying
  · simpa using hs.resting
  · simpa using hs.waiting
  · simpa using hs.still
  · simpa using hs.inFlight
  · simpa using hs.backoff

theorem Sound.notify (h : Sound sm) : Sound (notify sm) :=
  ⟨⟨h.stopped, h.trying, h.resting, h.waiting, h.still, h.inFlight, h.backoff, h.unscheduled⟩,
    h.refused⟩

end Endings

-- What a cycle of attempts starts from.
structure Ready (sm : Machine) : Prop where
  started : sm.started = true
  enabled : sm.cfg.staEnabled = true
  unscheduled : Unscheduled sm

theorem Sound.of_backOff (h : Ready sm) (hf : sm.connectInFlight = false)
    (hcount : sm.cfg.netCount ≠ 0) : Sound (backOff port sm) := by
  unfold backOff
  refine Sound.of_arm (Closing.of_policy h.unscheduled h.started ?_) ⟨?_, ?_⟩ ?_
  · simp [hf]
  · simp [State.waiting]
  · simpa using ⟨h.enabled, hcount⟩
  · simp

theorem Ready.nextNet (h : Ready sm) : Ready (nextNet port sm) := by
  have hd : Decided port.now (Wifi.nextNet port sm) := .of_policy h.unscheduled
  exact ⟨by simpa [Wifi.nextNet] using h.started, by simpa [Wifi.nextNet] using h.enabled,
    hd.unscheduled⟩

theorem Ready.refuseConnect (h : Ready sm) : Ready (refuseConnect port (beginAttempt sm)) := by
  refine ⟨?_, ?_, ?_⟩
  · simpa [Wifi.refuseConnect] using h.started
  · simpa [Wifi.refuseConnect] using h.enabled
  · simpa [Wifi.refuseConnect, Unscheduled]
      using h.unscheduled

theorem sound_startAttempt (h : Ready sm) : Sound (startAttempt port sm) := by
  refine startAttempt_rule (R := Ready) ?_ ?_ ?_ ?_ h
  · intro sm h hcount
    unfold unconfigure
    refine Sound.of_armPortalOnly (Closing.of_policy h.unscheduled h.started ?_) ?_ ?_ ?_
    · simp
    · simp [State.waiting]
    · simp [State.trying]
    · simp [hcount]
  · intro sm h hcount _
    unfold associate
    refine Sound.of_arm (Closing.of_policy ?_ ?_ ?_) ⟨?_, ?_⟩ ?_
    · simpa [Unscheduled] using h.unscheduled
    · simpa using h.started
    · simp
    · simp [State.waiting]
    · simpa using ⟨h.enabled, hcount⟩
    · simp
  · intro sm h hcount _ _
    refine Sound.of_backOff h.refuseConnect rfl ?_
    simpa [Wifi.refuseConnect] using hcount
  · intro sm h _ _ _
    exact h.refuseConnect.nextNet

theorem sound_attemptFailed {reason : Int} (h : Ready sm) (hcount : sm.cfg.netCount ≠ 0) :
    Sound (attemptFailed port sm (startAttempt port) reason) := by
  have hlost : Ready (lost sm reason) := ⟨h.started, h.enabled, h.unscheduled⟩
  unfold attemptFailed
  dsimp only
  split_ifs
  · exact sound_startAttempt ⟨h.started, h.enabled, h.unscheduled⟩
  · exact sound_startAttempt hlost.nextNet
  · exact Sound.of_backOff hlost rfl hcount

theorem sound_goIdle {s : State} {reason : Int} (hstarted : sm.started = true)
    (hu : Unscheduled sm) (hs : s.trying = false)
    (hr : ¬(sm.cfg.staEnabled = true ∧ sm.cfg.netCount ≠ 0)) :
    Sound (goIdle port sm s reason) := by
  obtain ⟨count, calls, hdrop⟩ := dropStation_eq sm
  have hwait : s.waiting = false := by
    cases s <;> simp_all [State.waiting, State.trying]
  unfold goIdle
  rw [hdrop]
  refine Sound.of_armPortalOnly (Closing.of_policy hu hstarted ?_) ?_ ?_ ?_
  · simp
  · simpa using hwait
  · simp [hs]
  · intro _
    simpa using hr

end Espos.Wifi
