import Espos.Wifi.Sound

namespace Espos.Wifi

open Espos.Clock Espos.Run Espos.Text

variable {port : Port} {sm : Machine}

attribute [local simp] setState setPortal setPortalDue setInFlight setNetIndex setReason lost call
  clearLink countDisconnect setDisconnectedSince setCfg

theorem Sound.started_of_trying (h : Sound sm) (ht : sm.st.state.trying = true) :
    sm.started = true := by
  by_contra hstopped
  have hstate := (h.stopped (by simpa using hstopped)).1
  simp [hstate, State.trying] at ht

theorem Sound.ready (h : Sound sm) (ht : sm.st.state.trying = true) : Ready sm :=
  ⟨h.started_of_trying ht, (h.trying ht).1, h.unscheduled⟩

theorem Steady.sound_of_stopped (h : Steady sm) (hstopped : sm.started = false) : Sound sm :=
  ⟨h, fun _ => (h.stopped hstopped).2.1⟩

theorem sound_onStart (h : Sound sm) : Sound (onStart port sm) := by
  unfold onStart
  by_cases hstarted : sm.started = true
  · rw [if_pos hstarted]
    exact h
  rw [if_neg hstarted]
  dsimp only
  by_cases henabled : sm.cfg.staEnabled = true
  · rw [if_neg (by simp [henabled])]
    exact sound_startAttempt ⟨rfl, henabled, h.unscheduled⟩
  · rw [if_pos (by simp [henabled])]
    refine sound_goIdle rfl h.unscheduled rfl fun hcfg => ?_
    exact henabled hcfg.1

theorem sound_onStop (h : Sound sm) : Sound (onStop sm) := by
  unfold onStop
  by_cases hstopped : (!sm.started) = true
  · rw [if_pos hstopped]
    exact h
  rw [if_neg hstopped]
  dsimp only
  obtain ⟨clients, calls, hdown⟩ :=
    portalDown_eq (call { sm with timerDueMs := 0, stateDueMs := 0 } .cancelTimer)
  rw [hdown]
  split
  all_goals
    refine Sound.notify (Steady.sound_of_stopped ?_ rfl)
    constructor <;> simp [State.trying, State.waiting, Unscheduled, withPortal]

theorem netCount_of_netsEqual {a b : Cfg} (h : netsEqual a b = true) :
    a.netCount = b.netCount := by
  simp only [netsEqual, Bool.and_eq_true, beq_iff_eq] at h
  exact h.1

theorem sound_onKnobs {ncfg : Cfg} (h : Sound sm) (hnets : ncfg.netCount = sm.cfg.netCount)
    (hsta : ncfg.staEnabled = sm.cfg.staEnabled) : Sound (onKnobs port sm ncfg) := by
  have hs : Steady (setCfg sm ncfg) := by
    refine ⟨h.stopped, ?_, ?_, h.waiting, h.still, h.inFlight, h.backoff, h.unscheduled⟩
    · simpa [hnets, hsta] using h.trying
    · simpa [hnets, hsta] using h.resting
  unfold onKnobs
  dsimp only
  by_cases hstarted : sm.started = true
  · have hsound : Sound (portalPolicy port (setCfg sm ncfg)) := hs.policy hstarted
    have hc : Closing port.now (portalPolicy port (setCfg sm ncfg)) :=
      .of_policy hs.unscheduled hstarted (hs.inFlight hstarted)
    rw [if_pos (by simpa using hstarted)]
    split_ifs with hidle
    · have hrest : (portalPolicy port (setCfg sm ncfg)).st.state.trying = false ∧
          (portalPolicy port (setCfg sm ncfg)).st.state.waiting = false := by
        rw [portalPolicy_state] at hidle ⊢
        obtain hidle | hidle := hidle <;> rw [hidle] <;> exact ⟨rfl, rfl⟩
      refine Sound.of_armPortalOnly hc hrest.2 hsound.trying (hsound.resting hc.started)
    · exact hsound.notify
  · rw [if_neg (by simpa using hstarted)]
    exact hs.sound_of_stopped (by simpa using hstarted)

-- A network found in the new list makes it a list with a network.
theorem netCount_of_stillValid {ncfg : Cfg} {i : Nat}
    (h : currentNetStillValid sm ncfg = some i) : ncfg.netCount ≠ 0 := by
  intro hzero
  simp [currentNetStillValid, Cfg.used, hzero] at h

theorem leaveForConfig_eq (port : Port) (sm : Machine) : ∃ count since calls,
    leaveForConfig port sm = { sm with
      st := { sm.st with disconnectCount := count, disconnectedSinceMs := since }
      calls := calls } := by
  unfold leaveForConfig
  dsimp only
  split_ifs <;> exact ⟨_, _, _, rfl⟩

theorem State.trying_of_associating {s : State} (h : s.associating = true) : s.trying = true := by
  cases s <;> simp_all [State.associating, State.trying]

theorem sound_onConfig {ncfg : Cfg} (h : Sound sm) : Sound (onConfig port sm ncfg) := by
  unfold onConfig
  by_cases hsame : ncfg = sm.cfg
  · rw [if_pos hsame]
    exact h
  rw [if_neg hsame]
  by_cases hknobs : (netsEqual ncfg sm.cfg && ncfg.staEnabled == sm.cfg.staEnabled) = true
  · rw [if_pos hknobs]
    simp only [Bool.and_eq_true, beq_iff_eq] at hknobs
    exact sound_onKnobs h (netCount_of_netsEqual hknobs.1) hknobs.2
  rw [if_neg hknobs]
  dsimp only
  by_cases hstarted : sm.started = true
  swap
  · rw [if_pos (by simpa using hstarted)]
    have hstopped : sm.started = false := by simpa using hstarted
    have hstate := (h.stopped hstopped).1
    refine Steady.sound_of_stopped ?_ hstopped
    refine ⟨h.stopped, ?_, ?_, h.waiting, h.still, h.inFlight, h.backoff, h.unscheduled⟩
    · simp [hstate, State.trying]
    · simp [hstopped]
  rw [if_neg (by simpa using hstarted)]
  cases hkeep : keepIndex sm ncfg with
  | some i =>
    simp only [keepIndex] at hkeep
    split_ifs at hkeep with hcan
    simp only [Bool.and_eq_true, Bool.or_eq_true, beq_iff_eq] at hcan
    have ht : sm.st.state.trying = true := by
      obtain hstate | hstate := hcan.2 <;> simp [hstate, State.trying]
    have hcount : ncfg.netCount ≠ 0 := netCount_of_stillValid hkeep
    refine Sound.notify (Steady.policy ?_ hstarted)
    refine ⟨h.stopped, ?_, ?_, h.waiting, h.still, h.inFlight, h.backoff, h.unscheduled⟩
    · exact fun _ => ⟨hcan.1.2, hcount⟩
    · simp [ht]
  | none =>
    dsimp only
    split_ifs with hoff
    · exact sound_goIdle hstarted h.unscheduled rfl (by simp_all)
    · obtain ⟨count, since, calls, hleave⟩ := leaveForConfig_eq port
        { setCfg sm ncfg with st := { sm.st with staEnabled := ncfg.staEnabled } }
      rw [hleave]
      exact sound_startAttempt ⟨hstarted, by simpa using hoff, h.unscheduled⟩

theorem sound_onStaConnected {link : Option Link} (h : Sound sm) :
    Sound (onStaConnected port sm link) := by
  unfold onStaConnected
  split_ifs with hstate
  · exact h
  have hstate : sm.st.state = .connecting := by simpa using hstate
  have ht : sm.st.state.trying = true := by simp [hstate, State.trying]
  refine Sound.of_arm (Closing.of_policy h.unscheduled (h.started_of_trying ht) ?_) ⟨?_, ?_⟩ ?_
  · simp
  · simp [State.waiting]
  · simpa using h.trying ht
  · simp

theorem sound_onStaDisconnected {reason : Int} (h : Sound sm) :
    Sound (onStaDisconnected port sm (startAttempt port) reason) := by
  unfold onStaDisconnected
  split_ifs with hstate
  · have ht := State.trying_of_associating hstate
    exact sound_attemptFailed (h.ready ht) (h.trying ht).2
  · exact h

theorem firstIp_eq (port : Port) (sm : Machine) : ∃ st : Status,
    (st.portalActive = sm.st.portalActive) ∧ firstIp port sm = { sm with st := st } := by
  unfold firstIp
  split_ifs <;> refine ⟨_, ?_, rfl⟩ <;> rfl

theorem sound_onGotIp {ip : Option Ip} (h : Sound sm) : Sound (onGotIp port sm ip) := by
  unfold onGotIp
  split_ifs with hstate
  · exact h
  have hstate : sm.st.state.trying = true ∧ sm.st.state ≠ .connecting := by
    cases hs : sm.st.state <;> simp_all [State.trying]
  have hstarted := h.started_of_trying hstate.1
  have hflight : sm.connectInFlight = false := by
    by_contra hf
    exact hstate.2 (h.inFlight hstarted (by simpa using hf))
  obtain ⟨st, hst, hfirst⟩ := firstIp_eq port { sm with st := { sm.st with ip := ip.getD sm.st.ip } }
  dsimp only
  rw [hfirst]
  refine Sound.notify (Steady.policy ?_ hstarted)
  refine ⟨?_, fun _ => h.trying hstate.1, ?_, ?_, ?_, ?_, ?_, ?_⟩
  · simp [hstarted]
  · simp [State.trying]
  · simp [State.waiting]
  · simp
  · simp [hflight]
  · simp
  · intro hactive
    exact h.unscheduled (hst ▸ hactive)

theorem sound_onLostIp (h : Sound sm) : Sound (onLostIp port sm) := by
  unfold onLostIp
  split_ifs with hstate
  · have ht : sm.st.state.trying = true := by simp [hstate, State.trying]
    have hf : sm.connectInFlight = true → False := by
      intro hf
      have := h.inFlight (h.started_of_trying ht) hf
      simp [hstate] at this
    refine Sound.of_arm (Closing.of_policy h.unscheduled (h.started_of_trying ht) ?_) ⟨?_, ?_⟩ ?_
    · intro hf'
      exact (hf hf').elim
    · simp [State.waiting]
    · simpa using h.trying ht
    · simp
  · exact h

theorem sound_onStateTimer (h : Sound sm) (hstate : sm.timerIsPortal = false)
    (hdue : sm.timerDueMs ≠ 0) :
    Sound (onStateTimer port sm) := by
  unfold onStateTimer
  dsimp only
  cases hs : sm.st.state
  all_goals dsimp only
  case backoff =>
    have hr := h.ready (by simp [hs, State.trying])
    exact sound_startAttempt ⟨hr.started, hr.enabled, hr.unscheduled⟩
  case connecting | obtainingIp =>
    have ht : sm.st.state.trying = true := by simp [hs, State.trying]
    have hr := h.ready ht
    exact sound_attemptFailed ⟨hr.started, hr.enabled, hr.unscheduled⟩ (h.trying ht).2
  case disabled | unconfigured | connected =>
    have hstill := (h.still (by simp [hs, State.waiting])).2 hdue
    simp [hstate] at hstill

theorem sound_onPortalTimer (h : Sound sm) (hstarted : sm.started = true) :
    Sound (onPortalTimer port sm) := by
  have hc : Closing port.now (firePortalTimer port sm) :=
    .of_policy h.unscheduled hstarted (h.inFlight hstarted)
  unfold onPortalTimer firePortalTimer at *
  dsimp only
  cases hs : sm.st.state
  all_goals simp only [portalPolicy_state, hs]
  case backoff =>
    have ht : sm.st.state.trying = true := by simp [hs, State.trying]
    split_ifs with hleft
    · refine Sound.notify (sound_startAttempt ⟨hc.started, ?_, hc.unscheduled⟩)
      simpa using (h.trying ht).1
    · refine Sound.of_rearmState hc ⟨by simp [hs, State.waiting], by simpa using h.trying ht⟩ ?_ ?_
      · simpa using (h.waiting (by simp [hs, State.waiting])).1
      · simpa using h.backoff
  case connecting | obtainingIp =>
    refine Sound.of_rearmState hc ⟨by simp [hs, State.waiting], ?_⟩ ?_ ?_
    · simpa using h.trying (by simp [hs, State.trying])
    · simpa using (h.waiting (by simp [hs, State.waiting])).1
    · simpa using h.backoff
  case disabled | unconfigured | connected =>
    refine Sound.of_armPortalOnly hc (by simp [hs, State.waiting]) ?_ ?_
    · simpa using h.trying
    · simpa using h.resting hstarted

theorem sound_onTimer (h : Sound sm) : Sound (onTimer port sm) := by
  unfold onTimer
  split_ifs with hstopped hearly hportal
  · exact h
  · exact h
  · exact sound_onPortalTimer h (by simpa using hstopped)
  · simp only [not_or] at hearly
    exact sound_onStateTimer h (by simpa using hportal) hearly.1

theorem sound_onPortalClient {count : Option Int} (h : Sound sm) :
    Sound (onPortalClient sm count) :=
  ⟨⟨h.stopped, h.trying, h.resting, h.waiting, h.still, h.inFlight, h.backoff, h.unscheduled⟩,
    h.refused⟩

theorem Decided.failPortal : Decided port.now (failPortal port sm) := by
  refine ⟨fun _ => rfl, ?_, fun _ => ?_⟩
  · simp [Unscheduled, Wifi.failPortal]
  · have hms : (10000 : UInt32).toNat ≤ 2147483648 := by simp
    have hfuture : Future port.now (due port.now 10000) := future_due (by decide) hms
    simpa [Wifi.failPortal] using hfuture

theorem onPortalFailed_of_active (hactive : sm.st.portalActive = true) :
    onPortalFailed port sm = notify (rearmAfterPolicy port (failPortal port sm)) := by
  rw [onPortalFailed, if_pos hactive]
  rfl

theorem Sound.started_of_active (h : Sound sm) (hactive : sm.st.portalActive = true) :
    sm.started = true := by
  by_contra hstopped
  simp [(h.stopped (by simpa using hstopped)).2.1] at hactive

theorem sound_onPortalFailed (h : Sound sm) : Sound (onPortalFailed port sm) := by
  by_cases hactive : sm.st.portalActive = true
  · have hstarted := h.started_of_active hactive
    have hs : Steady (failPortal port sm) := by
      refine ⟨?_, h.trying, h.resting, h.waiting, h.still, h.inFlight, h.backoff, ?_⟩
      · simp [failPortal, hstarted]
      · simp [Unscheduled, failPortal]
    rw [onPortalFailed_of_active hactive]
    exact Sound.of_rearm { Decided.failPortal with
      started := hstarted, inFlight := h.inFlight hstarted } hs
  · rw [onPortalFailed, if_neg hactive]
    exact h

theorem sound_onPortalReconfig (h : Sound sm) : Sound (onPortalReconfig port sm) := by
  unfold onPortalReconfig
  split_ifs with hactive
  · have hstarted := h.started_of_active hactive
    obtain ⟨clients, calls, hdown⟩ := portalDown_eq sm
    rw [hdown]
    refine Sound.notify (Steady.policy ?_ hstarted)
    refine ⟨fun _ => ?_, h.trying, h.resting, h.waiting, h.still, h.inFlight, h.backoff, ?_⟩
    · simp_all [withPortal]
    · simp [Unscheduled, withPortal]
  · exact h

theorem sound_reevaluate (h : Steady sm) : Sound (reevaluate port sm) := by
  unfold reevaluate
  split_ifs with hstopped
  · exact h.sound_of_stopped (by simpa using hstopped)
  · have hstarted : sm.started = true := by simpa using hstopped
    have hs : Sound (portalPolicy port sm) := h.policy hstarted
    exact Sound.of_rearm (.of_policy h.unscheduled hstarted (h.inFlight hstarted)) hs.toSteady

theorem sound_event {ev : Event} (h : Sound sm) : Sound (event port sm ev) := by
  cases ev with
  | start => exact sound_onStart h
  | stop => exact sound_onStop h
  | config ncfg => exact sound_onConfig h
  | staConnected link => exact sound_onStaConnected h
  | staDisconnected reason => exact sound_onStaDisconnected h
  | gotIp ip => exact sound_onGotIp h
  | lostIp => exact sound_onLostIp h
  | timer => exact sound_onTimer h
  | portalClient count => exact sound_onPortalClient h
  | portalFailed => exact sound_onPortalFailed h
  | portalReconfig => exact sound_onPortalReconfig h
  | otherNet up =>
    simp only [event, onOtherNet]
    split_ifs
    · exact h
    · exact sound_reevaluate
        ⟨h.stopped, h.trying, h.resting, h.waiting, h.still, h.inFlight, h.backoff, h.unscheduled⟩
  | portalForce want =>
    simp only [event, onPortalForce]
    split
    · exact h
    split_ifs
    · exact h
    · exact sound_reevaluate
        ⟨h.stopped, h.trying, h.resting, h.waiting, h.still, h.inFlight, h.backoff, h.unscheduled⟩

theorem Sound.forgetCalls (h : Sound sm) : Sound (forgetCalls sm) :=
  ⟨⟨h.stopped, h.trying, h.resting, h.waiting, h.still, h.inFlight, h.backoff, h.unscheduled⟩,
    h.refused⟩

theorem sound_step (h : Sound sm) (input : Port × Event) : Sound (step sm input) :=
  sound_event h.forgetCalls

theorem sound_run (cfg : Cfg) (inputs : List (Port × Event)) : Sound (run step (init cfg) inputs) :=
  run_invariant (P := Sound) (fun _ input h => sound_step h input) (sound_init cfg) inputs

-- A connect the driver has taken, or a backoff whose end the timer is set for.
def Attempted (sm : Machine) : Prop :=
  (sm.st.state = .connecting ∧ ∃ net, Call.connect net true ∈ sm.calls) ∨
    (sm.st.state = .backoff ∧ (∃ net, Call.connect net false ∈ sm.calls) ∧
      sm.timerDueMs ≠ 0 ∧ ∃ ms, Call.armTimer ms ∈ sm.calls)

-- The machine has left the state it was waiting in.
def MovedOn (sm sm' : Machine) : Prop :=
  Attempted sm' ∨
    (sm.st.state ≠ .backoff ∧ sm'.st.state = .backoff ∧ sm'.timerDueMs ≠ 0 ∧
      ∃ ms, Call.armTimer ms ∈ sm'.calls)

theorem backOff_waits (port : Port) (sm : Machine) : (backOff port sm).st.state = .backoff ∧
    (backOff port sm).timerDueMs ≠ 0 ∧ ∃ ms, Call.armTimer ms ∈ (backOff port sm).calls := by
  refine ⟨?_, due_ne_zero _ _, ?_⟩
  · simp [backOff, notify, arm]
  · exact ⟨_, List.mem_cons_of_mem _ (List.mem_cons_self ..)⟩

theorem mem_backOff_calls {c : Call} (h : c ∈ sm.calls) : c ∈ (backOff port sm).calls := by
  refine List.mem_cons_of_mem _ (List.mem_cons_of_mem _ ?_)
  exact portalStep_policy.mem_calls h

theorem attempted_startAttempt (h : sm.cfg.netCount ≠ 0) : Attempted (startAttempt port sm) := by
  refine startAttempt_rule (R := fun sm => sm.cfg.netCount ≠ 0) ?_ ?_ ?_ ?_ h
  · intro sm h hcount
    exact absurd hcount h
  · intro sm _ _ haccepts
    refine .inl ⟨by simp [associate, notify, arm, issueConnect], currentNet (beginAttempt sm), ?_⟩
    refine List.mem_cons_of_mem _ (List.mem_cons_of_mem _ (portalStep_policy.mem_calls ?_))
    simp [issueConnect, haccepts]
  · intro sm _ _ haccepts _
    have hw := backOff_waits port (refuseConnect port (beginAttempt sm))
    refine .inr ⟨hw.1, ⟨currentNet (beginAttempt sm), mem_backOff_calls ?_⟩, hw.2⟩
    simp [refuseConnect, issueConnect, haccepts]
  · intro sm h _ _ _
    simpa [nextNet, refuseConnect, issueConnect] using h

theorem movedOn_attemptFailed {reason : Int} (hstate : sm.st.state ≠ .connected)
    (hback : sm.st.state ≠ .backoff) (hcount : sm.cfg.netCount ≠ 0) :
    MovedOn sm (attemptFailed port sm (startAttempt port) reason) := by
  unfold attemptFailed
  dsimp only
  rw [if_neg (by simpa using hstate)]
  split_ifs
  · refine .inl (attempted_startAttempt ?_)
    simpa [nextNet] using hcount
  · exact .inr ⟨hback, backOff_waits port _⟩

theorem movedOn_onStateTimer (h : Sound sm) (hw : sm.st.state.waiting = true) :
    MovedOn sm (onStateTimer port sm) := by
  have hcount := (h.trying (State.trying_of_waiting hw)).2
  unfold onStateTimer
  dsimp only
  cases hs : sm.st.state
  all_goals dsimp only
  case backoff => exact .inl (attempted_startAttempt hcount)
  case connecting | obtainingIp =>
    refine Or.imp id (fun h => ⟨by simp [hs], h.2⟩) (movedOn_attemptFailed ?_ ?_ hcount)
    · simp [hs]
    · simp [hs]
  case disabled | unconfigured | connected => simp [hs, State.waiting] at hw

-- The portal's timer ran out after the state's timeout as well: the state gets
-- one millisecond more, on a timer of its own.
structure Postponed (port : Port) (sm sm' : Machine) : Prop where
  state : sm'.st.state = sm.st.state
  timerIsPortal : sm'.timerIsPortal = false
  timerDueMs : sm'.timerDueMs = due port.timerNow 1
  armed : Call.armTimer 1 ∈ sm'.calls

theorem postponed_rearm (hdue : sm.stateDueMs ≠ 0) (hreached : 0 ≤ ahead port.now sm.stateDueMs) :
    Postponed port sm (notify (rearmState port sm)) := by
  have hleft := remaining_of_reached hdue hreached
  have hno : ¬(sm.portalDueMs ≠ 0 ∧ untilPortal sm port.portalNow < 1) := by
    intro hfold
    have hpos := remaining_ne_zero port.portalNow sm.portalDueMs
    have hlt : (untilPortal sm port.portalNow).toNat < 1 := hfold.2
    exact hpos (UInt32.toNat_inj.mp (by simpa [untilPortal] using hlt))
  rw [rearmState, if_neg hdue, hleft]
  refine ⟨rfl, ?_, ?_, ?_⟩
  · exact decide_eq_false hno
  · simp only [notify, call, arm, if_neg hno]
  · simp only [notify, call, arm, if_neg hno]
    simp

theorem Attempted.notify (h : Attempted sm) : Attempted (notify sm) := by
  obtain ⟨hstate, net, hmem⟩ | ⟨hstate, ⟨net, hmem⟩, hdue, ms, harm⟩ := h
  · exact .inl ⟨hstate, net, List.mem_cons_of_mem _ hmem⟩
  · exact .inr ⟨hstate, ⟨net, List.mem_cons_of_mem _ hmem⟩, hdue, ms, List.mem_cons_of_mem _ harm⟩

theorem onPortalTimer_cases (h : Sound sm) (hw : sm.st.state.waiting = true)
    (hreached : 0 ≤ ahead port.now sm.stateDueMs) :
    (sm.st.state = .backoff ∧ Attempted (onPortalTimer port sm)) ∨
      (sm.st.state ≠ .backoff ∧ Postponed port sm (onPortalTimer port sm)) := by
  have hcount := (h.trying (State.trying_of_waiting hw)).2
  have hstate : (firePortalTimer port sm).st.state = sm.st.state := by simp [firePortalTimer]
  have hdue : (firePortalTimer port sm).stateDueMs = sm.stateDueMs := by simp [firePortalTimer]
  have hpostponed : Postponed port sm (notify (rearmState port (firePortalTimer port sm))) := by
    have hp : Postponed port (firePortalTimer port sm)
        (notify (rearmState port (firePortalTimer port sm))) :=
      postponed_rearm (by simpa [hdue] using (h.waiting hw).1) (by simpa [hdue] using hreached)
    exact ⟨by rw [hp.state, hstate], hp.timerIsPortal, hp.timerDueMs, hp.armed⟩
  unfold onPortalTimer
  dsimp only
  rw [hstate]
  cases hs : sm.st.state
  all_goals dsimp only
  case backoff =>
    have hleft : backoffRemainingMs port (firePortalTimer port sm) = 0 := by
      rw [h.backoff hs] at hreached
      simp [backoffRemainingMs, firePortalTimer, not_ahead_of_reached hreached]
    rw [if_pos hleft]
    refine .inl ⟨rfl, Attempted.notify (attempted_startAttempt ?_)⟩
    simpa [firePortalTimer] using hcount
  case connecting | obtainingIp => exact .inr ⟨by simp, hpostponed⟩
  case disabled | unconfigured | connected => simp [hs, State.waiting] at hw

theorem Postponed.waits {sm' : Machine} (h : Postponed port sm sm') : sm'.timerDueMs ≠ 0 := by
  rw [h.timerDueMs]
  exact due_ne_zero _ _

theorem step_timer (h : sm.started = true) (htimer : sm.timerDueMs ≠ 0)
    (hreached : 0 ≤ ahead port.now sm.timerDueMs) :
    step sm (port, .timer) = if sm.timerIsPortal then onPortalTimer port (forgetCalls sm)
      else onStateTimer port (forgetCalls sm) := by
  have hnow : ¬(sm.timerDueMs = 0 ∨ ahead port.now sm.timerDueMs < 0) := by
    simp [htimer, hreached]
  simp [step, event, onTimer, forgetCalls, h, hnow]

-- A started machine that has a network to connect to is connected or has its
-- timer armed. An event of the timer after both due times makes it move on,
-- except that a timer that was set for the portal may give an attempt one
-- millisecond more, after which the next one makes it move on.
theorem timer_moves_on (cfg : Cfg) (inputs : List (Port × Event)) :
    let sm := run step (init cfg) inputs
    (sm.started = true → sm.cfg.staEnabled = true → 0 < sm.cfg.netCount →
      sm.st.state = .connected ∨ (sm.timerDueMs ≠ 0 ∧ sm.stateDueMs ≠ 0)) ∧
    ∀ port, sm.st.state.waiting = true → 0 ≤ ahead port.now sm.timerDueMs →
      0 ≤ ahead port.now sm.stateDueMs →
      if sm.timerIsPortal = true ∧ sm.st.state ≠ .backoff then
        Postponed port sm (step sm (port, .timer)) ∧
          ∀ port', 0 ≤ ahead port'.now (step sm (port, .timer)).timerDueMs →
            MovedOn (step sm (port, .timer)) (step (step sm (port, .timer)) (port', .timer))
      else MovedOn sm (step sm (port, .timer)) := by
  intro sm
  have hsound : Sound sm := sound_run cfg inputs
  refine ⟨?_, ?_⟩
  · intro hstarted henabled hcount
    have ht : sm.st.state.trying = true := by
      by_contra hrest
      exact hsound.resting hstarted (by simpa using hrest) ⟨henabled, by omega⟩
    by_cases hw : sm.st.state.waiting = true
    · exact .inr (hsound.waiting hw).symm
    · left
      cases hs : sm.st.state <;> simp_all [State.waiting, State.trying]
  · intro port hw hreached hdue
    have hstarted := hsound.started_of_trying (State.trying_of_waiting hw)
    rw [step_timer hstarted (hsound.waiting hw).2 hreached]
    have hsound' := hsound.forgetCalls
    by_cases hportal : sm.timerIsPortal = true
    · rw [if_pos hportal]
      obtain ⟨hback, hattempted⟩ | ⟨hback, hpost⟩ :=
        onPortalTimer_cases hsound' hw hdue
      · rw [if_neg (fun h => h.2 hback)]
        exact .inl hattempted
      · rw [if_pos ⟨hportal, hback⟩]
        have hs : Sound (onPortalTimer port (forgetCalls sm)) :=
          sound_onPortalTimer hsound' hstarted
        refine ⟨⟨hpost.state, hpost.timerIsPortal, hpost.timerDueMs, hpost.armed⟩, ?_⟩
        intro port' hreached'
        have hw' : (onPortalTimer port (forgetCalls sm)).st.state.waiting = true := by
          rw [hpost.state]
          exact hw
        rw [step_timer (hs.started_of_trying (State.trying_of_waiting hw')) hpost.waits hreached',
          hpost.timerIsPortal]
        exact movedOn_onStateTimer hs.forgetCalls hw'
    · rw [if_neg hportal, if_neg (fun h => hportal h.1)]
      exact movedOn_onStateTimer hsound' hw

-- The attempt has run out of time, but the timer was set for the portal.
theorem late_portal_timer_only_rearms :
    let sm := run step (init .sample) [(.granting 1, .start)]
    sm.st.state = .connecting ∧ 0 ≤ ahead 20001 sm.timerDueMs ∧ 0 ≤ ahead 20001 sm.stateDueMs ∧
      ¬MovedOn sm (step sm (.granting 20001, .timer)) := by
  have hcalls : (step (run step (init .sample) [(.granting 1, .start)])
      (.granting 20001, .timer)).calls = [.statusChanged, .armTimer 1] := by
    decide +kernel
  have hstate : (step (run step (init .sample) [(.granting 1, .start)])
      (.granting 20001, .timer)).st.state = .connecting := by
    decide +kernel
  refine ⟨by decide +kernel, by decide +kernel, by decide +kernel, ?_⟩
  rintro ((⟨_, net, hmem⟩ | ⟨hback, _⟩) | ⟨_, hback, _⟩)
  · rw [hcalls] at hmem
    simp at hmem
  · exact absurd (hstate.symm.trans hback) (by decide)
  · exact absurd (hstate.symm.trans hback) (by decide)

end Espos.Wifi
