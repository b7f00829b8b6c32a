import Espos.Wifi.Invariant

-- When the access point may come up: never against the configuration, and never
-- while an association is under way. What is under way is told from outside,
-- from the calls of the port and the events of the driver.

namespace Espos.Wifi

open Espos.Run

variable {port : Port} {sm sm' : Machine} {b : Bool}

attribute [local simp] setState setPortal setPortalDue setInFlight setNetIndex setReason lost call
  clearLink countDisconnect setDisconnectedSince setCfg

-- An accepted connect begins an association, a disconnect ends it.
def flightAfterCall (c : Call) (b : Bool) : Bool :=
  match c with
  | .connect _ accepted => accepted || b
  | .disconnect => false
  | .portalStart _ | .portalStop | .armTimer _ | .cancelTimer | .statusChanged => b

def flightAfterCalls (b : Bool) (calls : List Call) : Bool :=
  calls.foldr flightAfterCall b

-- The driver's word on an association ends it.
def flightAtEvent (b : Bool) : Event → Bool
  | .staConnected _ | .staDisconnected _ => false
  | _ => b

-- No start of the access point falls into an association.
def Safe (b : Bool) (calls : List Call) : Prop :=
  ∀ newer older up, calls = newer ++ .portalStart up :: older → flightAfterCalls b older = false

-- A call that neither concerns the association nor starts the access point.
def Call.quiet : Call → Bool
  | .portalStop | .armTimer _ | .cancelTimer | .statusChanged => true
  | .connect _ _ | .disconnect | .portalStart _ => false

theorem safe_cons {c : Call} {calls : List Call} (h : Safe b calls)
    (hc : ∀ up, c = .portalStart up → flightAfterCalls b calls = false) : Safe b (c :: calls) := by
  intro newer older up heq
  cases newer with
  | nil =>
    obtain ⟨hhead, rfl⟩ := List.cons.inj heq
    exact hc up hhead
  | cons d newer =>
    obtain ⟨-, hrest⟩ := List.cons.inj heq
    exact h newer older up hrest

structure Flying (b : Bool) (sm : Machine) : Prop where
  flag : flightAfterCalls b sm.calls = true → sm.connectInFlight = true ∧ sm.started = true
  safe : Safe b sm.calls

-- Nothing is under way, so nothing has to be known of the flag.
structure Landed (b : Bool) (sm : Machine) : Prop where
  flight : flightAfterCalls b sm.calls = false
  safe : Safe b sm.calls

theorem Landed.flying (h : Landed b sm) : Flying b sm :=
  ⟨fun hf => absurd (h.flight.symm.trans hf) (by decide), h.safe⟩

theorem Landed.congr (h : Landed b sm) (hcalls : sm'.calls = sm.calls) : Landed b sm' :=
  ⟨by rw [hcalls]; exact h.flight, by rw [hcalls]; exact h.safe⟩

theorem Flying.quiet {c : Call} (h : Flying b sm) (hc : c.quiet = true)
    (hcalls : sm'.calls = c :: sm.calls) (hflag : sm'.connectInFlight = sm.connectInFlight)
    (hstarted : sm'.started = sm.started) : Flying b sm' := by
  refine ⟨?_, ?_⟩
  · rw [hcalls, hflag, hstarted]
    cases c <;> first | exact h.flag | cases hc
  · rw [hcalls]
    refine safe_cons h.safe ?_
    rintro up rfl
    cases hc

theorem Flying.landed (h : Flying b sm) (hflag : sm.connectInFlight = false) : Landed b sm := by
  refine ⟨?_, h.safe⟩
  by_contra hf
  have := (h.flag (by simpa using hf)).1
  simp [hflag] at this

theorem Landed.disconnect (h : Safe b sm.calls) : Landed b (call sm .disconnect) :=
  ⟨rfl, safe_cons h (by rintro up ⟨⟩)⟩

-- The policy raises the access point only where the flag is down.
theorem Flying.policy (h : Flying b sm)
    (hcfg : sm.connectInFlight = true → sm.cfg.staEnabled = true ∧ sm.cfg.netCount ≠ 0) :
    Flying b (portalPolicy port sm) := by
  have hflag : (portalPolicy port sm).connectInFlight = sm.connectInFlight :=
    portalPolicy_connectInFlight port sm
  have hstarted : (portalPolicy port sm).started = sm.started := portalPolicy_started port sm
  have hpolicy : PortalStep port sm (portalPolicy port sm) := portalStep_policy
  cases hpolicy with
  | same _ hcalls =>
    exact ⟨by rw [hcalls, hflag, hstarted]; exact h.flag, by rw [hcalls]; exact h.safe⟩
  | stop _ _ hcalls => exact h.quiet rfl hcalls hflag hstarted
  | start up _ hmay _ _ hcalls =>
    have hdown : sm.connectInFlight = false := by
      by_contra hup
      have hup : sm.connectInFlight = true := by simpa using hup
      obtain ⟨henabled, hcount⟩ := hcfg hup
      obtain hmay | hmay | hmay := hmay
      · simp [hup] at hmay
      · exact hcount hmay
      · simp [henabled] at hmay
    have hland := h.landed hdown
    refine ⟨?_, ?_⟩
    · rw [hcalls, hflag, hstarted]
      exact h.flag
    · rw [hcalls]
      exact safe_cons h.safe fun _ _ => hland.flight

theorem Flying.portalDown (h : Flying b sm) : Flying b (portalDown sm) := by
  unfold Wifi.portalDown
  split_ifs
  · exact h.quiet rfl rfl rfl rfl
  · exact ⟨h.flag, h.safe⟩

theorem Flying.notify (h : Flying b sm) : Flying b (notify sm) :=
  h.quiet rfl rfl rfl rfl

theorem Flying.arm {ms : UInt32} {isDhcp : Bool} (h : Flying b sm) :
    Flying b (arm port sm ms isDhcp) :=
  h.quiet rfl rfl rfl rfl

theorem Flying.armPortalOnly (h : Flying b sm) : Flying b (armPortalOnly port sm) := by
  unfold Wifi.armPortalOnly
  split_ifs
  · exact h.quiet rfl rfl rfl rfl
  · exact h.quiet rfl rfl rfl rfl

theorem Flying.rearmState (h : Flying b sm) : Flying b (rearmState port sm) := by
  unfold Wifi.rearmState
  split_ifs
  · exact h
  · exact h.quiet rfl rfl rfl rfl

theorem Flying.rearmAfterPolicy (h : Flying b sm) : Flying b (rearmAfterPolicy port sm) := by
  unfold Wifi.rearmAfterPolicy
  split_ifs
  · exact h.rearmState
  · exact h.armPortalOnly

-- The policy on a machine whose flag is down.
theorem Landed.policy (h : Landed b sm) (hflag : sm.connectInFlight = false) :
    Flying b (portalPolicy port sm) :=
  h.flying.policy fun hup => absurd (hflag.symm.trans hup) (by decide)

theorem Landed.nextNet (h : Landed b sm) : Landed b (nextNet port sm) := by
  have hl : Landed b (setInFlight (setNetIndex sm (sm.st.netIndex + 1)) false) := h.congr rfl
  have hp : Flying b (Wifi.nextNet port sm) := hl.policy rfl
  exact hp.landed (by simp [Wifi.nextNet])

theorem Landed.backOff (h : Landed b sm) (hflag : sm.connectInFlight = false) :
    Flying b (backOff port sm) := by
  unfold Wifi.backOff
  refine Flying.notify (Flying.arm (Landed.policy ?_ hflag))
  exact h.congr rfl

theorem Landed.refuseConnect (h : Landed b sm)
    (haccepts : accepts port (beginAttempt sm) = false) :
    Landed b (refuseConnect port (beginAttempt sm)) := by
  have hcalls : (Wifi.refuseConnect port (beginAttempt sm)).calls =
      .connect (currentNet (beginAttempt sm)) false :: sm.calls := by
    simp [Wifi.refuseConnect, issueConnect, haccepts]
  refine ⟨?_, ?_⟩
  · rw [hcalls]
    exact h.flight
  · rw [hcalls]
    exact safe_cons h.safe (by rintro up ⟨⟩)

-- What a cycle of attempts starts from.
structure Grounded (b : Bool) (sm : Machine) : Prop extends Landed b sm where
  started : sm.started = true
  enabled : sm.cfg.staEnabled = true

theorem Grounded.nextNet (h : Grounded b sm)
    (haccepts : accepts port (beginAttempt sm) = false) :
    Grounded b (nextNet port (Wifi.refuseConnect port (beginAttempt sm))) where
  toLanded := (h.toLanded.refuseConnect haccepts).nextNet
  started := by simpa [Wifi.nextNet, Wifi.refuseConnect, issueConnect] using h.started
  enabled := by simpa [Wifi.nextNet, Wifi.refuseConnect, issueConnect] using h.enabled

theorem flying_startAttempt (h : Grounded b sm) : Flying b (startAttempt port sm) := by
  refine startAttempt_rule (R := Grounded b) ?_ ?_ ?_ ?_ h
  · intro sm h _
    unfold unconfigure
    refine Flying.notify (Flying.armPortalOnly (Landed.policy ?_ rfl))
    exact h.toLanded.congr rfl
  · intro sm h hcount haccepts
    unfold associate
    have hcalls : (setInFlight (issueConnect port (beginAttempt sm)) true).calls =
        .connect (currentNet (beginAttempt sm)) true :: sm.calls := by
      simp [issueConnect, haccepts]
    have hf : Flying b (setInFlight (issueConnect port (beginAttempt sm)) true) := by
      refine ⟨fun _ => ⟨rfl, by simpa [issueConnect] using h.started⟩, ?_⟩
      rw [hcalls]
      exact safe_cons h.safe (by rintro up ⟨⟩)
    refine (hf.policy fun _ => ?_).arm.notify
    simpa [issueConnect] using ⟨h.enabled, hcount⟩
  · intro sm h _ haccepts _
    exact (h.toLanded.refuseConnect haccepts).backOff rfl
  · intro sm h _ haccepts _
    exact h.nextNet haccepts

theorem flying_attemptFailed {reason : Int} (h : Grounded b sm) :
    Flying b (attemptFailed port sm (startAttempt port) reason) := by
  have hlost : Landed b (lost sm reason) := h.toLanded.congr rfl
  unfold attemptFailed
  dsimp only
  split_ifs
  · exact flying_startAttempt ⟨hlost.congr rfl, h.started, h.enabled⟩
  · refine flying_startAttempt ⟨hlost.nextNet, ?_, ?_⟩
    · simpa [nextNet] using h.started
    · simpa [nextNet] using h.enabled
  · exact hlost.backOff rfl

-- Nothing is under way in a state that does not associate.
theorem Flying.landed_of_resting (h : Flying b sm)
    (hfly : flightAfterCalls b sm.calls = true → sm.st.state.associating = true)
    (hstate : ¬sm.st.state.associating = true) : Landed b sm := by
  refine ⟨?_, h.safe⟩
  by_contra hup
  exact hstate (hfly (by simpa using hup))

-- Leaving the access point ends whatever was under way.
theorem landed_dropStation (h : Flying b sm)
    (hfly : flightAfterCalls b sm.calls = true → sm.st.state.associating = true) :
    Landed b (dropStation sm) := by
  unfold dropStation
  by_cases hstate : sm.st.state.associating = true
  · have hl : Landed b (call sm .disconnect) := .disconnect h.safe
    rw [if_pos hstate]
    dsimp only
    split_ifs
    · exact hl.congr rfl
    · exact hl
  · have hl : Landed b sm := h.landed_of_resting hfly hstate
    rw [if_neg hstate]
    dsimp only
    split_ifs
    · exact hl.congr rfl
    · exact hl

theorem flying_goIdle {s : State} {reason : Int} (h : Flying b sm)
    (hfly : flightAfterCalls b sm.calls = true → sm.st.state.associating = true) :
    Flying b (goIdle port sm s reason) := by
  have hl := landed_dropStation h hfly
  obtain ⟨count, calls, hdrop⟩ := dropStation_eq sm
  unfold goIdle
  rw [hdrop] at hl ⊢
  refine Flying.notify (Flying.armPortalOnly (Landed.policy ?_ rfl))
  exact hl.congr rfl

theorem landed_leaveForConfig (h : Flying b sm)
    (hfly : flightAfterCalls b sm.calls = true → sm.st.state.associating = true) :
    Landed b (leaveForConfig port sm) := by
  unfold leaveForConfig
  by_cases hstate : sm.st.state.associating = true
  · have hl : Landed b (call sm .disconnect) := .disconnect h.safe
    rw [if_pos hstate]
    dsimp only
    split_ifs
    · exact hl.congr rfl
    · exact hl
  · rw [if_neg hstate]
    exact h.landed_of_resting hfly hstate

theorem Flying.congr (h : Flying b sm) (hcalls : sm'.calls = sm.calls)
    (hflag : sm'.connectInFlight = sm.connectInFlight) (hstarted : sm'.started = sm.started) :
    Flying b sm' :=
  ⟨by rw [hcalls, hflag, hstarted]; exact h.flag, by rw [hcalls]; exact h.safe⟩

-- The flag is up only in a state the configuration allows.
theorem Sound.flag_cfg (h : Sound sm) (hstarted : sm.started = true)
    (hup : sm.connectInFlight = true) : sm.cfg.staEnabled = true ∧ sm.cfg.netCount ≠ 0 :=
  h.trying (by simp [h.inFlight hstarted hup, State.trying])

theorem Sound.flag_associating (h : Sound sm) (hstarted : sm.started = true)
    (hup : sm.connectInFlight = true) : sm.st.state.associating = true := by
  simp [h.inFlight hstarted hup, State.associating]

theorem Sound.flag_down (h : Sound sm) (ht : sm.st.state.trying = true)
    (hstate : sm.st.state ≠ .connecting) : sm.connectInFlight = false := by
  by_contra hup
  exact hstate (h.inFlight (h.started_of_trying ht) (by simpa using hup))

theorem flying_onConfig {ncfg : Cfg} (h : Sound sm) (hf : Flying b sm) :
    Flying b (onConfig port sm ncfg) := by
  unfold onConfig
  by_cases hsame : ncfg = sm.cfg
  · rw [if_pos hsame]
    exact hf
  rw [if_neg hsame]
  by_cases hknobs : (netsEqual ncfg sm.cfg && ncfg.staEnabled == sm.cfg.staEnabled) = true
  · rw [if_pos hknobs]
    simp only [Bool.and_eq_true, beq_iff_eq] at hknobs
    have hset : Flying b (setCfg sm ncfg) := hf.congr rfl rfl rfl
    unfold onKnobs
    dsimp only
    split_ifs with hstarted
    · refine Flying.notify (Flying.armPortalOnly (Flying.policy hset fun hup => ?_))
      have := h.flag_cfg hstarted hup
      simpa [hknobs.2, netCount_of_netsEqual hknobs.1] using this
    · refine Flying.notify (Flying.policy hset fun hup => ?_)
      have := h.flag_cfg hstarted hup
      simpa [hknobs.2, netCount_of_netsEqual hknobs.1] using this
    · exact hset
  rw [if_neg hknobs]
  dsimp only
  have hset : Flying b { setCfg sm ncfg with st := { sm.st with staEnabled := ncfg.staEnabled } } :=
    hf.congr rfl rfl rfl
  by_cases hstarted : sm.started = true
  swap
  · rw [if_pos (by simpa using hstarted)]
    exact hset
  rw [if_neg (by simpa using hstarted)]
  cases hkeep : keepIndex sm ncfg with
  | some i =>
    have hdown : sm.connectInFlight = false := by
      simp only [keepIndex] at hkeep
      split_ifs at hkeep with hcan
      simp only [Bool.and_eq_true, Bool.or_eq_true, beq_iff_eq] at hcan
      obtain hstate | hstate := hcan.2
      · exact h.flag_down (by simp [hstate, State.trying]) (by simp [hstate])
      · exact h.flag_down (by simp [hstate, State.trying]) (by simp [hstate])
    refine Flying.notify (Landed.policy ?_ hdown)
    exact (hset.landed hdown).congr rfl
  | none =>
    dsimp only
    split_ifs with hoff
    · exact flying_goIdle hset fun hup => h.flag_associating hstarted (hf.flag hup).1
    · have hl : Landed b (leaveForConfig port
          { setCfg sm ncfg with st := { sm.st with staEnabled := ncfg.staEnabled } }) :=
        landed_leaveForConfig hset fun hup => h.flag_associating hstarted (hf.flag hup).1
      obtain ⟨count, since, calls, hleave⟩ := leaveForConfig_eq port
        { setCfg sm ncfg with st := { sm.st with staEnabled := ncfg.staEnabled } }
      rw [hleave] at hl ⊢
      refine flying_startAttempt ⟨hl.congr rfl, hstarted, by simpa using hoff⟩

theorem flying_onStop (h : Sound sm) (hf : Flying b sm) : Flying b (onStop sm) := by
  unfold onStop
  by_cases hstopped : (!sm.started) = true
  · rw [if_pos hstopped]
    exact hf
  rw [if_neg hstopped]
  have hstarted : sm.started = true := by simpa using hstopped
  have hoff : Flying b (call { sm with timerDueMs := 0, stateDueMs := 0 } .cancelTimer) :=
    hf.quiet rfl rfl rfl rfl
  have hdown := hoff.portalDown
  obtain ⟨clients, calls, heq⟩ :=
    portalDown_eq (call { sm with timerDueMs := 0, stateDueMs := 0 } .cancelTimer)
  dsimp only
  rw [heq] at hdown ⊢
  split_ifs with hstate
  · refine Flying.notify (Landed.flying ?_)
    exact (Landed.disconnect hdown.safe).congr rfl
  · refine Flying.notify (Landed.flying ?_)
    refine (hdown.landed ?_).congr rfl
    by_contra hup
    exact hstate (h.flag_associating hstarted (by simpa [withPortal] using hup))

theorem flying_reevaluate (h : Sound sm) {sm' : Machine} (hf : Flying b sm')
    (hflag : sm'.connectInFlight = sm.connectInFlight) (hstarted : sm'.started = sm.started)
    (hcfg : sm'.cfg = sm.cfg) : Flying b (reevaluate port sm') := by
  unfold reevaluate
  split_ifs with hstopped
  · exact hf
  · refine Flying.notify (Flying.rearmAfterPolicy (hf.policy fun hup => ?_))
    rw [hcfg]
    exact h.flag_cfg (by simpa [hstarted] using hstopped) (hflag ▸ hup)

theorem flying_onTimer (h : Sound sm) (hf : Flying b sm) : Flying b (onTimer port sm) := by
  unfold onTimer
  split_ifs with hstopped hearly hportal
  · exact hf
  · exact hf
  · have hstarted : sm.started = true := by simpa using hstopped
    have hp : Flying b (firePortalTimer port sm) := by
      unfold firePortalTimer
      refine Flying.policy (hf.congr rfl rfl rfl) fun hup => ?_
      exact h.flag_cfg hstarted hup
    have hstate : (firePortalTimer port sm).st.state = sm.st.state := by simp [firePortalTimer]
    unfold onPortalTimer
    refine Flying.notify ?_
    rw [hstate]
    cases hs : sm.st.state
    all_goals dsimp only
    case backoff =>
      have ht : sm.st.state.trying = true := by simp [hs, State.trying]
      have hdown := h.flag_down ht (by simp [hs])
      split_ifs
      · refine flying_startAttempt ⟨hp.landed ?_, ?_, ?_⟩
        · simpa [firePortalTimer] using hdown
        · simpa [firePortalTimer] using hstarted
        · simpa [firePortalTimer] using (h.trying ht).1
      · exact hp.rearmState
    case connecting | obtainingIp => exact hp.rearmState
    case disabled | unconfigured | connected => exact hp.armPortalOnly
  · unfold onStateTimer
    dsimp only
    cases hs : sm.st.state
    all_goals dsimp only
    case backoff =>
      have ht : sm.st.state.trying = true := by simp [hs, State.trying]
      have hl := hf.landed (h.flag_down ht (by simp [hs]))
      exact flying_startAttempt ⟨hl.congr rfl, h.started_of_trying ht, (h.trying ht).1⟩
    case connecting | obtainingIp =>
      have ht : sm.st.state.trying = true := by simp [hs, State.trying]
      have hl : Landed b (call sm .disconnect) := .disconnect hf.safe
      exact flying_attemptFailed ⟨hl.congr rfl, h.started_of_trying ht, (h.trying ht).1⟩
    case disabled | unconfigured | connected => exact hf.congr rfl rfl rfl

-- One event, for a machine that knows what is under way and has called nothing.
theorem flying_event {ev : Event} (h : Sound sm) (hf : Flying (flightAtEvent b ev) sm)
    (hcalls : sm.calls = []) : Flying (flightAtEvent b ev) (event port sm ev) := by
  cases ev with
  | start =>
    simp only [event, onStart]
    by_cases hstarted : sm.started = true
    · rw [if_pos hstarted]
      exact hf
    have hl : Landed (flightAtEvent b .start) sm := by
      refine ⟨?_, hf.safe⟩
      by_contra hup
      exact hstarted (hf.flag (by simpa using hup)).2
    rw [if_neg hstarted]
    split_ifs with hoff
    · refine flying_goIdle (Landed.flying ?_) fun hup => ?_
      · exact hl.congr rfl
      · exact absurd (hl.flight.symm.trans hup) (by decide)
    · exact flying_startAttempt ⟨hl.congr rfl, rfl, by simpa using hoff⟩
  | stop => exact flying_onStop h hf
  | config ncfg => exact flying_onConfig h hf
  | staConnected link =>
    have hl : Landed false sm := ⟨by rw [hcalls]; rfl, hf.safe⟩
    simp only [event, onStaConnected]
    split_ifs
    · exact hf
    · refine Flying.notify (Flying.arm (Landed.policy ?_ rfl))
      exact hl.congr rfl
  | staDisconnected reason =>
    have hl : Landed false sm := ⟨by rw [hcalls]; rfl, hf.safe⟩
    simp only [event, onStaDisconnected]
    split_ifs with hstate
    · have ht := State.trying_of_associating hstate
      exact flying_attemptFailed ⟨hl, h.started_of_trying ht, (h.trying ht).1⟩
    · exact hf
  | gotIp ip =>
    simp only [event, onGotIp]
    split_ifs with hstate
    · exact hf
    have hstate : sm.st.state.trying = true ∧ sm.st.state ≠ .connecting := by
      cases hs : sm.st.state <;> simp_all [State.trying]
    have hdown := h.flag_down hstate.1 hstate.2
    obtain ⟨st, -, hfirst⟩ :=
      firstIp_eq port { sm with st := { sm.st with ip := ip.getD sm.st.ip } }
    rw [hfirst]
    refine Flying.notify (Flying.policy ?_ fun hup => ?_)
    · exact hf.quiet rfl rfl rfl rfl
    · exact absurd (hdown.symm.trans hup) (by decide)
  | lostIp =>
    simp only [event, onLostIp]
    split_ifs with hstate
    · have hdown := h.flag_down (by simp [hstate, State.trying]) (by simp [hstate])
      refine Flying.notify (Flying.arm (Landed.policy ?_ hdown))
      exact (hf.landed hdown).congr rfl
    · exact hf
  | timer => exact flying_onTimer h hf
  | portalClient count =>
    refine Flying.notify ?_
    exact hf.congr rfl rfl rfl
  | portalFailed =>
    by_cases hactive : sm.st.portalActive = true
    · rw [event, onPortalFailed_of_active hactive]
      refine Flying.notify (Flying.rearmAfterPolicy ?_)
      exact hf.congr rfl rfl rfl
    · rw [event, onPortalFailed, if_neg hactive]
      exact hf
  | portalReconfig =>
    simp only [event, onPortalReconfig]
    split_ifs with hactive
    · obtain ⟨clients, calls, heq⟩ := portalDown_eq sm
      refine Flying.notify (hf.portalDown.policy ?_)
      rw [heq]
      exact h.flag_cfg (h.started_of_active hactive)
    · exact hf
  | otherNet up =>
    simp only [event, onOtherNet]
    split_ifs
    · exact hf
    · exact flying_reevaluate h (hf.congr rfl rfl rfl) rfl rfl rfl
  | portalForce want =>
    simp only [event, onPortalForce]
    split
    · exact hf
    split_ifs
    · exact hf
    · exact flying_reevaluate h (hf.congr rfl rfl rfl) rfl rfl rfl

-- The machine and what is under way, as it is seen from outside.
def watch (w : Machine × Bool) (input : Port × Event) : Machine × Bool :=
  (step w.1 input, flightAfterCalls (flightAtEvent w.2 input.2) (step w.1 input).calls)

structure Watched (w : Machine × Bool) : Prop where
  sound : Sound w.1
  flag : w.2 = true → w.1.connectInFlight = true ∧ w.1.started = true

theorem flying_step {w : Machine × Bool} {input : Port × Event} (h : Watched w) :
    Flying (flightAtEvent w.2 input.2) (step w.1 input) := by
  have hb : flightAtEvent w.2 input.2 = true → w.2 = true := by
    cases input.2 <;> simp [flightAtEvent]
  refine flying_event h.sound.forgetCalls ⟨fun hup => h.flag (hb hup), ?_⟩ rfl
  intro newer older up heq
  simp [forgetCalls] at heq

theorem watched_run (cfg : Cfg) (inputs : List (Port × Event)) :
    Watched (run watch (init cfg, false) inputs) := by
  refine run_invariant (P := Watched) (fun w input h => ?_) ⟨sound_init cfg, fun hup => ?_⟩ inputs
  · exact ⟨sound_step h.sound input, (flying_step h).flag⟩
  · exact absurd hup Bool.false_ne_true

-- After every event the portal is down wherever it has no business being up,
-- and the event has started it at no moment an association was under way.
theorem portal_safe (cfg : Cfg) (inputs : List (Port × Event)) (input : Port × Event) :
    let w := run watch (init cfg, false) inputs
    (Refused (step w.1 input) → (step w.1 input).st.portalActive = false) ∧
      Safe (flightAtEvent w.2 input.2) (step w.1 input).calls := by
  intro w
  have hw : Watched w := watched_run cfg inputs
  exact ⟨(sound_step hw.sound input).refused, (flying_step hw).safe⟩

end Espos.Wifi
