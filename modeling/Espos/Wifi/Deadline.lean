import Espos.Wifi.Invariant

-- The portal's deadline against the timer that has to meet it.

namespace Espos.Wifi

open Espos.Clock Espos.Run

variable {port : Port} {sm : Machine}

attribute [local simp] setState setPortal setPortalDue setInFlight setNetIndex setReason lost call
  clearLink countDisconnect setDisconnectedSince setCfg

-- The armed timer runs out no later than `due`.
def OnTime (sm : Machine) (due : UInt32) : Prop :=
  sm.timerDueMs ≠ 0 ∧ NotLater sm.timerDueMs due

def Timely (sm : Machine) : Prop :=
  sm.portalDueMs ≠ 0 → OnTime sm sm.portalDueMs

-- The clock reading a time of 0 is half a turn away from.
def halfTurn : UInt32 := 0x80000000

-- No timeout the configuration gives has a length of 0.
structure Cfg.Lasting (cfg : Cfg) : Prop where
  connect : cfg.connectTimeoutMs ≠ 0
  dhcp : cfg.dhcpTimeoutMs ≠ 0
  backoff : cfg.backoffMaxMs < halfTurn

def Plain (port : Port) (cfg : Cfg) : Prop :=
  port.now ≠ halfTurn ∨ cfg.Lasting

theorem backoffMs_ne_zero {round capMs rnd : UInt32} (h : capMs < halfTurn) :
    backoffMs round capMs rnd ≠ 0 := by
  have hcap : capMs.toNat < 2147483648 := h
  unfold backoffMs
  dsimp only
  generalize hd : min (doubled capMs.toNat round.toNat baseBackoffMs) capMs.toNat = d
  have hdle : d ≤ capMs.toNat := hd ▸ Nat.min_le_right _ _
  have hj : (if d / 2 = 0 then 0 else rnd.toNat % (d / 2 + 1)) ≤ d / 2 := by
    split_ifs
    · exact Nat.zero_le _
    · have hmod := Nat.mod_lt rnd.toNat (y := d / 2 + 1) (by omega)
      omega
  intro hzero
  have hnat := congrArg UInt32.toNat hzero
  rw [UInt32.toNat_ofNat'] at hnat
  simp only [UInt32.toNat_zero] at hnat
  omega

-- All readings of the event are the same.
def Readings.Still (r : Readings) : Prop :=
  r.portalNow = r.now ∧ r.timerNow = r.now

theorem timely_arm {ms : UInt32} {isDhcp : Bool} (h : Decided port.now sm)
    (hms : ms ≠ 0 ∨ port.now ≠ halfTurn) (hstill : sm.portalDueMs ≠ 0 → port.Still) :
    Timely (arm port sm ms isDhcp) := by
  intro hdue
  have hdue : sm.portalDueMs ≠ 0 := hdue
  obtain ⟨hportal, htimer⟩ := hstill hdue
  refine ⟨due_ne_zero _ _, ?_⟩
  change NotLater (due port.timerNow _) sm.portalDueMs
  rw [hportal, htimer]
  refine notLater_due (h.future hdue) ?_ ?_
  · split_ifs with hfirst
    · exact UInt32.le_refl _
    · simpa [hdue, untilPortal] using hfirst
  · split_ifs
    · exact .inl (remaining_ne_zero _ _)
    · exact hms

theorem timely_armPortalOnly (h : Decided port.now sm) : Timely (armPortalOnly port sm) := by
  unfold armPortalOnly
  split_ifs with hdue
  · intro _
    refine ⟨due_ne_zero _ _, ?_⟩
    exact notLater_due (h.future hdue) (UInt32.le_refl _) (.inl (remaining_ne_zero _ _))
  · intro hno
    exact absurd hno hdue

theorem timely_rearmState (h : Decided port.now sm) (hdue : sm.stateDueMs ≠ 0)
    (hstill : sm.portalDueMs ≠ 0 → port.Still) : Timely (rearmState port sm) := by
  rw [rearmState, if_neg hdue]
  have harm : Timely (arm port sm (remaining port.now sm.stateDueMs)
      (sm.st.state = .obtainingIp)) := timely_arm h (.inl (remaining_ne_zero _ _)) hstill
  exact harm

theorem timely_rearmAfterPolicy (h : Decided port.now sm)
    (hstill : sm.stateDueMs ≠ 0 → sm.portalDueMs ≠ 0 → port.Still) :
    Timely (rearmAfterPolicy port sm) := by
  unfold rearmAfterPolicy
  split_ifs with hdue
  · exact timely_rearmState h hdue (hstill hdue)
  · exact timely_armPortalOnly h

theorem timely_notify (h : Timely sm) : Timely (notify sm) := h

-- The policy may leave a deadline behind that no timer is armed for.
theorem timely_policy (hu : Unscheduled sm)
    (h : Waits port.now sm → OnTime sm (moved (portalDeadline sm))) :
    Timely (portalPolicy port sm) := by
  by_cases hw : Waits port.now sm
  · intro _
    rw [portalPolicy_of_waits hw]
    exact h hw
  · intro hdue
    exact absurd (portalPolicy_of_not_waits hu hw) hdue

-- The policy may schedule the portal: the state and time decide alone.
def MaySchedule (sm : Machine) : Prop :=
  sm.cfg.portalEnabled = true ∧ sm.st.portalForce = .auto ∧
    ¬(sm.otherNetUp = true ∧ sm.cfg.portalOnline = false) ∧ sm.cfg.netCount ≠ 0 ∧
    sm.cfg.staEnabled = true

theorem still_of_policy (hu : Unscheduled sm) (h : MaySchedule sm → port.Still)
    (hdue : (portalPolicy port sm).portalDueMs ≠ 0) : port.Still := by
  by_cases hw : Waits port.now sm
  · exact h ⟨hw.enabled, hw.auto, hw.alone, hw.networks, hw.station⟩
  · exact absurd (portalPolicy_of_not_waits hu hw) hdue

-- What a cycle of attempts starts from.
structure Prepared (port : Port) (sm : Machine) : Prop where
  unscheduled : Unscheduled sm
  plain : Plain port sm.cfg
  still : MaySchedule sm → port.Still

theorem timely_backOff (h : Prepared port sm) : Timely (backOff port sm) := by
  refine timely_notify (timely_arm (.of_policy h.unscheduled) ?_ ?_)
  · exact h.plain.symm.imp_left fun hlasting => backoffMs_ne_zero hlasting.backoff
  · exact still_of_policy h.unscheduled h.still

theorem Prepared.refuseConnect (h : Prepared port sm) :
    Prepared port (refuseConnect port (beginAttempt sm)) := by
  obtain ⟨i, hbegin⟩ := beginAttempt_eq sm
  refine ⟨?_, ?_, ?_⟩
  · simpa [Wifi.refuseConnect, issueConnect, Unscheduled] using h.unscheduled
  · simpa [Wifi.refuseConnect, issueConnect] using h.plain
  · rw [hbegin]
    exact h.still

theorem Prepared.nextNet (h : Prepared port sm) : Prepared port (nextNet port sm) := by
  have hd : Decided port.now (Wifi.nextNet port sm) := .of_policy h.unscheduled
  refine ⟨hd.unscheduled, by simpa [Wifi.nextNet] using h.plain, ?_⟩
  simpa [MaySchedule, Wifi.nextNet] using h.still

theorem timely_startAttempt (h : Prepared port sm) : Timely (startAttempt port sm) := by
  refine startAttempt_rule (R := Prepared port) ?_ ?_ ?_ ?_ h
  · intro sm h _
    exact timely_notify (timely_armPortalOnly (.of_policy h.unscheduled))
  · intro sm h _ _
    have hu : Unscheduled (setInFlight (issueConnect port (beginAttempt sm)) true) := by
      simpa [Unscheduled, issueConnect] using h.unscheduled
    refine timely_notify (timely_arm (.of_policy hu) ?_ (still_of_policy hu ?_))
    · have hplain : Plain port sm.cfg := h.plain
      simpa [issueConnect] using hplain.symm.imp_left Cfg.Lasting.connect
    · obtain ⟨i, hbegin⟩ := beginAttempt_eq sm
      rw [hbegin]
      exact h.still
  · intro sm h _ _ _
    exact timely_backOff h.refuseConnect
  · intro sm h _ _ _
    exact h.refuseConnect.nextNet

theorem timely_attemptFailed {reason : Int} (h : Prepared port sm) :
    Timely (attemptFailed port sm (startAttempt port) reason) := by
  have hlost : Prepared port (lost sm reason) := ⟨h.unscheduled, h.plain, h.still⟩
  unfold attemptFailed
  dsimp only
  split_ifs
  · exact timely_startAttempt ⟨h.unscheduled, h.plain, h.still⟩
  · exact timely_startAttempt hlost.nextNet
  · exact timely_backOff hlost

theorem timely_goIdle {s : State} {reason : Int} (hu : Unscheduled sm) :
    Timely (goIdle port sm s reason) := by
  obtain ⟨count, calls, hdrop⟩ := dropStation_eq sm
  unfold goIdle
  rw [hdrop]
  exact timely_notify (timely_armPortalOnly (.of_policy hu))

theorem timely_onPortalTimer (h : Sound sm) (hplain : Plain port sm.cfg)
    (hstill : MaySchedule sm → port.Still) : Timely (onPortalTimer port sm) := by
  have hd : Decided port.now (firePortalTimer port sm) := .of_policy h.unscheduled
  have hdue : sm.st.state.waiting = true → (firePortalTimer port sm).stateDueMs ≠ 0 := by
    simpa [firePortalTimer] using fun hw => (h.waiting hw).1
  have hstate : (firePortalTimer port sm).st.state = sm.st.state := by simp [firePortalTimer]
  have hfolds : (firePortalTimer port sm).portalDueMs ≠ 0 → port.Still :=
    still_of_policy h.unscheduled hstill
  unfold onPortalTimer
  refine timely_notify ?_
  rw [hstate]
  cases hs : sm.st.state
  all_goals dsimp only
  case backoff =>
    split_ifs
    · refine timely_startAttempt ⟨hd.unscheduled, by simpa [firePortalTimer] using hplain, ?_⟩
      simpa [MaySchedule, firePortalTimer] using hstill
    · exact timely_rearmState hd (hdue (by simp [hs, State.waiting])) hfolds
  case connecting | obtainingIp =>
    exact timely_rearmState hd (hdue (by simp [hs, State.waiting])) hfolds
  case disabled | unconfigured | connected => exact timely_armPortalOnly hd

theorem timely_onStateTimer (h : Sound sm) (hplain : Plain port sm.cfg)
    (hstill : MaySchedule sm → port.Still) (hportal : sm.timerIsPortal = false)
    (hdue : sm.timerDueMs ≠ 0) :
    Timely (onStateTimer port sm) := by
  unfold onStateTimer
  dsimp only
  cases hs : sm.st.state
  all_goals dsimp only
  case backoff => exact timely_startAttempt ⟨h.unscheduled, hplain, hstill⟩
  case connecting | obtainingIp => exact timely_attemptFailed ⟨h.unscheduled, hplain, hstill⟩
  case disabled | unconfigured | connected =>
    have hnone := (h.still (by simp [hs, State.waiting])).2 hdue
    simp [hportal] at hnone

-- The machine the policy runs on, where the event arms no timer afterwards.
def leftUnarmed (sm : Machine) : Event → Option Machine
  | .config ncfg =>
    if ncfg = sm.cfg then none
    else if netsEqual ncfg sm.cfg && ncfg.staEnabled == sm.cfg.staEnabled then
      if sm.started = true ∧ sm.st.state ≠ .unconfigured ∧ sm.st.state ≠ .disabled then
        some (setCfg sm ncfg)
      else none
    else
      (keepIndex sm ncfg).map fun i : Nat =>
        setNetIndex { setCfg sm ncfg with st := { sm.st with staEnabled := ncfg.staEnabled } } i
  | .portalReconfig =>
    if sm.st.portalActive then some (setPortalDue (setPortal sm false) 0) else none
  | _ => none

-- The machine with what the event brings the policy to go by.
def given (sm : Machine) : Event → Machine
  | .config ncfg => setCfg sm ncfg
  | .otherNet up => { sm with otherNetUp := up.getD false }
  | .portalForce want =>
    { sm with st := { sm.st with
      portalForce := (PortalForce.ofNat? (want.getD 0)).getD sm.st.portalForce } }
  | _ => sm

-- The event may leave a deadline of the portal to a timer that `arm` arms.
def Folds (sm : Machine) (ev : Event) : Prop :=
  match ev with
  | .portalFailed => sm.st.portalActive = true ∧ sm.stateDueMs ≠ 0
  | _ => MaySchedule (given sm ev)

-- Where the event arms no timer, the policy writes down no deadline before the
-- timer that is armed already; where it may fold one in, the clock does not move
-- on between the readings.
structure Prompt (sm : Machine) (input : Port × Event) : Prop where
  armed : ∀ m, leftUnarmed sm input.2 = some m → Waits input.1.now m →
    OnTime sm (moved (portalDeadline m))
  plain : Plain input.1 (given sm input.2).cfg
  still : Folds sm input.2 → input.1.Still

theorem timely_onConfig {ncfg : Cfg} (h : Sound sm) (ht : Timely sm)
    (hp : Prompt sm (port, .config ncfg)) : Timely (onConfig port sm ncfg) := by
  have harmed := hp.armed
  unfold onConfig
  simp only [leftUnarmed] at harmed
  by_cases hsame : ncfg = sm.cfg
  · rw [if_pos hsame]
    exact ht
  rw [if_neg hsame]
  rw [if_neg hsame] at harmed
  by_cases hknobs : (netsEqual ncfg sm.cfg && ncfg.staEnabled == sm.cfg.staEnabled) = true
  · rw [if_pos hknobs]
    rw [if_pos hknobs] at harmed
    unfold onKnobs
    dsimp only
    by_cases hstarted : sm.started = true
    · rw [if_pos (by simpa using hstarted)]
      refine timely_notify ?_
      rw [portalPolicy_state]
      split_ifs with hidle
      · exact timely_armPortalOnly (.of_policy h.unscheduled)
      · have hidle : sm.st.state ≠ .unconfigured ∧ sm.st.state ≠ .disabled := by
          simpa using hidle
        exact timely_policy h.unscheduled (harmed _ (if_pos ⟨hstarted, hidle⟩))
    · rw [if_neg (by simpa using hstarted)]
      exact ht
  rw [if_neg hknobs]
  rw [if_neg hknobs] at harmed
  dsimp only
  by_cases hstarted : sm.started = true
  swap
  · rw [if_pos (by simpa using hstarted)]
    exact ht
  rw [if_neg (by simpa using hstarted)]
  cases hkeep : keepIndex sm ncfg with
  | some i =>
    refine timely_notify (timely_policy h.unscheduled (harmed _ ?_))
    simp [hkeep]
  | none =>
    dsimp only
    split_ifs
    · exact timely_goIdle h.unscheduled
    · obtain ⟨count, since, calls, hleave⟩ := leaveForConfig_eq port
        { setCfg sm ncfg with st := { sm.st with staEnabled := ncfg.staEnabled } }
      rw [hleave]
      exact timely_startAttempt ⟨h.unscheduled, hp.plain, hp.still⟩

theorem timely_reevaluate (hu : Unscheduled sm) (ht : Timely sm)
    (hstill : MaySchedule sm → port.Still) : Timely (reevaluate port sm) := by
  unfold reevaluate
  split_ifs
  · exact ht
  · refine timely_notify (timely_rearmAfterPolicy (.of_policy hu) fun _ => ?_)
    exact still_of_policy hu hstill

theorem timely_onGotIp {ip : Option Ip} (h : Sound sm) (ht : Timely sm) :
    Timely (onGotIp port sm ip) := by
  unfold onGotIp
  split_ifs
  · exact ht
  · refine timely_notify (timely_policy ?_ fun w => absurd rfl w.offline)
    obtain ⟨st, hst, hfirst⟩ :=
      firstIp_eq port { sm with st := { sm.st with ip := ip.getD sm.st.ip } }
    rw [hfirst]
    intro hactive
    exact h.unscheduled (hst ▸ hactive)

theorem timely_onStop (ht : Timely sm) : Timely (onStop sm) := by
  unfold onStop
  by_cases hstopped : (!sm.started) = true
  · rw [if_pos hstopped]
    exact ht
  rw [if_neg hstopped]
  obtain ⟨clients, calls, hdown⟩ :=
    portalDown_eq (call { sm with timerDueMs := 0, stateDueMs := 0 } .cancelTimer)
  dsimp only
  rw [hdown]
  split_ifs <;> exact fun hdue => absurd rfl hdue

theorem timely_event {ev : Event} (h : Sound sm) (ht : Timely sm) (hp : Prompt sm (port, ev)) :
    Timely (event port sm ev) := by
  cases ev with
  | start =>
    simp only [event, onStart]
    split_ifs
    · exact ht
    · exact timely_goIdle h.unscheduled
    · exact timely_startAttempt ⟨h.unscheduled, hp.plain, hp.still⟩
  | stop => exact timely_onStop ht
  | config ncfg => exact timely_onConfig h ht hp
  | staConnected link =>
    simp only [event, onStaConnected]
    split_ifs
    · exact ht
    · refine timely_notify (timely_arm (.of_policy h.unscheduled) ?_ ?_)
      · have hplain : Plain port sm.cfg := hp.plain
        simpa using hplain.symm.imp_left Cfg.Lasting.dhcp
      · exact still_of_policy h.unscheduled hp.still
  | staDisconnected reason =>
    simp only [event, onStaDisconnected]
    split_ifs
    · exact timely_attemptFailed ⟨h.unscheduled, hp.plain, hp.still⟩
    · exact ht
  | gotIp ip => exact timely_onGotIp h ht
  | lostIp =>
    simp only [event, onLostIp]
    split_ifs
    · refine timely_notify (timely_arm (.of_policy h.unscheduled) ?_ ?_)
      · have hplain : Plain port sm.cfg := hp.plain
        simpa using hplain.symm.imp_left Cfg.Lasting.dhcp
      · exact still_of_policy h.unscheduled hp.still
    · exact ht
  | timer =>
    simp only [event, onTimer]
    split_ifs with hstopped hearly hportal
    · exact ht
    · exact ht
    · exact timely_onPortalTimer h hp.plain hp.still
    · simp only [not_or] at hearly
      exact timely_onStateTimer h hp.plain hp.still (by simpa using hportal) hearly.1
  | portalClient count => exact ht
  | portalFailed =>
    by_cases hactive : sm.st.portalActive = true
    · rw [event, onPortalFailed_of_active hactive]
      refine timely_notify (timely_rearmAfterPolicy .failPortal fun hdue _ => ?_)
      exact hp.still ⟨hactive, hdue⟩
    · rw [event, onPortalFailed, if_neg hactive]
      exact ht
  | portalReconfig =>
    by_cases hactive : sm.st.portalActive = true
    · have harmed := hp.armed _ (if_pos hactive)
      rw [event, onPortalReconfig, if_pos hactive, portalDown, if_pos hactive]
      refine timely_notify (timely_policy ?_ ?_)
      · simp [Unscheduled]
      · exact fun w => harmed ⟨w.enabled, w.auto, w.offline, w.alone, w.closed, w.networks,
          w.station, w.early⟩
    · rw [event, onPortalReconfig, if_neg hactive]
      exact ht
  | otherNet up =>
    simp only [event, onOtherNet]
    split_ifs
    · exact ht
    · exact timely_reevaluate h.unscheduled ht hp.still
  | portalForce want =>
    simp only [event, onPortalForce]
    split
    · exact ht
    · rename_i want' hwant
      have hstill : Folds sm (.portalForce want) → port.Still := hp.still
      split_ifs
      · exact ht
      · refine timely_reevaluate h.unscheduled ht fun hmay => hstill ?_
        simpa [Folds, given, hwant] using hmay

theorem leftUnarmed_forgetCalls (sm : Machine) (ev : Event) :
    leftUnarmed (forgetCalls sm) ev = (leftUnarmed sm ev).map forgetCalls := by
  cases ev
  case config ncfg =>
    have hkeep : keepIndex (forgetCalls sm) ncfg = keepIndex sm ncfg := rfl
    have hcfg : (forgetCalls sm).cfg = sm.cfg := rfl
    have hst : (forgetCalls sm).st = sm.st := rfl
    have hstarted : (forgetCalls sm).started = sm.started := rfl
    simp only [leftUnarmed, hkeep, hcfg, hst, hstarted]
    split_ifs
    · rfl
    · rfl
    · rfl
    · cases keepIndex sm ncfg <;> rfl
  case portalReconfig =>
    change (if sm.st.portalActive = true then _ else _) = _
    simp only [leftUnarmed]
    split_ifs <;> rfl
  all_goals rfl

theorem Waits.of_forgetCalls {now : UInt32} (w : Waits now (forgetCalls sm)) : Waits now sm :=
  ⟨w.enabled, w.auto, w.offline, w.alone, w.closed, w.networks, w.station, w.early⟩

theorem timely_step {input : Port × Event} (h : Sound sm) (ht : Timely sm)
    (hp : Prompt sm input) : Timely (step sm input) := by
  have hplain : Plain input.1 (given (forgetCalls sm) input.2).cfg := by
    have hplain := hp.plain
    cases hev : input.2 <;> rw [hev] at hplain <;> exact hplain
  have hstill : Folds (forgetCalls sm) input.2 → input.1.Still := by
    have hstill := hp.still
    cases hev : input.2 <;> rw [hev] at hstill <;> exact hstill
  refine timely_event h.forgetCalls ht ⟨?_, hplain, hstill⟩
  intro m hm w
  rw [leftUnarmed_forgetCalls] at hm
  obtain ⟨m', hm', rfl⟩ := Option.map_eq_some_iff.mp hm
  exact hp.armed m' hm' w.of_forgetCalls

-- What is said of the portal's deadline at a reading of the clock: a deadline
-- that has passed may have a timer that runs out a millisecond from now.
def Met (now : UInt32) (sm : Machine) : Prop :=
  sm.started = true → sm.portalDueMs ≠ 0 →
    sm.timerDueMs ≠ 0 ∧ (NotLater sm.timerDueMs sm.portalDueMs ∨
      (0 ≤ ahead now sm.portalDueMs ∧ NotLater sm.timerDueMs (now + 1)))

theorem started_of_keepIndex {ncfg : Cfg} {i : Nat} (h : keepIndex sm ncfg = some i) :
    sm.started = true := by
  simp only [keepIndex] at h
  split_ifs at h with hcan
  simp only [Bool.and_eq_true] at hcan
  exact hcan.1.1

-- An event that arms no timer ends with the policy.
theorem event_of_leftUnarmed {ev : Event} {m : Machine} (hm : leftUnarmed sm ev = some m) :
    ∃ calls, event port sm ev = notify (portalPolicy port { m with calls := calls }) := by
  cases ev
  case config ncfg =>
    simp only [leftUnarmed] at hm
    simp only [event, onConfig]
    split_ifs at hm with hsame hknobs hstarted
    · obtain rfl := Option.some.inj hm
      have hidle : ¬(sm.st.state = .unconfigured ∨ sm.st.state = .disabled) := by
        simpa using hstarted.2
      refine ⟨sm.calls, ?_⟩
      rw [if_neg hsame, if_pos hknobs]
      simp [onKnobs, hstarted.1, hidle]
    · obtain ⟨i, hi, rfl⟩ := Option.map_eq_some_iff.mp hm
      have hstarted := started_of_keepIndex hi
      refine ⟨sm.calls, ?_⟩
      rw [if_neg hsame, if_neg hknobs, hi]
      simp [hstarted]
  case portalReconfig =>
    simp only [leftUnarmed] at hm
    split_ifs at hm with hactive
    obtain rfl := Option.some.inj hm
    refine ⟨.portalStop :: sm.calls, ?_⟩
    rw [event, onPortalReconfig, if_pos hactive, portalDown, if_pos hactive]
    rfl
  all_goals cases hm

theorem leftUnarmed_keeps {ev : Event} {m : Machine} (h : Sound sm)
    (hm : leftUnarmed sm ev = some m) :
    m.started = true ∧ m.timerDueMs = sm.timerDueMs ∧ Unscheduled m := by
  cases ev
  case config ncfg =>
    simp only [leftUnarmed] at hm
    split_ifs at hm with hsame hknobs hstarted
    · obtain rfl := Option.some.inj hm
      exact ⟨hstarted.1, rfl, h.unscheduled⟩
    · obtain ⟨i, hi, rfl⟩ := Option.map_eq_some_iff.mp hm
      have hstarted := started_of_keepIndex hi
      exact ⟨hstarted, rfl, h.unscheduled⟩
  case portalReconfig =>
    simp only [leftUnarmed] at hm
    split_ifs at hm with hactive
    obtain rfl := Option.some.inj hm
    exact ⟨h.started_of_active hactive, rfl, by simp [Unscheduled]⟩
  all_goals cases hm

-- A deadline the timer is not armed for is a late portal.
theorem not_met_step {input : Port × Event} {m : Machine} (h : Sound sm)
    (hm : leftUnarmed sm input.2 = some m) (hw : Waits input.1.now m)
    (hlate : ¬OnTime sm (moved (portalDeadline m))) (hnow : input.1.now ≠ halfTurn) :
    ¬Met input.1.now (step sm input) := by
  obtain ⟨hstarted, htimer, -⟩ := leftUnarmed_keeps h hm
  have hm' : leftUnarmed (forgetCalls sm) input.2 = some (forgetCalls m) := by
    rw [leftUnarmed_forgetCalls, hm]
    rfl
  obtain ⟨calls, hevent⟩ : ∃ calls, event input.1 (forgetCalls sm) input.2 =
      notify (portalPolicy input.1 { forgetCalls m with calls := calls }) :=
    event_of_leftUnarmed hm'
  have hw' : Waits input.1.now { forgetCalls m with calls := calls } :=
    ⟨hw.enabled, hw.auto, hw.offline, hw.alone, hw.closed, hw.networks, hw.station, hw.early⟩
  intro hmet
  rw [step, hevent, portalPolicy_of_waits hw'] at hmet
  obtain ⟨hne, hnot | ⟨hpassed, -⟩⟩ := hmet hstarted (moved_ne_zero _)
  · have hne : m.timerDueMs ≠ 0 := hne
    have hnot : NotLater m.timerDueMs (moved (portalDeadline m)) := hnot
    rw [htimer] at hne hnot
    exact hlate ⟨hne, hnot⟩
  · have hpassed : 0 ≤ ahead input.1.now (moved (portalDeadline m)) := hpassed
    have hearly := ahead_moved hw.early hnow
    omega

-- A timer that is armed for the portal is late by what the clock moves on between
-- the reading for the wait and the one the wait is counted from.
theorem not_met_arm {ms : UInt32} {isDhcp : Bool} (hstarted : sm.started = true)
    (hdue : sm.portalDueMs ≠ 0) (hahead : 0 < ahead sm.portalDueMs port.portalNow)
    (hfirst : untilPortal sm port.portalNow < ms)
    (htick : 0 < (port.timerNow - port.portalNow).toNat)
    (hsmall : (port.timerNow - port.portalNow).toNat < 2147483647) {now : UInt32}
    (hnow : ahead now sm.portalDueMs < 0) : ¬Met now (arm port sm ms isDhcp) := by
  intro hmet
  obtain ⟨-, hnot | ⟨hpassed, -⟩⟩ := hmet hstarted hdue
  · have htimer : (arm port sm ms isDhcp).timerDueMs =
        due port.timerNow (untilPortal sm port.portalNow) := by
      simp only [arm, call, if_pos (And.intro hdue hfirst)]
    rw [htimer] at hnot
    exact later_due hahead htick hsmall hnot
  · have hpassed : 0 ≤ ahead now sm.portalDueMs := hpassed
    omega

-- A portal that is scheduled has its timer in time in every state of a run
-- whose steps are prompt. A step that leaves the timer alone where it should not, and
-- a clock that moves on while the timer is armed for the portal, make it late.
theorem portal_never_late (cfg : Cfg) (inputs : List (Port × Event)) :
    (Along step Prompt (init cfg) inputs →
        Always step (fun sm => ∀ now, Met now sm) (init cfg) inputs) ∧
      (∀ input m, leftUnarmed (run step (init cfg) inputs) input.2 = some m →
        Waits input.1.now m → input.1.now ≠ halfTurn →
        ¬OnTime (run step (init cfg) inputs) (moved (portalDeadline m)) →
        ¬Met input.1.now (step (run step (init cfg) inputs) input)) ∧
      ∀ (port : Port) (sm : Machine) (ms : UInt32) (isDhcp : Bool) (now : UInt32),
        sm.started = true → sm.portalDueMs ≠ 0 → 0 < ahead sm.portalDueMs port.portalNow →
        untilPortal sm port.portalNow < ms → 0 < (port.timerNow - port.portalNow).toNat →
        (port.timerNow - port.portalNow).toNat < 2147483647 → ahead now sm.portalDueMs < 0 →
        ¬Met now (arm port sm ms isDhcp) := by
  refine ⟨?_, ?_, ?_⟩
  · intro hprompt
    have hinit : Sound (init cfg) ∧ Timely (init cfg) := ⟨sound_init cfg, fun h => absurd rfl h⟩
    have hall : Always step (fun sm => Sound sm ∧ Timely sm) (init cfg) inputs := by
      refine always_of_along (P := fun sm => Sound sm ∧ Timely sm) (fun sm input h hp => ?_)
        hinit hprompt
      exact ⟨sound_step h.1 input, timely_step h.1 h.2 hp⟩
    refine hall.imp fun sm h now _ hdue => ?_
    exact ⟨(h.2 hdue).1, .inl (h.2 hdue).2⟩
  · intro input m hm hw hnow hlate
    exact not_met_step (sound_run cfg inputs) hm hw hlate hnow
  · intro port sm ms isDhcp now hstarted hdue hahead hfirst htick hsmall hnow
    exact not_met_arm hstarted hdue hahead hfirst htick hsmall hnow

-- The portal is allowed while an attempt is under way: it is due ten seconds
-- after the start, the timer only after the attempt's twenty.
theorem portal_late_after_config :
    let sm := run step (init { Cfg.sample with portalEnabled := false })
      [(.granting 1, .start), (.granting 2, .config .sample)]
    sm.started = true ∧ sm.portalDueMs = 10001 ∧ sm.timerDueMs = 20001 ∧ ¬Met 2 sm := by
  refine ⟨by decide +kernel, by decide +kernel, by decide +kernel, ?_⟩
  intro hmet
  obtain ⟨-, hnot | ⟨hpassed, -⟩⟩ := hmet (by decide +kernel) (by decide +kernel)
  · exact absurd hnot (by decide +kernel)
  · exact absurd hpassed (by decide +kernel)

end Espos.Wifi
