import Espos.Wifi.Invariant

-- The flag of the machine that says whether the access point is up follows the
-- calls it makes.

namespace Espos.Wifi

variable {port : Port} {sm sm' sm'' : Machine}

attribute [local simp] setState setPortal setPortalDue setInFlight setNetIndex setReason lost call
  clearLink countDisconnect setDisconnectedSince setCfg

def openAfterCall (c : Call) (active : Bool) : Bool :=
  match c with
  | .portalStart up => up
  | .portalStop => false
  | .connect _ _ | .disconnect | .armTimer _ | .cancelTimer | .statusChanged => active

def openAfterCalls (active : Bool) (calls : List Call) : Bool :=
  calls.foldr openAfterCall active

-- The calls `sm'` has made since `sm` account for its flag, and the starts among
-- them are answered as the port answers them.
structure Follows (port : Port) (sm sm' : Machine) : Prop where
  calls : ∃ new, sm'.calls = new ++ sm.calls ∧
    sm'.st.portalActive = openAfterCalls sm.st.portalActive new ∧
    ∀ up, .portalStart up ∈ new → ∃ made, up = port.portalStart made

theorem Follows.trans (h : Follows port sm sm') (h' : Follows port sm' sm'') :
    Follows port sm sm'' := by
  obtain ⟨new, hcalls, hactive, hanswer⟩ := h.calls
  obtain ⟨new', hcalls', hactive', hanswer'⟩ := h'.calls
  refine ⟨new' ++ new, by rw [hcalls', hcalls, List.append_assoc], ?_, ?_⟩
  · rw [hactive', hactive, openAfterCalls, openAfterCalls, openAfterCalls, List.foldr_append]
  · intro up hmem
    obtain hmem | hmem := List.mem_append.mp hmem
    · exact hanswer' up hmem
    · exact hanswer up hmem

-- A change of other fields, with or without a call that is not the portal's.
theorem Follows.same (hcalls : sm'.calls = sm.calls)
    (hactive : sm'.st.portalActive = sm.st.portalActive) : Follows port sm sm' :=
  ⟨[], by simpa using hcalls, hactive, by simp⟩

theorem Follows.called {c : Call} (hcalls : sm'.calls = c :: sm.calls)
    (hactive : sm'.st.portalActive = sm.st.portalActive)
    (hc : ∀ active, openAfterCall c active = active) : Follows port sm sm' := by
  refine ⟨[c], hcalls, by rw [hactive]; exact (hc _).symm, ?_⟩
  intro up hmem
  obtain rfl := List.mem_singleton.mp hmem
  have := hc (!up)
  cases up <;> simp [openAfterCall] at this

theorem Follows.refl (port : Port) (sm : Machine) : Follows port sm sm :=
  .same rfl rfl

theorem PortalStep.follows (h : PortalStep port sm sm') : Follows port sm sm' := by
  cases h with
  | same hactive hcalls => exact .same hcalls hactive
  | start up hup _ _ hactive hcalls =>
    refine ⟨[.portalStart up], hcalls, hactive, fun up' hmem => ⟨sm.calls, ?_⟩⟩
    cases List.mem_singleton.mp hmem
    exact hup
  | stop _ hactive hcalls => exact ⟨[.portalStop], hcalls, hactive, by simp⟩

theorem follows_policy (h : Follows port sm sm') : Follows port sm (portalPolicy port sm') :=
  h.trans portalStep_policy.follows

theorem follows_portalDown (h : Follows port sm sm') : Follows port sm (portalDown sm') :=
  h.trans portalStep_down.follows

theorem follows_notify (h : Follows port sm sm') : Follows port sm (notify sm') :=
  h.trans (.called rfl rfl fun _ => rfl)

theorem follows_disconnect (h : Follows port sm sm') : Follows port sm (call sm' .disconnect) :=
  h.trans (.called rfl rfl fun _ => rfl)

theorem follows_cancelTimer (h : Follows port sm sm') : Follows port sm (call sm' .cancelTimer) :=
  h.trans (.called rfl rfl fun _ => rfl)

theorem follows_arm {ms : UInt32} {isDhcp : Bool} (h : Follows port sm sm') :
    Follows port sm (arm port sm' ms isDhcp) :=
  h.trans (.called rfl rfl fun _ => rfl)

theorem follows_armPortalOnly (h : Follows port sm sm') :
    Follows port sm (armPortalOnly port sm') := by
  unfold armPortalOnly
  split_ifs
  · exact h.trans (.called rfl rfl fun _ => rfl)
  · exact h.trans (.called rfl rfl fun _ => rfl)

theorem follows_rearmState (h : Follows port sm sm') : Follows port sm (rearmState port sm') := by
  unfold rearmState
  split_ifs
  · exact h
  · exact h.trans (.called rfl rfl fun _ => rfl)

theorem follows_rearmAfterPolicy (h : Follows port sm sm') :
    Follows port sm (rearmAfterPolicy port sm') := by
  unfold rearmAfterPolicy
  split_ifs
  · exact follows_rearmState h
  · exact follows_armPortalOnly h

theorem follows_backOff (h : Follows port sm sm') : Follows port sm (backOff port sm') := by
  unfold backOff
  refine follows_notify (follows_arm (follows_policy ?_))
  exact h.trans (.same rfl rfl)

theorem follows_nextNet (h : Follows port sm sm') : Follows port sm (nextNet port sm') := by
  unfold nextNet
  refine follows_policy ?_
  exact h.trans (.same rfl rfl)

theorem follows_refuseConnect (h : Follows port sm sm') :
    Follows port sm (refuseConnect port (beginAttempt sm')) := by
  refine h.trans (.called (c := .connect (currentNet (beginAttempt sm'))
    (accepts port (beginAttempt sm'))) ?_ ?_ fun _ => rfl)
  · simp [refuseConnect, issueConnect]
  · simp [refuseConnect, issueConnect]

theorem follows_startAttempt (h : Follows port sm sm') : Follows port sm (startAttempt port sm') := by
  refine startAttempt_rule (R := Follows port sm) ?_ ?_ ?_ ?_ h
  · intro sm' h _
    unfold unconfigure
    refine follows_notify (follows_armPortalOnly (follows_policy ?_))
    exact h.trans (.same rfl rfl)
  · intro sm' h _ _
    unfold associate
    refine follows_notify (follows_arm (follows_policy ?_))
    refine h.trans (.called (c := .connect (currentNet (beginAttempt sm'))
      (accepts port (beginAttempt sm'))) ?_ ?_ fun _ => rfl)
    · simp [issueConnect]
    · simp [issueConnect]
  · intro sm' h _ _ _
    exact follows_backOff (follows_refuseConnect h)
  · intro sm' h _ _ _
    exact follows_nextNet (follows_refuseConnect h)

theorem follows_attemptFailed {reason : Int} (h : Follows port sm sm') :
    Follows port sm (attemptFailed port sm' (startAttempt port) reason) := by
  have hlost : Follows port sm (lost sm' reason) := h.trans (.same rfl rfl)
  unfold attemptFailed
  dsimp only
  split_ifs
  · exact follows_startAttempt (hlost.trans (.same rfl rfl))
  · exact follows_startAttempt (follows_nextNet hlost)
  · exact follows_backOff hlost

theorem follows_dropStation (h : Follows port sm sm') : Follows port sm (dropStation sm') := by
  unfold dropStation
  dsimp only
  split_ifs
  · exact (follows_disconnect h).trans (.same rfl rfl)
  · exact follows_disconnect h
  · exact h.trans (.same rfl rfl)
  · exact h

theorem follows_goIdle {s : State} {reason : Int} (h : Follows port sm sm') :
    Follows port sm (goIdle port sm' s reason) := by
  have hdrop := follows_dropStation h
  unfold goIdle
  generalize dropStation sm' = dropped at hdrop ⊢
  refine follows_notify (follows_armPortalOnly (follows_policy ?_))
  exact hdrop.trans (.same rfl rfl)

theorem follows_reevaluate (h : Follows port sm sm') : Follows port sm (reevaluate port sm') := by
  unfold reevaluate
  split_ifs
  · exact h
  · exact follows_notify (follows_rearmAfterPolicy (follows_policy h))

theorem follows_leaveForConfig (h : Follows port sm sm') :
    Follows port sm (leaveForConfig port sm') := by
  unfold leaveForConfig
  dsimp only
  split_ifs
  · exact (follows_disconnect h).trans (.same rfl rfl)
  · exact follows_disconnect h
  · exact h

theorem follows_onKnobs {ncfg : Cfg} : Follows port sm (onKnobs port sm ncfg) := by
  have hset : Follows port sm (setCfg sm ncfg) := .same rfl rfl
  unfold onKnobs
  dsimp only
  split_ifs
  · exact follows_notify (follows_armPortalOnly (follows_policy hset))
  · exact follows_notify (follows_policy hset)
  · exact hset

theorem follows_onConfig {ncfg : Cfg} : Follows port sm (onConfig port sm ncfg) := by
  have hset : Follows port sm
      { setCfg sm ncfg with st := { sm.st with staEnabled := ncfg.staEnabled } } := .same rfl rfl
  unfold onConfig
  dsimp only
  split_ifs
  · exact .refl port sm
  · exact follows_onKnobs
  · exact hset
  · cases keepIndex sm ncfg with
    | some i => exact follows_notify (follows_policy (hset.trans (.same rfl rfl)))
    | none => exact follows_goIdle hset
  · cases keepIndex sm ncfg with
    | some i => exact follows_notify (follows_policy (hset.trans (.same rfl rfl)))
    | none =>
      obtain ⟨left, hleft⟩ : ∃ left, left = leaveForConfig port
          { setCfg sm ncfg with st := { sm.st with staEnabled := ncfg.staEnabled } } := ⟨_, rfl⟩
      have hleave : Follows port sm left := hleft ▸ follows_leaveForConfig hset
      rw [← hleft]
      exact follows_startAttempt (hleave.trans (.same rfl rfl))

theorem follows_onStop : Follows port sm (onStop sm) := by
  obtain ⟨off, hoff⟩ : ∃ off, off =
      portalDown (call { sm with timerDueMs := 0, stateDueMs := 0 } .cancelTimer) := ⟨_, rfl⟩
  have hfollows : Follows port sm off :=
    hoff ▸ follows_portalDown (follows_cancelTimer (.same rfl rfl))
  unfold onStop
  dsimp only
  rw [← hoff]
  split_ifs
  · exact .refl port sm
  · exact follows_notify ((follows_disconnect hfollows).trans (.same rfl rfl))
  · exact follows_notify (hfollows.trans (.same rfl rfl))

theorem follows_onTimer : Follows port sm (onTimer port sm) := by
  have hfire : Follows port sm (firePortalTimer port sm) := follows_policy (.same rfl rfl)
  have hoff : Follows port sm { sm with timerDueMs := 0, stateDueMs := 0 } := .same rfl rfl
  unfold onTimer
  split_ifs
  · exact .refl port sm
  · exact .refl port sm
  · unfold onPortalTimer
    refine follows_notify ?_
    cases (firePortalTimer port sm).st.state
    all_goals dsimp only
    case backoff =>
      split_ifs
      · exact follows_startAttempt hfire
      · exact follows_rearmState hfire
    case connecting | obtainingIp => exact follows_rearmState hfire
    case disabled | unconfigured | connected => exact follows_armPortalOnly hfire
  · unfold onStateTimer
    dsimp only
    cases sm.st.state
    all_goals dsimp only
    case backoff => exact follows_startAttempt hoff
    case connecting | obtainingIp => exact follows_attemptFailed (follows_disconnect hoff)
    case disabled | unconfigured | connected => exact hoff

theorem follows_onGotIp {ip : Option Ip} : Follows port sm (onGotIp port sm ip) := by
  unfold onGotIp
  split_ifs
  · exact .refl port sm
  · obtain ⟨st, hst, hfirst⟩ :=
      firstIp_eq port { sm with st := { sm.st with ip := ip.getD sm.st.ip } }
    rw [hfirst]
    refine follows_notify (follows_policy ?_)
    exact .called (c := .cancelTimer) rfl hst fun _ => rfl

-- Every event but the one that reports a start that failed.
theorem follows_event {ev : Event} (hev : ev ≠ .portalFailed) :
    Follows port sm (event port sm ev) := by
  have hself := Follows.refl port sm
  cases ev with
  | start =>
    simp only [event, onStart]
    split_ifs
    · exact hself
    · exact follows_goIdle (hself.trans (.same rfl rfl))
    · exact follows_startAttempt (hself.trans (.same rfl rfl))
  | stop => exact follows_onStop
  | config ncfg => exact follows_onConfig
  | staConnected link =>
    simp only [event, onStaConnected]
    split_ifs
    · exact hself
    · exact follows_notify (follows_arm (follows_policy (hself.trans (.same rfl rfl))))
  | staDisconnected reason =>
    simp only [event, onStaDisconnected]
    split_ifs
    · exact follows_attemptFailed hself
    · exact hself
  | gotIp ip => exact follows_onGotIp
  | lostIp =>
    simp only [event, onLostIp]
    split_ifs
    · exact follows_notify (follows_arm (follows_policy (hself.trans (.same rfl rfl))))
    · exact hself
  | timer => exact follows_onTimer
  | portalClient count => exact follows_notify (hself.trans (.same rfl rfl))
  | portalFailed => exact absurd rfl hev
  | portalReconfig =>
    simp only [event, onPortalReconfig]
    split_ifs
    · exact follows_notify (follows_policy (follows_portalDown hself))
    · exact hself
  | otherNet up =>
    simp only [event, onOtherNet]
    split_ifs
    · exact hself
    · exact follows_reevaluate (hself.trans (.same rfl rfl))
  | portalForce want =>
    simp only [event, onPortalForce]
    split
    · exact hself
    split_ifs
    · exact hself
    · exact follows_reevaluate (hself.trans (.same rfl rfl))

end Espos.Wifi
