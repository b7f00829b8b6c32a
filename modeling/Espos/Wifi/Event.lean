import Espos.Wifi.Machine

namespace Espos.Wifi

open Espos.Clock Espos.Text

inductive Event where
  | start
  | stop
  | config (cfg : Cfg)
  | staConnected (link : Option Link)
  | staDisconnected (reason : Option Int)
  | gotIp (ip : Option Ip)
  | lostIp
  | timer
  | portalClient (count : Option Int)
  | portalFailed
  | portalReconfig
  | otherNet (up : Option Bool)
  | portalForce (want : Option Nat)

-- The comparison both loops over the networks make.
def sameNet (a b : Net) : Bool :=
  cString a.ssid.toList == cString b.ssid.toList && cString a.psk.toList == cString b.psk.toList &&
    a.hasBssid == b.hasBssid && (!a.hasBssid || a.bssid == b.bssid)

def Cfg.used (cfg : Cfg) : List Net :=
  cfg.nets.take cfg.netCount

def netsEqual (a b : Cfg) : Bool :=
  a.netCount == b.netCount && (a.used.zip b.used).all fun (x, y) => sameNet x y

section Events

variable (port : Port) (sm : Machine)

-- The place of the network in use in the new list.
def currentNetStillValid (ncfg : Cfg) : Option Nat :=
  if indexValid sm.cfg sm.st.netIndex then
    ncfg.used.findIdx? fun n => sameNet n (currentNet sm)
  else none

def onStart : Machine :=
  if sm.started then sm
  else
    let sm := setDisconnectedSince port { sm with
      started := true
      st := { sm.st with round := 0, attempt := 0 } }
    if !sm.cfg.staEnabled then goIdle port sm .disabled reasonDisabled
    else startAttempt port (setNetIndex sm 0)

def onStop : Machine :=
  if !sm.started then sm
  else
    let sm := call { sm with timerDueMs := 0, stateDueMs := 0 } .cancelTimer
    let sm := portalDown sm
    let sm := if sm.st.state.associating then call sm .disconnect else sm
    notify (setNetIndex (setState { sm with started := false } .disabled) (-1))

def setCfg (cfg : Cfg) : Machine :=
  { sm with cfg := cfg }

-- A new configuration that leaves the station alone.
def onKnobs (ncfg : Cfg) : Machine :=
  let sm := setCfg sm ncfg
  if sm.started then
    let sm := portalPolicy port sm
    notify (if sm.st.state = .unconfigured ∨ sm.st.state = .disabled then
      armPortalOnly port sm else sm)
  else sm

-- The place the connection keeps under the new configuration, if it survives it.
def keepIndex (ncfg : Cfg) : Option Nat :=
  if sm.started && ncfg.staEnabled && (sm.st.state == .connected || sm.st.state == .obtainingIp) then
    currentNetStillValid sm ncfg
  else none

def leaveForConfig : Machine :=
  if sm.st.state.associating then
    let sm := call sm .disconnect
    if sm.st.state = .connected then setDisconnectedSince port (countDisconnect sm) else sm
  else sm

def onConfig (ncfg : Cfg) : Machine :=
  if ncfg = sm.cfg then sm
  else if netsEqual ncfg sm.cfg && ncfg.staEnabled == sm.cfg.staEnabled then onKnobs port sm ncfg
  else
    let keep := keepIndex sm ncfg
    let sm := { setCfg sm ncfg with st := { sm.st with staEnabled := ncfg.staEnabled } }
    if !sm.started then sm
    else
      match keep with
      | some i => notify (portalPolicy port (setNetIndex sm i))
      | none =>
        if !ncfg.staEnabled then goIdle port sm .disabled reasonDisabled
        else
          let sm := setReason (leaveForConfig port sm) reasonConfigChange
          startAttempt port { sm with st := { sm.st with round := 0, attempt := 0, netIndex := 0 } }

def onStaConnected (link : Option Link) : Machine :=
  if sm.st.state ≠ .connecting then sm
  else
    let sm := { sm with st := { sm.st with link := link.getD sm.st.link } }
    let sm := portalPolicy port (setState (setInFlight sm false) .obtainingIp)
    notify (arm port sm sm.cfg.dhcpTimeoutMs true)

-- The first address of an association. A renewal counts nothing.
def firstIp : Machine :=
  if sm.st.state ≠ .connected then
    { sm with st := { sm.st with
      connectCount := sm.st.connectCount + 1
      connectedSinceMs := port.now
      round := 0
      attempt := 0
      reason := reasonNone } }
  else sm

def onGotIp (ip : Option Ip) : Machine :=
  if sm.st.state ≠ .obtainingIp ∧ sm.st.state ≠ .connected then sm
  else
    let sm := firstIp port { sm with st := { sm.st with ip := ip.getD sm.st.ip } }
    let sm := call (setState sm .connected) .cancelTimer
    notify (portalPolicy port { sm with timerIsDhcp := false, stateDueMs := 0, timerDueMs := 0 })

def onLostIp : Machine :=
  if sm.st.state = .connected then
    let sm := setDisconnectedSince port (countDisconnect sm)
    let sm := setReason { sm with st := { sm.st with ip := .zero } } reasonLostIp
    let sm := portalPolicy port (setState sm .obtainingIp)
    notify (arm port sm sm.cfg.dhcpTimeoutMs true)
  else sm

-- The timer ran out for the portal.
def firePortalTimer : Machine :=
  portalPolicy port { sm with timerDueMs := 0, timerIsPortal := false }

-- The state's timeout keeps its deadline.
def onPortalTimer : Machine :=
  let sm := firePortalTimer port sm
  notify (match sm.st.state with
    | .backoff => if backoffRemainingMs port sm = 0 then startAttempt port sm else rearmState port sm
    | .connecting | .obtainingIp => rearmState port sm
    | .disabled | .unconfigured | .connected => armPortalOnly port sm)

def onStateTimer : Machine :=
  let sm := { sm with timerDueMs := 0, stateDueMs := 0 }
  match sm.st.state with
  | .backoff => startAttempt port sm
  | .connecting =>
    attemptFailed port (call sm .disconnect) (startAttempt port) reasonConnectTimeout
  | .obtainingIp =>
    attemptFailed port (call sm .disconnect) (startAttempt port) reasonDhcpTimeout
  | .disabled | .unconfigured | .connected => sm

def onTimer : Machine :=
  if !sm.started then sm
  else if sm.timerDueMs = 0 ∨ ahead port.now sm.timerDueMs < 0 then sm
  else if sm.timerIsPortal then onPortalTimer port sm
  else onStateTimer port sm

def onPortalClient (count : Option Int) : Machine :=
  notify { sm with st := { sm.st with
    portalClients := if sm.st.portalActive then count.getD 0 else 0 } }

-- The access point did not come up: forget it and try again in ten seconds.
def failPortal : Machine :=
  setPortalDue (setPortal sm false) (due port.now 10000)

def onPortalFailed : Machine :=
  if sm.st.portalActive then
    let sm := failPortal port sm
    notify (if sm.stateDueMs ≠ 0 then rearmState port sm else armPortalOnly port sm)
  else sm

def onPortalReconfig : Machine :=
  if sm.st.portalActive then notify (portalPolicy port (portalDown sm)) else sm

-- What the two events that change the policy end with.
def reevaluate : Machine :=
  if !sm.started then sm else notify (rearmAfterPolicy port (portalPolicy port sm))

def onOtherNet (up : Option Bool) : Machine :=
  if up.getD false = sm.otherNetUp then sm
  else reevaluate port { sm with otherNetUp := up.getD false }

def onPortalForce (want : Option Nat) : Machine :=
  match PortalForce.ofNat? (want.getD 0) with
  | none => sm
  | some want =>
    if want = sm.st.portalForce then sm
    else reevaluate port { sm with st := { sm.st with portalForce := want } }

def event : Event → Machine
  | .start => onStart port sm
  | .stop => onStop sm
  | .config cfg => onConfig port sm cfg
  | .staConnected link => onStaConnected port sm link
  | .staDisconnected reason => onStaDisconnected port sm (startAttempt port) (reason.getD 0)
  | .gotIp ip => onGotIp port sm ip
  | .lostIp => onLostIp port sm
  | .timer => onTimer port sm
  | .portalClient count => onPortalClient sm count
  | .portalFailed => onPortalFailed port sm
  | .portalReconfig => onPortalReconfig port sm
  | .otherNet up => onOtherNet port sm up
  | .portalForce want => onPortalForce port sm want

def forgetCalls : Machine :=
  { sm with calls := [] }

end Events

-- One event, with the calls of the events before it forgotten.
def step (sm : Machine) (input : Port × Event) : Machine :=
  event input.1 (forgetCalls sm) input.2

-- Short forms the scenarios below are written with.
section Scenario

def Net.named (c : UInt8) : Net :=
  { Net.zero with ssid := (Vector.replicate 33 0).set 0 c }

def Cfg.single (c : UInt8) : Cfg where
  staEnabled := true
  nets := [Net.named c]
  netCount := 1
  backoffMaxMs := 60000
  dhcpTimeoutMs := 15000
  connectTimeoutMs := 20000
  portalEnabled := true
  portalAfterMs := 10000
  portalOnline := false
  netCount_le := le_rfl

def Cfg.sample : Cfg :=
  Cfg.single 97

def Cfg.bare : Cfg :=
  { Cfg.sample with nets := [], netCount := 0, netCount_le := by decide }

-- A port that grants everything.
def Port.granting (now : UInt32) : Port :=
  ⟨.still now, 0, fun _ _ => true, fun _ => true⟩

end Scenario

end Espos.Wifi
