import Espos.Lib.Clock
import Espos.Lib.Text

-- The state machine of `wifi_sm.c`. It drives its port and is fed what happens
-- as events; the calls it makes while it handles one event are collected in
-- `calls`, the newest first.

namespace Espos.Wifi

open Espos.Clock Espos.Text

inductive State where
  | disabled
  | unconfigured
  | connecting
  | obtainingIp
  | connected
  | backoff
deriving DecidableEq

def reasonNone : Int := 0
def reasonDhcpTimeout : Int := 1001
def reasonConnectTimeout : Int := 1002
def reasonLostIp : Int := 1003
def reasonConfigChange : Int := 1004
def reasonDisabled : Int := 1005

structure Net where
  ssid : Vector UInt8 33
  psk : Vector UInt8 65
  hasBssid : Bool
  bssid : Vector UInt8 6
deriving DecidableEq

def Net.zero : Net :=
  ⟨.replicate 33 0, .replicate 65 0, false, .replicate 6 0⟩

structure Cfg where
  staEnabled : Bool
  nets : List Net
  netCount : Nat
  backoffMaxMs : UInt32
  dhcpTimeoutMs : UInt32
  connectTimeoutMs : UInt32
  portalEnabled : Bool
  portalAfterMs : UInt32
  portalOnline : Bool
  netCount_le : netCount ≤ nets.length
deriving DecidableEq

inductive PortalForce where
  | auto
  | up
  | down
deriving DecidableEq

-- The values the enumeration has; any other is refused.
def PortalForce.ofNat? : Nat → Option PortalForce
  | 0 => some .auto
  | 1 => some .up
  | 2 => some .down
  | _ => none

structure Link where
  ssid : Buf 33
  bssid : Vector UInt8 6
  channel : UInt8
  rssi : Int8
deriving DecidableEq

def Link.zero : Link :=
  ⟨.empty, .replicate 6 0, 0, 0⟩

structure Ip where
  ip : Buf 16
  netmask : Buf 16
  gateway : Buf 16
deriving DecidableEq

def Ip.zero : Ip :=
  ⟨.empty, .empty, .empty⟩

-- What the machine calls its port for, with the port's answer where it has one.
inductive Call where
  | connect (net : Net) (accepted : Bool)
  | disconnect
  | portalStart (up : Bool)
  | portalStop
  | armTimer (ms : UInt32)
  | cancelTimer
  | statusChanged
deriving DecidableEq

structure Status where
  state : State
  staEnabled : Bool
  netIndex : Int
  link : Link
  ip : Ip
  reason : Int
  backoffUntilMs : UInt32
  attempt : UInt32
  round : UInt32
  connectedSinceMs : UInt32
  disconnectedSinceMs : UInt32
  connectCount : UInt32
  disconnectCount : UInt32
  portalActive : Bool
  portalClients : Int
  portalForce : PortalForce
deriving DecidableEq

structure Machine where
  cfg : Cfg
  st : Status
  started : Bool
  timerIsDhcp : Bool
  timerIsPortal : Bool
  portalDueMs : UInt32
  stateDueMs : UInt32
  timerDueMs : UInt32
  connectInFlight : Bool
  otherNetUp : Bool
  calls : List Call
deriving DecidableEq

-- What the clock says during one event. `arm` reads it anew for the wait until the
-- portal's deadline and for the timer's due time; everything else goes by `now`.
structure Readings where
  now : UInt32
  portalNow : UInt32
  timerNow : UInt32
deriving DecidableEq

-- The clock does not move on.
def Readings.still (now : UInt32) : Readings :=
  ⟨now, now, now⟩

-- What the port answers during one event: its clock, its random source, whether
-- it takes a connect and whether the access point comes up. The last two see
-- the calls made so far, so every single call may be answered differently.
structure Port extends Readings where
  random : UInt32
  connect : List Call → Net → Bool
  portalStart : List Call → Bool

def init (cfg : Cfg) : Machine where
  cfg := cfg
  st := {
    state := .disabled
    staEnabled := cfg.staEnabled
    netIndex := -1
    link := .zero
    ip := .zero
    reason := 0
    backoffUntilMs := 0
    attempt := 0
    round := 0
    connectedSinceMs := 0
    disconnectedSinceMs := 0
    connectCount := 0
    disconnectCount := 0
    portalActive := false
    portalClients := 0
    portalForce := .auto }
  started := false
  timerIsDhcp := false
  timerIsPortal := false
  portalDueMs := 0
  stateDueMs := 0
  timerDueMs := 0
  connectInFlight := false
  otherNetUp := false
  calls := []

def baseBackoffMs : Nat := 1000

-- The loop that doubles the delay once for each round until it reaches the cap.
def doubled (cap : Nat) : Nat → Nat → Nat
  | 0, d => d
  | round + 1, d => if d < cap then doubled cap round (d * 2) else d

def backoffMs (round capMs rnd : UInt32) : UInt32 :=
  let d := min (doubled capMs.toNat round.toNat baseBackoffMs) capMs.toNat
  let span := d / 2
  let j := if span = 0 then 0 else rnd.toNat % (span + 1)
  UInt32.ofNat (max (d - span / 2 + j) 250)

section Helpers

variable (port : Port) (sm : Machine)

def setState (s : State) : Machine :=
  { sm with st := { sm.st with state := s } }

def call (c : Call) : Machine :=
  { sm with calls := c :: sm.calls }

def notify : Machine :=
  call sm .statusChanged

def setPortal (active : Bool) : Machine :=
  { sm with st := { sm.st with portalActive := active, portalClients := 0 } }

def setPortalDue (ms : UInt32) : Machine :=
  { sm with portalDueMs := ms }

def portalUp : Machine :=
  let sm :=
    if !sm.st.portalActive && sm.cfg.portalEnabled then
      let up := port.portalStart sm.calls
      let sm := call sm (.portalStart up)
      if up then setPortal sm true else sm
    else sm
  setPortalDue sm 0

def portalDown : Machine :=
  let sm := if sm.st.portalActive then setPortal (call sm .portalStop) false else sm
  setPortalDue sm 0

-- When the portal comes up that nothing but time holds back.
def portalDeadline : UInt32 :=
  sm.st.disconnectedSinceMs + sm.cfg.portalAfterMs

def portalPolicy : Machine :=
  if !sm.cfg.portalEnabled then portalDown sm
  else if sm.st.portalForce = .down then portalDown sm
  else if sm.st.portalForce = .up then
    -- Even a portal that was asked for waits for the attempt under way.
    if sm.connectInFlight then setPortalDue sm 0 else portalUp port sm
  else if sm.st.state = .connected then portalDown sm
  else if sm.otherNetUp && !sm.cfg.portalOnline then portalDown sm
  else if sm.st.portalActive then sm
  else if sm.cfg.netCount = 0 || !sm.cfg.staEnabled then portalUp port sm
  else if 0 ≤ ahead port.now (portalDeadline sm) then
    if sm.connectInFlight then setPortalDue sm 0 else portalUp port sm
  else setPortalDue sm (moved (portalDeadline sm))

def untilPortal (now : UInt32) : UInt32 :=
  remaining now sm.portalDueMs

-- One timer serves the state's timeout and the portal: the portal's deadline is
-- folded in when it comes first.
def arm (ms : UInt32) (isDhcp : Bool) : Machine :=
  let portalFirst := sm.portalDueMs ≠ 0 ∧ untilPortal sm port.portalNow < ms
  let wait := if portalFirst then untilPortal sm port.portalNow else ms
  call { sm with
    timerIsDhcp := isDhcp
    timerIsPortal := decide portalFirst
    stateDueMs := due port.now ms
    timerDueMs := due port.timerNow wait } (.armTimer wait)

-- The pending timeout is armed again for the time it has left, with the
-- deadline it had.
def rearmState : Machine :=
  if sm.stateDueMs = 0 then sm
  else
    let armed := arm port sm (remaining port.now sm.stateDueMs) (sm.st.state = .obtainingIp)
    { armed with stateDueMs := sm.stateDueMs }

def armPortalOnly : Machine :=
  if sm.portalDueMs ≠ 0 then
    call { sm with
      stateDueMs := 0
      timerIsDhcp := false
      timerIsPortal := true
      timerDueMs := due port.now (untilPortal sm port.now) } (.armTimer (untilPortal sm port.now))
  else
    call { sm with stateDueMs := 0, timerDueMs := 0 } .cancelTimer

def rearmAfterPolicy : Machine :=
  if sm.stateDueMs ≠ 0 then rearmState port sm else armPortalOnly port sm

def clearLink : Machine :=
  { sm with st := { sm.st with link := .zero, ip := .zero } }

def setReason (reason : Int) : Machine :=
  { sm with st := { sm.st with reason := reason } }

def setNetIndex (i : Int) : Machine :=
  { sm with st := { sm.st with netIndex := i } }

def setInFlight (inFlight : Bool) : Machine :=
  { sm with connectInFlight := inFlight }

-- A connection that was up has ended.
def countDisconnect : Machine :=
  { sm with st := { sm.st with disconnectCount := sm.st.disconnectCount + 1 } }

def setDisconnectedSince : Machine :=
  { sm with st := { sm.st with disconnectedSinceMs := port.now } }

def indexValid (cfg : Cfg) (i : Int) : Bool :=
  0 ≤ i && i < cfg.netCount

-- Something the driver has to be told to leave before anything else is tried.
def State.associating : State → Bool
  | .connecting | .obtainingIp | .connected => true
  | .disabled | .unconfigured | .backoff => false

def backOff : Machine :=
  let delay := backoffMs sm.st.round sm.cfg.backoffMaxMs port.random
  let sm := { sm with st := { sm.st with
    netIndex := 0
    round := if sm.st.round < 30 then sm.st.round + 1 else sm.st.round
    state := .backoff
    backoffUntilMs := port.now + delay } }
  notify (arm port (portalPolicy port sm) delay false)

-- An attempt has ended, whatever ended it.
def lost (reason : Int) : Machine :=
  setInFlight (setReason sm reason) false

-- Between two networks is the only gap of a round the portal can use.
def nextNet : Machine :=
  portalPolicy port (setInFlight (setNetIndex sm (sm.st.netIndex + 1)) false)

-- `attempt_failed`. What starts the next attempt is a parameter, because that
-- attempt may fail at once and come back here.
def attemptFailed (startAttempt : Machine → Machine) (reason : Int) : Machine :=
  let sm := lost sm reason
  if sm.st.state = .connected then
    startAttempt (setDisconnectedSince port (countDisconnect sm))
  else if indexValid sm.cfg (sm.st.netIndex + 1) then startAttempt (nextNet port sm)
  else backOff port sm

def onStaDisconnected (startAttempt : Machine → Machine) (reason : Int) : Machine :=
  if sm.st.state.associating then attemptFailed port sm startAttempt reason else sm

-- No network is configured, so nothing will be attempted.
def unconfigure : Machine :=
  let sm := setInFlight (setNetIndex (setState sm .unconfigured) (-1)) false
  notify (armPortalOnly port (portalPolicy port sm))

-- The network an attempt is made with: the current one, else the first.
def beginAttempt : Machine :=
  let sm := if indexValid sm.cfg sm.st.netIndex then sm else setNetIndex sm 0
  clearLink (setState { sm with st := { sm.st with attempt := sm.st.attempt + 1 } } .connecting)

def currentNet : Net :=
  sm.cfg.nets.getD sm.st.netIndex.toNat .zero

-- What the driver answers the connect with.
def accepts : Bool :=
  port.connect sm.calls (currentNet sm)

def issueConnect : Machine :=
  call sm (.connect (currentNet sm) (accepts port sm))

-- The driver has taken the connect.
def associate : Machine :=
  let sm := portalPolicy port (setInFlight sm true)
  notify (arm port sm sm.cfg.connectTimeoutMs false)

-- The body of `start_attempt`. A connect the driver refuses is handled as the
-- event of a lost association.
def attempt (again : Machine → Machine) : Machine :=
  if sm.cfg.netCount = 0 then unconfigure port sm
  else
    let sm := beginAttempt sm
    if accepts port sm then associate port (issueConnect port sm)
    else onStaDisconnected port (setReason (issueConnect port sm) reasonConnectTimeout) again
      reasonConnectTimeout

end Helpers

-- Refused connects go through the list of networks; the number is how many
-- attempts may follow the first one.
def attempts (port : Port) : Nat → Machine → Machine
  | 0, sm => attempt port sm id
  | n + 1, sm => attempt port sm (attempts port n)

-- Every network is tried at most once before the machine backs off.
def startAttempt (port : Port) (sm : Machine) : Machine :=
  attempts port sm.cfg.netCount sm

-- The first half of `go_idle`: leave the access point.
def dropStation (sm : Machine) : Machine :=
  let sm := if sm.st.state.associating then call sm .disconnect else sm
  if sm.st.state = .connected then countDisconnect sm else sm

def goIdle (port : Port) (sm : Machine) (s : State) (reason : Int) : Machine :=
  let sm := setNetIndex (setReason (dropStation sm) reason) (-1)
  let sm := setState (setInFlight (clearLink (setDisconnectedSince port sm)) false) s
  notify (armPortalOnly port (portalPolicy port sm))

def backoffRemainingMs (port : Port) (sm : Machine) : UInt32 :=
  if sm.st.state ≠ .backoff then 0
  else if 0 < ahead sm.st.backoffUntilMs port.now then sm.st.backoffUntilMs - port.now else 0

end Espos.Wifi
