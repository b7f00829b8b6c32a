import Espos.Platform
import Espos.Lib.Run
import Espos.Lib.Lists
import Espos.Lib.Text

-- The two firmware updates of a device: `espos_ota.c`, whose task takes commands
-- from a queue, and `coproc_update.c`, whose requests start a task each. A step
-- reads or writes what they share once.

namespace Espos.Update

open Espos.Text

-- What the build decides: CONFIG_MBEDTLS_CERTIFICATE_BUNDLE.
structure Build where
  certificateBundle : Bool

def ESPOS_OTA_URL_MAX : Nat := 256
def URL_MAX : Nat := 256
def QUEUE_LENGTH : Nat := 4

def ESPOS_COPROC_FW_URL : CStr :=
  lit "https://raw.githubusercontent.com/signalk-espOS/espOS/coprocessor-assets/esp32c6/3.0.10/" ++
    lit "espos-coprocessor-esp32c6-3.0.10-aa9e9742a77c.bin"

-- `espos_ota_state_t`
inductive OtaState
  | idle
  | checking
  | available
  | downloading
  | verifying
  | ready
  | failed
deriving DecidableEq

-- The states in which `send_cmd` refuses and `espos_ota_busy` answers yes.
def OtaState.busy : OtaState → Bool
  | .checking | .downloading | .verifying | .ready => true
  | .idle | .available | .failed => false

-- `CMD_*`
inductive Cmd
  | check
  | installUrl (url : CStr)
  | installAvail
  | confirm
  | rollback
  | stop
deriving DecidableEq

-- The commands a co-processor update refuses.
def Cmd.excluded : Cmd → Bool
  | .installUrl _ | .installAvail | .rollback => true
  | .check | .confirm | .stop => false

-- Where the OTA task is. It is about to do what the place is named after.
inductive OtaPc
  | absent
  | receives
  | obeys (c : Cmd)
  | ticks
  | schedules
  | checks
  | fetches
  | offers
  | claims (url : CStr)
  | asks (url : CStr)
  | quiesces (url : CStr)
  | installs (url : CStr)
  | resumes (error : Option CStr)
  | reboots
  | fails (text : CStr)
  | asksRollback
  | unclaimsRollback
  | rollsBack
  | invalidates
  | returns
  | givesUp
deriving DecidableEq

-- Where a task is that sends a command.
inductive RequestPc
  | out
  | looks
  | asks (c : Cmd)
  | reads (c : Cmd)
  | sends (c : Cmd)
  | answered (e : EspErr)
deriving DecidableEq

-- Where a task is in `start` of coproc_update.c.
inductive StartPc
  | out
  | inspects (url : CStr)
  | claims (url : CStr)
  | asks (url : CStr)
  | reads (url : CStr)
  | counts (url : CStr)
  | unclaims
  | records (url : CStr)
  | creates (url : CStr)
  | unrecords
  | answered (e : EspErr)
deriving DecidableEq

-- Where `update_task` is.
inductive UpdatePc
  | none
  | downloads
  | verifies
  | writes
  | activates
  | settles
  | finishes
deriving DecidableEq

-- `cp_state_t`
inductive CpState
  | idle
  | downloading
  | verifying
  | writing
  | restarting
  | failed
deriving DecidableEq

structure Sys where
  -- espos_ota.c. There is a lock, and a queue, from the first start on.
  lock : Bool
  queue : List Cmd
  state : OtaState
  lastError : Buf 96
  avail : Option CStr
  rollingBack : Bool
  ota : OtaPc
  requests : Nat → RequestPc
  -- The running image is still to be confirmed.
  pendingVerify : Bool
  -- coproc_update.c
  running : Bool
  status : CpState
  url : CStr
  starts : Nat → StartPc
  update : UpdatePc

-- How a manifest check ends: without an answer, without a build for this device,
-- or with one, which may be newer than the one that runs.
inductive CheckEnd
  | failed (text : CStr)
  | notFound (text : CStr)
  | found (url : CStr) (newer : Bool)

-- What `tick_confirm` finds to do.
inductive Tick
  | nothing
  | confirm
  | rollback

-- What a step of the OTA task finds outside: whether a second passed without a
-- command, what the tick is to do and whether a check is due, why a check cannot
-- start and how it ends, `auto_install`, the error of an install, and whether
-- the image could be marked valid.
structure OtaIn where
  timeout : Bool
  tick : Tick
  due : Bool
  obstacle : Option CStr
  checked : CheckEnd
  autoInstall : Bool
  installed : Option CStr
  marked : Bool

-- The calls that send a command.
inductive Call
  | checkNow
  | installUrl (url : Option CStr)
  | installAvailable
  | confirm
  | rollback

inductive Event
  | otaStart
  | otaStop
  | ota (i : OtaIn)
  | calls (task : Nat) (call : Call)
  | sends (task : Nat)
  | posts (task : Nat) (url : Option CStr)
  -- `ok` is whether the task could be created
  | starts (task : Nat) (ok : Bool)
  -- `ok` is whether the update's next stage succeeds
  | update (ok : Bool)
  | restart (pendingVerify : Bool)

namespace Sys

def boot (pendingVerify : Bool) : Sys where
  lock := false
  queue := []
  state := .idle
  lastError := .empty
  avail := none
  rollingBack := false
  ota := .absent
  requests := fun _ => .out
  pendingVerify := pendingVerify
  running := false
  status := .idle
  url := []
  starts := fun _ => .out
  update := .none

-- The OTA task

def setState (s : Sys) (st : OtaState) (err : Option CStr) : Sys :=
  { s with
    state := st
    lastError :=
      match err with
      | some text => .print text
      | none => if st ≠ .failed then .empty else s.lastError }

def goOn (s : Sys) (pc : OtaPc) : Sys :=
  { s with ota := pc }

def roll (s : Sys) (rollingBack : Bool) : Sys :=
  { s with rollingBack := rollingBack }

def offer (s : Sys) (avail : Option CStr) : Sys :=
  { s with avail := avail }

-- `xQueueSend(s.q, &c, 0)`, to a queue that may be full
def enqueue (s : Sys) (c : Cmd) : Sys :=
  { s with queue := if s.queue.length < QUEUE_LENGTH then s.queue ++ [c] else s.queue }

def markValid (s : Sys) (marked : Bool) : Sys :=
  { s with pendingVerify := if marked then false else s.pendingVerify }

def receive (s : Sys) (timeout : Bool) : Sys :=
  match s.queue with
  | c :: rest => { s with queue := rest, ota := .obeys c }
  | [] => if timeout then s.goOn .ticks else s

def obey (s : Sys) (c : Cmd) (i : OtaIn) : Sys :=
  match c with
  | .check => s.goOn .checks
  | .installUrl url => s.goOn (.claims url)
  | .installAvail =>
    match s.avail with
    | some url => s.goOn (.claims url)
    | none => s.goOn (.fails (lit "nothing to install: check first"))
  | .confirm => (s.markValid i.marked).goOn .receives
  | .rollback => (s.roll true).goOn .asksRollback
  | .stop => s.goOn .absent

def finishCheck (s : Sys) (e : CheckEnd) : Sys :=
  match e with
  | .failed text => (s.setState .failed (some text)).goOn .receives
  | .notFound text => (s.offer none).goOn (.fails text)
  | .found url false => ((s.offer (some url)).setState .idle none).goOn .receives
  | .found url true => ((s.offer (some url)).setState .available none).goOn .offers

def coprocText : CStr :=
  lit "a radio co-processor update is running"

def otaStep (s : Sys) (i : OtaIn) : Sys :=
  match s.ota with
  | .absent => s
  | .receives => s.receive i.timeout
  | .obeys c => s.obey c i
  | .ticks =>
    match i.tick with
    | .nothing => s.goOn .schedules
    | .confirm => (s.markValid i.marked).goOn .schedules
    | .rollback =>
      (s.setState .failed (some (lit "rollback: network not reached in time"))).goOn .givesUp
  | .schedules =>
    let busy := s.state = .downloading ∨ s.state = .verifying ∨ s.state = .ready
    s.goOn (if i.due ∧ ¬ busy then .checks else .receives)
  | .checks =>
    match i.obstacle with
    | some text => (s.setState .failed (some text)).goOn .receives
    | none => (s.setState .checking none).goOn .fetches
  | .fetches => s.finishCheck i.checked
  | .offers => (if i.autoInstall then s.enqueue .installAvail else s).goOn .receives
  -- claimed before the check
  | .claims url => (s.setState .downloading none).goOn (.asks url)
  | .asks url => s.goOn (if s.running then .fails coprocText else .quiesces url)
  | .quiesces url => s.goOn (.installs url)
  | .installs _ => s.goOn (.resumes i.installed)
  | .resumes (some error) => (s.setState .failed (some error)).goOn .receives
  | .resumes none => (s.setState .ready none).goOn .reboots
  -- only the host simulator returns from here
  | .reboots => (s.setState .idle none).goOn .receives
  | .fails text => (s.setState .failed (some text)).goOn .receives
  | .asksRollback => s.goOn (if s.running then .unclaimsRollback else .rollsBack)
  | .unclaimsRollback => (s.roll false).goOn (.fails coprocText)
  | .rollsBack => (s.setState .failed (some (lit "rollback requested"))).goOn .invalidates
  | .invalidates => s.goOn .returns
  -- back here only without an image to roll back to
  | .returns => (s.roll false).goOn .receives
  | .givesUp => s.goOn .schedules

def otaStart (s : Sys) : Sys :=
  if s.ota = .absent then { s with lock := true, ota := .receives } else s

-- The queue's last command; `espos_ota_stop` waits for room.
def otaStop (s : Sys) : Sys :=
  if s.ota ≠ .absent then s.enqueue .stop else s

-- Requests

def request (s : Sys) (task : Nat) (pc : RequestPc) : Sys :=
  { s with requests := Function.update s.requests task pc }

def isHttp (url : CStr) : Bool :=
  (lit "http://").isPrefixOf url || (lit "https://").isPrefixOf url

def callStep (s : Sys) (task : Nat) : Call → Sys
  | .checkNow => s.request task (.asks .check)
  | .installUrl none => s.request task (.answered .invalidArg)
  | .installUrl (some url) =>
    s.request task (if ESPOS_OTA_URL_MAX ≤ url.length ∨ isHttp url = false then
      .answered .invalidArg else .asks (.installUrl url))
  | .installAvailable => s.request task .looks
  | .confirm => s.request task (.asks .confirm)
  | .rollback => s.request task (.asks .rollback)

def sendStep (s : Sys) (task : Nat) : Sys :=
  match s.requests task with
  | .out | .answered _ => s
  | .looks =>
    s.request task (if s.avail.isSome then .asks .installAvail else .answered .notFound)
  | .asks c =>
    s.request task (if s.lock = false then .answered .invalidState
      else if c.excluded ∧ s.running then .answered .notFinished else .reads c)
  | .reads c =>
    s.request task (if s.state.busy ∧ c ≠ .confirm then .answered .invalidState else .sends c)
  | .sends c =>
    (s.enqueue c).request task
      (.answered (if s.queue.length < QUEUE_LENGTH then .ok else .invalidState))

-- The co-processor

def place (s : Sys) (task : Nat) (pc : StartPc) : Sys :=
  { s with starts := Function.update s.starts task pc }

def setRunning (s : Sys) (running : Bool) : Sys :=
  { s with running := running }

def setStatus (s : Sys) (status : CpState) : Sys :=
  { s with status := status }

def setUrl (s : Sys) (url : CStr) : Sys :=
  { s with url := url }

def setUpdate (s : Sys) (pc : UpdatePc) : Sys :=
  { s with update := pc }

-- What `start` looks at before it looks at the device.
def startCheck (B : Build) (url : CStr) : EspErr :=
  if isHttp url = false then .invalidArg
  else if B.certificateBundle = false ∧ (lit "https://").isPrefixOf url then .notSupported
  else if URL_MAX ≤ url.length then .invalidSize
  else .ok

def postStep (B : Build) (s : Sys) (task : Nat) (url : Option CStr) : Sys :=
  let url := if url.getD [] = [] then ESPOS_COPROC_FW_URL else url.getD []
  s.place task (if startCheck B url = .ok then .inspects url else .answered (startCheck B url))

def startStep (s : Sys) (task : Nat) (ok : Bool) : Sys :=
  match s.starts task with
  | .out | .answered _ => s
  | .inspects url =>
    s.place task (if s.pendingVerify then .answered .invalidVersion else .claims url)
  | .claims url =>
    (s.setRunning true).place task (if s.running then .answered .invalidState else .asks url)
  -- `espos_ota_busy`: no lock, then the state, then the queue
  | .asks url => s.place task (if s.lock then .reads url else .records url)
  | .reads url =>
    s.place task (if s.state.busy || s.rollingBack then .unclaims else .counts url)
  | .counts url => s.place task (if s.queue = [] then .records url else .unclaims)
  | .unclaims => (s.setRunning false).place task (.answered .notFinished)
  | .records url => ((s.setStatus .downloading).setUrl url).place task (.creates url)
  | .creates _ =>
    if ok then (s.setUpdate .downloads).place task (.answered .ok) else s.place task .unrecords
  | .unrecords => ((s.setRunning false).setStatus .idle).place task (.answered .noMem)

def updateStep (s : Sys) (ok : Bool) : Sys :=
  match s.update with
  | .none => s
  | .downloads =>
    if ok then (s.setStatus .verifying).setUpdate .verifies
    else (s.setStatus .failed).setUpdate .finishes
  | .verifies =>
    if ok then (s.setStatus .writing).setUpdate .writes
    else (s.setStatus .failed).setUpdate .finishes
  | .writes =>
    if ok then (s.setStatus .restarting).setUpdate .activates
    else (s.setStatus .failed).setUpdate .finishes
  -- either way a restart settles which image runs
  | .activates => (if ok then s else s.setStatus .failed).setUpdate .settles
  | .settles => s
  | .finishes => (s.setRunning false).setUpdate .none

end Sys

def step (B : Build) (s : Sys) : Event → Sys
  | .otaStart => s.otaStart
  | .otaStop => s.otaStop
  | .ota i => s.otaStep i
  | .calls task call =>
    match s.requests task with
    | .out | .answered _ => s.callStep task call
    | _ => s
  | .sends task => s.sendStep task
  | .posts task url =>
    match s.starts task with
    | .out | .answered _ => s.postStep B task url
    | _ => s
  | .starts task ok => s.startStep task ok
  | .update ok => s.updateStep ok
  | .restart pendingVerify => .boot pendingVerify

end Espos.Update
