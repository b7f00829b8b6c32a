import Espos.Lib.Run
import Espos.Lib.Text
import Mathlib.Data.List.Basic

-- The tasks of `wyoming_satellite.cpp` around a running satellite: the server task with
-- its one client, the mic tasks, the network wake task and the calls of
-- `set_wake_network`. A step is one access to what they share.

namespace Espos.Voice

open Espos.Text

-- Why `handle_client` has left its loop.
inductive Cause where
  | closed
  | refused
  | notRunning
deriving DecidableEq

-- Where the server task is in `serve` and `handle_client`; `conn` is the connection a
-- `run-pipeline` has just been sent on.
inductive Server where
  | accepting
  | selecting
  | connects
  | resetsListening
  | resetsHeld
  | polling
  | seesHeld
  | seesListening
  | asks
  | lifts (conn : Nat)
  | creates (conn : Nat)
  | receiving
  | clearing
  | leaving (cause : Cause)
  | joining
  | waiting
  | closing
  | forgets
  | disconnects
  | left
deriving DecidableEq

-- Where a mic task is in `run_mic`.
inductive MicPc where
  | created
  | opening
  | looksListening
  | looksRunning
  | looksConnected
  | sending
  | ending
  | clears
  | marks
  | gives
deriving DecidableEq

-- `conn`: the connection whose `run-pipeline` it is for.
structure Mic where
  pc : MicPc
  conn : Nat
deriving DecidableEq

-- A frame of a mic task, and the connection it was sent on.
structure Frame where
  conn : Nat
  on : Nat
deriving DecidableEq

inductive Wake where
  | gone
  | looping
  | exiting
deriving DecidableEq

-- Where a call of `set_wake_network` is that holds `lifecycle_`, with its locals
-- `was_running` and `prev`.
inductive Call where
  | idle
  | locked (host : CStr) (port : Nat)
  | tearing (host : CStr) (port : Nat) (was : Bool)
  | joins (host : CStr) (port : Nat) (was prev : Bool)
  | restores (host : CStr) (port : Nat) (was prev : Bool)
  | givesUp (prev : Bool)
  | switches (host : CStr) (port : Nat) (was : Bool)
deriving DecidableEq

-- The binary semaphores are whether they hold a token. History only: `sent` and `ended`.
structure Satellite where
  running : Bool := true
  clientConnected : Bool := false
  clientSock : Option Nat := none
  armed : Bool := false
  streaming : Bool := false
  listening : Bool := false
  pttHeld : Bool := false
  micRunning : Bool := false
  micDone : Bool := false
  server : Server := .accepting
  mics : List Mic := []
  onDeviceWake : Bool := true
  wakeHost : CStr := []
  wakePort : Nat := 0
  wakeTask : Bool := false
  wakeDone : Bool := false
  wake : Wake := .gone
  call : Call := .idle
  accepted : Nat := 0
  sent : List Frame := []
  ended : List Cause := []
deriving DecidableEq

-- The events of the orchestrator that reach the state kept here.
inductive Inbound where
  | runSatellite
  | pauseSatellite
  | audioStart (begun : Bool)
  | audioStop (sent : Bool)
  | transcript
  | other (sent : Bool)

-- What a step of the server task meets. `fed` is the end of what a `recv` brought, or of
-- its timeout.
inductive ServerInput where
  | go
  | accept
  | send (ok : Bool)
  | event (e : Inbound)
  | fed
  | ends (framing : Bool)

-- What a step of a mic task meets: whether there is a buffer, whether it goes on (no mute,
-- release tail or cap), whether the read gave anything, whether the send succeeds.
structure MicInput where
  buffer : Bool := true
  goesOn : Bool := true
  recorded : Bool := true
  sent : Bool := true

inductive Step where
  | server (i : ServerInput)
  | mic (k : Nat) (i : MicInput)
  | ptt (held : Bool)
  | wake (invalidHost : Bool)
  | set (host : CStr) (port : Nat)
  | call (ok : Bool)

namespace Satellite

-- What `start` leaves; `ok` is whether the network wake task could be created.
def start (onDeviceWake : Bool) (host : CStr) (port : Nat) (ok : Bool) : Satellite :=
  if !onDeviceWake && !host.isEmpty && ok then
    { onDeviceWake, wakeHost := host, wakePort := port, wakeTask := true, wake := .looping }
  else { onDeviceWake, wakeHost := host, wakePort := port }

def onEvent (s : Satellite) : Inbound → Satellite
  | .runSatellite => { s with armed := true }
  | .pauseSatellite => { s with armed := false, pttHeld := false, server := .clearing }
  | .audioStart begun => { s with streaming := begun }
  | .audioStop sent =>
    { s with streaming := false, server := if sent then .receiving else .leaving .refused }
  | .transcript => { s with pttHeld := false, server := .clearing }
  | .other sent => { s with server := if sent then .receiving else .leaving .refused }

def accept (s : Satellite) : Satellite :=
  if s.clientConnected then { s with server := .accepting }
  else { s with clientSock := some s.accepted, accepted := s.accepted + 1, server := .connects }

def asked (s : Satellite) (ok : Bool) : Satellite :=
  match s.clientSock with
  | some conn => { s with server := if ok then .lifts conn else .receiving }
  | none => { s with server := .receiving }

def serverStep (s : Satellite) (i : ServerInput) : Satellite :=
  match s.server with
  | .accepting => { s with server := if s.running then .selecting else .left }
  | .selecting =>
    match i with
    | .accept => s.accept
    | _ => { s with server := .accepting }
  | .connects =>
    { s with clientConnected := true, streaming := false, armed := false,
             server := .resetsListening }
  | .resetsListening => { s with listening := false, server := .resetsHeld }
  | .resetsHeld => { s with pttHeld := false, server := .polling }
  | .polling => { s with server := if s.running then .seesHeld else .leaving .notRunning }
  | .seesHeld => { s with server := if s.pttHeld then .seesListening else .receiving }
  | .seesListening => { s with server := if s.listening then .receiving else .asks }
  | .asks =>
    if s.armed && !s.streaming then
      match i with
      | .send ok => s.asked ok
      | _ => s
    else { s with server := .receiving }
  | .lifts conn => { s with listening := true, server := .creates conn }
  | .creates conn => { s with mics := s.mics ++ [⟨.created, conn⟩], server := .receiving }
  | .receiving =>
    match i with
    | .event e => s.onEvent e
    | .fed => { s with server := .polling }
    | .ends framing => { s with server := .leaving (if framing then .refused else .closed) }
    | _ => s
  | .clearing => { s with listening := false, server := .receiving }
  | .leaving cause => { s with listening := false, ended := cause :: s.ended, server := .joining }
  | .joining => { s with server := if s.micRunning then .waiting else .closing }
  | .waiting => if s.micDone then { s with micDone := false, server := .closing } else s
  | .closing => { s with streaming := false, server := .forgets }
  | .forgets => { s with clientSock := none, server := .disconnects }
  | .disconnects => { s with clientConnected := false, server := .accepting }
  | .left => s

-- What a mic task sends goes to the socket of the moment.
def sendFrame (s : Satellite) (m : Mic) (ok : Bool) : Satellite :=
  match s.clientSock with
  | some on => if ok then { s with sent := ⟨m.conn, on⟩ :: s.sent } else s
  | none => s

def setMic (s : Satellite) (k : Nat) (m : Mic) (pc : MicPc) : Satellite :=
  { s with mics := s.mics.set k { m with pc } }

def micStep (s : Satellite) (k : Nat) (m : Mic) (i : MicInput) : Satellite :=
  match m.pc with
  | .created => { s with micRunning := true }.setMic k m .opening
  | .opening =>
    if i.buffer then (s.sendFrame m i.sent).setMic k m .looksListening else s.setMic k m .ending
  | .looksListening => s.setMic k m (if s.listening then .looksRunning else .ending)
  | .looksRunning => s.setMic k m (if s.running then .looksConnected else .ending)
  | .looksConnected =>
    s.setMic k m (if s.clientConnected && i.goesOn then
      if i.recorded then .sending else .looksListening else .ending)
  | .sending =>
    (s.sendFrame m i.sent).setMic k m
      (if i.sent && s.clientSock.isSome then .looksListening else .ending)
  | .ending => (s.sendFrame m i.sent).setMic k m .clears
  | .clears => { s with listening := false }.setMic k m .marks
  | .marks => { s with micRunning := false }.setMic k m .gives
  | .gives => { s with micDone := true, mics := s.mics.eraseIdx k }

-- `run_wake` and `wake_session` look at `running_` again and again.
def wakeStep (s : Satellite) (invalidHost : Bool) : Satellite :=
  match s.wake with
  | .gone => s
  | .looping => if s.running && !invalidHost then s else { s with wake := .exiting }
  | .exiting => { s with wakeDone := true, wake := .gone }

def callStep (s : Satellite) (ok : Bool) : Satellite :=
  match s.call with
  | .idle => s
  | .locked host port =>
    if s.running && !s.onDeviceWake && s.wakeHost == host && s.wakePort == port then
      { s with call := .idle }
    else { s with call := .tearing host port s.running }
  | .tearing host port was =>
    if s.wakeTask then
      { s with running := false, call := .joins host port was s.running }
    else { s with call := .switches host port was }
  | .joins host port was prev =>
    if ok then
      if s.wakeDone then { s with wakeDone := false, call := .restores host port was prev } else s
    else { s with call := .givesUp prev }
  | .restores host port was prev =>
    { s with wakeTask := false, running := prev, call := .switches host port was }
  | .givesUp prev => { s with running := prev, call := .idle }
  | .switches host port was =>
    if !was then
      { s with onDeviceWake := false, wakeHost := host, wakePort := port, call := .idle }
    else if ok then
      { s with onDeviceWake := false, wakeHost := host, wakePort := port, wakeTask := true,
               wake := .looping, call := .idle }
    else
      { s with onDeviceWake := true, wakeHost := [], wakePort := port, wakeTask := false,
               call := .idle }

def step (s : Satellite) : Step → Satellite
  | .server i => s.serverStep i
  | .mic k i =>
    match s.mics[k]? with
    | some m => s.micStep k m i
    | none => s
  -- `set_ptt_held` has looked at `client_connected_` at some moment before its store
  | .ptt held => { s with pttHeld := held }
  | .wake invalidHost => s.wakeStep invalidHost
  | .set host port =>
    if s.call = .idle ∧ host ≠ [] then { s with call := .locked host port } else s
  | .call ok => s.callStep ok

end Satellite

end Espos.Voice
