import Mathlib.Data.List.Basic
import Espos.Lib.Run
import Espos.Lib.Text

-- The frame queue of `ble_proto.c`, as the list of its frames, oldest first.

namespace Espos.Ble

structure FrameQ (α : Type) where
  cap : Nat
  frames : List α := []
  dropped : Nat := 0
deriving DecidableEq

namespace FrameQ

variable {α : Type}

-- A full queue drops its oldest frame.
def push (q : FrameQ α) (frame : α) : FrameQ α :=
  if q.cap = 0 then { q with dropped := q.dropped + 1 }
  else if q.frames.length = q.cap then
    { q with frames := q.frames.tail ++ [frame], dropped := q.dropped + 1 }
  else { q with frames := q.frames ++ [frame] }

-- Back to the head; a full queue drops the frame itself.
def unshift (q : FrameQ α) (frame : α) : FrameQ α :=
  if q.frames.length = q.cap then { q with dropped := q.dropped + 1 }
  else { q with frames := frame :: q.frames }

def clear (q : FrameQ α) : FrameQ α :=
  { q with frames := [] }

theorem push_cases (q : FrameQ α) (frame : α) :
    q.push frame = { q with dropped := q.dropped + 1 } ∨
      (∃ oldest rest, q.frames = oldest :: rest ∧
        q.push frame = { q with frames := rest ++ [frame], dropped := q.dropped + 1 }) ∨
      q.push frame = { q with frames := q.frames ++ [frame] } := by
  unfold push
  by_cases hcap : q.cap = 0
  · exact .inl (if_pos hcap)
  · rw [if_neg hcap]
    by_cases hfull : q.frames.length = q.cap
    · rw [if_pos hfull]
      cases hframes : q.frames with
      | nil =>
        rw [hframes] at hfull
        exact absurd hfull.symm hcap
      | cons oldest rest => exact .inr (.inl ⟨oldest, rest, rfl, rfl⟩)
    · rw [if_neg hfull]
      exact .inr (.inr rfl)

theorem unshift_cases (q : FrameQ α) (frame : α) :
    q.unshift frame = { q with dropped := q.dropped + 1 } ∨
      q.unshift frame = { q with frames := frame :: q.frames } := by
  unfold unshift
  by_cases hfull : q.frames.length = q.cap
  · exact .inl (if_pos hfull)
  · exact .inr (if_neg hfull)

end FrameQ

end Espos.Ble

-- The control WebSocket of `ble_gateway.c`: the gateway task that dials, says hello and
-- sends the queued GATT frames, the client's own task, the sessions and the server of the
-- moment. A step is one access to what the tasks share, or one hold of a lock.

namespace Espos.Ble

open Espos.Text

structure Server where
  host : CStr
  port : Nat
  tls : Bool
deriving DecidableEq

-- `owner` is the server whose request opened the session a frame is about, `serial` its
-- place among all frames made.
structure Frame where
  serial : Nat
  owner : Server
deriving DecidableEq

inductive Item where
  | hello
  | status
  | frame (f : Frame)
deriving DecidableEq

structure Sent where
  socket : Nat
  server : Server
  item : Item
deriving DecidableEq

-- Where the task of a client is; the last three follow the stores of `ws_event` at the end
-- of its socket.
inductive ClientPhase where
  | dialing
  | up
  | unready
  | unconnected
  | over
deriving DecidableEq

-- `server` is the one its URL names.
structure Client where
  id : Nat
  server : Server
  phase : ClientPhase := .dialing
deriving DecidableEq

-- Why `ws_destroy` is called: the server has changed, the socket has ended, or the link to
-- SignalK is down.
inductive Teardown where
  | changed (srv : Server)
  | ended (srv : Server)
  | down
deriving DecidableEq

-- Where the gateway task is; `left` bounds the turns of `gatt_drain`.
inductive GatewayPc where
  | pass
  | compares (srv : Server)
  | unplugs (why : Teardown)
  | joins (why : Teardown)
  | closes (srv : Server)
  | empties (srv : Server)
  | dials (srv : Server) (fresh : Bool)
  | addresses
  | creates (url : Server)
  | drains
  | hellos
  | readies
  | loops (left : Nat)
  | pops (left : Nat)
  | sends (f : Frame) (left : Nat)
  | unshifts (f : Frame)
  | status
  | reports
deriving DecidableEq

-- `sessions` are the owners of the open sessions. History: `queued` counts the frames made,
-- `sent` what has gone out, oldest first.
structure Control where
  current : Option Server := none
  wsHost : Option Server := none
  ws : Bool := false
  client : Option Client := none
  clients : Nat := 0
  wsConnected : Bool := false
  wsReady : Bool := false
  wsEnded : Bool := false
  sessions : List Server := []
  queue : FrameQ Frame
  lost : Nat := 0
  pc : GatewayPc := .pass
  queued : Nat := 0
  sent : List Sent := []
deriving DecidableEq

-- What a step of the gateway task meets: the link to SignalK, or else a wake-up; and
-- whether what it attempts there succeeds, or is due.
structure GatewayInput where
  linkUp : Bool := true
  woken : Bool := false
  ok : Bool := true

-- What the client's socket brings; a request names an open session by its place.
inductive SocketInput where
  | connected
  | dropped
  | subscribe (ok : Bool)
  | write (i : Nat) (badHex : Bool)
  | close (i : Nat)

-- `report` is a GATT callback or the watchdog with a frame about a session, which may end
-- it; `room` is whether there is memory for the frame.
inductive ControlStep where
  | server (srv : Option Server)
  | gateway (i : GatewayInput)
  | socket (i : SocketInput) (room : Bool)
  | report (i : Nat) (ends : Bool) (room : Bool)

namespace Control

def enqueue (s : Control) (owner : Server) (room : Bool) : Control :=
  if room then
    { s with queued := s.queued + 1, queue := s.queue.push ⟨s.queued, owner⟩ }
  else { s with queued := s.queued + 1, lost := s.lost + 1 }

def report (s : Control) (i : Nat) (ends room : Bool) : Control :=
  match s.sessions[i]? with
  | some owner =>
    (if ends then { s with sessions := s.sessions.eraseIdx i } else s).enqueue owner room
  | none => s

-- `ws_send_text`, with the outcome of the send itself.
def canSend (s : Control) (ok : Bool) : Bool :=
  s.ws && s.wsConnected && ok

def transmit (s : Control) (item : Item) : Control :=
  { s with sent := s.sent ++ (s.client.map fun c => ⟨c.id, c.server, item⟩).toList }

-- The top of a pass, up to what `ws_connect` reads of the server.
def passes (s : Control) (i : GatewayInput) : GatewayPc :=
  if i.woken then .drains
  else if i.linkUp then
    match s.current with
    | some srv => .compares srv
    | none => .drains
  else if s.ws then .unplugs .down
  else .pass

-- `ws_connect`, once it has read the server.
def compares (s : Control) (srv : Server) : GatewayPc :=
  if s.wsHost = some srv then
    if s.ws then if s.wsEnded then .unplugs (.ended srv) else .drains else .dials srv false
  else if s.wsHost.isSome then .unplugs (.changed srv)
  else .dials srv true

def unplug (s : Control) : Control :=
  { s with wsReady := false, wsConnected := false }

def afterJoin : Teardown → GatewayPc
  | .changed srv => .closes srv
  | .ended srv => .dials srv false
  | .down => .pass

-- `espos_sk_ws_url` reads the server again.
def addressed (s : Control) : GatewayPc :=
  match s.current with
  | some url => .creates url
  | none => .drains

-- What `gatt_drain` pops.
def popped (s : Control) (left : Nat) : GatewayPc :=
  match s.queue.frames.head? with
  | some f => .sends f left
  | none => .status

def create (s : Control) (url : Server) : Control :=
  { s with
    ws := true, client := some { id := s.clients, server := url }, clients := s.clients + 1,
    pc := .drains }

def gatewayStep (s : Control) (i : GatewayInput) : Control :=
  match s.pc with
  | .pass => { s with pc := s.passes i }
  | .compares srv => { s with pc := s.compares srv }
  -- `ws_destroy`: under the lock, and again when the client's task is gone
  | .unplugs why => { s.unplug with ws := false, pc := .joins why }
  | .joins why => { s.unplug with client := none, pc := afterJoin why }
  | .closes srv => { s with sessions := [], pc := .empties srv }
  | .empties srv =>
    { s with
      lost := s.lost + s.queue.frames.length, queue := s.queue.clear, pc := .dials srv true }
  | .dials srv fresh =>
    if fresh || i.ok then { s with wsHost := some srv, pc := .addresses }
    else { s with pc := .drains }
  | .addresses => { s with pc := s.addressed }
  | .creates url =>
    if i.ok then { s with wsEnded := false }.create url
    else { s with wsEnded := false, pc := .drains }
  -- `gatt_drain`
  | .drains =>
    { s with
      pc := if s.wsConnected then if s.wsReady then .loops s.queue.cap
        else if i.ok then .hellos else .status
      else .status }
  | .hellos =>
    if s.canSend i.ok then { s.transmit .hello with pc := .readies } else { s with pc := .status }
  | .readies => { s with wsReady := true, pc := .loops s.queue.cap }
  | .loops left =>
    { s with pc := if 0 < left && s.wsReady && s.wsConnected && i.ok then .pops left else .status }
  | .pops left =>
    { s with queue := { s.queue with frames := s.queue.frames.tail }, pc := s.popped left }
  | .sends f left =>
    if s.canSend i.ok then { s.transmit (.frame f) with pc := .loops (left - 1) }
    else { s with pc := .unshifts f }
  | .unshifts f => { s with queue := s.queue.unshift f, pc := .status }
  | .status => { s with pc := if s.wsReady && i.ok then .reports else .pass }
  | .reports =>
    if s.canSend i.ok then { s.transmit .status with pc := .pass } else { s with pc := .pass }

-- The handlers of the server's requests, in the client's task.
def request (s : Control) (c : Client) (room : Bool) : SocketInput → Control
  | .subscribe true => { s with sessions := s.sessions ++ [c.server] }
  | .subscribe false => s.enqueue c.server room
  | .write i true => s.report i false room
  | .close i => { s with sessions := s.sessions.eraseIdx i }
  | _ => s

def setPhase (s : Control) (c : Client) (phase : ClientPhase) : Control :=
  { s with client := some { c with phase } }

-- `ws_event`.
def clientStep (s : Control) (c : Client) (i : SocketInput) (room : Bool) : Control :=
  match c.phase, i with
  | .dialing, .connected => { s with wsConnected := true }.setPhase c .up
  | .dialing, .dropped | .up, .dropped => { s with wsReady := false }.setPhase c .unready
  | .unready, _ => { s with wsConnected := false }.setPhase c .unconnected
  | .unconnected, _ => { s with wsEnded := true }.setPhase c .over
  | .up, i => s.request c room i
  | _, _ => s

def step (s : Control) : ControlStep → Control
  | .server srv => { s with current := srv }
  | .gateway i => s.gatewayStep i
  | .socket i room =>
    match s.client with
    | some c => s.clientStep c i room
    | none => s
  | .report i ends room => s.report i ends room

end Control

end Espos.Ble
