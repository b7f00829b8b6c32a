import Espos.Sk.Inbound.Subscriptions

namespace Espos.Sk.Inbound

open Espos.Text
open Espos.Sk.Delta (PATH_MAX reached)

def MAX_PUTS : Nat := 8

def PUT_TIMEOUT_MS : UInt32 := 10000

-- `put_t` of a slot in use. `cb` stands for the callback with its argument.
-- Not in the code: `serial`, which numbers the accepted PUTs.
structure Put where
  id : CStr
  cb : Option Nat
  sentMs : UInt32
  serial : Nat
deriving DecidableEq

-- What `espos_sk_frame_parse` reads off a response.
structure Response where
  requestId : Option CStr
  state : Option CStr
  statusCode : Int
  message : Option CStr
deriving DecidableEq

-- The server has not decided yet.
def Response.pending (r : Response) : Bool :=
  r.state == some (lit "PENDING")

def Response.failed (r : Response) : Bool :=
  decide (400 ≤ r.statusCode) || r.state == some (lit "FAILED")

-- A callback with its arguments.
structure Call where
  put : Put
  state : CStr
  statusCode : Int
  message : CStr
deriving DecidableEq

-- Only the callback for a pending request is not the last of its PUT.
def Call.terminal (c : Call) : Bool :=
  c.state != lit "PENDING"

-- The loop over the table that the stream task goes on with when it has the
-- lock again, from slot `i` on.
inductive Pass
  | none
  | tick (now : UInt32) (i : Nat)
  | close (i : Nat)
deriving DecidableEq

-- Where the stream task is while the lock is free: outside, in front of a
-- callback, or past one.
inductive Task
  | idle
  | calling (c : Call) (pass : Pass)
  | running (pass : Pass)
deriving DecidableEq

-- The PUTs of the inbound state. Not in the code: the PUTs accepted and the
-- callbacks made so far.
structure Puts where
  s : State
  slots : List (Option Put)
  putsSent : UInt32
  putsFailed : UInt32
  task : Task
  accepted : List Put
  calls : List Call

namespace Puts

def start : Puts where
  s := State.init
  slots := List.replicate MAX_PUTS none
  putsSent := 0
  putsFailed := 0
  task := .idle
  accepted := []
  calls := []

variable (t : Puts)

-- The number of slots in use.
def used : Nat :=
  t.slots.countP Option.isSome

def putText (id path value : CStr) : CStr :=
  lit "\x7b\"context\":\"vessels.self\",\"requestId\":\"" ++ id ++ lit "\",\"put\":\x7b\"path\":\"" ++
    path ++ lit "\",\"value\":" ++ value ++ lit "\x7d\x7d"

def accept (i : Nat) (frame : CStr) (p : Put) : Puts :=
  { t with
    s := { t.s with raw := t.s.raw ++ [frame] }
    slots := t.slots.set i (some p)
    accepted := t.accepted ++ [p] }

-- `espos_sk_put`. A missing path is an empty one here. `id` is what `uuid4`
-- makes, `now` the tick count, and `alloc` whether a buffer could be had.
def put (path : CStr) (value : Option CStr) (cb : Option Nat) (id : CStr) (now : UInt32)
    (alloc : Bool) : Puts × EspErr :=
  match value with
  | none => (t, .invalidArg)
  | some value =>
    if path = [] ∨ PATH_MAX ≤ path.length then (t, .invalidArg)
    else if !t.s.connected then (t, .invalidState)
    else
      match t.slots.findIdx? Option.isNone with
      | none => (t, .noMem)
      | some i =>
        if !alloc then (t, .noMem)
        else if MAX_RAW ≤ t.s.raw.length then (t, .noMem)
        else (t.accept i (putText id path value) ⟨id, cb, now, t.accepted.length⟩, .ok)

-- The first slot from `i` on with a PUT that meets `hit`; `k` is the index of
-- the first of `slots`.
def scanFrom (hit : Put → Bool) (i : Nat) : Nat → List (Option Put) → Option (Nat × Put)
  | _, [] => none
  | k, none :: slots => scanFrom hit i (k + 1) slots
  | k, some p :: slots =>
    if i ≤ k ∧ hit p then some (k, p) else scanFrom hit i (k + 1) slots

def scan (hit : Put → Bool) (i : Nat) : Option (Nat × Put) :=
  scanFrom hit i 0 t.slots

def setTask (task : Task) : Puts :=
  { t with task := task }

-- The lock is dropped; a PUT without a callback has nobody to call.
def handOver (c : Call) (pass : Pass) : Puts :=
  t.setTask (if c.put.cb.isSome then .calling c pass else .running pass)

def fail (i : Nat) : Puts :=
  { t with slots := t.slots.set i none, putsFailed := t.putsFailed + 1 }

def succeed (i : Nat) : Puts :=
  { t with slots := t.slots.set i none, putsSent := t.putsSent + 1 }

def timedOut (now : UInt32) (p : Put) : Bool :=
  reached now (p.sentMs + PUT_TIMEOUT_MS)

def dropRaw : Puts :=
  { t with s := { t.s with raw := [] } }

-- The stream task takes the lock and goes on with its loop.
def goOn : Pass → Puts
  | .none => t.setTask .idle
  | .tick now i =>
    match t.scan (timedOut now) i with
    | none => t.setTask .idle
    | some (j, p) => (t.fail j).handOver ⟨p, lit "TIMEOUT", 0, lit "no response"⟩ (.tick now (j + 1))
  | .close i =>
    match t.scan (fun _ => true) i with
    | none => t.dropRaw.setTask .idle
    | some (j, p) => (t.fail j).handOver ⟨p, lit "FAILED", 0, lit "stream closed"⟩ (.close (j + 1))

-- `espos_sk_inbound_tick`
def tick (now : UInt32) : Puts :=
  t.goOn (.tick now 0)

-- `espos_sk_inbound_set_connected`. The frames waiting to go out are dropped
-- behind the PUTs.
def setConnected (connected : Bool) : Puts :=
  let t := { t with s := { t.s.setConnected connected with raw := t.s.raw } }
  if connected then t else t.goOn (.close 0)

def settle (r : Response) (i : Nat) : Puts :=
  if r.pending then t else if r.failed then t.fail i else t.succeed i

-- The response branch of `espos_sk_inbound_handle_frame`.
def handleResponse (r : Response) : Puts :=
  match r.requestId with
  | none => t
  | some id =>
    match t.scan (fun p => p.id == id) 0 with
    | none => t
    | some (i, p) =>
      (t.settle r i).handOver ⟨p, r.state.getD [], r.statusCode, r.message.getD []⟩ .none

-- `espos_sk_inbound_take_frame` for the frames a PUT adds to.
def takeRaw : Puts :=
  { t with s := { t.s with raw := t.s.raw.tail } }

-- What the stream task does when it gets to run: make the callback it stands
-- in front of, or go on with its loop.
def proceed : Puts :=
  match t.task with
  | .idle => t
  | .calling c pass => { t with calls := t.calls ++ [c], task := .running pass }
  | .running pass => t.goOn pass

inductive Event
  | put (path : CStr) (value : Option CStr) (cb : Option Nat) (id : CStr) (now : UInt32) (alloc : Bool)
  | response (r : Response)
  | tick (now : UInt32)
  | setConnected (connected : Bool)
  | takeRaw
  | proceed
deriving DecidableEq

-- A PUT may come at any time the lock is free, from other tasks and from
-- inside callbacks. The other calls are made by the stream task, one after the
-- other.
def step : Event → Puts
  | .put path value cb id now alloc => (t.put path value cb id now alloc).1
  | .proceed => t.proceed
  | .response r => if t.task = .idle then t.handleResponse r else t
  | .tick now => if t.task = .idle then t.tick now else t
  | .setConnected connected => if t.task = .idle then t.setConnected connected else t
  | .takeRaw => if t.task = .idle then t.takeRaw else t

end Puts

end Espos.Sk.Inbound
