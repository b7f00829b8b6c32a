import Mathlib.Logic.Function.Basic
import Espos.Lib.Run
import Espos.Lib.Text
import Espos.Platform

-- The declared metadata and its reconciliation bookkeeping, `sk_meta.c`.

namespace Espos.Sk.Meta

open Espos.Text

def PATH_MAX : Nat := 96

-- `espos_sk_meta_seen_t`
inductive Seen where
  | none
  | present
  | unreadable
  | ours
deriving DecidableEq

-- `espos_sk_meta_step_t`
inductive Step where
  | done
  | put
  | later
  | unauthorized
  | backOff
deriving DecidableEq

-- `espos_sk_meta_after_get`
def afterGet (status : Int) (seen : Seen) : Step :=
  if status ≤ 0 ∨ 500 ≤ status then .backOff
  else if status = 401 ∨ status = 403 then .unauthorized
  else if status = 404 ∨ (status = 200 ∧ (seen = .none ∨ seen = .ours)) then .put
  else if status = 200 then .done
  else .later

-- `espos_sk_meta_after_put`
def afterPut (status : Int) : Step :=
  if 200 ≤ status ∧ status < 300 then .done
  else if status ≤ 0 ∨ 500 ≤ status then .backOff
  else if status = 401 ∨ status = 403 then .unauthorized
  else .later

-- What the code asks of cJSON: what a text parses to, with the fields of an
-- object, and whether two values are the same.
structure Cjson (V : Type) where
  parse : CStr → Option (Option (List (CStr × V)))
  compare : V → V → Bool

section Reply

variable {V : Type} (J : Cjson V)

-- `espos_sk_meta_holds`
def holds (server ours : CStr) : Bool :=
  match J.parse server, J.parse ours with
  | some (some srv), some (some fields) =>
    fields.all fun f => (srv.find? fun g => g.1 = f.1).any fun g => J.compare f.2 g.2
  | _, _ => false

-- What `espos_sk_http_get_meta` makes of a reply. An empty body stands for none
-- at all, too.
def seenOf (status : Int) (resp : CStr) (truncated : Bool) (ours : Option CStr) : Seen :=
  if status = 200 ∧ resp ≠ [] then
    match if truncated then none else J.parse resp with
    | none => .unreadable
    | some (some (_ :: _)) => if ours.any (holds J resp) then .ours else .present
    | some _ => .none
  else .none

end Reply

-- `espos_sk_meta_entry_t`
structure Entry where
  path : Buf PATH_MAX
  metaJson : CStr
  periodMs : UInt32
  gen : UInt32
  reconciled : Bool
  stale : Option CStr
deriving DecidableEq

-- `espos_sk_meta_table_t`
structure Table where
  entries : List Entry
  dirty : Bool
  round : Nat
  retryAtMs : UInt32
  next : Nat
  epoch : UInt32
  conn : UInt32
deriving DecidableEq

namespace Table

def empty : Table :=
  ⟨[], false, 0, 0, 0, 0, 0⟩

variable (t : Table)

-- The entry has changed.
def touch (entries : List Entry) : Table :=
  { t with entries := entries, epoch := t.epoch + 1, dirty := true, round := 0 }

-- `espos_sk_meta_declare` with room for `cap` entries.
def declare (cap : Nat) (path : Buf PATH_MAX) (metaJson : CStr) (periodMs : UInt32) :
    Table × EspErr :=
  match t.entries.findIdx? fun e => e.path = path with
  | some i =>
    if (t.entries[i]?.any fun e => e.metaJson = metaJson ∧ e.periodMs = periodMs) then (t, .ok)
    else
      (t.touch (t.entries.modify i fun e =>
        { e with metaJson := metaJson, periodMs := periodMs, gen := e.gen + 1, reconciled := false }),
        .ok)
  | none =>
    if cap ≤ t.entries.length then (t, .noMem)
    else (t.touch (t.entries ++ [⟨path, metaJson, periodMs, 1, false, none⟩]), .ok)

-- `espos_sk_meta_connected`
def connected : Table :=
  { t with
    entries := t.entries.map fun e =>
      { e with reconciled := false, stale := none, gen := e.gen + 1 }
    conn := t.conn + 1
    epoch := t.epoch + 1
    dirty := !t.entries.isEmpty
    round := 0 }

-- `espos_sk_meta_wait`
def wait (connected : Bool) (nowMs : UInt32) : UInt32 :=
  if !connected || !t.dirty then 0xffffffff
  else
    let left := (t.retryAtMs - nowMs).toInt32
    if t.round = 0 ∨ left.toInt ≤ 0 then 0 else left.toUInt32

-- `espos_sk_meta_index`
def index (n k : Nat) : Nat :=
  let start := if t.next < n then t.next else 0
  (start + k) % n

-- `espos_sk_meta_leg_done`
def legDone (i : Nat) (gen : UInt32) (step : Step) : Table :=
  if step = .done then
    { t with
      entries := t.entries.modify i fun e =>
        if e.gen = gen then { e with reconciled := true, stale := none } else e }
  else if step = .unauthorized ∨ step = .backOff then { t with next := i + 1 }
  else t

-- `espos_sk_meta_sent`
def sent (i : Nat) (gen conn : UInt32) (text : CStr) : Table :=
  { t with
    entries := t.entries.modify i fun e =>
      { e with stale := if e.gen ≠ gen ∧ t.conn = conn then some text else none } }

-- `espos_sk_meta_round_end`
def roundEnd (nowMs delayMs : UInt32) : Table × UInt32 :=
  if t.entries.any fun e => !e.reconciled then
    ({ t with
      dirty := true
      round := if t.round < 30 then t.round + 1 else t.round
      retryAtMs := nowMs + delayMs }, delayMs)
  else ({ t with dirty := false, round := 0 }, 0)

end Table

end Espos.Sk.Meta

-- A reconciliation round of `sk_ws.c`, `espos_sk_ws_meta_round`. It takes the
-- lock for one table operation at a time, so that declarations and connects get
-- in between.

namespace Espos.Sk.Meta

open Espos.Text

-- What a leg took from its entry.
structure Leg where
  i : Nat
  path : Buf PATH_MAX
  text : CStr
  gen : UInt32
  replaced : Option CStr
deriving DecidableEq

-- Where the round is. `k` counts the legs.
inductive Pc where
  | idle
  | scan (k : Nat)
  | get (k : Nat) (leg : Leg)
  | check (k : Nat) (leg : Leg)
  | put (k : Nat) (leg : Leg)
  | sent (k : Nat) (leg : Leg)
  -- `handed` says that the text went to `espos_sk_meta_sent`
  | close (k : Nat) (leg : Leg) (handed : Bool) (step : Step)
  | finish (stop : Step)
deriving DecidableEq

-- What the round is told from outside: whether there are a server and a token,
-- whether there is memory, the status and the reply of an HTTP leg, the time and
-- the backoff.
structure Input where
  reachable : Bool
  mem : Bool
  status : Int
  resp : CStr
  truncated : Bool
  nowMs : UInt32
  delayMs : UInt32

-- The table, and the variables of the round. Not in the code: the legs begun,
-- and for each round whether there were a server and a token.
structure Client where
  table : Table
  pc : Pc
  n : Nat
  epoch : UInt32
  conn : UInt32
  tried : List Nat
  rounds : List Bool
deriving DecidableEq

namespace Client

inductive Event where
  | declare (path : Buf PATH_MAX) (metaJson : CStr) (periodMs : UInt32)
  | connected
  | proceed (a : Input)

def fresh : Client :=
  ⟨.empty, .idle, 0, 0, 0, [], []⟩

section Proceed

variable (c : Client)

def start (a : Input) : Client :=
  { c with
    n := c.table.entries.length
    epoch := c.table.epoch
    conn := c.table.conn
    rounds := a.reachable :: c.rounds
    pc := if a.reachable then .scan 0 else .finish .backOff }

-- The head of the loop.
def look (a : Input) (k : Nat) : Client :=
  let i := c.table.index c.n k
  match c.table.entries[i]? with
  | none => c
  | some e =>
    if e.reconciled then { c with pc := .scan (k + 1) }
    else
      let leg := ⟨i, e.path, e.metaJson, e.gen, e.stale⟩
      { c with
        tried := i :: c.tried
        pc := if a.mem then .get k leg else .close k leg false .backOff }

def ofGet (k : Nat) (leg : Leg) (step : Step) : Pc :=
  if step = .put then .check k leg else .close k leg false step

def ofPut (k : Nat) (leg : Leg) (step : Step) : Pc :=
  if step = .done then .sent k leg else .close k leg false step

-- The entry was declared again, or the stream reconnected.
def outdated (leg : Leg) : Bool :=
  c.table.entries[leg.i]?.any fun e => e.gen != leg.gen

def close (k : Nat) (leg : Leg) (step : Step) : Client :=
  { c with
    table := c.table.legDone leg.i leg.gen step
    pc := if step = .unauthorized ∨ step = .backOff then .finish step else .scan (k + 1) }

def finish (a : Input) : Client :=
  { c with
    table := if c.table.epoch ≠ c.epoch then c.table else (c.table.roundEnd a.nowMs a.delayMs).1
    pc := .idle }

-- The next step of the task that makes the rounds.
def proceed {V : Type} (J : Cjson V) (a : Input) : Client :=
  match c.pc with
  | .idle => c.start a
  | .scan k => if k < c.n then c.look a k else { c with pc := .finish .done }
  | .get k leg =>
    let seen := seenOf J a.status a.resp a.truncated leg.replaced
    { c with pc := ofGet k leg (afterGet a.status seen) }
  | .check k leg => { c with pc := if c.outdated leg then .close k leg false .later else .put k leg }
  | .put k leg => { c with pc := ofPut k leg (afterPut a.status) }
  | .sent k leg =>
    { c with
      table := c.table.sent leg.i leg.gen c.conn leg.text
      pc := .close k leg true .done }
  | .close k leg _ step => c.close k leg step
  | .finish _ => c.finish a

end Proceed

def step {V : Type} (J : Cjson V) (cap : Nat) (c : Client) : Event → Client
  | .declare path metaJson periodMs =>
    { c with table := (c.table.declare cap path metaJson periodMs).1 }
  | .connected => { c with table := c.table.connected }
  | .proceed a => c.proceed J a

end Client

end Espos.Sk.Meta

-- The rounds of one connection, and the server they talk to. It applies the PUTs
-- it answers with 2xx and never edits what it has.

namespace Espos.Sk.Meta

open Espos.Text
open Espos.Run

-- The leg the round is in.
def Pc.leg : Pc → Option Leg
  | .get _ leg => some leg
  | .check _ leg => some leg
  | .put _ leg => some leg
  | .sent _ leg => some leg
  | .close _ leg _ _ => some leg
  | _ => none

-- Not in the code: `since`, the texts declared for the path of the current leg
-- from its start on, and `marked`, the paths marked as reconciled.
structure World where
  client : Client
  server : Buf PATH_MAX → Option CStr
  since : List CStr
  marked : List (Buf PATH_MAX)

namespace World

section Step

variable {V : Type} (J : Cjson V) (cap : Nat) (w : World)

-- The leg that a step of the round ends with a mark.
def marks : Option Leg :=
  match w.client.pc with
  | .close _ leg _ .done => if w.client.outdated leg then none else some leg
  | _ => none

def proceed (a : Input) : World where
  client := w.client.proceed J a
  server :=
    match w.client.pc with
    | .put _ leg =>
      if afterPut a.status = .done then Function.update w.server leg.path (some leg.text)
      else w.server
    | _ => w.server
  since :=
    match w.client.pc with
    | .scan _ => ((w.client.proceed J a).pc.leg.map Leg.text).toList
    | _ => w.since
  marked := (w.marks.map Leg.path).toList ++ w.marked

def declare (path : Buf PATH_MAX) (metaJson : CStr) (periodMs : UInt32) : World :=
  { w with
    client := w.client.step J cap (.declare path metaJson periodMs)
    since :=
      if w.client.pc.leg.map Leg.path = some path then metaJson :: w.since else w.since }

def step : Client.Event → World
  | .declare path metaJson periodMs => w.declare J cap path metaJson periodMs
  | .connected => { w with client := w.client.step J cap .connected }
  | .proceed a => w.proceed J a

end Step

section Conditions

variable {V : Type} (J : Cjson V) (cap : Nat)

-- Every leg gets an answer. A reply to a GET has no meta if the server has none,
-- and else holds all of it unless it is cut off; there is no second connect.
def Served (w : World) : Client.Event → Prop
  | .declare _ _ _ => True
  | .connected => False
  | .proceed a =>
    match w.client.pc with
    | .get _ leg =>
      0 < a.status ∧ (a.status = 200 →
        match w.server leg.path with
        | none => seenOf J a.status a.resp a.truncated leg.replaced = .none
        | some text => a.truncated = false → holds J a.resp text = true)
    | .put _ _ => 0 < a.status
    | _ => True

-- Nothing changes a path's declaration between `espos_sk_meta_sent` and
-- `espos_sk_meta_leg_done`, and a reply with meta is not cut off.
def Careful (w : World) : Client.Event → Prop
  | .declare path metaJson periodMs =>
    match w.client.pc with
    | .close _ leg true .done =>
      leg.path = path → w.client.outdated leg = false →
        (w.client.table.declare cap path metaJson periodMs).1 = w.client.table
    | _ => True
  | .connected => True
  | .proceed a =>
    match w.client.pc with
    | .get _ leg => a.status = 200 → (w.server leg.path).isSome → a.truncated = false
    | _ => True

-- The first mark of a path that the server had no meta for finds a text there
-- that has been current since the leg's start.
def Current (before : Buf PATH_MAX → Option CStr) (w : World) : Client.Event → Prop
  | .proceed _ =>
    ∀ leg, w.marks = some leg → before leg.path = none → leg.path ∉ w.marked →
      ∃ text ∈ w.since, w.server leg.path = some text
  | _ => True

end Conditions

-- Right after a connect.
def connect (c : Client) (server : Buf PATH_MAX → Option CStr) : World :=
  ⟨{ c with table := c.table.connected }, server, [], []⟩

end World

end Espos.Sk.Meta
