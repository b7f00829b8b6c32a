import Espos.Platform
import Espos.Lib.Ring
import Espos.Sk.Delta.Document

namespace Espos.Sk.Delta

open Espos.Text

def PATH_MAX : Nat := 96
def VALUE_MAX : Nat := 256
def CONTEXT_MAX : Nat := 80
def CONTEXTS_MAX : Nat := 4

def SELF_CONTEXT : CStr := lit "vessels.self"

-- `espos_sk_delta_cfg_t`
structure Cfg where
  label : Option CStr
  batchMs : UInt32
  maxMsgs : Nat
  maxBytes : Nat
  drainPerS : UInt32
  noDrop : Bool

-- `pending_t`. The table's index types are bytes; a window has at most 4
-- contexts and 32 updates.
structure Entry where
  path : CStr
  value : CStr
  atMs : Int
  ctx : Nat
  upd : Nat
deriving DecidableEq

-- The entry is part of update `upd` of context `ctx`.
def Entry.inUpdate (ctx upd : Nat) (p : Entry) : Bool :=
  p.ctx == ctx && p.upd == upd

-- The entry is the one a value for `path` of the same time replaces.
def Entry.holds (ctx : Nat) (path : CStr) (atMs : Int) (p : Entry) : Bool :=
  p.ctx == ctx && p.atMs == atMs && p.path == path

def Entry.named (p : Entry) : CStr × CStr :=
  (p.path, p.value)

-- A message on the heap. The code has the text and its address; `doc` is what
-- the text says, and no operation reads it.
structure Msg where
  addr : Nat
  text : CStr
  doc : Doc
deriving DecidableEq

-- `queued_t`
structure Queued where
  msg : Msg
  batchMs : UInt32
  stampAt : Nat
deriving DecidableEq

-- The counters of `espos_sk_delta_stats_t`; its other fields are read off the
-- engine when it is asked for them.
structure Counters where
  dropped : UInt32
  built : UInt32
  taken : UInt32
deriving DecidableEq

structure Engine (maxMsgs : Nat) where
  batchMs : UInt32
  maxBytes : Nat
  drainPerS : UInt32
  noDrop : Bool
  label : Buf 40
  pending : List Entry
  ctx : List CStr
  updN : Nat
  pendingSinceMs : UInt32
  ring : Ring Queued maxMsgs
  bytes : Nat
  lastTakeMs : UInt32
  draining : Bool
  unstamped : Option Nat
  unstampedAt : Nat
  unstampedBatchMs : UInt32
  st : Counters
  -- Not in the code: the address the next allocation gets, and how many
  -- windows have been closed.
  nextAddr : Nat
  windows : Nat

-- What a call finds around it: the monotonic time it is passed, what the wall
-- clock says (0 without a clock, or without the time), and which of its
-- allocations succeed.
structure Env where
  now : UInt32
  wall : Int
  allocMessage : Nat → Bool
  allocStamp : Bool

def Cfg.capacity (cfg : Cfg) : Nat :=
  if cfg.maxMsgs = 0 then 1 else cfg.maxMsgs

theorem Cfg.capacity_pos (cfg : Cfg) : 0 < cfg.capacity := by
  unfold Cfg.capacity
  split <;> omega

def Cfg.ofRing (maxMsgs maxBytes : Nat) (noDrop : Bool) : Cfg where
  label := some (lit "d")
  batchMs := 100
  maxMsgs := maxMsgs
  maxBytes := maxBytes
  drainPerS := 20
  noDrop := noDrop

def labelText (label : Option CStr) : Buf 40 :=
  .print (label.getD (lit "espos"))

-- `(int32_t)(now - due) >= 0`
def reached (now due : UInt32) : Bool :=
  decide ((now - due).toNat < 2 ^ 31)

def create (cfg : Cfg) : Engine cfg.capacity where
  batchMs := if cfg.batchMs = 0 then 100 else cfg.batchMs
  maxBytes := cfg.maxBytes
  drainPerS := if cfg.drainPerS = 0 then 20 else cfg.drainPerS
  noDrop := cfg.noDrop
  label := labelText cfg.label
  pending := []
  ctx := []
  updN := 0
  pendingSinceMs := 0
  ring := .empty ⟨⟨0, [], ⟨[], [], []⟩⟩, 0, 0⟩ cfg.capacity_pos
  bytes := 0
  lastTakeMs := 0
  draining := false
  unstamped := none
  unstampedAt := 0
  unstampedBatchMs := 0
  st := ⟨0, 0, 0⟩
  nextAddr := 1
  windows := 0

namespace Engine

variable {maxMsgs : Nat} (d : Engine maxMsgs)

def setLabel (label : Option CStr) : Engine maxMsgs :=
  { d with label := labelText label }

def setTiming (batchMs drainPerS : UInt32) : Engine maxMsgs :=
  { d with
    batchMs := if batchMs = 0 then d.batchMs else batchMs
    drainPerS := if drainPerS = 0 then d.drainPerS else drainPerS }

def setNoDrop (noDrop : Bool) : Engine maxMsgs :=
  { d with noDrop := noDrop }

-- The ring

-- `n` more messages of `len` bytes together exceed one of the limits.
def exceeds (n len : Nat) : Bool :=
  decide (maxMsgs < d.ring.count + n) ||
    (decide (d.maxBytes ≠ 0) && decide (d.maxBytes < d.bytes + len))

def dropOldest : Engine maxMsgs :=
  { d with
    bytes := d.bytes - (d.ring.slots d.ring.head).msg.text.length
    ring := d.ring.dropFront
    st := { d.st with dropped := d.st.dropped + 1 } }

-- Drop the oldest while over either limit. Each turn removes a message, so
-- `turns` starts at their number.
def makeRoom (len : Nat) : Nat → Engine maxMsgs → Engine maxMsgs
  | 0, d => d
  | turns + 1, d =>
    if d.ring.count ≠ 0 ∧ d.exceeds 1 len then makeRoom len turns d.dropOldest else d

def store (q : Queued) : Engine maxMsgs :=
  { d with ring := d.ring.pushBack q, bytes := d.bytes + q.msg.text.length }

-- A message larger than the whole buffer always fails.
def pushDropping (q : Queued) : Engine maxMsgs × Bool :=
  let len := q.msg.text.length
  let d := makeRoom len d.ring.count d
  if d.maxBytes ≠ 0 ∧ d.maxBytes < len then
    ({ d with st := { d.st with dropped := d.st.dropped + 1 } }, false)
  else (d.store q, true)

def ringPush (q : Queued) (noDrop : Bool) : Engine maxMsgs × Bool :=
  if noDrop && d.exceeds 1 q.msg.text.length then (d, false) else d.pushDropping q

def ringPop : Option (Queued × Engine maxMsgs) :=
  match d.ring.popFront with
  | none => none
  | some (q, ring) => some (q, { d with ring := ring, bytes := d.bytes - q.msg.text.length })

-- A message that had its timestamp written in goes back as it is; one taken
-- before the clock was known goes back with its offset and batch time.
def requeue (msg : Msg) : Engine maxMsgs :=
  if maxMsgs ≤ d.ring.count then
    -- full: this one is the oldest, drop it instead of a newer one
    { d with st := { d.st with dropped := d.st.dropped + 1 } }
  else
    let undated := d.unstamped = some msg.addr
    { d with
      ring := d.ring.pushFront
        { msg := msg
          batchMs := if undated then d.unstampedBatchMs else 0
          stampAt := if undated then d.unstampedAt else 0 }
      unstamped := none
      bytes := d.bytes + msg.text.length
      st := { d.st with taken := d.st.taken - 1 } }

-- The open window

-- The context is copied into the message as it is, so it must not be able to
-- end the JSON string it lands in.
def contextCheck (context : CStr) : EspErr :=
  if context = [] then .invalidArg
  else if CONTEXT_MAX ≤ context.length then .invalidSize
  else if context.any fun c => decide (c.toNat < 0x20) || c == '"' || c == '\\' then .invalidArg
  else .ok

def addContext (context : CStr) : Engine maxMsgs :=
  { d with ctx := d.ctx ++ [context] }

def setPending (table : List Entry) : Engine maxMsgs :=
  { d with pending := table }

-- Index of `context` in the window's table, adding it when there is room.
def contextSlot (context : CStr) : Engine maxMsgs × Option Nat :=
  match d.ctx.idxOf? context with
  | some i => (d, some i)
  | none =>
    if d.ctx.length = CONTEXTS_MAX then (d, none)
    else (d.addContext context, some d.ctx.length)

-- The update a value of context `ctx` dated `atMs` joins, unless it would open
-- one.
def updateOf (ctx : Nat) (atMs : Int) : Option Nat :=
  (d.pending.find? fun p => p.ctx == ctx && p.atMs == atMs).map Entry.upd

-- A value for `path` would join update `upd` while a later update of the same
-- context already holds `path`.
def overtakes (ctx : Nat) (upd : Option Nat) (path : CStr) : Bool :=
  match upd with
  | none => false
  | some u => d.pending.any fun p => p.ctx == ctx && decide (u < p.upd) && p.path == path

-- The entries from the first one of update `upd` on; none where context `ctx`
-- has none in it.
def updateFirst (ctx upd : Nat) : List Entry :=
  d.pending.dropWhile fun p => !p.inUpdate ctx upd

-- Building a window's messages

-- When the values of an update were measured, as far as they say.
def entryDate (atMs : Int) : Option CStr :=
  if atMs = 0 then none else iso8601 atMs

def writeValue (ctx upd : Nat) (w : CStr × Bool) (p : Entry) : CStr × Bool :=
  if p.inUpdate ctx upd then
    (w.1 ++ ((if w.2 then [] else [',']) ++ valueText p.named), false)
  else w

-- A message being written: its text so far, the offset of the update that
-- takes the batch's timestamp (0 = none), and whether an update is in it.
structure Draft where
  text : CStr
  stampAt : Nat
  first : Bool

def writeUpdate (ctx : Nat) (w : Draft) (upd : Nat) : Draft :=
  match d.updateFirst ctx upd with
  | [] => w
  | f :: rest =>
    let opened := w.text ++ (if w.first then [] else [',']) ++ lit "\x7b"
    let date := entryDate f.atMs
    let source := opened ++ dateText date ++ sourceText d.label.chars
    let values := ((f :: rest).foldl (writeValue ctx upd) (source, true)).1
    { text := values ++ lit "]\x7d"
      stampAt := if date.isNone then opened.length else w.stampAt
      first := false }

-- One update per distinct time, in the order each was first published.
def writeMessage (ctx : Nat) : Draft :=
  let w := (List.range d.updN).foldl (d.writeUpdate ctx) ⟨headText (d.ctx.getD ctx []), 0, true⟩
  { w with text := w.text ++ lit "]\x7d" }

def updateDoc (ctx upd : Nat) : Option Update :=
  match d.updateFirst ctx upd with
  | [] => none
  | f :: rest =>
    some
      { date := entryDate f.atMs
        values := ((f :: rest).filter (Entry.inUpdate ctx upd)).map Entry.named }

-- What the message of context `ctx` is to say.
def document (ctx : Nat) : Doc where
  context := d.ctx.getD ctx []
  label := d.label.chars
  updates := (List.range d.updN).filterMap (d.updateDoc ctx)

def buildMessage (env : Env) (ctx : Nat) : Option Queued :=
  if env.allocMessage ctx then
    some
      { msg := ⟨d.nextAddr + ctx, (d.writeMessage ctx).text, d.document ctx⟩
        batchMs := d.pendingSinceMs
        stampAt := (d.writeMessage ctx).stampAt }
  else none

-- The contexts with a value in the window, in order.
def usedContexts : List Nat :=
  (List.range d.ctx.length).filter fun c => d.pending.any fun p => p.ctx == c

-- One message per context in use. The batch is dated by the instant its window
-- opened.
def messages (env : Env) : List Queued :=
  d.usedContexts.filterMap (d.buildMessage env)

def totalBytes (qs : List Queued) : Nat :=
  (qs.map fun q => q.msg.text.length).sum

-- The messages would fit a ring that holds nothing.
def fitsEmpty (qs : List Queued) : Bool :=
  decide (qs.length ≤ maxMsgs) && (decide (d.maxBytes = 0) || decide (totalBytes qs ≤ d.maxBytes))

def pushBuilt (noDrop : Bool) (d : Engine maxMsgs) (q : Queued) : Engine maxMsgs :=
  (ringPush { d with st := { d.st with built := d.st.built + 1 } } q noDrop).1

def clearWindow : Engine maxMsgs :=
  { d with
    pending := []
    ctx := []
    updN := 0
    nextAddr := d.nextAddr + CONTEXTS_MAX
    windows := d.windows + 1 }

-- Close the window. Under `noDrop` one that could fit an empty ring but does
-- not fit now is kept; one too large for the ring ever is queued with the
-- ordinary drop behaviour.
def flushWindow (env : Env) : Engine maxMsgs × Bool :=
  if d.pending = [] then (d, true)
  else
    let msgs := d.messages env
    let noDrop := d.noDrop && d.fitsEmpty msgs
    if noDrop && d.exceeds msgs.length (totalBytes msgs) then (d, false)
    else ((msgs.foldl (pushBuilt noDrop) d).clearWindow, true)

def flush (env : Env) : Engine maxMsgs × EspErr :=
  ((d.flushWindow env).1, if (d.flushWindow env).2 then .ok else .noMem)

-- Publishing

def publishCheck (context path value : CStr) (atMs : Int) : EspErr :=
  if path = [] ∨ value = [] ∨ (atMs ≠ 0 ∧ (atMs < AT_MS_MIN ∨ AT_MS_MAX < atMs)) then .invalidArg
  else if contextCheck context ≠ .ok then contextCheck context
  else if PATH_MAX ≤ path.length ∨ VALUE_MAX ≤ value.length then .invalidSize
  else .ok

-- Newest wins within the window.
def replaceValue (ctx : Nat) (path : CStr) (atMs : Int) (value : CStr) :
    List Entry → Option (List Entry)
  | [] => none
  | p :: ps =>
    if p.holds ctx path atMs then some ({ p with value := value } :: ps)
    else (replaceValue ctx path atMs value ps).map (p :: ·)

def appendValue (ctx : Nat) (path value : CStr) (atMs : Int) (now : UInt32) : Engine maxMsgs :=
  { d with
    pendingSinceMs := if d.pending = [] then now else d.pendingSinceMs
    pending := d.pending ++ [⟨path, value, atMs, ctx, (d.updateOf ctx atMs).getD d.updN⟩]
    updN := if (d.updateOf ctx atMs).isSome then d.updN else d.updN + 1 }

-- The new value would go out ahead of an older one of its path.
def reorders (ctx : Option Nat) (path : CStr) (atMs : Int) : Bool :=
  match ctx with
  | none => false
  | some c => d.overtakes c (d.updateOf c atMs) path

-- The table a value that replaces one of the window leaves.
def coalesced (ctx : Option Nat) (path value : CStr) (atMs : Int) : Option (List Entry) :=
  match ctx with
  | none => none
  | some c => if d.reorders ctx path atMs then none else replaceValue c path atMs value d.pending

-- The context table, the table of values or the order of a path's values
-- leaves the new value no place in the window.
def noPlace (K : Kconfig) (ctx : Option Nat) (path : CStr) (atMs : Int) : Bool :=
  ctx.isNone || d.reorders ctx path atMs || decide (d.pending.length = K.skPendingMax)

-- A context slot the table has no room for is stored as the byte 255.
def slotByte (ctx : Option Nat) : Nat :=
  ctx.getD 255

def publishInto (K : Kconfig) (env : Env) (context path value : CStr) (atMs : Int)
    (ctx : Option Nat) : Engine maxMsgs × EspErr :=
  match d.coalesced ctx path value atMs with
  | some table => (d.setPending table, .ok)
  | none =>
    if d.noPlace K ctx path atMs then
      -- window overflow: close it early
      let (flushed, closed) := d.flushWindow env
      if closed then
        let (d, ctx) := flushed.contextSlot context
        (d.appendValue (slotByte ctx) path value atMs env.now, .ok)
      else (flushed, .noMem)
    else (d.appendValue (slotByte ctx) path value atMs env.now, .ok)

def publishAt (K : Kconfig) (env : Env) (context : Option CStr) (path value : CStr) (atMs : Int) :
    Engine maxMsgs × EspErr :=
  let context := context.getD SELF_CONTEXT
  if publishCheck context path value atMs ≠ .ok then (d, publishCheck context path value atMs)
  else
    let (d, ctx) := d.contextSlot context
    d.publishInto K env context path value atMs ctx

-- Sending

def batchDue (now : UInt32) : Bool :=
  decide (d.pending ≠ []) && reached now (d.pendingSinceMs + d.batchMs)

-- The copy of a message with a timestamp inserted at `offset`, the head of the
-- update that was left undated. There is none, and the message is sent as it
-- is, when there is no clock, no memory, or `offset` is not the inside of an
-- object's opening brace.
def stamp (env : Env) (msg : Msg) (batchMs : UInt32) (offset : Nat) : Option Msg :=
  if env.wall ≤ 0 then none
  else
    match iso8601 (env.wall - (env.now - batchMs).toNat) with
    | none => none
    | some iso =>
      if offset = 0 ∨ msg.text.length ≤ offset ∨ msg.text[offset - 1]? ≠ some '\x7b' then none
      else if env.allocStamp then
        some
          { addr := d.nextAddr
            text := msg.text.take offset ++ timestamp iso ++ msg.text.drop offset
            doc := msg.doc.stamp iso }
      else none

-- Hand out the oldest message, stamped where it was left undated and the time
-- is known.
def handOut (env : Env) : Engine maxMsgs × Option Msg :=
  match d.ringPop with
  | none => (d, none)
  | some (q, d) =>
    let d := { d with
      lastTakeMs := env.now
      st := { d.st with taken := d.st.taken + 1 }
      unstamped := none }
    if q.stampAt = 0 then (d, some q.msg)
    else
      match d.stamp env q.msg q.batchMs q.stampAt with
      | some out => ({ d with nextAddr := d.nextAddr + 1 }, some out)
      | none =>
        ({ d with
          unstamped := some q.msg.addr
          unstampedAt := q.stampAt
          unstampedBatchMs := q.batchMs }, some q.msg)

-- A backlog is more than the message a window was just closed into.
def backlog : Bool :=
  decide (1 < d.ring.count) || d.draining

-- The gap since the last message is too short for a draining ring.
def tooSoon (now : UInt32) : Bool :=
  decide (d.st.taken ≠ 0) && !reached now (d.lastTakeMs + 1000 / d.drainPerS)

def setDraining (draining : Bool) : Engine maxMsgs :=
  { d with draining := draining }

def closeDue (env : Env) : Engine maxMsgs :=
  if d.batchDue env.now then (d.flushWindow env).1 else d

def send (env : Env) (connected : Bool) : Engine maxMsgs × Option Msg :=
  if !connected || decide (d.ring.count = 0) then (d.setDraining false, none)
  else if d.backlog && d.tooSoon env.now then (d, none)
  else (d.setDraining (d.backlog && decide (1 < d.ring.count))).handOut env

def take (env : Env) (connected : Bool) : Engine maxMsgs × Option Msg :=
  (d.closeDue env).send env connected

end Engine

-- A call at `now` on a device that does not know the time.
def Env.clockless (now : UInt32) : Env where
  now := now
  wall := 0
  allocMessage := fun _ => true
  allocStamp := true

-- The calls of the engine's interface that change it.
inductive Op
  | publishAt (context : Option CStr) (path value : CStr) (atMs : Int)
  | flush
  | take (connected : Bool)
  | requeue (msg : Msg)
  | setLabel (label : Option CStr)
  | setTiming (batchMs drainPerS : UInt32)
  | setNoDrop (noDrop : Bool)

def step (K : Kconfig) {maxMsgs : Nat} (d : Engine maxMsgs) (call : Env × Op) : Engine maxMsgs :=
  match call.2 with
  | .publishAt context path value atMs => (d.publishAt K call.1 context path value atMs).1
  | .flush => (d.flush call.1).1
  | .take connected => (d.take call.1 connected).1
  | .requeue msg => d.requeue msg
  | .setLabel label => d.setLabel label
  | .setTiming batchMs drainPerS => d.setTiming batchMs drainPerS
  | .setNoDrop noDrop => d.setNoDrop noDrop

-- A message handed out while the next window closes, and put back after it.
def failedSend (cfg : Cfg) : List (Env × Op) :=
  let env := Env.clockless 0
  let publish := Op.publishAt none (lit "a") (lit "1") 0
  let queued := step .default (step .default (create cfg) (env, publish)) (env, .flush)
  [(env, publish), (env, .flush), (env, .take true), (env, publish), (env, .flush)] ++
    ((queued.take env true).2.map fun msg => (env, .requeue msg)).toList

end Espos.Sk.Delta
