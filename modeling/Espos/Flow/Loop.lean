import Espos.Flow.Sched
import Espos.Platform

-- The loop of `espos_flow.c`: one mutex over the timer table, one mailbox. What
-- a callback does is a tree of its calls into the API, each branch going on with
-- what the call has answered.

namespace Espos.Flow

variable {ι σ : Type*}

-- The mailbox, which does not exist before the loop is first started, and its
-- counters. A missing callback is the message that only wakes the loop.
structure Box (ι : Type*) where
  mailbox : Option (List (Option ι))
  posts : UInt32
  dropped : UInt32
deriving DecidableEq

-- `held`: the loop task has the mutex.
structure Loop (ι : Type*) where
  sched : Sched ι
  held : Bool
  box : Box ι
  timersFired : UInt32
deriving DecidableEq

-- A callback: its calls, each with the reading of the clock it makes, and the
-- application's state at the end.
inductive Act (ι σ : Type*) where
  | done (s : σ)
  | every (nowMs periodMs : UInt32) (cb : Option ι) (k : EspErr → UInt32 → Act ι σ)
  | after (nowMs delayMs : UInt32) (cb : Option ι) (k : EspErr → UInt32 → Act ι σ)
  | cancel (h : UInt32) (k : EspErr → Act ι σ)
  | stats (k : Nat → Act ι σ)
  | post (cb : Option ι) (k : EspErr → Act ι σ)

variable (K : Kconfig)

def Box.post (b : Box ι) (cb : Option ι) : EspErr × Box ι :=
  match cb, b.mailbox with
  | none, _ => (.invalidArg, b)
  | some _, none => (.invalidState, b)
  | some cb, some queue =>
    if K.flowMailboxDepth ≤ queue.length then (.noMem, { b with dropped := b.dropped + 1 })
    else (.ok, { b with mailbox := some (queue ++ [some cb]), posts := b.posts + 1 })

-- The first start creates the mailbox.
def Box.start (b : Box ι) : Box ι :=
  { b with mailbox := some (b.mailbox.getD []) }

-- What is left is dropped rather than run.
def Box.stop (b : Box ι) : Box ι :=
  { b with
    mailbox := b.mailbox.map fun _ => []
    dropped := b.dropped + UInt32.ofNat (b.mailbox.getD []).length }

namespace Loop

def init : Loop ι :=
  ⟨.init K.flowMaxTimers, false, ⟨none, 0, 0⟩, 0⟩

-- The mutex is waited for without limit. A task that holds it never gets it.
def lock (l : Loop ι) : Option (Loop ι) :=
  if l.held then none else some { l with held := true }

def unlock (l : Loop ι) : Loop ι :=
  { l with held := false }

def addLocked (l : Loop ι) (nowMs delayMs periodMs : UInt32) (cb : Option ι) :
    Option (EspErr × UInt32 × Loop ι) :=
  match l.lock with
  | none => none
  | some l =>
    let (err, h, sched) := l.sched.add nowMs delayMs periodMs cb
    some (err, h.getD schedHandleNone, unlock { l with sched := sched })

def every (l : Loop ι) (nowMs periodMs : UInt32) (cb : Option ι) :
    Option (EspErr × UInt32 × Loop ι) :=
  if cb.isNone ∨ periodMs = 0 then some (.invalidArg, schedHandleNone, l)
  else l.addLocked nowMs periodMs periodMs cb

def after (l : Loop ι) (nowMs delayMs : UInt32) (cb : Option ι) :
    Option (EspErr × UInt32 × Loop ι) :=
  if cb.isNone then some (.invalidArg, schedHandleNone, l)
  else l.addLocked nowMs delayMs 0 cb

def cancel (l : Loop ι) (h : UInt32) : Option (EspErr × Loop ι) :=
  match l.lock with
  | none => none
  | some l =>
    let (err, sched) := l.sched.cancel h
    some (err, unlock { l with sched := sched })

def timersLive (l : Loop ι) : Option (Nat × Loop ι) :=
  match l.lock with
  | none => none
  | some l => some (l.sched.count, l.unlock)

end Loop

-- Runs a callback on the loop task. It never comes back where it waits for the
-- mutex its own task holds.
def Act.run : Act ι σ → Loop ι → Option (Loop ι × σ)
  | .done s, l => some (l, s)
  | .every nowMs periodMs cb k, l =>
    match l.every nowMs periodMs cb with
    | none => none
    | some (err, h, l) => (k err h).run l
  | .after nowMs delayMs cb k, l =>
    match l.after nowMs delayMs cb with
    | none => none
    | some (err, h, l) => (k err h).run l
  | .cancel h k, l =>
    match l.cancel h with
    | none => none
    | some (err, l) => (k err).run l
  | .stats k, l =>
    match l.timersLive with
    | none => none
    | some (live, l) => (k live).run l
  | .post cb k, l => (k (l.box.post K cb).1).run { l with box := (l.box.post K cb).2 }

namespace Loop

variable (call : ι → σ → Act ι σ)

-- A callback of a sweep, which has the table.
def callSwept (cb : ι) (s : Sched ι) (x : Loop ι × σ) : Option (Sched ι × Loop ι × σ) :=
  match (call cb x.2).run K { x.1 with sched := s } with
  | none => none
  | some (l, y) => some (l.sched, l, y)

def drainMailbox : Nat → Nat → Loop ι → σ → Option (Nat × Loop ι × σ)
  | 0, n, l, x => some (n, l, x)
  | budget + 1, n, l, x =>
    match l.box.mailbox with
    | some (m :: queue) =>
      let l := { l with box := { l.box with mailbox := some queue } }
      match m with
      | none => drainMailbox budget (n + 1) l x
      | some cb =>
        match (call cb x).run K l with
        | none => none
        | some (l, x) => drainMailbox budget (n + 1) l x
    | _ => some (n, l, x)

-- One pass: timers, then posted work. Nothing where the loop task has waited for
-- its own mutex.
def runOnce (l : Loop ι) (nowMs : UInt32) (x : σ) : Option (Bool × Loop ι × σ) :=
  match l.lock with
  | none => none
  | some l =>
    match l.sched.fire (callSwept K call) nowMs (l, x) with
    | none => none
    | some (fired, sched, l, x) =>
      let l := unlock { l with sched := sched }
      let l := { l with timersFired := l.timersFired + UInt32.ofNat fired }
      match l.drainMailbox K call K.flowMailboxDepth 0 x with
      | none => none
      | some (drained, l, x) => some (fired > 0 || drained > 0, l, x)

end Loop

-- The loop task beside the others. `lockedOut`: it waits for the mutex it holds,
-- and so does everybody who wants the mutex.
structure World (ι σ : Type*) where
  loop : Loop ι
  app : σ
  lockedOut : Bool

-- A pass of the loop task, the message that ends its sleep, calls of another
-- task or of an interrupt that run when the mutex is free, a start of the loop,
-- and a stop, which drops what is left in the mailbox.
inductive Input (ι σ : Type*) where
  | pass (nowMs : UInt32)
  | wake
  | other (act : σ → Act ι σ)
  | start
  | stop

def World.step (call : ι → σ → Act ι σ) (w : World ι σ) (input : Input ι σ) : World ι σ :=
  if w.lockedOut then w
  else
    match input with
    | .pass nowMs =>
      match w.loop.runOnce K call nowMs w.app with
      | none => { w with lockedOut := true }
      | some (_, l, x) => { w with loop := l, app := x }
    | .wake =>
      match w.loop.drainMailbox K call 1 0 w.app with
      | none => { w with lockedOut := true }
      | some (_, l, x) => { w with loop := l, app := x }
    | .other act =>
      match (act w.app).run K w.loop with
      | none => w
      | some (l, x) => { w with loop := l, app := x }
    | .start => { w with loop := { w.loop with box := w.loop.box.start } }
    | .stop => { w with loop := { w.loop with box := w.loop.box.stop } }

end Espos.Flow
