import Espos.Platform
import Espos.Lib.Best
import Espos.Lib.Clock

-- The timer table of `espos_sched.c`. A callback and its argument are one value
-- of `ι`; what callbacks do is left to the caller of a sweep.

namespace Espos.Flow

open Espos.Best Espos.Clock

def schedMaxDelayMs : UInt32 := 0x7FFFFFFF
def schedHandleNone : UInt32 := 0

structure Timer (ι : Type*) where
  cb : ι
  dueMs : UInt32
  periodMs : UInt32
  gen : UInt16
  cancelled : Bool
  swept : Bool
  fresh : Bool
deriving DecidableEq

-- A slot that is not in use is empty.
structure Sched (ι : Type*) where
  slots : List (Option (Timer ι))
  seq : UInt32
  firing : Bool
deriving DecidableEq

variable {ι τ : Type*}

-- `a` is at or after `b`.
def schedReached (a b : UInt32) : Bool :=
  0 ≤ ahead a b

def handleMake (idx : Nat) (gen : UInt16) : UInt32 :=
  (UInt32.ofNat gen.toNat <<< 16) ||| (UInt32.ofNat idx &&& 0xFFFF)

def handleIdx (h : UInt32) : Nat :=
  (h &&& 0xFFFF).toNat

def handleGen (h : UInt32) : UInt16 :=
  UInt16.ofNat (h >>> 16).toNat

namespace Sched

def init (cap : Nat) : Sched ι :=
  ⟨List.replicate cap none, 1, false⟩

-- The next generation; 0 would make an all-zero handle.
def nextGen (seq : UInt32) : UInt16 × UInt32 :=
  let gen := UInt16.ofNat (seq &&& 0xFFFF).toNat
  if gen = 0 then (UInt16.ofNat ((seq + 1) &&& 0xFFFF).toNat, seq + 2) else (gen, seq + 1)

-- The handle is what `out` receives, where anything is written to it.
def add (s : Sched ι) (nowMs delayMs periodMs : UInt32) (cb : Option ι) :
    EspErr × Option UInt32 × Sched ι :=
  match cb with
  | none => (.invalidArg, none, s)
  | some cb =>
    if schedMaxDelayMs < delayMs ∨ schedMaxDelayMs < periodMs then (.invalidArg, none, s)
    else
      match s.slots.findIdx? Option.isNone with
      | none => (.noMem, some schedHandleNone, s)
      | some i =>
        let (gen, seq) := nextGen s.seq
        let t : Timer ι := ⟨cb, nowMs + delayMs, periodMs, gen, false, false, s.firing⟩
        (.ok, some (handleMake i gen), { s with slots := s.slots.set i (some t), seq := seq })

-- The slot of a live, uncancelled timer.
def resolve (s : Sched ι) (h : UInt32) : Option (Nat × Timer ι) :=
  if h = schedHandleNone then none
  else
    match s.slots[handleIdx h]? with
    | some (some t) =>
      if t.cancelled ∨ t.gen ≠ handleGen h then none else some (handleIdx h, t)
    | _ => none

-- Inside a sweep the timer is only marked.
def cancel (s : Sched ι) (h : UInt32) : EspErr × Sched ι :=
  match s.resolve h with
  | none => (.notFound, s)
  | some (i, t) =>
    (.ok, { s with
      slots := s.slots.set i (if s.firing then some { t with cancelled := true } else none) })

def nextDue (s : Sched ι) (nowMs : UInt32) : UInt32 :=
  s.slots.foldl (fun best slot =>
    match slot with
    | none => best
    | some t =>
      if t.cancelled then best
      else
        let wait := if schedReached nowMs t.dueMs then 0 else t.dueMs - nowMs
        if wait < best then wait else best) 0xFFFFFFFF

def count (s : Sched ι) : Nat :=
  s.slots.countP fun slot => slot.any fun t => !t.cancelled

-- Due, and not run in this sweep or added by it.
def eligible (nowMs : UInt32) : Option (Timer ι) → Bool
  | none => false
  | some t => !(t.cancelled || t.swept || t.fresh) && schedReached nowMs t.dueMs

-- The deadline comes before the one picked so far.
def earlier : Option (Timer ι) → Option (Timer ι) → Bool
  | some t, some u => ahead t.dueMs u.dueMs < 0
  | _, _ => false

def pick (s : Sched ι) (nowMs : UInt32) : Option (Nat × Timer ι) :=
  match elect (eligible nowMs) earlier s.slots with
  | some (i, some t) => some (i, t)
  | _ => none

-- A one-shot is spent before its callback runs. A periodic timer gets its next
-- deadline from the one just met, and skips the periods that were slept through.
def mark (nowMs : UInt32) (t : Timer ι) : Timer ι :=
  if t.periodMs = 0 then { t with swept := true, cancelled := true }
  else
    let next := t.dueMs + t.periodMs
    let next :=
      if schedReached nowMs next then
        let behind := nowMs - t.dueMs
        t.dueMs + (behind - behind % t.periodMs + t.periodMs)
      else next
    { t with swept := true, dueMs := next }

-- The loop of a sweep. `call` runs a callback, which may change the table and
-- whatever else there is, and may never come back. Each pass marks a timer, so
-- there are no more passes than slots.
def sweep (call : ι → Sched ι → τ → Option (Sched ι × τ)) (nowMs : UInt32) :
    Nat → Nat → Sched ι → τ → Option (Nat × Sched ι × τ)
  | 0, fired, s, x => some (fired, s, x)
  | fuel + 1, fired, s, x =>
    match s.pick nowMs with
    | none => some (fired, s, x)
    | some (i, t) =>
      match call t.cb { s with slots := s.slots.set i (some (mark nowMs t)) } x with
      | none => none
      | some (s, x) => sweep call nowMs fuel (fired + 1) s x

-- Spent timers are reaped and the marks cleared.
def unwind : Option (Timer ι) → Option (Timer ι)
  | none => none
  | some t => if t.cancelled then none else some { t with swept := false, fresh := false }

def fire (call : ι → Sched ι → τ → Option (Sched ι × τ)) (s : Sched ι) (nowMs : UInt32) (x : τ) :
    Option (Nat × Sched ι × τ) :=
  if s.firing then some (0, s, x)
  else
    match sweep call nowMs s.slots.length 0 { s with firing := true } x with
    | none => none
    | some (fired, s, x) =>
      some (fired, { s with slots := s.slots.map unwind, firing := false }, x)

end Sched

end Espos.Flow
