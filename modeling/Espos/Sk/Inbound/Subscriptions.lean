import Espos.Platform
import Espos.Lib.Text
import Espos.Sk.Delta.Engine

namespace Espos.Sk.Inbound

open Espos.Text
open Espos.Sk.Delta (PATH_MAX)

def MAX_RAW : Nat := 16

-- The rows of `pending_unsub`.
def MAX_UNSUB : Nat := 4

-- `sub_t`. `cb` stands for the callback with its argument.
structure Sub where
  handle : Nat
  pattern : CStr
  periodMs : UInt32
  cb : Nat
  sent : Bool
deriving DecidableEq

-- The part of the inbound state that subscribing uses.
structure State where
  subs : List Sub
  nextHandle : Nat
  dirty : Bool
  pendingUnsub : List CStr
  raw : List CStr
  connected : Bool
deriving DecidableEq

-- An entry of a subscribe frame. The server gets the pattern and the period;
-- `group` has the handles of the subscriptions the entry was sent for.
structure Item where
  pattern : CStr
  periodMs : UInt32
  group : List Nat
deriving DecidableEq

inductive Content
  | subscribe (items : List Item)
  | unsubscribe (patterns : List CStr)
  | other
deriving DecidableEq

-- A frame: what is printed, the size of the buffer it is printed into, and
-- what it tells the server.
structure Frame where
  text : CStr
  cap : Nat
  content : Content
deriving DecidableEq

-- With its terminator the text is no longer than the buffer. Otherwise it is
-- cut off, or written past the end of the buffer.
def Frame.fits (f : Frame) : Bool :=
  decide (f.text.length < f.cap)

namespace State

def init : State where
  subs := []
  nextHandle := 1
  dirty := false
  pendingUnsub := []
  raw := []
  connected := false

variable (s : State)

-- A missing pattern is an empty one here.
def subscribe (K : Kconfig) (pattern : CStr) (periodMs : UInt32) (cb : Option Nat) :
    State × Except EspErr Nat :=
  match cb with
  | none => (s, .error .invalidArg)
  | some cb =>
    if pattern = [] ∨ PATH_MAX ≤ pattern.length then (s, .error .invalidArg)
    else if K.skMaxSubs ≤ s.subs.length then (s, .error .noMem)
    else
      ({ s with
        subs := s.subs ++
          [{ handle := s.nextHandle
             pattern := pattern
             periodMs := if periodMs = 0 then 1000 else periodMs
             cb := cb
             sent := false }]
        nextHandle := s.nextHandle + 1
        dirty := true }, .ok s.nextHandle)

-- Split a table at the entry with a handle.
def locate (handle : Nat) : List Sub → Option (List Sub × Sub × List Sub)
  | [] => none
  | e :: rest =>
    if e.handle = handle then some ([], e, rest)
    else (locate handle rest).map fun r => (e :: r.1, r.2)

-- Another entry covers the same pattern.
def covered (before : List Sub) (e : Sub) (after : List Sub) : Bool :=
  (before ++ after).any fun f => f.pattern == e.pattern

def keep (subs : List Sub) (pendingUnsub : List CStr) (dirty : Bool) : State :=
  { s with subs := subs, pendingUnsub := pendingUnsub, dirty := dirty }

-- The server is only told if no other subscription covers the pattern.
def unsubscribe (handle : Nat) : State × EspErr :=
  match locate handle s.subs with
  | none => (s, .notFound)
  | some (before, e, after) =>
    if !covered before e after && e.sent && decide (s.pendingUnsub.length < MAX_UNSUB) then
      (s.keep (before ++ after) (s.pendingUnsub ++ [e.pattern]) true, .ok)
    else (s.keep (before ++ after) s.pendingUnsub s.dirty, .ok)

def sendRaw (json : CStr) : State × EspErr :=
  if !s.connected then (s, .invalidState)
  else if MAX_RAW ≤ s.raw.length then (s, .noMem)
  else ({ s with raw := s.raw ++ [json] }, .ok)

def unsend (e : Sub) : Sub :=
  { e with sent := false }

def setConnected (connected : Bool) : State :=
  if connected then { s with connected := true }
  else
    { s with
      connected := false
      subs := s.subs.map unsend
      pendingUnsub := []
      dirty := decide (s.subs ≠ [])
      raw := [] }

def unsubscribeText (patterns : List CStr) : CStr :=
  lit "\x7b\"context\":\"vessels.self\",\"unsubscribe\":[" ++
    listed true (patterns.map fun p => lit "\x7b\"path\":\"" ++ p ++ lit "\"\x7d") ++ lit "]\x7d"

def itemText (e : Sub) : CStr :=
  lit "\x7b\"path\":\"" ++ e.pattern ++ lit "\",\"period\":" ++ decimal e.periodMs.toNat ++
    lit ",\"format\":\"delta\",\"policy\":\"instant\",\"minPeriod\":" ++ decimal e.periodMs.toNat ++
    lit "\x7d"

def subscribeText (entries : List Sub) : CStr :=
  lit "\x7b\"context\":\"vessels.self\",\"subscribe\":[" ++ listed true (entries.map itemText) ++
    lit "]\x7d"

-- The entries a subscribe frame is written from: those not sent, each pattern
-- once. `seen` is the table in front of the entries still to look at.
def unsentOnce (seen : List Sub) : List Sub → List Sub
  | [] => []
  | e :: rest =>
    if e.sent || seen.any (fun f => !f.sent && f.pattern == e.pattern) then
      unsentOnce (seen ++ [e]) rest
    else e :: unsentOnce (seen ++ [e]) rest

def unsent : List Sub :=
  s.subs.filter fun e => !e.sent

def item (e : Sub) : Item where
  pattern := e.pattern
  periodMs := e.periodMs
  group := (s.unsent.filter fun f => f.pattern == e.pattern).map Sub.handle

def subscribeFrame : Frame where
  text := subscribeText (unsentOnce [] s.subs)
  cap := 64 + s.unsent.length * (PATH_MAX + 64)
  content := .subscribe ((unsentOnce [] s.subs).map s.item)

def unsubscribeFrame : Frame where
  text := unsubscribeText s.pendingUnsub
  cap := 64 + s.pendingUnsub.length * (PATH_MAX + 16)
  content := .unsubscribe s.pendingUnsub

def markSent (e : Sub) : Sub :=
  { e with sent := true }

-- What changed since the last frame. `alloc` is whether a buffer for it could
-- be had.
def takeFrame (alloc : Bool) : State × Option Frame :=
  match s.raw with
  | frame :: rest => ({ s with raw := rest }, some ⟨frame, frame.length + 1, .other⟩)
  | [] =>
    if s.pendingUnsub ≠ [] then
      ({ s with pendingUnsub := [] }, if alloc then some s.unsubscribeFrame else none)
    else if s.dirty then
      if s.unsent ≠ [] ∧ alloc then
        ({ s with dirty := false, subs := s.subs.map markSent }, some s.subscribeFrame)
      else ({ s with dirty := false }, none)
    else (s, none)

end State

end Espos.Sk.Inbound
