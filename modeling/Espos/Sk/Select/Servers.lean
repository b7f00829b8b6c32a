import Espos.Lib.Best
import Espos.Lib.Text
import Espos.Sk.Token.Machine

-- Which discovered server is ours: `sk_select.c`, and the part of `espos_sk.c`
-- that keeps the server table.

namespace Espos.Sk.Select

open Espos.Text
open Espos.Best

-- `espos_sk_discovered_t`
structure Discovered where
  host : Buf 64
  port : UInt16
  self : Buf 128
  name : Buf 48
  roles : Buf 32
  swname : Buf 24
  swvers : Buf 16
  tls : Bool
  seenMs : UInt32
deriving DecidableEq

def Discovered.addr (d : Discovered) : CStr × UInt16 :=
  (d.host.chars, d.port)

-- What an answer says at least.
def Discovered.answer (host : String) (port : UInt16) (self : String) (seenMs : UInt32) :
    Discovered :=
  ⟨.print (lit host), port, .print (lit self), .empty, .empty, .empty, .empty, false, seenMs⟩

-- `espos_sk_anchor_t`. A missing string is an empty one here.
structure Anchor where
  host : CStr
  port : UInt16
  self : CStr
deriving DecidableEq

-- `espos_sk_store_anchor`
def storeAnchor (st : Token.Store) : Anchor :=
  if !st.token.isEmpty then ⟨st.tokenHost.chars, st.tokenPort, st.tokenSelf.chars⟩
  else if !st.pendingHref.isEmpty then
    ⟨st.pendingHost.chars, st.pendingPort, st.pendingSelf.chars⟩
  else ⟨[], 0, []⟩

-- `espos_sk_keep_t` of a caller that has an anchor.
structure Keep where
  anchor : Anchor
  curHost : CStr
  curPort : UInt16
  selfFallback : Bool
deriving DecidableEq

-- `espos_sk_same_addr`
def sameAddr (d : Discovered) (host : CStr) (port : UInt16) : Bool :=
  !host.isEmpty && d.port == port && strcmp d.host.chars host == .eq

-- `espos_sk_disc_before`
def discBefore (a b : Discovered) (curHost : CStr) (curPort : UInt16) : Bool :=
  match strcmp a.self.chars b.self.chars with
  | .lt => true
  | .gt => false
  | .eq =>
    if sameAddr a curHost curPort != sameAddr b curHost curPort then sameAddr a curHost curPort
    else
      match strcmp a.host.chars b.host.chars with
      | .lt => true
      | .gt => false
      | .eq => decide (a.port < b.port)

-- `espos_sk_is_anchor`
def isAnchor (d : Discovered) (anchor : Anchor) : Bool :=
  (anchor.self.isEmpty || d.self.isEmpty || strcmp d.self.chars anchor.self == .eq) &&
    sameAddr d anchor.host anchor.port

namespace Keep

variable (keep : Keep)

-- The self URN may stand in for the address.
def bySelf : Bool :=
  !(keep.anchor.self.isEmpty || (!keep.anchor.host.isEmpty && !keep.selfFallback))

def before (a b : Discovered) : Bool :=
  discBefore a b keep.curHost keep.curPort

end Keep

-- `espos_sk_find_anchored`: the index with the entry there, and nothing for -1.
def findAnchored (list : List Discovered) (keep : Keep) : Option (Nat × Discovered) :=
  match list.findIdx? (isAnchor · keep.anchor) with
  | some i => list[i]?.map (i, ·)
  | none =>
    if keep.bySelf then
      elect (fun d => strcmp d.self.chars keep.anchor.self == .eq) keep.before list
    else none

-- What `espos_sk_disc_add` does on a full list: whatever `findAnchored` prefers
-- between the entry it picks now and the newcomer stays.
def discAddFull (max : Nat) (keep : Keep) (out : List Discovered) (d : Discovered) :
    List Discovered :=
  match findAnchored out keep with
  | some (cur, c) =>
    match findAnchored [c, d] keep with
    | some (1, _) => out.set cur d
    | _ => out
  | none =>
    match findAnchored [d] keep with
    | some (0, _) => out.set (max - 1) d
    | _ => out

-- `espos_sk_disc_add`
def discAdd (max : Nat) (keep : Option Keep) (out : List Discovered) (d : Discovered) :
    List Discovered :=
  match out.findIdx? (sameAddr · d.host.chars d.port) with
  | some i => out.set i d
  | none =>
    if out.length < max then out ++ [d]
    else
      match keep with
      | none => out
      | some keep => if max = 0 then out else discAddFull max keep out d

-- `espos_sk_merge_in_t`. The table carries its avoid stamps.
structure MergeIn where
  table : List (Discovered × UInt32)
  found : List Discovered
  keep : Keep
  nowMs : UInt32
  carryMs : UInt32

namespace MergeIn

variable (m : MergeIn)

def servers : List Discovered :=
  m.table.map Prod.fst

-- `carry_avoid` on a stamp that is still zero.
def carryAvoid (d : Discovered) : UInt32 :=
  m.table.foldl (fun avoid t => if sameAddr t.1 d.host.chars d.port then t.2 else avoid) 0

def stamped (d : Discovered) : Discovered :=
  { d with seenMs := m.nowMs }

-- Young enough to be carried over, by the signed comparison of the merge.
def carried (d : Discovered) : Bool :=
  decide ((m.nowMs - d.seenMs).toInt32 < m.carryMs.toInt32)

-- The entry for the first slot as the table has it, from this round's answers
-- where there is one.
def reservedOfTable : Option (Discovered × UInt32) :=
  match findAnchored m.servers m.keep with
  | none => none
  | some (i, t) =>
    let avoid := (m.table.map Prod.snd).getD i 0
    match m.found.find? (sameAddr · t.host.chars t.port) with
    | some f => some (m.stamped f, avoid)
    | none => if m.carried t then some (t, avoid) else none

def reserved : Option (Discovered × UInt32) :=
  match m.reservedOfTable with
  | some r => some r
  | none => (findAnchored m.found m.keep).map fun k => (m.stamped k.2, m.carryAvoid k.2)

-- The loop over this round's answers.
def addFound (cap : Nat) (kept : Option (Discovered × UInt32)) :
    List (Discovered × UInt32) → List Discovered → List (Discovered × UInt32)
  | out, [] => out
  | out, f :: found =>
    if cap ≤ out.length then out
    else if kept.any (fun r => sameAddr f r.1.host.chars r.1.port) then addFound cap kept out found
    else addFound cap kept (out ++ [(m.stamped f, m.carryAvoid f)]) found

-- The loop over what the table had.
def addTable (cap : Nat) :
    List (Discovered × UInt32) → List (Discovered × UInt32) → List (Discovered × UInt32)
  | out, [] => out
  | out, t :: table =>
    if cap ≤ out.length then out
    else if !out.any (fun o => sameAddr o.1 t.1.host.chars t.1.port) && m.carried t.1 then
      addTable cap (out ++ [t]) table
    else addTable cap out table

-- `espos_sk_merge_servers`, the entries with their avoid stamps.
def mergeServers (cap : Nat) : List (Discovered × UInt32) :=
  if cap = 0 then []
  else m.addTable cap (m.addFound cap m.reserved m.reserved.toList m.found) m.table

end MergeIn

-- What `espos_sk.c` knows of the servers.
structure Servers where
  servers : List (Discovered × UInt32)
  discoverIntervalMs : UInt32
  server : Option Token.Server
  anchorUnheardHost : Buf 64
  anchorUnheardPort : UInt16
  anchorUnheardRounds : UInt32

namespace Servers

def ANCHOR_UNHEARD_ROUNDS : UInt32 := 2

variable (s : Servers)

-- `carry_window_ms`
def carryWindowMs : UInt32 :=
  2 * s.discoverIntervalMs + 5000

-- `entry_fresh`
def entryFresh (d : Discovered) (t : UInt32) : Bool :=
  decide (t - d.seenMs < s.carryWindowMs)

-- `prune_stale_servers` at the time `t`.
def pruneStaleServers (t : UInt32) : Servers :=
  { s with servers := s.servers.filter fun d => s.entryFresh d.1 t }

-- `is_anchor_key`
def isAnchorKey (a : Anchor) : Bool :=
  strcmp s.anchorUnheardHost.chars a.host == .eq && s.anchorUnheardPort == a.port

-- `anchor_note_answers`
def anchorNoteAnswers (a : Anchor) (found : List Discovered) : Servers :=
  if a.host.isEmpty || found.isEmpty then s
  else
    let s :=
      if s.isAnchorKey a then s
      else { s with
        anchorUnheardHost := .print a.host
        anchorUnheardPort := a.port
        anchorUnheardRounds := 0 }
    if found.any (isAnchor · a) then { s with anchorUnheardRounds := 0 }
    else { s with anchorUnheardRounds := s.anchorUnheardRounds + 1 }

-- `anchor_self_fallback`
def anchorSelfFallback (a : Anchor) : Bool :=
  if a.host.isEmpty then true
  else if s.servers.any (fun d => isAnchor d.1 a) then false
  else s.isAnchorKey a && decide (ANCHOR_UNHEARD_ROUNDS ≤ s.anchorUnheardRounds)

-- The server in use, or an empty host.
def keepOf (a : Anchor) : Keep where
  anchor := a
  curHost := (s.server.map fun srv => srv.host.chars).getD []
  curPort := (s.server.map Token.Server.port).getD 0
  selfFallback := s.anchorSelfFallback a

-- What `run_discovery` hands to the merge once it has noted the answers.
def mergeInOf (a : Anchor) (found : List Discovered) (t : UInt32) : MergeIn where
  table := s.servers
  found := found
  keep := s.keepOf a
  nowMs := t
  carryMs := s.carryWindowMs

-- `run_discovery` for the answers the query collected, up to the choice of a
-- server. `st` is the store of the token machine.
def runDiscovery (cap : Nat) (st : Token.Store) (answers : List Discovered) (t : UInt32) :
    Servers :=
  let a := storeAnchor st
  let found := answers.foldl (discAdd cap (some (s.keepOf a))) []
  let s := s.anchorNoteAnswers a found
  { s with servers := (s.mergeInOf a found t).mergeServers cap }

end Servers

end Espos.Sk.Select
