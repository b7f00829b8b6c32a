import Espos.Lib.Crash
import Espos.Lib.Text
import Espos.Sdlog.Sha256
import Mathlib.Data.List.Sort
import Mathlib.Logic.Function.Basic

-- The follower of `follower.cpp`: what one pass asks of the card, of the sink and of
-- the progress store, and what it makes of the answers.

namespace Espos.UsbStorage

open Espos.Text Espos.Crash

abbrev Path := CStr

structure FileEntry where
  path : Path
  size : Nat
deriving DecidableEq

structure Progress where
  offset : Nat := 0
  headLen : Nat := 0
  headCrc : UInt32 := 0
deriving DecidableEq

structure Chunk where
  path : Path
  offset : Nat
  data : List UInt8
  restarted : Bool
deriving DecidableEq

structure Watch where
  dir : CStr
  suffix : CStr
  recordSize : Nat := 1
deriving DecidableEq

structure FollowerConfig where
  watches : List Watch
  settleMs : Nat := 30000
  maxChunk : Nat := 16 * 1024
  saveEvery : Nat := 256 * 1024

structure PassResult where
  complete : Bool := false
  interrupted : Bool := false
  sinkRefused : Bool := false
  storeFailed : Bool := false
  chunks : Nat := 0
  bytes : Nat := 0
deriving DecidableEq

structure Seen where
  size : Nat
  atMs : Int
  gen : Nat
  stable : Nat
deriving DecidableEq

def kHeadLen : Nat := 32

def settledEnd (sizeNow seenSize : Nat) (seenAtMs nowMs : Int) (settleMs : Nat) : Nat :=
  if sizeNow ≠ seenSize then 0
  else if nowMs - seenAtMs < settleMs then 0
  else sizeNow

-- A record of no bytes counts as one of one byte.
def recordUnit (recordSize : Nat) : Nat :=
  if recordSize = 0 then 1 else recordSize

def chunkEnd (offset limit recordSize maxChunk : Nat) : Nat :=
  let recordSize := recordUnit recordSize
  if limit ≤ offset then offset
  else
    let avail := (limit - offset) / recordSize * recordSize
    let cap := maxChunk / recordSize * recordSize
    let cap := if cap = 0 then recordSize else cap
    offset + min avail cap

def crc32 (crc : UInt32) (data : List UInt8) : UInt32 :=
  Sdlog.crc32 crc data

def suffixMatches (name suffix : CStr) : Bool :=
  suffix.length ≤ name.length &&
    (name.drop (name.length - suffix.length)).map Char.toLower == suffix.map Char.toLower

-- What a pass calls: `FsView`, the sink and `ProgressStore`.
inductive Call where
  | list (dir : CStr)
  | read (path : Path) (offset len : Nat)
  | unchanged
  | sink (chunk : Chunk)
  | load (path : Path)
  | save (path : Path) (p : Progress)
  | erase (path : Path)
  | paths

abbrev Call.Reply : Call → Type
  | .list _ => Option (List FileEntry)
  | .read _ _ _ => Option (List UInt8)
  | .unchanged => Bool
  | .sink _ => Bool
  | .load _ => Option Progress
  | .save _ _ => Bool
  | .erase _ => Unit
  | .paths => List Path

abbrev Script := Prog Call.Reply

def perform (c : Call) : Script c.Reply :=
  Prog.perform c

-- `!fs.read(…) || !fs.unchanged()`
def readUnchanged (path : Path) (offset len : Nat) : Script (Option (List UInt8)) := do
  match ← perform (.read path offset len) with
  | none => pure none
  | some data => if ← perform .unchanged then pure (some data) else pure none

-- The variables of `follow_file` that its hand-off loop changes.
structure Offer where
  p : Progress
  saved : Nat
  dirty : Bool := false
  restarted : Bool
  r : PassResult

def Offer.flush (o : Offer) (path : Path) : Script (Bool × Offer) := do
  if !o.dirty then
    pure (true, o)
  else if ← perform (.save path o.p) then
    pure (true, { o with saved := o.p.offset, dirty := false })
  else
    pure (false, { o with r := { o.r with storeFailed := true } })

def Offer.interrupted (o : Offer) : Offer :=
  { o with r := { o.r with interrupted := true } }

def Offer.refused (o : Offer) : Offer :=
  { o with r := { o.r with sinkRefused := true } }

def Offer.advance (o : Offer) (next : Progress) (len : Nat) : Offer :=
  { p := next
    saved := o.saved
    dirty := true
    restarted := false
    r := { o.r with chunks := o.r.chunks + 1, bytes := o.r.bytes + len } }

-- The flush of an exit whose result is `false` in any case.
def Offer.stop (o : Offer) (path : Path) : Script (Bool × PassResult) := do
  let (_, o) ← o.flush path
  pure (false, o.r)

-- The head of a file of which `data` was just accepted.
def readHead (offset : Nat) (path : Path) (data : List UInt8) (hl : Nat) :
    Script (Option (List UInt8)) :=
  if offset = 0 then pure (some (data.take hl)) else readUnchanged path 0 hl

-- The progress behind a chunk that ends at `stop`.
def headOf (o : Offer) (path : Path) (data : List UInt8) (stop : Nat) :
    Script (Option Progress) := do
  let next := { o.p with offset := stop }
  if next.headLen < kHeadLen then
    let hl := min kHeadLen stop
    match ← readHead o.p.offset path data hl with
    | none => pure none
    | some head => pure (some { next with headLen := hl, headCrc := crc32 0 head })
  else pure (some next)

-- One turn of the loop per unit of `fuel`: a chunk moves the offset, so that
-- `limit` turns are more than it takes.
def handOff (cfg : FollowerConfig) (e : FileEntry) (recordSize limit : Nat) :
    Nat → Offer → Script (Bool × PassResult)
  | 0, o => do
    let (ok, o) ← o.flush e.path
    pure (ok, o.r)
  | fuel + 1, o => do
    let stop := chunkEnd o.p.offset limit recordSize cfg.maxChunk
    if stop ≤ o.p.offset then
      let (ok, o) ← o.flush e.path
      pure (ok, o.r)
    else
      let len := stop - o.p.offset
      match ← readUnchanged e.path o.p.offset len with
      | none => o.interrupted.stop e.path
      | some data =>
        if ← perform (.sink ⟨e.path, o.p.offset, data, o.restarted⟩) then
          match ← headOf o e.path data stop with
          | none => o.interrupted.stop e.path
          | some next =>
            let o := o.advance next len
            if cfg.saveEvery ≤ o.p.offset - o.saved then
              let (ok, o) ← o.flush e.path
              if ok then handOff cfg e recordSize limit fuel o else pure (false, o.r)
            else handOff cfg e recordSize limit fuel o
        else o.refused.stop e.path

abbrev SeenMap := Path → Option Seen

-- The variables of `run_pass`.
structure Pass where
  r : PassResult := {}
  pending : Bool := false
  present : List Path := []
  seen : SeenMap

def sighted (seen : Option Seen) (e : FileEntry) (nowMs : Int) (writeGen : Nat) : Seen :=
  match seen with
  | none => ⟨e.size, nowMs, writeGen, 0⟩
  | some seen =>
    if seen.size ≠ e.size ∨ seen.gen ≠ writeGen then
      ⟨e.size, nowMs, writeGen, if seen.stable ≤ e.size then seen.stable else 0⟩
    else seen

-- The progress to go on from and whether the file was replaced; `none` where the
-- head could not be read.
def resume (e : FileEntry) : Script (Option (Progress × Bool)) := do
  match ← perform (.load e.path) with
  | none => pure (some ({}, false))
  | some p =>
    if p.offset ≤ e.size ∧ p.headLen ≤ e.size ∧ p.headLen ≤ kHeadLen then
      if 0 < p.headLen then
        match ← readUnchanged e.path 0 p.headLen with
        | none => pure none
        | some head =>
          pure (some (if crc32 0 head = p.headCrc then (p, false) else ({}, true)))
      else pure (some (p, false))
    else pure (some ({}, true))

def followFile (cfg : FollowerConfig) (e : FileEntry) (recordSize : Nat) (nowMs : Int)
    (writeGen : Nat) (b : Pass) : Script (Bool × Pass) := do
  let seen := sighted (b.seen e.path) e nowMs writeGen
  let b := { b with seen := Function.update b.seen e.path (some seen) }
  match ← resume e with
  | none => pure (false, { b with r := { b.r with interrupted := true } })
  | some (p, restarted) =>
    let seen := if restarted then { seen with stable := 0 } else seen
    let settled := settledEnd e.size seen.size seen.atMs nowMs cfg.settleMs
    let whole := settled == e.size
    let limit := if whole then settled else seen.stable
    let seen := if whole then { seen with stable := settled } else seen
    let (ok, r) ← handOff cfg e recordSize limit limit
      { p, saved := p.offset, restarted, r := b.r }
    pure (ok, { b with
      r
      pending := b.pending || !whole
      seen := Function.update b.seen e.path (some seen) })

-- The loop over a listing, to its end or to the first file that ends the pass.
def followAll (cfg : FollowerConfig) (w : Watch) (nowMs : Int) (writeGen : Nat) :
    List FileEntry → Pass → Script (Bool × Pass)
  | [], b => pure (true, b)
  | e :: es, b => do
    if suffixMatches e.path w.suffix then
      let (ok, b) ← followFile cfg e w.recordSize nowMs writeGen
        { b with present := e.path :: b.present }
      if ok then followAll cfg w nowMs writeGen es b else pure (false, b)
    else followAll cfg w nowMs writeGen es b

def byPath (a b : FileEntry) : Bool :=
  strcmp a.path b.path != .gt

def listUnchanged (dir : CStr) : Script (Option (List FileEntry)) := do
  match ← perform (.list dir) with
  | none => pure none
  | some entries => if ← perform .unchanged then pure (some entries) else pure none

def watchAll (cfg : FollowerConfig) (nowMs : Int) (writeGen : Nat) :
    List Watch → Pass → Script (Bool × Pass)
  | [], b => pure (true, b)
  | w :: ws, b => do
    match ← listUnchanged w.dir with
    | none => pure (false, { b with r := { b.r with interrupted := true } })
    | some entries =>
      let (ok, b) ← followAll cfg w nowMs writeGen (entries.insertionSort (byPath · ·)) b
      if ok then watchAll cfg nowMs writeGen ws b else pure (false, b)

def prune (present : List Path) : Script Unit := do
  let paths ← perform .paths
  paths.foldlM (fun _ path => if present.contains path then pure () else perform (.erase path)) ()

def runPass (cfg : FollowerConfig) (seen : SeenMap) (nowMs : Int) (writeGen : Nat) :
    Script (PassResult × SeenMap) := do
  let (ok, b) ← watchAll cfg nowMs writeGen cfg.watches { seen }
  if !ok then
    pure (b.r, b.seen)
  else if ← perform .unchanged then
    prune b.present
    pure ({ b.r with complete := !b.pending },
      fun path => if b.present.contains path then b.seen path else none)
  else
    pure ({ b.r with interrupted := true }, b.seen)

end Espos.UsbStorage
