import Espos.Platform
import Espos.Lib.Digits
import Espos.Sdlog.Card
import Espos.Sdlog.Sha256

-- `sdlog_session.c`: the calls as programs of file operations.

namespace Espos.Sdlog

open Espos.Text Espos.Scan

def maxSeq : Nat := 99999999

def syncEveryDefault : UInt32 := 10

structure OpenCfg where
  syncEvery : UInt32
  rowCrc : Bool
deriving DecidableEq

structure Session where
  stream : Nat
  sha : Sha256
  seq : Nat
  rows : UInt64
  bytes : UInt64
  syncEvery : UInt32
  unsynced : UInt32
  rowCrc : Bool
  failed : Bool
deriving DecidableEq

structure Info where
  seq : Nat
  closed : Bool
  clean : Bool
  synced : Bool
  rows : UInt64
  bytes : UInt64
  sha256 : CStr
deriving DecidableEq

-- What comes behind `&&` is done only where what is in front of it was.
def andAlso (ok : Bool) (p : Io Bool) : Io Bool :=
  if ok then p else pure false

-- The parts of a file, until one cannot be written.
def putParts (p : Path) : List CStr → Io Bool
  | [] => pure true
  | text :: rest => do
    let ok ← Io.fputs p text
    andAlso ok (putParts p rest)

def dropTmp (tmp : Path) : Io EspErr := do
  let _ ← Io.unlink tmp
  pure .fail

-- FatFs refuses to rename onto a name that is taken.
def putInPlace (tmp dst : Path) : Io EspErr := do
  let _ ← Io.unlink dst
  let renamed ← Io.rename tmp dst
  if !renamed then dropTmp tmp else pure .ok

def writeFileAtomic (tmp dst : Path) (parts : List CStr) : Io EspErr := do
  let opened ← Io.fopenWrite tmp
  if !opened then pure .fail
  else
    let written ← putParts tmp parts
    let flushed ← andAlso written (Io.fsync tmp)
    let closed ← Io.fclose tmp
    if !(closed && flushed) then dropTmp tmp else putInPlace tmp dst

-- What a file of the root counts for; anything but a number counts for nothing.
def numberOf (text : CStr) : Nat :=
  match unsigned 32 text with
  | some (v, _) => if maxSeq < v then 0 else v
  | none => 0

def readSeqFile (p : Path) : Io Nat := do
  let text ← Io.readNumber p
  pure ((text.map numberOf).getD 0)

def readLastSeq : Io Nat := do
  let a ← readSeqFile .lastSeq
  let b ← readSeqFile .lastSeqTmp
  pure (max a b)

def lastSeqText (seq : Nat) : CStr :=
  decimal seq ++ lit "\n"

def writeLastSeq (seq : Nat) : Io EspErr :=
  writeFileAtomic .lastSeqTmp .lastSeq [lastSeqText seq]

def closeHead (clean : Bool) (rows bytes : UInt64) (sha : CStr) : CStr :=
  lit "\x7b\"closed\":true,\"clean\":" ++ lit (if clean then "true" else "false") ++
    lit ",\"rows\":" ++ decimal rows.toNat ++ lit ",\"bytes\":" ++ decimal bytes.toNat ++
    lit ",\"sha256\":\"" ++ sha ++ lit "\",\"meta\":"

def writeClose (seq : Nat) (clean : Bool) (rows bytes : UInt64) (sha : CStr)
    (jsonMeta : Option CStr) : Io EspErr :=
  if 192 ≤ (closeHead clean rows bytes sha).length then pure .invalidSize
  else
    writeFileAtomic (.file seq .closeTmp) (.file seq .close)
      [closeHead clean rows bytes sha, jsonMeta.getD (lit "null"), lit "\x7d\n"]

def unlinkAll (seq : Nat) (names : List Name) : Io Unit :=
  names.foldlM (fun _ name => do
    let _ ← Io.unlink (.file seq name)
    pure ()) ()

def sdlogRemove (seq : Nat) : Io EspErr := do
  let entries ← Io.readDir seq
  match entries with
  | .absent => pure .notFound
  | .failed => pure .fail
  | .got names => do
    unlinkAll seq names
    let gone ← Io.rmdir seq
    pure (if gone then .ok else .fail)

-- The first half of `open`: the highest number ever handed out.
def openLast : Io (Except EspErr Nat) := do
  let made ← Io.mkdirRoot
  if !made then pure (.error .fail)
  else
    let seqs ← Io.scanRoot
    match seqs with
    | none => pure (.error .fail)
    | some seqs => do
      let last ← readLastSeq
      pure (.ok (max last (seqs.getLast?.getD 0)))

-- The second half, once the number is recorded.
def startSession (seq : Nat) (header : CStr) (cfg : Option OpenCfg) :
    Io (EspErr × Option Session) := do
  let made ← Io.mkdir seq
  if !made then pure (.fail, none)
  else
    let err ← writeFileAtomic (.file seq .headTmp) (.file seq .head) [header]
    if err ≠ .ok then do
      let _ ← sdlogRemove seq
      pure (err, none)
    else
      let stream ← Io.fopenRows seq
      match stream with
      | none => do
        let _ ← sdlogRemove seq
        pure (.fail, none)
      | some stream =>
        let every := (cfg.map OpenCfg.syncEvery).getD 0
        pure (.ok, some
          { stream := stream, sha := .init, seq := seq, rows := 0, bytes := 0
            syncEvery := if every = 0 then syncEveryDefault else every
            unsynced := 0
            rowCrc := (cfg.map OpenCfg.rowCrc).getD false
            failed := false })

def sdlogOpen (header : CStr) (cfg : Option OpenCfg) : Io (EspErr × Option Session) := do
  let last ← openLast
  match last with
  | .error err => pure (err, none)
  | .ok last =>
    if maxSeq ≤ last then pure (.invalidState, none)
    else do
      let err ← writeLastSeq (last + 1)
      if err ≠ .ok then pure (err, none) else startSession (last + 1) header cfg

def sdlogSync (s : Session) : Io (EspErr × Session) :=
  if s.failed then pure (.fail, s)
  else do
    let ok ← Io.fsyncRows s.stream
    if !ok then pure (.fail, { s with failed := true })
    else pure (.ok, { s with unsynced := 0 })

def rowTail (rowCrc : Bool) (row : CStr) : CStr :=
  if rowCrc then lit "," ++ hexWord (crc32 0 (bytesOf row)) ++ lit "\n" else lit "\n"

def Accepts (s : Session) (row : CStr) : Prop :=
  '\r' ∉ row ∧ '\n' ∉ row ∧ s.failed = false

instance (s : Session) (row : CStr) : Decidable (Accepts s row) :=
  inferInstanceAs (Decidable (_ ∧ _ ∧ _))

def countRow (s : Session) (row tail : CStr) : Session :=
  { s with
    sha := (s.sha.update (bytesOf row)).update (bytesOf tail)
    rows := s.rows + 1
    bytes := s.bytes + .ofNat (row.length + tail.length)
    unsynced := s.unsynced + 1 }

def sdlogAppend (s : Session) (row : CStr) : Io (EspErr × Session) :=
  if '\r' ∈ row ∨ '\n' ∈ row then pure (.invalidArg, s)
  else if s.failed then pure (.fail, s)
  else do
    let tail := rowTail s.rowCrc row
    let wroteRow ← Io.fwrite s.stream row
    let wrote ← andAlso wroteRow (Io.fwrite s.stream tail)
    if !wrote then pure (.fail, { s with failed := true })
    else
      let s := countRow s row tail
      if s.syncEvery ≤ s.unsynced then sdlogSync s else pure (.ok, s)

def sdlogClose (s : Session) (jsonMeta : Option CStr) : Io EspErr := do
  let flushed ← andAlso (!s.failed) (Io.fsyncRows s.stream)
  let closed ← Io.fcloseRows s.stream
  if closed && flushed then writeClose s.seq true s.rows s.bytes s.sha.hex jsonMeta
  else pure .fail

def isLower (c : Char) : Bool :=
  'a' ≤ c ∧ c ≤ 'z'

def isHex (c : Char) : Bool :=
  c.isDigit ∨ ('a' ≤ c ∧ c ≤ 'f')

-- The fields in front of `meta`, read as a fixed format.
def parseClose (text : CStr) : Option (Bool × UInt64 × UInt64 × CStr) := do
  let text := (text.take 255).takeWhile (· ≠ '\x00')
  let text ← literal (lit "\x7b\"closed\":true,\"clean\":") text
  let (clean, text) ← set 5 isLower text
  let text ← literal (lit ",\"rows\":") text
  let (rows, text) ← unsigned 64 text
  let text ← literal (lit ",\"bytes\":") text
  let (bytes, text) ← unsigned 64 text
  let text ← literal (lit ",\"sha256\":\"") text
  let (sha, _) ← set 64 isHex text
  if sha.length = 64 then some (clean = lit "true", .ofNat rows, .ofNat bytes, sha) else none

def blankInfo : Info :=
  ⟨0, false, false, false, 0, 0, []⟩

def readClose (seq : Nat) (info : Info) : Io (EspErr × Info) := do
  let text ← Io.read (.file seq .close)
  match text with
  | .got text =>
    match parseClose text with
    | some (clean, rows, bytes, sha) =>
      pure (.ok, { info with clean := clean, rows := rows, bytes := bytes, sha256 := sha })
    | none => pure (.invalidResponse, info)
  | _ => pure (.fail, info)

def sdlogInfo (seq : Nat) : Io (EspErr × Info) := do
  let isDir ← Io.isDir seq
  if !isDir then pure (.notFound, blankInfo)
  else
    let synced ← Io.stat (.file seq .synced)
    let closed ← Io.stat (.file seq .close)
    if closed then readClose seq { blankInfo with seq := seq, synced := synced, closed := true }
    else do
      let size ← Io.size (.file seq .rows)
      pure (.ok, { blankInfo with seq := seq, synced := synced, bytes := .ofNat (size.getD 0) })

-- The rows a power cut left, or an empty file where there is none.
def recoverRows (seq : Nat) : Io (Option CStr) := do
  let text ← Io.read (.file seq .rows)
  match text with
  | .got text => pure (some text)
  | .failed => pure none
  | .absent => do
    let opened ← Io.fopenWrite (.file seq .rows)
    if !opened then pure none
    else
      let flushed ← Io.fsync (.file seq .rows)
      let closed ← Io.fclose (.file seq .rows)
      pure (if closed && flushed then some [] else none)

-- Where the last complete row ends.
def keepOf (text : CStr) : Nat :=
  text.length - (text.reverse.takeWhile (· ≠ '\n')).length

def cutRows (seq : Nat) (keep size : Nat) : Io Bool :=
  if keep < size then Io.truncate (.file seq .rows) keep else pure true

def recoverOne (seq : Nat) : Io EspErr := do
  let _ ← Io.unlink (.file seq .closeTmp)
  let text ← recoverRows seq
  match text with
  | none => pure .fail
  | some text => do
    let keep := keepOf text
    let cut ← cutRows seq keep text.length
    if !cut then pure .fail
    else
      let kept ← Io.read (.file seq .rows)
      match kept with
      | .got kept =>
        writeClose seq false (.ofNat (text.count '\n')) (.ofNat keep)
          (Sha256.init.update (bytesOf kept)).hex none
      | _ => pure .fail

structure Recovered where
  first : EspErr
  recovered : Nat
  removed : Nat
deriving DecidableEq

def Recovered.note (r : Recovered) (err : EspErr) : Recovered :=
  if r.first = .ok then { r with first := err } else r

def recoverSeq (r : Recovered) (seq : Nat) : Io Recovered := do
  let closed ← Io.stat (.file seq .close)
  if closed then pure r
  else
    let started ← Io.stat (.file seq .head)
    if !started then do
      let err ← sdlogRemove seq
      pure ((if err = .ok then { r with removed := r.removed + 1 } else r).note err)
    else do
      let err ← recoverOne seq
      pure ((if err = .ok then { r with recovered := r.recovered + 1 } else r).note err)

def sdlogRecover : Io Recovered := do
  let seqs ← Io.scanRoot
  match seqs with
  | none => pure ⟨.fail, 0, 0⟩
  | some seqs => seqs.foldlM recoverSeq ⟨.ok, 0, 0⟩

def sdlogMarkSynced (seq : Nat) (note : Option CStr) : Io EspErr := do
  let (err, info) ← sdlogInfo seq
  if err ≠ .ok then pure err
  else if !info.closed then pure .invalidState
  else writeFileAtomic (.file seq .syncedTmp) (.file seq .synced) [note.getD []]

structure Pruned where
  total : UInt64
  first : EspErr
  removed : Nat
deriving DecidableEq

-- An unreadable session is never deleted, and counts for nothing.
def pruneInfo (acc : UInt64 × List Info) (seq : Nat) : Io (UInt64 × List Info) := do
  let (err, info) ← sdlogInfo seq
  if err = .ok then pure (acc.1 + info.bytes, acc.2 ++ [info])
  else pure (acc.1, acc.2 ++ [{ info with seq := seq, synced := false, bytes := 0 }])

def pruneOne (keepBytes : UInt64) (p : Pruned) (info : Info) : Io Pruned :=
  if p.total ≤ keepBytes ∨ !info.closed ∨ !info.synced then pure p
  else do
    let err ← sdlogRemove info.seq
    if err = .ok then pure { p with total := p.total - info.bytes, removed := p.removed + 1 }
    else pure (if p.first = .ok then { p with first := err } else p)

def sdlogPrune (keepBytes : UInt64) : Io Pruned := do
  let seqs ← Io.scanRoot
  match seqs with
  | none => pure ⟨0, .fail, 0⟩
  | some seqs => do
    let (total, infos) ← seqs.foldlM pruneInfo (0, [])
    infos.foldlM (pruneOne keepBytes) ⟨total, .ok, 0⟩

end Espos.Sdlog
