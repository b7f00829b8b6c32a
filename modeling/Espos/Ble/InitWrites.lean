import Espos.Lib.Run
import Espos.Lib.Text

-- UUID texts of `ble_proto.c`.

namespace Espos.Ble

open Espos.Text

-- The sixteen bytes, most significant first.
abbrev Uuid := List UInt8

def kBaseUuid : Uuid :=
  [0x00, 0x00, 0x00, 0x00, 0x00, 0x00, 0x10, 0x00, 0x80, 0x00, 0x00, 0x80, 0x5f, 0x9b, 0x34, 0xfb]

def hexVal (c : Char) : Option Nat :=
  if '0' ≤ c ∧ c ≤ '9' then some (c.toNat - '0'.toNat)
  else if 'a' ≤ c ∧ c ≤ 'f' then some (c.toNat - 'a'.toNat + 10)
  else if 'A' ≤ c ∧ c ≤ 'F' then some (c.toNat - 'A'.toNat + 10)
  else none

def hexByte (hi lo : Char) : Option UInt8 :=
  match hexVal hi, hexVal lo with
  | some hi, some lo => some (UInt8.ofNat (hi * 16 + lo))
  | _, _ => none

def hexBytes : CStr → Option (List UInt8)
  | hi :: lo :: rest => do
    let byte ← hexByte hi lo
    let bytes ← hexBytes rest
    return byte :: bytes
  | _ => some []

-- The loop over the dashed form, with `missing` bytes to come.
def dashedBytes : CStr → (missing : Nat) → Option (List UInt8)
  | _, 0 => some []
  | '-' :: rest, missing + 1 => dashedBytes rest (missing + 1)
  | hi :: lo :: rest, missing + 1 => do
    let byte ← hexByte hi lo
    let bytes ← dashedBytes rest missing
    return byte :: bytes
  | _, _ + 1 => none

def uuidParse (str : CStr) : Option Uuid :=
  if str.length = 4 ∨ str.length = 8 then do
    let bytes ← hexBytes str
    return kBaseUuid.take (4 - bytes.length) ++ bytes ++ kBaseUuid.drop 4
  else if str.length = 36 ∧ [8, 13, 18, 23].all fun i => str[i]? == some '-' then
    dashedBytes str 16
  else none

def hexLower (bytes : List UInt8) : CStr :=
  bytes.flatMap fun b => [Nat.digitChar (b.toNat / 16), Nat.digitChar (b.toNat % 16)]

def uuidFormat (uuid : Uuid) (bits : Nat) : CStr :=
  let base := uuid.drop 4 == kBaseUuid.drop 4
  if base && bits == 16 && uuid.take 2 == [0, 0] then hexLower ((uuid.drop 2).take 2)
  else if base && bits == 32 then hexLower (uuid.take 4)
  else
    hexLower (uuid.take 4) ++ '-' :: hexLower ((uuid.drop 4).take 2) ++ '-' ::
      hexLower ((uuid.drop 6).take 2) ++ '-' :: hexLower ((uuid.drop 8).take 2) ++ '-' ::
      hexLower (uuid.drop 10)

example : uuidParse (lit "FFE1") = uuidParse (lit "0000ffe1-0000-1000-8000-00805f9b34fb") := by
  decide

end Espos.Ble

-- The init chain of a session in `ble_gateway.c`, on its connection: what starts its
-- writes, what ends them, and what the server writes meanwhile. A step holds the session
-- lock.

namespace Espos.Ble

open Espos.Text

inductive WriteMode where
  | withResponse
  | noResponse
deriving DecidableEq

-- `ESP_OK`, `ESP_ERR_NOT_FINISHED` and every other error of `espos_ble_gatt_write`.
inductive WriteResult where
  | ok
  | notFinished
  | failed
deriving DecidableEq

structure InitWrite where
  charUuid : CStr
  data : List UInt8
  mode : WriteMode
deriving DecidableEq

structure CharEntry where
  uuid : Uuid
  handle : Nat
deriving DecidableEq

def handleForUuid (chars : List CharEntry) (uuidStr : CStr) : Nat :=
  match uuidParse uuidStr with
  | none => 0
  | some want => ((chars.find? fun e => e.uuid == want).map (·.handle)).getD 0

-- `accepted` is whether the stack takes the write.
def gattWrite (connected : Bool) (chars : List CharEntry) (uuid : CStr) (mode : WriteMode)
    (accepted : Bool) : WriteResult :=
  if !connected || handleForUuid chars uuid == 0 || !accepted then .failed
  else if mode = .noResponse then .notFinished
  else .ok

-- Whose write the stack has to answer.
inductive Origin where
  | init (k : Nat)
  | server
deriving DecidableEq

structure Write where
  handle : Nat
  origin : Origin
deriving DecidableEq

-- What ended an init write.
inductive Cause where
  | completed (origin : Origin)
  | deadline
  | refused
  | sent
deriving DecidableEq

inductive Event where
  | issued (k : Nat)
  | ended (k : Nat) (cause : Cause)
  | gattConnected
deriving DecidableEq

-- The stack and the clock while a call runs, for the init write of each index.
structure Env where
  accepts : Nat → Bool := fun _ => true
  now : Nat → Nat := fun _ => 0

-- `outstanding` are the writes with response that the stack has not answered, `log` what
-- the chain has done. A deadline of 0 is none.
structure Chain where
  connected : Bool := true
  chars : List CharEntry := []
  initWrites : List InitWrite := []
  initIndex : Nat := 0
  deadline : Nat := 0
  started : Bool := false
  outstanding : List Write := []
  log : List Event := []
deriving DecidableEq

namespace Chain

-- `lost` is the mark a disconnect makes before its callback.
inductive Step where
  | discovered (env : Env)
  | completed (i : Nat) (env : Env)
  | serverWrite (uuid : CStr) (mode : WriteMode) (accepted : Bool)
  | watchdog (now : Nat) (env : Env)
  | lost

def record (c : Chain) (e : Event) : Chain :=
  { c with log := c.log ++ [e] }

-- The write at `init_index` is over.
def advance (c : Chain) (cause : Cause) : Chain :=
  { c.record (.ended c.initIndex cause) with initIndex := c.initIndex + 1 }

def issue (c : Chain) (env : Env) : Chain :=
  { c.record (.issued c.initIndex) with deadline := env.now c.initIndex + 3000000 }

-- The turns of `run_init_writes`, over the writes from `init_index` on.
def runFrom (env : Env) : Chain → List InitWrite → Chain
  | c, [] => c.record .gattConnected
  | c, w :: ws =>
    match gattWrite c.connected c.chars w.charUuid w.mode (env.accepts c.initIndex) with
    | .ok =>
      { c.issue env with
        outstanding := c.outstanding ++ [⟨handleForUuid c.chars w.charUuid, .init c.initIndex⟩] }
    | .notFinished => runFrom env ((c.issue env).advance .sent) ws
    | .failed => runFrom env ((c.issue env).advance .refused) ws

def runInitWrites (c : Chain) (env : Env) : Chain :=
  runFrom env c (c.initWrites.drop c.initIndex)

def onGattConnected (c : Chain) (env : Env) : Chain :=
  { c with started := true }.runInitWrites env

-- The comparison of `on_gatt_write_done`: other than the write awaited only if both texts
-- parse and differ.
def awaited (uuid charUuid : CStr) : Bool :=
  match uuidParse uuid, uuidParse charUuid with
  | some got, some want => got == want
  | _, _ => true

-- The init write that a completion of this characteristic would end.
def ends (c : Chain) (uuid : CStr) : Bool :=
  match c.initWrites[c.initIndex]? with
  | some w => awaited uuid w.charUuid
  | none => false

def onGattWriteDone (c : Chain) (uuid : CStr) (origin : Origin) (env : Env) : Chain :=
  if c.ends uuid then (c.advance (.completed origin)).runInitWrites env else c

-- The name a completion reports: that of the first characteristic with its handle.
def reported (c : Chain) (w : Write) : Option CStr :=
  if c.connected then
    (c.chars.find? fun e => e.handle == w.handle).map fun e => uuidFormat e.uuid 128
  else none

def answered (c : Chain) (i : Nat) : Chain :=
  { c with outstanding := c.outstanding.eraseIdx i }

-- The stack answers on the task that discovery runs on, so behind it.
def completed (c : Chain) (i : Nat) (env : Env) : Chain :=
  match c.started, c.outstanding[i]? with
  | true, some w =>
    match c.reported w with
    | some uuid => (c.answered i).onGattWriteDone uuid w.origin env
    | none => c.answered i
  | _, _ => c

def handleGattWrite (c : Chain) (uuid : CStr) (mode : WriteMode) (accepted : Bool) : Chain :=
  match gattWrite c.connected c.chars uuid mode accepted with
  | .ok => { c with outstanding := c.outstanding ++ [⟨handleForUuid c.chars uuid, .server⟩] }
  | _ => c

def watchdog (c : Chain) (now : Nat) (env : Env) : Chain :=
  if c.initIndex < c.initWrites.length ∧ c.deadline ≠ 0 ∧ c.deadline < now then
    (c.advance .deadline).runInitWrites env
  else c

def step (c : Chain) : Step → Chain
  | .discovered env => if c.started then c else c.onGattConnected env
  | .completed i env => c.completed i env
  | .serverWrite uuid mode accepted => c.handleGattWrite uuid mode accepted
  | .watchdog now env => c.watchdog now env
  | .lost => { c with connected := false }

end Chain

end Espos.Ble
