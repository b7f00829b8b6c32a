import Espos.Config.Import
import Espos.Lib.Lists
import Mathlib.Algebra.Order.Ring.Nat

-- The namespaces registered at run time, and the calls of `espos_config.c` that
-- change the table or the values.

namespace Espos.Config

open Espos.Text Espos.Slots

-- A descriptor as it is passed in: any pointer may be NULL, a type may be none
-- of the five.
inductive RawKind where
  | bool (dflt : Bool)
  | int (dflt min max : Int32)
  | float (dflt : Number) (min max : Option Number)
  | string (dflt : Option CStr) (maxLen : Nat) (enum : Option (List CStr))
  | blob (maxLen : Nat)
  | unknown (type : Int)
deriving DecidableEq

structure RawKey where
  name : Option CStr
  kind : RawKind
  secret : Bool
  restartRequired : Bool
  readOnly : Bool
deriving DecidableEq

structure RawNs where
  name : Option CStr
  title : Option CStr
  version : UInt16
  keys : Option (List RawKey)
deriving DecidableEq

-- Why a namespace is not registered, and what the `flowConfig` condition says.
structure Refusal where
  err : EspErr
  alarm : Option (Buf 96)
deriving DecidableEq

def flowConfigAlarm (err : EspErr) (msg : CStr) : Refusal :=
  ⟨err, some (.print msg)⟩

def nsNameMax : Nat := 15

def versionKey : CStr := lit "config_version"

def validNsName (n : CStr) : Bool :=
  n ≠ [] && n.length ≤ nsNameMax &&
    n.all fun c => ('a' ≤ c && c ≤ 'z') || ('0' ≤ c && c ≤ '9') || c = '_'

-- What the loop of `validate_runtime_desc` has let through.
def Keys := { keys : List KeyDesc // (keys.map KeyDesc.name).Nodup }

def Keys.nil : Keys :=
  ⟨[], List.nodup_nil⟩

def Keys.add (keys : Keys) (k : KeyDesc) (h : k.name ∉ keys.1.map KeyDesc.name) : Keys where
  val := keys.1 ++ [k]
  property := by
    rw [List.map_append, List.map_singleton, List.nodup_append]
    refine ⟨keys.2, List.nodup_singleton _, ?_⟩
    rintro a ha b hb rfl
    rw [List.mem_singleton] at hb
    exact h (hb ▸ ha)

-- The type of a key, where nothing is missing in it.
def checkKind (path : CStr) : RawKind → Except Refusal Kind
  | .bool dflt => .ok (.bool dflt)
  | .int dflt min max => .ok (.int dflt min max)
  | .float dflt min max => .ok (.float dflt min max)
  | .string dflt maxLen enum =>
    if maxLen = 0 then
      .error (flowConfigAlarm .invalidArg (path ++ lit ": max_len must be set for string/blob"))
    else
      match dflt with
      | none =>
        .error (flowConfigAlarm .invalidArg
          (path ++ lit ": string key needs a default (\"\" is fine)"))
      | some dflt => .ok (.string dflt maxLen enum)
  | .blob maxLen =>
    if maxLen = 0 then
      .error (flowConfigAlarm .invalidArg (path ++ lit ": max_len must be set for string/blob"))
    else .ok (.blob maxLen)
  | .unknown type =>
    .error (flowConfigAlarm .invalidArg (path ++ lit ": unknown type " ++ decimalInt type))

def checkKey (ns : CStr) (keys : Keys) (raw : RawKey) : Except Refusal Keys :=
  match raw.name.filter validNsName with
  | none =>
    .error (flowConfigAlarm .invalidArg
      (ns ++ lit ": key " ++ decimal keys.1.length ++ lit " has an invalid name"))
  | some name =>
    if name = versionKey then
      .error (flowConfigAlarm .invalidArg
        (ns ++ lit ": key name '" ++ name ++ lit "' is reserved"))
    else
      match checkKind (ns ++ ['.'] ++ name) raw.kind with
      | .error refusal => .error refusal
      | .ok kind =>
        if h : name ∈ keys.1.map KeyDesc.name then
          .error (flowConfigAlarm .invalidArg (ns ++ lit ": duplicate key '" ++ name ++ ['\'']))
        else .ok (keys.add ⟨name, kind, raw.secret, raw.restartRequired, raw.readOnly⟩ h)

def checkKeys (ns : CStr) : Keys → List RawKey → Except Refusal Keys
  | keys, [] => .ok keys
  | keys, raw :: rest =>
    match checkKey ns keys raw with
    | .error refusal => .error refusal
    | .ok keys => checkKeys ns keys rest

-- The rules do not mention the default's value.
def validateRuntimeDesc : Option RawNs → Except Refusal NsDesc
  | none => .error ⟨.invalidArg, none⟩
  | some raw =>
    match raw.name with
    | none => .error ⟨.invalidArg, none⟩
    | some name =>
      if raw.title = none ∨ raw.version = 0 then .error ⟨.invalidArg, none⟩
      else if validNsName name = false then
        .error (flowConfigAlarm .invalidArg
          (lit "namespace '" ++ name ++ lit "' is not 1.." ++ decimal nsNameMax ++
            lit " chars of [a-z0-9_]"))
      else
        match raw.keys.getD [] with
        | [] =>
          .error (flowConfigAlarm .invalidArg
            (lit "namespace '" ++ name ++ lit "' declares no keys"))
        | keys =>
          match checkKeys name .nil keys with
          | .error refusal => .error refusal
          | .ok keys => .ok ⟨name, keys.1, keys.2⟩

-- The compiled namespaces and the slots of the others. No two share a name.
structure Table where
  compiled : Schema
  slots : List (Option NsDesc)
  nodup : ((compiled.nss ++ slots.reduceOption).map NsDesc.name).Nodup

namespace Table

def schema (t : Table) : Schema where
  nss := t.compiled.nss ++ t.slots.reduceOption
  nodup := t.nodup

def isCompiled (t : Table) (ns : CStr) : Bool :=
  t.compiled.nss.any (·.name = ns)

def isRegistered (t : Table) (ns : CStr) : Bool :=
  t.slots.reduceOption.any (·.name = ns)

theorem notMem_names {t : Table} {ns : CStr} (hcompiled : t.isCompiled ns = false)
    (hregistered : t.isRegistered ns = false) : ns ∉ t.schema.nss.map NsDesc.name := by
  intro hmem
  obtain ⟨nd, hnd, rfl⟩ := List.mem_map.mp hmem
  rcases List.mem_append.mp hnd with hnd | hnd
  · exact List.any_eq_false.mp hcompiled nd hnd (decide_eq_true rfl)
  · exact List.any_eq_false.mp hregistered nd hnd (decide_eq_true rfl)

-- A namespace of a new name in the first empty slot.
def add (t : Table) (nd : NsDesc) (slots : List (Option NsDesc))
    (hplace : place nd t.slots = some slots) (hcompiled : t.isCompiled nd.name = false)
    (hregistered : t.isRegistered nd.name = false) : Table where
  compiled := t.compiled
  slots := slots
  nodup := by
    have hperm : (t.compiled.nss ++ slots.reduceOption).Perm (nd :: t.schema.nss) :=
      ((perm_of_place hplace).append_left t.compiled.nss).trans List.perm_middle
    rw [(hperm.map NsDesc.name).nodup_iff, List.map_cons, List.nodup_cons]
    exact ⟨notMem_names hcompiled hregistered, t.nodup⟩

def remove (t : Table) (ns : CStr) : Table where
  compiled := t.compiled
  slots := clear (fun nd => decide (nd.name = ns)) t.slots
  nodup := t.nodup.sublist (List.Sublist.map NsDesc.name (clear_sublist.append_left t.compiled.nss))

-- The table with every slot empty.
def fresh (compiled : Schema) (maxRuntimeNs : Nat) : Table where
  compiled := compiled
  slots := List.replicate maxRuntimeNs none
  nodup := by
    rw [List.reduceOption_replicate_none, List.append_nil]
    exact compiled.nodup

end Table

-- What `migrate_ns` writes: the stamps, and what the registered steps convert.
abbrev Migrated := List (Nvs.Write KeyId Stored)

structure Registry where
  table : Table
  inited : Bool
  generation : UInt32
  store : Store

namespace Registry

def schema (r : Registry) : Schema :=
  r.table.schema

-- What a call returns, whom it notifies and what it leaves.
structure Done where
  err : EspErr
  notified : List KeyId
  registry : Registry

def refused (r : Registry) (err : EspErr) : Done :=
  ⟨err, [], r⟩

def findKey (r : Registry) (ns key : CStr) : Option (NsDesc × KeyDesc) := do
  let nd ← r.schema.findNs ns
  let k ← nd.findKey key
  return (nd, k)

section Values

variable (lib : Lib)

-- `espos_config_read_effective`: the store is open once it is set up.
def read (r : Registry) (nd : NsDesc) (k : KeyDesc) : Except EspErr Value :=
  if r.inited then .ok (effective lib r.store nd k) else .error .invalidState

-- The entries are written one by one, and the keys that changed are notified
-- when all of them are.
def applied (r : Registry) (faults : Nat → Fault) (plan : List Entry) : Done :=
  let a := applyPlan lib faults r.store plan
  ⟨a.err, a.changed.map Entry.id, { r with store := a.store }⟩

def setValue (fault : Fault) (r : Registry) (ns key : CStr) (v : Value) : Done :=
  if r.inited then
    match r.findKey ns key with
    | none => r.refused .notFound
    | some (nd, k) =>
      if k.readOnly then r.refused .notSupported
      else
        match validate lib k.kind v with
        | some _ => r.refused .invalidArg
        | none => r.applied lib (fun _ => fault) [⟨nd, k, .write v⟩]
  else r.refused .invalidState

-- A read-only key is reset like any other.
def resetKey (fault : Fault) (r : Registry) (ns key : CStr) : Done :=
  if r.inited then
    match r.findKey ns key with
    | none => r.refused .notFound
    | some (nd, k) => r.applied lib (fun _ => fault) [⟨nd, k, .reset⟩]
  else r.refused .invalidState

def resetNs (faults : Nat → Fault) (r : Registry) (ns : CStr) : Done :=
  if r.inited then
    match r.schema.findNs ns with
    | none => r.refused .notFound
    | some nd => r.applied lib faults (nd.keys.map (⟨nd, ·, .reset⟩))
  else r.refused .invalidState

def importDoc (opt : Options) (faults : Nat → Fault) (r : Registry) (text : Option (List Char)) :
    Done :=
  if r.inited then
    let out := importJson lib r.schema opt faults r.store text
    ⟨out.err, out.notified, { r with store := out.store }⟩
  else r.refused .invalidState

end Values

def init (wrote : Migrated) (r : Registry) : Done :=
  if r.inited then r.refused .invalidState
  else ⟨.ok, [], { r with inited := true, store := Nvs.after r.store wrote }⟩

def deinit (r : Registry) : Registry :=
  if r.inited then
    { r with
      table := .fresh r.table.compiled r.table.slots.length
      inited := false
      generation := r.generation + 1 }
  else r

def factoryReset (wrote : Migrated) (r : Registry) : Done :=
  if r.inited then ⟨.ok, [], { r with store := Nvs.after (fun _ => none) wrote }⟩
  else r.refused .invalidState

-- A namespace that passed the check, in its slot.
def addNs (wrote : Migrated) (r : Registry) (nd : NsDesc) : Except Refusal Registry :=
  if hcompiled : r.table.isCompiled nd.name = false then
    if hregistered : r.table.isRegistered nd.name = false then
      match hplace : place nd r.table.slots with
      | none =>
        .error (flowConfigAlarm .noMem
          (lit "no slot for namespace '" ++ nd.name ++ lit "' (max " ++
            decimal r.table.slots.length ++ [')']))
      | some slots =>
        .ok { r with
          table := r.table.add nd slots hplace hcompiled hregistered
          generation := r.generation + 1
          store := if r.inited then Nvs.after r.store wrote else r.store }
    else
      .error (flowConfigAlarm .invalidState
        (lit "namespace '" ++ nd.name ++ lit "' is already registered"))
  else
    .error (flowConfigAlarm .invalidState
      (lit "namespace '" ++ nd.name ++ lit "' is already a built-in"))

def registerNs (wrote : Migrated) (r : Registry) (raw : Option RawNs) : Except Refusal Registry :=
  match validateRuntimeDesc raw with
  | .error refusal => .error refusal
  | .ok nd => r.addNs wrote nd

def unregisterNs (r : Registry) (ns : CStr) : Done :=
  if r.table.isCompiled ns then r.refused .invalidArg
  else if r.table.isRegistered ns then
    ⟨.ok, [], { r with table := r.table.remove ns, generation := r.generation + 1 }⟩
  else r.refused .notFound

-- A boot finds whatever the store holds.
def start (compiled : Schema) (maxRuntimeNs : Nat) (store : Store) : Registry :=
  ⟨.fresh compiled maxRuntimeNs, false, 0, store⟩

end Registry

-- The calls, and what other firmware leaves under a key.
inductive Call where
  | init (wrote : Migrated)
  | deinit
  | register (wrote : Migrated) (raw : Option RawNs)
  | unregister (ns : CStr)
  | set (fault : Fault) (ns key : CStr) (v : Value)
  | resetKey (fault : Fault) (ns key : CStr)
  | resetNs (faults : Nat → Fault) (ns : CStr)
  | importDoc (opt : Options) (faults : Nat → Fault) (text : Option (List Char))
  | factoryReset (wrote : Migrated)
  | plant (id : KeyId) (stored : Option Stored)

def Registry.step (lib : Lib) (r : Registry) : Call → Registry
  | .init wrote => (r.init wrote).registry
  | .deinit => r.deinit
  | .register wrote raw => (r.registerNs wrote raw).toOption.getD r
  | .unregister ns => (r.unregisterNs ns).registry
  | .set fault ns key v => (r.setValue lib fault ns key v).registry
  | .resetKey fault ns key => (r.resetKey lib fault ns key).registry
  | .resetNs faults ns => (r.resetNs lib faults ns).registry
  | .importDoc opt faults text => (r.importDoc lib opt faults text).registry
  | .factoryReset wrote => (r.factoryReset wrote).registry
  | .plant id stored => { r with store := Function.update r.store id stored }

end Espos.Config
