import Espos.Config.Base64
import Espos.Config.Descriptor

-- `espos_config_import_json`: the whole document is validated and turned into a
-- plan before anything is written.

namespace Espos.Config

open Espos.Text

def sentinel : CStr := lit "********"

inductive Action where
  | reset
  | write (v : Value)
deriving DecidableEq

-- One entry of the plan.
structure Entry where
  ns : NsDesc
  key : KeyDesc
  action : Action
deriving DecidableEq

def Entry.id (e : Entry) : KeyId :=
  (e.ns.name, e.key.name)

structure Failure where
  path : Buf 40
  msg : Buf 96
deriving DecidableEq

-- Where the error is, and why, as far as the buffers hold it.
def setError (ns : CStr) (key : Option CStr) (msg : CStr) : Failure where
  path := .print (match key with
    | some key => ns ++ ['.'] ++ key
    | none => ns)
  msg := .print msg

section Decode

variable (lib : Lib)

-- `mem` tells whether there is memory for a blob.
def decodeJson (mem : Bool) : Kind → Json → Except CStr Value
  | .bool _, .bool b => .ok (.bool b)
  | .bool _, _ => .error (lit "expected boolean")
  | .int _ _ _, .number x =>
    match x.toInt? (-2147483648) 2147483647 with
    | some i => .ok (.int (Int32.ofInt i))
    | none => .error (lit "expected 32-bit integer")
  | .int _ _ _, _ => .error (lit "expected integer")
  | .float _ _ _, .number x => .ok (.float (lib.toFloat x))
  | .float _ _ _, _ => .error (lit "expected number")
  | .string _ _ _, .string s => .ok (.string s)
  | .string _ _ _, _ => .error (lit "expected string")
  | .blob _, .string s =>
    if mem then
      match b64Decode s (decodeCap s) with
      | .ok bytes => .ok (.blob bytes)
      | .error _ => .error (lit "invalid base64")
    else .error (lit "out of memory")
  | .blob _, _ => .error (lit "expected base64 string")

def decodeValue (mem : Bool) (kind : Kind) (j : Json) : Except CStr Value :=
  match decodeJson lib mem kind j with
  | .error msg => .error msg
  | .ok v =>
    match validate lib kind v with
    | some msg => .error msg
    | none => .ok v

end Decode

-- A redacted value that was echoed back.
def isSentinel : Json → Bool
  | .string s => s = sentinel
  | _ => false

-- What an occurrence of a key in the document leaves to be done.
def keyAction (lib : Lib) (mem : Bool) (kd : KeyDesc) (j : Json) : Except CStr (Option Action) :=
  -- A read-only key is left untouched, like a secret that is echoed back.
  if kd.readOnly then .ok none
  else if j.isNull then .ok (some .reset)
  else if kd.secret && isSentinel j then .ok none
  else
    match decodeValue lib mem kd.kind j with
    | .error msg => .error msg
    | .ok v => .ok (some (.write v))

structure Planning where
  plan : List Entry
  -- How many members were looked at; the allocations count with it.
  leaf : Nat

structure Options where
  ignoreUnknown : Bool
  -- Memory for the plan, and for the blob of each member.
  planMem : Bool
  blobMem : Nat → Bool

section Plan

variable (lib : Lib) (S : Schema) (opt : Options)

def planKey (nd : NsDesc) (p : Planning) (member : CStr × Json) : Except Failure Planning :=
  match nd.findKey member.1 with
  | none =>
    if opt.ignoreUnknown then .ok ⟨p.plan, p.leaf + 1⟩
    else .error (setError nd.name (some member.1) (lit "unknown key"))
  | some kd =>
    -- The last one of several wins, also where it asks for nothing.
    let plan := p.plan.eraseP fun e => e.id = (nd.name, kd.name)
    match keyAction lib (opt.blobMem p.leaf) kd member.2 with
    | .error msg => .error (setError nd.name (some member.1) (.print msg : Buf 80).chars)
    | .ok action => .ok ⟨plan ++ (action.map fun a => ⟨nd, kd, a⟩).toList, p.leaf + 1⟩

def planNs (p : Planning) (member : CStr × Json) : Except Failure Planning :=
  match S.findNs member.1 with
  | none =>
    if opt.ignoreUnknown then .ok p
    else .error (setError member.1 none (lit "unknown namespace"))
  | some nd =>
    match member.2 with
    | .object members => members.foldlM (planKey lib opt nd) p
    | _ => .error (setError member.1 none (lit "expected object of keys"))

def planDoc (members : List (CStr × Json)) : Except Failure (List Entry) :=
  (members.foldlM (planNs lib S opt) ⟨[], 0⟩).map Planning.plan

end Plan

-- The errors of the backend. None of them is `ESP_ERR_INVALID_ARG`.
inductive BackendErr where
  | notFound
  | invalidState
  | invalidSize
  | noMem
  | fail
deriving DecidableEq

def BackendErr.toEsp : BackendErr → EspErr
  | .notFound => .notFound
  | .invalidState => .invalidState
  | .invalidSize => .invalidSize
  | .noMem => .noMem
  | .fail => .fail

-- What goes wrong with one entry: it is refused, or stored and not committed.
inductive Fault where
  | none
  | refused (err : BackendErr)
  | uncommitted (err : BackendErr)
deriving DecidableEq

section Apply

variable (lib : Lib)

-- The write an entry makes.
def Entry.toWrite (e : Entry) : Nvs.Write KeyId Stored where
  key := e.id
  value :=
    match e.action with
    | .reset => none
    | .write v => v.stored

-- Whether the entry changes the effective value: it is compared with the value
-- to be written, or with the default.
def entryChanges (st : Store) (e : Entry) : Bool :=
  let cur := effective lib st e.ns e.key
  match e.action with
  | .reset => !valueEquals cur e.key.kind.rawDefault
  | .write v => !valueEquals cur v

structure Applied where
  store : Store
  changed : List Entry
  restart : Bool
  err : EspErr

def firstErr (old new : EspErr) : EspErr :=
  if old = .ok then new else old

def applyEntry (fault : Fault) (a : Applied) (e : Entry) : Applied :=
  match fault with
  | .refused err => { a with err := firstErr a.err err.toEsp }
  | .uncommitted err =>
    { a with store := Nvs.apply a.store e.toWrite, err := firstErr a.err err.toEsp }
  | .none =>
    let a' := { a with store := Nvs.apply a.store e.toWrite }
    if entryChanges lib a.store e then
      { a' with changed := a.changed ++ [e], restart := a.restart || e.key.restartRequired }
    else a'

def applyFrom (faults : Nat → Fault) (a : Applied) : Nat → List Entry → Applied
  | _, [] => a
  | i, e :: plan => applyFrom faults (applyEntry lib (faults i) a e) (i + 1) plan

def applyPlan (faults : Nat → Fault) (st : Store) (plan : List Entry) : Applied :=
  applyFrom lib faults ⟨st, [], false, .ok⟩ 0 plan

end Apply

inductive Report where
  | changed (paths : List (Buf 40)) (restartRequired : Bool)
  | validation (path : Buf 40) (msg : Buf 96)
deriving DecidableEq

structure Outcome where
  err : EspErr
  changed : Nat
  restartRequired : Bool
  errorPath : Buf 40
  errorMsg : Buf 96
  report : Option Report
  store : Store
  -- The keys every subscriber is called with, in this order.
  notified : List KeyId

def refuse (st : Store) (f : Failure) : Outcome where
  err := .invalidArg
  changed := 0
  restartRequired := false
  errorPath := f.path
  errorMsg := f.msg
  report := some (.validation f.path f.msg)
  store := st
  notified := []

def outOfMemory (st : Store) : Outcome where
  err := .noMem
  changed := 0
  restartRequired := false
  errorPath := .empty
  errorMsg := .empty
  report := none
  store := st
  notified := []

def pathOf (id : KeyId) : Buf 40 :=
  .print (id.1 ++ ['.'] ++ id.2)

def finish (a : Applied) : Outcome where
  err := a.err
  changed := a.changed.length
  restartRequired := a.restart
  errorPath := .empty
  errorMsg := if a.err = .ok then .empty else .print (lit "storage write failed")
  report := if a.err = .ok then some (.changed (a.changed.map fun e => pathOf e.id) a.restart)
    else none
  store := a.store
  notified := a.changed.map Entry.id

-- U+0000, raw or as an escape, in the text of the document.
def hasNulEscape : List Char → Bool
  | '\\' :: 'u' :: '0' :: '0' :: '0' :: '0' :: _ => true
  | '\\' :: _ :: rest => hasNulEscape rest
  | _ :: rest => hasNulEscape rest
  | [] => false

def jsonHasNul (text : List Char) : Bool :=
  '\x00' ∈ text || hasNulEscape text

def isBlank (c : Char) : Bool :=
  c = ' ' || c = '\t' || c = '\r' || c = '\n' || c = '\x00'

-- The document of a text: only blanks may follow it.
def document (lib : Lib) (text : List Char) : Option Json :=
  match lib.parse text with
  | none => none
  | some (root, stop) =>
    if jsonHasNul (text.take stop) then none
    else if (text.drop stop).all isBlank then some root
    else none

-- No text is NULL.
def importJson (lib : Lib) (S : Schema) (opt : Options) (faults : Nat → Fault) (st : Store)
    (text : Option (List Char)) : Outcome :=
  match text with
  | none => { refuse st ⟨.empty, .empty⟩ with report := none }
  | some text =>
    match document lib text with
    | none => refuse st (setError [] none (lit "malformed JSON"))
    | some (.object members) =>
      if opt.planMem then
        match planDoc lib S opt members with
        | .error f => refuse st f
        | .ok plan => finish (applyPlan lib faults st plan)
      else outOfMemory st
    | some _ => refuse st (setError [] none (lit "expected object of namespaces"))

end Espos.Config
