import Espos.Lib.Best
import Espos.Lib.Text

-- The trust decision and the SAN sets of `sk_tls_policy.c`, and how `sk_tls.c`
-- reads the names off a certificate.

namespace Espos.Sk.Tls

open Espos.Text
open Espos.Best

def SAN_MAX : Nat := 256

def CN_MAX : Nat := 64

def FP_LEN : Nat := 32

-- `espos_sk_tls_anchor_kind_t`
inductive Kind where
  | none
  | ca
  | leaf
deriving DecidableEq

inductive Verdict where
  | accept
  | capture
  | reject
deriving DecidableEq

inductive Reason where
  | ok
  | firstUse
  | leafChanged
  | caChanged
  | sanChanged
  | noIdentity
deriving DecidableEq

-- `espos_sk_tls_facts_t`
structure Facts where
  hasAnchor : Bool
  anchorIsLeaf : Bool
  leafMatches : Bool
  caPresent : Bool
  caMatches : Bool
  leafHasSan : Bool
  sanMatches : Bool
deriving DecidableEq

-- `espos_sk_tls_decision_t`
structure Decision where
  verdict : Verdict
  reason : Reason
  captureAs : Kind
deriving DecidableEq

-- `espos_sk_tls_decide`
def decideOn (f : Facts) : Decision :=
  if !f.hasAnchor then
    ⟨.capture, .firstUse, if f.caPresent && f.leafHasSan then .ca else .leaf⟩
  else if f.anchorIsLeaf then
    if f.leafMatches then ⟨.accept, .ok, .none⟩ else ⟨.reject, .leafChanged, .none⟩
  else if !f.caPresent || !f.caMatches then ⟨.reject, .caChanged, .none⟩
  else if !f.leafHasSan then ⟨.reject, .noIdentity, .none⟩
  else if !f.sanMatches then ⟨.reject, .sanChanged, .none⟩
  else ⟨.accept, .ok, .none⟩

-- `espos_sk_tls_reason_str`
def reasonStr : Reason → CStr
  | .ok => lit "certificate matches the pinned one"
  | .firstUse => lit "first use: pinning this certificate"
  | .leafChanged => lit "the server certificate changed"
  | .caChanged => lit "the server certificate was issued by a different CA"
  | .sanChanged => lit "the server certificate now names different hosts"
  | .noIdentity => lit "the server certificate carries no host name to check"

-- SAN sets

def lower (c : Char) : Char :=
  if 'A'.toNat ≤ c.toNat ∧ c.toNat ≤ 'Z'.toNat then Char.ofNat (c.toNat - 'A'.toNat + 'a'.toNat)
  else c

-- `cmp_ci`
def cmpCi : CStr → CStr → Ordering
  | [], [] => .eq
  | [], _ :: _ => .lt
  | _ :: _, [] => .gt
  | a :: as, b :: bs =>
    if lower a ≠ lower b then if (lower a).toNat < (lower b).toNat then .lt else .gt
    else cmpCi as bs

-- One pass: the least name behind the one written last.
def smallest (names : List CStr) (prev : Option CStr) : Option (Nat × CStr) :=
  elect (fun cand => !cand.isEmpty && follows (fun a b => cmpCi a b == .gt) prev cand)
    (fun a b => cmpCi a b == .lt) names

-- The passes of `espos_sk_tls_san_normalise` that are left, with what is
-- written so far. The flag says whether all of it fitted.
def normaliseFrom (names : List CStr) (outSize : Nat) :
    Nat → Option CStr → CStr → CStr × Bool
  | 0, _, out => (out, true)
  | n + 1, prev, out =>
    match smallest names prev with
    | none => (out, true)
    | some (_, best) =>
      let need := best.length + if out.isEmpty then 0 else 1
      if outSize < out.length + need + 1 then (out, false)
      else
        normaliseFrom names outSize n (some best)
          (out ++ (if out.isEmpty then [] else [',']) ++ best.map lower)

-- `espos_sk_tls_san_normalise` into a buffer that is there.
def normalise (names : List CStr) (outSize : Nat) : CStr × Bool :=
  normaliseFrom names outSize names.length none []

-- `espos_sk_tls_san_equal`
def sanEqual (a b : CStr) : Bool :=
  if a.isEmpty || b.isEmpty then false
  else if a.head? == some '!' || b.head? == some '!' then false
  else strcmp a b == .eq

-- An entry of a certificate's subjectAltName sequence.
structure SanEntry where
  tag : UInt8
  bytes : List UInt8
deriving DecidableEq

-- Entries with the context-specific tags of a certificate.
def SanEntry.dns (name : String) : SanEntry :=
  ⟨0x82, (lit name).map fun c => UInt8.ofNat c.toNat⟩

def SanEntry.ip (bytes : List UInt8) : SanEntry :=
  ⟨0x87, bytes⟩

def SAN_ENTRY_MAX : Nat := 8

def SAN_NAME_MAX : Nat := 64

namespace SanEntry

variable (e : SanEntry)

-- `MBEDTLS_ASN1_TAG_VALUE_MASK`
def kind : UInt8 :=
  e.tag &&& 0x1f

def isDns : Bool :=
  e.kind == 2

def isIp : Bool :=
  e.kind == 7

end SanEntry

-- `%u.%u.%u.%u`
def ip4Text : List UInt8 → CStr
  | [] => []
  | a :: [] => decimal a.toNat
  | a :: rest => decimal a.toNat ++ '.' :: ip4Text rest

-- Eight groups of two bytes with colons in between.
def ip6Text : List UInt8 → CStr
  | a :: b :: [] => hexByte a ++ hexByte b
  | a :: b :: rest => hexByte a ++ hexByte b ++ ':' :: ip6Text rest
  | _ => []

-- What `crt_san_set` has for the entry in `names[n]`, and nothing for one that
-- names no host.
def SanEntry.name (e : SanEntry) : Option CStr :=
  if e.isDns then some (cString (e.bytes.take (SAN_NAME_MAX - 1)))
  else if e.isIp && e.bytes.length == 4 then some (ip4Text e.bytes)
  else if e.isIp && e.bytes.length == 16 then some (ip6Text e.bytes)
  else none

-- The loop over the entries. The flag says that there was no room for all.
def collectNames : List CStr → List SanEntry → List CStr × Bool
  | names, [] => (names, false)
  | names, e :: es =>
    if e.bytes.isEmpty then collectNames names es
    else if SAN_ENTRY_MAX ≤ names.length then (names, true)
    else
      match e.name with
      | some name => collectNames (names ++ [name]) es
      | none => collectNames names es

-- `crt_san_set`. The flag says that the set is not whole; it is marked then.
def crtSanSet (sans : List SanEntry) (outSize : Nat) : CStr × Bool :=
  let (names, overflow) := collectNames [] sans
  let (out, whole) := normalise names outSize
  if !whole || overflow then (if 1 < outSize then '!' :: out.take (outSize - 2) else out, true)
  else (out, false)

end Espos.Sk.Tls
