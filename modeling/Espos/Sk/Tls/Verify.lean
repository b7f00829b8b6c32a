import Mathlib.Data.List.Chain
import Mathlib.Logic.Function.Basic
import Espos.Platform
import Espos.Sk.Tls.Policy
import Espos.Lib.Run

-- The trust anchor of `sk_tls.c`, the slot a handshake fills, and the callback
-- that mbedTLS calls for the certificates of a chain.

namespace Espos.Sk.Tls

open Espos.Text

-- A SHA-256 fingerprint.
structure Fp where
  bytes : List UInt8
  size : bytes.length = FP_LEN
deriving DecidableEq

def Fp.fill (b : UInt8) : Fp :=
  ⟨List.replicate FP_LEN b, List.length_replicate⟩

def Fp.zero : Fp :=
  .fill 0

-- What the code reads of a certificate. `fp` is what `crt_fingerprint` makes of
-- its DER.
structure Crt where
  fp : Fp
  isCa : Bool
  commonName : Option (List UInt8)
  sans : List SanEntry
deriving DecidableEq

-- `crt_cn`
def Crt.cn (crt : Crt) : Buf CN_MAX :=
  match crt.commonName with
  | none => .empty
  | some bytes => .print (cString (bytes.take (CN_MAX - 1)))

def Crt.sanSet (crt : Crt) : Buf SAN_MAX × Bool :=
  let (text, cut) := crtSanSet crt.sans SAN_MAX
  (.print text, cut)

-- `anchor_t`
structure Anchor where
  kind : Kind
  leafFp : Fp
  caFp : Fp
  san : Buf SAN_MAX
  cn : Buf CN_MAX
  serverSelf : Buf 128
  pinnedUnix : Int
deriving DecidableEq

def Anchor.blank : Anchor :=
  ⟨.none, .zero, .zero, .empty, .empty, .empty, 0⟩

-- `capture_t`
structure Capture where
  valid : Bool
  captureAs : Kind
  leafFp : Fp
  caFp : Fp
  haveCa : Bool
  san : Buf SAN_MAX
  cn : Buf CN_MAX
deriving DecidableEq

def Capture.blank : Capture :=
  ⟨false, .none, .zero, .zero, false, .empty, .empty⟩

-- The CA the slot holds.
def Capture.ca (cap : Capture) : Option Fp :=
  if cap.haveCa then some cap.caFp else none

-- A SAN set that the anchor may take: there, and whole.
def storable (san : Buf SAN_MAX) : Bool :=
  !san.isEmpty && san.chars.head? != some '!'

-- The part of the module's state the trust decisions go by.
structure State where
  anchor : Anchor
  storePending : Bool
  cap : Capture
  lastError : Buf 96
  seenCn : Buf CN_MAX
  seenFp : Option Fp
deriving DecidableEq

def State.boot (anchor : Anchor) : State :=
  ⟨anchor, false, .blank, .empty, .empty, none⟩

-- The facts about a leaf below the CA `ca`, under an anchor.
def factsOf (anchor : Anchor) (ca : Option Fp) (leaf : Crt) : Facts where
  hasAnchor := decide (anchor.kind ≠ .none)
  anchorIsLeaf := decide (anchor.kind = .leaf)
  leafMatches := decide (leaf.fp = anchor.leafFp)
  caPresent := ca.isSome
  caMatches := decide (ca = some anchor.caFp)
  leafHasSan := !leaf.sanSet.1.isEmpty && !leaf.sanSet.2
  sanMatches := sanEqual leaf.sanSet.1.chars anchor.san.chars

namespace State

variable (s : State)

-- `verify_cb` above the leaf.
def verifyUpper (crt : Crt) : State :=
  if crt.isCa && !s.cap.haveCa then
    { s with cap := { s.cap with caFp := crt.fp, haveCa := true } }
  else s

def decision (crt : Crt) : Decision :=
  decideOn (factsOf s.anchor s.cap.ca crt)

-- `verify_cb` at depth 0.
def verifyLeaf (crt : Crt) : State :=
  let d := s.decision crt
  let cap := { s.cap with leafFp := crt.fp, cn := crt.cn, san := crt.sanSet.1 }
  let s := { s with seenFp := some crt.fp, seenCn := crt.cn }
  if d.verdict = .reject then
    { s with lastError := .print (reasonStr d.reason), cap := { cap with valid := false } }
  else
    { s with
      lastError := .empty
      cap := { cap with
        captureAs := if d.verdict = .capture then d.captureAs else s.anchor.kind
        valid := true } }

-- `verify_cb`: the state, the return code and the flags. The failure is
-- `MBEDTLS_ERR_X509_CERT_VERIFY_FAILED`.
def verifyCb (crt : Crt) (depth : Nat) (flags : UInt32) : State × Int × UInt32 :=
  if 0 < depth then (s.verifyUpper crt, 0, 0)
  else if (s.decision crt).verdict = .reject then (s.verifyLeaf crt, -0x2700, flags)
  else (s.verifyLeaf crt, 0, 0)

-- `espos_sk_tls_discard`
def discard : State :=
  { s with cap := .blank }

-- What `espos_sk_tls_commit` makes of the anchor.
def merged (self : Option CStr) (now : Int) : Anchor :=
  let a := s.anchor
  let fresh := decide (a.kind = .none)
  { kind := if fresh then s.cap.captureAs else a.kind
    leafFp := s.cap.leafFp
    caFp := if s.cap.haveCa then s.cap.caFp else a.caFp
    san := if storable s.cap.san then s.cap.san else a.san
    cn := s.cap.cn
    serverSelf := match self with
      | some self => .print self
      | none => a.serverSelf
    pinnedUnix := if fresh then now else a.pinnedUnix }

-- `espos_sk_tls_commit` has something to write.
def commitWrites (self : Option CStr) (now : Int) : Bool :=
  s.cap.valid &&
    (decide (s.anchor.kind = .none) || decide (s.merged self now ≠ s.anchor) || s.storePending)

-- `espos_sk_tls_commit`. `now` is the time, and `stored` whether a write of the
-- anchor succeeds.
def commit (self : Option CStr) (now : Int) (stored : Bool) : State :=
  if s.cap.valid then
    { s with
      anchor := s.merged self now
      cap := .blank
      storePending := if s.commitWrites self now then !stored else s.storePending }
  else s

-- `espos_sk_tls_reset`
def reset : State :=
  { s with anchor := .blank, cap := .blank, storePending := false, lastError := .empty }

-- The anchor on a CA that the operator supplied.
def suppliedAnchor (ca : Crt) (now : Int) : Anchor :=
  { Anchor.blank with kind := .ca, caFp := ca.fp, cn := ca.cn, pinnedUnix := now }

-- `espos_sk_tls_set_trust`. `ca` is what a PEM that changed parses to.
def setTrust (ca : Option Crt) (now : Int) (stored : Bool) : State :=
  match ca with
  | none => s
  | some ca => { s with anchor := suppliedAnchor ca now, storePending := !stored }

-- `espos_sk_tls_handshake_begin` once the mutex is taken.
def handshakeBegin : State :=
  { s with lastError := .empty, cap := .blank }

-- What mbedTLS does with a chain: it calls back from the top down, with what it
-- found wrong about each certificate, and goes by what is left of that.
def handshake : State → List (Crt × UInt32) → State × Bool
  | s, [] => (s, true)
  | s, (crt, flags) :: rest =>
    let (s, rc, flags) := s.verifyCb crt rest.length flags
    let (s, ok) := handshake s rest
    (s, rc == 0 && flags == 0 && ok)

end State

end Espos.Sk.Tls

-- Which chains get through.

namespace Espos.Sk.Tls

open Espos.Text

-- The chain has the certificate with this fingerprint, and each one from the
-- leaf up to it is signed by the next. The chain is given from the top down.
def Vouched (signed : Crt → Crt → Prop) (fp : Fp) (chain : List Crt) : Prop :=
  ∃ above ca below, chain = above ++ ca :: below ∧ ca.fp = fp ∧
    (ca :: below).IsChain fun upper lower => signed lower upper

-- mbedTLS finds something wrong with a certificate that the next one up did not
-- sign.
def Checked (signed : Crt → Crt → Prop) (chain : List (Crt × UInt32)) : Prop :=
  chain.IsChain fun upper lower => ¬ signed lower.1 upper.1 → lower.2 ≠ 0

-- mbedTLS has found nothing wrong with a certificate below the next one up.
def Unflagged (chain : List (Crt × UInt32)) (lower upper : Crt) : Prop :=
  ∃ found, [(upper, found), (lower, 0)] <:+: chain

-- The CA a leaf under these certificates is judged by.
def caUnder (cap : Capture) (upper : List Crt) : Option Fp :=
  if cap.haveCa then some cap.caFp else (upper.find? Crt.isCa).map Crt.fp

-- The leaf names the pinned hosts, and all of its names were read.
def NamesOf (anchor : Anchor) (leaf : Crt) : Prop :=
  (leaf.sanSet.1.isEmpty = false ∧ leaf.sanSet.2 = false) ∧
    sanEqual leaf.sanSet.1.chars anchor.san.chars = true

namespace State

variable {s : State}

@[simp] theorem verifyUpper_anchor (s : State) (crt : Crt) :
    (s.verifyUpper crt).anchor = s.anchor := by
  rw [verifyUpper]
  split <;> rfl

theorem caUnder_verifyUpper (s : State) (crt : Crt) (upper : List Crt) :
    caUnder (s.verifyUpper crt).cap upper = caUnder s.cap (crt :: upper) := by
  simp only [verifyUpper, caUnder]
  cases hhave : s.cap.haveCa with
  | true => simp [hhave]
  | false =>
    cases hca : crt.isCa with
    | true => simp [hca]
    | false => simp [hca, hhave]

-- The certificates above the leaf never stop a handshake.
theorem handshake_eq (s : State) (upper : List (Crt × UInt32)) (leaf : Crt) (flags : UInt32) :
    (s.handshake (upper ++ [(leaf, flags)])).2 = true ↔
      (decideOn (factsOf s.anchor (caUnder s.cap (upper.map Prod.fst)) leaf)).verdict ≠ .reject := by
  induction upper generalizing s with
  | nil =>
    have hca : caUnder s.cap [] = s.cap.ca := by simp [caUnder, Capture.ca]
    simp only [List.nil_append, handshake, verifyCb, List.length_nil, lt_irrefl, if_false,
      List.map_nil, hca, decision]
    by_cases hreject : (decideOn (factsOf s.anchor s.cap.ca leaf)).verdict = .reject
    · simp [hreject]
    · simp [hreject]
  | cons top upper ih =>
    obtain ⟨crt, flags'⟩ := top
    have hdepth : 0 < (upper ++ [(leaf, flags)]).length := by simp
    simp only [List.cons_append, handshake, verifyCb, hdepth, if_true, beq_self_eq_true,
      Bool.true_and, List.map_cons]
    rw [ih (s.verifyUpper crt), verifyUpper_anchor, caUnder_verifyUpper]

theorem decideOn_ca {anchor : Anchor} {ca : Option Fp} {leaf : Crt} (hkind : anchor.kind = .ca) :
    (decideOn (factsOf anchor ca leaf)).verdict ≠ .reject ↔
      ca = some anchor.caFp ∧ NamesOf anchor leaf := by
  simp only [decideOn, factsOf, hkind, NamesOf]
  by_cases hca : ca = some anchor.caFp
  · simp only [hca]
    cases leaf.sanSet.1.isEmpty <;> cases leaf.sanSet.2 <;>
      cases sanEqual leaf.sanSet.1.chars anchor.san.chars <;> simp
  · simp [hca]

end State

theorem Vouched.imp {signed signed' : Crt → Crt → Prop} {fp : Fp} {chain : List Crt}
    (himp : ∀ lower upper, signed lower upper → signed' lower upper)
    (h : Vouched signed fp chain) : Vouched signed' fp chain := by
  obtain ⟨above, ca, below, hsplit, hfp, hsigned⟩ := h
  exact ⟨above, ca, below, hsplit, hfp, hsigned.imp fun upper lower => himp lower upper⟩

-- What mbedTLS has passed may be all that is signed.
theorem checked_unflagged (chain : List (Crt × UInt32)) : Checked (Unflagged chain) chain := by
  refine (List.isChain_isInfix chain).imp fun upper lower hnext hflagged hzero => hflagged ?_
  refine ⟨upper.2, ?_⟩
  rw [← hzero]
  exact hnext

-- What mbedTLS has passed is signed.
theorem Checked.signed {signed : Crt → Crt → Prop} {chain : List (Crt × UInt32)}
    (h : Checked signed chain) {lower upper : Crt} (hpassed : Unflagged chain lower upper) :
    signed lower upper := by
  obtain ⟨found, before, after, rfl⟩ := hpassed
  have hpair := List.isChain_pair.mp h.left_of_append.right_of_append
  by_contra hno
  exact hpair hno rfl

-- With a CA pinned, a chain that gets through is signed up to that CA exactly
-- where mbedTLS found nothing wrong with it so far: the code does not look.
theorem handshake_vouched_iff (s : State) (hkind : s.anchor.kind = .ca)
    (upper : List (Crt × UInt32)) (leaf : Crt) (flags : UInt32) :
    (∀ signed : Crt → Crt → Prop, Checked signed (upper ++ [(leaf, flags)]) →
      (s.handshake (upper ++ [(leaf, flags)])).2 = true →
      Vouched signed s.anchor.caFp (upper.map Prod.fst ++ [leaf])) ↔
    (caUnder s.cap (upper.map Prod.fst) = some s.anchor.caFp → NamesOf s.anchor leaf →
      Vouched (Unflagged (upper ++ [(leaf, flags)])) s.anchor.caFp
        (upper.map Prod.fst ++ [leaf])) := by
  have hpasses : (s.handshake (upper ++ [(leaf, flags)])).2 = true ↔
      caUnder s.cap (upper.map Prod.fst) = some s.anchor.caFp ∧ NamesOf s.anchor leaf := by
    rw [State.handshake_eq, State.decideOn_ca hkind]
  constructor
  · intro hvouched hca hnames
    exact hvouched _ (checked_unflagged _) (hpasses.mpr ⟨hca, hnames⟩)
  · intro hcond signed hchecked hpass
    obtain ⟨hca, hnames⟩ := hpasses.mp hpass
    exact (hcond hca hnames).imp fun _ _ => hchecked.signed

-- A boat whose own CA is pinned.
def boatCa : Crt :=
  ⟨.fill 1, true, none, []⟩

def boatAnchor : Anchor :=
  { Anchor.blank with kind := .ca, caFp := boatCa.fp, san := .print (lit "boat.lan") }

-- A leaf for the boat's name, from whoever made it.
def boatLeaf (fp : Fp) : Crt :=
  ⟨fp, false, none, [.dns "boat.lan"]⟩

-- The CA certificate is public, so anybody can put it above a leaf of their own.
theorem forged_leaf_gets_through :
    let forged := boatLeaf (.fill 2)
    let signed := fun lower _ : Crt => lower ≠ forged
    let chain := [(boatCa, 0), (forged, 8)]
    Checked signed chain ∧ ((State.boot boatAnchor).handshake chain).2 = true ∧
      ¬ Vouched signed boatAnchor.caFp (chain.map Prod.fst) := by
  intro forged signed chain
  refine ⟨?_, by decide +kernel, ?_⟩
  · simp [Checked, chain]
  · rintro ⟨above, ca, below, hsplit, hfp, hsigned⟩
    have hne : forged.fp ≠ boatAnchor.caFp := by decide +kernel
    rcases above with _ | ⟨x, _ | ⟨y, above⟩⟩
    · obtain ⟨rfl, rfl⟩ := List.cons.inj hsplit
      simp [signed] at hsigned
    · obtain ⟨_, hsplit⟩ := List.cons.inj hsplit
      obtain ⟨rfl, _⟩ := List.cons.inj hsplit
      exact hne hfp
    · simp [chain] at hsplit

-- The leaf that an intermediate of the CA did sign.
theorem handshake_vouched_iff_signed :
    let middle : Crt := ⟨.fill 4, true, none, []⟩
    let chain := [(boatCa, 0), (middle, 0), (boatLeaf (.fill 3), 0)]
    ((State.boot boatAnchor).handshake chain).2 = true ∧
      ∀ signed, Checked signed chain → Vouched signed boatAnchor.caFp (chain.map Prod.fst) := by
  intro middle chain
  have hpass : ((State.boot boatAnchor).handshake chain).2 = true := by decide +kernel
  refine ⟨hpass, fun signed hchecked => ?_⟩
  refine (handshake_vouched_iff (State.boot boatAnchor) rfl [(boatCa, 0), (middle, 0)] _ 0).mpr ?_
    signed hchecked hpass
  intro _ _
  refine ⟨[], boatCa, [middle, boatLeaf (.fill 3)], rfl, rfl, ?_⟩
  refine .cons_cons ⟨0, [], [(boatLeaf (.fill 3), 0)], rfl⟩ ?_
  refine .cons_cons ⟨0, [(boatCa, 0)], [], rfl⟩ ?_
  exact .singleton _

end Espos.Sk.Tls

-- Handshakes that share the one slot. The HTTP legs and the stream task take
-- turns behind a mutex; the control socket of the BLE gateway only attaches the
-- callback.

namespace Espos.Sk.Tls

open Espos.Text
open Espos.Run

-- What the callbacks of one handshake have shown so far.
structure Own where
  begun : Bool
  ca : Option Fp
  leaf : Option Crt

def Own.blank : Own :=
  ⟨false, none, none⟩

def Own.upper (o : Own) (crt : Crt) : Own :=
  { o with begun := true, ca := if o.ca.isNone && crt.isCa then some crt.fp else o.ca }

def Own.atLeaf (o : Own) (crt : Crt) : Own :=
  { o with begun := true, leaf := some crt }

-- Not in the code: `owner`, whose callbacks filled the slot since it was last
-- cleared, and `own`.
structure World where
  tls : State
  holder : Option Nat
  owner : Option Nat
  own : Nat → Own

namespace World

inductive Event where
  | begin (i : Nat)
  | attach (i : Nat)
  | callback (i : Nat) (crt : Crt) (depth : Nat) (flags : UInt32)
  | commit (i : Nat) (self : Option CStr) (now : Int) (stored : Bool)
  | discard (i : Nat)
  | finish (i : Nat)
  | reset
  | setTrust (ca : Option Crt) (now : Int) (stored : Bool)
deriving DecidableEq

def start (anchor : Anchor) : World :=
  ⟨.boot anchor, none, none, fun _ => .blank⟩

variable (w : World)

def restart (i : Nat) : World :=
  { w with own := Function.update w.own i .blank }

-- `espos_sk_tls_handshake_begin` of an HTTP leg or the stream task.
def begin (i : Nat) : World :=
  { w.restart i with tls := w.tls.handshakeBegin, holder := some i, owner := none }

-- `verify_cb` for handshake `i`.
def callback (i : Nat) (crt : Crt) (depth : Nat) (flags : UInt32) : World :=
  { w with
    tls := (w.tls.verifyCb crt depth flags).1
    owner := some i
    own := Function.update w.own i
      (if 0 < depth then (w.own i).upper crt else (w.own i).atLeaf crt) }

-- `espos_sk_tls_commit` clears the slot if there is something to commit.
def commit (self : Option CStr) (now : Int) (stored : Bool) : World :=
  { w with
    tls := w.tls.commit self now stored
    owner := if w.tls.cap.valid then none else w.owner }

def discard : World :=
  { w with tls := w.tls.discard, owner := none }

-- A request commits, discards and ends only what it began; a second one waits
-- for the mutex.
def step : Event → World
  | .begin i => if w.holder = none then w.begin i else w
  | .attach i => w.restart i
  | .callback i crt depth flags => w.callback i crt depth flags
  | .commit i self now stored => if w.holder = some i then w.commit self now stored else w
  | .discard i => if w.holder = some i then w.discard else w
  | .finish i => if w.holder = some i then { w with holder := none } else w
  | .reset => { w with tls := w.tls.reset, owner := none }
  | .setTrust ca now stored => { w with tls := w.tls.setTrust ca now stored }

-- The verdict is the one the handshake's own chain deserves.
def OwnVerdict (i : Nat) (crt : Crt) : Prop :=
  w.tls.decision crt = decideOn (factsOf w.tls.anchor (w.own i).ca crt)

-- What goes into the anchor was shown by the request's own handshake.
def OwnRecord (i : Nat) (self : Option CStr) (now : Int) : Prop :=
  w.tls.cap.valid = true → ∃ leaf, (w.own i).leaf = some leaf ∧
    (w.tls.merged self now).leafFp = leaf.fp ∧ (w.tls.merged self now).cn = leaf.cn ∧
    ((w.tls.merged self now).caFp = w.tls.anchor.caFp ∨
      (w.own i).ca = some (w.tls.merged self now).caFp) ∧
    ((w.tls.merged self now).san = w.tls.anchor.san ∨
      (w.tls.merged self now).san = leaf.sanSet.1)

end World

-- The certificate or the CA the anchor decides by.
def Anchor.decidingFp (a : Anchor) : Fp :=
  if a.kind = .leaf then a.leafFp else a.caFp

-- An anchor that is there stays what it is.
def Anchor.Stays (a b : Anchor) : Prop :=
  a.kind ≠ .none → b.kind = a.kind ∧ b.decidingFp = a.decidingFp ∧
    (a.san.isEmpty = false → b.san = a.san)

namespace World

-- The anchor is replaced, not only kept up to date.
def Event.Replaces : Event → Prop
  | .reset => True
  | .setTrust ca _ _ => ca.isSome
  | _ => False

-- What the step keeps apart.
def Apart (w : World) (e : Event) : Prop :=
  (match e with
    | .callback i crt depth _ => depth = 0 → w.OwnVerdict i crt
    | .commit i self now _ => w.holder = some i → w.OwnRecord i self now
    | _ => True) ∧
  (match e with
    | .reset => True
    | .setTrust _ _ _ => True
    | _ => w.tls.anchor.Stays (w.step e).tls.anchor)

-- A handshake finds the slot empty with its first callback and as it left it
-- with the others, a request commits no other handshake's slot, and no CA is
-- configured between a verdict and its commit.
def Undisturbed (w : World) : Event → Prop
  | .callback i _ _ _ => if (w.own i).begun then w.owner = some i else w.owner = none
  | .commit i _ _ _ => w.holder = some i → w.owner = none ∨ (w.owner = some i ∧ (w.own i).begun)
  | .setTrust ca _ _ => ca.isSome → w.tls.cap.valid = false
  | _ => True

end World

end Espos.Sk.Tls
