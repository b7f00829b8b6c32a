import Espos.Lib.Clock
import Espos.Lib.Run
import Espos.Lib.Text

-- The authentication policy of `auth_policy.c`: sessions, the failure throttle
-- and the decision. The port clock counts seconds and wraps around.

namespace Espos.Httpd

open Espos.Clock Espos.Text

def keyMax : Nat := 64
def sidLen : Nat := 32
def failMax : UInt32 := 5
def failWindowS : UInt32 := 60
def lockoutS : UInt32 := 30
def recoveryMaxS : UInt32 := 86400

inductive Method where
  | none
  | bearer
  | cookie
  | portal
deriving DecidableEq

inductive Verdict where
  | allow
  | unauthorized
  | forbiddenOrigin
  | unconfigured
  | throttled
deriving DecidableEq

structure Session where
  id : Buf (sidLen + 1)
  expiresS : UInt32
  lastSeenS : UInt32
  used : Bool
deriving DecidableEq

def Session.zero : Session :=
  ⟨.empty, 0, 0, false⟩

structure Request where
  bearer : Option CStr
  cookieSid : Option CStr
  host : Option CStr
  origin : Option CStr
  stateChanging : Bool
  fromPortal : Bool
deriving DecidableEq

structure Policy where
  sessions : List Session
  ttlS : UInt32
  requireKey : Bool
  key : Buf (keyMax + 1)
  failCount : UInt32
  failFirstS : UInt32
  lockoutUntilS : UInt32
  locked : Bool
  recoveryUntilS : UInt32
  recovery : Bool
deriving DecidableEq

-- A zero is read past the end of either string.
def byteAt (s : CStr) (len i : Nat) : UInt32 :=
  if i < len then (s[i]?.map Char.val).getD 0 else 0

def ctEqual (a : CStr) (alen : Nat) (b : CStr) (blen width : Nat) : Bool :=
  (List.range width).foldl (fun diff i => diff ||| (byteAt a alen i ^^^ byteAt b blen i))
    (UInt32.ofNat (alen ^^^ blen)) = 0

-- `a` is at or after `b`.
def reached (a b : UInt32) : Prop :=
  0 ≤ ahead a b

instance (a b : UInt32) : Decidable (reached a b) :=
  inferInstanceAs (Decidable (_ ≤ _))

def strnlen (s : CStr) (n : Nat) : Nat :=
  min s.length n

def afterScheme : CStr → Option CStr
  | [] => none
  | c :: rest => if lit "://" <+: c :: rest then some ((c :: rest).drop 3) else afterScheme rest

-- What is left of an address without its scheme, its path and a default port.
def authority (s : CStr) : CStr :=
  let p := ((afterScheme s).getD s).takeWhile fun c => c ∉ lit "/?#"
  if lit ":80" <:+ p then p.take (p.length - 3) else p

def originMatches (originOrReferer host : Option CStr) : Bool :=
  match originOrReferer, host with
  | some origin, some host =>
    if origin.isEmpty || host.isEmpty then false
    else
      let a := authority origin
      let b := authority host
      if a.length = 0 ∨ a.length ≠ b.length then false
      else a.map Char.toLower == b.map Char.toLower
  | _, _ => false

namespace Policy

def init (sessionCount : Nat) (ttlS : UInt32) (requireKey : Bool) : Policy where
  sessions := List.replicate sessionCount .zero
  ttlS := ttlS
  requireKey := requireKey
  key := .empty
  failCount := 0
  failFirstS := 0
  lockoutUntilS := 0
  locked := false
  recoveryUntilS := 0
  recovery := false

def sessionsClear (p : Policy) : Policy :=
  { p with sessions := p.sessions.map fun _ => .zero }

def setKey (p : Policy) (key : Option CStr) : Policy :=
  sessionsClear { p with key := .print (key.getD []) }

def setTtl (p : Policy) (ttlS : UInt32) : Policy :=
  { p with ttlS := ttlS }

def configured (p : Policy) : Bool :=
  ¬p.key.isEmpty

def throttled (p : Policy) (now : UInt32) : Bool :=
  p.locked ∧ ¬reached now p.lockoutUntilS

-- A key that does not match counts as a failure.
def strike (p : Policy) (now : UInt32) : Policy :=
  let p :=
    if p.failCount = 0 ∨ failWindowS ≤ now - p.failFirstS then
      { p with failCount := 0, failFirstS := now }
    else p
  let failCount := p.failCount + 1
  if failMax ≤ failCount then
    { p with locked := true, lockoutUntilS := now + lockoutS, failCount := 0 }
  else { p with failCount := failCount }

def checkKey (p : Policy) (now : UInt32) (presented : Option CStr) : Verdict × Policy :=
  if p.locked ∧ ¬reached now p.lockoutUntilS then (.throttled, p)
  else
    let p := if p.locked then { p with locked := false } else p
    if ¬p.configured then (.unauthorized, p)
    else if ctEqual p.key.chars p.key.chars.length (presented.getD [])
        (strnlen (presented.getD []) (keyMax + 1)) (keyMax + 1) then
      (.allow, { p with failCount := 0 })
    else (.unauthorized, p.strike now)

def recoveryOpen (p : Policy) (now seconds : UInt32) : Policy :=
  if seconds = 0 then { p with recovery := false, recoveryUntilS := 0 }
  else
    let seconds := if recoveryMaxS < seconds then recoveryMaxS else seconds
    { p with recovery := true, recoveryUntilS := now + seconds }

def inRecovery (p : Policy) (now : UInt32) : Bool :=
  p.recovery ∧ ¬reached now p.recoveryUntilS

def expire (now : UInt32) (s : Session) : Session :=
  if s.used ∧ reached now s.expiresS then .zero else s

def sweep (p : Policy) (now : UInt32) : Policy :=
  { p with sessions := p.sessions.map (expire now) }

-- The slot a session is opened in: the first free one, or else the one idle
-- longest. `slot` is the one picked so far.
def pickSlot (slot : Option (Nat × Session)) : Nat → List Session → Option Nat
  | _, [] => slot.map Prod.fst
  | i, s :: rest =>
    if ¬s.used then some i
    else
      match slot with
      | none => pickSlot (some (i, s)) (i + 1) rest
      | some (j, t) =>
        if ahead s.lastSeenS t.lastSeenS < 0 then pickSlot (some (i, s)) (i + 1) rest
        else pickSlot (some (j, t)) (i + 1) rest

def hexDigit (r : UInt32) (j : Nat) : Char :=
  Nat.digitChar (r.toNat / 16 ^ j % 16)

-- The characters of four random words, the lowest digit of each first.
def sessionId (random : Fin 4 → UInt32) : Buf (sidLen + 1) :=
  ⟨(List.finRange 4).flatMap fun i => (List.range 8).map (hexDigit (random i)), by
    simp [List.length_flatMap, sidLen]⟩

def sessionOpen (p : Policy) (now : UInt32) (random : Fin 4 → UInt32) (idSize : Option Nat) :
    Option (Buf (sidLen + 1)) × Policy :=
  if p.sessions.length = 0 ∨ idSize.all (· < sidLen + 1) then (none, p)
  else
    let p := p.sweep now
    match pickSlot none 0 p.sessions with
    | none => (none, p)
    | some i =>
      let id := sessionId random
      (some id, { p with sessions := p.sessions.set i ⟨id, now + p.ttlS, now, true⟩ })

-- The last slot that matches.
def hitFrom (id : CStr) (hit : Option Nat) : Nat → List Session → Option Nat
  | _, [] => hit
  | i, s :: rest =>
    let eq := ctEqual s.id.chars sidLen id (strnlen id (sidLen + 1)) (sidLen + 1)
    hitFrom id (if s.used && eq then some i else hit) (i + 1) rest

def find (p : Policy) (id : Option CStr) (now : UInt32) : Option Nat × Policy :=
  match id with
  | none => (none, p)
  | some id => (hitFrom id none 0 (p.sweep now).sessions, p.sweep now)

def sessionValid (p : Policy) (now : UInt32) (id : Option CStr) : Bool × Policy :=
  match p.find id now with
  | (none, p) => (false, p)
  | (some i, p) =>
    (true, { p with sessions := p.sessions.modify i fun s => { s with lastSeenS := now } })

def sessionClose (p : Policy) (now : UInt32) (id : Option CStr) : Policy :=
  match p.find id now with
  | (none, p) => p
  | (some i, p) => { p with sessions := p.sessions.set i .zero }

def sessionsLive (p : Policy) (now : UInt32) : Nat × Policy :=
  ((p.sweep now).sessions.countP Session.used, p.sweep now)

def portalExempt (p : Policy) (now : UInt32) : Bool :=
  if ¬p.configured then true else p.inRecovery now

def decide (p : Policy) (now : UInt32) (rq : Request) : Verdict × Method × Policy :=
  if rq.fromPortal && p.portalExempt now then (.allow, .portal, p)
  else if ¬p.configured then
    (if p.requireKey then .unconfigured else .allow, .none, p)
  else
    match rq.bearer with
    | some bearer =>
      let (v, p) := p.checkKey now (some bearer)
      (v, if v = .allow then .bearer else .none, p)
    | none =>
      match rq.cookieSid with
      | none => (.unauthorized, .none, p)
      | some sid =>
        match p.sessionValid now (some sid) with
        | (false, p) => (.unauthorized, .none, p)
        | (true, p) =>
          (if rq.stateChanging && !originMatches rq.origin rq.host then .forbiddenOrigin
            else .allow, .cookie, p)

end Policy

end Espos.Httpd

-- Why a request is let in: what the policy has been told, beside what its
-- table holds.

namespace Espos.Httpd

open Espos.Clock Espos.Text Espos.Run

inductive Call where
  | setKey (key : Option CStr)
  | setTtl (ttlS : UInt32)
  | sessionOpen (random : Fin 4 → UInt32) (idSize : Option Nat)
  | sessionValid (id : Option CStr)
  | sessionClose (id : Option CStr)
  | sessionsClear
  | sessionsLive
  | recoveryOpen (seconds : UInt32)
  | decide (rq : Request)
  | checkKey (presented : Option CStr)

-- A session id that was handed out.
structure Opening where
  id : Buf (sidLen + 1)
  openedAt : Nat
  ttlS : UInt32
  closed : Bool
deriving DecidableEq

-- The policy, and what it has been told so far: the latest key, the ids handed
-- out since the table was last cleared, the starts of the lockouts and the
-- latest `recovery_open`.
structure Trail where
  policy : Policy
  given : CStr
  openings : List Opening
  lockouts : List Nat
  recovery : Option (Nat × UInt32)
deriving DecidableEq

def clock (t : Nat) : UInt32 :=
  UInt32.ofNat t

namespace Trail

def start (sessionCount : Nat) (ttlS : UInt32) (requireKey : Bool) : Trail :=
  ⟨.init sessionCount ttlS requireKey, [], [], [], none⟩

def close (id : Option CStr) (o : Opening) : Opening :=
  if id = some o.id.chars then { o with closed := true } else o

-- A lockout starts in a call that found none running.
def lockout (w : Trail) (t : Nat) (p : Policy) : Trail :=
  { w with
    policy := p
    lockouts :=
      if ¬w.policy.throttled (clock t) ∧ p.throttled (clock t) then w.lockouts ++ [t]
      else w.lockouts }

def step (w : Trail) : Nat × Call → Trail
  | (_, .setKey key) =>
    { w with policy := w.policy.setKey key, given := key.getD [], openings := [] }
  | (_, .setTtl ttlS) => { w with policy := w.policy.setTtl ttlS }
  | (t, .sessionOpen random idSize) =>
    let (id, p) := w.policy.sessionOpen (clock t) random idSize
    { w with
      policy := p
      openings := w.openings ++ (id.map fun id => ⟨id, t, w.policy.ttlS, false⟩).toList }
  | (t, .sessionValid id) => { w with policy := (w.policy.sessionValid (clock t) id).2 }
  | (t, .sessionClose id) =>
    { w with
      policy := w.policy.sessionClose (clock t) id
      openings := w.openings.map (close id) }
  | (_, .sessionsClear) => { w with policy := w.policy.sessionsClear, openings := [] }
  | (t, .sessionsLive) => { w with policy := (w.policy.sessionsLive (clock t)).2 }
  | (t, .recoveryOpen seconds) =>
    { w with policy := w.policy.recoveryOpen (clock t) seconds, recovery := some (t, seconds) }
  | (t, .decide rq) => w.lockout t (w.policy.decide (clock t) rq).2.2
  | (t, .checkKey presented) => w.lockout t (w.policy.checkKey (clock t) presented).2

-- More than one session was opened under the id.
def Reissued (w : Trail) (id : Buf (sidLen + 1)) : Prop :=
  2 ≤ w.openings.countP (·.id = id)

def FromOpenPortal (w : Trail) (t : Nat) (rq : Request) : Prop :=
  rq.fromPortal = true ∧ ∃ openedAt seconds, w.recovery = some (openedAt, seconds) ∧
    0 < seconds ∧ t < openedAt + min seconds.toNat recoveryMaxS.toNat

def ShowsKey (w : Trail) (t : Nat) (rq : Request) : Prop :=
  rq.bearer = some (w.given.take keyMax) ∧ ∀ start ∈ w.lockouts, start + lockoutS.toNat ≤ t

def ShowsSession (w : Trail) (t : Nat) (rq : Request) : Prop :=
  ∃ o ∈ w.openings, rq.cookieSid = some o.id.chars ∧ t < o.openedAt + o.ttlS.toNat ∧
    (o.closed = false ∨ w.Reissued o.id)

end Trail

def SameOrigin (rq : Request) : Prop :=
  ∃ origin host, rq.origin = some origin ∧ rq.host = some host ∧ authority origin ≠ [] ∧
    (authority origin).map Char.toLower = (authority host).map Char.toLower

def Trail.Justified (w : Trail) (t : Nat) (rq : Request) : Prop :=
  w.FromOpenPortal t rq ∨ w.ShowsKey t rq ∨
    w.ShowsSession t rq ∧ (rq.stateChanging = true → SameOrigin rq)

end Espos.Httpd
