import Espos.Sk.Token.Event
import Mathlib.Tactic.Simps.Basic

-- The pairing protocol behind the machine: what each answer of the server
-- means and what follows from it, without texts, clocks and counters.

namespace Espos.Sk.Token

open Espos.Text

structure Pairing where
  cfg : Cfg
  store : Store
  hasToken : Bool
  pendingHref : Buf 128
  state : State
  server : Server
  hasServer : Bool
  busy : Bool
  started : Bool
  reeval : Bool
  armed : Bool
  streak : Nat
  moved : Bool
  -- The actions asked of the port since the event began, newest first, and the
  -- store last handed to it.
  issued : List Action
  saved : Option Store

inductive RequestAnswer where
  | certRefused
  | pending (href : Buf 128)
  | securityOff
  | disabled
  | trouble

inductive PollAnswer where
  | certRefused
  | pending
  | granted (token : Buf 1024)
  | refused
  | lost
  | trouble
deriving DecidableEq

inductive VerifyAnswer where
  | certRefused
  | works (self : Buf 128)
  | unauthorized
  | trouble
deriving DecidableEq

namespace HttpResult

variable (r : HttpResult)

def requestAnswer : RequestAnswer :=
  if r.certError then .certRefused
  else if r.httpStatus = 202 ∧ !r.href.isEmpty then .pending r.href
  else if r.httpStatus = 404 then .securityOff
  else if r.httpStatus = 403 then .disabled
  else .trouble

def pollAnswer (K : Kconfig) : PollAnswer :=
  if r.certError then .certRefused
  else if r.httpStatus = 200 ∨ r.httpStatus = 202 then
    if r.state.isEmpty then .trouble
    else if r.state.chars == lit "COMPLETED" then
      if grantsToken K r then .granted r.token else .refused
    else .pending
  else if r.httpStatus = 404 ∨
      (r.httpStatus = 500 ∧ strstr r.message.chars (lit "not found")) then .lost
  else .trouble

def verifyAnswer : VerifyAnswer :=
  if r.certError then .certRefused
  else if r.httpStatus = 200 then .works r.self
  else if r.httpStatus = 401 ∨ r.httpStatus = 403 then .unauthorized
  else .trouble

end HttpResult

namespace Store

variable (store : Store)

@[simps] def withoutPending : Store :=
  { store with pendingHref := .empty, pendingHost := .empty, pendingSelf := .empty, pendingPort := 0 }

@[simps] def withoutToken : Store :=
  { store with token := .empty, tokenSelf := .empty, tokenHost := .empty, tokenPort := 0 }

@[simps] def withPending (href : Buf 128) (srv : Server) : Store :=
  { store with
    pendingHref := href, pendingHost := srv.host, pendingSelf := srv.self, pendingPort := srv.port }

-- A token stored for `srv`, or for no server yet.
@[simps] def withToken (token : Buf 1024) (srv : Server) : Store :=
  { store.withoutPending with
    token := token, tokenSelf := srv.self, tokenHost := srv.host, tokenPort := srv.port }

-- What a 200 to the verify leg teaches about the token.
@[simps] def learn (srv : Server) (self : Buf 128) : Store :=
  { store with
    tokenHost := if store.tokenHost.isEmpty then srv.host else store.tokenHost
    tokenPort := if store.tokenHost.isEmpty then srv.port else store.tokenPort
    tokenSelf := if self.isEmpty then store.tokenSelf else self }

end Store

namespace Pairing

variable (p : Pairing)

-- Wait in `s` for the timer.
@[simps] def await (s : State) : Pairing :=
  { p with state := s, armed := true }

-- Wait in `s` for somebody outside.
@[simps] def rest (s : State) : Pairing :=
  { p with state := s, armed := false }

-- Take over a store and hand it to the port.
@[simps] def keep (store : Store) : Pairing :=
  { p with
    store := store
    hasToken := !store.token.isEmpty
    pendingHref := store.pendingHref
    saved := some store }

@[simps] def rearm : Pairing :=
  { p with armed := true }

@[simps] def disarm : Pairing :=
  { p with armed := false }

-- The port has answered.
@[simps] def settle : Pairing :=
  { p with busy := false }

-- Decide anew when the action in flight is answered.
@[simps] def lookAgain : Pairing :=
  { p with reeval := true }

@[simps] def forgive : Pairing :=
  { p with streak := 0 }

-- The three actions of the port, and the state that waits for each answer.
@[simps] def request : Pairing :=
  { p with
    state := .idle, busy := true, armed := false
    issued := .request p.server p.cfg :: p.issued }

@[simps] def poll : Pairing :=
  { p with
    state := .requested, busy := true, armed := false
    issued := .poll p.server p.store.pendingHref :: p.issued }

@[simps] def verify (s : State) : Pairing :=
  { p with
    state := s, busy := true, armed := false
    issued := .verify p.server p.store.token :: p.issued }

@[simps] def approve : Pairing :=
  { p.await .approved with moved := false }

def evaluateToken : Pairing :=
  if !p.store.token.isEmpty && tokenApplicable p.store p.server then
    if p.server.tls then p.approve else p.verify .verifying
  else p.request

def evaluate : Pairing :=
  if !p.started then p
  else if !p.hasServer then p.rest .noServer
  else if !p.store.pendingHref.isEmpty then
    if pendingSame p.store p.server then p.poll
    else (p.keep p.store.withoutPending).evaluateToken
  else p.evaluateToken

@[simps] def begin : Pairing :=
  { p with started := true }

-- One more refusal on record, if the transport does not settle it alone.
@[simps] def counted : Pairing :=
  { p with streak := if p.server.tls then p.streak else p.streak + 1 }

-- The server refuses our token. Over plaintext the first refusal only asks for
-- a second opinion, and a stand-in's refusal never counts.
def refuse : Pairing :=
  if !p.server.tls && p.counted.streak < 2 then p.counted.rearm
  else if p.server.bySelf then p.forgive.await .error
  else (p.forgive.keep p.store.withoutToken).request

-- The action in flight is over, whatever its answer.
@[simps] def dropAnswer : Pairing :=
  { p with reeval := false, busy := false }

def dropStale : Pairing :=
  p.dropAnswer.evaluate

def onStart : Pairing :=
  if p.started then p else p.begin.evaluate

@[simps] def onStop : Pairing :=
  { p with
    state := .noServer, armed := false, started := false, busy := false, reeval := false }

@[simps] def configure (c : Cfg) : Pairing :=
  { p with
    cfg := c
    armed := p.armed ||
      (p.cfg.checkIntervalMs != c.checkIntervalMs && p.state == .approved && !p.busy) }

def onConfig (cfg : Option Cfg) : Pairing :=
  match cfg with
  | none => p
  | some c => p.configure c

def sameServer (srv : Option Server) : Bool :=
  match srv with
  | none => false
  | some s => (p.hasServer && sameAddr s p.server) && selfCompatible s p.server

@[simps] def setBySelf (bySelf : Bool) : Pairing :=
  { p with server := { p.server with bySelf := bySelf } }

-- The self URN of a server that did not tell it before.
@[simps] def learnSelf (self : Buf 128) : Pairing :=
  { p with server := { p.server with
    self := if !self.isEmpty && p.server.self.isEmpty then self else p.server.self } }

def refresh (srv : Server) : Pairing :=
  let q := (p.setBySelf srv.bySelf).learnSelf srv.self
  if (!srv.self.isEmpty && p.server.self.isEmpty) &&
      (!p.store.token.isEmpty && p.store.tokenSelf.isEmpty) then
    q.keep { p.store with tokenSelf := srv.self }
  else q

def addrChanges (srv : Option Server) : Bool :=
  match srv with
  | none => true
  | some s => !(p.hasServer && sameAddr s p.server)

@[simps] def takeOver (srv : Option Server) : Pairing :=
  { p with
    server := srv.getD .none, hasServer := srv.isSome, moved := p.moved || p.addrChanges srv }

def onServer (srv : Option Server) : Pairing :=
  match srv, p.sameServer srv with
  | some s, true => p.refresh s
  | _, _ => if p.busy then (p.takeOver srv).lookAgain else (p.takeOver srv).evaluate

-- Whether a machine in state `s` waits for this kind of answer.
def expects (s : State) : Event → Bool
  | .requestResult _ => s == .idle
  | .pollResult _ => s == .requested
  | .verifyResult _ => s == .verifying || (s == .approved || s == .open_)
  | _ => false

-- An answer is dropped when something changed since the action was issued,
-- ignored when nobody waits for it, and acted on otherwise.
def onAnswer (e : Event) (q : Pairing) : Pairing :=
  if p.reeval && p.busy then p.dropStale
  else if !(p.busy && expects p.state e) then p
  else q

def requestAnswered (answer : RequestAnswer) : Pairing :=
  let q := p.settle
  match answer with
  | .certRefused => q.await .certError
  | .pending href => (q.keep (p.store.withPending href p.server)).await .requested
  | .securityOff => q.await .open_
  | .disabled => q.rest .denied
  | .trouble => q.await .error

def pollAnswered (answer : PollAnswer) : Pairing :=
  let q := p.settle
  match answer with
  | .certRefused => q.await .certError
  | .pending => q.rearm
  | .granted token => (q.keep (p.store.withToken token p.server)).verify .verifying
  | .refused => (q.keep p.store.withoutPending).rest .denied
  | .lost =>
    if p.server.bySelf then q.await .error
    else (q.keep p.store.withoutPending).request
  | .trouble => q.await .error

-- The store goes to the port only when it says something new.
@[simps] def keepNew (store : Store) : Pairing :=
  { p with
    store := store
    hasToken := if p.store = store then p.hasToken else !store.token.isEmpty
    pendingHref := if p.store = store then p.pendingHref else store.pendingHref
    saved := if p.store = store then p.saved else some store }

def verified (self : Buf 128) : Pairing :=
  ((p.learnSelf self).keepNew (p.store.learn p.server self)).approve

def verifyAnswered (answer : VerifyAnswer) : Pairing :=
  let q := p.settle
  match answer with
  | .certRefused => q.await .certError
  | .works self => if p.state = .open_ then q.forgive.rearm else q.forgive.verified self
  | .unauthorized => if p.state = .open_ then q.request else q.refuse
  | .trouble => q.await .error

-- `due` tells whether the armed time has come.
def onTimer (due : Bool) : Pairing :=
  if !p.started || p.busy || !p.armed || !due then p
  else
    let q := p.disarm
    match p.state with
    | .requested => q.poll
    | .approved | .verifying => q.verify p.state
    | .open_ => q.request
    | .error | .certError => q.evaluate
    | .noServer | .idle | .denied => q

-- `token` is one that fits.
def onManualToken (token : Buf 1024) : Pairing :=
  let q := p.keep (p.store.withToken token (if p.hasServer then p.server else .none))
  if !p.hasServer then q
  else if p.busy then q.lookAgain
  else q.verify .verifying

def onRetry : Pairing :=
  if !p.started || !p.hasServer || p.busy then p
  else if p.state = .denied ∨ p.state = .open_ then (p.keep p.store.withoutPending).request
  else p.evaluate

def onUnauthorized : Pairing :=
  if p.state = .approved ∧ !p.busy then p.refuse else p

def onCertError : Pairing :=
  if p.state = .approved ∨ p.state = .open_ ∨ p.state = .verifying then
    p.settle.await .certError
  else p

def on (K : Kconfig) (due : Bool) : Event → Pairing
  | .start => p.onStart
  | .stop => p.onStop
  | .server srv => p.onServer srv
  | .requestResult r => p.onAnswer (.requestResult r) (p.requestAnswered r.requestAnswer)
  | .pollResult r => p.onAnswer (.pollResult r) (p.pollAnswered (r.pollAnswer K))
  | .verifyResult r => p.onAnswer (.verifyResult r) (p.verifyAnswered r.verifyAnswer)
  | .timer => p.onTimer due
  | .manualToken tok =>
    if tok.isEmpty || !tokenFits K tok then p else p.onManualToken (.print tok)
  | .retry => p.onRetry
  | .unauthorized => p.onUnauthorized
  | .config cfg => p.onConfig cfg
  | .certError _ => p.onCertError

@[simps] def forgetCalls : Pairing :=
  { p with issued := [], saved := none }

end Pairing

end Espos.Sk.Token
