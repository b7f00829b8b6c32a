import Espos.Sk.Token.Machine

-- `espos_sk_tok_event`, one definition per event.

namespace Espos.Sk.Token

open Espos.Text

variable (K : Kconfig) (env : Env) (sm : Machine)

def setStarted (started : Bool) : Machine :=
  { sm with started := started }

def onStart : Machine :=
  if sm.started then sm else evaluate env (setStarted sm true)

def onStop : Machine :=
  let sm := setReeval (setBusy (setStarted sm false) false) false
  notify (setState (cancel sm) .noServer)

def setCfg (cfg : Cfg) : Machine :=
  { sm with cfg := cfg }

def onConfig (cfg : Option Cfg) : Machine :=
  match cfg with
  | none => sm
  | some c =>
    let intervalChanged := sm.cfg.checkIntervalMs != c.checkIntervalMs
    if intervalChanged && sm.st.state == .approved && !sm.st.busy then
      arm env (setCfg sm c) c.checkIntervalMs
    else setCfg sm c

-- The scheme is part of the address: the same host and port over https is
-- another endpoint.
def sameAddr (a b : Server) : Bool :=
  a.host == b.host && a.port == b.port && a.tls == b.tls

def selfCompatible (a b : Server) : Bool :=
  a.self.isEmpty || b.self.isEmpty || a.self == b.self

-- The event names the server the machine has already.
def sameServer (srv : Option Server) : Bool :=
  match srv with
  | none => false
  | some s => (sm.st.hasServer && sameAddr s sm.st.server) && selfCompatible s sm.st.server

def setServerBySelf (bySelf : Bool) : Machine :=
  { sm with st := { sm.st with server := { sm.st.server with bySelf := bySelf } } }

def setServerSelf (self : CStr) : Machine :=
  { sm with st := { sm.st with server := { sm.st.server with self := .print self } } }

def setTokenSelf (self : CStr) : Machine :=
  setStore sm { sm.store with tokenSelf := .print self }

-- The same server again: it may start or stop standing in for another one, and
-- its self URN may have become known.
def refreshServer (srv : Server) : Machine :=
  let sm := if sm.st.server.bySelf == srv.bySelf then sm else
    notify (setServerBySelf sm srv.bySelf)
  if !srv.self.isEmpty && sm.st.server.self.isEmpty then
    let sm := setServerSelf sm srv.self.chars
    let sm := if !sm.store.token.isEmpty && sm.store.tokenSelf.isEmpty then
      save (setTokenSelf sm srv.self.chars) else sm
    notify sm
  else sm

-- The address changes with this event, or the server goes away.
def addrChanges (srv : Option Server) : Bool :=
  match srv with
  | none => true
  | some s => !(sm.st.hasServer && sameAddr s sm.st.server)

def takeOver (srv : Option Server) : Machine :=
  { sm with
    st := { sm.st with server := srv.getD .none, hasServer := srv.isSome }
    moved := sm.moved || addrChanges sm srv }

def onServer (srv : Option Server) : Machine :=
  match srv, sameServer sm srv with
  | some s, true => refreshServer sm s
  | _, _ =>
    let sm := setError (resetBackoffs (takeOver sm srv)) []
    -- An action for the old server is in flight: look again when it lands.
    if sm.st.busy then notify (setReeval sm true) else evaluate env sm

-- An answer that comes after the server or the token changed is dropped, and
-- what to do is decided anew.
def dropStale : Machine :=
  evaluate env (setBusy (setReeval sm false) false)

def answered (r : HttpResult) : Machine :=
  { sm with st := { sm.st with busy := false, lastHttpStatus := r.httpStatus } }

def storePending (href : CStr) : Machine :=
  setStore sm { sm.store with
    pendingHref := .print href
    pendingHost := .print sm.st.server.host.chars
    pendingSelf := .print sm.st.server.self.chars
    pendingPort := sm.st.server.port }

def enterRequested : Machine :=
  let sm := { sm with st := { sm.st with
    state := .requested, requestedSinceMs := env.now, pollIntervalMs := pollMinMs } }
  notify (arm env (setError (resetBackoffs sm) []) pollMinMs)

def onRequestResult (r : HttpResult) : Machine :=
  if sm.reeval && sm.st.busy then dropStale env sm
  else if sm.st.state ≠ .idle || !sm.st.busy then sm
  else
    let sm := answered sm r
    if r.certError then enterCertError env sm r.certReason.chars
    else if r.httpStatus = 202 ∧ !r.href.isEmpty then
      enterRequested env (save (storePending sm r.href.chars))
    else if r.httpStatus = 404 then
      notify (arm env (setError (resetBackoffs (setState sm .open_)) []) openCheckMs)
    else if r.httpStatus = 599 then
      enterError env sm (lit "host answers but is not a SignalK server")
    else if r.httpStatus = 403 then
      enterDenied sm (lit "device access requests are disabled on the server")
    else if r.httpStatus = 400 ∧ dupRequest r.message.chars then enterDuplicate env sm
    else if r.httpStatus = 0 then enterError env sm (lit "server unreachable")
    else if !r.message.isEmpty then enterError env sm r.message.chars
    else enterError env sm (lit "request failed (HTTP " ++ decimalInt r.httpStatus ++ lit ")")

-- An approval that carries a token this build can keep.
def grantsToken (r : HttpResult) : Bool :=
  r.permission.chars == lit "APPROVED" && !r.token.isEmpty && tokenFits K r.token.chars

def storeToken (tok : CStr) (self : CStr) : Machine :=
  setStore sm { sm.store with token := .print tok, tokenSelf := .print self }

def countApproved : Machine :=
  { sm with st := { sm.st with approveCount := sm.st.approveCount + 1 } }

-- The request is decided: the token is stored and verified, or access is denied.
def onPollCompleted (r : HttpResult) : Machine :=
  if r.permission.chars == lit "APPROVED" && !r.token.isEmpty && !tokenFits K r.token.chars then
    enterDenied (save (clearPending sm)) tokenTooLong
  else if r.permission.chars == lit "APPROVED" && !r.token.isEmpty then
    let sm := storeToken sm r.token.chars sm.st.server.self.chars
    let sm := save (clearPending (setTokenAddr sm sm.st.server.host sm.st.server.port))
    doVerify (setError (countApproved sm) []) false
  else
    enterDenied (save (clearPending sm))
      (if !r.message.isEmpty then r.message.chars
      else if r.permission.chars == lit "DENIED" then lit "access denied by the server admin"
      else lit "request rejected")

def setPollInterval (ms : UInt32) : Machine :=
  { sm with st := { sm.st with pollIntervalMs := ms } }

def nextPollInterval (ms : UInt32) : UInt32 :=
  if ms + ms / 2 > pollMaxMs then pollMaxMs else ms + ms / 2

def onPollResult (r : HttpResult) : Machine :=
  if sm.reeval && sm.st.busy then dropStale env sm
  else if sm.st.state ≠ .requested || !sm.st.busy then sm
  else
    let sm := answered sm r
    if r.certError then enterCertError env sm r.certReason.chars
    else if r.httpStatus = 200 ∨ r.httpStatus = 202 then
      if r.state.isEmpty then
        enterError env sm (lit "unexpected reply while polling (not a SignalK server?)")
      else
        let sm := resetBackoffs sm
        if r.state.chars == lit "COMPLETED" then onPollCompleted K sm r
        else
          let next := nextPollInterval sm.st.pollIntervalMs
          notify (arm env (setPollInterval sm next) next)
    else if r.httpStatus = 404 ∨
        (r.httpStatus = 500 ∧ strstr r.message.chars (lit "not found")) then
      if sm.st.server.bySelf then
        enterError env sm (lit "request unknown here; waiting for " ++
          sm.store.pendingHost.chars.take 40 ++ lit " or a manual pin")
      else
        doRequest (setError (save (clearPending sm))
          (lit "server lost the request; requesting again"))
    else if r.httpStatus = 0 then enterError env sm (lit "server unreachable")
    else enterError env sm (lit "poll failed (HTTP " ++ decimalInt r.httpStatus ++ lit ")")

-- The self URN a verified server reports is remembered with the token, and
-- with the server when mDNS did not tell.
def learnSelf (self : Buf 128) : Machine :=
  let sm := setTokenSelf sm self.chars
  if sm.st.server.self.isEmpty then setServerSelf sm self.chars else sm

-- A 200 to the verify leg: the token works here.
def onVerified (r : HttpResult) : Machine :=
  -- A token that has an address keeps it: a twin with security off answers 200
  -- to anything.
  let addrChanged := sm.store.tokenHost.isEmpty &&
    tokenAddrDiffers sm sm.st.server.host sm.st.server.port
  let selfChanged := !r.self.isEmpty && !(sm.store.tokenSelf == r.self)
  let sm := if sm.store.tokenHost.isEmpty then
    setTokenAddr sm sm.st.server.host sm.st.server.port else sm
  let sm := if r.self.isEmpty then sm else learnSelf sm r.self
  let sm := if addrChanged || selfChanged then save sm else sm
  enterApproved env sm (if sm.st.state = .approved then sm.st.approvedSinceMs else env.now)

def setLastCheck : Machine :=
  { sm with st := { sm.st with lastCheckMs := env.now } }

def onVerifyResult (r : HttpResult) : Machine :=
  let checking := sm.st.state == .approved || sm.st.state == .open_
  if sm.reeval && sm.st.busy then dropStale env sm
  else if (sm.st.state ≠ .verifying && !checking) || !sm.st.busy then sm
  else
    let sm := setLastCheck env (answered sm r)
    if r.certError then enterCertError env sm r.certReason.chars
    else if r.httpStatus = 200 then
      let sm := setStreak sm 0
      if sm.st.state = .open_ then notify (arm env sm openCheckMs) else onVerified env sm r
    else if r.httpStatus = 401 ∨ r.httpStatus = 403 then
      if sm.st.state = .open_ then doRequest (setError sm [])
      else
        match handleUnauthorized env sm with
        | (sm, false) => sm
        | (sm, true) => doRequest sm
    else if r.httpStatus = 0 then enterError env sm (lit "server unreachable")
    else enterError env sm (lit "check failed (HTTP " ++ decimalInt r.httpStatus ++ lit ")")

-- `(int32_t)(now - due) >= 0`
def reached (now due : UInt32) : Bool :=
  (now - due).toNat < 2 ^ 31

def clearTimer : Machine :=
  { sm with timerDueMs := 0 }

def onTimer : Machine :=
  if !sm.started || sm.st.busy || sm.timerDueMs == 0 || !reached env.now sm.timerDueMs then sm
  else
    let sm := clearTimer sm
    match sm.st.state with
    | .requested => doPoll sm
    | .approved | .verifying => doVerify sm true
    | .open_ => doRequest sm
    | .error | .certError => evaluate env sm
    | .noServer | .idle | .denied => sm

def onManualToken (tok : CStr) : Machine :=
  if tok.isEmpty || !tokenFits K tok then sm
  else
    let srv := if sm.st.hasServer then sm.st.server else .none
    let sm := setTokenAddr (storeToken sm tok srv.self.chars) srv.host srv.port
    let sm := setError (resetBackoffs (save (clearPending sm))) []
    if !sm.st.hasServer then notify sm
    else if sm.st.busy then notify (setReeval sm true)
    else doVerify sm false

def onRetry : Machine :=
  if !sm.started || !sm.st.hasServer || sm.st.busy then sm
  else
    let sm := setError (resetBackoffs sm) []
    if sm.st.state = .denied ∨ sm.st.state = .open_ then doRequest (save (clearPending sm))
    else evaluate env sm

def onUnauthorized : Machine :=
  if sm.st.state = .approved ∧ !sm.st.busy then
    match handleUnauthorized env sm with
    | (sm, false) => sm
    | (sm, true) => doRequest sm
  else sm

-- Only from a state that was talking to the server: the other legs report the
-- certificate through their own result.
def onCertError (reason : Option CStr) : Machine :=
  if sm.st.state = .approved ∨ sm.st.state = .open_ ∨ sm.st.state = .verifying then
    enterCertError env (setBusy sm false) (reason.getD [])
  else sm

def event : Event → Machine
  | .start => onStart env sm
  | .stop => onStop sm
  | .server srv => onServer env sm srv
  | .requestResult r => onRequestResult env sm r
  | .pollResult r => onPollResult K env sm r
  | .verifyResult r => onVerifyResult env sm r
  | .timer => onTimer env sm
  | .manualToken tok => onManualToken K sm tok
  | .retry => onRetry env sm
  | .unauthorized => onUnauthorized env sm
  | .config cfg => onConfig env sm cfg
  | .certError reason => onCertError env sm reason

-- Short forms the scenarios below are written with.
section Scenario

def Cfg.sample : Cfg :=
  ⟨.print (lit "espos-1"), .print (lit "espOS"), .print (lit "readwrite"), 60000⟩

def Store.holding (token : CStr) : Store :=
  { Store.blank with token := .print token }

def Store.asking : Store :=
  { Store.blank with
    pendingHref := .print (lit "/requests/7")
    pendingHost := .print (lit "boat")
    pendingPort := 3000
    pendingSelf := .print (lit "urn:boat") }

def Server.named (host : CStr) (tls : Bool) : Server :=
  ⟨.print host, 3000, tls, .empty, false⟩

def HttpResult.status (n : Int) : HttpResult :=
  ⟨n, .empty, .empty, .empty, .empty, .empty, .empty, false, .empty⟩

end Scenario

def forgetCalls : Machine :=
  { sm with calls := [] }

-- One event, with the calls of the events before it forgotten.
def step (input : Env × Event) : Machine :=
  event K input.1 (forgetCalls sm) input.2

end Espos.Sk.Token
