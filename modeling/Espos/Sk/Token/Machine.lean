import Espos.Platform
import Espos.Lib.Text

-- The access-token state machine of `token_sm.c`. The machine asks its port to
-- do things and is fed the outcomes as events; the calls it makes while it
-- handles one event are collected in `calls`, the newest first.

namespace Espos.Sk.Token

open Espos.Text

inductive State where
  | noServer
  | idle
  | requested
  | verifying
  | approved
  | denied
  | open_
  | error
  | certError
deriving DecidableEq

structure Server where
  host : Buf 64
  port : UInt16
  tls : Bool
  self : Buf 128
  bySelf : Bool
deriving DecidableEq

def Server.none : Server :=
  ⟨.empty, 0, false, .empty, false⟩

structure Cfg where
  clientId : Buf 40
  description : Buf 80
  permissions : Buf 12
  checkIntervalMs : UInt32
deriving DecidableEq

-- What survives a reboot.
structure Store where
  token : Buf 1024
  tokenSelf : Buf 128
  tokenHost : Buf 64
  tokenPort : UInt16
  pendingHref : Buf 128
  pendingHost : Buf 64
  pendingPort : UInt16
  pendingSelf : Buf 128
deriving DecidableEq

def Store.blank : Store :=
  ⟨.empty, .empty, .empty, 0, .empty, .empty, 0, .empty⟩

structure HttpResult where
  httpStatus : Int
  state : Buf 12
  permission : Buf 12
  href : Buf 128
  token : Buf 1024
  message : Buf 96
  self : Buf 128
  certError : Bool
  certReason : Buf 64
deriving DecidableEq

inductive Event where
  | start
  | stop
  | server (srv : Option Server)
  | requestResult (r : HttpResult)
  | pollResult (r : HttpResult)
  | verifyResult (r : HttpResult)
  | timer
  | manualToken (tok : CStr)
  | retry
  | unauthorized
  | config (cfg : Option Cfg)
  | certError (reason : Option CStr)

-- The actions the port answers later, with the matching result event.
inductive Action where
  | request (srv : Server) (cfg : Cfg)
  | poll (srv : Server) (href : Buf 128)
  | verify (srv : Server) (token : Buf 1024)
deriving DecidableEq

inductive Call where
  | http (action : Action)
  | storeSave (store : Store)
  | armTimer (ms : UInt32)
  | cancelTimer
  | statusChanged
deriving DecidableEq

structure Status where
  state : State
  server : Server
  hasServer : Bool
  hasToken : Bool
  pendingHref : Buf 128
  nextActionMs : UInt32
  pollIntervalMs : UInt32
  requestedSinceMs : UInt32
  approvedSinceMs : UInt32
  lastCheckMs : UInt32
  lastHttpStatus : Int
  lastError : Buf 96
  requestCount : Nat
  approveCount : Nat
  denyCount : Nat
  unauthorizedCount : Nat
  certErrorCount : Nat
  busy : Bool

structure Machine where
  cfg : Cfg
  store : Store
  st : Status
  started : Bool
  reeval : Bool
  errorBackoffMs : UInt32
  dupBackoffMs : UInt32
  timerDueMs : UInt32
  plainUnauthStreak : Nat
  calls : List Call
  -- History only, nothing below reads it: a server with another address, or
  -- none, was taken over after the machine last entered `approved`.
  moved : Bool

-- What the port's clock and random source answer during one event.
structure Env where
  now : UInt32
  random : UInt32

def pollMinMs : UInt32 := 5000
def pollMaxMs : UInt32 := 60000
def errMinMs : UInt32 := 10000
def errMaxMs : UInt32 := 300000
def dupMinMs : UInt32 := 60000
def dupMaxMs : UInt32 := 600000
def openCheckMs : UInt32 := 60000
def certRetryMs : UInt32 := 60000
def plainRecheckMs : UInt32 := 5000

def tokenTooLong : CStr :=
  lit "token longer than CONFIG_ESPOS_SK_TOKEN_MAX allows; raise it, then retry"

section Helpers

variable (env : Env) (sm : Machine)

def setState (s : State) : Machine :=
  { sm with st := { sm.st with state := s } }

def setBusy (busy : Bool) : Machine :=
  { sm with st := { sm.st with busy := busy } }

def setReeval (reeval : Bool) : Machine :=
  { sm with reeval := reeval }

def setStore (store : Store) : Machine :=
  { sm with store := store }

def setStreak (n : Nat) : Machine :=
  { sm with plainUnauthStreak := n }

def notify : Machine :=
  { sm with calls := .statusChanged :: sm.calls }

def setError (msg : CStr) : Machine :=
  { sm with st := { sm.st with lastError := .print msg } }

def dupRequest (msg : CStr) : Bool :=
  strstr msg (lit "already requested access")

-- A due time of 0 means that no timer is armed, so a deadline that lands on
-- the wrap of the clock is moved by a millisecond.
def arm (ms : UInt32) : Machine :=
  { sm with
    st := { sm.st with nextActionMs := env.now + ms }
    timerDueMs := if env.now + ms = 0 then 1 else env.now + ms
    calls := .armTimer ms :: sm.calls }

def cancel : Machine :=
  { sm with
    st := { sm.st with nextActionMs := 0 }
    timerDueMs := 0
    calls := .cancelTimer :: sm.calls }

def save : Machine :=
  { sm with
    st := { sm.st with
      hasToken := !sm.store.token.isEmpty
      pendingHref := .print sm.store.pendingHref.chars }
    calls := .storeSave sm.store :: sm.calls }

def clearPending : Machine :=
  setStore sm { sm.store with
    pendingHref := .empty
    pendingHost := .empty
    pendingSelf := .empty
    pendingPort := 0 }

def clearToken : Machine :=
  setStore sm { sm.store with
    token := .empty
    tokenSelf := .empty
    tokenHost := .empty
    tokenPort := 0 }

def tokenFits (K : Kconfig) (tok : CStr) : Bool :=
  tok.length < K.skTokenMax

-- What `set_token_addr` returns: the address the token works at changes.
def tokenAddrDiffers (host : Buf 64) (port : UInt16) : Bool :=
  !(sm.store.tokenHost == host && sm.store.tokenPort == port)

def setTokenAddr (host : Buf 64) (port : UInt16) : Machine :=
  if tokenAddrDiffers sm host port then
    setStore sm { sm.store with tokenHost := .print host.chars, tokenPort := port }
  else sm

def resetBackoffs : Machine :=
  { sm with errorBackoffMs := errMinMs, dupBackoffMs := dupMinMs }

def doRequest : Machine :=
  let sm := { sm with st := { sm.st with
    state := .idle, busy := true, requestCount := sm.st.requestCount + 1 } }
  let sm := cancel sm
  notify { sm with calls := .http (.request sm.st.server sm.cfg) :: sm.calls }

def doPoll : Machine :=
  let sm := { sm with st := { sm.st with state := .requested, busy := true } }
  let sm := cancel sm
  notify { sm with calls := .http (.poll sm.st.server sm.store.pendingHref) :: sm.calls }

def doVerify (asCheck : Bool) : Machine :=
  let sm := { sm with st := { sm.st with
    state := if asCheck then sm.st.state else .verifying, busy := true } }
  let sm := cancel sm
  notify { sm with calls := .http (.verify sm.st.server sm.store.token) :: sm.calls }

-- The doubled delay of a backoff ladder, up to its ceiling.
def nextBackoff (d ceiling : UInt32) : UInt32 :=
  if d < ceiling then (if d * 2 > ceiling then ceiling else d * 2) else d

-- The delay with its jitter of a tenth up or down.
def jittered (d : UInt32) : UInt32 :=
  d - d / 10 + env.random % (d / 5 + 1)

def enterError (msg : CStr) : Machine :=
  let sm := setError (setState sm .error) msg
  let sm := arm env sm (jittered env sm.errorBackoffMs)
  notify { sm with errorBackoffMs := nextBackoff sm.errorBackoffMs errMaxMs }

-- A duplicate request waits for a person and has a ladder of its own.
def enterDuplicate : Machine :=
  let sm := setError (setState sm .error)
    (lit "already asked; approve it in Security -> Access Requests")
  let sm := arm env sm (jittered env sm.dupBackoffMs)
  notify { sm with dupBackoffMs := nextBackoff sm.dupBackoffMs dupMaxMs }

def enterCertError (reason : CStr) : Machine :=
  let sm := setError (setState sm .certError)
    (if reason.isEmpty then
      lit "the server's certificate is not the one this device trusts" else reason)
  let sm := { sm with st := { sm.st with certErrorCount := sm.st.certErrorCount + 1 } }
  notify (arm env sm certRetryMs)

-- `since` is when the approval began.
def enterApproved (since : UInt32) : Machine :=
  let sm := { sm with
    st := { sm.st with state := .approved, approvedSinceMs := since }, moved := false }
  let sm := setError (resetBackoffs sm) []
  notify (arm env sm sm.cfg.checkIntervalMs)

def enterDenied (msg : CStr) : Machine :=
  let sm := { sm with st := { sm.st with state := .denied, denyCount := sm.st.denyCount + 1 } }
  notify (cancel (setError sm msg))

def countUnauthorized : Machine :=
  { sm with
    st := { sm.st with unauthorizedCount := sm.st.unauthorizedCount + 1 }
    plainUnauthStreak := if sm.st.server.tls then sm.plainUnauthStreak else sm.plainUnauthStreak + 1 }

-- A refusal of our token. The flag tells whether the token was cleared, in
-- which case the caller asks for a new one.
def handleUnauthorized : Machine × Bool :=
  let sm := countUnauthorized sm
  if !sm.st.server.tls && sm.plainUnauthStreak < 2 then
    let sm := setError sm
      (lit "unauthorized over plaintext; checking again before dropping the token")
    (notify (arm env sm plainRecheckMs), false)
  else if sm.st.server.bySelf then
    let m := lit "token refused here; waiting for " ++ sm.store.tokenHost.chars.take 40 ++
      lit " or a manual pin"
    (enterError env (setStreak sm 0) m, false)
  else
    let sm := save (clearToken (setStreak sm 0))
    (setError sm (lit "token rejected by the server; requesting access again"), true)

end Helpers

-- The pending request belongs to this server.
def pendingSame (store : Store) (srv : Server) : Bool :=
  (!srv.self.isEmpty && !store.pendingSelf.isEmpty && srv.self == store.pendingSelf) ||
    (srv.host == store.pendingHost && srv.port == store.pendingPort)

-- The stored token is, or may be, for this server.
def tokenApplicable (store : Store) (srv : Server) : Bool :=
  store.tokenSelf.isEmpty || srv.self.isEmpty || store.tokenSelf == srv.self

-- A request resumed after a reboot is of unknown age.
def resumePolling (env : Env) (sm : Machine) : Machine :=
  { sm with st := { sm.st with
    pollIntervalMs := pollMinMs
    requestedSinceMs := if sm.st.requestedSinceMs = 0 then env.now else sm.st.requestedSinceMs } }

-- The second half of `evaluate`, once no pending request stands in the way.
def evaluateToken (env : Env) (sm : Machine) : Machine :=
  if !sm.store.token.isEmpty && tokenApplicable sm.store sm.st.server then
    -- Over TLS the stream's own upgrade is the check.
    if sm.st.server.tls then
      enterApproved env sm (if sm.st.approvedSinceMs = 0 then env.now else sm.st.approvedSinceMs)
    else doVerify sm false
  else doRequest sm

-- What to do for the current server, given what is stored.
def evaluate (env : Env) (sm : Machine) : Machine :=
  if !sm.started then sm
  else if !sm.st.hasServer then notify (cancel (setState sm .noServer))
  else if !sm.store.pendingHref.isEmpty then
    if pendingSame sm.store sm.st.server then doPoll (resumePolling env sm)
    else evaluateToken env (save (clearPending sm))
  else evaluateToken env sm

-- The zeroed machine `espos_sk_tok_init` starts from.
def blank (cfg : Cfg) (store : Store) : Machine where
  cfg := cfg
  store := store
  st :=
    { state := .noServer, server := .none, hasServer := false, hasToken := false
      pendingHref := .empty, nextActionMs := 0, pollIntervalMs := 0, requestedSinceMs := 0
      approvedSinceMs := 0, lastCheckMs := 0, lastHttpStatus := 0, lastError := .empty
      requestCount := 0, approveCount := 0, denyCount := 0, unauthorizedCount := 0
      certErrorCount := 0, busy := false }
  started := false
  reeval := false
  errorBackoffMs := 0
  dupBackoffMs := 0
  timerDueMs := 0
  plainUnauthStreak := 0
  calls := []
  moved := false

def showStored (sm : Machine) : Machine :=
  { sm with st := { sm.st with
    hasToken := !sm.store.token.isEmpty
    pendingHref := .print sm.store.pendingHref.chars
    pollIntervalMs := pollMinMs } }

def init (K : Kconfig) (cfg : Cfg) (store : Option Store) : Machine :=
  let sm := blank cfg (store.getD .blank)
  -- A token stored by a build with more room is dropped, and saved dropped.
  let sm := if tokenFits K sm.store.token.chars then sm else
    setError (save (clearToken sm))
      (lit "stored token longer than CONFIG_ESPOS_SK_TOKEN_MAX; requesting access again")
  resetBackoffs (showStored sm)

-- `espos_sk_tok_token`: the token to use now, "" if there is none.
def tokToken (sm : Machine) : CStr :=
  if sm.st.state = .approved then sm.store.token.chars else []

end Espos.Sk.Token
