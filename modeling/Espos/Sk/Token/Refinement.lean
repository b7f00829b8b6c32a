import Espos.Sk.Token.Pairing
import Mathlib.Tactic.Simps.Basic

namespace Espos.Sk.Token

open Espos.Text

def Call.action? : Call → Option Action
  | .http a => some a
  | _ => none

def Call.store? : Call → Option Store
  | .storeSave store => some store
  | _ => none

-- The actions the port was asked for while the last event was handled, in the
-- order it was asked.
def actions (sm : Machine) : List Action :=
  (sm.calls.filterMap Call.action?).reverse

-- The protocol state a machine stands for.
@[simps] def view (sm : Machine) : Pairing where
  cfg := sm.cfg
  store := sm.store
  hasToken := sm.st.hasToken
  pendingHref := sm.st.pendingHref
  state := sm.st.state
  server := sm.st.server
  hasServer := sm.st.hasServer
  busy := sm.st.busy
  started := sm.started
  reeval := sm.reeval
  armed := sm.timerDueMs != 0
  streak := sm.plainUnauthStreak
  moved := sm.moved
  issued := sm.calls.filterMap Call.action?
  saved := sm.calls.findSome? Call.store?

section Helpers

variable (env : Env) (sm : Machine)

@[simp] theorem view_notify : view (notify sm) = view sm := rfl

@[simp] theorem view_arm (ms : UInt32) :
    view (arm env sm ms) = (view sm).rearm := by
  have hdue : ((arm env sm ms).timerDueMs != 0) = true := by
    unfold arm
    dsimp only
    split_ifs with h
    · decide
    · simpa using h
  unfold Pairing.rearm
  rw [← hdue]
  rfl

theorem view_save : view (save sm) = (view sm).keep sm.store := by
  unfold save Pairing.keep
  simp only [Buf.print_chars]
  rfl

theorem view_save_setStore (store : Store) :
    view (save (setStore sm store)) = (view sm).keep store :=
  view_save _

theorem view_doRequest : view (doRequest sm) = (view sm).request := rfl

theorem view_doPoll : view (doPoll sm) = (view sm).poll := rfl

theorem view_doVerify (asCheck : Bool) :
    view (doVerify sm asCheck) =
      (view sm).verify (if asCheck then sm.st.state else .verifying) := rfl

theorem view_enterError (msg : CStr) :
    view (enterError env sm msg) = (view sm).await .error := by
  unfold enterError
  simp only [view_notify]
  exact view_arm env _ _

theorem view_enterDuplicate : view (enterDuplicate env sm) = (view sm).await .error := by
  unfold enterDuplicate
  simp only [view_notify]
  exact view_arm env _ _

theorem view_enterCertError (reason : CStr) :
    view (enterCertError env sm reason) = (view sm).await .certError := by
  unfold enterCertError
  simp only [view_notify]
  exact view_arm env _ _

theorem view_enterApproved (since : UInt32) :
    view (enterApproved env sm since) = (view sm).approve := by
  unfold enterApproved
  simp only [view_notify, view_arm]
  rfl

theorem view_enterRequested : view (enterRequested env sm) = (view sm).await .requested := by
  unfold enterRequested
  simp only [view_notify, view_arm]
  rfl

theorem view_enterDenied (msg : CStr) : view (enterDenied sm msg) = (view sm).rest .denied := rfl

theorem view_clearPending :
    view (save (clearPending sm)) = (view sm).keep sm.store.withoutPending :=
  view_save _

theorem setTokenAddr_eq (host : Buf 64) (port : UInt16) :
    setTokenAddr sm host port =
      setStore sm { sm.store with tokenHost := host, tokenPort := port } := by
  unfold setTokenAddr tokenAddrDiffers
  by_cases h : sm.store.tokenHost = host ∧ sm.store.tokenPort = port
  · obtain ⟨rfl, rfl⟩ := h
    simp [setStore]
  · have hdiffers : (sm.store.tokenHost == host && sm.store.tokenPort == port) = false := by
      simpa using h
    simp [hdiffers]

theorem storePending_eq (href : Buf 128) :
    storePending sm href.chars = setStore sm (sm.store.withPending href sm.st.server) := by
  unfold storePending Store.withPending
  simp only [Buf.print_chars]

theorem storeToken_eq (tok : CStr) (srv : Server) :
    clearPending (setTokenAddr (storeToken sm tok srv.self.chars) srv.host srv.port) =
      setStore sm (sm.store.withToken (.print tok) srv) := by
  rw [setTokenAddr_eq]
  unfold storeToken
  simp only [Buf.print_chars]
  rfl

end Helpers

section Events

variable (K : Kconfig) (env : Env) (sm : Machine)

theorem view_evaluateToken : view (evaluateToken env sm) = (view sm).evaluateToken := by
  unfold evaluateToken Pairing.evaluateToken
  simp only [view_store, view_server]
  split
  · split
    · exact view_enterApproved env sm _
    · rfl
  · rfl

theorem view_evaluate : view (evaluate env sm) = (view sm).evaluate := by
  unfold evaluate Pairing.evaluate
  simp only [view_store, view_server, view_started, view_hasServer]
  split
  · rfl
  split
  · rfl
  split
  · split
    · rfl
    · rw [view_evaluateToken, view_clearPending]
  · exact view_evaluateToken env sm

theorem view_dropStale : view (dropStale env sm) = (view sm).dropStale :=
  view_evaluate env _

theorem view_handleUnauthorized :
    view (match handleUnauthorized env sm with
      | (sm, false) => sm
      | (sm, true) => doRequest sm) = (view sm).refuse := by
  by_cases hfirst : (!sm.st.server.tls && (countUnauthorized sm).plainUnauthStreak < 2) = true
  · have hsm : handleUnauthorized env sm = (notify (arm env (setError (countUnauthorized sm)
        (lit "unauthorized over plaintext; checking again before dropping the token"))
        plainRecheckMs), false) := if_pos hfirst
    have hp : (view sm).refuse = (view sm).counted.rearm := if_pos hfirst
    rw [hsm, hp]
    simp only [view_notify, view_arm]
    rfl
  · by_cases hself : sm.st.server.bySelf = true
    · have hsm : handleUnauthorized env sm = (enterError env (setStreak (countUnauthorized sm) 0)
          (lit "token refused here; waiting for " ++ sm.store.tokenHost.chars.take 40 ++
            lit " or a manual pin"), false) := (if_neg hfirst).trans (if_pos hself)
      have hp : (view sm).refuse = (view sm).forgive.await .error :=
        (if_neg hfirst).trans (if_pos hself)
      rw [hsm, hp]
      exact view_enterError env _ _
    · have hsm : handleUnauthorized env sm =
          (setError (save (clearToken (setStreak (countUnauthorized sm) 0)))
            (lit "token rejected by the server; requesting access again"), true) :=
        (if_neg hfirst).trans (if_neg hself)
      have hp : (view sm).refuse =
          ((view sm).forgive.keep sm.store.withoutToken).request :=
        (if_neg hfirst).trans (if_neg hself)
      rw [hsm, hp]
      exact congrArg Pairing.request (view_save _)

theorem view_onStart : view (onStart env sm) = (view sm).onStart := by
  unfold onStart Pairing.onStart
  simp only [view_started]
  split
  · rfl
  · exact view_evaluate env _

theorem view_onStop : view (onStop sm) = (view sm).onStop := rfl

theorem view_onConfig (cfg : Option Cfg) :
    view (onConfig env sm cfg) = (view sm).onConfig cfg := by
  cases cfg with
  | none => rfl
  | some c =>
    unfold onConfig Pairing.onConfig Pairing.configure
    simp only [view_cfg, view_state, view_busy]
    split
    · rename_i h
      rw [view_arm, h, Bool.or_true]
      rfl
    · rename_i h
      rw [Bool.not_eq_true] at h
      rw [h, Bool.or_false]
      rfl

theorem view_setServerBySelf (bySelf : Bool) :
    view (if sm.st.server.bySelf == bySelf then sm else notify (setServerBySelf sm bySelf)) =
      (view sm).setBySelf bySelf := by
  split
  · rename_i h
    rw [← beq_iff_eq.mp h]
    rfl
  · rfl

def learnServerSelf (self : Buf 128) : Machine :=
  if !self.isEmpty && sm.st.server.self.isEmpty then setServerSelf sm self.chars else sm

theorem view_learnServerSelf (self : Buf 128) :
    view (learnServerSelf sm self) = (view sm).learnSelf self := by
  unfold learnServerSelf Pairing.learnSelf setServerSelf
  simp only [view_server]
  rw [Buf.print_chars]
  split <;> rfl

theorem view_refreshServer (srv : Server) :
    view (refreshServer sm srv) = (view sm).refresh srv := by
  have hmid := view_setServerBySelf sm srv.bySelf
  unfold refreshServer Pairing.refresh
  rw [← hmid]
  revert hmid
  generalize (if sm.st.server.bySelf == srv.bySelf then sm
      else notify (setServerBySelf sm srv.bySelf)) = mid
  intro hmid
  have hself : mid.st.server.self = sm.st.server.self := congrArg (·.server.self) hmid
  have hstore : mid.store = sm.store := congrArg Pairing.store hmid
  have hserver : (setServerSelf mid srv.self.chars).store = sm.store := hstore
  have hlearn := view_learnServerSelf mid srv.self
  unfold learnServerSelf at hlearn
  dsimp only
  rw [hserver, ← hlearn]
  simp only [view_store, view_server, ← hself]
  by_cases hnew : (!srv.self.isEmpty && mid.st.server.self.isEmpty) = true
  · rw [hnew, if_pos rfl, if_pos rfl, view_notify, Bool.true_and]
    split
    · rw [view_save]
      unfold setTokenSelf
      rw [Buf.print_chars, hserver]
      rfl
    · rfl
  · rw [if_neg hnew, if_neg hnew]
    rw [Bool.not_eq_true] at hnew
    rw [hnew]
    rfl

theorem view_onServer (srv : Option Server) :
    view (onServer env sm srv) = (view sm).onServer srv := by
  have htake : view (if sm.st.busy then
        notify (setReeval (setError (resetBackoffs (takeOver sm srv)) []) true)
      else evaluate env (setError (resetBackoffs (takeOver sm srv)) [])) =
      if sm.st.busy then ((view sm).takeOver srv).lookAgain
      else ((view sm).takeOver srv).evaluate := by
    split
    · rfl
    · exact view_evaluate env _
  cases srv with
  | none => exact htake
  | some s =>
    have hsame : (view sm).sameServer (some s) = sameServer sm (some s) := rfl
    unfold onServer Pairing.onServer
    rw [hsame]
    cases sameServer sm (some s) with
    | true => exact view_refreshServer sm s
    | false => exact htake

-- The guard of a result handler, in the words of the protocol.
theorem view_onAnswer {e : Event} {sm' : Machine} {q : Pairing} {guard : Bool}
    (hguard : guard = !(sm.st.busy && Pairing.expects sm.st.state e))
    (hq : guard = false → view sm' = q) :
    view (if sm.reeval && sm.st.busy then dropStale env sm else if guard then sm else sm') =
      (view sm).onAnswer e q := by
  unfold Pairing.onAnswer
  simp only [view_reeval, view_busy, view_state]
  rw [← hguard]
  split
  · exact view_dropStale env sm
  split
  · rfl
  · rename_i hawaited
    exact hq (by simpa using hawaited)

theorem view_onRequestResult (r : HttpResult) :
    view (onRequestResult env sm r) =
      (view sm).onAnswer (.requestResult r) ((view sm).requestAnswered r.requestAnswer) := by
  refine view_onAnswer env sm ?_ ?_
  · cases hbusy : sm.st.busy <;> simp [Pairing.expects, beq_eq_decide]
  intro _
  unfold Pairing.requestAnswered HttpResult.requestAnswer
  split
  · exact view_enterCertError env _ _
  split
  · rw [view_enterRequested, storePending_eq, view_save]
    rfl
  split
  · simp only [view_notify, view_arm]
    rfl
  split
  · rename_i hstatus
    rw [hstatus]
    exact view_enterError env _ _
  split
  · rfl
  split
  · exact view_enterDuplicate env _
  split
  · exact view_enterError env _ _
  split
  · exact view_enterError env _ _
  · exact view_enterError env _ _

theorem view_onPollCompleted_granted (r : HttpResult) (hgrants : grantsToken K r = true) :
    view (onPollCompleted K sm r) =
      ((view sm).keep (sm.store.withToken r.token sm.st.server)).verify .verifying := by
  obtain ⟨happroved, hfits⟩ := (Bool.and_eq_true _ _).mp hgrants
  unfold onPollCompleted
  rw [happroved, hfits]
  change view (doVerify (setError (countApproved (save (clearPending (setTokenAddr
    (storeToken sm r.token.chars sm.st.server.self.chars)
    sm.st.server.host sm.st.server.port)))) []) false) = _
  rw [view_doVerify, storeToken_eq, Buf.print_chars]
  exact congrArg (Pairing.verify · .verifying) (view_save _)

theorem view_onPollCompleted_refused (r : HttpResult) (hgrants : grantsToken K r = false) :
    view (onPollCompleted K sm r) = ((view sm).keep sm.store.withoutPending).rest .denied := by
  have hdenied (msg : CStr) : view (enterDenied (save (clearPending sm)) msg) =
      ((view sm).keep sm.store.withoutPending).rest .denied := by
    rw [view_enterDenied, view_clearPending]
  unfold onPollCompleted
  split
  · exact hdenied _
  split
  · rename_i hlong happroved
    rw [grantsToken, happroved] at hgrants
    rw [Bool.true_and] at hgrants
    simp [happroved, hgrants] at hlong
  · exact hdenied _

theorem view_onPollResult (r : HttpResult) :
    view (onPollResult K env sm r) =
      (view sm).onAnswer (.pollResult r) ((view sm).pollAnswered (r.pollAnswer K)) := by
  refine view_onAnswer env sm ?_ ?_
  · cases hbusy : sm.st.busy <;> simp [Pairing.expects, beq_eq_decide]
  intro _
  unfold Pairing.pollAnswered HttpResult.pollAnswer
  simp only [view_server]
  split
  · exact view_enterCertError env _ _
  split
  · split
    · exact view_enterError env _ _
    split
    · cases hgrants : grantsToken K r with
      | true => exact view_onPollCompleted_granted K _ r hgrants
      | false => exact view_onPollCompleted_refused K _ r hgrants
    · simp only [view_notify, view_arm]
      rfl
  split
  · split
    · rename_i hself
      refine Eq.trans ?_ (if_pos hself).symm
      exact view_enterError env _ _
    · rename_i hself
      refine Eq.trans ?_ (if_neg hself).symm
      exact congrArg Pairing.request (view_clearPending _)
  split
  · exact view_enterError env _ _
  · exact view_enterError env _ _

-- What `onVerified` compares before it saves tells whether the store changes.
theorem learn_changes_iff (store : Store) (srv : Server) (self : Buf 128) :
    ((store.tokenHost.isEmpty && !(store.tokenHost == srv.host && store.tokenPort == srv.port)) ||
      (!self.isEmpty && !(store.tokenSelf == self))) = true ↔ ¬store = store.learn srv self := by
  obtain ⟨token, tokenSelf, tokenHost, tokenPort, _, _, _, _⟩ := store
  unfold Store.learn
  by_cases hhost : tokenHost.isEmpty = true <;> by_cases hself : self.isEmpty = true <;>
    simp_all <;> tauto

theorem setTokenAddr_of_isEmpty :
    (if sm.store.tokenHost.isEmpty then setTokenAddr sm sm.st.server.host sm.st.server.port
      else sm) = setStore sm (sm.store.learn sm.st.server .empty) := by
  rw [setTokenAddr_eq]
  unfold Store.learn
  split <;> simp_all [setStore]

theorem learnSelf_setStore (self : Buf 128) :
    (if self.isEmpty then setStore sm (sm.store.learn sm.st.server .empty)
      else learnSelf (setStore sm (sm.store.learn sm.st.server .empty)) self) =
      setStore (learnServerSelf sm self) (sm.store.learn sm.st.server self) := by
  unfold learnSelf learnServerSelf Store.learn setTokenSelf
  by_cases hself : self.isEmpty = true
  · simp [hself]
  · by_cases hserver : sm.st.server.self.isEmpty = true
    · simp [hself, hserver, setStore, setServerSelf]
    · simp [hself, hserver, setStore]

theorem view_onVerified (r : HttpResult) :
    view (onVerified env sm r) = (view sm).verified r.self := by
  unfold onVerified Pairing.verified tokenAddrDiffers
  dsimp only
  rw [view_enterApproved, setTokenAddr_of_isEmpty, learnSelf_setStore, ← view_learnServerSelf]
  have hstore : (learnServerSelf sm r.self).store = sm.store := by
    unfold learnServerSelf
    split <;> rfl
  unfold Pairing.keepNew
  simp only [view_store, view_server, hstore]
  by_cases hsame : sm.store = sm.store.learn sm.st.server r.self
  · rw [if_neg (fun h => (learn_changes_iff _ _ _).mp h hsame)]
    simp only [if_pos hsame]
    rfl
  · rw [if_pos ((learn_changes_iff _ _ _).mpr hsame), view_save_setStore]
    simp only [if_neg hsame]
    rfl

theorem view_onVerifyResult (r : HttpResult) :
    view (onVerifyResult env sm r) =
      (view sm).onAnswer (.verifyResult r) ((view sm).verifyAnswered r.verifyAnswer) := by
  refine view_onAnswer env sm ?_ ?_
  · cases hbusy : sm.st.busy <;> simp [Pairing.expects, beq_eq_decide]
  intro _
  unfold Pairing.verifyAnswered HttpResult.verifyAnswer
  simp only [view_state]
  split
  · exact view_enterCertError env _ _
  split
  · split
    · rename_i hopen
      refine Eq.trans ?_ (if_pos hopen).symm
      simp only [view_notify, view_arm]
      rfl
    · rename_i hopen
      refine Eq.trans ?_ (if_neg hopen).symm
      exact view_onVerified env _ r
  split
  · split
    · rename_i hopen
      refine Eq.trans ?_ (if_pos hopen).symm
      rfl
    · rename_i hopen
      refine Eq.trans ?_ (if_neg hopen).symm
      exact view_handleUnauthorized env _
  split
  · exact view_enterError env _ _
  · exact view_enterError env _ _

theorem view_onTimer :
    view (onTimer env sm) = (view sm).onTimer (reached env.now sm.timerDueMs) := by
  unfold onTimer Pairing.onTimer
  simp only [view_started, view_busy, view_armed, view_state, bne, Bool.not_not]
  split
  · rfl
  · have hclear : (clearTimer sm).st.state = sm.st.state := rfl
    rw [hclear]
    cases hstate : sm.st.state with
    | requested => exact view_doPoll _
    | approved => rw [view_doVerify]; exact congrArg _ hstate
    | verifying => rw [view_doVerify]; exact congrArg _ hstate
    | open_ => exact view_doRequest _
    | error => exact view_evaluate env _
    | certError => exact view_evaluate env _
    | noServer => rfl
    | idle => rfl
    | denied => rfl

theorem view_onManualToken (tok : CStr) :
    view (onManualToken K sm tok) =
      if tok.isEmpty || !tokenFits K tok then view sm else (view sm).onManualToken (.print tok) := by
  unfold onManualToken
  split
  · rfl
  · dsimp only
    rw [storeToken_eq]
    unfold Pairing.onManualToken
    simp only [view_store, view_server, view_hasServer, view_busy]
    generalize (if sm.st.hasServer then sm.st.server else Server.none) = srv
    have hkept := view_save_setStore sm (sm.store.withToken (.print tok) srv)
    split
    · rename_i hserver
      refine Eq.trans ?_ (if_pos hserver).symm
      exact hkept
    · rename_i hserver
      refine Eq.trans ?_ (if_neg hserver).symm
      split
      · rename_i hbusy
        refine Eq.trans ?_ (if_pos hbusy).symm
        exact congrArg Pairing.lookAgain hkept
      · rename_i hbusy
        refine Eq.trans ?_ (if_neg hbusy).symm
        exact congrArg (Pairing.verify · .verifying) hkept

theorem view_onRetry : view (onRetry env sm) = (view sm).onRetry := by
  unfold onRetry Pairing.onRetry
  simp only [view_started, view_hasServer, view_busy, view_state]
  split
  · rfl
  split
  · rename_i h
    refine Eq.trans ?_ (if_pos h).symm
    exact congrArg Pairing.request (view_clearPending _)
  · rename_i h
    refine Eq.trans ?_ (if_neg h).symm
    exact view_evaluate env _

theorem view_onUnauthorized : view (onUnauthorized env sm) = (view sm).onUnauthorized := by
  unfold onUnauthorized Pairing.onUnauthorized
  simp only [view_state, view_busy]
  split
  · exact view_handleUnauthorized env sm
  · rfl

theorem view_onCertError (reason : Option CStr) :
    view (onCertError env sm reason) = (view sm).onCertError := by
  unfold onCertError Pairing.onCertError
  simp only [view_state]
  split
  · exact view_enterCertError env _ _
  · rfl

-- Every event of the machine is the event of the protocol.
theorem view_event (e : Event) :
    view (event K env sm e) = (view sm).on K (reached env.now sm.timerDueMs) e := by
  cases e with
  | start => exact view_onStart env sm
  | stop => exact view_onStop sm
  | server srv => exact view_onServer env sm srv
  | requestResult r => exact view_onRequestResult env sm r
  | pollResult r => exact view_onPollResult K env sm r
  | verifyResult r => exact view_onVerifyResult env sm r
  | timer => exact view_onTimer env sm
  | manualToken tok => exact view_onManualToken K sm tok
  | retry => exact view_onRetry env sm
  | unauthorized => exact view_onUnauthorized env sm
  | config cfg => exact view_onConfig env sm cfg
  | certError reason => exact view_onCertError env sm reason

theorem view_step (input : Env × Event) :
    view (step K sm input) =
      (view sm).forgetCalls.on K (reached input.1.now sm.timerDueMs) input.2 :=
  view_event K input.1 (forgetCalls sm) input.2

end Events

end Espos.Sk.Token
