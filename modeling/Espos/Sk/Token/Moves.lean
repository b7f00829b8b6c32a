import Espos.Sk.Token.Pairing

-- Everything one event can do to the protocol state, with the guard of each
-- case. The invariants are proved by cases on these moves.

namespace Espos.Sk.Token

open Espos.Text

def Event.isResult : Event → Bool
  | .requestResult _ | .pollResult _ | .verifyResult _ => true
  | _ => false

-- The answer says that the server's certificate is not trusted.
def Event.certRefused : Event → Bool
  | .requestResult r | .pollResult r | .verifyResult r => r.certError
  | _ => false

namespace Pairing

-- The state without a pending request of another server.
def dropForeign (p : Pairing) : Pairing :=
  if p.store.pendingHref.isEmpty then p else p.keep p.store.withoutPending

section DropForeign

variable (p : Pairing)

@[simp] theorem dropForeign_server : p.dropForeign.server = p.server := by
  unfold dropForeign; split <;> rfl

@[simp] theorem dropForeign_hasServer : p.dropForeign.hasServer = p.hasServer := by
  unfold dropForeign; split <;> rfl

@[simp] theorem dropForeign_busy : p.dropForeign.busy = p.busy := by
  unfold dropForeign; split <;> rfl

@[simp] theorem dropForeign_started : p.dropForeign.started = p.started := by
  unfold dropForeign; split <;> rfl

@[simp] theorem dropForeign_cfg : p.dropForeign.cfg = p.cfg := by
  unfold dropForeign; split <;> rfl

@[simp] theorem dropForeign_streak : p.dropForeign.streak = p.streak := by
  unfold dropForeign; split <;> rfl

@[simp] theorem dropForeign_issued : p.dropForeign.issued = p.issued := by
  unfold dropForeign; split <;> rfl

@[simp] theorem dropForeign_token : p.dropForeign.store.token = p.store.token := by
  unfold dropForeign; split <;> rfl

@[simp] theorem dropForeign_tokenSelf : p.dropForeign.store.tokenSelf = p.store.tokenSelf := by
  unfold dropForeign; split <;> rfl

@[simp] theorem dropForeign_tokenHost : p.dropForeign.store.tokenHost = p.store.tokenHost := by
  unfold dropForeign; split <;> rfl

@[simp] theorem dropForeign_tokenPort : p.dropForeign.store.tokenPort = p.store.tokenPort := by
  unfold dropForeign; split <;> rfl

@[simp] theorem dropForeign_pendingHref : p.dropForeign.store.pendingHref.isEmpty = true := by
  unfold dropForeign
  split
  · assumption
  · rfl

end DropForeign

-- A stored token that may be tried at the server.
def usable (p : Pairing) : Bool :=
  !p.store.token.isEmpty && tokenApplicable p.store p.server

-- What `evaluate` decides.
inductive Decision (p : Pairing) : Pairing → Prop
  | stopped (hstarted : p.started = false) : Decision p p
  | alone (hstarted : p.started = true) (hserver : p.hasServer = false) :
      Decision p (p.rest .noServer)
  | poll (hstarted : p.started = true) (hserver : p.hasServer = true)
      (hpending : p.store.pendingHref.isEmpty = false)
      (hsame : pendingSame p.store p.server = true) : Decision p p.poll
  | approve (hstarted : p.started = true) (hserver : p.hasServer = true)
      (hforeign : p.store.pendingHref.isEmpty = false → pendingSame p.store p.server = false)
      (husable : p.usable = true) (htls : p.server.tls = true) :
      Decision p p.dropForeign.approve
  | verify (hstarted : p.started = true) (hserver : p.hasServer = true)
      (hforeign : p.store.pendingHref.isEmpty = false → pendingSame p.store p.server = false)
      (husable : p.usable = true) (htls : p.server.tls = false) :
      Decision p (p.dropForeign.verify .verifying)
  | request (hstarted : p.started = true) (hserver : p.hasServer = true)
      (hforeign : p.store.pendingHref.isEmpty = false → pendingSame p.store p.server = false)
      (husable : p.usable = false) : Decision p p.dropForeign.request

theorem evaluate_eq_of_foreign {p : Pairing} (hstarted : p.started = true)
    (hserver : p.hasServer = true)
    (hforeign : p.store.pendingHref.isEmpty = false → pendingSame p.store p.server = false) :
    p.evaluate = p.dropForeign.evaluateToken := by
  unfold evaluate dropForeign
  rw [hstarted, hserver]
  cases hpending : p.store.pendingHref.isEmpty with
  | true => rfl
  | false => rw [hforeign hpending]; rfl

theorem evaluateToken_dropForeign (p : Pairing) :
    p.dropForeign.evaluateToken =
      if p.usable then
        if p.server.tls then p.dropForeign.approve else p.dropForeign.verify .verifying
      else p.dropForeign.request := by
  unfold evaluateToken usable tokenApplicable
  simp

theorem evaluate_decision (p : Pairing) : Decision p p.evaluate := by
  by_cases hstarted : p.started = true
  · by_cases hserver : p.hasServer = true
    · by_cases hsame : p.store.pendingHref.isEmpty = false ∧ pendingSame p.store p.server = true
      · have heval : p.evaluate = p.poll := by
          unfold evaluate
          simp [hstarted, hserver, hsame]
        rw [heval]
        exact .poll hstarted hserver hsame.1 hsame.2
      · have hforeign (h : p.store.pendingHref.isEmpty = false) :
            pendingSame p.store p.server = false := by simpa [h] using hsame
        rw [evaluate_eq_of_foreign hstarted hserver hforeign, evaluateToken_dropForeign]
        split
        · rename_i husable
          split
          · rename_i htls
            exact .approve hstarted hserver hforeign husable htls
          · rename_i htls
            exact .verify hstarted hserver hforeign husable (by simpa using htls)
        · rename_i husable
          exact .request hstarted hserver hforeign (by simpa using husable)
    · have heval : p.evaluate = p.rest .noServer := by
        unfold evaluate
        simp [hstarted, hserver]
      rw [heval]
      exact .alone hstarted (by simpa using hserver)
  · have heval : p.evaluate = p := by
      unfold evaluate
      simp [hstarted]
    rw [heval]
    exact .stopped (by simpa using hstarted)

-- The answer the state is busy for, and no reason to drop it.
def live (p : Pairing) (e : Event) : Bool :=
  p.busy && !p.reeval && expects p.state e

theorem live_iff {p : Pairing} {e : Event} :
    p.live e = true ↔ p.busy = true ∧ p.reeval = false ∧ expects p.state e = true := by
  simp [live, and_assoc]

theorem expects_ne {s : State} {e : Event} (h : expects s e = true) :
    s ≠ .noServer ∧ s ≠ .error ∧ s ≠ .certError ∧ s ≠ .denied := by
  refine ⟨?_, ?_, ?_, ?_⟩ <;> rintro rfl <;> cases e <;> cases h

theorem idle_of_live {p : Pairing} {r : HttpResult} (h : p.live (.requestResult r) = true) :
    p.state = .idle := by
  simpa [expects] using (live_iff.mp h).2.2

theorem requested_of_live {p : Pairing} {r : HttpResult} (h : p.live (.pollResult r) = true) :
    p.state = .requested := by
  simpa [expects] using (live_iff.mp h).2.2

-- The event changes nothing at all.
def ignores (p : Pairing) (K : Kconfig) (due : Bool) : Event → Bool
  | .start => p.started
  | .config cfg => cfg.isNone
  | .timer => !p.started || p.busy || !p.armed || !due
  | .manualToken tok => tok.isEmpty || !tokenFits K tok
  | .retry => !p.started || !p.hasServer || p.busy
  | .unauthorized => p.busy || p.state != .approved
  | .certError _ => p.state != .approved && p.state != .open_ && p.state != .verifying
  | .stop | .server _ => false
  | e => !p.live e && !(p.reeval && p.busy)

theorem ready_of_timer {p : Pairing} {K : Kconfig} {due : Bool}
    (h : p.ignores K due .timer = false) : p.started = true ∧ p.busy = false := by
  simp only [ignores, Bool.or_eq_false_iff, Bool.not_eq_false'] at h
  exact ⟨h.1.1.1, h.1.1.2⟩

theorem ready_of_retry {p : Pairing} {K : Kconfig} {due : Bool}
    (h : p.ignores K due .retry = false) :
    p.started = true ∧ p.hasServer = true ∧ p.busy = false := by
  simp only [ignores, Bool.or_eq_false_iff, Bool.not_eq_false'] at h
  exact ⟨h.1.1, h.1.2, h.2⟩

-- The event says that the server refuses our token.
def refuses (p : Pairing) : Event → Bool
  | .verifyResult r => p.live (.verifyResult r) && p.state != .open_ && r.verifyAnswer == .unauthorized
  | .unauthorized => p.state == .approved && !p.busy
  | _ => false

-- The answer leads nowhere for now. A stand-in that does not know our request
-- is such a case.
def troubled (p : Pairing) (K : Kconfig) : Event → Prop
  | .requestResult r => r.requestAnswer = .trouble
  | .pollResult r =>
    r.pollAnswer K = .trouble ∨ (r.pollAnswer K = .lost ∧ p.server.bySelf = true)
  | .verifyResult r => r.verifyAnswer = .trouble
  | _ => False

theorem token_of_granted {K : Kconfig} {r : HttpResult} {token : Buf 1024}
    (h : r.pollAnswer K = .granted token) : token = r.token := by
  unfold HttpResult.pollAnswer at h
  repeat' split at h
  all_goals cases h
  rfl

theorem state_of_refuses {p : Pairing} {e : Event} (h : p.refuses e = true) :
    (p.state = .approved ∨ p.state = .verifying) ∧ (p.busy = true → p.reeval = false) := by
  cases e with
  | verifyResult r =>
    have hlive : p.live (.verifyResult r) = true := by simp_all [refuses]
    obtain ⟨_, hreeval, hstate⟩ := live_iff.mp hlive
    have hopen : p.state ≠ .open_ := by simp_all [refuses]
    refine ⟨?_, fun _ => hreeval⟩
    simp [expects, hopen] at hstate
    exact hstate.symm
  | unauthorized =>
    have hstate : p.state = .approved ∧ p.busy = false := by simpa [refuses] using h
    exact ⟨.inl hstate.1, by simp [hstate.2]⟩
  | _ => cases h

inductive Move (K : Kconfig) (due : Bool) (p : Pairing) : Event → Pairing → Prop
  | ignored {e : Event} (h : p.ignores K due e = true) : Move K due p e p
  | start {q : Pairing} (hstarted : p.started = false) (hq : Decision p.begin q) :
      Move K due p .start q
  | stop : Move K due p .stop p.onStop
  | config (c : Cfg) : Move K due p (.config (some c)) (p.configure c)
  | refresh {s : Server} (hsame : p.sameServer (some s) = true) :
      Move K due p (.server (some s)) (p.refresh s)
  | postpone {srv : Option Server} (hother : p.sameServer srv = false) (hbusy : p.busy = true) :
      Move K due p (.server srv) (p.takeOver srv).lookAgain
  | replace {srv : Option Server} {q : Pairing} (hother : p.sameServer srv = false)
      (hbusy : p.busy = false) (hq : Decision (p.takeOver srv) q) : Move K due p (.server srv) q
  | stale {e : Event} {q : Pairing} (he : e.isResult = true) (hreeval : p.reeval = true)
      (hbusy : p.busy = true) (hq : Decision p.dropAnswer q) : Move K due p e q
  | certRefused {e : Event} (hlive : p.live e = true) (hcert : e.certRefused = true) :
      Move K due p e (p.settle.await .certError)
  | trouble {e : Event} (hlive : p.live e = true) (htrouble : p.troubled K e) :
      Move K due p e (p.settle.await .error)
  | pending {r : HttpResult} {href : Buf 128} (hlive : p.live (.requestResult r) = true)
      (hanswer : r.requestAnswer = .pending href) :
      Move K due p (.requestResult r)
        ((p.settle.keep (p.store.withPending href p.server)).await .requested)
  | securityOff {r : HttpResult} (hlive : p.live (.requestResult r) = true)
      (hanswer : r.requestAnswer = .securityOff) :
      Move K due p (.requestResult r) (p.settle.await .open_)
  | disabled {r : HttpResult} (hlive : p.live (.requestResult r) = true)
      (hanswer : r.requestAnswer = .disabled) :
      Move K due p (.requestResult r) (p.settle.rest .denied)
  | stillPending {r : HttpResult} (hlive : p.live (.pollResult r) = true)
      (hanswer : r.pollAnswer K = .pending) : Move K due p (.pollResult r) p.settle.rearm
  | granted {r : HttpResult} {token : Buf 1024} (hlive : p.live (.pollResult r) = true)
      (hanswer : r.pollAnswer K = .granted token) :
      Move K due p (.pollResult r)
        ((p.settle.keep (p.store.withToken token p.server)).verify .verifying)
  | refused {r : HttpResult} (hlive : p.live (.pollResult r) = true)
      (hanswer : r.pollAnswer K = .refused) :
      Move K due p (.pollResult r) ((p.settle.keep p.store.withoutPending).rest .denied)
  | lost {r : HttpResult} (hlive : p.live (.pollResult r) = true)
      (hanswer : r.pollAnswer K = .lost) (hself : p.server.bySelf = false) :
      Move K due p (.pollResult r) (p.settle.keep p.store.withoutPending).request
  | stillOpen {r : HttpResult} {self : Buf 128} (hlive : p.live (.verifyResult r) = true)
      (hanswer : r.verifyAnswer = .works self) (hopen : p.state = .open_) :
      Move K due p (.verifyResult r) p.settle.forgive.rearm
  | verified {r : HttpResult} {self : Buf 128} (hlive : p.live (.verifyResult r) = true)
      (hanswer : r.verifyAnswer = .works self) (hopen : p.state ≠ .open_) :
      Move K due p (.verifyResult r) (p.settle.forgive.verified self)
  | securityOn {r : HttpResult} (hlive : p.live (.verifyResult r) = true)
      (hanswer : r.verifyAnswer = .unauthorized) (hopen : p.state = .open_) :
      Move K due p (.verifyResult r) p.settle.request
  | secondOpinion {e : Event} (hrefuses : p.refuses e = true) (htls : p.server.tls = false)
      (hstreak : p.streak = 0) : Move K due p e p.settle.counted.rearm
  | standInRefuses {e : Event} (hrefuses : p.refuses e = true)
      (hstreak : p.server.tls = true ∨ p.streak ≠ 0) (hself : p.server.bySelf = true) :
      Move K due p e (p.settle.forgive.await .error)
  | forget {e : Event} (hrefuses : p.refuses e = true)
      (hstreak : p.server.tls = true ∨ p.streak ≠ 0) (hself : p.server.bySelf = false) :
      Move K due p e (p.settle.forgive.keep p.store.withoutToken).request
  | timerPoll (hidle : p.ignores K due .timer = false) (hstate : p.state = .requested) :
      Move K due p .timer p.disarm.poll
  | timerCheck (hidle : p.ignores K due .timer = false)
      (hstate : p.state = .approved ∨ p.state = .verifying) :
      Move K due p .timer (p.disarm.verify p.state)
  | timerOpen (hidle : p.ignores K due .timer = false) (hstate : p.state = .open_) :
      Move K due p .timer p.disarm.request
  | timerDecide {q : Pairing} (hidle : p.ignores K due .timer = false)
      (hstate : p.state = .error ∨ p.state = .certError) (hq : Decision p.disarm q) :
      Move K due p .timer q
  | timerNothing (hidle : p.ignores K due .timer = false)
      (hstate : p.state = .noServer ∨ p.state = .idle ∨ p.state = .denied) :
      Move K due p .timer p.disarm
  | manual {tok : CStr} (hfits : p.ignores K due (.manualToken tok) = false) :
      Move K due p (.manualToken tok) (p.onManualToken (.print tok))
  | retryRequest (hidle : p.ignores K due .retry = false)
      (hstate : p.state = .denied ∨ p.state = .open_) :
      Move K due p .retry (p.keep p.store.withoutPending).request
  | retryDecide {q : Pairing} (hidle : p.ignores K due .retry = false)
      (hstate : p.state ≠ .denied ∧ p.state ≠ .open_) (hq : Decision p q) : Move K due p .retry q
  | certError {reason : Option CStr} (hidle : p.ignores K due (.certError reason) = false) :
      Move K due p (.certError reason) (p.settle.await .certError)

section Move

variable (K : Kconfig) (due : Bool) (p : Pairing)

theorem takeOver_bySelf (srv : Option Server) (h : (p.takeOver srv).server.bySelf = true) :
    (p.takeOver srv).hasServer = true := by
  cases srv with
  | none => cases h
  | some s => rfl

theorem settle_of_not_busy {p : Pairing} (hbusy : p.busy = false) : p.settle = p := by
  cases p
  simp_all [settle]

theorem onAnswer_move {e : Event} {q : Pairing} (he : e.isResult = true)
    (hq : p.live e = true → Move K due p e q) : Move K due p e (p.onAnswer e q) := by
  unfold onAnswer
  split
  · rename_i hstale
    obtain ⟨hreeval, hbusy⟩ := (Bool.and_eq_true _ _).mp hstale
    exact .stale he hreeval hbusy (evaluate_decision _)
  · rename_i hfresh
    have hlive : p.live e = (p.busy && expects p.state e) := by
      unfold live
      cases hbusy : p.busy <;> simp_all
    rw [← hlive]
    split
    · rename_i hawaited
      have hfresh : (p.reeval && p.busy) = false := by simpa using hfresh
      have hignores : p.ignores K due e = (!p.live e && !(p.reeval && p.busy)) := by
        cases e <;> first | rfl | cases he
      apply Move.ignored
      rw [hignores, hawaited, hfresh]
      rfl
    · rename_i hawaited
      exact hq (by simpa using hawaited)

theorem requestAnswered_move (r : HttpResult) (hlive : p.live (.requestResult r) = true) :
    Move K due p (.requestResult r) (p.requestAnswered r.requestAnswer) := by
  unfold requestAnswered
  cases hanswer : r.requestAnswer with
  | certRefused => exact .certRefused hlive (by grind [HttpResult.requestAnswer, Event.certRefused])
  | pending href => exact .pending hlive hanswer
  | securityOff => exact .securityOff hlive hanswer
  | disabled => exact .disabled hlive hanswer
  | trouble => exact .trouble hlive hanswer

theorem pollAnswered_move (r : HttpResult) (hlive : p.live (.pollResult r) = true) :
    Move K due p (.pollResult r) (p.pollAnswered (r.pollAnswer K)) := by
  unfold pollAnswered
  cases hanswer : r.pollAnswer K with
  | certRefused => exact .certRefused hlive (by grind [HttpResult.pollAnswer, Event.certRefused])
  | pending => exact .stillPending hlive hanswer
  | granted token => exact .granted hlive hanswer
  | refused => exact .refused hlive hanswer
  | lost =>
    dsimp only
    split
    · rename_i hself
      exact .trouble hlive (.inr ⟨hanswer, hself⟩)
    · rename_i hself
      exact .lost hlive hanswer (by simpa using hself)
  | trouble => exact .trouble hlive (.inl hanswer)

theorem refuse_move {e : Event} (hrefuses : p.refuses e = true) :
    Move K due p e p.settle.refuse := by
  have hcounted (htls : p.server.tls = false) : p.settle.counted.streak = p.streak + 1 := by
    simp [htls]
  unfold refuse
  split
  · rename_i hfirst
    have htls : p.server.tls = false := by simp_all
    have hstreak : p.streak = 0 := by
      rw [hcounted htls] at hfirst
      simp at hfirst
      omega
    exact .secondOpinion hrefuses htls hstreak
  · rename_i hsecond
    have hstreak : p.server.tls = true ∨ p.streak ≠ 0 := by
      cases htls : p.server.tls with
      | true => exact .inl rfl
      | false =>
        refine .inr fun hstreak => hsecond ?_
        simp [htls, hstreak]
    split
    · rename_i hself
      exact .standInRefuses hrefuses hstreak hself
    · rename_i hself
      exact .forget hrefuses hstreak (by simpa using hself)

theorem verifyAnswered_move (r : HttpResult) (hlive : p.live (.verifyResult r) = true) :
    Move K due p (.verifyResult r) (p.verifyAnswered r.verifyAnswer) := by
  unfold verifyAnswered
  cases hanswer : r.verifyAnswer with
  | certRefused => exact .certRefused hlive (by grind [HttpResult.verifyAnswer, Event.certRefused])
  | works self =>
    dsimp only
    split
    · rename_i hopen
      exact .stillOpen hlive hanswer hopen
    · rename_i hopen
      exact .verified hlive hanswer hopen
  | unauthorized =>
    dsimp only
    split
    · rename_i hopen
      exact .securityOn hlive hanswer hopen
    · rename_i hopen
      exact refuse_move K due p (by simp [refuses, hlive, hanswer, hopen])
  | trouble => exact .trouble hlive hanswer

theorem onTimer_move : Move K due p .timer (p.onTimer due) := by
  unfold onTimer
  split
  · rename_i hidle
    exact .ignored hidle
  · rename_i hidle
    have hidle : p.ignores K due .timer = false := by simpa [ignores] using hidle
    dsimp only
    cases hstate : p.state with
    | requested => exact .timerPoll hidle hstate
    | approved =>
      have hmove := Move.timerCheck hidle (.inl hstate)
      rwa [hstate] at hmove
    | verifying =>
      have hmove := Move.timerCheck hidle (.inr hstate)
      rwa [hstate] at hmove
    | open_ => exact .timerOpen hidle hstate
    | error => exact .timerDecide hidle (.inl hstate) (evaluate_decision _)
    | certError => exact .timerDecide hidle (.inr hstate) (evaluate_decision _)
    | noServer => exact .timerNothing hidle (.inl hstate)
    | idle => exact .timerNothing hidle (.inr (.inl hstate))
    | denied => exact .timerNothing hidle (.inr (.inr hstate))

theorem onServer_move (srv : Option Server) : Move K due p (.server srv) (p.onServer srv) := by
  have htake (hother : p.sameServer srv = false) :
      Move K due p (.server srv)
        (if p.busy then (p.takeOver srv).lookAgain else (p.takeOver srv).evaluate) := by
    split
    · rename_i hbusy
      exact .postpone hother hbusy
    · rename_i hbusy
      exact .replace hother (by simpa using hbusy) (evaluate_decision _)
  cases srv with
  | none => exact htake rfl
  | some s =>
    unfold onServer
    cases hsame : p.sameServer (some s) with
    | true => exact .refresh hsame
    | false => exact htake hsame

theorem onRetry_move : Move K due p .retry p.onRetry := by
  unfold onRetry
  split
  · rename_i hidle
    exact .ignored hidle
  · rename_i hidle
    have hidle : p.ignores K due .retry = false := by simpa [ignores] using hidle
    split
    · rename_i hstate
      exact .retryRequest hidle hstate
    · rename_i hstate
      exact .retryDecide hidle (by simpa using hstate) (evaluate_decision _)

theorem onUnauthorized_move : Move K due p .unauthorized p.onUnauthorized := by
  unfold onUnauthorized
  split
  · rename_i h
    have hbusy : p.busy = false := by simpa using h.2
    have hmove := refuse_move K due p (e := .unauthorized) (by simp [refuses, h.1, hbusy])
    rwa [settle_of_not_busy hbusy] at hmove
  · apply Move.ignored
    cases hbusy : p.busy <;> simp_all [ignores]

theorem onCertError_move (reason : Option CStr) :
    Move K due p (.certError reason) p.onCertError := by
  unfold onCertError
  split
  · rename_i hstate
    apply Move.certError
    rcases hstate with hstate | hstate | hstate <;> simp [ignores, hstate]
  · apply Move.ignored
    simp_all [ignores]

-- The moves are all an event can do.
theorem on_move (e : Event) : Move K due p e (p.on K due e) := by
  cases e with
  | start =>
    change Move K due p .start (if p.started then p else p.begin.evaluate)
    split
    · rename_i hstarted
      exact .ignored hstarted
    · rename_i hstarted
      exact .start (by simpa using hstarted) (evaluate_decision _)
  | stop => exact .stop
  | server srv => exact onServer_move K due p srv
  | requestResult r => exact onAnswer_move K due p rfl (requestAnswered_move K due p r)
  | pollResult r => exact onAnswer_move K due p rfl (pollAnswered_move K due p r)
  | verifyResult r => exact onAnswer_move K due p rfl (verifyAnswered_move K due p r)
  | timer => exact onTimer_move K due p
  | manualToken tok =>
    change Move K due p _
      (if tok.isEmpty || !tokenFits K tok then p else p.onManualToken (.print tok))
    split
    · rename_i hfits
      exact .ignored hfits
    · rename_i hfits
      exact .manual (by simpa [ignores] using hfits)
  | retry => exact onRetry_move K due p
  | unauthorized => exact onUnauthorized_move K due p
  | config cfg =>
    cases cfg with
    | none => exact .ignored rfl
    | some c => exact .config c
  | certError reason => exact onCertError_move K due p reason

end Move

end Pairing

end Espos.Sk.Token
