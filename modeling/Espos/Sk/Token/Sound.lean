import Espos.Lib.Run
import Espos.Sk.Token.Moves
import Espos.Sk.Token.Refinement

namespace Espos.Sk.Token

open Espos.Text Espos.Run

namespace Pairing

-- What holds in every state the machine can reach, whatever events arrive.
structure Sound (K : Kconfig) (p : Pairing) : Prop where
  fits : tokenFits K p.store.token.chars = true
  token : p.state = .verifying ∨ p.state = .approved → p.store.token.isEmpty = false
  bySelf : p.server.bySelf = true → p.hasServer = true
  waiting : p.busy = true → p.state ∈ [.noServer, .idle, .requested, .verifying, .approved]
  -- Before a start the machine may ask a server that is gone for access.
  asked : p.busy = true → p.reeval = false → p.state ≠ .noServer →
    p.started = true ∨ p.state ≠ .idle → p.hasServer = true
  alone : p.started = true → p.busy = false → p.hasServer = false →
    p.state = .noServer ∨ p.state = .certError
  waits : p.started = true → p.busy = false → p.hasServer = true →
    p.armed = true ∧ p.state ≠ .noServer ∧ p.state ≠ .idle ∨ p.state = .denied
  pending : p.state = .requested →
    p.started = true ∧ p.busy = false ∨ p.busy = true ∧ p.reeval = false →
      p.store.pendingHref.isEmpty = false
  clean : p.state ∈ [.idle, .verifying, .approved, .open_] → p.store.pendingHref.isEmpty = true

variable {K : Kconfig} {p q : Pairing}

-- The states the actions and the waits lead to, each with what it needs.

theorem poll_sound (hfits : tokenFits K p.store.token.chars = true) (hserver : p.hasServer = true)
    (hpending : p.store.pendingHref.isEmpty = false) : Sound K p.poll where
  fits := hfits
  token := by simp
  bySelf _ := hserver
  waiting := by simp
  asked _ _ _ _ := hserver
  alone := by simp
  waits := by simp
  pending _ _ := hpending
  clean := by simp

theorem request_sound (hfits : tokenFits K p.store.token.chars = true)
    (hself : p.server.bySelf = true → p.hasServer = true)
    (hserver : p.started = true → p.hasServer = true)
    (hclean : p.store.pendingHref.isEmpty = true) : Sound K p.request where
  fits := hfits
  token := by simp
  bySelf := hself
  waiting := by simp
  asked _ _ _ h := hserver (h.resolve_right (by simp))
  alone := by simp
  waits := by simp
  pending := by simp
  clean _ := hclean

theorem verify_sound {s : State} (hs : s = .approved ∨ s = .verifying)
    (hfits : tokenFits K p.store.token.chars = true) (hserver : p.hasServer = true)
    (htoken : p.store.token.isEmpty = false) (hclean : p.store.pendingHref.isEmpty = true) :
    Sound K (p.verify s) where
  fits := hfits
  token _ := htoken
  bySelf _ := hserver
  waiting _ := by rcases hs with rfl | rfl <;> simp
  asked _ _ _ _ := hserver
  alone := by simp
  waits := by simp
  pending h := by rcases hs with rfl | rfl <;> cases h
  clean _ := hclean

theorem approve_sound (hfits : tokenFits K p.store.token.chars = true)
    (hserver : p.hasServer = true) (htoken : p.store.token.isEmpty = false)
    (hclean : p.store.pendingHref.isEmpty = true) : Sound K p.approve where
  fits := hfits
  token _ := htoken
  bySelf _ := hserver
  waiting := by simp
  asked _ _ _ _ := hserver
  alone _ _ h := by simp [hserver] at h
  waits := by simp
  pending := by simp
  clean _ := hclean

-- A wait for the timer, or for somebody outside, in a state that is neither a
-- check of the token nor a pending request.
theorem wait_sound (hs : p.state = .error ∨ p.state = .certError ∨ p.state = .denied)
    (hfits : tokenFits K p.store.token.chars = true)
    (hself : p.server.bySelf = true → p.hasServer = true) (hbusy : p.busy = false)
    (hserver : p.started = true → p.hasServer = true ∨ p.state = .certError)
    (harmed : p.armed = true ∨ p.state = .denied) : Sound K p where
  fits := hfits
  token h := by rcases hs with hs | hs | hs <;> simp [hs] at h
  bySelf := hself
  waiting := by simp [hbusy]
  asked := by simp [hbusy]
  alone hstarted _ hnone := by
    rcases hserver hstarted with h | h
    · rw [h] at hnone
      cases hnone
    · exact .inr h
  waits _ _ _ := by rcases hs with hs | hs | hs <;> simp_all
  pending h := by rcases hs with hs | hs | hs <;> simp [hs] at h
  clean h := by rcases hs with hs | hs | hs <;> simp [hs] at h

theorem open_sound (hs : p.state = .open_) (hfits : tokenFits K p.store.token.chars = true)
    (hself : p.server.bySelf = true → p.hasServer = true) (hbusy : p.busy = false)
    (hserver : p.started = true → p.hasServer = true) (harmed : p.armed = true)
    (hclean : p.store.pendingHref.isEmpty = true) : Sound K p where
  fits := hfits
  token := by simp [hs]
  bySelf := hself
  waiting := by simp [hbusy]
  asked := by simp [hbusy]
  alone hstarted _ hnone := by simp [hserver hstarted] at hnone
  waits := by simp [hs, harmed]
  pending := by simp [hs]
  clean _ := hclean

theorem requested_sound (hs : p.state = .requested)
    (hfits : tokenFits K p.store.token.chars = true)
    (hself : p.server.bySelf = true → p.hasServer = true) (hbusy : p.busy = false)
    (hserver : p.started = true → p.hasServer = true) (harmed : p.armed = true)
    (hpending : p.store.pendingHref.isEmpty = false) : Sound K p where
  fits := hfits
  token := by simp [hs]
  bySelf := hself
  waiting := by simp [hbusy]
  asked := by simp [hbusy]
  alone hstarted _ hnone := by simp [hserver hstarted] at hnone
  waits := by simp [hs, harmed]
  pending _ _ := hpending
  clean := by simp [hs]

-- An update that leaves all of this alone; it may arm the timer.
theorem Sound.congr (h : Sound K p) (htoken : q.store.token = p.store.token)
    (hpending : q.store.pendingHref = p.store.pendingHref) (hstate : q.state = p.state)
    (hself : q.server.bySelf = true → q.hasServer = true) (hserver : q.hasServer = p.hasServer)
    (hbusy : q.busy = p.busy) (hstarted : q.started = p.started) (hreeval : q.reeval = p.reeval)
    (harmed : p.armed = true → q.armed = true) : Sound K q where
  fits := by rw [htoken]; exact h.fits
  token := by rw [htoken, hstate]; exact h.token
  bySelf := hself
  waiting := by rw [hbusy, hstate]; exact h.waiting
  asked := by rw [hbusy, hreeval, hstate, hstarted, hserver]; exact h.asked
  alone := by rw [hstarted, hbusy, hserver, hstate]; exact h.alone
  waits := by
    rw [hstarted, hbusy, hserver, hstate]
    intro h₁ h₂ h₃
    exact (h.waits h₁ h₂ h₃).imp_left fun hw => ⟨harmed hw.1, hw.2⟩
  pending := by rw [hstate, hstarted, hbusy, hreeval, hpending]; exact h.pending
  clean := by rw [hstate, hpending]; exact h.clean

-- A machine that nothing drives: stopped, or busy with an answer it will drop.
theorem Sound.congr_of_idle (h : Sound K p) (htoken : q.store.token = p.store.token)
    (hpending : q.store.pendingHref = p.store.pendingHref) (hstate : q.state = p.state)
    (hself : q.server.bySelf = true → q.hasServer = true)
    (hidle : (q.started = false ∧ q.busy = false) ∨
      (q.busy = true ∧ p.busy = true ∧ q.reeval = true)) : Sound K q where
  fits := by rw [htoken]; exact h.fits
  token := by rw [htoken, hstate]; exact h.token
  bySelf := hself
  waiting hbusy := by
    rcases hidle with hidle | hidle
    · simp [hidle] at hbusy
    · rw [hstate]
      exact h.waiting hidle.2.1
  asked hbusy hreeval := by
    rcases hidle with hidle | hidle
    · simp [hidle] at hbusy
    · simp [hidle] at hreeval
  alone hstarted hbusy := by
    rcases hidle with hidle | hidle
    · simp [hidle] at hstarted
    · simp [hidle] at hbusy
  waits hstarted hbusy := by
    rcases hidle with hidle | hidle
    · simp [hidle] at hstarted
    · simp [hidle] at hbusy
  pending _ hlive := by rcases hidle with hidle | hidle <;> simp [hidle] at hlive
  clean := by rw [hstate, hpending]; exact h.clean

theorem Decision.sound (hq : Decision p q) (hself : p.server.bySelf = true → p.hasServer = true)
    (hfits : tokenFits K p.store.token.chars = true)
    (hstopped : p.started = false → Sound K p) : Sound K q := by
  have hdropped : tokenFits K p.dropForeign.store.token.chars = true := by simpa using hfits
  cases hq with
  | stopped hstarted => exact hstopped hstarted
  | alone hstarted hserver =>
    exact ⟨hfits, by simp, hself, by simp, by simp, by simp, by simp [hserver], by simp, by simp⟩
  | poll hstarted hserver hpending hsame => exact poll_sound hfits hserver hpending
  | approve hstarted hserver hforeign husable htls =>
    refine approve_sound hdropped (by simpa using hserver) ?_ (by simp)
    simp_all [usable]
  | verify hstarted hserver hforeign husable htls =>
    refine verify_sound (.inr rfl) hdropped (by simpa using hserver) ?_ (by simp)
    simp_all [usable]
  | request hstarted hserver hforeign husable =>
    exact request_sound hdropped (by simpa using hself) (by simp [hserver]) (by simp)

theorem tokenFits_empty (K : Kconfig) : tokenFits K (Buf.empty : Buf 1024).chars = true := by
  have hrange := K.skTokenMax_range
  have hpos : 0 < K.skTokenMax := by omega
  exact decide_eq_true hpos

theorem tokenFits_print {tok : CStr} (h : tokenFits K tok = true) :
    tokenFits K (Buf.print tok : Buf 1024).chars = true := by
  have hlt : tok.length < K.skTokenMax := of_decide_eq_true h
  have hle : (tok.take 1023).length ≤ tok.length := List.length_take_le' _ _
  exact decide_eq_true (Nat.lt_of_le_of_lt hle hlt)

theorem Sound.hasServer_of_live {e : Event} (h : Sound K p) (hlive : p.live e = true)
    (hstate : p.started = true ∨ p.state ≠ .idle) : p.hasServer = true := by
  obtain ⟨hbusy, hreeval, hexpects⟩ := live_iff.mp hlive
  exact h.asked hbusy hreeval (expects_ne hexpects).1 hstate

theorem Sound.hasServer_of_refuses {e : Event} (h : Sound K p) (hrefuses : p.refuses e = true)
    (hstarted : p.started = true) : p.hasServer = true := by
  obtain ⟨hstate, hreeval⟩ := state_of_refuses hrefuses
  by_contra hnone
  cases hbusy : p.busy with
  | true =>
    refine hnone (h.asked hbusy (hreeval hbusy) ?_ (.inl hstarted))
    rcases hstate with hstate | hstate <;> simp [hstate]
  | false =>
    have halone := h.alone hstarted hbusy (by simpa using hnone)
    rcases hstate with hstate | hstate <;> simp [hstate] at halone

theorem Sound.hasServer_of_ne (h : Sound K p) (hstarted : p.started = true)
    (hbusy : p.busy = false) (hne : p.state ≠ .noServer) (hne' : p.state ≠ .certError) :
    p.hasServer = true := by
  by_contra hnone
  rcases h.alone hstarted hbusy (by simpa using hnone) with hstate | hstate
  · exact hne hstate
  · exact hne' hstate

theorem href_of_pending {r : HttpResult} {href : Buf 128}
    (h : r.requestAnswer = .pending href) : href.isEmpty = false := by
  unfold HttpResult.requestAnswer at h
  split_ifs at h with _ hstatus
  cases h
  simpa using hstatus.2

theorem token_of_grant {r : HttpResult} {token : Buf 1024} (h : r.pollAnswer K = .granted token) :
    token.isEmpty = false ∧ tokenFits K token.chars = true := by
  unfold HttpResult.pollAnswer at h
  split_ifs at h with _ _ _ _ hgrants
  cases h
  unfold grantsToken at hgrants
  simp at hgrants
  exact ⟨hgrants.1.2, hgrants.2⟩

-- A manual token is stored at once; who checks it depends on the moment.
theorem onManualToken_sound (h : Sound K p) {token : Buf 1024} (hnew : token.isEmpty = false)
    (hfits : tokenFits K token.chars = true) : Sound K (p.onManualToken token) := by
  have hnotRequested (hnone : p.hasServer = false) (hstate : p.state = .requested) :
      ¬(p.started = true ∧ p.busy = false ∨ p.busy = true ∧ p.reeval = false) := by
    rintro (⟨hstarted, hbusy⟩ | ⟨hbusy, hreeval⟩)
    · have halone := h.alone hstarted hbusy hnone
      simp [hstate] at halone
    · have hserver := h.asked hbusy hreeval (by simp [hstate]) (.inr (by simp [hstate]))
      simp [hnone] at hserver
  unfold onManualToken
  generalize (if p.hasServer then p.server else Server.none) = srv
  dsimp only
  split
  · rename_i hnone
    have hnone : p.hasServer = false := by simpa using hnone
    exact ⟨hfits, fun _ => hnew, h.bySelf, h.waiting, h.asked, h.alone,
      fun _ _ hserver => by simp [hnone] at hserver,
      fun hstate hlive => absurd hlive (hnotRequested hnone hstate), fun _ => rfl⟩
  · rename_i hserver
    have hserver : p.hasServer = true := by simpa using hserver
    split
    · rename_i hbusy
      exact ⟨hfits, fun _ => hnew, h.bySelf, h.waiting, by simp, by simp [hbusy], by simp [hbusy],
        by simp [hbusy], fun _ => rfl⟩
    · exact verify_sound (.inr rfl) hfits hserver hnew rfl

theorem Move.sound {due : Bool} {e : Event} (hm : Move K due p e q) (h : Sound K p) :
    Sound K q := by
  cases hm with
  | ignored _ => exact h
  | start hstarted hq => exact hq.sound h.bySelf h.fits (by simp)
  | stop => exact ⟨h.fits, by simp, h.bySelf, by simp, by simp, by simp, by simp, by simp, by simp⟩
  | config c => exact h.congr rfl rfl rfl h.bySelf rfl rfl rfl rfl (by simp +contextual)
  | @refresh s hsame =>
    have hserver : p.hasServer = true := by simp_all [sameServer]
    unfold Pairing.refresh
    dsimp only
    split <;> exact h.congr rfl rfl rfl (fun _ => hserver) rfl rfl rfl rfl id
  | @postpone srv hother hbusy =>
    exact h.congr_of_idle rfl rfl rfl (takeOver_bySelf p srv) (.inr ⟨hbusy, hbusy, rfl⟩)
  | @replace srv _ hother hbusy hq =>
    have htake := takeOver_bySelf p srv
    exact hq.sound htake h.fits fun hstopped =>
      h.congr_of_idle rfl rfl rfl htake (.inl ⟨hstopped, hbusy⟩)
  | stale he hreeval hbusy hq =>
    exact hq.sound h.bySelf h.fits fun hstopped =>
      h.congr_of_idle rfl rfl rfl h.bySelf (.inl ⟨hstopped, rfl⟩)
  | certRefused hlive hcert =>
    exact wait_sound (.inr (.inl rfl)) h.fits h.bySelf rfl (fun _ => .inr rfl) (.inl rfl)
  | trouble hlive htrouble =>
    exact wait_sound (.inl rfl) h.fits h.bySelf rfl
      (fun hstarted => .inl (h.hasServer_of_live hlive (.inl hstarted))) (.inl rfl)
  | pending hlive hanswer =>
    exact requested_sound rfl h.fits h.bySelf rfl
      (fun hstarted => h.hasServer_of_live hlive (.inl hstarted)) rfl (href_of_pending hanswer)
  | securityOff hlive hanswer =>
    have hstate := idle_of_live hlive
    exact open_sound rfl h.fits h.bySelf rfl
      (fun hstarted => h.hasServer_of_live hlive (.inl hstarted)) rfl (h.clean (by simp [hstate]))
  | disabled hlive hanswer =>
    exact wait_sound (.inr (.inr rfl)) h.fits h.bySelf rfl
      (fun hstarted => .inl (h.hasServer_of_live hlive (.inl hstarted))) (.inr rfl)
  | stillPending hlive hanswer =>
    obtain ⟨hbusy, hreeval, _⟩ := live_iff.mp hlive
    have hstate := requested_of_live hlive
    exact requested_sound hstate h.fits h.bySelf rfl
      (fun hstarted => h.hasServer_of_live hlive (.inl hstarted)) rfl
      (h.pending hstate (.inr ⟨hbusy, hreeval⟩))
  | granted hlive hanswer =>
    have hstate := requested_of_live hlive
    obtain ⟨hnew, hfits⟩ := token_of_grant hanswer
    exact verify_sound (.inr rfl) hfits
      (h.hasServer_of_live hlive (.inr (by simp [hstate]))) hnew rfl
  | refused hlive hanswer =>
    exact wait_sound (.inr (.inr rfl)) h.fits h.bySelf rfl
      (fun hstarted => .inl (h.hasServer_of_live hlive (.inl hstarted))) (.inr rfl)
  | lost hlive hanswer hself =>
    exact request_sound h.fits h.bySelf
      (fun hstarted => h.hasServer_of_live hlive (.inl hstarted)) rfl
  | stillOpen hlive hanswer hopen =>
    have hwaiting := h.waiting (live_iff.mp hlive).1
    simp [hopen] at hwaiting
  | verified hlive hanswer hopen =>
    have hstate : p.state = .verifying ∨ p.state = .approved := by
      simpa [expects, hopen] using (live_iff.mp hlive).2.2
    have hserver : p.hasServer = true :=
      h.hasServer_of_live hlive (.inr (by rcases hstate with hs | hs <;> simp [hs]))
    have hclean : p.store.pendingHref.isEmpty = true :=
      h.clean (by rcases hstate with hs | hs <;> simp [hs])
    exact approve_sound (p := (p.settle.forgive.learnSelf _).keepNew _) h.fits hserver
      (h.token hstate) hclean
  | securityOn hlive hanswer hopen =>
    have hwaiting := h.waiting (live_iff.mp hlive).1
    simp [hopen] at hwaiting
  | secondOpinion hrefuses htls hstreak =>
    have hstate := (state_of_refuses hrefuses).1
    refine ⟨h.fits, h.token, h.bySelf, by simp, by simp, fun hstarted _ hnone => ?_,
      fun _ _ _ => ?_, fun hs => ?_, h.clean⟩
    · exact absurd (h.hasServer_of_refuses hrefuses hstarted) (by simpa using hnone)
    · rcases hstate with hs | hs <;> simp [hs]
    · rcases hstate with hs' | hs' <;> simp [hs'] at hs
  | standInRefuses hrefuses hstreak hself =>
    exact wait_sound (.inl rfl) h.fits h.bySelf rfl
      (fun hstarted => .inl (h.hasServer_of_refuses hrefuses hstarted)) (.inl rfl)
  | forget hrefuses hstreak hself =>
    have hstate := (state_of_refuses hrefuses).1
    exact request_sound (tokenFits_empty K) h.bySelf
      (fun hstarted => h.hasServer_of_refuses hrefuses hstarted)
      (h.clean (by rcases hstate with hs | hs <;> simp [hs]))
  | timerPoll hidle hstate =>
    obtain ⟨hstarted, hbusy⟩ := ready_of_timer hidle
    refine poll_sound h.fits ?_ (h.pending hstate (.inl ⟨hstarted, hbusy⟩))
    exact h.hasServer_of_ne hstarted hbusy (by simp [hstate]) (by simp [hstate])
  | timerCheck hidle hstate =>
    obtain ⟨hstarted, hbusy⟩ := ready_of_timer hidle
    have hserver := h.hasServer_of_ne hstarted hbusy
      (by rcases hstate with hs | hs <;> simp [hs]) (by rcases hstate with hs | hs <;> simp [hs])
    exact verify_sound hstate h.fits hserver (h.token hstate.symm)
      (h.clean (by rcases hstate with hs | hs <;> simp [hs]))
  | timerOpen hidle hstate =>
    obtain ⟨hstarted, hbusy⟩ := ready_of_timer hidle
    exact request_sound h.fits h.bySelf
      (fun _ => h.hasServer_of_ne hstarted hbusy (by simp [hstate]) (by simp [hstate]))
      (h.clean (by simp [hstate]))
  | timerDecide hidle hstate hq =>
    refine hq.sound h.bySelf h.fits ?_
    simp [(ready_of_timer hidle).1]
  | timerNothing hidle hstate =>
    obtain ⟨hstarted, hbusy⟩ := ready_of_timer hidle
    refine ⟨h.fits, h.token, h.bySelf, h.waiting, h.asked, h.alone, fun _ _ hserver => ?_,
      h.pending, h.clean⟩
    rcases h.waits hstarted hbusy hserver with hwaits | hdenied
    · simp [hwaits] at hstate
      exact .inr hstate
    · exact .inr hdenied
  | @manual tok hidle =>
    have htok : tok.isEmpty = false ∧ tokenFits K tok = true := by simpa [ignores] using hidle
    refine onManualToken_sound h ?_ (tokenFits_print htok.2)
    rw [Buf.isEmpty_print tok (by decide)]
    exact htok.1
  | retryRequest hidle hstate =>
    obtain ⟨_, hserver, _⟩ := ready_of_retry hidle
    exact request_sound h.fits h.bySelf (fun _ => hserver) rfl
  | retryDecide hidle hstate hq =>
    refine hq.sound h.bySelf h.fits ?_
    simp [(ready_of_retry hidle).1]
  | certError hidle =>
    exact wait_sound (.inr (.inl rfl)) h.fits h.bySelf rfl (fun _ => .inr rfl) (.inl rfl)

theorem Sound.forgetCalls (h : Sound K p) : Sound K p.forgetCalls :=
  ⟨h.fits, h.token, h.bySelf, h.waiting, h.asked, h.alone, h.waits, h.pending, h.clean⟩

end Pairing

variable {K : Kconfig}

-- A machine fresh from `init` has done nothing yet.
theorem init_quiet (cfg : Cfg) (store : Option Store) :
    (init K cfg store).st.busy = false ∧ (init K cfg store).st.state = .noServer ∧
      (init K cfg store).st.hasServer = false ∧ (init K cfg store).started = false ∧
      (init K cfg store).plainUnauthStreak = 0 ∧ (init K cfg store).st.server = .none := by
  unfold init
  dsimp only
  split <;> exact ⟨rfl, rfl, rfl, rfl, rfl, rfl⟩

theorem sound_init (cfg : Cfg) (store : Option Store) : (view (init K cfg store)).Sound K := by
  unfold init
  dsimp only
  split
  · rename_i hfits
    constructor <;> simp_all [view, resetBackoffs, showStored, blank, Server.none]
  · constructor <;>
      simp [view, resetBackoffs, showStored, blank, Server.none, setError, save, clearToken,
        setStore, Pairing.tokenFits_empty]

theorem sound_step (sm : Machine) (input : Env × Event) (h : (view sm).Sound K) :
    (view (step K sm input)).Sound K := by
  rw [view_step]
  exact (Pairing.on_move K _ _ _).sound h.forgetCalls

theorem sound_run (cfg : Cfg) (store : Option Store) (inputs : List (Env × Event)) :
    (view (run (step K) (init K cfg store) inputs)).Sound K :=
  run_invariant (P := fun sm => (view sm).Sound K) sound_step (sound_init cfg store) inputs

end Espos.Sk.Token
