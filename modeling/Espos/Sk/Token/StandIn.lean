import Espos.Sk.Token.Persistence

-- A stand-in is a server that was chosen for its self URN alone, while ours is
-- silent. What the machine does about its answers, and what that costs.

namespace Espos.Sk.Token

open Espos.Text Espos.Run

-- The events a stand-in, or the passing of time, can cause.
def Event.fromOutside : Event → Bool
  | .requestResult _ | .pollResult _ | .verifyResult _ => true
  | .unauthorized | .certError _ | .timer => true
  | _ => false

-- The request is decided, and not in a way that gives us a token to keep.
def decidedAgainst (K : Kconfig) (r : HttpResult) : Bool :=
  !r.certError && (r.httpStatus == 200 || r.httpStatus == 202) &&
    r.state.chars == lit "COMPLETED" && !grantsToken K r

section Machine

variable (K : Kconfig) (env : Env) (sm : Machine)

-- The machine handles the answer to the poll it waits for.
def awaitsPoll : Bool :=
  sm.st.busy && !sm.reeval && sm.st.state == .requested

def timerFires : Bool :=
  sm.started && !sm.st.busy && sm.timerDueMs != 0 && reached env.now sm.timerDueMs

-- The event makes the machine decide anew what to do for its server.
def reevaluates : Event → Bool
  | .timer => timerFires env sm && (sm.st.state == .error || sm.st.state == .certError)
  | e => e.isResult && sm.reeval && sm.st.busy

-- Deciding anew ends in a poll of the pending request or a check of the token.
def keepsPairing : Bool :=
  !sm.started ||
    (if sm.store.pendingHref.isEmpty then
      !sm.store.token.isEmpty && tokenApplicable sm.store sm.st.server
    else pendingSame sm.store sm.st.server)

-- The pending request became a stored token.
def BecameToken (e : Event) (sm' : Machine) : Prop :=
  ∃ r, e = .pollResult r ∧ awaitsPoll sm = true ∧ r.pollAnswer K = .granted r.token ∧
    sm'.store.token = r.token

-- The event costs nothing of the pairing.
def Spared (e : Event) (sm' : Machine) : Prop :=
  (sm'.store.token = sm.store.token ∨ BecameToken K sm e sm') ∧
    (sm.store.pendingHref.isEmpty = true ∨ sm'.store.pendingHref = sm.store.pendingHref ∨
      BecameToken K sm e sm') ∧
    ∀ srv cfg, .request srv cfg ∉ actions sm'

-- The three ways a stand-in's answer is taken for our server's are not met.
def Harmless (e : Event) : Prop :=
  (∀ r, e = .pollResult r → awaitsPoll sm = true → decidedAgainst K r = false) ∧
    (e = .timer → timerFires env sm = true → sm.st.state ≠ .open_) ∧
    (reevaluates env sm e = true → keepsPairing sm = true)

end Machine

namespace Pairing

variable (K : Kconfig) (due : Bool) (p : Pairing)

def fires : Bool :=
  p.started && !p.busy && p.armed && due

def redecides : Event → Bool
  | .timer => p.fires due && (p.state == .error || p.state == .certError)
  | e => e.isResult && p.reeval && p.busy

def keepsPairing : Bool :=
  !p.started ||
    (if p.store.pendingHref.isEmpty then p.usable else pendingSame p.store p.server)

def BecameToken (e : Event) (q : Pairing) : Prop :=
  ∃ r, e = .pollResult r ∧ p.live e = true ∧ r.pollAnswer K = .granted r.token ∧
    q.store.token = r.token

def Spared (e : Event) (q : Pairing) : Prop :=
  (q.store.token = p.store.token ∨ p.BecameToken K e q) ∧
    (p.store.pendingHref.isEmpty = true ∨ q.store.pendingHref = p.store.pendingHref ∨
      p.BecameToken K e q) ∧
    ∀ srv cfg, .request srv cfg ∉ q.issued

def Harmless (e : Event) : Prop :=
  (∀ r, e = .pollResult r → p.live e = true → r.pollAnswer K ≠ .refused) ∧
    (e = .timer → p.fires due = true → p.state ≠ .open_) ∧
    (p.redecides due e = true → p.keepsPairing = true)

variable {K due p} {q : Pairing} {e : Event}

-- An update that leaves token and pending request alone.
theorem Spared.of_eq (htoken : q.store.token = p.store.token)
    (hpending : q.store.pendingHref = p.store.pendingHref)
    (hquiet : ∀ srv cfg, .request srv cfg ∉ q.issued) : p.Spared K e q :=
  ⟨.inl htoken, .inr (.inl hpending), hquiet⟩

-- A pending request that is gone without a token.
theorem not_spared_of_pending (hpending : p.store.pendingHref.isEmpty = false)
    (hgone : q.store.pendingHref.isEmpty = true) (hlost : ¬p.BecameToken K e q) :
    ¬p.Spared K e q := by
  rintro ⟨_, hkept | hkept | hkept, _⟩
  · rw [hpending] at hkept
    cases hkept
  · rw [hkept, hpending] at hgone
    cases hgone
  · exact hlost hkept

theorem not_spared_of_request (srv : Server) (cfg : Cfg) (h : .request srv cfg ∈ q.issued) :
    ¬p.Spared K e q :=
  fun hspared => hspared.2.2 srv cfg h

-- Deciding anew spares the pairing exactly when it finds a use for it. `p₀` is
-- the state the event found.
theorem Decision.spared_iff {p₀ : Pairing} (hq : Decision p q) (hstore : p₀.store = p.store)
    (hserver : p.hasServer = true) (hissued : p.issued = []) (hlost : ¬p₀.BecameToken K e q) :
    p₀.Spared K e q ↔ p.keepsPairing = true := by
  have hpending (hforeign : p.store.pendingHref.isEmpty = false →
      pendingSame p.store p.server = false) (hp : p.store.pendingHref.isEmpty = false) :
      p.started = true → ¬p.keepsPairing = true := by
    simp [Pairing.keepsPairing, hp, hforeign hp]
  cases hq with
  | stopped hstarted =>
    have hkeeps : p.keepsPairing = true := by simp [Pairing.keepsPairing, hstarted]
    exact iff_of_true (.of_eq (by simp [hstore]) (by simp [hstore]) (by simp [hissued])) hkeeps
  | alone _ hnone =>
    rw [hserver] at hnone
    cases hnone
  | poll hstarted _ hp hsame =>
    have hkeeps : p.keepsPairing = true := by simp [Pairing.keepsPairing, hp, hsame]
    exact iff_of_true (.of_eq (by simp [hstore]) (by simp [hstore]) (by simp [hissued])) hkeeps
  | approve hstarted _ hforeign husable _ | verify hstarted _ hforeign husable _ =>
    by_cases hp : p.store.pendingHref.isEmpty = true
    · have hkeeps : p.keepsPairing = true := by simp [Pairing.keepsPairing, hp, husable]
      exact iff_of_true ⟨.inl (by simp [hstore]), .inl (by rwa [hstore]), by simp [hissued]⟩ hkeeps
    · rw [Bool.not_eq_true] at hp
      exact iff_of_false (not_spared_of_pending (by rwa [hstore]) (by simp) hlost)
        (hpending hforeign hp hstarted)
  | request hstarted _ hforeign husable =>
    refine iff_of_false (not_spared_of_request p.server p.cfg (by simp)) ?_
    by_cases hp : p.store.pendingHref.isEmpty = true
    · simp [Pairing.keepsPairing, hp, husable, hstarted]
    · rw [Bool.not_eq_true] at hp
      exact hpending hforeign hp hstarted

theorem harmless_of_ignores (h : p.ignores K due e = true) : p.Harmless K due e := by
  refine ⟨?_, ?_, ?_⟩
  · rintro r rfl hlive
    simp [ignores, hlive] at h
  · rintro rfl hfires
    simp_all [ignores, fires]
  · intro hredecides
    cases e <;> simp_all [ignores, redecides, fires, Event.isResult]

theorem harmless_of_live (hlive : p.live e = true)
    (hanswer : ∀ r, e = .pollResult r → r.pollAnswer K ≠ .refused) : p.Harmless K due e := by
  obtain ⟨hbusy, hreeval, _⟩ := live_iff.mp hlive
  refine ⟨fun r he _ => hanswer r he, ?_, ?_⟩
  · rintro _ hfires
    simp [fires, hbusy] at hfires
  · intro hredecides
    cases e <;> simp_all [redecides, fires]

theorem harmless_of_refuses (h : p.refuses e = true) : p.Harmless K due e := by
  cases e with
  | verifyResult r =>
    have hlive : p.live (.verifyResult r) = true := by simp_all [refuses]
    exact harmless_of_live hlive (by simp)
  | unauthorized => refine ⟨?_, ?_, ?_⟩ <;> simp [redecides, Event.isResult]
  | _ => cases h

theorem not_becameToken (h : p.live e = false) : ¬p.BecameToken K e q := by
  rintro ⟨r, _, hlive, _⟩
  rw [h] at hlive
  cases hlive

-- An answer that leaves token and pending request alone, and is no refusal.
theorem spared_iff_of_live (hlive : p.live e = true) (hspared : p.Spared K e q)
    (hanswer : ∀ r, e = .pollResult r → r.pollAnswer K ≠ .refused) :
    p.Spared K e q ↔ p.Harmless K due e :=
  iff_of_true hspared (harmless_of_live hlive hanswer)

theorem redecides_of_stale (he : e.isResult = true) (hreeval : p.reeval = true)
    (hbusy : p.busy = true) : p.redecides due e = true := by
  cases e <;> simp_all [redecides, Event.isResult]

theorem harmless_of_stale_iff (he : e.isResult = true) (hreeval : p.reeval = true)
    (hbusy : p.busy = true) : p.Harmless K due e ↔ p.keepsPairing = true := by
  have hlive : p.live e = false := by simp [live, hreeval]
  constructor
  · intro hharmless
    exact hharmless.2.2 (redecides_of_stale he hreeval hbusy)
  · intro hkeeps
    refine ⟨fun r _ h => ?_, fun h => ?_, fun _ => hkeeps⟩
    · rw [hlive] at h
      cases h
    · rw [h] at he
      cases he

theorem fires_of_not_ignores (h : p.ignores K due .timer = false) : p.fires due = true := by
  simp_all [ignores, fires]

theorem harmless_timer_iff (hfires : p.fires due = true) :
    p.Harmless K due .timer ↔
      p.state ≠ .open_ ∧ (p.state = .error ∨ p.state = .certError → p.keepsPairing = true) := by
  simp [Pairing.Harmless, redecides, hfires]

theorem Move.spared_iff (hm : Move K due p e q) (hsound : Sound K p) (hissued : p.issued = [])
    (hself : p.server.bySelf = true) (he : e.fromOutside = true) :
    p.Spared K e q ↔ p.Harmless K due e := by
  have hserver := hsound.bySelf hself
  have hnone : ∀ srv cfg, Action.request srv cfg ∉ p.issued := by simp [hissued]
  cases hm with
  | ignored h => exact iff_of_true (.of_eq rfl rfl hnone) (harmless_of_ignores h)
  | start _ _ => cases he
  | stop => cases he
  | config _ => cases he
  | refresh _ => cases he
  | postpone _ _ => cases he
  | replace _ _ _ => cases he
  | manual _ => cases he
  | retryRequest _ _ => cases he
  | retryDecide _ _ _ => cases he
  | stale he hreeval hbusy hq =>
    rw [harmless_of_stale_iff he hreeval hbusy]
    have hlive : p.live e = false := by simp [live, hreeval]
    exact hq.spared_iff rfl hserver hissued (not_becameToken hlive)
  | certRefused hlive hcert =>
    refine spared_iff_of_live hlive (.of_eq rfl rfl hnone) ?_
    rintro r rfl hanswer
    have hrefused : r.pollAnswer K = .certRefused := if_pos hcert
    rw [hrefused] at hanswer
    cases hanswer
  | trouble hlive htrouble =>
    refine spared_iff_of_live hlive (.of_eq rfl rfl hnone) ?_
    rintro r rfl
    rcases htrouble with hanswer | hanswer <;> simp [hanswer]
  | pending hlive _ =>
    have hclean := hsound.clean (by simp [idle_of_live hlive])
    exact spared_iff_of_live hlive ⟨.inl rfl, .inl hclean, hnone⟩ (by simp)
  | securityOff hlive _ => exact spared_iff_of_live hlive (.of_eq rfl rfl hnone) (by simp)
  | disabled hlive _ => exact spared_iff_of_live hlive (.of_eq rfl rfl hnone) (by simp)
  | stillPending hlive hanswer =>
    refine spared_iff_of_live hlive (.of_eq rfl rfl hnone) ?_
    rintro r ⟨⟩
    simp [hanswer]
  | @granted r token hlive hanswer =>
    have htoken : token = r.token := token_of_granted hanswer
    have hbecame : p.BecameToken K (.pollResult r)
        ((p.settle.keep (p.store.withToken token p.server)).verify .verifying) :=
      ⟨r, rfl, hlive, by rw [hanswer, htoken], htoken⟩
    refine spared_iff_of_live hlive ⟨.inr hbecame, .inr (.inr hbecame), by simp [hissued]⟩ ?_
    rintro r' ⟨⟩
    simp [hanswer]
  | @refused r hlive hanswer =>
    obtain ⟨hbusy, hreeval, _⟩ := live_iff.mp hlive
    have hpending := hsound.pending (requested_of_live hlive) (.inr ⟨hbusy, hreeval⟩)
    refine iff_of_false (not_spared_of_pending hpending rfl ?_) ?_
    · rintro ⟨r', ⟨⟩, _, hgranted, _⟩
      rw [hanswer] at hgranted
      cases hgranted
    · intro hharmless
      exact hharmless.1 r rfl hlive hanswer
  | lost _ _ hother =>
    rw [hself] at hother
    cases hother
  | stillOpen hlive _ hopen =>
    have hwaiting := hsound.waiting (live_iff.mp hlive).1
    simp [hopen] at hwaiting
  | verified hlive _ _ => exact spared_iff_of_live hlive (.of_eq rfl rfl hnone) (by simp)
  | securityOn hlive _ hopen =>
    have hwaiting := hsound.waiting (live_iff.mp hlive).1
    simp [hopen] at hwaiting
  | secondOpinion hrefuses _ _ =>
    exact iff_of_true (.of_eq rfl rfl hnone) (harmless_of_refuses hrefuses)
  | standInRefuses hrefuses _ _ =>
    exact iff_of_true (.of_eq rfl rfl hnone) (harmless_of_refuses hrefuses)
  | forget _ _ hother =>
    rw [hself] at hother
    cases hother
  | timerPoll hidle hstate =>
    rw [harmless_timer_iff (fires_of_not_ignores hidle)]
    exact iff_of_true (.of_eq rfl rfl (by simp [hissued])) (by simp [hstate])
  | timerCheck hidle hstate =>
    rw [harmless_timer_iff (fires_of_not_ignores hidle)]
    refine iff_of_true (.of_eq rfl rfl (by simp [hissued])) ?_
    rcases hstate with hstate | hstate <;> simp [hstate]
  | timerOpen hidle hstate =>
    rw [harmless_timer_iff (fires_of_not_ignores hidle)]
    exact iff_of_false (not_spared_of_request p.server p.cfg (by simp)) (by simp [hstate])
  | timerDecide hidle hstate hq =>
    rw [harmless_timer_iff (fires_of_not_ignores hidle)]
    have hopen : p.state ≠ .open_ := by rcases hstate with hstate | hstate <;> simp [hstate]
    have hlive : p.live .timer = false := by simp [live, expects]
    simp only [hopen, hstate, ne_eq, not_false_eq_true, true_and, forall_const]
    exact hq.spared_iff rfl hserver hissued (not_becameToken hlive)
  | timerNothing hidle hstate =>
    rw [harmless_timer_iff (fires_of_not_ignores hidle)]
    refine iff_of_true (.of_eq rfl rfl hnone) ?_
    rcases hstate with hstate | hstate | hstate <;> simp [hstate]
  | certError _ =>
    refine iff_of_true (.of_eq rfl rfl hnone) ⟨?_, ?_, ?_⟩ <;> simp [redecides, Event.isResult]

end Pairing

variable {K : Kconfig}

theorem pollAnswer_refused_iff (r : HttpResult) :
    r.pollAnswer K = .refused ↔ decidedAgainst K r = true := by
  have hcompleted (h : r.state.chars = lit "COMPLETED") : r.state.isEmpty = false := by
    rw [Buf.isEmpty, h]
    rfl
  unfold HttpResult.pollAnswer decidedAgainst
  by_cases hstate : r.state.chars = lit "COMPLETED"
  · have hempty := hcompleted hstate
    by_cases hgrants : grantsToken K r = true <;> by_cases hcert : r.certError = true <;>
      by_cases hstatus : r.httpStatus = 200 ∨ r.httpStatus = 202 <;> simp_all
    all_goals split <;> simp
  · simp [hstate]
    repeat' split
    all_goals simp

section View

variable (env : Env) (sm : Machine) (e : Event) (sm' : Machine)

theorem becameToken_iff :
    BecameToken K sm e sm' ↔ (view sm).forgetCalls.BecameToken K e (view sm') := by
  constructor
  · rintro ⟨r, rfl, h⟩
    exact ⟨r, rfl, h⟩
  · rintro ⟨r, rfl, h⟩
    exact ⟨r, rfl, h⟩

theorem spared_iff_view :
    Spared K sm e sm' ↔ (view sm).forgetCalls.Spared K e (view sm') := by
  unfold Spared Pairing.Spared actions
  rw [becameToken_iff]
  simp only [List.mem_reverse]
  rfl

theorem harmless_iff_view :
    Harmless K env sm e ↔ (view sm).forgetCalls.Harmless K (reached env.now sm.timerDueMs) e := by
  have hredecides : reevaluates env sm e =
      (view sm).forgetCalls.redecides (reached env.now sm.timerDueMs) e := by
    cases e <;> rfl
  unfold Harmless Pairing.Harmless
  rw [hredecides]
  refine and_congr (forall_congr' fun r => ?_) Iff.rfl
  rw [ne_eq, pollAnswer_refused_iff, Bool.not_eq_true]
  constructor
  · rintro h rfl hlive
    exact h rfl hlive
  · rintro h rfl hlive
    exact h rfl hlive

end View

-- What an answer, a refusal or the timer does while a stand-in is the server.
theorem stand_in_spares_pairing_iff (cfg : Cfg) (store : Option Store)
    (inputs : List (Env × Event)) (env : Env) (e : Event)
    (hself : (run (step K) (init K cfg store) inputs).st.server.bySelf = true)
    (he : e.fromOutside = true) :
    let sm := run (step K) (init K cfg store) inputs
    Spared K sm e (step K sm (env, e)) ↔ Harmless K env sm e := by
  intro sm
  have hsound : (view sm).Sound K := sound_run cfg store inputs
  rw [spared_iff_view, harmless_iff_view, view_step]
  exact (Pairing.on_move K _ _ _).spared_iff hsound.forgetCalls rfl hself he

-- A request is pending at our server, which is silent, and a twin with the same
-- self URN answers the poll.
def Server.twin : Server :=
  { Server.named (lit "twin") false with self := .print (lit "urn:boat"), bySelf := true }

def atTwin : List (Env × Event) :=
  [(⟨0, 0⟩, .start), (⟨0, 0⟩, .server (some .twin))]

def HttpResult.denial : HttpResult :=
  { HttpResult.status 200 with
    state := .print (lit "COMPLETED"), permission := .print (lit "DENIED") }

-- It does not know the request, or turns it down.
theorem stand_in_polled :
    let sm := run (step .default) (init .default .sample (some .asking)) atTwin
    let lost := step .default sm (⟨1, 0⟩, .pollResult (.status 404))
    let denied := step .default sm (⟨1, 0⟩, .pollResult .denial)
    sm.st.server.bySelf = true ∧ awaitsPoll sm = true ∧
      (lost.st.state = .error ∧ Spared .default sm (.pollResult (.status 404)) lost) ∧
      denied.st.state = .denied ∧ ¬ Spared .default sm (.pollResult .denial) denied := by
  refine ⟨by decide, by decide, ⟨by decide, ?_⟩, by decide, fun hspared => ?_⟩
  · refine (stand_in_spares_pairing_iff .sample (some .asking) atTwin ⟨1, 0⟩
      (.pollResult (.status 404)) (by decide) rfl).mpr ⟨?_, ?_, by decide⟩
    · rintro r hr -
      cases hr
      decide
    · intro htimer
      cases htimer
  · have hharmless := (stand_in_spares_pairing_iff .sample (some .asking) atTwin ⟨1, 0⟩
      (.pollResult .denial) (by decide) rfl).mp hspared
    exact absurd (hharmless.1 _ rfl (by decide)) (by decide)

-- The twin's admin never saw the request; its denial erases ours all the same.
theorem stand_in_denial_costs_request :
    ¬∀ (K : Kconfig) (cfg : Cfg) (store : Option Store) (inputs : List (Env × Event)) (env : Env)
      (e : Event),
      (run (step K) (init K cfg store) inputs).st.server.bySelf = true → e.fromOutside = true →
        Spared K (run (step K) (init K cfg store) inputs) e
          (step K (run (step K) (init K cfg store) inputs) (env, e)) := by
  intro h
  have hspared := h .default .sample (some .asking) atTwin ⟨1, 0⟩ (.pollResult .denial)
    (by decide) rfl
  obtain ⟨_, hpending | hpending | hpending, _⟩ := hspared
  · exact absurd hpending (by decide)
  · exact absurd hpending (by decide)
  · obtain ⟨r, hr, _, hgranted, _⟩ := hpending
    cases hr
    have hrefused : HttpResult.denial.pollAnswer .default = .refused := by decide
    rw [hrefused] at hgranted
    cases hgranted

end Espos.Sk.Token
