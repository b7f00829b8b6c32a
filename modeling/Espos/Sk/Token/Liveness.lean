import Espos.Sk.Token.World

-- A started machine that has a server is waiting for something that will come:
-- an answer, its timer, or a person who lifts a denial.

namespace Espos.Sk.Token

open Espos.Text Espos.Run

namespace World

-- An action is out whose answer the machine will act on.
def hasLiveAction (w : World) : Bool :=
  w.sm.st.busy && w.out.any fun a => w.sm.reeval || a.suits w.sm.st.state

-- The timer, once due, makes the machine do something.
def TimerActs (K : Kconfig) (sm : Machine) : Prop :=
  ∀ env : Env, sm.timerDueMs ≠ 0 → reached env.now sm.timerDueMs = true → sm.st.state ≠ .denied →
    let sm' := Token.step K sm (env, .timer)
    actions sm' ≠ [] ∨ (sm'.st.state = .approved ∧ sm'.timerDueMs ≠ 0)

def Lively (K : Kconfig) (w : World) : Prop :=
  w.sm.started = true → w.sm.st.hasServer = true →
    (w.hasLiveAction = true ∨ w.sm.timerDueMs ≠ 0 ∨ w.sm.st.state = .denied) ∧ TimerActs K w.sm

-- `evaluate` would approve the machine at once, without asking the server.
def wouldApprove (sm : Machine) : Bool :=
  sm.st.hasServer && (sm.store.pendingHref.isEmpty || !pendingSame sm.store sm.st.server) &&
    (!sm.store.token.isEmpty && tokenApplicable sm.store sm.st.server) && sm.st.server.tls

-- A start that finds an action out issues the next one, or leaves it to the
-- answer to decide anew.
def StartsFree (w : World) : Input → Prop
  | .event _ .start =>
    w.sm.started = false → w.sm.st.busy = true →
      if w.sm.st.hasServer then wouldApprove w.sm = false else w.sm.reeval = true
  | _ => True

end World

namespace Pairing

variable {K : Kconfig} {due : Bool} {p q : Pairing} {e : Event} {out : List Action}

-- The machine is not busy for nothing.
structure Served (p : Pairing) (out : List Action) : Prop where
  action : p.busy = true → ∃ a ∈ out, p.reeval = true ∨ a.suits p.state = true
  disarmed : p.busy = true → p.armed = false

theorem Fresh.served (hq : Fresh q) : Served q (out ++ q.issued.reverse) := by
  cases hq with
  | free hbusy _ => exact ⟨by simp [hbusy], by simp [hbusy]⟩
  | asked a _ harmed hissued hsuits _ =>
    exact ⟨fun _ => ⟨a, by simp [hissued], .inr hsuits⟩, fun _ => harmed⟩

theorem Rides.served (hr : Rides p q) (h : Served p out) : Served q (out ++ q.issued.reverse) := by
  rw [hr.issued, List.reverse_nil, List.append_nil]
  obtain ⟨a, ha, hwhy⟩ := h.action hr.busy
  refine ⟨fun _ => ⟨a, ha, hwhy.imp hr.reeval fun hsuits => ?_⟩, fun _ => ?_⟩
  · rw [hr.state]
    exact hsuits
  · rw [hr.armed]
    exact h.disarmed hr.busy

theorem Move.eq_of_ignores (hm : Move K due p e q) (he : e.isResult = true)
    (h : p.ignores K due e = true) : q = p := by
  have hignores : p.ignores K due e = (!p.live e && !(p.reeval && p.busy)) := by
    cases e <;> first | rfl | cases he
  rw [hignores] at h
  obtain ⟨hlive, hfresh⟩ := (Bool.and_eq_true _ _).mp h
  rw [Bool.not_eq_true'] at hlive hfresh
  have hrefuses (hr : p.refuses e = true) : False := by
    cases e <;> simp_all [refuses, Event.isResult]
  cases hm with
  | ignored _ => rfl
  | stale _ hreeval hbusy _ => simp [hreeval, hbusy] at hfresh
  | secondOpinion hr _ _ => exact (hrefuses hr).elim
  | standInRefuses hr _ _ => exact (hrefuses hr).elim
  | forget hr _ _ => exact (hrefuses hr).elim
  | _ => simp_all [Event.isResult]

-- An ignored answer belongs to another action than the one waited for.
theorem Served.erase {i : Nat} {a : Action} {r : HttpResult} (h : Served p out)
    (hout : out[i]? = some a) (hignored : p.ignores K due (a.result r) = true) :
    Served p (out.eraseIdx i) := by
  have hignores : p.ignores K due (a.result r) =
      (!p.live (a.result r) && !(p.reeval && p.busy)) := by cases a <;> rfl
  refine ⟨fun hbusy => ?_, h.disarmed⟩
  obtain ⟨b, hb, hwhy⟩ := h.action hbusy
  have hreeval : p.reeval = false := by
    rw [hignores] at hignored
    cases hreeval : p.reeval <;> simp_all
  have hsuits : b.suits p.state = true := by simpa [hreeval] using hwhy
  have hunsuited : a.suits p.state = false := by
    rw [hignores] at hignored
    rw [← a.expects_result r]
    simp_all [live]
  have hne : b ≠ a := by
    rintro rfl
    rw [hsuits] at hunsuited
    cases hunsuited
  obtain ⟨j, hj⟩ := List.mem_iff_getElem?.mp hb
  have hij : j ≠ i := by
    rintro rfl
    rw [hj] at hout
    exact hne (by simpa using hout)
  exact ⟨b, List.mem_eraseIdx_iff_getElem?.mpr ⟨j, hij, hj⟩, .inr hsuits⟩

-- A start that interferes with an action that is out.
theorem Decision.served_of_busy (hq : Decision p.begin q) (h : Served p out)
    (hissued : p.issued = []) (hbusy : p.busy = true)
    (hallowed : if p.hasServer then
        ((p.store.pendingHref.isEmpty || !pendingSame p.store p.server) && p.usable &&
          p.server.tls) = false
      else p.reeval = true) : Served q (out ++ q.issued.reverse) := by
  cases hq with
  | stopped hstarted => cases hstarted
  | alone _ hserver =>
    have hreeval : p.reeval = true := by
      rw [if_neg (by simpa using hserver)] at hallowed
      exact hallowed
    obtain ⟨a, ha, _⟩ := h.action hbusy
    refine ⟨fun _ => ⟨a, ?_, .inl hreeval⟩, fun _ => rfl⟩
    simp [ha]
  | poll _ _ _ _ => exact (poll_fresh (p := p.begin) hissued).served
  | approve _ hserver hforeign husable htls =>
    exfalso
    have hserver : p.hasServer = true := hserver
    have husable : p.usable = true := husable
    have htls : p.server.tls = true := htls
    rw [if_pos hserver, husable, htls] at hallowed
    cases hpending : p.store.pendingHref.isEmpty with
    | true => simp [hpending] at hallowed
    | false =>
      have hother : pendingSame p.store p.server = false := hforeign hpending
      simp [hpending, hother] at hallowed
  | verify _ _ _ _ _ => exact (verify_fresh (.inr rfl) (by simpa using hissued)).served
  | request _ _ _ _ => exact (request_fresh (by simpa using hissued)).served

theorem Move.timer_acts (hm : Move K true p .timer q) (hsound : Sound K p)
    (hstarted : p.started = true) (hserver : p.hasServer = true)
    (hbusy : p.busy = false) (harmed : p.armed = true) (hstate : p.state ≠ .denied) :
    q.issued ≠ [] ∨ (q.state = .approved ∧ q.armed = true) := by
  have hwaits : p.state ≠ .noServer ∧ p.state ≠ .idle := by
    rcases hsound.waits hstarted hbusy hserver with hwaits | hdenied
    · exact hwaits.2
    · exact absurd hdenied hstate
  cases hm with
  | ignored h => simp [ignores, hstarted, hbusy, harmed] at h
  | timerPoll _ _ => exact .inl (by simp)
  | timerCheck _ _ => exact .inl (by simp)
  | timerOpen _ _ => exact .inl (by simp)
  | timerDecide _ _ hq =>
    cases hq with
    | stopped h => simp [hstarted] at h
    | alone _ h => simp [hserver] at h
    | poll _ _ _ _ => exact .inl (by simp)
    | approve _ _ _ _ _ => exact .inr ⟨rfl, rfl⟩
    | verify _ _ _ _ _ => exact .inl (by simp)
    | request _ _ _ _ => exact .inl (by simp)
  | timerNothing _ hnothing =>
    rcases hnothing with h | h | h
    · exact absurd h hwaits.1
    · exact absurd h hwaits.2
    · exact absurd h hstate
  | stale he _ _ _ => cases he
  | certRefused hlive _ => exact absurd (isResult_of_live hlive) (by simp [Event.isResult])
  | trouble hlive _ => exact absurd (isResult_of_live hlive) (by simp [Event.isResult])
  | secondOpinion h _ _ => cases h
  | standInRefuses h _ _ => cases h
  | forget h _ _ => cases h

end Pairing

variable {K : Kconfig}

namespace World

def Served (w : World) : Prop :=
  (view w.sm).Served w.out

theorem served_event {w : World} (h : w.Served) (env : Env) (e : Event)
    (hfree : w.StartsFree (.event env e)) : (w.step K (.event env e)).Served := by
  have hp : (view w.sm).forgetCalls.Served w.out := ⟨h.action, h.disarmed⟩
  have hm := Pairing.on_move K (reached env.now w.sm.timerDueMs) (view w.sm).forgetCalls e
  change (view (Token.step K w.sm (env, e))).Served
    (w.out ++ (view (Token.step K w.sm (env, e))).issued.reverse)
  rw [view_step]
  cases he : e.isResult with
  | true =>
    cases hignores : (view w.sm).forgetCalls.ignores K (reached env.now w.sm.timerDueMs) e with
    | true =>
      rw [hm.eq_of_ignores he hignores]
      simpa using hp
    | false => exact (hm.fresh_of_answer rfl he hignores).served
  | false =>
    by_cases hstart : e = .start ∧ w.sm.started = false ∧ w.sm.st.busy = true
    · obtain ⟨rfl, hstopped, hbusy⟩ := hstart
      have hallowed := hfree hstopped hbusy
      have hon : (view w.sm).forgetCalls.on K (reached env.now w.sm.timerDueMs) .start =
          (view w.sm).forgetCalls.begin.evaluate := if_neg (by simp [hstopped])
      rw [hon]
      refine (Pairing.evaluate_decision _).served_of_busy hp rfl hbusy ?_
      cases hserver : w.sm.st.hasServer with
      | true => simpa [wouldApprove, Pairing.usable, hserver] using hallowed
      | false => simpa [hserver] using hallowed
    · have hquiet (hevent : e = .start) (hstopped : w.sm.started = false) :
          w.sm.st.busy = false := by
        by_contra hbusy
        exact hstart ⟨hevent, hstopped, by simpa using hbusy⟩
      rcases hm.fresh_or_rides rfl he hquiet with ⟨hfresh, _⟩ | hrides
      · exact hfresh.served
      · exact hrides.served hp

theorem served_answer {w : World} (h : w.Served) (env : Env) (i : Nat) (r : HttpResult) :
    (w.step K (.answer env i r)).Served := by
  cases hout : w.out[i]? with
  | none =>
    rw [step_answer_none hout]
    exact h
  | some a =>
    have hp : (view w.sm).forgetCalls.Served w.out := ⟨h.action, h.disarmed⟩
    have hm := Pairing.on_move K (reached env.now w.sm.timerDueMs) (view w.sm).forgetCalls
      (a.result r)
    rw [step_answer_some hout]
    change (view (Token.step K w.sm (env, a.result r))).Served
      (w.out.eraseIdx i ++ (view (Token.step K w.sm (env, a.result r))).issued.reverse)
    rw [view_step]
    cases hignores : (view w.sm).forgetCalls.ignores K (reached env.now w.sm.timerDueMs)
        (a.result r) with
    | true =>
      rw [hm.eq_of_ignores (a.isResult_result r) hignores]
      simpa using hp.erase hout hignores
    | false => exact (hm.fresh_of_answer rfl (a.isResult_result r) hignores).served

theorem served_step (w : World) (input : Input) (h : w.Served) (hfree : w.StartsFree input) :
    (w.step K input).Served := by
  cases input with
  | event env e => exact served_event h env e hfree
  | answer env i r => exact served_answer h env i r

theorem sound_world_step (w : World) (input : Input) (h : (view w.sm).Sound K) :
    (view (w.step K input).sm).Sound K := by
  cases input with
  | event env e => exact sound_step w.sm (env, e) h
  | answer env i r =>
    cases hout : w.out[i]? with
    | none =>
      rw [step_answer_none hout]
      exact h
    | some a =>
      rw [step_answer_some hout]
      exact sound_step w.sm (env, a.result r) h

theorem lively_of_served {w : World} (hsound : (view w.sm).Sound K) (h : w.Served) :
    w.Lively K := by
  intro hstarted hserver
  constructor
  · by_cases hbusy : w.sm.st.busy = true
    · obtain ⟨a, ha, hwhy⟩ := h.action hbusy
      refine .inl ?_
      unfold hasLiveAction
      rw [hbusy, Bool.true_and, List.any_eq_true]
      exact ⟨a, ha, by simpa using hwhy⟩
    · rcases hsound.waits hstarted (by simpa using hbusy) hserver with hwaits | hdenied
      · exact .inr (.inl (by simpa using hwaits.1))
      · exact .inr (.inr hdenied)
  · intro env harmed hdue hstate sm'
    have harmed : (view w.sm).armed = true := by simpa using harmed
    have hbusy : w.sm.st.busy = false := by
      by_contra hbusy
      have hdisarmed := h.disarmed (by simpa using hbusy)
      rw [harmed] at hdisarmed
      cases hdisarmed
    have hview : view sm' = (view w.sm).forgetCalls.on K true .timer := by
      rw [view_step, hdue]
    have hm := Pairing.on_move K true (view w.sm).forgetCalls .timer
    rw [← hview] at hm
    have hacts := hm.timer_acts hsound.forgetCalls hstarted hserver hbusy harmed hstate
    rcases hacts with hissued | happroved
    · left
      intro hnil
      exact hissued (List.reverse_eq_nil_iff.mp hnil)
    · exact .inr ⟨happroved.1, by simpa using happroved.2⟩

end World

-- A run in which no start interferes with an action never gets stuck.
theorem never_stuck (cfg : Cfg) (store : Option Store) (inputs : List Input)
    (hfree : Along (World.step K) World.StartsFree (World.boot K cfg store) inputs) :
    (run (World.step K) (World.boot K cfg store) inputs).Lively K := by
  have hidle := World.boot_not_busy K cfg store
  have hboot : (World.boot K cfg store).Served := ⟨fun h => absurd h hidle, fun h => absurd h hidle⟩
  have hserved := run_invariant_of_along World.served_step hboot hfree
  have hsound := run_invariant (P := fun w : World => (view w.sm).Sound K) World.sound_world_step
    (show (view (World.boot K cfg store).sm).Sound K from sound_init cfg store) inputs
  exact World.lively_of_served hsound hserved

-- Started while a token that was put in by hand is being verified.
def startedVerifying : List Input :=
  [.event ⟨0, 0⟩ (.server (some (.named (lit "boat") false))),
    .event ⟨0, 0⟩ (.manualToken (lit "jwt")), .event ⟨1, 0⟩ .start,
    .answer ⟨2, 0⟩ 0 (.status 0), .event ⟨3, 0⟩ .start]

theorem never_stuck_at_tls_server :
    let w := run (World.step .default) (World.boot .default .sample none) (startedVerifying.take 2)
    w.sm.started = false ∧ w.sm.st.busy = true ∧
      (run (World.step .default) (World.boot .default .sample none) startedVerifying).Lively
        .default := by
  refine ⟨by decide, by decide, never_stuck .sample none startedVerifying ?_⟩
  exact ⟨trivial, trivial, fun _ _ => by decide, trivial,
    fun hstarted => absurd hstarted (by decide), trivial⟩

-- The server goes away while a stopped machine is approved, the stream reports
-- two refusals, and the machine asks nobody for access. The start that follows
-- hides the request from its answer.
def hiddenRequest : List Input :=
  [.event ⟨0, 0⟩ (.server (some (.named (lit "boat") false))),
    .event ⟨0, 0⟩ (.manualToken (lit "jwt")), .answer ⟨1, 0⟩ 0 (.status 200),
    .event ⟨2, 0⟩ (.server none), .event ⟨3, 0⟩ .unauthorized, .event ⟨4, 0⟩ .unauthorized,
    .event ⟨5, 0⟩ .start, .answer ⟨6, 0⟩ 0 (.status 0),
    .event ⟨7, 0⟩ (.server (some (.named (lit "marina") false)))]

theorem start_while_busy_gets_stuck :
    ¬∀ (K : Kconfig) (cfg : Cfg) (store : Option Store) (inputs : List Input),
      (run (World.step K) (World.boot K cfg store) inputs).Lively K := by
  intro h
  have hlively := h .default .sample none hiddenRequest (by decide) (by decide)
  exact absurd hlively.1 (by decide)

end Espos.Sk.Token
