import Espos.Sk.Token.World

-- An answer is taken for the server its action was issued for, and an answer
-- from a server that was left is not looked at.

namespace Espos.Sk.Token

open Espos.Text Espos.Run

namespace World

-- A stop, a first start and the stream's report of a bad certificate do not ask
-- whether an action is out. Answers come only to actions.
def Orderly (w : World) : Input → Prop
  | .event _ e =>
    e.isResult = false ∧
      ((view w.sm).interrupts e = true ∨ (e = .start ∧ w.sm.started = false) → w.out = [])
  | .answer _ _ _ => True

-- The action was issued for another server than the one the machine has now.
def isForeign (w : World) (a : Action) : Bool :=
  !(sameAddr a.server w.sm.st.server && selfCompatible a.server w.sm.st.server)

end World

namespace Pairing

-- At most one action is out, and it is the one the machine is busy with.
structure Tidy (p : Pairing) (out : List Action) : Prop where
  free : p.busy = false → out = []
  asked : p.busy = true → ∃ a, out = [a] ∧
    (p.reeval = false → a.suits p.state = true ∧ Continues a.server p.server)

variable {K : Kconfig} {due : Bool} {p q : Pairing} {e : Event} {out : List Action}

theorem Tidy.busy_iff (h : Tidy p out) : p.busy = true ↔ out ≠ [] := by
  constructor
  · intro hbusy
    obtain ⟨a, hout, _⟩ := h.asked hbusy
    simp [hout]
  · intro hout
    by_contra hbusy
    exact hout (h.free (by simpa using hbusy))

theorem Fresh.tidy (hq : Fresh q) : Tidy q q.issued.reverse := by
  cases hq with
  | free hbusy hissued => exact ⟨fun _ => by rw [hissued]; rfl, by simp [hbusy]⟩
  | asked a hbusy _ hissued hsuits hserver =>
    refine ⟨by simp [hbusy], fun _ => ⟨a, by rw [hissued]; rfl, fun _ => ⟨hsuits, ?_⟩⟩⟩
    rw [hserver]
    exact .refl _

theorem Rides.tidy (hr : Rides p q) (h : Tidy p out) : Tidy q (out ++ q.issued.reverse) := by
  rw [hr.issued, List.reverse_nil, List.append_nil]
  obtain ⟨a, hout, ha⟩ := h.asked hr.busy
  refine ⟨by simp [hr.busy'], fun _ => ⟨a, hout, fun hreeval => ?_⟩⟩
  have hreeval' : p.reeval = false := by
    by_contra hp
    have hq := hr.reeval (by simpa using hp)
    rw [hreeval] at hq
    cases hq
  obtain ⟨hsuits, hserver⟩ := ha hreeval'
  rw [hr.state]
  exact ⟨hsuits, hserver.trans (hr.server hreeval)⟩

theorem Move.tidy_event (hm : Move K due p e q) (h : Tidy p out) (hissued : p.issued = [])
    (he : e.isResult = false)
    (horderly : p.interrupts e = true ∨ (e = .start ∧ p.started = false) → out = []) :
    Tidy q (out ++ q.issued.reverse) := by
  have hstart (hevent : e = .start) (hstopped : p.started = false) : p.busy = false := by
    by_contra hbusy
    exact h.busy_iff.mp (by simpa using hbusy) (horderly (.inr ⟨hevent, hstopped⟩))
  rcases hm.fresh_or_rides hissued he hstart with ⟨hfresh, hinterrupts⟩ | hrides
  · have hout : out = [] := by
      by_cases hbusy : p.busy = true
      · exact horderly (.inl (hinterrupts hbusy))
      · exact h.free (by simpa using hbusy)
    rw [hout]
    exact hfresh.tidy
  · exact hrides.tidy h

-- An answer to the action that is out is never ignored.
theorem Tidy.heard {a : Action} (h : Tidy p [a]) (r : HttpResult) :
    p.ignores K due (a.result r) = false := by
  have hbusy : p.busy = true := h.busy_iff.mpr (by simp)
  obtain ⟨b, hout, hb⟩ := h.asked hbusy
  obtain rfl : a = b := by simpa using hout
  have hignores : p.ignores K due (a.result r) =
      (!p.live (a.result r) && !(p.reeval && p.busy)) := by cases a <;> rfl
  cases hreeval : p.reeval with
  | true => simp [hignores, hreeval, hbusy]
  | false =>
    have hlive : p.live (a.result r) = true := by
      rw [live_iff, Action.expects_result]
      exact ⟨hbusy, hreeval, (hb hreeval).1⟩
    simp [hignores, hlive]

-- What deciding anew can change.
theorem Decision.limits (hq : Decision p q) :
    q.store.token = p.store.token ∧ q.store.tokenSelf = p.store.tokenSelf ∧
      q.store.tokenHost = p.store.tokenHost ∧ q.store.tokenPort = p.store.tokenPort ∧
      (q.store.pendingHref = p.store.pendingHref ∨ pendingSame p.store p.server = false) ∧
      (q.state = .approved → p.state = .approved ∨ (p.server.tls = true ∧ p.usable = true)) ∧
      (q.state = .denied ∨ q.state = .open_ → q.state = p.state) := by
  have hdropped (hforeign : p.store.pendingHref.isEmpty = false →
      pendingSame p.store p.server = false) :
      p.dropForeign.store.pendingHref = p.store.pendingHref ∨
        pendingSame p.store p.server = false := by
    cases hpending : p.store.pendingHref.isEmpty with
    | true =>
      left
      unfold Pairing.dropForeign
      rw [if_pos hpending]
    | false => exact .inr (hforeign hpending)
  cases hq with
  | stopped _ => exact ⟨rfl, rfl, rfl, rfl, .inl rfl, .inl, fun _ => rfl⟩
  | alone _ _ => simp
  | poll _ _ _ _ => simp
  | approve _ _ hforeign husable htls => simp [hdropped hforeign, husable, htls]
  | verify _ _ hforeign _ _ => simp [hdropped hforeign]
  | request _ _ hforeign _ => simp [hdropped hforeign]

end Pairing

variable {K : Kconfig}

namespace World

def Tidy (w : World) : Prop :=
  (view w.sm).Tidy w.out

theorem tidy_event {w : World} (h : w.Tidy) (env : Env) (e : Event)
    (horderly : w.Orderly (.event env e)) : (w.step K (.event env e)).Tidy := by
  have hp : (view w.sm).forgetCalls.Tidy w.out := ⟨h.free, h.asked⟩
  change (view (Token.step K w.sm (env, e))).Tidy
    (w.out ++ (view (Token.step K w.sm (env, e))).issued.reverse)
  rw [view_step]
  exact (Pairing.on_move K _ _ _).tidy_event hp rfl horderly.1 horderly.2

-- The only action that can be answered is the one the machine is busy with.
theorem Tidy.out_eq {w : World} (h : w.Tidy) {i : Nat} {a : Action} (hout : w.out[i]? = some a) :
    i = 0 ∧ w.out = [a] ∧ w.sm.st.busy = true := by
  have hbusy : w.sm.st.busy = true := h.busy_iff.mpr (by rintro hnil; simp [hnil] at hout)
  obtain ⟨b, hb, _⟩ := h.asked hbusy
  rw [hb] at hout
  obtain ⟨rfl, rfl⟩ : i = 0 ∧ b = a := by simpa [List.getElem?_singleton] using hout
  exact ⟨rfl, hb, hbusy⟩

theorem tidy_answer {w : World} (h : w.Tidy) (env : Env) (i : Nat) (r : HttpResult) :
    (w.step K (.answer env i r)).Tidy := by
  cases hout : w.out[i]? with
  | none =>
    rw [step_answer_none hout]
    exact h
  | some a =>
    obtain ⟨rfl, hone, _⟩ := h.out_eq hout
    have hp : (view w.sm).forgetCalls.Tidy [a] := by
      rw [← hone]
      exact ⟨h.free, h.asked⟩
    rw [step_answer_some hout, hone]
    change (view (Token.step K w.sm (env, a.result r))).Tidy
      (view (Token.step K w.sm (env, a.result r))).issued.reverse
    rw [view_step]
    exact ((Pairing.on_move K _ _ _).fresh_of_answer rfl (a.isResult_result r)
      (hp.heard r)).tidy

theorem tidy_run (cfg : Cfg) (store : Option Store) {inputs : List Input}
    (h : Along (World.step K) Orderly (boot K cfg store) inputs) :
    (run (World.step K) (boot K cfg store) inputs).Tidy := by
  have hstep (w : World) (input : Input) (hw : w.Tidy) (horderly : w.Orderly input) :
      (w.step K input).Tidy := by
    cases input with
    | event env e => exact tidy_event hw env e horderly
    | answer env i r => exact tidy_answer hw env i r
  have hboot : (boot K cfg store).Tidy :=
    ⟨fun _ => rfl, fun hbusy => absurd hbusy (boot_not_busy K cfg store)⟩
  exact run_invariant_of_along hstep hboot h

theorem Tidy.reeval_of_foreign {w : World} (h : w.Tidy) {i : Nat} {a : Action}
    (hout : w.out[i]? = some a) (hforeign : w.isForeign a = true) : w.sm.reeval = true := by
  obtain ⟨_, hone, hbusy⟩ := h.out_eq hout
  obtain ⟨b, hb, hserver⟩ := h.asked hbusy
  obtain rfl : a = b := by simpa [hone] using hb
  by_contra hreeval
  obtain ⟨_, haddr, hself⟩ := hserver (by simpa using hreeval)
  have hcompatible : selfCompatible a.server w.sm.st.server = true := by
    unfold selfCompatible
    rcases hself with hself | hself
    · simp [hself]
    · have hself : a.server.self = w.sm.st.server.self := hself
      simp [hself]
  have haddr : sameAddr a.server w.sm.st.server = true := haddr
  simp [isForeign, haddr, hcompatible] at hforeign

end World

-- An answer the machine has no more use for: whatever it says, what to do is
-- decided anew.
theorem step_of_stale (sm : Machine) (env : Env) (a : Action) (r : HttpResult)
    (hreeval : sm.reeval = true) (hbusy : sm.st.busy = true) :
    step K sm (env, a.result r) = dropStale env (forgetCalls sm) := by
  have hstale : ((forgetCalls sm).reeval && (forgetCalls sm).st.busy) = true := by
    simp [forgetCalls, hreeval, hbusy]
  cases a with
  | request _ _ => exact if_pos hstale
  | poll _ _ => exact if_pos hstale
  | verify _ _ => exact if_pos hstale

theorem foreign_answer_only_redecides (cfg : Cfg) (store : Option Store) (inputs : List Input)
    (horderly : Along (World.step K) World.Orderly (World.boot K cfg store) inputs)
    (env : Env) (i : Nat) (r : HttpResult) (a : Action)
    (hout : (run (World.step K) (World.boot K cfg store) inputs).out[i]? = some a)
    (hforeign : (run (World.step K) (World.boot K cfg store) inputs).isForeign a = true) :
    let w := run (World.step K) (World.boot K cfg store) inputs
    let sm := w.sm
    let sm' := (w.step K (.answer env i r)).sm
    sm' = dropStale env (forgetCalls sm) ∧
      sm'.store.token = sm.store.token ∧ sm'.store.tokenSelf = sm.store.tokenSelf ∧
      sm'.store.tokenHost = sm.store.tokenHost ∧ sm'.store.tokenPort = sm.store.tokenPort ∧
      (sm'.store.pendingHref = sm.store.pendingHref ∨ pendingSame sm.store sm.st.server = false) ∧
      (sm'.st.state = .approved → sm.st.state = .approved ∨ (sm.st.server.tls = true ∧
        sm.store.token.isEmpty = false ∧ tokenApplicable sm.store sm.st.server = true)) ∧
      (sm'.st.state = .denied ∨ sm'.st.state = .open_ → sm'.st.state = sm.st.state) := by
  intro w sm sm'
  have htidy : w.Tidy := World.tidy_run cfg store horderly
  obtain ⟨rfl, hone, hbusy⟩ := htidy.out_eq hout
  have hstep : sm' = dropStale env (forgetCalls sm) := by
    have hanswer : sm' = step K sm (env, a.result r) :=
      congrArg World.sm (World.step_answer_some hout env r)
    rw [hanswer]
    exact step_of_stale sm env a r (htidy.reeval_of_foreign hout hforeign) hbusy
  have hview : view sm' = (view (forgetCalls sm)).dropAnswer.evaluate := by
    rw [hstep]
    exact view_dropStale env (forgetCalls sm)
  have hlimits := (view (forgetCalls sm)).dropAnswer.evaluate_decision.limits
  rw [← hview] at hlimits
  obtain ⟨h₁, h₂, h₃, h₄, h₅, h₆, h₇⟩ := hlimits
  refine ⟨hstep, h₁, h₂, h₃, h₄, h₅, fun happroved => ?_, h₇⟩
  refine (h₆ happroved).imp id fun htls => ⟨htls.1, ?_⟩
  have husable : (!sm.store.token.isEmpty && tokenApplicable sm.store sm.st.server) = true :=
    htls.2
  simpa using husable

-- A poll is out when the user moves to another server.
def movedAway : List Input :=
  [.event ⟨0, 0⟩ .start, .event ⟨0, 0⟩ (.server (some (.named (lit "boat") false))),
    .event ⟨1, 0⟩ (.server (some (.named (lit "marina") false)))]

def HttpResult.stillWaiting : HttpResult :=
  { HttpResult.status 202 with state := .print (lit "PENDING") }

theorem foreign_answer_after_move :
    let w := run (World.step .default) (World.boot .default .sample (some .asking)) movedAway
    let sm' := (w.step .default (.answer ⟨2, 0⟩ 0 .stillWaiting)).sm
    w.out = [.poll (.named (lit "boat") false) (.print (lit "/requests/7"))] ∧
      sm'.store.token = w.sm.store.token := by
  have horderly : Along (World.step .default) World.Orderly
      (World.boot .default .sample (some .asking)) movedAway := by
    refine ⟨⟨rfl, fun _ => rfl⟩, ⟨rfl, ?_⟩, ⟨rfl, ?_⟩, trivial⟩ <;>
      simp [Pairing.interrupts]
  intro w sm'
  have hout : w.out = [.poll (.named (lit "boat") false) (.print (lit "/requests/7"))] := by
    decide
  have hfacts := foreign_answer_only_redecides .sample (some .asking) movedAway horderly
    ⟨2, 0⟩ 0 .stillWaiting (.poll (.named (lit "boat") false) (.print (lit "/requests/7")))
    (by decide) (by decide)
  exact ⟨hout, hfacts.2.1⟩

-- The old server's answer is where the postponed decision is taken, and that
-- decision gives up the request pending at the old server.
theorem foreign_answer_drops_pending :
    ¬∀ (K : Kconfig) (cfg : Cfg) (store : Option Store) (inputs : List Input) (env : Env) (i : Nat)
      (r : HttpResult) (a : Action),
      let w := run (World.step K) (World.boot K cfg store) inputs
      let sm' := (w.step K (.answer env i r)).sm
      w.out[i]? = some a → w.isForeign a = true →
        sm'.store.token = w.sm.store.token ∧ sm'.store.pendingHref = w.sm.store.pendingHref ∧
          ∀ s ∈ [State.approved, State.denied, State.open_],
            (sm'.st.state = s ↔ w.sm.st.state = s) := by
  intro h
  have hkept := h .default .sample (some .asking) movedAway ⟨2, 0⟩ 0 .stillWaiting
    (.poll (.named (lit "boat") false) (.print (lit "/requests/7"))) (by decide) (by decide)
  exact absurd hkept.2.1 (by decide)

end Espos.Sk.Token
