import Espos.Sk.Token.Sound

-- The machine with the actions its port has not answered yet. The answers come
-- back in any order and at any later time.

namespace Espos.Sk.Token

open Espos.Text Espos.Run

namespace Action

def server : Action → Server
  | .request srv _ | .poll srv _ | .verify srv _ => srv

-- The event that answers an action.
def result (r : HttpResult) : Action → Event
  | .request _ _ => .requestResult r
  | .poll _ _ => .pollResult r
  | .verify _ _ => .verifyResult r

-- A machine in state `s` waits for the answer to this kind of action.
def suits (s : State) : Action → Bool
  | .request _ _ => s == .idle
  | .poll _ _ => s == .requested
  | .verify _ _ => s == .verifying || (s == .approved || s == .open_)

theorem isResult_result (a : Action) (r : HttpResult) : (a.result r).isResult = true := by
  cases a <;> rfl

theorem expects_result (a : Action) (r : HttpResult) (s : State) :
    Pairing.expects s (a.result r) = a.suits s := by
  cases a <;> rfl

end Action

structure World where
  sm : Machine
  out : List Action

inductive Input where
  | event (env : Env) (e : Event)
  | answer (env : Env) (i : Nat) (r : HttpResult)

namespace World

def boot (K : Kconfig) (cfg : Cfg) (store : Option Store) : World :=
  ⟨init K cfg store, []⟩

def step (K : Kconfig) (w : World) : Input → World
  | .event env e =>
    let sm := Token.step K w.sm (env, e)
    ⟨sm, w.out ++ actions sm⟩
  | .answer env i r =>
    match w.out[i]? with
    | none => w
    | some a =>
      let sm := Token.step K w.sm (env, a.result r)
      ⟨sm, w.out.eraseIdx i ++ actions sm⟩

theorem step_answer_none {K : Kconfig} {w : World} {i : Nat} (hout : w.out[i]? = none) (env : Env)
    (r : HttpResult) : w.step K (.answer env i r) = w := by
  simp [step, hout]

theorem step_answer_some {K : Kconfig} {w : World} {i : Nat} {a : Action}
    (hout : w.out[i]? = some a) (env : Env) (r : HttpResult) :
    w.step K (.answer env i r) =
      ⟨Token.step K w.sm (env, a.result r),
        w.out.eraseIdx i ++ actions (Token.step K w.sm (env, a.result r))⟩ := by
  simp [step, hout]

theorem boot_not_busy (K : Kconfig) (cfg : Cfg) (store : Option Store) :
    ¬(view (boot K cfg store).sm).busy = true := by
  have hbusy : (view (boot K cfg store).sm).busy = false := (init_quiet cfg store).1
  rw [hbusy]
  exact Bool.false_ne_true

end World

namespace Pairing

-- `t` is the server `s`, of which more may be known by now.
def Continues (s t : Server) : Prop :=
  sameAddr s t = true ∧ (s.self.isEmpty = true ∨ s.self = t.self)

theorem Continues.refl (s : Server) : Continues s s := by
  refine ⟨?_, .inr rfl⟩
  simp [sameAddr]

theorem Continues.trans {s t u : Server} (hst : Continues s t) (htu : Continues t u) :
    Continues s u := by
  refine ⟨?_, ?_⟩
  · have haddr := hst.1
    have haddr' := htu.1
    simp only [sameAddr, Bool.and_eq_true, beq_iff_eq] at haddr haddr' ⊢
    rw [haddr.1.1, haddr.1.2, haddr.2]
    exact haddr'
  · rcases hst.2 with hself | hself
    · exact .inl hself
    · rw [hself]
      exact htu.2

-- No action is out, or exactly the one issued just now.
inductive Fresh (q : Pairing) : Prop
  | free (hbusy : q.busy = false) (hissued : q.issued = [])
  | asked (a : Action) (hbusy : q.busy = true) (harmed : q.armed = false) (hissued : q.issued = [a])
      (hsuits : a.suits q.state = true) (hserver : a.server = q.server)

-- The action that was out stays the one the machine waits for.
structure Rides (p q : Pairing) : Prop where
  busy : p.busy = true
  busy' : q.busy = true
  issued : q.issued = []
  state : q.state = p.state
  armed : q.armed = p.armed
  reeval : p.reeval = true → q.reeval = true
  server : q.reeval = false → Continues p.server q.server

variable {K : Kconfig} {due : Bool} {p q : Pairing} {e : Event}

theorem request_fresh (hissued : p.issued = []) : Fresh p.request :=
  .asked _ rfl rfl (by rw [request_issued, hissued]) rfl rfl

theorem poll_fresh (hissued : p.issued = []) : Fresh p.poll :=
  .asked _ rfl rfl (by rw [poll_issued, hissued]) rfl rfl

theorem verify_fresh {s : State} (hstate : s = .approved ∨ s = .verifying)
    (hissued : p.issued = []) : Fresh (p.verify s) := by
  refine .asked (.verify p.server p.store.token) rfl rfl (by rw [verify_issued, hissued]) ?_ rfl
  rcases hstate with rfl | rfl <;> rfl

theorem Decision.fresh (hq : Decision p q) (hbusy : p.busy = false) (hissued : p.issued = []) :
    Fresh q := by
  have hdropped : p.dropForeign.issued = [] := by simpa using hissued
  cases hq with
  | stopped _ => exact .free hbusy hissued
  | alone _ _ => exact .free hbusy hissued
  | poll _ _ _ _ => exact poll_fresh hissued
  | approve _ _ _ _ _ => exact .free (by simpa using hbusy) hdropped
  | verify _ _ _ _ _ => exact verify_fresh (.inr rfl) hdropped
  | request _ _ _ _ => exact request_fresh hdropped

theorem refresh_continues (p : Pairing) (s : Server) :
    Continues p.server (p.refresh s).server := by
  have hserver : (p.refresh s).server = ((p.setBySelf s.bySelf).learnSelf s.self).server := by
    unfold Pairing.refresh
    dsimp only
    split <;> rfl
  rw [hserver]
  refine ⟨by simp [sameAddr], ?_⟩
  cases hself : p.server.self.isEmpty with
  | true => exact .inl rfl
  | false =>
    right
    simp [hself]

theorem refresh_rides (s : Server) (hbusy : p.busy = true) (hissued : p.issued = []) :
    Rides p (p.refresh s) := by
  have hserver := refresh_continues p s
  unfold Pairing.refresh at hserver ⊢
  dsimp only at hserver ⊢
  split
  · rename_i hlearn
    rw [if_pos hlearn] at hserver
    exact ⟨hbusy, hbusy, hissued, rfl, rfl, id, fun _ => hserver⟩
  · rename_i hlearn
    rw [if_neg hlearn] at hserver
    exact ⟨hbusy, hbusy, hissued, rfl, rfl, id, fun _ => hserver⟩

theorem onManualToken_fresh_or_rides (token : Buf 1024) {c : Prop} (hissued : p.issued = []) :
    (Fresh (p.onManualToken token) ∧ (p.busy = true → c)) ∨ Rides p (p.onManualToken token) := by
  unfold onManualToken
  generalize (if p.hasServer then p.server else Server.none) = srv
  dsimp only
  split
  · by_cases hbusy : p.busy = true
    · exact .inr ⟨hbusy, hbusy, hissued, rfl, rfl, id, fun _ => .refl _⟩
    · exact .inl ⟨.free (by simpa using hbusy) hissued, fun h => absurd h hbusy⟩
  · split
    · rename_i hbusy
      exact .inr ⟨hbusy, hbusy, hissued, rfl, rfl, fun _ => rfl, fun _ => .refl _⟩
    · rename_i hbusy
      exact .inl ⟨verify_fresh (.inr rfl) hissued, fun h => absurd h hbusy⟩

theorem isResult_of_live (hlive : p.live e = true) : e.isResult = true := by
  have hexpects := (live_iff.mp hlive).2.2
  cases e <;> first | rfl | cases hexpects

theorem not_busy_of_refuses (h : p.refuses e = true) (he : e.isResult = false) :
    p.busy = false := by
  cases e with
  | unauthorized => simp_all [refuses]
  | verifyResult r => cases he
  | _ => cases h

-- An answer that is not ignored ends the action, and may start the next one.
theorem Move.fresh_of_answer (hm : Move K due p e q) (hissued : p.issued = [])
    (he : e.isResult = true) (hheard : p.ignores K due e = false) : Fresh q := by
  cases hm with
  | ignored h =>
    rw [h] at hheard
    cases hheard
  | stale _ _ _ hq => exact hq.fresh rfl hissued
  | granted _ _ => exact verify_fresh (.inr rfl) hissued
  | lost _ _ _ => exact request_fresh hissued
  | securityOn _ _ _ => exact request_fresh hissued
  | forget _ _ _ => exact request_fresh hissued
  | certRefused _ _ => exact .free rfl hissued
  | trouble _ _ => exact .free rfl hissued
  | pending _ _ => exact .free rfl hissued
  | securityOff _ _ => exact .free rfl hissued
  | disabled _ _ => exact .free rfl hissued
  | stillPending _ _ => exact .free rfl hissued
  | refused _ _ => exact .free rfl hissued
  | stillOpen _ _ _ => exact .free rfl hissued
  | verified _ _ _ => exact .free rfl hissued
  | secondOpinion _ _ _ => exact .free rfl hissued
  | standInRefuses _ _ _ => exact .free rfl hissued
  | _ => cases he

-- The event makes the machine forget the action that is out.
def interrupts (p : Pairing) : Event → Bool
  | .stop => true
  | .certError _ => p.state == .approved || p.state == .open_ || p.state == .verifying
  | _ => false

-- Every other event leaves the action that is out alone, or finds none. Only
-- the start of a machine that is busy already does not fit.
theorem Move.fresh_or_rides (hm : Move K due p e q) (hissued : p.issued = [])
    (he : e.isResult = false) (hstart : e = .start → p.started = false → p.busy = false) :
    (Fresh q ∧ (p.busy = true → p.interrupts e = true)) ∨ Rides p q := by
  have hfree (hbusy : p.busy = false) (hq : Fresh q) :
      (Fresh q ∧ (p.busy = true → p.interrupts e = true)) ∨ Rides p q :=
    .inl ⟨hq, by simp [hbusy]⟩
  cases hm with
  | ignored _ =>
    by_cases hbusy : p.busy = true
    · exact .inr ⟨hbusy, hbusy, hissued, rfl, rfl, id, fun _ => .refl _⟩
    · rw [Bool.not_eq_true] at hbusy
      exact hfree hbusy (.free hbusy hissued)
  | start hstopped hq =>
    have hbusy := hstart rfl hstopped
    exact hfree hbusy (hq.fresh hbusy hissued)
  | stop => exact .inl ⟨.free rfl hissued, fun _ => rfl⟩
  | config c =>
    by_cases hbusy : p.busy = true
    · have harmed : (p.configure c).armed = p.armed := by simp [hbusy]
      exact .inr ⟨hbusy, hbusy, hissued, rfl, harmed, id, fun _ => .refl _⟩
    · rw [Bool.not_eq_true] at hbusy
      exact hfree hbusy (.free hbusy hissued)
  | @refresh s _ =>
    by_cases hbusy : p.busy = true
    · exact .inr (refresh_rides s hbusy hissued)
    · rw [Bool.not_eq_true] at hbusy
      refine hfree hbusy ?_
      unfold Pairing.refresh
      dsimp only
      split <;> exact .free hbusy hissued
  | postpone _ hbusy => exact .inr ⟨hbusy, hbusy, hissued, rfl, rfl, fun _ => rfl, by simp⟩
  | replace _ hbusy hq => exact hfree hbusy (hq.fresh hbusy hissued)
  | secondOpinion hrefuses _ _ =>
    exact hfree (not_busy_of_refuses hrefuses he) (.free rfl hissued)
  | standInRefuses hrefuses _ _ =>
    exact hfree (not_busy_of_refuses hrefuses he) (.free rfl hissued)
  | forget hrefuses _ _ => exact hfree (not_busy_of_refuses hrefuses he) (request_fresh hissued)
  | timerPoll hidle _ => exact hfree (ready_of_timer hidle).2 (poll_fresh hissued)
  | timerCheck hidle hstate =>
    exact hfree (ready_of_timer hidle).2 (verify_fresh hstate hissued)
  | timerOpen hidle _ => exact hfree (ready_of_timer hidle).2 (request_fresh hissued)
  | timerDecide hidle _ hq =>
    have hbusy := (ready_of_timer hidle).2
    exact hfree hbusy (hq.fresh hbusy hissued)
  | timerNothing hidle _ =>
    have hbusy := (ready_of_timer hidle).2
    exact hfree hbusy (.free hbusy hissued)
  | manual _ => exact onManualToken_fresh_or_rides _ hissued
  | retryRequest hidle _ => exact hfree (ready_of_retry hidle).2.2 (request_fresh hissued)
  | retryDecide hidle _ hq =>
    have hbusy := (ready_of_retry hidle).2.2
    exact hfree hbusy (hq.fresh hbusy hissued)
  | certError hidle =>
    refine .inl ⟨.free rfl hissued, fun _ => ?_⟩
    unfold ignores at hidle
    unfold interrupts
    cases hstate : p.state <;> simp_all
  | stale hresult _ _ _ => simp [hresult] at he
  | certRefused hlive _ => exact absurd (isResult_of_live hlive) (by simp [he])
  | trouble hlive _ => exact absurd (isResult_of_live hlive) (by simp [he])
  | _ => cases he

end Pairing

end Espos.Sk.Token
