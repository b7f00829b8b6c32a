import Espos.Sk.Token.Sound

-- The token is offered to the server it was accepted for, unless the server is
-- replaced at a moment when `evaluate` does not run.

namespace Espos.Sk.Token

open Espos.Text Espos.Run

-- Whoever gets the token now gets it for the server that accepted it.
def OfferedRightly (sm : Machine) : Prop :=
  tokToken sm ≠ [] → sm.st.hasServer = true ∧ sm.moved = false

-- A server event does not take the address away from an approved machine that
-- is busy or stopped.
def AddressHeld (sm : Machine) (input : Env × Event) : Prop :=
  ∀ srv, input.2 = .server srv → addrChanges sm srv = true → sm.st.state = .approved →
    sm.st.busy = false ∧ sm.started = true

namespace Pairing

def OffersRightly (p : Pairing) : Prop :=
  p.state = .approved → p.hasServer = true ∧ p.moved = false

def Held (p : Pairing) (e : Event) : Prop :=
  ∀ srv, e = .server srv → p.addrChanges srv = true → p.state = .approved →
    p.busy = false ∧ p.started = true

variable {K : Kconfig} {p q : Pairing}

theorem offers_of_ne (h : p.state ≠ .approved) : p.OffersRightly := by
  intro hstate
  exact absurd hstate h

theorem Decision.offers (hq : Decision p q) (h : p.started = false → p.OffersRightly) :
    q.OffersRightly := by
  cases hq with
  | stopped hstarted => exact h hstarted
  | alone _ _ => exact offers_of_ne (by simp)
  | poll _ _ _ _ => exact offers_of_ne (by simp)
  | approve _ hserver _ _ _ => exact fun _ => ⟨by simpa using hserver, rfl⟩
  | verify _ _ _ _ _ => exact offers_of_ne (by simp)
  | request _ _ _ _ => exact offers_of_ne (by simp)

-- A server event that keeps the address of an approved machine keeps the offer.
theorem takeOver_offers {srv : Option Server} (h : p.OffersRightly)
    (haddr : p.state = .approved → p.addrChanges srv = false) :
    (p.takeOver srv).OffersRightly := by
  intro hstate
  have hsame := haddr hstate
  have hmoved := (h hstate).2
  cases srv with
  | none => cases hsame
  | some s => simp [hmoved, hsame]

theorem Move.offers {due : Bool} {e : Event} (hsound : Sound K p) (h : p.OffersRightly)
    (hheld : p.Held e) (hm : Move K due p e q) : q.OffersRightly := by
  cases hm with
  | ignored _ => exact h
  | start _ hq => exact hq.offers (by simp)
  | refresh _ =>
    unfold Pairing.refresh
    dsimp only
    split <;> exact h
  | @postpone srv _ hbusy =>
    have haddr : p.state = .approved → p.addrChanges srv = false := by
      intro hstate
      by_contra hchanges
      rw [Bool.not_eq_false] at hchanges
      have hfree := (hheld srv rfl hchanges hstate).1
      rw [hbusy] at hfree
      cases hfree
    exact takeOver_offers h haddr
  | @replace srv _ _ _ hq =>
    refine hq.offers fun hstopped => takeOver_offers h fun hstate => ?_
    by_contra hchanges
    rw [Bool.not_eq_false] at hchanges
    have hstarted := (hheld srv rfl hchanges hstate).2
    rw [show p.started = false from hstopped] at hstarted
    cases hstarted
  | stale _ _ _ hq => exact hq.offers fun _ => h
  | verified hlive _ _ =>
    obtain ⟨hbusy, hreeval, hexpects⟩ := live_iff.mp hlive
    have hserver := hsound.asked hbusy hreeval (expects_ne hexpects).1
      (.inr (by rintro hidle; rw [hidle] at hexpects; cases hexpects))
    exact fun _ => ⟨hserver, rfl⟩
  | timerCheck _ _ => exact h
  | timerDecide _ hstate hq =>
    refine hq.offers fun _ => offers_of_ne ?_
    rcases hstate with hstate | hstate <;> simp [hstate]
  | manual _ =>
    unfold onManualToken
    dsimp only
    split
    · exact h
    · split
      · exact h
      · exact offers_of_ne (by simp)
  | retryDecide _ _ hq => exact hq.offers fun _ => h
  | secondOpinion _ _ _ => exact h
  | config _ => exact h
  | stillPending _ _ => exact h
  | stillOpen _ _ _ => exact h
  | timerNothing _ _ => exact h
  | _ => exact offers_of_ne (by simp)

-- The other way round: the server field is replaced, the state is not.
theorem onServer_offends {srv : Option Server} (hchanges : p.addrChanges srv = true)
    (hstate : p.state = .approved) (hlate : p.busy = true ∨ p.started = false) :
    ¬(p.onServer srv).OffersRightly := by
  have hother : p.sameServer srv = false := by
    cases srv with
    | none => rfl
    | some s =>
      have haddr : (p.hasServer && sameAddr s p.server) = false := by
        rw [← Bool.not_eq_true']
        exact hchanges
      simp only [sameServer, haddr, Bool.false_and]
  have hserver : p.onServer srv =
      if p.busy then (p.takeOver srv).lookAgain else (p.takeOver srv).evaluate := by
    unfold onServer
    rw [hother]
    cases srv <;> rfl
  rw [hserver]
  intro hoffers
  by_cases hbusy : p.busy = true
  · rw [if_pos hbusy] at hoffers
    have hmoved := (hoffers hstate).2
    simp [hchanges] at hmoved
  · have hstopped : p.started = false := hlate.resolve_left hbusy
    have heval : (p.takeOver srv).evaluate = p.takeOver srv := by
      unfold evaluate
      simp [hstopped]
    rw [if_neg hbusy, heval] at hoffers
    have hmoved := (hoffers hstate).2
    simp [hchanges] at hmoved

end Pairing

variable {K : Kconfig}

theorem tokToken_ne_nil_iff {sm : Machine} (h : (view sm).Sound K) :
    tokToken sm ≠ [] ↔ sm.st.state = .approved := by
  unfold tokToken
  by_cases hstate : sm.st.state = .approved
  · have htoken : sm.store.token.isEmpty = false := h.token (.inr hstate)
    have hchars : sm.store.token.chars ≠ [] := by simpa [Buf.isEmpty] using htoken
    simp [hstate, hchars]
  · simp [hstate]

theorem offeredRightly_iff {sm : Machine} (h : (view sm).Sound K) :
    OfferedRightly sm ↔ (view sm).OffersRightly := by
  unfold OfferedRightly
  rw [tokToken_ne_nil_iff h]
  rfl

theorem step_offeredRightly_iff (sm : Machine) (input : Env × Event) (hsound : (view sm).Sound K)
    (h : OfferedRightly sm) : OfferedRightly (step K sm input) ↔ AddressHeld sm input := by
  rw [offeredRightly_iff (sound_step sm input hsound), view_step]
  constructor
  · intro hoffers srv hevent hchanges hstate
    by_contra hfree
    have hlate : sm.st.busy = true ∨ sm.started = false := by
      cases hbusy : sm.st.busy <;> simp_all
    rw [hevent] at hoffers
    exact Pairing.onServer_offends (p := (view sm).forgetCalls) hchanges hstate hlate hoffers
  · intro hheld
    exact Pairing.Move.offers (p := (view sm).forgetCalls) hsound.forgetCalls
      ((offeredRightly_iff hsound).mp h) hheld (Pairing.on_move K _ _ _)

theorem init_offeredRightly (cfg : Cfg) (store : Option Store) :
    OfferedRightly (init K cfg store) := by
  have hstate := (init_quiet (K := K) cfg store).2.1
  intro htoken
  simp [tokToken, hstate] at htoken

-- A run offers the token rightly all along exactly when none of its server
-- events takes the address away behind the state's back.
theorem offered_rightly_iff_address_held (cfg : Cfg) (store : Option Store)
    (inputs : List (Env × Event)) :
    Always (step K) OfferedRightly (init K cfg store) inputs ↔
      Along (step K) AddressHeld (init K cfg store) inputs :=
  always_iff_along (I := fun sm => (view sm).Sound K) (fun sm input h _ => sound_step sm input h)
    step_offeredRightly_iff (sound_init cfg store) (init_offeredRightly cfg store) inputs

-- An approved machine checks its token when the user moves to another server.
-- Until the check is answered the stream task is handed the token with the new
-- server's address.
theorem token_offered_to_other_server :
    ¬∀ (K : Kconfig) (cfg : Cfg) (store : Option Store) (inputs : List (Env × Event)),
      OfferedRightly (run (step K) (init K cfg store) inputs) := by
  intro h
  have hrun := h .default Cfg.sample (some (Store.holding (lit "jwt")))
    [(⟨0, 0⟩, .start), (⟨0, 0⟩, .server (some (Server.named (lit "boat") true))),
      (⟨60000, 0⟩, .timer), (⟨60000, 0⟩, .server (some (Server.named (lit "marina") false)))]
  revert hrun
  unfold OfferedRightly
  decide

end Espos.Sk.Token
