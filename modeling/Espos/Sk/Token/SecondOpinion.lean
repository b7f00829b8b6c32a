import Espos.Sk.Token.World

-- Over plaintext a token is given up on a second opinion only: the server that
-- refused it once refuses it again, with no acceptance in between.

namespace Espos.Sk.Token

open Espos.Text Espos.Run

-- What a server said of a token.
structure Verdict where
  server : Server
  token : Buf 1024
  accepted : Bool

namespace Verdict

-- The verdict is about this token, from this address.
def concerns (v : Verdict) (srv : Server) (token : Buf 1024) : Bool :=
  sameAddr v.server srv && v.token == token

-- Going back from the newest verdict, the server refused the token before
-- anyone accepted one.
def refusedSince (srv : Server) (token : Buf 1024) : List Verdict → Bool
  | [] => false
  | v :: older => !v.accepted && (v.concerns srv token || refusedSince srv token older)

-- The newest verdict is the second refusal in a row.
def refusedTwice (srv : Server) (token : Buf 1024) : List Verdict → Bool
  | [] => false
  | v :: older => !v.accepted && v.concerns srv token && refusedSince srv token older

end Verdict

-- A world that remembers the verdicts, the newest first.
structure Ledger where
  world : World
  log : List Verdict

namespace Ledger

def boot (K : Kconfig) (cfg : Cfg) (store : Option Store) : Ledger :=
  ⟨.boot K cfg store, []⟩

-- A 401 or 403 to a verify, or a 200, is the word of the server and about the
-- token it was sent with. The stream speaks of the present ones.
def verdicts (w : World) : Input → List Verdict
  | .event _ .unauthorized => [⟨w.sm.st.server, w.sm.store.token, false⟩]
  | .event _ _ => []
  | .answer _ i r =>
    match w.out[i]?, r.verifyAnswer with
    | some (.verify srv token), .unauthorized => [⟨srv, token, false⟩]
    | some (.verify srv token), .works _ => [⟨srv, token, true⟩]
    | _, _ => []

def step (K : Kconfig) (l : Ledger) (input : Input) : Ledger :=
  ⟨l.world.step K input, verdicts l.world input ++ l.log⟩

def isPlaintext : Input → Bool
  | .event _ (.server (some srv)) => !srv.tls
  | _ => true

-- The machine acts on an answer to `a`.
def hears (sm : Machine) (a : Action) : Bool :=
  sm.st.busy && !sm.reeval && a.suits sm.st.state

-- While one refusal is on record, the server and the token stay what they were
-- and an acceptance does not go unheard. What is heard is about the present
-- server and token.
def Steady (K : Kconfig) (l : Ledger) : Input → Prop
  | .event _ (.server srv) =>
    sameServer l.world.sm srv = false → l.world.sm.plainUnauthStreak = 0
  | .event _ (.manualToken tok) =>
    tok.isEmpty = false → tokenFits K tok = true → l.world.sm.plainUnauthStreak ≠ 0 →
      .print tok = l.world.sm.store.token
  | .event _ e => e.isResult = false
  | .answer _ i r =>
    match l.world.out[i]? with
    | some (.verify srv token) =>
      if hears l.world.sm (.verify srv token) then
        sameAddr srv l.world.sm.st.server = true ∧ token = l.world.sm.store.token
      else r.certError = false → r.httpStatus = 200 → l.world.sm.plainUnauthStreak = 0
    | some (.poll srv href) =>
      hears l.world.sm (.poll srv href) = true → r.pollAnswer K = .granted r.token →
        l.world.sm.plainUnauthStreak = 0
    | _ => True

end Ledger

namespace Pairing

variable {K : Kconfig} {due : Bool} {p q : Pairing} {e : Event}

-- The refusals on record stay about the same server and token.
structure SameCase (p q : Pairing) : Prop where
  streak : q.streak = p.streak
  token : q.store.token = p.store.token
  addr : sameAddr p.server q.server = true

theorem sameAddr_refl (s : Server) : sameAddr s s = true := by
  simp [sameAddr]

theorem Decision.sameCase (hq : Decision p q) : SameCase p q := by
  cases hq with
  | stopped _ => exact ⟨rfl, rfl, sameAddr_refl _⟩
  | alone _ _ => exact ⟨rfl, rfl, sameAddr_refl _⟩
  | poll _ _ _ _ => exact ⟨rfl, rfl, sameAddr_refl _⟩
  | approve _ _ _ _ _ => exact ⟨by simp, by simp, by simp [sameAddr]⟩
  | verify _ _ _ _ _ => exact ⟨by simp, by simp, by simp [sameAddr]⟩
  | request _ _ _ _ => exact ⟨by simp, by simp, by simp [sameAddr]⟩

theorem refresh_sameCase (p : Pairing) (srv : Server) : SameCase p (p.refresh srv) := by
  have haddr := (refresh_continues p srv).1
  unfold Pairing.refresh at haddr ⊢
  dsimp only at haddr ⊢
  split
  · rename_i hlearn
    rw [if_pos hlearn] at haddr
    exact ⟨rfl, rfl, haddr⟩
  · rename_i hlearn
    rw [if_neg hlearn] at haddr
    exact ⟨rfl, rfl, haddr⟩

theorem onManualToken_facts (p : Pairing) (token : Buf 1024) :
    (p.onManualToken token).streak = p.streak ∧ (p.onManualToken token).store.token = token ∧
      (p.onManualToken token).server = p.server := by
  unfold onManualToken
  generalize (if p.hasServer then p.server else Server.none) = srv
  dsimp only
  split
  · exact ⟨rfl, rfl, rfl⟩
  · split <;> exact ⟨rfl, rfl, rfl⟩

-- What an event does to the record: it is closed, the first refusal is entered,
-- or nothing happens to it. A new server or token is allowed on a clean record.
theorem Move.record (hm : Move K due p e q)
    (hserver : ∀ srv, e = .server srv → p.sameServer srv = false → p.streak = 0)
    (hmanual : ∀ tok, e = .manualToken tok → p.ignores K due e = false → p.streak ≠ 0 →
      .print tok = p.store.token)
    (hgranted : ∀ r token, e = .pollResult r → p.live e = true →
      r.pollAnswer K = .granted token → p.streak = 0) :
    q.streak = 0 ∨ (p.refuses e = true ∧ q.store.token = p.store.token ∧ q.server = p.server) ∨
      SameCase p q := by
  cases hm with
  | start _ hq =>
    obtain ⟨hstreak, htoken, haddr⟩ := hq.sameCase
    exact .inr (.inr ⟨hstreak, htoken, haddr⟩)
  | refresh _ => exact .inr (.inr (refresh_sameCase p _))
  | @postpone srv hother _ => exact .inl (hserver srv rfl hother)
  | @replace srv _ hother _ hq =>
    left
    rw [hq.sameCase.streak]
    exact hserver srv rfl hother
  | stale _ _ _ hq =>
    obtain ⟨hstreak, htoken, haddr⟩ := hq.sameCase
    exact .inr (.inr ⟨hstreak, htoken, haddr⟩)
  | @granted r token hlive hanswer => exact .inl (hgranted r token rfl hlive hanswer)
  | stillOpen _ _ _ => exact .inl rfl
  | verified _ _ _ => exact .inl rfl
  | secondOpinion hrefuses _ _ => exact .inr (.inl ⟨hrefuses, rfl, rfl⟩)
  | standInRefuses _ _ _ => exact .inl rfl
  | forget _ _ _ => exact .inl rfl
  | timerDecide _ _ hq =>
    obtain ⟨hstreak, htoken, haddr⟩ := hq.sameCase
    exact .inr (.inr ⟨hstreak, htoken, haddr⟩)
  | @manual tok hidle =>
    obtain ⟨hstreak, htoken, hsrv⟩ := onManualToken_facts p (.print tok)
    by_cases hclean : p.streak = 0
    · exact .inl (hstreak.trans hclean)
    · refine .inr (.inr ⟨hstreak, htoken.trans (hmanual tok rfl hidle hclean), ?_⟩)
      rw [hsrv]
      exact sameAddr_refl _
  | retryDecide _ _ hq => exact .inr (.inr hq.sameCase)
  | _ => exact .inr (.inr ⟨rfl, rfl, sameAddr_refl _⟩)

theorem Move.closes_record {r : HttpResult} {self : Buf 128} (hm : Move K due p (.verifyResult r) q)
    (hlive : p.live (.verifyResult r) = true) (hworks : r.verifyAnswer = .works self) :
    q.streak = 0 := by
  have hcert : r.certError = false := by
    by_contra h
    have hrefused : r.verifyAnswer = .certRefused := if_pos (by simpa using h)
    rw [hrefused] at hworks
    cases hworks
  have hrefuses : ¬p.refuses (.verifyResult r) = true := by simp [refuses, hworks]
  obtain ⟨_, hreeval, _⟩ := live_iff.mp hlive
  cases hm with
  | ignored h => simp [ignores, hlive] at h
  | stale _ h _ _ =>
    rw [hreeval] at h
    cases h
  | certRefused _ h =>
    rw [Event.certRefused, hcert] at h
    cases h
  | trouble _ h =>
    rw [troubled, hworks] at h
    cases h
  | stillOpen _ _ _ => rfl
  | verified _ _ _ => rfl
  | securityOn _ h _ =>
    rw [hworks] at h
    cases h
  | secondOpinion h _ _ => exact absurd h hrefuses
  | standInRefuses h _ _ => exact absurd h hrefuses
  | forget h _ _ => exact absurd h hrefuses

theorem Move.plaintext (hm : Move K due p e q) (hp : p.server.tls = false)
    (he : ∀ srv, e = .server (some srv) → srv.tls = false) : q.server.tls = false := by
  have hdecision {p' q' : Pairing} (hq : Decision p' q') (h : p'.server.tls = false) :
      q'.server.tls = false := by
    have haddr := hq.sameCase.addr
    simp only [sameAddr, Bool.and_eq_true, beq_iff_eq] at haddr
    rw [← haddr.2]
    exact h
  have htake (srv : Option Server) (hevent : e = .server srv) :
      (p.takeOver srv).server.tls = false := by
    cases srv with
    | none => rfl
    | some s => exact he s hevent
  cases hm with
  | start _ hq => exact hdecision hq hp
  | @refresh s _ =>
    have haddr := (refresh_continues p s).1
    simp only [sameAddr, Bool.and_eq_true, beq_iff_eq] at haddr
    rw [← haddr.2]
    exact hp
  | @postpone srv _ _ => exact htake srv rfl
  | @replace srv _ _ _ hq => exact hdecision hq (htake srv rfl)
  | stale _ _ _ hq => exact hdecision hq hp
  | timerDecide _ _ hq => exact hdecision hq hp
  | manual _ =>
    rw [(onManualToken_facts p _).2.2]
    exact hp
  | retryDecide _ _ hq => exact hdecision hq hp
  | _ => exact hp

-- Only a refusal erases the token, and over plaintext not the first one.
theorem Move.erases (hm : Move K due p e q) (htoken : p.store.token.isEmpty = false)
    (hgone : q.store.token.isEmpty = true) :
    p.refuses e = true ∧ (p.server.tls = true ∨ p.streak ≠ 0) := by
  have hkept (h : q.store.token = p.store.token) : False := by
    rw [h, htoken] at hgone
    cases hgone
  cases hm with
  | start _ hq => exact (hkept hq.sameCase.token).elim
  | refresh _ => exact (hkept (refresh_sameCase p _).token).elim
  | replace _ _ hq => exact (hkept hq.sameCase.token).elim
  | stale _ _ _ hq => exact (hkept hq.sameCase.token).elim
  | @granted r token _ hanswer =>
    have hnew : token.isEmpty = false := by
      grind [HttpResult.pollAnswer, grantsToken]
    have hgone : token.isEmpty = true := hgone
    rw [hnew] at hgone
    cases hgone
  | forget hrefuses hstreak _ => exact ⟨hrefuses, hstreak⟩
  | timerDecide _ _ hq => exact (hkept hq.sameCase.token).elim
  | @manual tok hidle =>
    have hnew : tok.isEmpty = false := by simp_all [ignores]
    rw [(onManualToken_facts p _).2.1, Buf.isEmpty_print tok (by decide), hnew] at hgone
    cases hgone
  | retryDecide _ _ hq => exact (hkept hq.sameCase.token).elim
  | _ => exact (hkept rfl).elim

end Pairing

namespace Verdict

theorem concerns_congr {s t : Server} (haddr : sameAddr s t = true) (token : Buf 1024)
    (v : Verdict) : v.concerns t token = v.concerns s token := by
  simp only [sameAddr, Bool.and_eq_true, beq_iff_eq] at haddr
  unfold concerns sameAddr
  rw [haddr.1.1, haddr.1.2, haddr.2]

theorem refusedSince_congr {s t : Server} (haddr : sameAddr s t = true) (token : Buf 1024)
    (log : List Verdict) : refusedSince t token log = refusedSince s token log := by
  induction log with
  | nil => rfl
  | cons v older ih => simp only [refusedSince, ih, concerns_congr haddr]

-- Verdicts that accept nothing leave an older refusal standing.
theorem refusedSince_append {s : Server} {token : Buf 1024} {new log : List Verdict}
    (hnew : ∀ v ∈ new, v.accepted = false) (h : refusedSince s token log = true) :
    refusedSince s token (new ++ log) = true := by
  induction new with
  | nil => exact h
  | cons v new ih =>
    have hv := hnew v (by simp)
    have hrest := ih fun u hu => hnew u (by simp [hu])
    simp [refusedSince, hv, hrest]

end Verdict

namespace Ledger

variable {K : Kconfig} {l : Ledger}

-- The server is a plaintext one, and a refusal that counts is in the log.
structure Recorded (l : Ledger) : Prop where
  plaintext : l.world.sm.st.server.tls = false
  refused : l.world.sm.plainUnauthStreak ≠ 0 →
    Verdict.refusedSince l.world.sm.st.server l.world.sm.store.token l.log = true

-- The event an input amounts to.
def eventOf (w : World) : Input → Option (Env × Event)
  | .event env e => some (env, e)
  | .answer env i r => (w.out[i]?).map fun a => (env, a.result r)

theorem step_of_eventOf_none {input : Input} (h : eventOf l.world input = none) :
    (l.step K input).world = l.world ∧ verdicts l.world input = [] := by
  cases input with
  | event env e => cases h
  | answer env i r =>
    have hout : l.world.out[i]? = none := by simpa [eventOf] using h
    exact ⟨World.step_answer_none hout env r, by simp [verdicts, hout]⟩

theorem step_of_eventOf_some {input : Input} {ev : Env × Event}
    (h : eventOf l.world input = some ev) :
    (l.step K input).world.sm = Token.step K l.world.sm ev := by
  cases input with
  | event env e =>
    obtain rfl : (env, e) = ev := by simpa [eventOf] using h
    rfl
  | answer env i r =>
    obtain ⟨a, hout, rfl⟩ := Option.map_eq_some_iff.mp h
    exact congrArg World.sm (World.step_answer_some hout env r)

-- The machine moves by what it gets to handle.
theorem move_of_eventOf_some {input : Input} {env : Env} {e : Event}
    (h : eventOf l.world input = some (env, e)) :
    Pairing.Move K (reached env.now l.world.sm.timerDueMs) (view l.world.sm).forgetCalls e
      (view (l.step K input).world.sm) := by
  rw [step_of_eventOf_some h, view_step]
  exact Pairing.on_move K _ _ e

-- A refusal that is acted on is the newest verdict, about the present server
-- and token.
theorem verdicts_of_refuses {input : Input} {env : Env} {e : Event}
    (h : eventOf l.world input = some (env, e)) (hsteady : l.Steady K input)
    (hrefuses : (view l.world.sm).refuses e = true) :
    ∃ v, verdicts l.world input = [v] ∧ v.accepted = false ∧
      v.concerns l.world.sm.st.server l.world.sm.store.token = true := by
  cases input with
  | event env' e' =>
    obtain ⟨rfl, rfl⟩ : env' = env ∧ e' = e := by simpa [eventOf] using h
    cases e' with
    | unauthorized =>
      exact ⟨_, rfl, rfl, by simp [Verdict.concerns, Pairing.sameAddr_refl]⟩
    | verifyResult r => cases hsteady
    | _ => cases hrefuses
  | answer env' i r =>
    obtain ⟨a, hout, hev⟩ := Option.map_eq_some_iff.mp h
    obtain ⟨rfl, rfl⟩ : env' = env ∧ a.result r = e := by simpa using hev
    cases a with
    | verify srv token =>
      have hlive : (view l.world.sm).live (.verifyResult r) = true := by
        simp_all [Pairing.refuses, Action.result]
      have hanswer : r.verifyAnswer = .unauthorized := by
        simp_all [Pairing.refuses, Action.result]
      have hhears : hears l.world.sm (.verify srv token) = true := hlive
      have habout : sameAddr srv l.world.sm.st.server = true ∧
          token = l.world.sm.store.token := by
        simpa [Steady, hout, hhears] using hsteady
      refine ⟨⟨srv, token, false⟩, by simp [verdicts, hout, hanswer], rfl, ?_⟩
      simp [Verdict.concerns, habout]
    | request _ _ => cases hrefuses
    | poll _ _ => cases hrefuses

-- An acceptance finds a clean record or cleans it.
theorem not_accepted {input : Input} {env : Env} {e : Event} {due : Bool} {q : Pairing}
    (h : eventOf l.world input = some (env, e)) (hsteady : l.Steady K input)
    (hm : (view l.world.sm).forgetCalls.Move K due e q) (hq : q.streak ≠ 0)
    (hp : l.world.sm.plainUnauthStreak ≠ 0) : ∀ v ∈ verdicts l.world input, v.accepted = false := by
  intro v hv
  cases input with
  | event env' e' => cases e' <;> simp_all [verdicts]
  | answer env' i r =>
    obtain ⟨a, hout, hev⟩ := Option.map_eq_some_iff.mp h
    obtain ⟨rfl, rfl⟩ : env' = env ∧ a.result r = e := by simpa using hev
    cases a with
    | request _ _ => simp [verdicts, hout] at hv
    | poll _ _ => simp [verdicts, hout] at hv
    | verify srv token =>
      cases hanswer : r.verifyAnswer with
      | certRefused => simp [verdicts, hout, hanswer] at hv
      | trouble => simp [verdicts, hout, hanswer] at hv
      | unauthorized =>
        obtain rfl : v = ⟨srv, token, false⟩ := by simpa [verdicts, hout, hanswer] using hv
        rfl
      | works self =>
        exfalso
        by_cases hhears : hears l.world.sm (.verify srv token) = true
        · exact hq (hm.closes_record hhears hanswer)
        · obtain ⟨hcert, hstatus⟩ : r.certError = false ∧ r.httpStatus = 200 := by
            grind [HttpResult.verifyAnswer]
          have hclean : r.certError = false → r.httpStatus = 200 →
              l.world.sm.plainUnauthStreak = 0 := by
            simpa [Steady, hout, hhears] using hsteady
          exact hp (hclean hcert hstatus)

-- The side conditions of `Move.record`, in terms of the ledger.
theorem record_of_steady {input : Input} {env : Env} {e : Event} {due : Bool} {q : Pairing}
    (h : eventOf l.world input = some (env, e)) (hsteady : l.Steady K input)
    (hm : (view l.world.sm).forgetCalls.Move K due e q) :
    q.streak = 0 ∨
      ((view l.world.sm).refuses e = true ∧ q.store.token = l.world.sm.store.token ∧
        q.server = l.world.sm.st.server) ∨
      (view l.world.sm).forgetCalls.SameCase q := by
  refine hm.record ?_ ?_ ?_
  · rintro srv rfl hother
    cases input with
    | event env' e' =>
      obtain ⟨_, rfl⟩ : env' = env ∧ e' = .server srv := by simpa [eventOf] using h
      exact hsteady hother
    | answer env' i r =>
      obtain ⟨a, _, hev⟩ := Option.map_eq_some_iff.mp h
      cases a <;> cases hev
  · rintro tok rfl hidle hstreak
    cases input with
    | event env' e' =>
      obtain ⟨_, rfl⟩ : env' = env ∧ e' = .manualToken tok := by simpa [eventOf] using h
      have htok : tok.isEmpty = false ∧ tokenFits K tok = true := by
        simpa [Pairing.ignores] using hidle
      exact hsteady htok.1 htok.2 hstreak
    | answer env' i r =>
      obtain ⟨a, _, hev⟩ := Option.map_eq_some_iff.mp h
      cases a <;> cases hev
  · rintro r token rfl hlive hanswer
    cases input with
    | event env' e' =>
      obtain ⟨_, rfl⟩ : env' = env ∧ e' = .pollResult r := by simpa [eventOf] using h
      cases hsteady
    | answer env' i r' =>
      obtain ⟨a, hout, hev⟩ := Option.map_eq_some_iff.mp h
      cases a with
      | poll srv href =>
        obtain ⟨_, rfl⟩ : env' = env ∧ r' = r := by simpa [Action.result] using hev
        have htoken : token = r'.token := Pairing.token_of_granted hanswer
        have hclean : hears l.world.sm (.poll srv href) = true →
            r'.pollAnswer K = .granted r'.token → l.world.sm.plainUnauthStreak = 0 := by
          simpa [Steady, hout] using hsteady
        exact hclean hlive (htoken ▸ hanswer)
      | request _ _ => cases hev
      | verify _ _ => cases hev

theorem recorded_step (l : Ledger) (input : Input) (h : l.Recorded)
    (hc : isPlaintext input = true ∧ l.Steady K input) : (l.step K input).Recorded := by
  obtain ⟨hplain, hsteady⟩ := hc
  cases hev : eventOf l.world input with
  | none =>
    obtain ⟨hworld, hverdicts⟩ := step_of_eventOf_none (K := K) hev
    constructor
    · rw [hworld]
      exact h.plaintext
    · change _ → Verdict.refusedSince _ _ (verdicts l.world input ++ l.log) = true
      rw [hworld, hverdicts]
      exact h.refused
  | some ev =>
    obtain ⟨env, e⟩ := ev
    have hm := move_of_eventOf_some (K := K) hev
    refine ⟨hm.plaintext h.plaintext ?_, fun hstreak => ?_⟩
    · rintro srv rfl
      cases input with
      | event env' e' =>
        obtain ⟨_, rfl⟩ : env' = env ∧ e' = .server (some srv) := by simpa [eventOf] using hev
        simpa [isPlaintext] using hplain
      | answer env' i r =>
        obtain ⟨a, _, hev⟩ := Option.map_eq_some_iff.mp hev
        cases a <;> cases hev
    · change Verdict.refusedSince _ _ (verdicts l.world input ++ l.log) = true
      rcases record_of_steady hev hsteady hm with hclean | ⟨hrefuses, htoken, hserver⟩ | hsame
      · exact absurd hclean hstreak
      · obtain ⟨v, hverdicts, hrefused, hconcerns⟩ := verdicts_of_refuses hev hsteady hrefuses
        have htoken : (l.step K input).world.sm.store.token = l.world.sm.store.token := htoken
        have hserver : (l.step K input).world.sm.st.server = l.world.sm.st.server := hserver
        rw [hverdicts, htoken, hserver]
        simp [Verdict.refusedSince, hrefused, hconcerns]
      · have hbefore : l.world.sm.plainUnauthStreak ≠ 0 := by
          rw [← show (l.step K input).world.sm.plainUnauthStreak =
            l.world.sm.plainUnauthStreak from hsame.streak]
          exact hstreak
        have htoken : (l.step K input).world.sm.store.token = l.world.sm.store.token := hsame.token
        have haddr : sameAddr l.world.sm.st.server (l.step K input).world.sm.st.server = true :=
          hsame.addr
        rw [htoken, Verdict.refusedSince_congr haddr]
        exact Verdict.refusedSince_append (not_accepted hev hsteady hm hstreak hbefore)
          (h.refused hbefore)

theorem recorded_boot (K : Kconfig) (cfg : Cfg) (store : Option Store) :
    (boot K cfg store).Recorded := by
  obtain ⟨_, _, _, _, hstreak, hserver⟩ := init_quiet (K := K) cfg store
  constructor
  · change (init K cfg store).st.server.tls = false
    rw [hserver]
    rfl
  · intro h
    exact absurd hstreak h

theorem refusedTwice_of_erased {input : Input} (h : l.Recorded) (hsteady : l.Steady K input)
    (htoken : l.world.sm.store.token.isEmpty = false)
    (hgone : (l.step K input).world.sm.store.token.isEmpty = true) :
    Verdict.refusedTwice l.world.sm.st.server l.world.sm.store.token (l.step K input).log = true := by
  cases hev : eventOf l.world input with
  | none =>
    rw [(step_of_eventOf_none (K := K) hev).1, htoken] at hgone
    cases hgone
  | some ev =>
    obtain ⟨env, e⟩ := ev
    have hm := move_of_eventOf_some (K := K) hev
    obtain ⟨hrefuses, hstreak⟩ := hm.erases htoken hgone
    have hcounted : l.world.sm.plainUnauthStreak ≠ 0 :=
      hstreak.resolve_left (by simp [h.plaintext])
    obtain ⟨v, hverdicts, hrefused, hconcerns⟩ := verdicts_of_refuses hev hsteady hrefuses
    change Verdict.refusedTwice _ _ (verdicts l.world input ++ l.log) = true
    rw [hverdicts]
    simp [Verdict.refusedTwice, hrefused, hconcerns, h.refused hcounted]

end Ledger

variable {K : Kconfig}

-- Whatever step of a steady plaintext run erases the token, it is the second
-- refusal in a row of that token by that server.
theorem token_erased_on_second_opinion (cfg : Cfg) (store : Option Store) (inputs : List Input)
    (input : Input) (hplain : ∀ x ∈ inputs ++ [input], Ledger.isPlaintext x = true)
    (hsteady : Along (Ledger.step K) (Ledger.Steady K) (Ledger.boot K cfg store)
      (inputs ++ [input])) :
    let l := run (Ledger.step K) (Ledger.boot K cfg store) inputs
    let l' := l.step K input
    l.world.sm.store.token.isEmpty = false → l'.world.sm.store.token.isEmpty = true →
      Verdict.refusedTwice l.world.sm.st.server l.world.sm.store.token l'.log = true := by
  intro l l' htoken hgone
  obtain ⟨hbefore, hlast⟩ := along_append.mp hsteady
  have hboth : Along (Ledger.step K) (fun l x => Ledger.isPlaintext x = true ∧ l.Steady K x)
      (Ledger.boot K cfg store) inputs :=
    along_and (along_of_forall fun x hx => hplain x (by simp [hx])) hbefore
  have hrecorded : l.Recorded :=
    run_invariant_of_along Ledger.recorded_step (Ledger.recorded_boot K cfg store) hboth
  exact Ledger.refusedTwice_of_erased hrecorded hlast.1 htoken hgone

-- The same server refuses twice.
def refusedTwiceAtBoat : List Input :=
  [.event ⟨0, 0⟩ .start, .event ⟨0, 0⟩ (.server (some (.named (lit "boat") false))),
    .answer ⟨1, 0⟩ 0 (.status 200), .event ⟨2, 0⟩ .unauthorized]

theorem token_erased_at_boat :
    let l := run (Ledger.step .default)
      (Ledger.boot .default .sample (some (.holding (lit "jwt")))) refusedTwiceAtBoat
    let l' := l.step .default (.event ⟨3, 0⟩ .unauthorized)
    l'.world.sm.store.token.isEmpty = true ∧
      Verdict.refusedTwice l.world.sm.st.server l.world.sm.store.token l'.log = true := by
  refine ⟨by decide, ?_⟩
  refine token_erased_on_second_opinion .sample (some (.holding (lit "jwt"))) refusedTwiceAtBoat
    (.event ⟨3, 0⟩ .unauthorized) ?_ ?_ (by decide) (by decide)
  · decide
  · refine ⟨rfl, fun _ => by decide, ?_, rfl, rfl, trivial⟩
    change sameAddr (.named (lit "boat") false) (.named (lit "boat") false) = true ∧
      (Buf.print (lit "jwt") : Buf 1024) = .print (lit "jwt")
    decide

-- The counter is shared by all servers: one refusal at the old server and one
-- at the new server erase the token.
theorem token_erased_on_first_refusal :
    ¬∀ (K : Kconfig) (cfg : Cfg) (store : Option Store) (inputs : List Input) (input : Input),
      (∀ x ∈ inputs ++ [input], Ledger.isPlaintext x = true) →
        let l := run (Ledger.step K) (Ledger.boot K cfg store) inputs
        let l' := l.step K input
        l.world.sm.store.token.isEmpty = false → l'.world.sm.store.token.isEmpty = true →
          Verdict.refusedTwice l.world.sm.st.server l.world.sm.store.token l'.log = true := by
  intro h
  have htwice := h .default .sample (some (.holding (lit "jwt")))
    (refusedTwiceAtBoat ++ [.event ⟨3, 0⟩ (.server (some (.named (lit "marina") false)))])
    (.answer ⟨4, 0⟩ 0 (.status 401)) (by decide) (by decide) (by decide)
  exact absurd htwice (by decide)

end Espos.Sk.Token
