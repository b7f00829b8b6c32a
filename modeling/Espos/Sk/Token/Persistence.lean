import Espos.Sk.Token.Sound

-- What the port saved last is what the machine believes, so a power cut loses
-- nothing and repeats nothing.

namespace Espos.Sk.Token

open Espos.Text Espos.Run

def lastSaved (calls : List Call) (before : Store) : Store :=
  (calls.findSome? Call.store?).getD before

-- A machine together with what lies in flash.
structure Device where
  sm : Machine
  saved : Store

def boot (K : Kconfig) (cfg : Cfg) (store : Option Store) : Device :=
  let sm := init K cfg store
  ⟨sm, lastSaved sm.calls (store.getD .blank)⟩

def Device.step (K : Kconfig) (d : Device) (input : Env × Event) : Device :=
  let sm := Token.step K d.sm input
  ⟨sm, lastSaved sm.calls d.saved⟩

def currentServer (sm : Machine) : Option Server :=
  if sm.st.hasServer then some sm.st.server else none

-- A power cut: the machine starts from flash and is told of the same server.
def Device.restarted (K : Kconfig) (d : Device) (env : Env) : Machine :=
  Token.step K (init K d.sm.cfg (some d.saved)) (env, .start)

def Device.resumed (K : Kconfig) (d : Device) (env env' : Env) : Machine :=
  Token.step K (d.restarted K env) (env', .server (currentServer d.sm))

namespace Pairing

-- The store is what the port has: what it was handed since the event began, or
-- what it had before.
structure Kept (before : Store) (p : Pairing) : Prop where
  saved : p.saved.getD before = p.store
  hasToken : p.hasToken = !p.store.token.isEmpty
  pendingHref : p.pendingHref = p.store.pendingHref

variable {K : Kconfig} {before : Store} {p q : Pairing}

theorem Kept.keep (p : Pairing) (store : Store) : Kept before (p.keep store) :=
  ⟨rfl, rfl, rfl⟩

-- An update that leaves the store and what is shown of it alone.
theorem Kept.congr (h : Kept before p) (hstore : q.store = p.store) (hsaved : q.saved = p.saved)
    (htoken : q.hasToken = p.hasToken) (hpending : q.pendingHref = p.pendingHref) :
    Kept before q := by
  obtain ⟨h₁, h₂, h₃⟩ := h
  constructor <;> simp_all

theorem Kept.keepNew (h : Kept before p) (store : Store) : Kept before (p.keepNew store) := by
  obtain ⟨h₁, h₂, h₃⟩ := h
  by_cases hsame : p.store = store
  · constructor <;> simp_all
  · constructor <;> simp [hsame]

theorem Kept.dropForeign (h : Kept before p) : Kept before p.dropForeign := by
  unfold Pairing.dropForeign
  split
  · exact h
  · exact .keep _ _

theorem Decision.kept (hq : Decision p q) (h : Kept before p) : Kept before q := by
  cases hq with
  | stopped _ => exact h
  | alone _ _ => exact h.congr rfl rfl rfl rfl
  | poll _ _ _ _ => exact h.congr rfl rfl rfl rfl
  | approve _ _ _ _ _ => exact h.dropForeign.congr rfl rfl rfl rfl
  | verify _ _ _ _ _ => exact h.dropForeign.congr rfl rfl rfl rfl
  | request _ _ _ _ => exact h.dropForeign.congr rfl rfl rfl rfl

theorem Kept.refresh (h : Kept before p) (srv : Server) : Kept before (p.refresh srv) := by
  unfold Pairing.refresh
  dsimp only
  split
  · exact .keep _ _
  · exact h.congr rfl rfl rfl rfl

theorem Kept.verified (h : Kept before p) (self : Buf 128) : Kept before (p.verified self) := by
  have hlearn : Kept before (p.learnSelf self) := h.congr rfl rfl rfl rfl
  exact (hlearn.keepNew (p.store.learn p.server self)).congr rfl rfl rfl rfl

theorem Kept.onManualToken (token : Buf 1024) : Kept before (p.onManualToken token) := by
  unfold Pairing.onManualToken
  dsimp only
  generalize (if p.hasServer then p.server else Server.none) = srv
  have hkeep : Kept before (p.keep (p.store.withToken token srv)) := .keep _ _
  split
  · exact hkeep
  · split
    · exact hkeep.congr rfl rfl rfl rfl
    · exact hkeep.congr rfl rfl rfl rfl

theorem Move.kept {due : Bool} {e : Event} (h : Kept before p) (hm : Move K due p e q) :
    Kept before q := by
  cases hm with
  | ignored _ => exact h
  | start _ hq => exact hq.kept (h.congr rfl rfl rfl rfl)
  | refresh _ => exact h.refresh _
  | replace _ _ hq => exact hq.kept (h.congr rfl rfl rfl rfl)
  | stale _ _ _ hq => exact hq.kept (h.congr rfl rfl rfl rfl)
  | pending _ _ => exact Kept.congr (.keep p.settle _) rfl rfl rfl rfl
  | granted _ _ => exact Kept.congr (.keep p.settle _) rfl rfl rfl rfl
  | refused _ _ => exact Kept.congr (.keep p.settle _) rfl rfl rfl rfl
  | lost _ _ _ => exact Kept.congr (.keep p.settle _) rfl rfl rfl rfl
  | verified _ _ _ => exact (h.congr rfl rfl rfl rfl : Kept before p.settle.forgive).verified _
  | forget _ _ _ => exact Kept.congr (.keep p.settle.forgive _) rfl rfl rfl rfl
  | timerDecide _ _ hq => exact hq.kept (h.congr rfl rfl rfl rfl)
  | manual _ => exact .onManualToken _
  | retryRequest _ _ => exact Kept.congr (.keep p _) rfl rfl rfl rfl
  | retryDecide _ _ hq => exact hq.kept h
  | _ => exact h.congr rfl rfl rfl rfl

-- What `evaluate` decides depends on the server, the store and the
-- configuration, and on nothing else the machine went through.
theorem evaluate_congr (hp : p.started = true) (hq : q.started = true)
    (hhas : p.hasServer = q.hasServer) (hserver : q.hasServer = true → p.server = q.server)
    (hstore : p.store = q.store) (hcfg : p.cfg = q.cfg) (hissued : p.issued = q.issued) :
    p.evaluate.issued = q.evaluate.issued ∧ p.evaluate.state = q.evaluate.state := by
  unfold evaluate evaluateToken
  rw [hp, hq, hhas]
  by_cases hhas : q.hasServer = true
  · have hserver := hserver hhas
    rw [hhas, hstore, hserver]
    simp only [keep_store, keep_server, hserver]
    repeat' split
    all_goals simp_all
  · rw [Bool.not_eq_true] at hhas
    rw [hhas]
    exact ⟨hissued, rfl⟩

-- The first thing a server event leads to on a machine that had none.
theorem onServer_of_alone (srv : Option Server) (hhas : p.hasServer = false)
    (hbusy : p.busy = false) : p.onServer srv = (p.takeOver srv).evaluate := by
  cases srv with
  | none =>
    unfold onServer
    rw [hbusy]
    rfl
  | some s =>
    have hother : p.sameServer (some s) = false := by simp [sameServer, hhas]
    unfold onServer
    rw [hother, hbusy]
    rfl

theorem onStart_of_alone (hstarted : p.started = false) (hhas : p.hasServer = false) :
    p.onStart = p.begin.rest .noServer := by
  unfold onStart evaluate
  simp [hstarted, hhas]

end Pairing

variable {K : Kconfig}

theorem kept_boot (cfg : Cfg) (store : Option Store) :
    (view (boot K cfg store).sm).forgetCalls.Kept (boot K cfg store).saved := by
  unfold boot init
  dsimp only
  split
  · constructor
    · rfl
    · rfl
    · exact Buf.print_chars _
  · constructor
    · rfl
    · rfl
    · exact Buf.print_chars _

theorem kept_step (d : Device) (input : Env × Event)
    (h : (view d.sm).forgetCalls.Kept d.saved) :
    (view (d.step K input).sm).forgetCalls.Kept (d.step K input).saved := by
  have hstep : (view (step K d.sm input)).Kept d.saved := by
    rw [view_step]
    exact Pairing.Move.kept h (Pairing.on_move K _ _ _)
  exact ⟨hstep.saved, hstep.hasToken, hstep.pendingHref⟩

theorem run_device_sm (cfg : Cfg) (store : Option Store) (inputs : List (Env × Event)) :
    (run (Device.step K) (boot K cfg store) inputs).sm =
      run (step K) (init K cfg store) inputs := by
  have hrun (d : Device) : (run (Device.step K) d inputs).sm = run (step K) d.sm inputs := by
    induction inputs generalizing d with
    | nil => rfl
    | cons input inputs ih => exact ih (d.step K input)
  exact hrun (boot K cfg store)

theorem kept_run (cfg : Cfg) (store : Option Store) (inputs : List (Env × Event)) :
    let d := run (Device.step K) (boot K cfg store) inputs
    (view d.sm).forgetCalls.Kept d.saved :=
  run_invariant (P := fun d : Device => (view d.sm).forgetCalls.Kept d.saved)
    kept_step (kept_boot cfg store) inputs

theorem init_of_fits (cfg : Cfg) (store : Store) (hfits : tokenFits K store.token.chars = true) :
    init K cfg (some store) = resetBackoffs (showStored (blank cfg store)) :=
  congrArg (fun sm => resetBackoffs (showStored sm)) (if_pos hfits)

section Resume

variable (d : Device) (env env' : Env) (hfits : tokenFits K d.saved.token.chars = true)

include hfits

theorem view_restarted :
    view (d.restarted K env) =
      ((view (resetBackoffs (showStored (blank d.sm.cfg d.saved)))).begin.rest .noServer) := by
  unfold Device.restarted
  rw [view_step, init_of_fits _ _ hfits]
  exact Pairing.onStart_of_alone rfl rfl

theorem view_resumed :
    view (d.resumed K env env') =
      ((view (d.restarted K env)).takeOver (currentServer d.sm)).evaluate := by
  unfold Device.resumed
  rw [view_step]
  have hview := view_restarted d env hfits
  have hcalls : (view (d.restarted K env)).forgetCalls = view (d.restarted K env) := by
    rw [hview]
    rfl
  rw [hcalls]
  refine Pairing.onServer_of_alone _ ?_ ?_
  · rw [hview]
    rfl
  · rw [hview]
    rfl

-- After a power cut the machine asks the port for what the machine that ran on
-- would ask for, and stands where it would stand.
theorem resumed_eq_evaluate (hsaved : d.saved = d.sm.store) :
    let running := evaluate env (setStarted (forgetCalls d.sm) true)
    actions (d.restarted K env') ++ actions (d.resumed K env' env) = actions running ∧
      (d.resumed K env' env).st.state = running.st.state := by
  intro running
  have hrestarted := view_restarted d env' hfits
  have hview := view_resumed d env' env hfits
  have hrun := view_evaluate env (setStarted (forgetCalls d.sm) true)
  have hquiet : actions (d.restarted K env') = [] := congrArg (·.issued.reverse) hrestarted
  have hcongr := Pairing.evaluate_congr
    (p := (view (d.restarted K env')).takeOver (currentServer d.sm))
    (q := view (setStarted (forgetCalls d.sm) true))
    (by rw [hrestarted]; rfl) rfl
    (by simp [currentServer, setStarted, forgetCalls, view]; split <;> simp_all)
    (by intro hhas; simp_all [currentServer, setStarted, forgetCalls, view])
    (by rw [hrestarted]; exact hsaved) (by rw [hrestarted]; rfl) (by rw [hrestarted]; rfl)
  rw [← hview, ← hrun] at hcongr
  rw [hquiet, List.nil_append]
  exact ⟨congrArg List.reverse hcongr.1, hcongr.2⟩

end Resume

theorem saved_is_believed (cfg : Cfg) (store : Option Store) (inputs : List (Env × Event)) :
    let d := run (Device.step K) (boot K cfg store) inputs
    d.saved = d.sm.store ∧
      d.sm.st.hasToken = !d.sm.store.token.isEmpty ∧
      d.sm.st.pendingHref = d.sm.store.pendingHref ∧
      ∀ env env' : Env,
        let running := evaluate env (setStarted (forgetCalls d.sm) true)
        actions (d.restarted K env') ++ actions (d.resumed K env' env) = actions running ∧
          (d.resumed K env' env).st.state = running.st.state := by
  intro d
  have hkept := kept_run (K := K) cfg store inputs
  have hsm : d.sm = run (step K) (init K cfg store) inputs := run_device_sm cfg store inputs
  have hsound : (view d.sm).Sound K := by
    rw [hsm]
    exact sound_run cfg store inputs
  have hsaved : d.saved = d.sm.store := hkept.saved
  have hfits : tokenFits K d.saved.token.chars = true := by
    rw [hsaved]
    exact hsound.fits
  exact ⟨hsaved, hkept.hasToken, hkept.pendingHref,
    fun env env' => resumed_eq_evaluate d env env' hfits hsaved⟩

end Espos.Sk.Token
