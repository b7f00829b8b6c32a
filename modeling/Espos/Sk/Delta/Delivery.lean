import Espos.Lib.Run
import Espos.Sk.Delta.Publishing

namespace Espos.Sk.Delta

open Espos.Text
open Espos.Run

-- The engine and its owner: the message the owner holds, the messages it got
-- through to the server, and the values published with success.
structure Link (maxMsgs : Nat) where
  eng : Engine maxMsgs
  out : Option Msg
  delivered : List Msg
  published : List Published

inductive Event
  | publishAt (context : Option CStr) (path value : CStr) (atMs : Int)
  | flush
  | take (connected : Bool)
  | requeue
  | deliver

namespace Link

variable {maxMsgs : Nat}

def start (cfg : Cfg) : Link cfg.capacity :=
  ⟨create cfg, none, [], []⟩

def step (K : Kconfig) (l : Link maxMsgs) (call : Env × Event) : Link maxMsgs :=
  match call.2 with
  | .publishAt context path value atMs =>
    let r := l.eng.publishAt K call.1 context path value atMs
    { l with
      eng := r.1
      published := Engine.logged l.published (context.getD SELF_CONTEXT) path value atMs r }
  | .flush => { l with eng := (l.eng.flush call.1).1 }
  | .take connected =>
    let r := l.eng.take call.1 connected
    { l with eng := r.1, out := r.2.or l.out }
  | .requeue =>
    match l.out with
    | none => l
    | some m => { l with eng := l.eng.requeue m, out := none }
  | .deliver =>
    match l.out with
    | none => l
    | some m => { l with out := none, delivered := l.delivered ++ [m] }

-- The engine whose window a call closes, if it closes one.
def closing (K : Kconfig) (l : Link maxMsgs) (call : Env × Event) : Option (Engine maxMsgs) :=
  match call.2 with
  | .publishAt context path value atMs => l.eng.closedBy K context path value atMs
  | .flush => if l.eng.pending = [] then none else some l.eng
  | .take _ => if l.eng.batchDue call.1.now then some l.eng else none
  | .requeue => none
  | .deliver => none

-- A call that loses nothing: a window it closes can be built and fits, a
-- message is put back while there is room for it, and none is taken while the
-- owner holds one.
structure Lossless (K : Kconfig) (l : Link maxMsgs) (call : Env × Event) : Prop where
  roomy : ∀ d, l.closing K call = some d → d.Roomy call.1
  room : call.2 = .requeue → l.out ≠ none → l.eng.ring.count < maxMsgs
  inTurn : ∀ connected, call.2 = .take connected → l.out = none

-- What `Lossless` asks, call by call.
def inTurnOf (l : Link maxMsgs) : Event → Bool
  | .requeue => l.out.isNone || decide (l.eng.ring.count < maxMsgs)
  | .take _ => l.out.isNone
  | .publishAt _ _ _ _ | .flush | .deliver => true

theorem lossless_iff {K : Kconfig} {l : Link maxMsgs} {call : Env × Event} :
    l.Lossless K call ↔
      (∀ d ∈ l.closing K call, d.Roomy call.1) ∧ l.inTurnOf call.2 = true := by
  obtain ⟨env, event⟩ := call
  constructor
  · rintro ⟨hroomy, hroom, hturn⟩
    refine ⟨hroomy, ?_⟩
    cases event with
    | requeue => cases hout : l.out <;> simp_all [inTurnOf]
    | take connected => simp [inTurnOf, hturn connected rfl]
    | publishAt _ _ _ _ | flush | deliver => rfl
  · rintro ⟨hroomy, hturn⟩
    refine ⟨hroomy, ?_, ?_⟩
    · rintro rfl hout
      simpa [inTurnOf, hout] using hturn
    · rintro connected rfl
      simpa [inTurnOf] using hturn

instance (K : Kconfig) (l : Link maxMsgs) (call : Env × Event) : Decidable (l.Lossless K call) :=
  decidable_of_iff _ lossless_iff.symm

-- The documents of the messages handed out and not put back, in order.
def handed (l : Link maxMsgs) : List Doc :=
  l.delivered.map Msg.doc ++ (l.out.map Msg.doc).toList

structure Sound (l : Link maxMsgs) : Prop where
  traced : l.eng.Traced l.handed l.published
  closed : l.eng.Closed
  carries : ∀ m, l.out = some m → l.eng.Carries m
  written : ∀ m ∈ l.delivered, m.text = m.doc.render

variable {l : Link maxMsgs} {K : Kconfig} {env : Env}

theorem sound_start (cfg : Cfg) : (start cfg).Sound := by
  refine ⟨⟨?_, ?_, ?_⟩, ?_, ?_, ?_⟩
  · constructor <;> simp [start, create]
  · simp [start, create]
  · intro context path
    exact ⟨[], [], rfl, rfl, rfl, by simp, by simp⟩
  · intro _
    rfl
  · simp [start]
  · simp [start]

theorem Sound.publishAt {context : Option CStr} {path value : CStr} {atMs : Int} (h : l.Sound)
    (hroomy : ∀ d, l.eng.closedBy K context path value atMs = some d → d.Roomy env) :
    (l.step K (env, .publishAt context path value atMs)).Sound := by
  obtain ⟨htraced, hundated, hclosed⟩ := h.traced.publishAt h.closed hroomy
  exact ⟨htraced, hclosed, fun m hm => (h.carries m hm).congr hundated, h.written⟩

-- The engine after it closed its window, or had none to close.
theorem Sound.flushed (h : l.Sound) (hroomy : l.eng.pending ≠ [] → l.eng.Roomy env) :
    Sound { l with eng := (l.eng.flushWindow env).1 } := by
  by_cases hnil : l.eng.pending = []
  · have hkept : l.eng.flushWindow env = (l.eng, true) := by simp [Engine.flushWindow, hnil]
    rw [hkept]
    exact h
  · obtain ⟨htraced, hundated, hclosed, hkept⟩ := h.traced.flushWindow hnil (hroomy hnil)
    refine ⟨htraced, ?_, fun m hm => (h.carries m hm).congr hundated, h.written⟩
    intro hpending
    cases hflush : (l.eng.flushWindow env).2 with
    | true => exact (hclosed hflush).2
    | false => exact absurd hpending (hkept hflush)

theorem Sound.closeDue (h : l.Sound)
    (hroomy : l.eng.batchDue env.now = true → l.eng.Roomy env) :
    Sound { l with eng := l.eng.closeDue env } := by
  unfold Engine.closeDue
  split
  · rename_i hdue
    exact h.flushed fun _ => hroomy hdue
  · exact h

theorem Sound.setDraining (h : l.Sound) (draining : Bool) :
    Sound { l with eng := l.eng.setDraining draining } :=
  ⟨⟨h.traced.orderly.congr rfl rfl rfl, h.traced.faithful, h.traced.inOrder⟩, h.closed, h.carries,
    h.written⟩

theorem Sound.handOut (h : l.Sound) (hout : l.out = none) (hcount : l.eng.ring.count ≠ 0) :
    Sound { l with eng := (l.eng.handOut env).1, out := (l.eng.handOut env).2.or l.out } := by
  obtain ⟨q, m, hring, hm, hcarries, hwindow, hvalues⟩ :=
    Engine.handOut_spec env hcount h.traced.faithful
  rw [hm, hout]
  refine ⟨?_, ?_, ?_, h.written⟩
  · apply h.traced.congr hwindow
    · intro q' hq'
      apply h.traced.faithful
      rw [hring]
      exact List.mem_cons_of_mem q hq'
    · intro context path
      have hdocs : l.eng.docs = q.msg.doc :: (l.eng.handOut env).1.docs := by
        simp only [Engine.docs, hring, List.map_cons]
      simp [handed, hout, hdocs, hvalues]
  · exact h.closed.congr hwindow
  · intro m' hm'
    obtain rfl : m = m' := by simpa using hm'
    exact hcarries

theorem Sound.take {connected : Bool} (h : l.Sound) (hout : l.out = none)
    (hroomy : l.eng.batchDue env.now = true → l.eng.Roomy env) :
    (l.step K (env, .take connected)).Sound := by
  have hclosed := h.closeDue hroomy
  change Sound { l with
    eng := ((l.eng.closeDue env).send env connected).1
    out := ((l.eng.closeDue env).send env connected).2.or l.out }
  generalize l.eng.closeDue env = d at hclosed
  unfold Engine.send
  split
  · exact hclosed.setDraining false
  · rename_i hready
    split
    · exact hclosed
    · have hcount : d.ring.count ≠ 0 := by
        intro hzero
        simp [hzero] at hready
      exact (hclosed.setDraining _).handOut hout hcount

theorem Sound.requeue (h : l.Sound) (hroom : l.out ≠ none → l.eng.ring.count < maxMsgs) :
    (l.step K (env, .requeue)).Sound := by
  simp only [step]
  split
  · exact h
  · rename_i m hm
    have hlt := hroom (by simp [hm])
    obtain ⟨q, hring, hq, hfaithful, hwindow⟩ := Engine.requeue_spec hlt (h.carries m hm)
    refine ⟨?_, ?_, by simp, h.written⟩
    · apply h.traced.congr hwindow
      · intro q' hq'
        rw [hring] at hq'
        rcases List.mem_cons.mp hq' with rfl | hq'
        · exact hfaithful
        · exact h.traced.faithful q' hq'
      · intro context path
        have hdocs : (l.eng.requeue m).docs = m.doc :: l.eng.docs := by
          simp only [Engine.docs, hring, List.map_cons, hq]
        simp [handed, hm, hdocs]
    · exact h.closed.congr hwindow

theorem Sound.deliver (h : l.Sound) : (l.step K (env, .deliver)).Sound := by
  simp only [step]
  split
  · exact h
  · rename_i m hm
    refine ⟨?_, h.closed, by simp, ?_⟩
    · have hhanded : handed { l with out := none, delivered := l.delivered ++ [m] } = l.handed := by
        simp [handed, hm]
      rw [hhanded]
      exact h.traced
    · intro m' hm'
      rcases List.mem_append.mp hm' with hm' | hm'
      · exact h.written m' hm'
      · rw [List.mem_singleton] at hm'
        rw [hm']
        exact (h.carries m hm).1

theorem sound_step (K : Kconfig) (l : Link maxMsgs) (call : Env × Event) (h : l.Sound)
    (hlossless : l.Lossless K call) : (l.step K call).Sound := by
  obtain ⟨env, event⟩ := call
  cases event with
  | publishAt context path value atMs => exact h.publishAt hlossless.roomy
  | flush =>
    apply h.flushed
    intro hopen
    apply hlossless.roomy
    simp [closing, hopen]
  | take connected =>
    apply h.take (hlossless.inTurn connected rfl)
    intro hdue
    apply hlossless.roomy
    simp [closing, hdue]
  | requeue => exact h.requeue (hlossless.room rfl)
  | deliver => exact h.deliver

-- Nothing published is still on its way.
def Idle (l : Link maxMsgs) : Prop :=
  l.out = none ∧ l.eng.ring.toList = [] ∧ l.eng.pending = []

instance (l : Link maxMsgs) : Decidable l.Idle :=
  inferInstanceAs (Decidable (_ ∧ _ ∧ _))

-- What the server has read for a path, what was published for it, and what of
-- that was not replaced within its window.
def received (l : Link maxMsgs) (context path : CStr) : List CStr :=
  (l.delivered.map Msg.doc).flatMap (Doc.valuesOf context path)

def publishedAt (l : Link maxMsgs) (context path : CStr) : List CStr :=
  (l.published.filter (Published.isAt context path)).map Published.value

def survivingAt (l : Link maxMsgs) (context path : CStr) : List CStr :=
  ((survivors l.published).filter (Published.isAt context path)).map Published.value

theorem survivingAt_sublist (l : Link maxMsgs) (context path : CStr) :
    (l.survivingAt context path).Sublist (l.publishedAt context path) := by
  unfold survivingAt publishedAt
  rw [filter_survivors]
  exact (survivors_sublist _).map _

theorem getLast?_survivingAt (l : Link maxMsgs) (context path : CStr) :
    (l.survivingAt context path).getLast? = (l.publishedAt context path).getLast? := by
  unfold survivingAt publishedAt
  rw [filter_survivors, List.getLast?_map, List.getLast?_map, getLast?_survivors]

-- What survives of a path is what the server has read, what is in the owner's
-- hands or in the ring, and what the open window holds, in this order.
theorem Sound.survivingAt_eq (h : l.Sound) (context path : CStr) :
    l.survivingAt context path =
      l.received context path ++
        ((l.out.map Msg.doc).toList ++ l.eng.docs).flatMap (Doc.valuesOf context path) ++
        (l.eng.entriesOf context path).map Entry.value := by
  obtain ⟨past, cur, hsplit, hpast, hcur, _, _⟩ := h.traced.inOrder context path
  have hvalues : cur.map Published.value = (l.eng.entriesOf context path).map Entry.value := by
    have := congrArg (List.map Prod.snd) hcur
    simpa only [List.map_map, Function.comp_def] using this
  unfold survivingAt received
  rw [hsplit, List.map_append, hpast, hvalues]
  simp [handed]

theorem Sound.received_of_idle (h : l.Sound) (hidle : l.Idle) (context path : CStr) :
    l.received context path = l.survivingAt context path := by
  obtain ⟨hout, hring, hpending⟩ := hidle
  rw [h.survivingAt_eq]
  simp [hout, Engine.docs, hring, Engine.entriesOf, hpending]

end Link

-- Along a run that loses nothing, the server reads a path's values in the
-- order they were published. It reads what was not replaced, and when nothing
-- is on its way it has read all of that, the last value published included.
theorem delivered_in_order (K : Kconfig) (cfg : Cfg) (calls : List (Env × Event))
    (h : Along (Link.step K) (Link.Lossless K) (Link.start cfg) calls) (context path : CStr) :
    let l := run (Link.step K) (Link.start cfg) calls
    (∀ m ∈ l.delivered, m.text = m.doc.render) ∧
      (l.received context path).Sublist (l.publishedAt context path) ∧
      l.received context path <+: l.survivingAt context path ∧
      (l.Idle → l.received context path = l.survivingAt context path ∧
        (l.received context path).getLast? = (l.publishedAt context path).getLast?) := by
  intro l
  have hsound : l.Sound := run_invariant_of_along (Link.sound_step K) (Link.sound_start cfg) h
  have hprefix : l.received context path <+: l.survivingAt context path := by
    rw [hsound.survivingAt_eq, List.append_assoc]
    exact List.prefix_append _ _
  refine ⟨hsound.written, ?_, hprefix, ?_⟩
  · exact hprefix.sublist.trans (l.survivingAt_sublist context path)
  · intro hidle
    have hall := hsound.received_of_idle hidle context path
    refine ⟨hall, ?_⟩
    rw [hall]
    exact l.getLast?_survivingAt context path

-- Two values of one path. The first one is in the owner's hands when the second is
-- published, is put back, and is handed out again before it.
def sentValues : List (Env × Event) :=
  let env := Env.clockless 0
  let later := Env.clockless 1000
  [(env, .publishAt none (lit "a") (lit "1") 0), (env, .flush), (env, .take true),
    (env, .publishAt none (lit "a") (lit "2") 0), (env, .flush), (env, .requeue),
    (later, .take true), (later, .deliver), (Env.clockless 2000, .take true), (later, .deliver)]

theorem sentValue_delivered :
    let l := run (Link.step .default) (Link.start (Cfg.ofRing 2 0 true)) sentValues
    l.received SELF_CONTEXT (lit "a") = [lit "1", lit "2"] ∧
      l.received SELF_CONTEXT (lit "a") = l.survivingAt SELF_CONTEXT (lit "a") ∧
      (l.received SELF_CONTEXT (lit "a")).getLast? =
        (l.publishedAt SELF_CONTEXT (lit "a")).getLast? := by
  have hlossless : Along (Link.step .default) (Link.Lossless .default)
      (Link.start (Cfg.ofRing 2 0 true)) sentValues := by
    decide +kernel
  obtain ⟨-, -, -, hidle⟩ :=
    delivered_in_order .default (Cfg.ofRing 2 0 true) sentValues hlossless SELF_CONTEXT (lit "a")
  exact ⟨by decide +kernel, hidle (by decide +kernel)⟩

-- A window larger than the whole buffer is dropped, also under `noDrop`.
theorem oversize_window_lost :
    ¬ ∀ (K : Kconfig) (cfg : Cfg) (calls : List (Env × Event)), cfg.noDrop = true →
      Along (Link.step K) (fun l call => ∀ connected, call.2 = .take connected → l.out = none)
        (Link.start cfg) calls →
      ∀ context path,
        let l := run (Link.step K) (Link.start cfg) calls
        (l.received context path).Sublist (l.publishedAt context path) ∧
          (l.Idle → l.received context path = l.survivingAt context path ∧
            (l.received context path).getLast? = (l.publishedAt context path).getLast?) := by
  intro h
  have hturns : Along (Link.step .default)
      (fun l call => ∀ connected, call.2 = .take connected → l.out = none)
      (Link.start (Cfg.ofRing 2 50 true)) (sentValues.take 2) := by
    refine ⟨?_, ?_, trivial⟩
    · intro connected hop
      cases hop
    · intro connected hop
      cases hop
  have hrun :=
    h .default (Cfg.ofRing 2 50 true) (sentValues.take 2) rfl hturns SELF_CONTEXT (lit "a")
  exact absurd (hrun.2 (by decide +kernel)).1 (by decide +kernel)

-- So is a message put back when a newer one has taken its place.
example :
    let env := Env.clockless 0
    let publish := Event.publishAt none (lit "a") (lit "1") 0
    let l := run (Link.step .default) (Link.start (Cfg.ofRing 1 0 true))
      [(env, publish), (env, .flush), (env, .take true), (env, publish), (env, .flush),
        (env, .requeue), (env, .take true), (env, .deliver)]
    l.Idle ∧ l.received SELF_CONTEXT (lit "a") ≠ l.survivingAt SELF_CONTEXT (lit "a") := by
  decide +kernel

end Espos.Sk.Delta
