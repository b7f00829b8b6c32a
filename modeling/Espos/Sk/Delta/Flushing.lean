import Espos.Sk.Delta.Delivery

-- The stream task, which writes the engine's messages to the socket, and the
-- tasks that wait in `espos_sk_flush` until the stream has drained.

namespace Espos.Sk.Delta

open Espos.Text
open Espos.Run

-- Where the stream task stands with a message: at the top of its loop, in the
-- write, or behind it and without the lock yet.
inductive Phase
  | looking
  | writing
  | written
  | failed
  deriving DecidableEq

-- What `espos_sk_flush` returns.
inductive Drained
  | ok
  | invalidState
  | timeout
  deriving DecidableEq

-- `sending` and `connected` are what other tasks are shown; `waits` holds the
-- deadline of each task in `espos_sk_flush`.
structure Stream (τ : Type*) (maxMsgs : Nat) where
  link : Link maxMsgs
  phase : Phase
  connected : Bool
  sending : Bool
  waits : τ → Option UInt32

inductive Move (τ : Type*)
  | publishAt (context : Option CStr) (path value : CStr) (atMs : Int)
  | connect
  | disconnect
  | close
  | idle
  | look
  | write (sent : Bool)
  | settle
  | flush (task : τ) (timeout later : UInt32)
  | poll (task : τ) (now : UInt32)

namespace Stream

variable {τ : Type*} {maxMsgs : Nat}

def start (cfg : Cfg) : Stream τ cfg.capacity :=
  ⟨Link.start cfg, .looking, false, false, fun _ => none⟩

-- `pending` of the status: the open window, and a message in the write.
def pending (s : Stream τ maxMsgs) : Nat :=
  s.link.eng.pending.length + if s.sending then 1 else 0

-- One look of a waiting task at the status, if it returns after it.
def drained (s : Stream τ maxMsgs) (deadline now : UInt32) : Option Drained :=
  if !s.connected then some .invalidState
  else if s.pending = 0 ∧ s.link.eng.ring.count = 0 then some .ok
  else if reached now deadline then some .timeout
  else none

-- The call of the engine's interface that a move makes, or what becomes of the
-- message in the write.
def call (s : Stream τ maxMsgs) : Move τ → Option Event
  | .publishAt context path value atMs => some (.publishAt context path value atMs)
  | .close => if s.phase = .looking ∧ s.connected then some .flush else none
  | .idle => if s.phase = .looking ∧ s.connected = false then some (.take false) else none
  | .look => if s.phase = .looking ∧ s.connected then some (.take true) else none
  | .write sent => if s.phase = .writing ∧ sent then some .deliver else none
  | .settle => if s.phase = .failed then some .requeue else none
  | .flush _ _ _ => if s.connected then some .flush else none
  | .connect | .disconnect | .poll _ _ => none

def advance (K : Kconfig) (s : Stream τ maxMsgs) (env : Env) (move : Move τ) : Link maxMsgs :=
  match s.call move with
  | none => s.link
  | some event => s.link.step K (env, event)

def step [DecidableEq τ] (K : Kconfig) (s : Stream τ maxMsgs) (call : Env × Move τ) :
    Stream τ maxMsgs :=
  let link := s.advance K call.1 call.2
  match call.2 with
  | .publishAt _ _ _ _ | .idle => { s with link := link }
  | .connect => if s.phase = .looking then { s with connected := true } else s
  | .disconnect => if s.phase = .looking then { s with connected := false } else s
  | .close =>
    if s.phase = .looking then { s with link := link, connected := false } else s
  | .look =>
    if s.phase = .looking ∧ s.connected then
      { s with
        link := link
        phase := if link.out.isSome then .writing else .looking
        sending := link.out.isSome }
    else s
  | .write sent =>
    if s.phase = .writing then
      { s with link := link, phase := if sent then .written else .failed }
    else s
  | .settle =>
    match s.phase with
    | .written => { s with phase := .looking, sending := false }
    | .failed => { s with link := link, phase := .looking, sending := false, connected := false }
    | .looking | .writing => s
  | .flush task timeout later =>
    if s.connected then
      { s with link := link, waits := Function.update s.waits task (some (later + timeout)) }
    else s
  | .poll task now =>
    match (s.waits task).bind fun deadline => s.drained deadline now with
    | none => s
    | some _ => { s with waits := Function.update s.waits task none }

-- A move that loses nothing: a window it closes can be built and fits, and a
-- message that did not get through is put back while there is room for it.
structure Keeps (K : Kconfig) (s : Stream τ maxMsgs) (call : Env × Move τ) : Prop where
  roomy : ∀ event, s.call call.2 = some event → ∀ d, s.link.closing K (call.1, event) = some d →
    d.Roomy call.1
  room : s.call call.2 = some .requeue → s.link.eng.ring.count < maxMsgs

-- What is shown of the message in the write is so.
structure Settled (s : Stream τ maxMsgs) : Prop where
  sound : s.link.Sound
  out : s.link.out.isSome = decide (s.phase = .writing ∨ s.phase = .failed)
  sending : s.sending = decide (s.phase ≠ .looking)

variable {K : Kconfig} {s : Stream τ maxMsgs} {env : Env} {move : Move τ}

theorem settled_start (cfg : Cfg) : (start cfg : Stream τ _).Settled :=
  ⟨Link.sound_start cfg, rfl, rfl⟩

theorem Settled.out_none (h : s.Settled) (hphase : s.phase = .looking) : s.link.out = none := by
  have hout := h.out
  rw [hphase] at hout
  simpa using hout

theorem looking_of_take {connected : Bool} (h : s.call move = some (.take connected)) :
    s.phase = .looking := by
  cases move <;> simp_all [call]

-- The stream task takes a message only when it has written the one before.
theorem Settled.lossless (h : s.Settled) {event : Event} (hcall : s.call move = some event)
    (hkeeps : s.Keeps K (env, move)) : s.link.Lossless K (env, event) := by
  constructor
  case roomy => exact hkeeps.roomy event hcall
  case room =>
    intro hrequeue _
    exact hkeeps.room (hcall.trans (congrArg some hrequeue))
  case inTurn =>
    intro connected htake
    exact h.out_none (looking_of_take (hcall.trans (congrArg some htake)))

theorem Settled.advance (h : s.Settled) (hkeeps : s.Keeps K (env, move)) :
    (s.advance K env move).Sound := by
  rw [Stream.advance]
  split
  · exact h.sound
  · rename_i event hcall
    exact Link.sound_step K s.link (env, event) h.sound (h.lossless hcall hkeeps)

-- The calls that do not touch the message in the write.
def Apart : Option Event → Prop
  | none | some (.publishAt _ _ _ _) | some .flush | some (.take false) => True
  | some (.take true) | some .requeue | some .deliver => False

theorem out_advance (h : Apart (s.call move)) : (s.advance K env move).out = s.link.out := by
  rw [advance]
  cases hcall : s.call move with
  | none => rfl
  | some event =>
    rw [hcall] at h
    cases event with
    | publishAt context path value atMs => rfl
    | flush => rfl
    | take connected =>
      cases connected with
      | false => simp [Link.step, Engine.take, Engine.send]
      | true => exact h.elim
    | requeue => exact h.elim
    | deliver => exact h.elim

theorem out_deliver (K : Kconfig) (l : Link maxMsgs) (env : Env) :
    (l.step K (env, .deliver)).out = none := by
  cases hout : l.out <;> simp [Link.step, hout]

theorem out_requeue (K : Kconfig) (l : Link maxMsgs) (env : Env) :
    (l.step K (env, .requeue)).out = none := by
  cases hout : l.out <;> simp [Link.step, hout]

-- The link changes by a call that leaves the message in the write alone.
theorem Settled.apart (h : s.Settled) (hkeeps : s.Keeps K (env, move)) (hcall : Apart (s.call move))
    (connected : Bool) (waits : τ → Option UInt32) :
    Settled { s with link := s.advance K env move, connected := connected, waits := waits } :=
  ⟨h.advance hkeeps, (congrArg Option.isSome (out_advance hcall)).trans h.out, h.sending⟩

theorem Settled.step [DecidableEq τ] (h : s.Settled) (hkeeps : s.Keeps K (env, move)) :
    (s.step K (env, move)).Settled := by
  have hsound := h.advance hkeeps
  have hout := h.out
  cases move with
  | publishAt context path value atMs => exact h.apart hkeeps trivial s.connected s.waits
  | connect =>
    simp only [Stream.step]
    split
    · exact ⟨h.sound, h.out, h.sending⟩
    · exact h
  | disconnect =>
    simp only [Stream.step]
    split
    · exact ⟨h.sound, h.out, h.sending⟩
    · exact h
  | close =>
    simp only [Stream.step]
    split
    · apply h.apart hkeeps
      rw [call]
      split <;> trivial
    · exact h
  | idle =>
    apply h.apart hkeeps
    rw [call]
    split <;> trivial
  | look =>
    simp only [Stream.step]
    split
    · refine ⟨hsound, ?_, ?_⟩
      · cases (s.advance K env .look).out <;> simp
      · cases (s.advance K env .look).out <;> simp
    · exact h
  | write sent =>
    simp only [Stream.step]
    split
    case isTrue hphase =>
      have hsending := h.sending
      rw [hphase] at hout hsending
      cases sent with
      | false =>
        refine ⟨hsound, ?_, hsending⟩
        simpa [Stream.advance, call] using hout
      | true =>
        refine ⟨hsound, ?_, hsending⟩
        simp [Stream.advance, call, hphase, out_deliver]
    case isFalse => exact h
  | settle =>
    simp only [Stream.step]
    split
    case h_1 hphase =>
      rw [hphase] at hout
      exact ⟨h.sound, hout, rfl⟩
    case h_2 hphase =>
      refine ⟨hsound, ?_, rfl⟩
      simp [Stream.advance, call, hphase, out_requeue]
    case h_3 => exact h
    case h_4 => exact h
  | flush task timeout later =>
    simp only [Stream.step]
    split
    · apply h.apart hkeeps
      rw [call]
      split <;> trivial
    · exact h
  | poll task now =>
    simp only [Stream.step]
    split
    · exact h
    · exact ⟨h.sound, h.out, h.sending⟩

theorem drained_ok_iff {deadline now : UInt32} : s.drained deadline now = some .ok ↔
    s.connected = true ∧ s.pending = 0 ∧ s.link.eng.ring.count = 0 := by
  rw [drained]
  split_ifs <;> simp_all

theorem Settled.pending_eq_zero_iff (h : s.Settled) :
    s.pending = 0 ↔ s.link.eng.pending = [] ∧ s.phase = .looking := by
  have hsending := h.sending
  rw [Stream.pending, Nat.add_eq_zero_iff, List.length_eq_zero_iff]
  by_cases hphase : s.phase = .looking
  · simp [hsending, hphase]
  · simp [hsending, hphase]

-- A flush finds the stream drained when it is connected, the stream task is at
-- the top of its loop, and nothing published is on its way any more.
theorem Settled.drained_ok_iff (h : s.Settled) {deadline now : UInt32} :
    s.drained deadline now = some .ok ↔
      s.connected = true ∧ s.phase = .looking ∧ s.link.Idle := by
  rw [Stream.drained_ok_iff, h.pending_eq_zero_iff, Link.Idle, Ring.toList_eq_nil_iff]
  constructor
  · rintro ⟨hconnected, ⟨hwindow, hphase⟩, hring⟩
    exact ⟨hconnected, hphase, h.out_none hphase, hring, hwindow⟩
  · rintro ⟨hconnected, hphase, -, hring, hwindow⟩
    exact ⟨hconnected, ⟨hwindow, hphase⟩, hring⟩

end Stream

-- A task publishes a value and flushes; the flush looks again once the message
-- is in the socket.
def flushedValue : List (Env × Move Unit) :=
  let env := Env.clockless 0
  [(env, .connect), (env, .publishAt none (lit "a") (lit "1") 0), (env, .flush () 100 0),
    (env, .look), (env, .write true), (env, .settle)]

end Espos.Sk.Delta
