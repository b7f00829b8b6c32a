import Espos.Flow.Agenda
import Espos.Lib.Run

-- The timer wheel and its users over a whole run. Each timer has a number, in the
-- order of adding, and the handles that were given out stay known.

namespace Espos.Flow

open Espos.Run

variable {γ σ : Type}

-- A callback with the number of its timer.
structure Tag (γ : Type) where
  serial : Nat
  cb : γ
deriving DecidableEq

-- What a caller got for a timer, and when it was first due.
structure Ticket where
  handle : UInt32
  dueMs : UInt32
deriving DecidableEq

-- A sweep under way, and how many slots were used and timers added before it.
structure Sweep where
  nowMs : UInt32
  used : Nat
  issued : Nat
deriving DecidableEq

structure Wheel (γ : Type) where
  sched : Sched (Tag γ)
  issued : List Ticket
  sweep : Option Sweep
deriving DecidableEq

def Sched.used {ι : Type*} (s : Sched ι) : Nat :=
  s.slots.countP Option.isSome

namespace Wheel

def init (cap : Nat) : Wheel γ :=
  ⟨.init cap, [], none⟩

def add (w : Wheel γ) (nowMs delayMs periodMs : UInt32) (cb : Option γ) :
    EspErr × Option UInt32 × Wheel γ :=
  let (err, h, sched) := w.sched.add nowMs delayMs periodMs (cb.map (Tag.mk w.issued.length))
  let issued := if err = .ok then w.issued ++ [⟨h.getD schedHandleNone, nowMs + delayMs⟩]
    else w.issued
  (err, h, { w with sched := sched, issued := issued })

def cancel (w : Wheel γ) (h : UInt32) : EspErr × Wheel γ :=
  let (err, sched) := w.sched.cancel h
  (err, { w with sched := sched })

-- A sweep in single steps: it begins, runs the next timer or is finished.
def begin (w : Wheel γ) (nowMs : UInt32) : Wheel γ :=
  if w.sched.firing then w
  else
    { w with
      sched := { w.sched with firing := true }
      sweep := some ⟨nowMs, w.sched.used, w.issued.length⟩ }

def runNext (w : Wheel γ) : Wheel γ :=
  match w.sweep with
  | none => w
  | some sw =>
    match w.sched.pick sw.nowMs with
    | none => w
    | some (i, t) =>
      let slots := w.sched.slots.set i (some (Sched.mark sw.nowMs t))
      { w with sched := { w.sched with slots := slots } }

def finish (w : Wheel γ) : Wheel γ :=
  match w.sweep with
  | none => w
  | some sw =>
    match w.sched.pick sw.nowMs with
    | none =>
      let slots := w.sched.slots.map Sched.unwind
      { w with sched := { w.sched with slots := slots, firing := false }, sweep := none }
    | some _ => w

end Wheel

-- Adds and cancels come from anywhere, callbacks included.
inductive WheelStep (γ : Type) where
  | add (nowMs delayMs periodMs : UInt32) (cb : Option γ)
  | cancel (h : UInt32)
  | begin (nowMs : UInt32)
  | runNext
  | finish

def Wheel.step (w : Wheel γ) : WheelStep γ → Wheel γ
  | .add nowMs delayMs periodMs cb => (w.add nowMs delayMs periodMs cb).2.2
  | .cancel h => (w.cancel h).2
  | .begin nowMs => w.begin nowMs
  | .runNext => w.runNext
  | .finish => w.finish

-- The body of a callback: it reads the table, adds and cancels, and goes on with
-- the answers. A sweep it asks for is refused.
inductive Body (γ σ : Type) where
  | done (x : σ)
  | look (k : Sched (Tag γ) → Body γ σ)
  | add (nowMs delayMs periodMs : UInt32) (cb : Option γ) (k : EspErr → Option UInt32 → Body γ σ)
  | cancel (h : UInt32) (k : EspErr → Body γ σ)
  | fire (nowMs : UInt32) (k : Nat → Body γ σ)

def Body.run : Body γ σ → Wheel γ → Wheel γ × σ
  | .done x, w => (w, x)
  | .look k, w => (k w.sched).run w
  | .add nowMs delayMs periodMs cb k, w =>
    let (err, h, w) := w.add nowMs delayMs periodMs cb
    (k err h).run w
  | .cancel h k, w =>
    let (err, w) := w.cancel h
    (k err).run w
  | .fire _ k, w => (k 0).run w

namespace Wheel

variable (script : γ → σ → Body γ σ)

def call (c : Tag γ) (s : Sched (Tag γ)) (x : Wheel γ × σ) :
    Option (Sched (Tag γ) × Wheel γ × σ) :=
  let (w, y) := (script c.cb x.2).run { x.1 with sched := s }
  some (w.sched, w, y)

def fire (w : Wheel γ) (nowMs : UInt32) (x : σ) : Option (Nat × Wheel γ × σ) :=
  match w.sched.fire (call script) nowMs (w.begin nowMs, x) with
  | none => none
  | some (fired, s, w, x) =>
    some (fired, { w with sched := s, sweep := if s.firing then w.sweep else none }, x)

end Wheel

-- What a step does to the wheel.
inductive Move (w : Wheel γ) : Wheel γ → Prop where
  | stay : Move w w
  | add {i : Nat} (nowMs : UInt32) {delayMs periodMs : UInt32} (cb : γ)
      (hdelay : delayMs ≤ schedMaxDelayMs) (hperiod : periodMs ≤ schedMaxDelayMs)
      (hfree : w.sched.slots[i]? = some none) :
      Move w
        { w with
          sched :=
            { w.sched with
              slots := w.sched.slots.set i (some ⟨⟨w.issued.length, cb⟩, nowMs + delayMs, periodMs,
                (Sched.nextGen w.sched.seq).1, false, false, w.sched.firing⟩)
              seq := (Sched.nextGen w.sched.seq).2 }
          issued := w.issued ++
            [⟨handleMake i (Sched.nextGen w.sched.seq).1, nowMs + delayMs⟩] }
  | mark {i : Nat} {t : Timer (Tag γ)} (hslot : w.sched.slots[i]? = some (some t))
      (hlive : t.cancelled = false) (hfiring : w.sched.firing = true) :
      Move w { w with sched :=
        { w.sched with slots := w.sched.slots.set i (some { t with cancelled := true }) } }
  | free {i : Nat} {t : Timer (Tag γ)} (hslot : w.sched.slots[i]? = some (some t))
      (hlive : t.cancelled = false) (hstill : w.sched.firing = false) :
      Move w { w with sched := { w.sched with slots := w.sched.slots.set i none } }
  | begin (nowMs : UInt32) (hstill : w.sched.firing = false) :
      Move w { w with
        sched := { w.sched with firing := true }
        sweep := some ⟨nowMs, w.sched.used, w.issued.length⟩ }
  | run {sw : Sweep} {i : Nat} {t : Timer (Tag γ)} (hsweep : w.sweep = some sw)
      (hslot : w.sched.slots[i]? = some (some t))
      (hdue : Sched.eligible sw.nowMs (some t) = true) :
      Move w { w with sched :=
        { w.sched with slots := w.sched.slots.set i (some (Sched.mark sw.nowMs t)) } }
  | finish {sw : Sweep} (hsweep : w.sweep = some sw) (hpick : w.sched.pick sw.nowMs = none) :
      Move w { w with
        sched := { w.sched with slots := w.sched.slots.map Sched.unwind, firing := false }
        sweep := none }

variable {w : Wheel γ}

theorem move_add (w : Wheel γ) (nowMs delayMs periodMs : UInt32) (cb : Option γ) :
    Move w (w.add nowMs delayMs periodMs cb).2.2 := by
  cases cb with
  | none => exact .stay
  | some cb =>
    rw [Wheel.add, Option.map_some, Sched.add]
    by_cases hrange : schedMaxDelayMs < delayMs ∨ schedMaxDelayMs < periodMs
    · rw [if_pos hrange]
      exact .stay
    · rw [if_neg hrange]
      rw [not_or, UInt32.not_lt, UInt32.not_lt] at hrange
      cases hfree : w.sched.slots.findIdx? Option.isNone with
      | none => exact .stay
      | some i => exact .add nowMs cb hrange.1 hrange.2 (findIdx_isNone hfree)

theorem move_cancel (w : Wheel γ) (h : UInt32) : Move w (w.cancel h).2 := by
  rw [Wheel.cancel, Sched.cancel]
  cases hres : w.sched.resolve h with
  | none => exact .stay
  | some p =>
    obtain ⟨i, t⟩ := p
    obtain ⟨-, -, hslot, hlive, -⟩ := resolve_eq_some hres
    dsimp only
    by_cases hfiring : w.sched.firing = true
    · rw [if_pos hfiring]
      exact .mark hslot hlive hfiring
    · rw [if_neg hfiring]
      exact .free hslot hlive (Bool.not_eq_true _ ▸ hfiring)

theorem move_step (w : Wheel γ) (e : WheelStep γ) : Move w (w.step e) := by
  cases e with
  | add nowMs delayMs periodMs cb => exact move_add w nowMs delayMs periodMs cb
  | cancel h => exact move_cancel w h
  | begin nowMs =>
    change Move w (w.begin nowMs)
    rw [Wheel.begin]
    by_cases hfiring : w.sched.firing = true
    · rw [if_pos hfiring]
      exact .stay
    · rw [if_neg hfiring]
      exact .begin nowMs (Bool.not_eq_true _ ▸ hfiring)
  | runNext =>
    change Move w w.runNext
    rw [Wheel.runNext]
    cases hsweep : w.sweep with
    | none => exact .stay
    | some sw =>
      dsimp only
      cases hpick : w.sched.pick sw.nowMs with
      | none => exact .stay
      | some p =>
        obtain ⟨i, t⟩ := p
        obtain ⟨hslot, hdue⟩ := pick_eq_some hpick
        have hmove := Move.run hsweep hslot hdue
        rw [hsweep] at hmove
        exact hmove
  | finish =>
    change Move w w.finish
    rw [Wheel.finish]
    cases hsweep : w.sweep with
    | none => exact .stay
    | some sw =>
      dsimp only
      cases hpick : w.sched.pick sw.nowMs with
      | none => exact .finish hsweep hpick
      | some p => exact .stay

-- The rule for what holds throughout a run.
theorem run_move {P : Wheel γ → Prop} (hmove : ∀ {w w' : Wheel γ}, P w → Move w w' → P w')
    (h : P w) (es : List (WheelStep γ)) : P (run Wheel.step w es) :=
  run_invariant (fun _ e hw => hmove hw (move_step _ e)) h es

section Fire

-- A callback takes steps, and changes the table of a sweep as callbacks can.
structure Acts (w w' : Wheel γ) : Prop where
  steps : ∃ es, w' = run Wheel.step w es
  sweep : w'.sweep = w.sweep
  grows : w.sched.firing = true → Grows w.sched w'.sched

theorem Acts.refl (w : Wheel γ) : Acts w w :=
  ⟨⟨[], rfl⟩, rfl, fun _ => .refl _⟩

theorem Acts.trans {w w' w'' : Wheel γ} (h : Acts w w') (h' : Acts w' w'') : Acts w w'' where
  steps := by
    obtain ⟨es, rfl⟩ := h.steps
    obtain ⟨es', rfl⟩ := h'.steps
    exact ⟨es ++ es', (List.foldl_append ..).symm⟩
  sweep := h'.sweep.trans h.sweep
  grows := by
    intro hfiring
    have hgrows := h.grows hfiring
    exact hgrows.trans (h'.grows (hgrows.firing.trans hfiring))

theorem acts_add (w : Wheel γ) (nowMs delayMs periodMs : UInt32) (cb : Option γ) :
    Acts w (w.add nowMs delayMs periodMs cb).2.2 :=
  ⟨⟨[.add nowMs delayMs periodMs cb], rfl⟩, rfl,
    fun hfiring => add_grows hfiring nowMs delayMs periodMs _⟩

theorem acts_cancel (w : Wheel γ) (h : UInt32) : Acts w (w.cancel h).2 :=
  ⟨⟨[.cancel h], rfl⟩, rfl, fun hfiring => cancel_grows hfiring h⟩

theorem acts_body (b : Body γ σ) (w : Wheel γ) : Acts w (b.run w).1 := by
  induction b generalizing w with
  | done x => exact .refl w
  | look k ih => exact ih w.sched w
  | add nowMs delayMs periodMs cb k ih =>
    exact (acts_add w nowMs delayMs periodMs cb).trans (ih _ _ _)
  | cancel h k ih => exact (acts_cancel w h).trans (ih _ _)
  | fire nowMs k ih => exact ih 0 w

variable {script : γ → σ → Body γ σ}

theorem behaves_call (script : γ → σ → Body γ σ) : Behaves (Wheel.call script) := by
  intro c s x hfiring
  exact ⟨_, _, rfl, (acts_body (script c.cb x.2) { x.1 with sched := s }).grows hfiring⟩

theorem steps_sweep {sw : Sweep} (fuel fired : Nat) {s s' : Sched (Tag γ)} {w w' : Wheel γ}
    {x x' : σ} {n : Nat} (hsweep : w.sweep = some sw)
    (h : s.sweep (Wheel.call script) sw.nowMs fuel fired (w, x) = some (n, s', w', x')) :
    w'.sweep = some sw ∧
      ∃ es, { w' with sched := s' } = run Wheel.step { w with sched := s } es := by
  induction fuel generalizing s w x fired with
  | zero =>
    cases h
    exact ⟨hsweep, [], rfl⟩
  | succ fuel ih =>
    rw [Sched.sweep] at h
    cases hpick : s.pick sw.nowMs with
    | none =>
      rw [hpick] at h
      cases h
      exact ⟨hsweep, [], rfl⟩
    | some p =>
      obtain ⟨i, t⟩ := p
      rw [hpick] at h
      dsimp only [Wheel.call] at h
      -- the step that runs the timer, and those of its callback
      have hnext : ({ w with sched := s } : Wheel γ).runNext = { w with sched :=
          { s with slots := s.slots.set i (some (Sched.mark sw.nowMs t)) } } := by
        rw [Wheel.runNext]
        dsimp only
        rw [hsweep]
        dsimp only
        rw [hpick]
      have hacts := acts_body (script t.cb.cb x) { w with sched :=
        { s with slots := s.slots.set i (some (Sched.mark sw.nowMs t)) } }
      obtain ⟨hsweep', es', hrest⟩ := ih (fired + 1) (hacts.sweep.trans hsweep) h
      obtain ⟨es, hsteps⟩ := hacts.steps
      refine ⟨hsweep', .runNext :: es ++ es', ?_⟩
      rw [hrest, hsteps, ← hnext]
      exact (List.foldl_append ..).symm

end Fire

-- Outside a sweep no timer is spent or marked.
def Quiet (s : Sched (Tag γ)) : Prop :=
  ∀ (i : Nat) (t : Timer (Tag γ)), s.slots[i]? = some (some t) →
    t.cancelled = false ∧ t.swept = false ∧ t.fresh = false

structure Wheel.Settled (w : Wheel γ) : Prop where
  firing : w.sched.firing = w.sweep.isSome
  quiet : w.sched.firing = false → Quiet w.sched

theorem slot_of_set {slots : List (Option (Timer (Tag γ)))} {i j : Nat}
    {b : Option (Timer (Tag γ))} {t : Timer (Tag γ)} (h : (slots.set i b)[j]? = some (some t)) :
    i = j ∧ b = some t ∨ i ≠ j ∧ slots[j]? = some (some t) := by
  by_cases hij : i = j
  · subst hij
    have hlt : i < slots.length := by
      simpa using (List.getElem?_eq_some_iff.mp h).1
    rw [List.getElem?_set_self hlt] at h
    exact .inl ⟨rfl, Option.some.inj h⟩
  · rw [List.getElem?_set_ne hij] at h
    exact .inr ⟨hij, h⟩

theorem unwind_eq_some {ι : Type*} {a : Option (Timer ι)} {t : Timer ι}
    (h : Sched.unwind a = some t) : ∃ u, a = some u ∧ u.cancelled = false ∧
      t = { u with swept := false, fresh := false } := by
  cases a with
  | none => cases h
  | some u =>
    obtain ⟨hlive, h⟩ := Option.ite_none_left_eq_some.mp h
    exact ⟨u, rfl, Bool.not_eq_true _ ▸ hlive, (Option.some.inj h).symm⟩

theorem slot_of_unwind {slots : List (Option (Timer (Tag γ)))} {i : Nat} {t : Timer (Tag γ)}
    (h : (slots.map Sched.unwind)[i]? = some (some t)) : ∃ u, slots[i]? = some (some u) ∧
      u.cancelled = false ∧ t = { u with swept := false, fresh := false } := by
  rw [List.getElem?_map, Option.map_eq_some_iff] at h
  obtain ⟨a, ha, h⟩ := h
  obtain ⟨u, rfl, hlive, rfl⟩ := unwind_eq_some h
  exact ⟨u, ha, hlive, rfl⟩

@[simp] theorem mark_cb {ι : Type*} (nowMs : UInt32) (t : Timer ι) :
    (Sched.mark nowMs t).cb = t.cb := by
  rw [Sched.mark]
  split_ifs <;> rfl

@[simp] theorem mark_gen {ι : Type*} (nowMs : UInt32) (t : Timer ι) :
    (Sched.mark nowMs t).gen = t.gen := by
  rw [Sched.mark]
  split_ifs <;> rfl

@[simp] theorem mark_periodMs {ι : Type*} (nowMs : UInt32) (t : Timer ι) :
    (Sched.mark nowMs t).periodMs = t.periodMs := by
  rw [Sched.mark]
  split_ifs <;> rfl

-- A timer keeps its callback, generation and period, and its deadline until a
-- sweep runs it.
structure Ages (t u : Timer (Tag γ)) : Prop where
  cb : u.cb = t.cb
  gen : u.gen = t.gen
  periodMs : u.periodMs = t.periodMs
  dueMs : u.dueMs = t.dueMs ∨ ∃ nowMs, schedReached nowMs t.dueMs = true ∧
    u.dueMs = (Sched.mark nowMs t).dueMs
  live : u.cancelled = false → t.cancelled = false

theorem Ages.refl (t : Timer (Tag γ)) : Ages t t :=
  ⟨rfl, rfl, rfl, .inl rfl, id⟩

theorem ages_mark {nowMs : UInt32} {t : Timer (Tag γ)}
    (hdue : Sched.eligible nowMs (some t) = true) : Ages t (Sched.mark nowMs t) := by
  have hlive : t.cancelled = false := by
    cases hcase : t.cancelled with
    | false => rfl
    | true => simp [Sched.eligible, hcase] at hdue
  rw [Sched.eligible, Bool.and_eq_true] at hdue
  exact ⟨mark_cb nowMs t, mark_gen nowMs t, mark_periodMs nowMs t, .inr ⟨nowMs, hdue.2, rfl⟩,
    fun _ => hlive⟩

-- A timer the wheel has just been given.
structure Added (w w' : Wheel γ) (i : Nat) (u : Timer (Tag γ)) : Prop where
  serial : u.cb.serial = w.issued.length
  gen : u.gen = (Sched.nextGen w.sched.seq).1
  periodMs : u.periodMs ≤ schedMaxDelayMs
  issued : w'.issued = w.issued ++ [⟨handleMake i u.gen, u.dueMs⟩]

-- Every timer was there before the step or is new.
theorem slot_move {w' : Wheel γ} (hmove : Move w w') {j : Nat} {u : Timer (Tag γ)}
    (hj : w'.sched.slots[j]? = some (some u)) :
    (∃ t, w.sched.slots[j]? = some (some t) ∧ Ages t u) ∨ Added w w' j u := by
  cases hmove with
  | stay => exact .inl ⟨u, hj, .refl u⟩
  | add nowMs cb hdelay hperiod hfree =>
    rcases slot_of_set hj with ⟨rfl, hnew⟩ | ⟨-, hold⟩
    · obtain rfl := Option.some.inj hnew
      exact .inr ⟨rfl, rfl, hperiod, rfl⟩
    · exact .inl ⟨u, hold, .refl u⟩
  | @mark i t hslot hlive hfiring =>
    rcases slot_of_set hj with ⟨rfl, hnew⟩ | ⟨-, hold⟩
    · obtain rfl := Option.some.inj hnew
      exact .inl ⟨t, hslot, rfl, rfl, rfl, .inl rfl, fun _ => hlive⟩
    · exact .inl ⟨u, hold, .refl u⟩
  | free hslot hlive hstill =>
    rcases slot_of_set hj with ⟨-, hnew⟩ | ⟨-, hold⟩
    · cases hnew
    · exact .inl ⟨u, hold, .refl u⟩
  | begin nowMs hstill => exact .inl ⟨u, hj, .refl u⟩
  | @run sw i t hsweep hslot hdue =>
    rcases slot_of_set hj with ⟨rfl, hnew⟩ | ⟨-, hold⟩
    · obtain rfl := Option.some.inj hnew
      exact .inl ⟨t, hslot, ages_mark hdue⟩
    · exact .inl ⟨u, hold, .refl u⟩
  | finish hsweep hpick =>
    obtain ⟨t, ht, hlive, rfl⟩ := slot_of_unwind hj
    exact .inl ⟨t, ht, rfl, rfl, rfl, .inl rfl, fun _ => hlive⟩

theorem issued_move {w' : Wheel γ} (hmove : Move w w') :
    w'.issued = w.issued ∨ ∃ ticket, w'.issued = w.issued ++ [ticket] := by
  cases hmove with
  | add nowMs cb hdelay hperiod hfree => exact .inr ⟨_, rfl⟩
  | _ => exact .inl rfl

theorem issued_kept {w' : Wheel γ} (hmove : Move w w') {n : Nat} {ticket : Ticket}
    (h : w.issued[n]? = some ticket) : w'.issued[n]? = some ticket := by
  rcases issued_move hmove with hsame | ⟨ticket', hmore⟩
  · rw [hsame, h]
  · rw [hmore, List.getElem?_append_left (List.getElem?_eq_some_iff.mp h).1, h]

theorem length_move {w' : Wheel γ} (hmove : Move w w') :
    w'.sched.slots.length = w.sched.slots.length := by
  cases hmove <;> simp

theorem slots_init {cap i : Nat} {t : Timer (Tag γ)} :
    (Wheel.init cap : Wheel γ).sched.slots[i]? ≠ some (some t) := by
  intro h
  rw [Wheel.init, Sched.init, List.getElem?_replicate] at h
  obtain ⟨-, h⟩ := Option.ite_none_right_eq_some.mp h
  cases h

theorem settled_init (cap : Nat) : (Wheel.init cap : Wheel γ).Settled :=
  ⟨rfl, fun _ _ _ h => absurd h slots_init⟩

theorem Wheel.Settled.move {w' : Wheel γ} (h : w.Settled) (hmove : Move w w') : w'.Settled := by
  cases hmove with
  | stay => exact h
  | add nowMs cb hdelay hperiod hfree =>
    refine ⟨h.firing, fun hstill j u hj => ?_⟩
    rcases slot_of_set hj with ⟨-, hnew⟩ | ⟨-, hold⟩
    · obtain rfl := Option.some.inj hnew
      exact ⟨rfl, rfl, hstill⟩
    · exact h.quiet hstill j u hold
  | mark hslot hlive hfiring =>
    refine ⟨h.firing, fun hstill => ?_⟩
    rw [hfiring] at hstill
    cases hstill
  | free hslot hlive hstill =>
    refine ⟨h.firing, fun _ j u hj => ?_⟩
    rcases slot_of_set hj with ⟨-, hnew⟩ | ⟨-, hold⟩
    · cases hnew
    · exact h.quiet hstill j u hold
  | begin nowMs hstill => exact ⟨rfl, fun hfiring => by cases hfiring⟩
  | run hsweep hslot hdue =>
    refine ⟨h.firing, fun hstill => ?_⟩
    have hfiring := h.firing
    rw [hsweep, hstill] at hfiring
    cases hfiring
  | finish hsweep hpick =>
    refine ⟨rfl, fun _ j u hj => ?_⟩
    obtain ⟨u', -, hlive, rfl⟩ := slot_of_unwind hj
    exact ⟨hlive, rfl, rfl⟩

def Sched.started {ι : Type*} (s : Sched ι) : Sched ι :=
  { s with firing := true }

-- The timers a sweep of the wheel runs.
def Wheel.ran (script : γ → σ → Body γ σ) (w : Wheel γ) (nowMs : UInt32) (x : σ) :
    List (Nat × Timer (Tag γ)) :=
  w.sched.started.runs (Wheel.call script) nowMs w.sched.slots.length (w.begin nowMs, x)

-- The end of a sweep that has left the table as `s`.
def Wheel.ended (w : Wheel γ) (s : Sched (Tag γ)) : Wheel γ :=
  { w with
    sched := { s with slots := s.slots.map Sched.unwind, firing := false }
    sweep := none }

theorem begin_eq (hstill : w.sched.firing = false) (nowMs : UInt32) :
    w.begin nowMs = { w with
      sched := w.sched.started
      sweep := some ⟨nowMs, w.sched.used, w.issued.length⟩ } := by
  rw [Wheel.begin, hstill]
  rfl

-- The sweep of a settled wheel, from its first timer to its end.
theorem fire_eq (script : γ → σ → Body γ σ) (h : w.Settled) (hsweep : w.sweep = none)
    (nowMs : UInt32) (x : σ) : ∃ (s' : Sched (Tag γ)) (w' : Wheel γ) (x' : σ),
    w.sched.started.sweep (Wheel.call script) nowMs w.sched.slots.length 0 (w.begin nowMs, x) =
        some ((w.ran script nowMs x).length, s', w', x') ∧
      Swept nowMs w.sched.started (w.ran script nowMs x) s' ∧
      w.fire script nowMs x = some ((w.ran script nowMs x).length, w'.ended s', x') ∧
      ∃ es, w'.ended s' = run Wheel.step w es := by
  have hstill : w.sched.firing = false := by rw [h.firing, hsweep]; rfl
  have hbegin := begin_eq hstill nowMs
  have hsw : (w.begin nowMs).sweep = some ⟨nowMs, w.sched.used, w.issued.length⟩ := by rw [hbegin]
  have hagenda := agenda_spec w.sched.started nowMs
  obtain ⟨s', ⟨w', x'⟩, hrun, hswept⟩ := sweep_spec (x := (w.begin nowMs, x))
    (behaves_call script) w.sched.slots.length 0 rfl hagenda hagenda.length_le
  rw [Nat.zero_add] at hrun
  obtain ⟨hsweep', es, hsteps⟩ := steps_sweep w.sched.slots.length 0 hsw hrun
  refine ⟨s', w', x', hrun, hswept, ?_, .begin nowMs :: es ++ [.finish], ?_⟩
  · have hfire : w.sched.fire (Wheel.call script) nowMs (w.begin nowMs, x) = some
        ((w.ran script nowMs x).length, (w'.ended s').sched, w', x') := by
      rw [Sched.started] at hrun
      rw [Sched.fire, hstill, if_neg Bool.false_ne_true, hrun]
      rfl
    rw [Wheel.fire, hfire]
    rfl
  · have hfinish : ({ w' with sched := s' } : Wheel γ).finish = w'.ended s' := by
      rw [Wheel.finish]
      dsimp only
      rw [hsweep']
      dsimp only
      rw [hswept.finished]
      rfl
    have hstart : ({ w.begin nowMs with sched := w.sched.started } : Wheel γ) = w.begin nowMs := by
      rw [hbegin]
    rw [← hfinish, hsteps, hstart, List.cons_append, run_cons, run, run, List.foldl_append]
    rfl

end Espos.Flow
