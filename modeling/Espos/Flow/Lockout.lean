import Espos.Flow.Agenda
import Espos.Flow.Loop
import Espos.Lib.Run
import Mathlib.Tactic.SplitIfs

-- Which passes of the loop come back, and which lock the loop task out.

namespace Espos.Flow

open Espos.Best Espos.Clock Espos.Run

variable {ι σ : Type*} {K : Kconfig}

-- A callback that makes no call that takes the mutex. What it posts goes into
-- the mailbox, and a timer call that is refused for its arguments changes nothing.
inductive Act.Quiet (K : Kconfig) : Act ι σ → Box ι → Box ι → σ → Prop where
  | done (s : σ) (b : Box ι) : Quiet K (.done s) b b s
  | every {nowMs periodMs : UInt32} {cb : Option ι} {k : EspErr → UInt32 → Act ι σ} {b b' : Box ι}
      {s : σ} (hrefused : cb.isNone = true ∨ periodMs = 0)
      (hrest : Quiet K (k .invalidArg schedHandleNone) b b' s) :
      Quiet K (.every nowMs periodMs cb k) b b' s
  | after {nowMs delayMs : UInt32} {cb : Option ι} {k : EspErr → UInt32 → Act ι σ} {b b' : Box ι}
      {s : σ} (hrefused : cb.isNone = true)
      (hrest : Quiet K (k .invalidArg schedHandleNone) b b' s) :
      Quiet K (.after nowMs delayMs cb k) b b' s
  | post {cb : Option ι} {k : EspErr → Act ι σ} {b b' : Box ι} {s : σ}
      (hrest : Quiet K (k (b.post K cb).1) (b.post K cb).2 b' s) :
      Quiet K (.post cb k) b b' s

-- The callbacks run one after the other, none of them taking the mutex.
def QuietRun (K : Kconfig) (call : ι → σ → Act ι σ) : List ι → Box ι → σ → Prop
  | [], _, _ => True
  | cb :: rest, b, x => ∃ b' x', (call cb x).Quiet K b b' x' ∧ QuietRun K call rest b' x'

section Run

theorem lock_of_held {l : Loop ι} (hheld : l.held = true) : l.lock = none :=
  if_pos hheld

theorem lock_of_free {l : Loop ι} (hfree : l.held = false) :
    l.lock = some { l with held := true } := by
  rw [Loop.lock, hfree]
  rfl

-- Under the mutex a callback comes back exactly when it takes it nowhere.
theorem run_of_held (act : Act ι σ) {l : Loop ι} (hheld : l.held = true) (l' : Loop ι) (s : σ) :
    act.run K l = some (l', s) ↔ ∃ b, act.Quiet K l.box b s ∧ l' = { l with box := b } := by
  induction act generalizing l with
  | done x =>
    simp only [Act.run, Option.some.injEq, Prod.mk.injEq]
    constructor
    · rintro ⟨rfl, rfl⟩
      exact ⟨l.box, .done x l.box, rfl⟩
    · rintro ⟨b, hquiet, rfl⟩
      cases hquiet
      exact ⟨rfl, rfl⟩
  | every nowMs periodMs cb k ih =>
    rw [Act.run, Loop.every]
    by_cases hrefused : cb.isNone = true ∨ periodMs = 0
    · simp only [if_pos hrefused, ih _ _ hheld]
      constructor
      · rintro ⟨b, hquiet, rfl⟩
        exact ⟨b, .every hrefused hquiet, rfl⟩
      · rintro ⟨b, hquiet, rfl⟩
        cases hquiet with
        | every _ hrest => exact ⟨b, hrest, rfl⟩
    · simp only [if_neg hrefused, Loop.addLocked, lock_of_held hheld]
      refine ⟨nofun, ?_⟩
      rintro ⟨b, hquiet, -⟩
      cases hquiet with
      | every hrefused' _ => exact absurd hrefused' hrefused
  | after nowMs delayMs cb k ih =>
    rw [Act.run, Loop.after]
    by_cases hrefused : cb.isNone = true
    · simp only [if_pos hrefused, ih _ _ hheld]
      constructor
      · rintro ⟨b, hquiet, rfl⟩
        exact ⟨b, .after hrefused hquiet, rfl⟩
      · rintro ⟨b, hquiet, rfl⟩
        cases hquiet with
        | after _ hrest => exact ⟨b, hrest, rfl⟩
    · simp only [if_neg hrefused, Loop.addLocked, lock_of_held hheld]
      refine ⟨nofun, ?_⟩
      rintro ⟨b, hquiet, -⟩
      cases hquiet with
      | after hrefused' _ => exact absurd hrefused' hrefused
  | cancel h k ih =>
    rw [Act.run, Loop.cancel, lock_of_held hheld]
    refine ⟨nofun, ?_⟩
    rintro ⟨b, hquiet, -⟩
    cases hquiet
  | stats k ih =>
    rw [Act.run, Loop.timersLive, lock_of_held hheld]
    refine ⟨nofun, ?_⟩
    rintro ⟨b, hquiet, -⟩
    cases hquiet
  | post cb k ih =>
    have hbox := @ih (l.box.post K cb).1 { l with box := (l.box.post K cb).2 } hheld
    rw [Act.run, hbox]
    constructor
    · rintro ⟨b, hquiet, rfl⟩
      exact ⟨b, .post hquiet, rfl⟩
    · rintro ⟨b, hquiet, rfl⟩
      cases hquiet with
      | post hrest => exact ⟨b, hrest, rfl⟩

-- Outside a sweep.
structure Loop.Idle (l : Loop ι) : Prop where
  free : l.held = false
  still : l.sched.firing = false

theorem Loop.Idle.addLocked {l : Loop ι} (h : l.Idle) (nowMs delayMs periodMs : UInt32)
    (cb : Option ι) :
    ∃ err handle l', l.addLocked nowMs delayMs periodMs cb = some (err, handle, l') ∧ l'.Idle := by
  rw [Loop.addLocked, lock_of_free h.free]
  exact ⟨_, _, _, rfl, rfl, (add_firing ..).trans h.still⟩

theorem Loop.Idle.every {l : Loop ι} (h : l.Idle) (nowMs periodMs : UInt32) (cb : Option ι) :
    ∃ err handle l', l.every nowMs periodMs cb = some (err, handle, l') ∧ l'.Idle := by
  rw [Loop.every]
  split_ifs
  · exact ⟨_, _, l, rfl, h⟩
  · exact h.addLocked nowMs periodMs periodMs cb

theorem Loop.Idle.after {l : Loop ι} (h : l.Idle) (nowMs delayMs : UInt32) (cb : Option ι) :
    ∃ err handle l', l.after nowMs delayMs cb = some (err, handle, l') ∧ l'.Idle := by
  rw [Loop.after]
  split_ifs
  · exact ⟨_, _, l, rfl, h⟩
  · exact h.addLocked nowMs delayMs 0 cb

theorem Loop.Idle.cancel {l : Loop ι} (h : l.Idle) (handle : UInt32) :
    ∃ err l', l.cancel handle = some (err, l') ∧ l'.Idle := by
  rw [Loop.cancel, lock_of_free h.free]
  exact ⟨_, _, rfl, rfl, (cancel_firing ..).trans h.still⟩

theorem Loop.Idle.timersLive {l : Loop ι} (h : l.Idle) :
    ∃ live l', l.timersLive = some (live, l') ∧ l'.Idle := by
  rw [Loop.timersLive, lock_of_free h.free]
  exact ⟨_, _, rfl, rfl, h.still⟩

-- Where the mutex is free, every call gets it and gives it back.
theorem run_of_idle (act : Act ι σ) {l : Loop ι} (h : l.Idle) :
    ∃ l' s, act.run K l = some (l', s) ∧ l'.Idle := by
  induction act generalizing l with
  | done s => exact ⟨l, s, rfl, h⟩
  | every nowMs periodMs cb k ih =>
    obtain ⟨err, handle, l', hcall, h'⟩ := h.every nowMs periodMs cb
    obtain ⟨l'', s, hrun, hidle⟩ := ih err handle h'
    exact ⟨l'', s, by simp only [Act.run, hcall, hrun], hidle⟩
  | after nowMs delayMs cb k ih =>
    obtain ⟨err, handle, l', hcall, h'⟩ := h.after nowMs delayMs cb
    obtain ⟨l'', s, hrun, hidle⟩ := ih err handle h'
    exact ⟨l'', s, by simp only [Act.run, hcall, hrun], hidle⟩
  | cancel handle k ih =>
    obtain ⟨err, l', hcall, h'⟩ := h.cancel handle
    obtain ⟨l'', s, hrun, hidle⟩ := ih err h'
    exact ⟨l'', s, by simp only [Act.run, hcall, hrun], hidle⟩
  | stats k ih =>
    obtain ⟨live, l', hcall, h'⟩ := h.timersLive
    obtain ⟨l'', s, hrun, hidle⟩ := ih live h'
    exact ⟨l'', s, by simp only [Act.run, hcall, hrun], hidle⟩
  | post cb k ih =>
    obtain ⟨l'', s, hrun, hidle⟩ := ih (l.box.post K cb).1
      (show Loop.Idle { l with box := (l.box.post K cb).2 } from ⟨h.free, h.still⟩)
    exact ⟨l'', s, by rw [Act.run, hrun], hidle⟩

theorem drainMailbox_of_idle (call : ι → σ → Act ι σ) (budget n : Nat) {l : Loop ι} (x : σ)
    (h : l.Idle) : ∃ n' l' x', l.drainMailbox K call budget n x = some (n', l', x') ∧ l'.Idle := by
  induction budget generalizing n l x with
  | zero => exact ⟨n, l, x, rfl, h⟩
  | succ budget ih =>
    cases hbox : l.box.mailbox with
    | none => exact ⟨n, l, x, by simp only [Loop.drainMailbox, hbox], h⟩
    | some queue =>
      cases queue with
      | nil => exact ⟨n, l, x, by simp only [Loop.drainMailbox, hbox], h⟩
      | cons m queue =>
        have hpop : Loop.Idle { l with box := { l.box with mailbox := some queue } } :=
          ⟨h.free, h.still⟩
        cases m with
        | none =>
          obtain ⟨n', l', x', hdrain, h'⟩ := ih (n + 1) x hpop
          exact ⟨n', l', x', by simp only [Loop.drainMailbox, hbox, hdrain], h'⟩
        | some cb =>
          obtain ⟨l', x', hrun, h'⟩ := @run_of_idle ι σ K (call cb x) _ hpop
          obtain ⟨n', l'', x'', hdrain, h''⟩ := ih (n + 1) x' h'
          exact ⟨n', l'', x'', by simp only [Loop.drainMailbox, hbox, hrun, hdrain], h''⟩

end Run

section Sweep

variable {call : ι → σ → Act ι σ} {nowMs : UInt32}

theorem callSwept_quiet {cb : ι} {s : Sched ι} {l : Loop ι} {x : σ} (hheld : l.held = true)
    {b : Box ι} {y : σ} (hquiet : (call cb x).Quiet K l.box b y) :
    Loop.callSwept K call cb s (l, x) = some (s, { l with sched := s, box := b }, y) := by
  have hrun := (@run_of_held ι σ K (call cb x) { l with sched := s } hheld
    { l with sched := s, box := b } y).mpr ⟨b, hquiet, rfl⟩
  rw [Loop.callSwept, hrun]

theorem callSwept_locks {cb : ι} {s : Sched ι} {l : Loop ι} {x : σ} (hheld : l.held = true)
    (hloud : ¬∃ b y, (call cb x).Quiet K l.box b y) :
    Loop.callSwept K call cb s (l, x) = none := by
  rw [Loop.callSwept]
  cases hrun : (call cb x).run K { l with sched := s } with
  | none => rfl
  | some r =>
    obtain ⟨l', y⟩ := r
    have hiff := @run_of_held ι σ K (call cb x) { l with sched := s } hheld l' y
    obtain ⟨b, hquiet, -⟩ := hiff.mp hrun
    exact absurd ⟨b, y, hquiet⟩ hloud

theorem quiet_unique {act : Act ι σ} {b b' c' : Box ι} {y z : σ} (h : act.Quiet K b b' y)
    (h' : act.Quiet K b c' z) : b' = c' ∧ y = z := by
  induction h with
  | done s b =>
    cases h'
    exact ⟨rfl, rfl⟩
  | every hrefused hrest ih =>
    cases h' with
    | every _ hrest' => exact ih hrest'
  | after hrefused hrest ih =>
    cases h' with
    | after _ hrest' => exact ih hrest'
  | post hrest ih =>
    cases h' with
    | post hrest' => exact ih hrest'

-- The sweep follows the agenda, and comes to its end exactly when every callback
-- on it is quiet.
theorem sweep_of_agenda {order : List (Nat × Timer ι)} (fuel fired : Nat) {s : Sched ι}
    {l : Loop ι} {x : σ} (hheld : l.held = true) (h : Agenda nowMs s order)
    (hfuel : order.length ≤ fuel) :
    (QuietRun K call (order.map fun p => p.2.cb) l.box x ∧
      ∃ fired' s' l' x', s.sweep (Loop.callSwept K call) nowMs fuel fired (l, x) =
        some (fired', s', l', x')) ∨
    ¬QuietRun K call (order.map fun p => p.2.cb) l.box x ∧
      s.sweep (Loop.callSwept K call) nowMs fuel fired (l, x) = none := by
  induction order generalizing fuel fired s l x with
  | nil =>
    refine .inl ⟨trivial, fired, s, l, x, ?_⟩
    cases fuel with
    | zero => rfl
    | succ fuel => rw [Sched.sweep, pick_of_agenda_nil h]
  | cons p order ih =>
    obtain ⟨i, t⟩ := p
    cases fuel with
    | zero => simp at hfuel
    | succ fuel =>
      simp only [Sched.sweep, pick_of_agenda_cons h, List.map_cons, QuietRun]
      by_cases hquiet : ∃ b y, (call t.cb x).Quiet K l.box b y
      · obtain ⟨b, y, hquiet⟩ := hquiet
        rw [callSwept_quiet hheld hquiet]
        have hlen : order.length ≤ fuel := by simpa using hfuel
        rcases ih fuel (fired + 1) (l := { l with
            sched := { s with slots := s.slots.set i (some (Sched.mark nowMs t)) }
            box := b }) (x := y) hheld h.tail hlen with ⟨hrest, hends⟩ | ⟨hrest, hnone⟩
        · exact .inl ⟨⟨b, y, hquiet, hrest⟩, hends⟩
        · refine .inr ⟨?_, hnone⟩
          rintro ⟨b', y', hquiet', hrest'⟩
          obtain ⟨rfl, rfl⟩ := quiet_unique hquiet hquiet'
          exact hrest hrest'
      · refine .inr ⟨?_, by rw [callSwept_locks hheld hquiet]⟩
        rintro ⟨b, y, hq, -⟩
        exact hquiet ⟨b, y, hq⟩

theorem runOnce_of_idle {l : Loop ι} (h : l.Idle) (x : σ) :
    (QuietRun K call ((l.sched.agenda nowMs).map fun p => p.2.cb) l.box x ∧
      ∃ busy l' x', l.runOnce K call nowMs x = some (busy, l', x') ∧ l'.Idle) ∨
    ¬QuietRun K call ((l.sched.agenda nowMs).map fun p => p.2.cb) l.box x ∧
      l.runOnce K call nowMs x = none := by
  have hagenda : Agenda nowMs { l.sched with firing := true } (l.sched.agenda nowMs) := by
    have hspec := agenda_spec l.sched nowMs
    exact ⟨hspec.mem, hspec.sorted, hspec.nodup⟩
  have hsweep := @sweep_of_agenda ι σ K call nowMs (l.sched.agenda nowMs)
    l.sched.slots.length 0 { l.sched with firing := true } { l with held := true } x rfl
    hagenda hagenda.length_le
  rw [Loop.runOnce, lock_of_free h.free]
  dsimp only
  rw [Sched.fire, h.still]
  simp only [Bool.false_eq_true, if_false]
  rcases hsweep with ⟨hquiet, fired, s', l', x', hends⟩ | ⟨hloud, hnone⟩
  · refine .inl ⟨hquiet, ?_⟩
    rw [hends]
    obtain ⟨n, l'', x'', hdrain, hidle⟩ := @drainMailbox_of_idle ι σ K call K.flowMailboxDepth 0
      { Loop.unlock { l' with sched := { s' with slots := s'.slots.map Sched.unwind
                                                 firing := false } } with
        timersFired := l'.timersFired + UInt32.ofNat fired } x' ⟨rfl, rfl⟩
    refine ⟨fired > 0 || n > 0, l'', x'', ?_, hidle⟩
    simp only [Loop.unlock] at hdrain ⊢
    rw [hdrain]
  · exact .inr ⟨hloud, by rw [hnone]⟩

end Sweep

-- The callbacks of the timers that are due, in the order a sweep takes them,
-- make no call that takes the mutex.
def World.QuietPass (K : Kconfig) (call : ι → σ → Act ι σ) (w : World ι σ) : Input ι σ → Prop
  | .pass nowMs =>
    QuietRun K call ((w.loop.sched.agenda nowMs).map fun p => p.2.cb) w.loop.box w.app
  | _ => True

def World.start (K : Kconfig) (x : σ) : World ι σ :=
  ⟨.init K, x, false⟩

variable {call : ι → σ → Act ι σ}

theorem step_lockedOut_iff {w : World ι σ} (hidle : w.loop.Idle) (hfree : w.lockedOut = false)
    (input : Input ι σ) :
    (w.step K call input).loop.Idle ∧
      ((w.step K call input).lockedOut = false ↔ w.QuietPass K call input) := by
  cases input with
  | pass nowMs =>
    rcases @runOnce_of_idle ι σ K call nowMs w.loop hidle w.app with
      ⟨hquiet, busy, l', x', hpass, hidle'⟩ | ⟨hloud, hnone⟩
    · simp only [World.step, hfree, Bool.false_eq_true, if_false, hpass]
      exact ⟨hidle', iff_of_true trivial hquiet⟩
    · simp only [World.step, hfree, Bool.false_eq_true, if_false, hnone]
      exact ⟨hidle, iff_of_false nofun hloud⟩
  | wake =>
    obtain ⟨n, l', x', hdrain, hidle'⟩ := @drainMailbox_of_idle ι σ K call 1 0 _ w.app hidle
    simp only [World.step, hfree, Bool.false_eq_true, if_false, hdrain]
    exact ⟨hidle', iff_of_true trivial trivial⟩
  | other act =>
    obtain ⟨l', x', hrun, hidle'⟩ := @run_of_idle ι σ K (act w.app) _ hidle
    simp only [World.step, hfree, Bool.false_eq_true, if_false, hrun]
    exact ⟨hidle', iff_of_true trivial trivial⟩
  | start =>
    simp only [World.step, hfree, Bool.false_eq_true, if_false]
    exact ⟨⟨hidle.free, hidle.still⟩, iff_of_true trivial trivial⟩
  | stop =>
    simp only [World.step, hfree, Bool.false_eq_true, if_false]
    exact ⟨⟨hidle.free, hidle.still⟩, iff_of_true trivial trivial⟩

-- The loop never waits for its own mutex exactly when, in every pass, the
-- callbacks of the timers that are due leave the mutex alone.
theorem never_locked_out_iff (K : Kconfig) (call : ι → σ → Act ι σ) (x : σ)
    (inputs : List (Input ι σ)) :
    Always (World.step K call) (fun w => w.lockedOut = false) (.start K x) inputs ↔
      Along (World.step K call) (fun w input => w.QuietPass K call input) (.start K x) inputs := by
  apply always_iff_along (I := fun w => w.loop.Idle)
  · intro w input hidle hfree
    exact (step_lockedOut_iff hidle hfree input).1
  · intro w input hidle hfree
    exact (step_lockedOut_iff hidle hfree input).2
  · exact ⟨rfl, rfl⟩
  · rfl

-- A timer that cancels another one, as a debounced value does that is set from
-- a timer.
def cancelling : Unit → Unit → Act Unit Unit :=
  fun _ _ => .cancel 1 fun _ => .done ()

theorem locked_out_by_cancel :
    ¬∀ (K : Kconfig) (call : Unit → Unit → Act Unit Unit) (x : Unit)
      (inputs : List (Input Unit Unit)),
      Always (World.step K call) (fun w => w.lockedOut = false) (.start K x) inputs := by
  intro h
  have hlast := (h .default cancelling ()
    [.other fun _ => .after 0 0 (some ()) fun _ _ => .done (), .start, .pass 0]).last
  exact absurd hlast (by decide)

end Espos.Flow
