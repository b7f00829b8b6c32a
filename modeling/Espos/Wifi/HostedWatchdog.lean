import Mathlib.Logic.Function.Basic
import Espos.Lib.Run

-- The heartbeat watchdog of `hosted_watchdog.c`, which an update of the
-- co-processor holds off. The event loop and the update run on tasks of their
-- own, and between any two accesses of one the other may come in.

namespace Espos.Wifi.Hosted

open Espos.Run

-- Where a task is in `arm_timer` or in taking the hold.
inductive At where
  | out
  -- About to look at the hold, at the timer, and to arm it.
  | look
  | probe
  | start (active : Bool)
  -- The timer is armed, and the hold is looked at again.
  | lookAgain
  | stop
  -- The hold is set, and the timer not yet stopped.
  | stopHeld
deriving DecidableEq

inductive Cause where
  | timer
  | transport
  | coprocessor
deriving DecidableEq

structure Watchdog (τ : Type*) where
  held : Bool
  active : Bool
  seenBeat : Bool
  pos : τ → At
  restarted : Option Cause

variable {τ : Type*} [DecidableEq τ]

namespace Watchdog

def go (s : Watchdog τ) (task : τ) (a : At) : Watchdog τ :=
  { s with pos := Function.update s.pos task a }

def restart (s : Watchdog τ) (cause : Cause) : Watchdog τ :=
  { s with restarted := s.restarted.or (some cause) }

-- The next access of a task. `esp_timer_restart` leaves a timer alone that is
-- idle, and `esp_timer_start_once` one that is not.
def turn (s : Watchdog τ) (task : τ) : Watchdog τ :=
  match s.pos task with
  | .out => s
  | .look => if s.held then s.go task .out else s.go task .probe
  | .probe => s.go task (.start s.active)
  | .start true => s.go task .lookAgain
  | .start false => { s with active := true }.go task .lookAgain
  | .lookAgain => if s.held then s.go task .stop else s.go task .out
  | .stop => { s with active := false }.go task .out
  | .stopHeld => { s with active := false }.go task .out

end Watchdog

inductive Event (τ : Type*) where
  | beat (task : τ)
  | transportFailure
  | cpInit
  | hold (task : τ) (hold : Bool)
  | turn (task : τ)
  | fire

-- A task that is still in a call begins no other one.
def watch (s : Watchdog τ) : Event τ → Watchdog τ
  | .beat task => if s.pos task = .out then { s with seenBeat := true }.go task .look else s
  | .transportFailure => s.restart .transport
  | .cpInit => if s.seenBeat then s.restart .coprocessor else s
  | .hold task hold =>
    if s.pos task = .out then
      { s with held := hold }.go task (if hold then .stopHeld else .look)
    else s
  | .turn task => s.turn task
  | .fire => if s.active then { s with active := false }.restart .timer else s

-- The handle is made, nobody has armed it. A hold may have come before.
def created (held : Bool) : Watchdog τ :=
  ⟨held, false, false, fun _ => .out, none⟩

-- A task that has armed the timer, or has set the hold, and has still to see to
-- it that the timer stops.
def At.Guards (a : At) : Prop :=
  a = .lookAgain ∨ a = .stop ∨ a = .stopHeld

namespace Watchdog

variable {s : Watchdog τ} {task : τ}

-- A timer that is armed under the hold is about to be stopped.
def Guarded (s : Watchdog τ) : Prop :=
  s.held = true → s.active = true → ∃ t, At.Guards (s.pos t)

theorem exists_guard {pos : τ → At} {a : At} (h : ∃ t, At.Guards (pos t))
    (htask : At.Guards (pos task) → a.Guards) :
    ∃ t, At.Guards (Function.update pos task a t) := by
  obtain ⟨t, ht⟩ := h
  by_cases heq : t = task
  · subst heq
    refine ⟨t, ?_⟩
    rw [Function.update_self]
    exact htask ht
  · refine ⟨t, ?_⟩
    rw [Function.update_of_ne heq]
    exact ht

theorem guard_self {pos : τ → At} {a : At} (h : a.Guards) :
    ∃ t, At.Guards (Function.update pos task a t) := by
  refine ⟨task, ?_⟩
  rw [Function.update_self]
  exact h

-- A task moves on from where it guards nothing.
theorem Guarded.go (h : s.Guarded) {a : At} (htask : ¬ At.Guards (s.pos task)) :
    (s.go task a).Guarded :=
  fun hheld hactive => exists_guard (h hheld hactive) fun hguard => absurd hguard htask

theorem Guarded.turn (h : s.Guarded) (task : τ) : (s.turn task).Guarded := by
  rw [Watchdog.turn]
  split
  next => exact h
  next hpos =>
    split <;> exact h.go (by rw [hpos, At.Guards]; decide)
  next hpos => exact h.go (by rw [hpos, At.Guards]; decide)
  next => exact fun _ _ => guard_self (.inl rfl)
  next => exact fun _ _ => guard_self (.inl rfl)
  next =>
    split
    next => exact fun _ _ => guard_self (.inr (.inl rfl))
    next hheld => exact fun hheld' => absurd hheld' hheld
  next => exact fun _ hactive => by cases hactive
  next => exact fun _ hactive => by cases hactive

theorem Guarded.watch (h : s.Guarded) (e : Event τ) : (watch s e).Guarded := by
  cases e with
  | beat task =>
    rw [Hosted.watch]
    split
    next hpos => exact Guarded.go (s := { s with seenBeat := true }) h (by
      change ¬ At.Guards (s.pos task)
      rw [hpos, At.Guards]
      decide)
    next => exact h
  | transportFailure => exact h
  | cpInit =>
    rw [Hosted.watch]
    split <;> exact h
  | hold task hold =>
    rw [Hosted.watch]
    split
    next =>
      cases hold with
      | true => exact fun _ _ => guard_self (.inr (.inr rfl))
      | false => exact fun hheld => by cases hheld
    next => exact h
  | turn task => exact h.turn task
  | fire =>
    rw [Hosted.watch]
    split
    next => exact fun _ hactive => by cases hactive
    next => exact h

-- The hold is on, the timer idle, and nobody is on the way to arm it.
structure Quiet (s : Watchdog τ) : Prop where
  held : s.held = true
  idle : s.active = false
  away : ∀ t, s.pos t = .out ∨ s.pos t = .look ∨ s.pos t = .stopHeld

-- Nobody lets go of the hold.
def Keeps : Event τ → Prop
  | .hold _ hold => hold = true
  | _ => True

theorem away_update {pos : τ → At} {a : At}
    (h : ∀ t, pos t = .out ∨ pos t = .look ∨ pos t = .stopHeld)
    (ha : a = .out ∨ a = .look ∨ a = .stopHeld) (t : τ) :
    Function.update pos task a t = .out ∨ Function.update pos task a t = .look ∨
      Function.update pos task a t = .stopHeld := by
  by_cases heq : t = task
  · subst heq
    rw [Function.update_self]
    exact ha
  · rw [Function.update_of_ne heq]
    exact h t

theorem Quiet.watch (h : s.Quiet) {e : Event τ} (hkeeps : Keeps e) :
    (watch s e).Quiet ∧ ((watch s e).restarted = some .timer → s.restarted = some .timer) := by
  cases e with
  | beat task =>
    rw [Hosted.watch]
    split
    · exact ⟨⟨h.held, h.idle, away_update h.away (.inr (.inl rfl))⟩, id⟩
    · exact ⟨h, id⟩
  | transportFailure =>
    refine ⟨⟨h.held, h.idle, h.away⟩, ?_⟩
    change s.restarted.or _ = _ → _
    cases s.restarted <;> simp
  | cpInit =>
    rw [Hosted.watch]
    split
    · refine ⟨⟨h.held, h.idle, h.away⟩, ?_⟩
      change s.restarted.or _ = _ → _
      cases s.restarted <;> simp
    · exact ⟨h, id⟩
  | hold task hold =>
    obtain rfl : hold = true := hkeeps
    rw [Hosted.watch]
    split
    · exact ⟨⟨rfl, h.idle, away_update h.away (.inr (.inr rfl))⟩, id⟩
    · exact ⟨h, id⟩
  | turn task =>
    rw [Hosted.watch, Watchdog.turn]
    rcases h.away task with hpos | hpos | hpos
    · rw [hpos]
      exact ⟨h, id⟩
    · rw [hpos]
      dsimp only
      rw [if_pos h.held]
      exact ⟨⟨h.held, h.idle, away_update h.away (.inl rfl)⟩, id⟩
    · rw [hpos]
      exact ⟨⟨h.held, rfl, away_update h.away (.inl rfl)⟩, id⟩
  | fire =>
    rw [Hosted.watch, h.idle]
    exact ⟨h, id⟩

-- Once the hold is set and whoever was arming the timer is through, the timer
-- does not restart the device until the hold is let go of.
theorem update_undisturbed (held : Bool) {earlier later : List (Event τ)}
    (hheld : (run watch (created held) earlier).held = true)
    (hthrough : ∀ t, (run watch (created held) earlier).pos t = .out ∨
      (run watch (created held) earlier).pos t = .look)
    (hkeeps : ∀ e ∈ later, Keeps e)
    (hup : (run watch (created held) earlier).restarted ≠ some .timer) :
    (run watch (created held) (earlier ++ later)).restarted ≠ some .timer := by
  have hguarded : (run watch (created held) earlier).Guarded :=
    run_invariant (P := Guarded) (fun _ e h => h.watch e) (fun _ hactive => by cases hactive)
      earlier
  have hsplit : run watch (created held) (earlier ++ later) =
      run watch (run watch (created held) earlier) later := List.foldl_append
  rw [hsplit]
  generalize run watch (created held) earlier = s at hheld hthrough hup hguarded
  have hquiet : s.Quiet := by
    refine ⟨hheld, ?_, fun t => (hthrough t).imp_right .inl⟩
    rw [← Bool.not_eq_true]
    intro hactive
    obtain ⟨t, hguard⟩ := hguarded hheld hactive
    rcases hthrough t with hpos | hpos
    · rw [hpos] at hguard
      exact absurd hguard (by rw [At.Guards]; decide)
    · rw [hpos] at hguard
      exact absurd hguard (by rw [At.Guards]; decide)
  have hlast : (run watch s later).Quiet ∧
      ((run watch s later).restarted = some .timer → s.restarted = some .timer) :=
    run_invariant_of_along
      (P := fun s' : Watchdog τ =>
        s'.Quiet ∧ (s'.restarted = some .timer → s.restarted = some .timer))
      (fun s' e h hk => ⟨(h.1.watch hk).1, fun hr => h.2 ((h.1.watch hk).2 hr)⟩) ⟨hquiet, id⟩
      (along_of_forall hkeeps)
  exact fun hrestart => hup (hlast.2 hrestart)

-- The hold comes between the two looks of the event loop, which arms the timer
-- after the hold has stopped it.
def caughtBetween : List (Event Bool) :=
  [.beat false, .turn false, .turn false, .hold true true, .turn true, .turn false, .turn false,
    .turn false]

theorem caught_undisturbed : (run watch (created false)
    (caughtBetween ++ [.beat false, .turn false, .fire])).restarted ≠ some .timer :=
  update_undisturbed false (by decide) (by decide) (by simp [Keeps]) (by decide)

end Watchdog

end Espos.Wifi.Hosted
