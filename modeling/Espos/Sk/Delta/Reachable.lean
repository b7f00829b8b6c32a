import Espos.Sk.Delta.Publishing

-- What the open window of every engine is like, whatever was called before.

namespace Espos.Sk.Delta

open Espos.Text
open Espos.Run

namespace Engine

variable {maxMsgs : Nat} {d : Engine maxMsgs} {atMs : Int}

-- A window that is closed leaves nothing behind.
theorem flushWindow_window (d : Engine maxMsgs) (env : Env) :
    (d.flushWindow env).1 = d ∧ ((d.flushWindow env).2 = true → d.pending = []) ∨
      (d.flushWindow env).2 = true ∧ (d.flushWindow env).1.pending = [] ∧
        (d.flushWindow env).1.ctx = [] ∧ (d.flushWindow env).1.updN = 0 := by
  unfold flushWindow
  by_cases hnil : d.pending = []
  · rw [if_pos hnil]
    exact .inl ⟨rfl, fun _ => hnil⟩
  · rw [if_neg hnil]
    dsimp only
    generalize (d.noDrop && d.fitsEmpty (d.messages env) &&
      d.exceeds (d.messages env).length (totalBytes (d.messages env))) = held
    cases held with
    | true => exact .inl ⟨rfl, nofun⟩
    | false => exact .inr ⟨rfl, rfl, rfl, rfl⟩

structure Tidy (d : Engine maxMsgs) : Prop where
  orderly : d.Orderly
  closed : d.Closed

theorem Orderly.of_pending_nil (h : d.pending = []) (hctx : d.ctx = []) : d.Orderly := by
  constructor
  · rw [hctx]
    exact List.nodup_nil
  · rw [h]
    nofun
  · rw [h]
    nofun
  · rw [h]
    nofun
  · rw [h]
    nofun
  · rw [h]
    exact List.Pairwise.nil

theorem Tidy.congr {d' : Engine maxMsgs} (h : d.Tidy) (hwindow : d'.openWindow = d.openWindow) :
    d'.Tidy := by
  obtain ⟨hpending, hctx, hupd, _⟩ := openWindow_eq_iff.mp hwindow
  exact ⟨h.orderly.congr (by rw [hpending]) hctx hupd, h.closed.congr hwindow⟩

theorem Tidy.flushWindow (h : d.Tidy) (env : Env) : (d.flushWindow env).1.Tidy := by
  rcases d.flushWindow_window env with ⟨hsame, _⟩ | ⟨_, hpending, hctx, _⟩
  · rwa [hsame]
  · exact ⟨.of_pending_nil hpending hctx, fun _ => hctx⟩

theorem Orderly.first (h : d.pending = []) (hctx : d.ctx = []) (context path value : CStr)
    (now : UInt32) (hat : atMs = 0 ∨ AT_MS_MIN ≤ atMs ∧ atMs ≤ AT_MS_MAX) :
    ((d.addContext context).appendValue 0 path value atMs now).Orderly := by
  have hadded : (d.addContext context).Orderly :=
    (Orderly.of_pending_nil h hctx).addContext (by simp [hctx])
  apply hadded.append
  · simp [Engine.addContext]
  · exact hat
  · simp [Engine.addContext, h]
  · simp [Engine.addContext, updateOf, overtakes, h]

theorem Orderly.contextSlot (h : d.Orderly) (hclosed : d.Closed) (context : CStr) :
    (d.contextSlot context).1.Orderly ∧
      (∀ c, (d.contextSlot context).2 = some c →
        (d.contextSlot context).1.ctx[c]? = some context) ∧
      ((d.contextSlot context).2 = none → (d.contextSlot context).1.pending ≠ []) := by
  rcases d.contextSlot_cases context with ⟨i, hi, hslot⟩ | ⟨hnot, hfull, hslot⟩ | ⟨hnot, hslot⟩
  · rw [hslot]
    refine ⟨h, ?_, by simp⟩
    intro c hc
    obtain rfl := Option.some.inj hc
    exact hi
  · rw [hslot]
    refine ⟨h, by simp, ?_⟩
    intro _ hnil
    rw [hclosed hnil] at hfull
    cases hfull
  · rw [hslot]
    refine ⟨h.addContext hnot, ?_, by simp⟩
    intro c hc
    obtain rfl := Option.some.inj hc
    simp [Engine.addContext]

theorem Orderly.publishInto (K : Kconfig) (env : Env) {context : CStr} (path value : CStr)
    {ctx : Option Nat} (h : d.Orderly)
    (hslot : ∀ c, ctx = some c → d.ctx[c]? = some context) (hnone : ctx = none → d.pending ≠ [])
    (hat : atMs = 0 ∨ AT_MS_MIN ≤ atMs ∧ atMs ≤ AT_MS_MAX) :
    (d.publishInto K env context path value atMs ctx).1.Orderly ∧
      (d.publishInto K env context path value atMs ctx).1.pending ≠ [] := by
  unfold Engine.publishInto
  cases hcoalesced : d.coalesced ctx path value atMs with
  | some table =>
    obtain ⟨c, rfl, _, htable⟩ := coalesced_eq_some hcoalesced
    refine ⟨h.replace htable, ?_⟩
    obtain ⟨older, p, newer, _, _, rfl⟩ := replaceValue_eq_some htable
    simp [setPending]
  | none =>
    cases hplace : d.noPlace K ctx path atMs with
    | false =>
      obtain ⟨c, rfl, horder, htable⟩ := place_of_not_noPlace hcoalesced hplace
      have hlt : c < d.ctx.length := (List.getElem?_eq_some_iff.mp (hslot c rfl)).1
      simp only [Bool.false_eq_true, if_false]
      refine ⟨h.append hlt hat (replaceValue_eq_none htable) horder, ?_⟩
      simp [appendValue]
    | true =>
      have hopen := noPlace_open hnone hplace
      simp only [if_true]
      rcases d.flushWindow_window env with ⟨hsame, hkept⟩ | ⟨hdone, hpending, hctx, _⟩
      · have hnot : (d.flushWindow env).2 = false := by
          by_contra hdone
          exact hopen (hkept (by simpa using hdone))
        simp only [hnot, Bool.false_eq_true, if_false, hsame]
        exact ⟨h, hopen⟩
      · simp only [hdone, if_true, contextSlot_of_nil hctx]
        refine ⟨.first hpending hctx context path value env.now hat, ?_⟩
        simp [appendValue]

theorem Tidy.publishAt (h : d.Tidy) (K : Kconfig) (env : Env) (context : Option CStr)
    (path value : CStr) (atMs : Int) : (d.publishAt K env context path value atMs).1.Tidy := by
  unfold Engine.publishAt
  by_cases hcheck : publishCheck (context.getD SELF_CONTEXT) path value atMs = .ok
  · simp only [hcheck, ne_eq, not_true, if_false]
    obtain ⟨hslot, hctx, hnone⟩ := h.orderly.contextSlot h.closed (context.getD SELF_CONTEXT)
    obtain ⟨horderly, hopen⟩ :=
      hslot.publishInto K env path value hctx hnone (publishCheck_date hcheck)
    exact ⟨horderly, fun hnil => absurd hnil hopen⟩
  · simp only [ne_eq, hcheck, not_false_eq_true, if_true]
    exact h

theorem openWindow_send (d : Engine maxMsgs) (env : Env) (connected : Bool) :
    (d.send env connected).1.openWindow = d.openWindow := by
  unfold send
  split
  · rfl
  · split
    · rfl
    · unfold handOut ringPop
      cases hpop : (d.setDraining (d.backlog && decide (1 < d.ring.count))).ring.popFront with
      | none => rfl
      | some p =>
        dsimp only
        split
        · rfl
        · generalize stamp _ env _ _ _ = stamped
          cases stamped <;> rfl

theorem openWindow_requeue (d : Engine maxMsgs) (msg : Msg) :
    (d.requeue msg).openWindow = d.openWindow := by
  unfold requeue
  split <;> rfl

end Engine

theorem tidy_create (cfg : Cfg) : (create cfg).Tidy :=
  ⟨.of_pending_nil rfl rfl, fun _ => rfl⟩

theorem tidy_step (K : Kconfig) {maxMsgs : Nat} (d : Engine maxMsgs) (call : Env × Op)
    (h : d.Tidy) : (step K d call).Tidy := by
  obtain ⟨env, op⟩ := call
  cases op with
  | publishAt context path value atMs => exact h.publishAt K env context path value atMs
  | flush => exact h.flushWindow env
  | take connected =>
    have hclosed : (d.closeDue env).Tidy := by
      unfold Engine.closeDue
      split
      · exact h.flushWindow env
      · exact h
    exact hclosed.congr ((d.closeDue env).openWindow_send env connected)
  | requeue msg => exact h.congr (d.openWindow_requeue msg)
  | setLabel label => exact h.congr rfl
  | setTiming batchMs drainPerS => exact h.congr rfl
  | setNoDrop noDrop => exact h.congr rfl

theorem tidy_run (K : Kconfig) (cfg : Cfg) (calls : List (Env × Op)) :
    (run (step K) (create cfg) calls).Tidy :=
  run_invariant (tidy_step K) (tidy_create cfg) calls

end Espos.Sk.Delta
