import Mathlib.Data.UInt
import Mathlib.Tactic.Ring
import Espos.Sk.Delta.Queue

namespace Espos.Sk.Delta

open Espos.Text
open Espos.Run
open scoped UInt32.CommRing

namespace Engine

variable {maxMsgs : Nat} {d d' : Engine maxMsgs} {q : Queued}

-- What the message counters account for, and what they miss of the messages
-- built.
def accounted (d : Engine maxMsgs) : UInt32 :=
  d.st.taken + d.st.dropped + UInt32.ofNat d.ring.count

def missing (d : Engine maxMsgs) : UInt32 :=
  d.st.built - d.accounted

def Balanced (d : Engine maxMsgs) : Prop :=
  d.st.built = d.st.taken + d.st.dropped + UInt32.ofNat d.ring.count

instance (d : Engine maxMsgs) : Decidable d.Balanced :=
  inferInstanceAs (Decidable (_ = _))

theorem balanced_iff_missing : d.Balanced ↔ d.missing = 0 := by
  rw [missing, sub_eq_zero]
  rfl

theorem missing_congr (h : d.queue = d'.queue) : d.missing = d'.missing := by
  obtain ⟨hring, _, hst, _⟩ := queue_eq_iff.mp h
  simp only [missing, accounted, hring, hst]

theorem ofNat_succ (n : Nat) : UInt32.ofNat (n + 1) = UInt32.ofNat n + 1 :=
  UInt32.ofNat_add n 1

theorem ofNat_pred {n : Nat} (h : n ≠ 0) : UInt32.ofNat (n - 1) = UInt32.ofNat n - 1 := by
  obtain ⟨m, rfl⟩ : ∃ m, n = m + 1 := ⟨n - 1, by omega⟩
  rw [Nat.add_sub_cancel, ofNat_succ]
  ring

-- An eviction moves a message from the ring to the dropped ones.
theorem missing_dropOldest (h : d.ring.count ≠ 0) : d.dropOldest.missing = d.missing := by
  simp only [missing, accounted, dropOldest, Ring.dropFront, ofNat_pred h]
  ring

theorem missing_makeRoom (len turns : Nat) : (makeRoom len turns d).missing = d.missing := by
  apply makeRoom_invariant (P := fun e => e.missing = d.missing) len _ turns rfl
  intro e he hcount
  rw [missing_dropOldest hcount, he]

theorem missing_store (h : d.ring.count < maxMsgs) : (d.store q).missing = d.missing - 1 := by
  simp only [missing, accounted, store]
  rw [d.ring.count_pushBack q h, ofNat_succ]
  ring

theorem missing_pushDropping : (d.pushDropping q).1.missing = d.missing - 1 := by
  have hroom := missing_makeRoom (d := d) q.msg.text.length d.ring.count
  have hlt := d.makeRoom_count_lt q.msg.text.length (le_refl d.ring.count)
  simp only [pushDropping]
  generalize makeRoom q.msg.text.length d.ring.count d = e at hroom hlt
  split
  · rw [← hroom]
    simp only [missing, accounted]
    ring
  · rw [missing_store hlt, hroom]

-- A message built is stored or dropped.
theorem missing_pushBuilt : (pushBuilt false d q).missing = d.missing := by
  have hbuilt : d.countBuilt.missing = d.missing + 1 := by
    simp only [missing, accounted, countBuilt]
    ring
  rw [pushBuilt_false, missing_pushDropping, hbuilt]
  ring

theorem missing_popped (h : d.ring.count ≠ 0) : (d.popped q).missing = d.missing := by
  simp only [missing, accounted, popped, Ring.dropFront, ofNat_pred h]
  ring

-- A message put back is taken no more, but one dropped on the way back stays
-- counted as taken.
theorem missing_requeue (msg : Msg) :
    (d.requeue msg).missing = if d.ring.count < maxMsgs then d.missing else d.missing - 1 := by
  by_cases hfull : maxMsgs ≤ d.ring.count
  · rw [if_neg (by omega)]
    simp only [requeue, hfull, if_true, missing, accounted]
    ring
  · have hlt : d.ring.count < maxMsgs := by omega
    rw [if_pos hlt]
    simp only [requeue, hfull, if_false, missing, accounted]
    rw [d.ring.count_pushFront _ hlt, ofNat_succ]
    ring

-- Nothing but handing a message out counts it as taken.
theorem taken_pushBuilt : (pushBuilt false d q).st.taken = d.st.taken := by
  have hroom : (makeRoom q.msg.text.length d.countBuilt.ring.count d.countBuilt).st.taken =
      d.st.taken := by
    apply makeRoom_invariant (P := fun e => e.st.taken = d.st.taken)
    · intro e he _
      exact he
    · rfl
  rw [pushBuilt_false]
  simp only [pushDropping]
  split <;> exact hroom

theorem taken_flushWindow (env : Env) : (d.flushWindow env).1.st.taken = d.st.taken := by
  apply flushWindow_invariant (P := fun e => e.st.taken = d.st.taken)
  · intro e e' he hqueue
    rw [← (queue_eq_iff.mp hqueue).2.2.1, he]
  · intro e q he
    rw [taken_pushBuilt, he]
  · rfl

theorem taken_publishAt (K : Kconfig) (env : Env) (context : Option CStr) (path value : CStr)
    (atMs : Int) : (d.publishAt K env context path value atMs).1.st.taken = d.st.taken := by
  apply publishAt_invariant (P := fun e => e.st.taken = d.st.taken)
  · intro e e' he hqueue
    rw [← (queue_eq_iff.mp hqueue).2.2.1, he]
  · intro e q he
    rw [taken_pushBuilt, he]
  · rfl

theorem taken_handOut (env : Env) : (d.handOut env).1.st.taken =
    d.st.taken + if (d.handOut env).2.isSome then 1 else 0 := by
  by_cases hcount : d.ring.count = 0
  · simp [handOut, ringPop, Ring.popFront, hcount]
  · simp only [handOut, ringPop_of_count_ne_zero hcount]
    split
    · rfl
    · split <;> rfl

theorem taken_take (env : Env) (connected : Bool) : (d.take env connected).1.st.taken =
    d.st.taken + if (d.take env connected).2.isSome then 1 else 0 := by
  have hclosed : (d.closeDue env).st.taken = d.st.taken := by
    unfold closeDue
    split
    · exact taken_flushWindow env
    · rfl
  unfold take
  rw [← hclosed]
  unfold send
  split
  · simp [setDraining]
  · split
    · simp
    · rw [taken_handOut]
      rfl

end Engine

-- An engine, and how many of its messages were handed out and how many came
-- back.
structure Ledger (maxMsgs : Nat) where
  eng : Engine maxMsgs
  handed : UInt32
  back : UInt32

-- The message a call hands out.
def handsOut {maxMsgs : Nat} (d : Engine maxMsgs) (call : Env × Op) : Option Msg :=
  match call.2 with
  | .take connected => (d.take call.1 connected).2
  | _ => none

def bringsBack (call : Env × Op) : Bool :=
  match call.2 with
  | .requeue _ => true
  | _ => false

namespace Ledger

variable {maxMsgs : Nat}

def step (K : Kconfig) (l : Ledger maxMsgs) (call : Env × Op) : Ledger maxMsgs where
  eng := Delta.step K l.eng call
  handed := l.handed + if (handsOut l.eng call).isSome then 1 else 0
  back := l.back + if bringsBack call then 1 else 0

def start (cfg : Cfg) : Ledger cfg.capacity :=
  ⟨create cfg, 0, 0⟩

-- The taken messages are those handed out that did not come back, and every
-- message built is taken, dropped or buffered.
def Balanced (l : Ledger maxMsgs) : Prop :=
  l.eng.st.taken = l.handed - l.back ∧ l.eng.Balanced

instance (l : Ledger maxMsgs) : Decidable l.Balanced :=
  inferInstanceAs (Decidable (_ ∧ _))

-- A requeue finds room for the message it brings back.
def RequeueFinds (l : Ledger maxMsgs) (call : Env × Op) : Prop :=
  bringsBack call → l.eng.ring.count < maxMsgs

theorem balanced_of_keeps (K : Kconfig) {l : Ledger maxMsgs} {call : Env × Op}
    (hback : bringsBack call = false) (h : l.Balanced) : (l.step K call).Balanced := by
  obtain ⟨htaken, hbalanced⟩ := h
  constructor
  · have hstep : (Delta.step K l.eng call).st.taken =
        l.eng.st.taken + if (handsOut l.eng call).isSome then 1 else 0 := by
      obtain ⟨env, op⟩ := call
      cases op with
      | publishAt context path value atMs =>
        simpa [Delta.step, handsOut] using Engine.taken_publishAt K env context path value atMs
      | flush => simpa [Delta.step, Engine.flush, handsOut] using Engine.taken_flushWindow env
      | take connected => exact Engine.taken_take env connected
      | requeue msg => cases hback
      | setLabel label => simp [Delta.step, Engine.setLabel, handsOut]
      | setTiming batchMs drainPerS => simp [Delta.step, Engine.setTiming, handsOut]
      | setNoDrop noDrop => simp [Delta.step, Engine.setNoDrop, handsOut]
    simp only [step, hstep, htaken, hback]
    simp only [Bool.false_eq_true, if_false]
    ring
  · have hstep : (Delta.step K l.eng call).missing = l.eng.missing := by
      apply step_invariant (P := fun e => e.missing = l.eng.missing) _ _ _ K call _ rfl
      · intro e e' he hqueue
        rw [← Engine.missing_congr hqueue, he]
      · intro e q he
        rw [Engine.missing_pushBuilt, he]
      · intro e he hcount
        rw [Engine.missing_popped hcount, he]
      · intro msg hmsg
        simp [bringsBack, hmsg] at hback
    rw [Engine.balanced_iff_missing] at hbalanced ⊢
    exact hstep.trans hbalanced

theorem balanced_requeue_iff (K : Kconfig) {l : Ledger maxMsgs} {env : Env} {msg : Msg}
    (h : l.Balanced) : (l.step K (env, .requeue msg)).Balanced ↔ l.eng.ring.count < maxMsgs := by
  obtain ⟨htaken, hbalanced⟩ := h
  rw [Engine.balanced_iff_missing] at hbalanced
  have hmissing := l.eng.missing_requeue msg
  constructor
  · rintro ⟨_, hnext⟩
    have hnext : (l.eng.requeue msg).missing = 0 := Engine.balanced_iff_missing.mp hnext
    by_contra hfull
    rw [hmissing, if_neg hfull, hbalanced] at hnext
    revert hnext
    decide
  · intro hroom
    have hstep : (l.eng.requeue msg).st.taken = l.eng.st.taken - 1 := by
      simp only [Engine.requeue, show ¬ maxMsgs ≤ l.eng.ring.count by omega, if_false]
    refine ⟨?_, ?_⟩
    · change (l.eng.requeue msg).st.taken = (l.handed + 0) - (l.back + 1)
      rw [hstep, htaken]
      ring
    · change (l.eng.requeue msg).Balanced
      rw [Engine.balanced_iff_missing, hmissing, if_pos hroom, hbalanced]

theorem balanced_step_iff (K : Kconfig) {l : Ledger maxMsgs} (call : Env × Op)
    (h : l.Balanced) : (l.step K call).Balanced ↔ l.RequeueFinds call := by
  cases hback : bringsBack call with
  | false =>
    constructor
    · intro _ hb
      rw [hback] at hb
      cases hb
    · intro _
      exact balanced_of_keeps K hback h
  | true =>
    obtain ⟨env, op⟩ := call
    cases op with
    | requeue msg =>
      rw [balanced_requeue_iff K h]
      simp [RequeueFinds, bringsBack]
    | _ => cases hback

end Ledger

-- The counters balance along a run exactly when every requeue finds room.
theorem counters_balance_iff (K : Kconfig) (cfg : Cfg) (calls : List (Env × Op)) :
    Always (Ledger.step K) Ledger.Balanced (Ledger.start cfg) calls ↔
      Along (Ledger.step K) Ledger.RequeueFinds (Ledger.start cfg) calls := by
  apply always_iff_along (I := fun _ => True)
  · intros
    trivial
  · intro l call _ hbalanced
    exact Ledger.balanced_step_iff K call hbalanced
  · trivial
  · refine ⟨?_, rfl⟩
    change (0 : UInt32) = 0 - 0
    ring

theorem requeue_into_full_ring_miscounts :
    ¬ ∀ (K : Kconfig) (cfg : Cfg) (calls : List (Env × Op)),
      Always (Ledger.step K) Ledger.Balanced (Ledger.start cfg) calls := by
  intro h
  have hlast := (h .default (Cfg.ofRing 1 0 false) (failedSend (Cfg.ofRing 1 0 false))).last
  exact absurd hlast (by decide)

end Espos.Sk.Delta
