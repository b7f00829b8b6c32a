import Espos.Lib.Run
import Espos.Sk.Delta.Engine

namespace Espos.Sk.Delta

open Espos.Text

namespace Engine

variable {maxMsgs : Nat} {d d' : Engine maxMsgs} {q : Queued}

-- The part of an engine that messages move through.
def queue (d : Engine maxMsgs) : Ring Queued maxMsgs × Nat × Counters × Nat :=
  (d.ring, d.bytes, d.st, d.maxBytes)

theorem queue_eq_iff : d.queue = d'.queue ↔
    d.ring = d'.ring ∧ d.bytes = d'.bytes ∧ d.st = d'.st ∧ d.maxBytes = d'.maxBytes := by
  simp [queue]

theorem capacity_pos (d : Engine maxMsgs) : 0 < maxMsgs :=
  d.ring.head.pos

-- Making room

-- What one eviction keeps, making room keeps.
theorem makeRoom_invariant {P : Engine maxMsgs → Prop} (len : Nat)
    (hdrop : ∀ d, P d → d.ring.count ≠ 0 → P d.dropOldest) (turns : Nat) {d : Engine maxMsgs}
    (h : P d) : P (makeRoom len turns d) := by
  induction turns generalizing d with
  | zero => exact h
  | succ turns ih =>
    unfold makeRoom
    split
    · rename_i hturn
      exact ih (hdrop d h hturn.1)
    · exact h

theorem makeRoom_done (len : Nat) {turns : Nat} {d : Engine maxMsgs} (h : d.ring.count ≤ turns) :
    (makeRoom len turns d).ring.count = 0 ∨ (makeRoom len turns d).exceeds 1 len = false := by
  induction turns generalizing d with
  | zero =>
    left
    have hzero : d.ring.count = 0 := by omega
    exact hzero
  | succ turns ih =>
    unfold makeRoom
    split
    · rename_i hturn
      apply ih
      have hcount : d.dropOldest.ring.count = d.ring.count - 1 := rfl
      omega
    · rename_i hstop
      by_cases hzero : d.ring.count = 0
      · exact Or.inl hzero
      · right
        simpa [hzero] using hstop

theorem makeRoom_of_fits {len : Nat} (h : d.exceeds 1 len = false) (turns : Nat) :
    makeRoom len turns d = d := by
  cases turns with
  | zero => rfl
  | succ turns =>
    unfold makeRoom
    rw [if_neg]
    simp [h]

theorem makeRoom_maxBytes (len turns : Nat) (d : Engine maxMsgs) :
    (makeRoom len turns d).maxBytes = d.maxBytes := by
  apply makeRoom_invariant (P := fun e => e.maxBytes = d.maxBytes) len _ turns rfl
  intro e he _
  exact he

theorem exceeds_eq_false_iff {n len : Nat} : d.exceeds n len = false ↔
    d.ring.count + n ≤ maxMsgs ∧ (d.maxBytes = 0 ∨ d.bytes + len ≤ d.maxBytes) := by
  simp only [exceeds, Bool.or_eq_false_iff, Bool.and_eq_false_iff, decide_eq_false_iff_not]
  omega

theorem makeRoom_count_lt (len : Nat) {turns : Nat} (h : d.ring.count ≤ turns) :
    (makeRoom len turns d).ring.count < maxMsgs := by
  have hpos := d.capacity_pos
  rcases makeRoom_done len h with hzero | hfits
  · omega
  · have := (exceeds_eq_false_iff.mp hfits).1
    omega

-- Pushing

theorem pushDropping_of_fits (h : d.exceeds 1 q.msg.text.length = false) :
    d.pushDropping q = (d.store q, true) := by
  simp only [pushDropping, makeRoom_of_fits h]
  rw [if_neg]
  obtain ⟨_, hbytes⟩ := exceeds_eq_false_iff.mp h
  omega

-- Where there is room, both kinds of push store the message.
theorem ringPush_of_fits (noDrop : Bool) (h : d.exceeds 1 q.msg.text.length = false) :
    d.ringPush q noDrop = (d.store q, true) := by
  simp only [ringPush, h, Bool.and_false]
  exact pushDropping_of_fits h

def countBuilt (d : Engine maxMsgs) : Engine maxMsgs :=
  { d with st := { d.st with built := d.st.built + 1 } }

def storeBuilt (d : Engine maxMsgs) (q : Queued) : Engine maxMsgs :=
  d.countBuilt.store q

theorem pushBuilt_false (d : Engine maxMsgs) (q : Queued) :
    pushBuilt false d q = (d.countBuilt.pushDropping q).1 := rfl

theorem totalBytes_cons (q : Queued) (qs : List Queued) :
    totalBytes (q :: qs) = q.msg.text.length + totalBytes qs := by
  simp [totalBytes]

theorem totalBytes_append (qs rs : List Queued) :
    totalBytes (qs ++ rs) = totalBytes qs + totalBytes rs := by
  simp [totalBytes]

theorem storeBuilt_fits {n : Nat} {qs : List Queued}
    (h : d.exceeds (n + 1) (totalBytes (q :: qs)) = false) :
    (d.storeBuilt q).exceeds n (totalBytes qs) = false := by
  obtain ⟨hcount, hbytes⟩ := exceeds_eq_false_iff.mp h
  have hlt : d.ring.count < maxMsgs := by omega
  have hstored : (d.storeBuilt q).ring.count = d.ring.count + 1 := d.ring.count_pushBack q hlt
  rw [totalBytes_cons] at hbytes
  rw [exceeds_eq_false_iff, hstored]
  simp only [storeBuilt, store, countBuilt]
  omega

-- A window that fits is stored whole, whichever way it is pushed.
theorem foldl_pushBuilt_of_fits (noDrop : Bool) {qs : List Queued} {d : Engine maxMsgs}
    (h : d.exceeds qs.length (totalBytes qs) = false) :
    qs.foldl (pushBuilt noDrop) d = qs.foldl storeBuilt d := by
  induction qs generalizing d with
  | nil => rfl
  | cons q qs ih =>
    have hone : d.countBuilt.exceeds 1 q.msg.text.length = false := by
      obtain ⟨hcount, hbytes⟩ := exceeds_eq_false_iff.mp h
      rw [totalBytes_cons] at hbytes
      rw [List.length_cons] at hcount
      rw [exceeds_eq_false_iff]
      simp only [countBuilt]
      omega
    have hpush : pushBuilt noDrop d q = d.storeBuilt q := by
      change (d.countBuilt.ringPush q noDrop).1 = d.storeBuilt q
      rw [ringPush_of_fits noDrop hone]
      rfl
    rw [List.foldl_cons, List.foldl_cons, hpush]
    exact ih (storeBuilt_fits h)

-- Closing a window either keeps it or pushes its messages the dropping way.
theorem flushWindow_eq_or (d : Engine maxMsgs) (env : Env) :
    (d.flushWindow env).1 = d ∨
      (d.flushWindow env).1 =
        ((d.messages env).foldl (pushBuilt false) d).clearWindow := by
  simp only [flushWindow]
  split
  · exact Or.inl rfl
  · split
    · exact Or.inl rfl
    · rename_i hpush
      right
      cases hno : d.noDrop && d.fitsEmpty (d.messages env) with
      | false => rfl
      | true =>
        have hfits : d.exceeds (d.messages env).length (totalBytes (d.messages env)) = false := by
          simpa [hno] using hpush
        rw [foldl_pushBuilt_of_fits true hfits, foldl_pushBuilt_of_fits false hfits]

-- What a push keeps, closing a window keeps.
theorem flushWindow_invariant {P : Engine maxMsgs → Prop}
    (hqueue : ∀ d d' : Engine maxMsgs, P d → d.queue = d'.queue → P d')
    (hpush : ∀ d q, P d → P (pushBuilt false d q)) (env : Env) (h : P d) :
    P (d.flushWindow env).1 := by
  have hfold (qs : List Queued) : ∀ e : Engine maxMsgs, P e → P (qs.foldl (pushBuilt false) e) := by
    induction qs with
    | nil =>
      intro e he
      exact he
    | cons q qs ih =>
      intro e he
      exact ih _ (hpush e q he)
  rcases d.flushWindow_eq_or env with hkept | hpushed
  · rw [hkept]
    exact h
  · rw [hpushed]
    exact hqueue _ _ (hfold (d.messages env) d h) rfl

theorem contextSlot_queue (d : Engine maxMsgs) (context : CStr) :
    (d.contextSlot context).1.queue = d.queue := by
  unfold contextSlot
  split
  · rfl
  · split <;> rfl

-- Publishing touches the queue only by closing the window.
theorem publishAt_invariant {P : Engine maxMsgs → Prop}
    (hqueue : ∀ d d' : Engine maxMsgs, P d → d.queue = d'.queue → P d')
    (hpush : ∀ d q, P d → P (pushBuilt false d q)) (K : Kconfig) (env : Env)
    (context : Option CStr) (path value : CStr) (atMs : Int) (h : P d) :
    P (d.publishAt K env context path value atMs).1 := by
  simp only [publishAt]
  split
  · exact h
  · have hslot := hqueue _ _ h (d.contextSlot_queue (context.getD SELF_CONTEXT)).symm
    generalize (d.contextSlot (context.getD SELF_CONTEXT)).1 = e at hslot
    generalize (d.contextSlot (context.getD SELF_CONTEXT)).2 = ctx
    have hflush := flushWindow_invariant hqueue hpush env hslot
    unfold publishInto
    split
    · exact hqueue _ _ hslot rfl
    · split
      · dsimp only
        split
        · have hnext := hqueue _ _ hflush
            ((e.flushWindow env).1.contextSlot_queue (context.getD SELF_CONTEXT)).symm
          exact hqueue _ _ hnext rfl
        · exact hflush
      · exact hqueue _ _ hslot rfl

def popped (d : Engine maxMsgs) (q : Queued) : Engine maxMsgs :=
  { d with
    ring := d.ring.dropFront
    bytes := d.bytes - q.msg.text.length
    st := { d.st with taken := d.st.taken + 1 } }

theorem ringPop_of_count_ne_zero (h : d.ring.count ≠ 0) :
    d.ringPop = some (d.ring.slots d.ring.head,
      { d with
        ring := d.ring.dropFront
        bytes := d.bytes - (d.ring.slots d.ring.head).msg.text.length }) := by
  simp [ringPop, Ring.popFront, h]

theorem handOut_queue (env : Env) (h : d.ring.count ≠ 0) :
    (d.handOut env).1.queue = (d.popped (d.ring.slots d.ring.head)).queue := by
  simp only [handOut, ringPop_of_count_ne_zero h]
  split
  · rfl
  · split <;> rfl

-- Taking touches the queue only by closing the window and handing out.
theorem take_invariant {P : Engine maxMsgs → Prop}
    (hqueue : ∀ d d' : Engine maxMsgs, P d → d.queue = d'.queue → P d')
    (hpush : ∀ d q, P d → P (pushBuilt false d q))
    (hpop : ∀ d : Engine maxMsgs, P d → d.ring.count ≠ 0 →
      P (d.popped (d.ring.slots d.ring.head)))
    (env : Env) (connected : Bool) (h : P d) : P (d.take env connected).1 := by
  have hclosed : P (d.closeDue env) := by
    unfold closeDue
    split
    · exact flushWindow_invariant hqueue hpush env h
    · exact h
  unfold take
  generalize d.closeDue env = e at hclosed
  unfold send
  split
  · exact hqueue _ _ hclosed rfl
  · rename_i hready
    split
    · exact hclosed
    · have hcount : e.ring.count ≠ 0 := by
        intro hzero
        simp [hzero] at hready
      generalize (e.backlog && decide (1 < e.ring.count)) = draining
      have hdraining : P (e.setDraining draining) := hqueue _ _ hclosed rfl
      have hcount : (e.setDraining draining).ring.count ≠ 0 := hcount
      exact hqueue _ _ (hpop _ hdraining hcount) (handOut_queue env hcount).symm

end Engine

-- The rule for properties of the queue: what pushing and popping keep, every
-- call keeps but a requeue.
theorem step_invariant {maxMsgs : Nat} {P : Engine maxMsgs → Prop}
    (hqueue : ∀ d d' : Engine maxMsgs, P d → d.queue = d'.queue → P d')
    (hpush : ∀ d q, P d → P (Engine.pushBuilt false d q))
    (hpop : ∀ d : Engine maxMsgs, P d → d.ring.count ≠ 0 →
      P (d.popped (d.ring.slots d.ring.head)))
    (K : Kconfig) {d : Engine maxMsgs} (call : Env × Op)
    (hrequeue : ∀ msg, call.2 = .requeue msg → P (d.requeue msg)) (h : P d) :
    P (step K d call) := by
  obtain ⟨env, op⟩ := call
  cases op with
  | publishAt context path value atMs =>
    exact Engine.publishAt_invariant hqueue hpush K env context path value atMs h
  | flush => exact Engine.flushWindow_invariant hqueue hpush env h
  | take connected => exact Engine.take_invariant hqueue hpush hpop env connected h
  | requeue msg => exact hrequeue msg rfl
  | setLabel label => exact hqueue _ _ h rfl
  | setTiming batchMs drainPerS => exact hqueue _ _ h rfl
  | setNoDrop noDrop => exact hqueue _ _ h rfl

end Espos.Sk.Delta
