import Espos.Ble.ControlSocket
import Espos.Lib.Ring
import Espos.Lib.Run
import Mathlib.Algebra.BigOperators.Group.List.Basic
import Mathlib.Data.List.DropRight

-- The two queues of `ble_proto.c` in their arrays. The advertisement ring keeps where the
-- next entry goes, the frame queue where its oldest is.

namespace Espos.Ble

structure AdvQ (α : Type) (cap : Nat) where
  slots : Fin cap → α
  head : Nat
  count : Nat
  dropped : UInt32
  head_lt : 0 < cap → head < cap
  count_le : count ≤ cap

namespace AdvQ

variable {α : Type} {cap : Nat}

def init (storage : Fin cap → α) : AdvQ α cap :=
  ⟨storage, 0, 0, 0, id, Nat.zero_le _⟩

-- Whether the oldest entry was overwritten.
def push (q : AdvQ α cap) (adv : α) : Bool × AdvQ α cap :=
  if hcap : 0 < cap then
    let slots := Function.update q.slots ⟨q.head, q.head_lt hcap⟩ adv
    let head := (q.head + 1) % cap
    have head_lt := fun _ => Nat.mod_lt (q.head + 1) hcap
    if hfull : q.count = cap then
      (true, ⟨slots, head, q.count, q.dropped + 1, head_lt, q.count_le⟩)
    else
      (false, ⟨slots, head, q.count + 1, q.dropped, head_lt, Nat.lt_of_le_of_ne q.count_le hfull⟩)
  else (false, q)

def drain (q : AdvQ α cap) (max : Nat) : List α × AdvQ α cap :=
  let n := min q.count max
  let tail := (q.head + cap - q.count) % cap
  have hcap (i : Fin n) : 0 < cap := by
    have := i.isLt
    have := q.count_le
    omega
  (List.ofFn fun i : Fin n => q.slots ⟨(tail + i) % cap, Nat.mod_lt _ (hcap i)⟩,
    ⟨q.slots, q.head, q.count - n, q.dropped, q.head_lt, (Nat.sub_le _ _).trans q.count_le⟩)

-- The ring it is, seen from its oldest entry.
def ring (q : AdvQ α cap) (hcap : 0 < cap) : Ring α cap :=
  ⟨q.slots, ⟨(q.head + cap - q.count) % cap, Nat.mod_lt _ hcap⟩, q.count, q.count_le⟩

def content (q : AdvQ α cap) (hcap : 0 < cap) : List α := (q.ring hcap).toList

variable (q : AdvQ α cap) (hcap : 0 < cap)

theorem slot_count : (q.ring hcap).slot q.count = ⟨q.head, q.head_lt hcap⟩ := by
  have hhead := q.head_lt hcap
  have hle := q.count_le
  apply Fin.ext
  change ((q.head + cap - q.count) % cap + q.count) % cap = q.head
  rw [Nat.mod_add_mod, Nat.sub_add_cancel (by omega), Nat.add_mod_right]
  exact Nat.mod_eq_of_lt hhead

theorem content_push_of_lt (adv : α) (hroom : q.count < cap) :
    (q.push adv).2.content hcap = q.content hcap ++ [adv] := by
  have htail : (q.push adv).2.ring hcap = (q.ring hcap).pushBack adv := by
    have hne : q.count ≠ cap := by omega
    have hstart : ((q.head + 1) % cap + cap - (q.count + 1)) % cap =
        (q.head + cap - q.count) % cap := by
      have hhead := q.head_lt hcap
      rw [Nat.add_sub_assoc (by omega), Nat.mod_add_mod]
      congr 1
      omega
    have hroom' : (q.ring hcap).count < cap := hroom
    have hend : (q.ring hcap).slot (q.ring hcap).count = ⟨q.head, q.head_lt hcap⟩ :=
      q.slot_count hcap
    rw [Ring.pushBack, dif_pos hroom', hend]
    simp only [push, dif_pos hcap, dif_neg hne, ring]
    congr 1
    exact Fin.ext hstart
  rw [content, htail]
  exact (q.ring hcap).toList_pushBack adv hroom

-- The oldest entry of a full ring is where the next one goes.
theorem content_push_of_full (adv : α) (hfull : q.count = cap) :
    (q.push adv).2.content hcap = (q.content hcap).tail ++ [adv] := by
  have hhead := q.head_lt hcap
  have hring : (q.push adv).2.ring hcap = (q.ring hcap).dropFront.pushBack adv := by
    have hroom : (q.ring hcap).dropFront.count < cap := by
      change q.count - 1 < cap
      omega
    have hstart : ((q.head + 1) % cap + cap - q.count) % cap =
        ((q.head + cap - q.count) % cap + 1) % cap := by
      rw [hfull, Nat.add_sub_cancel, Nat.add_sub_cancel, Nat.mod_mod, Nat.mod_add_mod]
    have hend : (q.ring hcap).dropFront.slot (q.ring hcap).dropFront.count =
        ⟨q.head, q.head_lt hcap⟩ := by
      rw [Ring.slot_dropFront, ← q.slot_count hcap]
      congr 1
      change q.count - 1 + 1 = q.count
      omega
    rw [Ring.pushBack, dif_pos hroom, hend]
    simp only [push, dif_pos hcap, dif_pos hfull, ring, Ring.dropFront, Ring.slot]
    congr 1
    · exact Fin.ext hstart
    · omega
  have hpop := (q.ring hcap).toList_dropFront (by change q.count ≠ 0; omega)
  rw [content, hring, Ring.toList_pushBack, content, hpop, List.tail_cons]
  change q.count - 1 < cap
  omega

theorem length_content : (q.content hcap).length = q.count :=
  Ring.length_toList _

theorem content_drain (max : Nat) :
    (q.drain max).1 = (q.content hcap).take max ∧
      (q.drain max).2.content hcap = (q.content hcap).drop max := by
  have hhead := q.head_lt hcap
  have hle := q.count_le
  have hskip : (q.drain max).2.ring hcap = (q.ring hcap).skip (min q.count max) := by
    simp only [drain, ring, Ring.skip, Ring.slot]
    congr 1
    apply Fin.ext
    change (q.head + cap - (q.count - min q.count max)) % cap =
      ((q.head + cap - q.count) % cap + min q.count max) % cap
    rw [Nat.mod_add_mod]
    congr 1
    omega
  constructor
  · apply List.ext_getElem
    · simp [drain, length_content, Nat.min_comm]
    · intro i hi hi'
      simp [drain, content, ring, Ring.slot]
  · rw [content, hskip, Ring.toList_skip, content]
    by_cases hmax : max ≤ q.count
    · rw [Nat.min_eq_right hmax]
    · have hall : (q.ring hcap).toList.length ≤ max := by
        have := q.length_content hcap
        rw [content] at this
        omega
      rw [Nat.min_eq_left (by omega), List.drop_eq_nil_of_le hall]
      apply List.drop_eq_nil_of_le
      exact (q.length_content hcap).le

end AdvQ

inductive AdvOp (α : Type) where
  | push (adv : α)
  | drain (max : Nat)

inductive AdvReply (α : Type) where
  | pushed (evicted : Bool)
  | drained (advs : List α)
deriving DecidableEq

def AdvQ.act {α : Type} {cap : Nat} (q : AdvQ α cap) : AdvOp α → AdvReply α × AdvQ α cap
  | .push adv => (.pushed (q.push adv).1, (q.push adv).2)
  | .drain max => (.drained (q.drain max).1, (q.drain max).2)

-- What the ring stands for: all that was pushed, and how much of it goes up to the last
-- entry drained.
structure AdvLog (α : Type) where
  pushed : List α := []
  past : Nat := 0

namespace AdvLog

variable {α : Type} {cap : Nat}

-- The longest suffix of at most `cap` entries of what came after that one.
def held (l : AdvLog α) (cap : Nat) : List α :=
  (l.pushed.drop l.past).rtake cap

def drain (l : AdvLog α) (cap max : Nat) : AdvLog α :=
  let held := l.held cap
  let n := (held.take max).length
  if n = 0 then l else { l with past := l.pushed.length - (held.length - n) }

def act (cap : Nat) (l : AdvLog α) : AdvOp α → AdvReply α × AdvLog α
  | .push adv =>
    (.pushed ((l.held cap).length = cap), { l with pushed := l.pushed ++ [adv] })
  | .drain max => (.drained ((l.held cap).take max), l.drain cap max)

theorem held_push (l : AdvLog α) (hpast : l.past ≤ l.pushed.length) (adv : α) (hcap : 0 < cap) :
    held { l with pushed := l.pushed ++ [adv] } cap =
      if (l.held cap).length = cap then (l.held cap).tail ++ [adv] else l.held cap ++ [adv] := by
  obtain ⟨n, rfl⟩ : ∃ n, cap = n + 1 := ⟨cap - 1, by omega⟩
  have hnew : held { l with pushed := l.pushed ++ [adv] } (n + 1) =
      (l.pushed.drop l.past).rtake n ++ [adv] := by
    simp only [held]
    rw [List.drop_append_of_le_length hpast, List.rtake_concat_succ]
  rw [hnew]
  generalize hrest : l.pushed.drop l.past = rest
  simp only [held, hrest, List.rtake, List.length_drop]
  by_cases hfull : rest.length - (rest.length - (n + 1)) = n + 1
  · rw [if_pos hfull, List.tail_drop]
    congr 2
    omega
  · rw [if_neg hfull]
    congr 2
    omega

theorem held_drain (l : AdvLog α) (hpast : l.past ≤ l.pushed.length) (max : Nat) :
    (l.drain cap max).held cap = (l.held cap).drop max := by
  have hlen : (l.held cap).length = min cap (l.pushed.length - l.past) := by
    simp [held, List.rtake]
    omega
  simp only [drain]
  by_cases hnone : ((l.held cap).take max).length = 0
  · rw [if_pos hnone]
    rw [List.length_take] at hnone
    have hdrop : max = 0 ∨ (l.held cap).length = 0 := by omega
    cases hdrop with
    | inl hmax => rw [hmax, List.drop_zero]
    | inr hnil => rw [List.length_eq_zero_iff.mp hnil, List.drop_nil]
  · rw [if_neg hnone]
    rw [List.length_take] at hnone ⊢
    simp only [held, List.rtake, List.drop_drop, List.length_drop] at hlen hnone ⊢
    by_cases hmax : max ≤ l.pushed.length - (l.past + (l.pushed.length - l.past - cap))
    · congr 1
      omega
    · rw [List.drop_eq_nil_of_le (by omega), List.drop_eq_nil_of_le (by omega)]

end AdvLog

-- The entries pushed by a sequence of operations.
def pushes {α : Type} : List (AdvOp α) → List α
  | [] => []
  | .push adv :: ops => adv :: pushes ops
  | .drain _ :: ops => pushes ops

section Adv

open Run

variable {α : Type} {cap : Nat}

structure Stands (hcap : 0 < cap) (q : AdvQ α cap) (l : AdvLog α) : Prop where
  content : q.content hcap = l.held cap
  past : l.past ≤ l.pushed.length

theorem stands_act {hcap : 0 < cap} {q : AdvQ α cap} {l : AdvLog α} (h : Stands hcap q l)
    (op : AdvOp α) :
    (q.act op).1 = (l.act cap op).1 ∧ Stands hcap (q.act op).2 (l.act cap op).2 := by
  have hcount : q.count = (l.held cap).length := by
    rw [← h.content, q.length_content hcap]
  cases op with
  | push adv =>
    have hheld := l.held_push h.past adv hcap
    have hpast : l.past ≤ (l.pushed ++ [adv]).length := by
      have := h.past
      simp
      omega
    by_cases hfull : q.count = cap
    · have hevicted : (q.push adv).1 = true := by simp [AdvQ.push, hcap, hfull]
      rw [if_pos (hcount.symm.trans hfull)] at hheld
      refine ⟨?_, ?_, hpast⟩
      · simp only [AdvQ.act, AdvLog.act, hevicted]
        rw [decide_eq_true (hcount.symm.trans hfull)]
      · have hpush := q.content_push_of_full hcap adv hfull
        rw [h.content] at hpush
        exact hpush.trans hheld.symm
    · have hkept : (q.push adv).1 = false := by simp [AdvQ.push, hcap, hfull]
      have hroom : q.count < cap := Nat.lt_of_le_of_ne q.count_le hfull
      rw [if_neg (by omega)] at hheld
      refine ⟨?_, ?_, hpast⟩
      · simp only [AdvQ.act, AdvLog.act, hkept]
        rw [decide_eq_false (by omega)]
      · have hpush := q.content_push_of_lt hcap adv hroom
        rw [h.content] at hpush
        exact hpush.trans hheld.symm
  | drain max =>
    obtain ⟨hout, hrest⟩ := q.content_drain hcap max
    refine ⟨?_, ?_, ?_⟩
    · simp only [AdvQ.act, AdvLog.act]
      rw [hout, h.content]
    · rw [h.content] at hrest
      exact hrest.trans (l.held_drain h.past max).symm
    · simp only [AdvLog.act, AdvLog.drain]
      by_cases hnone : ((l.held cap).take max).length = 0
      · rw [if_pos hnone]
        exact h.past
      · rw [if_neg hnone]
        exact Nat.sub_le _ _

theorem pushed_answers (l : AdvLog α) (ops : List (AdvOp α)) :
    (answers (AdvLog.act cap) l ops).2.pushed = l.pushed ++ pushes ops := by
  induction ops generalizing l with
  | nil => simp [answers, pushes]
  | cons op ops ih =>
    cases op with
    | push adv => simp [answers, ih, AdvLog.act, pushes]
    | drain max =>
      have hkeeps : (l.drain cap max).pushed = l.pushed := by
        simp only [AdvLog.drain]
        by_cases hnone : ((l.held cap).take max).length = 0
        · rw [if_pos hnone]
        · rw [if_neg hnone]
      simp [answers, ih, AdvLog.act, pushes, hkeeps]

end Adv

-- The frame queue. A slot without a frame is NULL.
structure FrameRing (α : Type) (cap : Nat) where
  slots : Fin cap → Option α
  head : Nat
  count : Nat
  dropped : UInt32
  head_lt : 0 < cap → head < cap
  count_le : count ≤ cap

namespace FrameRing

variable {α : Type} {cap : Nat}

def init (storage : Fin cap → Option α) : FrameRing α cap :=
  ⟨storage, 0, 0, 0, id, Nat.zero_le _⟩

-- The oldest frame's slot becomes NULL.
def removeHead (q : FrameRing α cap) (hcap : 0 < cap) : FrameRing α cap :=
  ⟨Function.update q.slots ⟨q.head, q.head_lt hcap⟩ none, (q.head + 1) % cap, q.count - 1,
    q.dropped, fun _ => Nat.mod_lt _ hcap, (Nat.sub_le _ _).trans q.count_le⟩

def drop (q : FrameRing α cap) : FrameRing α cap :=
  { q with dropped := q.dropped + 1 }

def store (q : FrameRing α cap) (frame : α) (hroom : q.count < cap) : FrameRing α cap :=
  have hcap : 0 < cap := Nat.zero_lt_of_lt hroom
  ⟨Function.update q.slots ⟨(q.head + q.count) % cap, Nat.mod_lt _ hcap⟩ (some frame), q.head,
    q.count + 1, q.dropped, q.head_lt, hroom⟩

-- Whether a frame was dropped.
def push (q : FrameRing α cap) : Option α → Bool × FrameRing α cap
  | none => (false, q)
  | some frame =>
    if hcap : 0 < cap then
      if hfull : q.count = cap then
        (true, ((q.removeHead hcap).drop).store frame (by
          change q.count - 1 < cap
          omega))
      else (false, q.store frame (Nat.lt_of_le_of_ne q.count_le hfull))
    else (true, q.drop)

def pop (q : FrameRing α cap) : Option α × FrameRing α cap :=
  if hcount : q.count = 0 then (none, q)
  else
    have hcap : 0 < cap := Nat.lt_of_lt_of_le (Nat.pos_of_ne_zero hcount) q.count_le
    (q.slots ⟨q.head, q.head_lt hcap⟩, q.removeHead hcap)

-- Whether the frame was taken.
def unshift (q : FrameRing α cap) : Option α → Bool × FrameRing α cap
  | none => (false, q)
  | some frame =>
    if hfull : q.count = cap then (false, q.drop)
    else
      have hroom : q.count < cap := Nat.lt_of_le_of_ne q.count_le hfull
      have hcap : 0 < cap := Nat.zero_lt_of_lt hroom
      let head := (q.head + cap - 1) % cap
      have hhead : head < cap := Nat.mod_lt _ hcap
      (true, ⟨Function.update q.slots ⟨head, hhead⟩ (some frame), head, q.count + 1, q.dropped,
        fun _ => hhead, hroom⟩)

-- The frames that are freed, and what is left.
def popAll (q : FrameRing α cap) : List (Option α) × FrameRing α cap :=
  if q.count = 0 then ([], q)
  else (q.pop.1 :: (popAll q.pop.2).1, (popAll q.pop.2).2)
termination_by q.count
decreasing_by
  all_goals
    rename_i hcount
    simp only [pop, dif_neg hcount, removeHead]
    omega

def clear (q : FrameRing α cap) : List (Option α) × FrameRing α cap :=
  ((popAll q).1, { (popAll q).2 with head := 0, head_lt := id })

def ring (q : FrameRing α cap) (hcap : 0 < cap) : Ring (Option α) cap :=
  ⟨q.slots, ⟨q.head, q.head_lt hcap⟩, q.count, q.count_le⟩

section Ring

variable (q : FrameRing α cap) (hcap : 0 < cap)

theorem ring_removeHead :
    (q.removeHead hcap).ring hcap = ((q.ring hcap).overwrite none).dropFront := rfl

theorem toList_removeHead (hcount : q.count ≠ 0) :
    (q.ring hcap).toList =
      q.slots ⟨q.head, q.head_lt hcap⟩ :: ((q.removeHead hcap).ring hcap).toList := by
  rw [ring_removeHead, Ring.toList_dropFront_overwrite]
  exact Ring.toList_dropFront _ hcount

theorem toList_store (frame : α) (hroom : q.count < cap) :
    ((q.store frame hroom).ring hcap).toList = (q.ring hcap).toList ++ [some frame] := by
  have hring : (q.store frame hroom).ring hcap = (q.ring hcap).pushBack (some frame) := by
    have hroom' : (q.ring hcap).count < cap := hroom
    rw [Ring.pushBack, dif_pos hroom']
    rfl
  rw [hring]
  exact Ring.toList_pushBack _ _ hroom

theorem toList_unshift (frame : α) (hroom : q.count ≠ cap) :
    ((q.unshift (some frame)).2.ring hcap).toList = some frame :: (q.ring hcap).toList := by
  have hlt : q.count < cap := Nat.lt_of_le_of_ne q.count_le hroom
  have hring : (q.unshift (some frame)).2.ring hcap = (q.ring hcap).pushFront (some frame) := by
    have hlt' : (q.ring hcap).count < cap := hlt
    rw [Ring.pushFront, dif_pos hlt']
    simp only [unshift, dif_neg hroom]
    rfl
  rw [hring]
  exact Ring.toList_pushFront _ _ hlt

end Ring

end FrameRing

inductive FrameOp (α : Type) where
  | push (frame : Option α)
  | pop
  | unshift (frame : Option α)
  | clear

inductive FrameReply (α : Type) where
  | pushed (evicted : Bool)
  | popped (frame : Option α)
  | unshifted (taken : Bool)
  | cleared (freed : List (Option α))
deriving DecidableEq

def FrameRing.act {α : Type} {cap : Nat} (q : FrameRing α cap) :
    FrameOp α → FrameReply α × FrameRing α cap
  | .push frame => (.pushed (q.push frame).1, (q.push frame).2)
  | .pop => (.popped q.pop.1, q.pop.2)
  | .unshift frame => (.unshifted (q.unshift frame).1, (q.unshift frame).2)
  | .clear => (.cleared q.clear.1, q.clear.2)

-- The frames an operation gives to the queue, and those its reply gives back or frees.
def FrameOp.pushCount {α : Type} : FrameOp α → Nat
  | .push (some _) => 1
  | _ => 0

def FrameOp.unshiftCount {α : Type} : FrameOp α → Nat
  | .unshift (some _) => 1
  | _ => 0

def FrameReply.popCount {α : Type} : FrameReply α → Nat
  | .popped (some _) => 1
  | _ => 0

def FrameReply.clearCount {α : Type} : FrameReply α → Nat
  | .cleared freed => freed.length
  | _ => 0

-- The same of a deque. NULL is no frame.
def FrameQ.act {α : Type} (q : FrameQ α) : FrameOp α → FrameReply α × FrameQ α
  | .push none => (.pushed false, q)
  | .push (some frame) => (.pushed (q.frames.length = q.cap), q.push frame)
  | .pop => (.popped q.frames.head?, { q with frames := q.frames.tail })
  | .unshift none => (.unshifted false, q)
  | .unshift (some frame) => (.unshifted (q.frames.length ≠ q.cap), q.unshift frame)
  | .clear => (.cleared (q.frames.map some), q.clear)

section Frame

open Run

variable {α : Type} {cap : Nat}

structure Models (hcap : 0 < cap) (q : FrameRing α cap) (d : FrameQ α) : Prop where
  cap : d.cap = cap
  frames : (q.ring hcap).toList = d.frames.map some
  dropped : q.dropped = .ofNat d.dropped

variable {hcap : 0 < cap} {q : FrameRing α cap} {d : FrameQ α}

theorem Models.count (h : Models hcap q d) : q.count = d.frames.length := by
  have hlen := congrArg List.length h.frames
  rw [Ring.length_toList, List.length_map] at hlen
  exact hlen

theorem ofNat_succ (n : Nat) : UInt32.ofNat (n + 1) = .ofNat n + 1 := by
  apply UInt32.toNat.inj
  simp

theorem models_push (h : Models hcap q d) (frame : α) :
    (q.push (some frame)).1 = decide (d.frames.length = d.cap) ∧
      Models hcap (q.push (some frame)).2 (d.push frame) := by
  have hcount := h.count
  have hcap' : d.cap ≠ 0 := by
    have := h.cap
    omega
  by_cases hfull : q.count = cap
  · have hfull' : d.frames.length = d.cap := by
      rw [h.cap]
      omega
    have hpop := q.toList_removeHead hcap (by omega)
    rw [h.frames] at hpop
    refine ⟨?_, ?_⟩
    · simp [FrameRing.push, hcap, hfull, hfull']
    · simp only [FrameRing.push, dif_pos hcap, dif_pos hfull, FrameQ.push, if_neg hcap',
        if_pos hfull']
      refine ⟨h.cap, ?_, ?_⟩
      · rw [FrameRing.toList_store, List.map_append, List.map_tail, hpop]
        rfl
      · show q.dropped + 1 = _
        rw [h.dropped, ofNat_succ]
  · have hroom : d.frames.length ≠ d.cap := by
      rw [h.cap]
      omega
    refine ⟨?_, ?_⟩
    · simp [FrameRing.push, hcap, hfull, hroom]
    · simp only [FrameRing.push, dif_pos hcap, dif_neg hfull, FrameQ.push, if_neg hcap',
        if_neg hroom]
      refine ⟨h.cap, ?_, h.dropped⟩
      rw [FrameRing.toList_store, List.map_append, h.frames]
      rfl

theorem models_pop (h : Models hcap q d) :
    q.pop.1 = d.frames.head? ∧ Models hcap q.pop.2 { d with frames := d.frames.tail } := by
  have hcount := h.count
  cases hframes : d.frames with
  | nil =>
    rw [hframes] at hcount
    have hempty : q.count = 0 := hcount
    simp only [FrameRing.pop, dif_pos hempty]
    refine ⟨rfl, h.cap, ?_, h.dropped⟩
    rw [h.frames, hframes]
    rfl
  | cons frame frames =>
    rw [hframes] at hcount
    have hsome : q.count ≠ 0 := by
      rw [hcount]
      exact Nat.succ_ne_zero _
    have hpop := q.toList_removeHead hcap hsome
    rw [h.frames, hframes, List.map_cons] at hpop
    obtain ⟨hhead, hrest⟩ := List.cons.inj hpop
    simp only [FrameRing.pop, dif_neg hsome]
    exact ⟨hhead.symm, h.cap, hrest.symm, h.dropped⟩

theorem models_unshift (h : Models hcap q d) (frame : α) :
    (q.unshift (some frame)).1 = decide (d.frames.length ≠ d.cap) ∧
      Models hcap (q.unshift (some frame)).2 (d.unshift frame) := by
  have hcount := h.count
  by_cases hfull : q.count = cap
  · have hfull' : d.frames.length = d.cap := by
      rw [h.cap]
      omega
    refine ⟨?_, ?_⟩
    · simp [FrameRing.unshift, hfull, hfull']
    · simp only [FrameRing.unshift, dif_pos hfull, FrameQ.unshift, if_pos hfull']
      refine ⟨h.cap, h.frames, ?_⟩
      show q.dropped + 1 = _
      rw [h.dropped, ofNat_succ]
  · have hroom : d.frames.length ≠ d.cap := by
      rw [h.cap]
      omega
    have hlist := q.toList_unshift hcap frame hfull
    refine ⟨?_, ?_⟩
    · simp [FrameRing.unshift, hfull, hroom]
    · simp only [FrameQ.unshift, if_neg hroom]
      refine ⟨h.cap, ?_, ?_⟩
      · rw [hlist, h.frames]
        rfl
      · rw [← h.dropped]
        simp only [FrameRing.unshift, dif_neg hfull]

theorem models_popAll (h : Models hcap q d) :
    q.popAll.1 = d.frames.map some ∧ Models hcap q.popAll.2 d.clear := by
  induction hframes : d.frames generalizing q d with
  | nil =>
    have hcount := h.count
    rw [hframes] at hcount
    have hempty : q.count = 0 := hcount
    rw [FrameRing.popAll, if_pos hempty]
    refine ⟨rfl, h.cap, ?_, h.dropped⟩
    rw [h.frames, hframes]
    rfl
  | cons frame frames ih =>
    have hcount := h.count
    rw [hframes] at hcount
    have hsome : q.count ≠ 0 := by
      rw [hcount]
      exact Nat.succ_ne_zero _
    obtain ⟨hhead, hnext⟩ := models_pop h
    rw [hframes] at hhead
    obtain ⟨hfreed, hlast⟩ := ih hnext (by rw [hframes]; rfl)
    rw [FrameRing.popAll, if_neg hsome, hhead, hfreed]
    exact ⟨rfl, hlast⟩

theorem models_clear (h : Models hcap q d) :
    q.clear.1 = d.frames.map some ∧ Models hcap q.clear.2 d.clear := by
  obtain ⟨hfreed, hlast⟩ := models_popAll h
  refine ⟨hfreed, hlast.cap, ?_, hlast.dropped⟩
  have hempty : q.clear.2.count = 0 := hlast.count
  exact (Ring.toList_eq_nil_iff _).mpr hempty

theorem models_act (h : Models hcap q d) (op : FrameOp α) :
    (q.act op).1 = (d.act op).1 ∧ Models hcap (q.act op).2 (d.act op).2 := by
  cases op with
  | push frame =>
    cases frame with
    | none => exact ⟨rfl, h⟩
    | some frame =>
      obtain ⟨hreply, hnext⟩ := models_push h frame
      exact ⟨congrArg _ hreply, hnext⟩
  | pop =>
    obtain ⟨hreply, hnext⟩ := models_pop h
    exact ⟨congrArg _ hreply, hnext⟩
  | unshift frame =>
    cases frame with
    | none => exact ⟨rfl, h⟩
    | some frame =>
      obtain ⟨hreply, hnext⟩ := models_unshift h frame
      exact ⟨congrArg _ hreply, hnext⟩
  | clear =>
    obtain ⟨hreply, hnext⟩ := models_clear h
    exact ⟨congrArg _ hreply, hnext⟩

theorem act_balance (d : FrameQ α) (op : FrameOp α) :
    (d.act op).2.frames.length + (d.act op).2.dropped + ((d.act op).1.popCount +
      (d.act op).1.clearCount) = d.frames.length + d.dropped + (op.pushCount + op.unshiftCount) := by
  cases op with
  | push frame =>
    cases frame with
    | none => rfl
    | some frame =>
      obtain hpush | ⟨oldest, rest, hframes, hpush⟩ | hpush := d.push_cases frame
      · simp only [FrameQ.act, hpush]
        rfl
      · simp only [FrameQ.act, hpush, hframes]
        simp [FrameReply.popCount, FrameReply.clearCount, FrameOp.pushCount, FrameOp.unshiftCount]
        omega
      · simp only [FrameQ.act, hpush]
        simp [FrameReply.popCount, FrameReply.clearCount, FrameOp.pushCount, FrameOp.unshiftCount]
        omega
  | pop =>
    cases hframes : d.frames with
    | nil => simp [FrameQ.act, hframes, FrameReply.popCount, FrameReply.clearCount, FrameOp.pushCount,
        FrameOp.unshiftCount]
    | cons frame frames =>
      simp [FrameQ.act, hframes, FrameReply.popCount, FrameReply.clearCount, FrameOp.pushCount,
        FrameOp.unshiftCount]
      omega
  | unshift frame =>
    cases frame with
    | none => rfl
    | some frame =>
      obtain hunshift | hunshift := d.unshift_cases frame
      · simp only [FrameQ.act, hunshift]
        rfl
      · simp only [FrameQ.act, hunshift]
        simp [FrameReply.popCount, FrameReply.clearCount, FrameOp.pushCount, FrameOp.unshiftCount]
        omega
  | clear =>
    simp [FrameQ.act, FrameQ.clear, FrameReply.popCount, FrameReply.clearCount, FrameOp.pushCount,
      FrameOp.unshiftCount]
    omega

theorem frames_balance (d : FrameQ α) (ops : List (FrameOp α)) :
    (answers FrameQ.act d ops).2.frames.length + (answers FrameQ.act d ops).2.dropped +
        ((answers FrameQ.act d ops).1.map fun r => r.popCount + r.clearCount).sum =
      d.frames.length + d.dropped + (ops.map fun op => op.pushCount + op.unshiftCount).sum :=
  @answers_balance _ _ _ FrameQ.act (fun op => op.pushCount + op.unshiftCount)
    (fun r => r.popCount + r.clearCount) (fun d => d.frames.length + d.dropped) act_balance d ops

theorem stands_init (hcap : 0 < cap) (advs : Fin cap → α) :
    Stands hcap (AdvQ.init advs) {} where
  content := by simp [AdvQ.content, AdvQ.init, AdvQ.ring, Ring.toList, AdvLog.held]
  past := Nat.le_refl _

theorem models_init (hcap : 0 < cap) (frames : Fin cap → Option α) :
    Models hcap (FrameRing.init frames) { cap } where
  cap := rfl
  frames := by simp [FrameRing.init, FrameRing.ring, Ring.toList]
  dropped := rfl

end Frame

open Run

theorem queues_refine_lists {α : Type} {cap : Nat} (hcap : 0 < cap) :
    (∀ (advs : Fin cap → α) (ops : List (AdvOp α)),
      let run := answers AdvQ.act (.init advs) ops
      let spec := answers (AdvLog.act cap) {} ops
      run.1 = spec.1 ∧ spec.2.pushed = pushes ops ∧ run.2.content hcap = spec.2.held cap) ∧
    ∀ (frames : Fin cap → Option α) (ops : List (FrameOp α)),
      let run := answers FrameRing.act (.init frames) ops
      let spec := answers FrameQ.act { cap } ops
      run.1 = spec.1 ∧ (run.2.ring hcap).toList = spec.2.frames.map some ∧
        run.2.dropped = .ofNat spec.2.dropped ∧
        (ops.map FrameOp.pushCount).sum + (ops.map FrameOp.unshiftCount).sum =
          (run.1.map FrameReply.popCount).sum + spec.2.dropped +
            (run.1.map FrameReply.clearCount).sum + run.2.count := by
  refine ⟨?_, ?_⟩
  · intro advs ops
    obtain ⟨hreplies, hstands⟩ :=
      answers_simulation (fun _ _ op h => stands_act h op) (stands_init hcap advs) ops
    exact ⟨hreplies, pushed_answers _ ops, hstands.content⟩
  · intro frames ops
    obtain ⟨hreplies, hmodels⟩ :=
      answers_simulation (fun _ _ op h => models_act h op) (models_init hcap frames) ops
    have hbalance := frames_balance { cap } ops
    have hcount := hmodels.count
    refine ⟨hreplies, hmodels.frames, hmodels.dropped, ?_⟩
    rw [hreplies, hcount]
    rw [List.sum_map_add, List.sum_map_add] at hbalance
    dsimp only [List.length_nil] at hbalance
    omega

theorem queues_refine_lists_two :
    (let ops := [.push 1, .push 2, .push 3, .drain 1, .push 4]
      let run := answers AdvQ.act (.init fun _ : Fin 2 => 0) ops
      let spec := answers (AdvLog.act 2) {} ops
      run.1 = spec.1 ∧ spec.2.pushed = pushes ops ∧ run.2.content Nat.two_pos = spec.2.held 2) ∧
    let ops := [.push (some 1), .push none, .push (some 2), .push (some 3), .pop,
      .unshift (some 2), .clear, .push (some 4)]
    let run := answers FrameRing.act (.init fun _ : Fin 2 => none) ops
    let spec := answers FrameQ.act { cap := 2 } ops
    run.1 = spec.1 ∧ (run.2.ring Nat.two_pos).toList = spec.2.frames.map some ∧
      run.2.dropped = .ofNat spec.2.dropped ∧
      (ops.map FrameOp.pushCount).sum + (ops.map FrameOp.unshiftCount).sum =
        (run.1.map FrameReply.popCount).sum + spec.2.dropped +
          (run.1.map FrameReply.clearCount).sum + run.2.count :=
  ⟨(queues_refine_lists Nat.two_pos).1 (fun _ => 0) _,
    (queues_refine_lists Nat.two_pos).2 (fun _ => none) _⟩

-- An entry that was overwritten is none of those drained either.
theorem overwritten_not_drained :
    let ops := [.push 1, .push 2, .push 3, .drain 1]
    let run := answers AdvQ.act (.init fun _ : Fin 2 => 0) ops
    run.1.getLast? = some (.drained [2]) ∧ run.2.content Nat.two_pos = [3] ∧
      ((pushes ops).filter (· ≠ 2)).rtake 2 = [1, 3] := by
  decide

end Espos.Ble
