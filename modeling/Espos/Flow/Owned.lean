import Espos.Flow.Handles
import Espos.Flow.Timers

-- The one timer of a node, in a table that it shares with everybody else. Inside a
-- sweep the loop task holds the mutex of the table, so no callback changes it there.

namespace Espos.Flow

open Espos.Run

section Idle

variable {ι τ : Type*} {nowMs : UInt32}

-- What a sweep makes of a slot that no callback touches.
def turn (nowMs : UInt32) : Option (Timer ι) → Option (Timer ι)
  | none => none
  | some t =>
    if schedReached nowMs t.dueMs then Sched.unwind (some (Sched.mark nowMs t)) else some t

def marks (nowMs : UInt32) (order : List (Nat × Timer ι)) (slots : List (Option (Timer ι))) :
    List (Option (Timer ι)) :=
  order.foldl (fun l p => l.set p.1 (some (Sched.mark nowMs p.2))) slots

theorem length_marks (order : List (Nat × Timer ι)) (slots : List (Option (Timer ι))) :
    (marks nowMs order slots).length = slots.length := by
  induction order generalizing slots with
  | nil => rfl
  | cons p order ih => exact (ih _).trans List.length_set

theorem marks_of_notMem {order : List (Nat × Timer ι)} {i : Nat} (h : i ∉ order.map Prod.fst)
    (slots : List (Option (Timer ι))) : (marks nowMs order slots)[i]? = slots[i]? := by
  induction order generalizing slots with
  | nil => rfl
  | cons p order ih =>
    rw [List.map_cons, List.mem_cons, not_or] at h
    exact (ih h.2 _).trans (List.getElem?_set_ne (Ne.symm h.1))

theorem marks_of_mem {order : List (Nat × Timer ι)} (hnodup : (order.map Prod.fst).Nodup) {i : Nat}
    {t : Timer ι} (h : (i, t) ∈ order) {slots : List (Option (Timer ι))} (hi : i < slots.length) :
    (marks nowMs order slots)[i]? = some (some (Sched.mark nowMs t)) := by
  induction order generalizing slots with
  | nil => cases h
  | cons p order ih =>
    obtain ⟨hnot, hnodup⟩ := List.nodup_cons.mp hnodup
    rcases List.mem_cons.mp h with rfl | h
    · exact (marks_of_notMem hnot _).trans (List.getElem?_set_self hi)
    · exact ih hnodup h (by rw [List.length_set]; exact hi)

-- The callbacks of a sweep act on something else only.
def idle (act : ι → τ → τ) (c : ι) (s : Sched ι) (x : τ) : Option (Sched ι × τ) :=
  some (s, act c x)

theorem sweep_idle (act : ι → τ → τ) {order : List (Nat × Timer ι)} (fuel fired : Nat)
    {s : Sched ι} {x : τ} (h : Agenda nowMs s order) (hfuel : order.length ≤ fuel) :
    s.sweep (idle act) nowMs fuel fired x = some (fired + order.length,
      { s with slots := marks nowMs order s.slots },
      order.foldl (fun x p => act p.2.cb x) x) := by
  induction order generalizing fuel fired s x with
  | nil =>
    cases fuel with
    | zero => rfl
    | succ fuel =>
      rw [Sched.sweep, pick_of_agenda_nil h]
      rfl
  | cons p order ih =>
    obtain ⟨i, t⟩ := p
    cases fuel with
    | zero => simp at hfuel
    | succ fuel =>
      rw [Sched.sweep, pick_of_agenda_cons h]
      dsimp only [idle]
      rw [ih fuel (fired + 1) h.tail (Nat.le_of_succ_le_succ hfuel), List.length_cons]
      congr 2
      omega

-- Outside a sweep no timer is spent or marked.
structure Still (s : Sched ι) : Prop where
  firing : s.firing = false
  quiet : ∀ (i : Nat) (t : Timer ι), s.slots[i]? = some (some t) →
    t.cancelled = false ∧ t.swept = false ∧ t.fresh = false

theorem Still.due_iff {s : Sched ι} (h : Still s) {i : Nat} {t : Timer ι}
    (hi : s.slots[i]? = some (some t)) :
    (i, t) ∈ s.started.agenda nowMs ↔ schedReached nowMs t.dueMs = true := by
  obtain ⟨hlive, hswept, hfresh⟩ := h.quiet i t hi
  rw [(agenda_spec s.started nowMs).mem]
  change s.slots[i]? = some (some t) ∧ _ ↔ _
  rw [and_iff_right hi]
  simp [Sched.eligible, hlive, hswept, hfresh]

theorem Still.marks_eq {s : Sched ι} (h : Still s) :
    (marks nowMs (s.started.agenda nowMs) s.slots).map Sched.unwind = s.slots.map (turn nowMs) := by
  have hagenda := agenda_spec s.started nowMs
  apply List.ext_getElem?
  intro i
  rw [List.getElem?_map, List.getElem?_map]
  cases hi : s.slots[i]? with
  | none =>
    have hnone : (marks nowMs (s.started.agenda nowMs) s.slots)[i]? = none := by
      rw [List.getElem?_eq_none_iff, length_marks]
      exact List.getElem?_eq_none_iff.mp hi
    rw [hnone]
    rfl
  | some a =>
    have hlt := (List.getElem?_eq_some_iff.mp hi).1
    by_cases hmem : i ∈ (s.started.agenda nowMs).map Prod.fst
    · obtain ⟨⟨j, t⟩, ht, rfl⟩ := List.mem_map.mp hmem
      obtain ⟨hslot, -⟩ := (hagenda.mem (j, t)).mp ht
      obtain rfl : a = some t := Option.some.inj (hi.symm.trans hslot)
      rw [marks_of_mem hagenda.nodup_index ht hlt, Option.map_some, Option.map_some, turn,
        if_pos ((h.due_iff hi).mp ht)]
    · rw [marks_of_notMem hmem, hi, Option.map_some, Option.map_some]
      cases a with
      | none => rfl
      | some t =>
        obtain ⟨hlive, hswept, hfresh⟩ := h.quiet i t hi
        have hdue : ¬ schedReached nowMs t.dueMs = true := fun hdue =>
          hmem (List.mem_map.mpr ⟨(i, t), (h.due_iff hi).mpr hdue, rfl⟩)
        rw [turn, if_neg hdue, Sched.unwind, if_neg (by simp [hlive])]
        obtain ⟨cb, dueMs, periodMs, gen, cancelled, swept, fresh⟩ := t
        dsimp only at hlive hswept hfresh
        rw [hswept, hfresh]

-- A whole sweep whose callbacks leave the table alone.
theorem Still.fire_idle {s : Sched ι} (h : Still s) (act : ι → τ → τ) (nowMs : UInt32) (x : τ) :
    s.fire (idle act) nowMs x = some ((s.started.agenda nowMs).length,
      { s with slots := s.slots.map (turn nowMs) },
      (s.started.agenda nowMs).foldl (fun x p => act p.2.cb x) x) := by
  have hagenda := agenda_spec s.started nowMs
  have hsweep := sweep_idle act s.slots.length 0 (x := x) hagenda hagenda.length_le
  rw [Sched.started] at hsweep
  rw [Sched.fire, h.firing, if_neg Bool.false_ne_true, hsweep, Nat.zero_add]
  have hslots : _ = s.slots.map (turn nowMs) := h.marks_eq
  rw [Sched.started] at hslots
  simp only [Sched.started, hslots]

end Idle

-- Whose timer it is.
inductive Owner where
  | node
  | other
deriving DecidableEq

-- The one timer of a node: the old one is cancelled and a new one armed.
def rearm (timer nowMs delayMs : UInt32) (s : Sched Owner) : UInt32 × Sched Owner :=
  let s := if timer = schedHandleNone then s else (s.cancel timer).2
  let (_, h, s) := s.add nowMs delayMs 0 (some .node)
  (h.getD schedHandleNone, s)

section Own

variable {s s' : Sched Owner} {timer nowMs delayMs periodMs : UInt32} {cap : Nat}

-- The node has a live timer that is due at `dueMs`.
def ArmedAt (s : Sched Owner) (dueMs : UInt32) : Prop :=
  ∃ (i : Nat) (t : Timer Owner), s.slots[i]? = some (some t) ∧ t.cb = .node ∧
    t.cancelled = false ∧ t.dueMs = dueMs

def Armed (s : Sched Owner) : Prop :=
  ∃ (i : Nat) (t : Timer Owner), s.slots[i]? = some (some t) ∧ t.cb = .node

-- The handle the node keeps is that of its one timer, or none.
structure Owns (cap : Nat) (s : Sched Owner) (timer : UInt32) : Prop where
  still : Still s
  length : s.slots.length = cap
  own : ∀ {i : Nat} {t : Timer Owner}, s.slots[i]? = some (some t) → t.cb = .node →
    timer = handleMake i t.gen ∧ t.gen ≠ 0 ∧ t.periodMs = 0
  armed : timer ≠ schedHandleNone → Armed s

theorem owns_init (cap : Nat) : Owns cap (.init cap) schedHandleNone := by
  have hempty : ∀ {i : Nat} {t : Timer Owner},
      (Sched.init cap : Sched Owner).slots[i]? ≠ some (some t) := by
    intro i t hi
    rw [Sched.init, List.getElem?_replicate] at hi
    obtain ⟨-, hi⟩ := Option.ite_none_right_eq_some.mp hi
    cases hi
  exact ⟨⟨rfl, fun i t hi => absurd hi hempty⟩, List.length_replicate,
    fun hi => absurd hi hempty, fun hnone => absurd rfl hnone⟩

theorem Owns.armed_iff (hcap : cap ≤ 65535) (h : Owns cap s timer) :
    timer ≠ schedHandleNone ↔ Armed s := by
  constructor
  · exact h.armed
  · rintro ⟨i, t, hi, hcb⟩
    obtain ⟨rfl, hgen, -⟩ := h.own hi hcb
    have hlt := (List.getElem?_eq_some_iff.mp hi).1
    rw [h.length] at hlt
    exact handleMake_ne_none (by omega) hgen

theorem Owns.unique (hcap : cap ≤ 65535) (h : Owns cap s timer) {i j : Nat} {t u : Timer Owner}
    (hi : s.slots[i]? = some (some t)) (ht : t.cb = .node) (hj : s.slots[j]? = some (some u))
    (hu : u.cb = .node) : i = j ∧ t = u := by
  have hlt := (List.getElem?_eq_some_iff.mp hi).1
  have hlt' := (List.getElem?_eq_some_iff.mp hj).1
  rw [h.length] at hlt hlt'
  have hsame := (h.own hi ht).1.symm.trans (h.own hj hu).1
  have hidx := congrArg handleIdx hsame
  rw [handleIdx_make (by omega), handleIdx_make (by omega)] at hidx
  subst hidx
  rw [hi] at hj
  exact ⟨rfl, Option.some.inj (Option.some.inj hj)⟩

-- Both tables hold the same timers of the node.
def SameNode (s s' : Sched Owner) : Prop :=
  ∀ (i : Nat) (t : Timer Owner), t.cb = .node →
    (s'.slots[i]? = some (some t) ↔ s.slots[i]? = some (some t))

theorem Owns.same (h : Owns cap s timer) (hsame : SameNode s s') (hstill : Still s')
    (hlength : s'.slots.length = s.slots.length) : Owns cap s' timer where
  still := hstill
  length := hlength.trans h.length
  own := fun hi hcb => h.own ((hsame _ _ hcb).mp hi) hcb
  armed := by
    intro hsome
    obtain ⟨i, t, hi, hcb⟩ := h.armed hsome
    exact ⟨i, t, (hsame i t hcb).mpr hi, hcb⟩

theorem same_set {i : Nat} {a b : Option (Timer Owner)} (ha : s.slots[i]? = some a)
    (hother : ∀ t, a = some t → t.cb = .other) (hother' : ∀ t, b = some t → t.cb = .other)
    (seq : UInt32) : SameNode s { s with slots := s.slots.set i b, seq := seq } := by
  intro j t hcb
  by_cases hij : i = j
  · subst hij
    change (s.slots.set i b)[i]? = _ ↔ _
    rw [List.getElem?_set_self (List.getElem?_eq_some_iff.mp ha).1, ha]
    refine iff_of_false (fun hb => ?_) fun ha => ?_
    · rw [hother' t (Option.some.inj hb)] at hcb
      cases hcb
    · rw [hother t (Option.some.inj ha)] at hcb
      cases hcb
  · change (s.slots.set i b)[j]? = _ ↔ _
    rw [List.getElem?_set_ne hij]

theorem still_set (h : Still s) {i : Nat} {b : Option (Timer Owner)} (seq : UInt32)
    (hb : ∀ t, b = some t → t.cancelled = false ∧ t.swept = false ∧ t.fresh = false) :
    Still { s with slots := s.slots.set i b, seq := seq } where
  firing := h.firing
  quiet := by
    intro j t hj
    change (s.slots.set i b)[j]? = _ at hj
    by_cases hij : i = j
    · subst hij
      have hlt : i < s.slots.length := by simpa using (List.getElem?_eq_some_iff.mp hj).1
      rw [List.getElem?_set_self hlt] at hj
      exact hb t (Option.some.inj hj)
    · rw [List.getElem?_set_ne hij] at hj
      exact h.quiet j t hj

theorem add_refused (hrange : ¬ (delayMs ≤ schedMaxDelayMs ∧ periodMs ≤ schedMaxDelayMs))
    (cb : Owner) : s.add nowMs delayMs periodMs (some cb) = (.invalidArg, none, s) := by
  rw [not_and_or, UInt32.not_le, UInt32.not_le] at hrange
  rw [Sched.add, if_pos hrange]

theorem add_in_range (s : Sched Owner) (nowMs : UInt32) (hdelay : delayMs ≤ schedMaxDelayMs)
    (hperiod : periodMs ≤ schedMaxDelayMs) (cb : Owner) :
    (s.used = s.slots.length ∧
      s.add nowMs delayMs periodMs (some cb) = (.noMem, some schedHandleNone, s)) ∨
    s.used < s.slots.length ∧ ∃ i, s.slots[i]? = some none ∧
      s.add nowMs delayMs periodMs (some cb) = (.ok, some (handleMake i (Sched.nextGen s.seq).1),
        { s with
          slots := s.slots.set i (some ⟨cb, nowMs + delayMs, periodMs, (Sched.nextGen s.seq).1,
            false, false, s.firing⟩)
          seq := (Sched.nextGen s.seq).2 }) := by
  have hok := add_ok_iff s nowMs hdelay hperiod cb
  have hle : s.used ≤ s.slots.length := List.countP_le_length
  have hrange : ¬ (schedMaxDelayMs < delayMs ∨ schedMaxDelayMs < periodMs) := by
    rw [not_or, UInt32.not_lt, UInt32.not_lt]
    exact ⟨hdelay, hperiod⟩
  rw [Sched.add, if_neg hrange] at hok ⊢
  cases hfree : s.slots.findIdx? Option.isNone with
  | none =>
    rw [hfree] at hok
    have hfull := mt hok.mpr (fun h => by cases h)
    exact .inl ⟨by omega, rfl⟩
  | some i =>
    rw [hfree] at hok
    exact .inr ⟨hok.mp rfl, i, findIdx_isNone hfree, rfl⟩

theorem nextGen_ne_zero (seq : UInt32) : (Sched.nextGen seq).1 ≠ 0 := by
  obtain ⟨n, hn⟩ : ∃ n, Drawn seq n := by
    by_cases hzero : seq.toNat % 65536 = 0
    · exact ⟨0, .inr ⟨rfl, hzero⟩⟩
    · exact ⟨seq.toNat % 65536 - 1, .inl (by omega)⟩
  rw [(nextGen_drawn hn).1]
  exact genOf_ne_zero n

theorem Owns.add_other (h : Owns cap s timer) (nowMs delayMs periodMs : UInt32) :
    Owns cap (s.add nowMs delayMs periodMs (some .other)).2.2 timer ∧
      SameNode s (s.add nowMs delayMs periodMs (some .other)).2.2 := by
  have hkeep : Owns cap s timer ∧ SameNode s s := ⟨h, fun _ _ _ => Iff.rfl⟩
  by_cases hrange : delayMs ≤ schedMaxDelayMs ∧ periodMs ≤ schedMaxDelayMs
  · rcases add_in_range s nowMs hrange.1 hrange.2 .other with ⟨-, hadd⟩ | ⟨-, i, hfree, hadd⟩
    · rw [hadd]
      exact hkeep
    · rw [hadd]
      have hsame := same_set hfree (b := some ⟨.other, nowMs + delayMs, periodMs,
        (Sched.nextGen s.seq).1, false, false, s.firing⟩) (fun t ht => by cases ht)
        (fun t ht => by rw [← Option.some.inj ht]) (Sched.nextGen s.seq).2
      refine ⟨h.same hsame (still_set h.still _ fun t ht => ?_) List.length_set, hsame⟩
      rw [← Option.some.inj ht]
      exact ⟨rfl, rfl, h.still.firing⟩
  · rw [add_refused hrange]
    exact hkeep

theorem cancel_eq (h : Still s) {handle : UInt32} {i : Nat} {t : Timer Owner}
    (hres : s.resolve handle = some (i, t)) :
    s.cancel handle = (.ok, { s with slots := s.slots.set i none, seq := s.seq }) := by
  rw [Sched.cancel, hres]
  dsimp only
  rw [if_neg (by rw [h.firing]; exact Bool.false_ne_true)]

theorem Owns.cancel_other (h : Owns cap s timer) {handle : UInt32} {i : Nat} {t : Timer Owner}
    (hres : s.resolve handle = some (i, t)) (ht : t.cb = .other) :
    Owns cap (s.cancel handle).2 timer ∧ SameNode s (s.cancel handle).2 := by
  obtain ⟨-, -, hslot, -⟩ := resolve_eq_some hres
  rw [cancel_eq h.still hres]
  have hsame := same_set hslot (b := none) (fun u hu => by rw [← Option.some.inj hu, ht])
    (fun u hu => by cases hu) s.seq
  have hstill := still_set h.still (i := i) (b := none) s.seq fun u hu => by cases hu
  exact ⟨h.same hsame hstill List.length_set, hsame⟩

theorem used_free {slots : List (Option (Timer Owner))} {i : Nat} {t : Timer Owner}
    (hslot : slots[i]? = some (some t)) :
    (slots.set i none).countP Option.isSome + 1 = slots.countP Option.isSome := by
  obtain ⟨hlt, hget⟩ := List.getElem?_eq_some_iff.mp hslot
  have hpos : 0 < slots.countP Option.isSome :=
    List.countP_pos_iff.mpr ⟨some t, List.mem_of_getElem? hslot, rfl⟩
  rw [List.countP_set hlt, hget]
  exact Nat.sub_add_cancel hpos

theorem Owns.cancel_own (hcap : cap ≤ 65535) (h : Owns cap s timer)
    (hsome : timer ≠ schedHandleNone) :
    Owns cap (s.cancel timer).2 schedHandleNone ∧ (s.cancel timer).2.used + 1 = s.used := by
  obtain ⟨i, t, hi, hcb⟩ := h.armed hsome
  obtain ⟨hhandle, hgen, -⟩ := h.own hi hcb
  have hlt := (List.getElem?_eq_some_iff.mp hi).1
  rw [h.length] at hlt
  have hlow : i < 65536 := by omega
  have hres : s.resolve timer = some (i, t) := by
    rw [Sched.resolve, if_neg hsome, hhandle, handleIdx_make hlow, handleGen_make hlow, hi]
    exact if_neg (by simp [(h.still.quiet i t hi).1])
  rw [cancel_eq h.still hres]
  have hnode : ∀ {j : Nat} {u : Timer Owner}, (s.slots.set i none)[j]? = some (some u) →
      u.cb ≠ .node := by
    intro j u hj hu
    by_cases hij : i = j
    · subst hij
      rw [List.getElem?_set_self (List.getElem?_eq_some_iff.mp hi).1] at hj
      cases hj
    · rw [List.getElem?_set_ne hij] at hj
      exact hij (h.unique hcap hi hcb hj hu).1
  have hstill := still_set h.still (i := i) (b := none) s.seq fun u hu => by cases hu
  exact ⟨⟨hstill, List.length_set.trans h.length, fun hj hu => absurd hu (hnode hj),
    fun hnone => absurd rfl hnone⟩, used_free hi⟩

-- A node without a timer has none in the table.
theorem Owns.none_armed (hcap : cap ≤ 65535) (h : Owns cap s schedHandleNone) : ¬ Armed s :=
  fun harmed => (h.armed_iff hcap).mpr harmed rfl

theorem ArmedAt.armed {dueMs : UInt32} (h : ArmedAt s dueMs) : Armed s := by
  obtain ⟨i, t, hi, hcb, -⟩ := h
  exact ⟨i, t, hi, hcb⟩

-- What arming comes to: the node owns what it gets, and gets a timer where the
-- delay is in range and there is room.
structure Arms (cap : Nat) (room : Prop) (dueMs : UInt32) (r : UInt32 × Sched Owner) : Prop where
  owns : Owns cap r.2 r.1
  armed : Armed r.2 ↔ room
  due : Armed r.2 → ArmedAt r.2 dueMs

theorem Owns.add_own (hcap : cap ≤ 65535) (h : Owns cap s schedHandleNone)
    (nowMs delayMs : UInt32) : Arms cap (delayMs ≤ schedMaxDelayMs ∧ s.used < cap)
      (nowMs + delayMs) (rearm schedHandleNone nowMs delayMs s) := by
  have hnone := h.none_armed hcap
  have hkeep : ∀ {room : Prop}, ¬ room → Arms cap room (nowMs + delayMs) (schedHandleNone, s) :=
    fun hroom => ⟨h, iff_of_false hnone hroom, fun harmed => absurd harmed hnone⟩
  rw [rearm, if_pos rfl]
  dsimp only
  by_cases hrange : delayMs ≤ schedMaxDelayMs
  · rcases add_in_range s nowMs hrange (show (0 : UInt32) ≤ schedMaxDelayMs by decide) .node with
      ⟨hfull, hadd⟩ | ⟨hroom, i, hfree, hadd⟩
    · rw [hadd]
      refine hkeep fun hroom => ?_
      rw [hfull, h.length] at hroom
      exact lt_irrefl cap hroom.2
    · rw [hadd]
      rw [h.length] at hroom
      obtain ⟨hlt, -⟩ := List.getElem?_eq_some_iff.mp hfree
      have hnew : ∀ t, (s.slots.set i (some t))[i]? = some (some t) := fun t =>
        List.getElem?_set_self hlt
      have harmed : ArmedAt (({ s with
          slots := s.slots.set i (some ⟨.node, nowMs + delayMs, 0, (Sched.nextGen s.seq).1,
            false, false, s.firing⟩)
          seq := (Sched.nextGen s.seq).2 }) : Sched Owner) (nowMs + delayMs) :=
        ⟨i, _, hnew _, rfl, rfl, rfl⟩
      refine ⟨⟨still_set h.still _ fun t ht => ?_, List.length_set.trans h.length, ?_, ?_⟩,
        iff_of_true (ArmedAt.armed harmed) ⟨hrange, hroom⟩, fun _ => harmed⟩
      · rw [← Option.some.inj ht]
        exact ⟨rfl, rfl, h.still.firing⟩
      · intro j t hj hcb
        by_cases hij : i = j
        · subst hij
          rw [hnew] at hj
          rw [← Option.some.inj (Option.some.inj hj)]
          exact ⟨rfl, nextGen_ne_zero s.seq, rfl⟩
        · rw [List.getElem?_set_ne hij] at hj
          exact absurd ⟨j, t, hj, hcb⟩ hnone
      · intro _
        exact ArmedAt.armed harmed
  · rw [add_refused (by simp [hrange])]
    exact hkeep fun hroom => hrange hroom.1

theorem Owns.rearm (hcap : cap ≤ 65535) (h : Owns cap s timer) (nowMs delayMs : UInt32) :
    Arms cap (delayMs ≤ schedMaxDelayMs ∧ (Armed s ∨ s.used < cap)) (nowMs + delayMs)
      (rearm timer nowMs delayMs s) := by
  by_cases hsome : timer = schedHandleNone
  · subst hsome
    have hadd := h.add_own hcap nowMs delayMs
    refine ⟨hadd.owns, ?_, hadd.due⟩
    rw [hadd.armed, or_iff_right (h.none_armed hcap)]
  · obtain ⟨hfree, hused⟩ := h.cancel_own hcap hsome
    have hadd := hfree.add_own hcap nowMs delayMs
    have hle : s.used ≤ s.slots.length := List.countP_le_length
    rw [h.length] at hle
    have hroom : (s.cancel timer).2.used < cap := by omega
    have hsame : Espos.Flow.rearm timer nowMs delayMs s =
        Espos.Flow.rearm schedHandleNone nowMs delayMs (s.cancel timer).2 := by
      rw [Espos.Flow.rearm, if_neg hsome, Espos.Flow.rearm, if_pos rfl]
    rw [hsame]
    refine ⟨hadd.owns, ?_, hadd.due⟩
    rw [hadd.armed, and_iff_left hroom, and_iff_left (.inl (h.armed hsome))]

theorem turn_eq_some {ι : Type*} {a : Option (Timer ι)} {u : Timer ι}
    (h : turn nowMs a = some u) : ∃ t, a = some t ∧ u.cb = t.cb ∧
      (schedReached nowMs t.dueMs = true ∧ t.periodMs ≠ 0 ∧ u.cancelled = false ∧
          u.swept = false ∧ u.fresh = false ∨ ¬ schedReached nowMs t.dueMs = true ∧ u = t) := by
  cases a with
  | none => cases h
  | some t =>
    refine ⟨t, rfl, ?_⟩
    by_cases hdue : schedReached nowMs t.dueMs = true
    · rw [turn, if_pos hdue] at h
      obtain ⟨v, hv, hlive, rfl⟩ := unwind_eq_some h
      obtain rfl := Option.some.inj hv
      refine ⟨mark_cb nowMs t, .inl ⟨hdue, fun hperiod => ?_, hlive, rfl, rfl⟩⟩
      rw [Sched.mark, if_pos hperiod] at hlive
      cases hlive
    · rw [turn, if_neg hdue] at h
      obtain rfl := Option.some.inj h
      exact ⟨rfl, .inr ⟨hdue, rfl⟩⟩

theorem slot_of_turn {i : Nat} {u : Timer Owner}
    (h : (s.slots.map (turn nowMs))[i]? = some (some u)) :
    ∃ a, s.slots[i]? = some a ∧ turn nowMs a = some u := by
  rw [List.getElem?_map, Option.map_eq_some_iff] at h
  exact h

theorem still_turn (h : Still s) (nowMs : UInt32) :
    Still { s with slots := s.slots.map (turn nowMs) } where
  firing := h.firing
  quiet := by
    intro i u hi
    obtain ⟨a, ha, hu⟩ := slot_of_turn hi
    obtain ⟨t, rfl, -, ⟨-, -, hquiet⟩ | ⟨-, rfl⟩⟩ := turn_eq_some hu
    · exact hquiet
    · exact h.quiet i u ha

section Swept

variable {N : Type*} (fire : N → N) (n : N)

-- The callbacks of the others do not touch the node.
def byOwner : Owner → N → N
  | .node, n => fire n
  | .other, n => n

theorem foldl_others {order : List (Nat × Timer Owner)} (h : ∀ p ∈ order, p.2.cb = .other) :
    order.foldl (fun n p => byOwner fire p.2.cb n) n = n := by
  induction order with
  | nil => rfl
  | cons p order ih =>
    rw [List.foldl_cons, h p (List.mem_cons_self ..), byOwner]
    exact ih fun q hq => h q (List.mem_cons_of_mem _ hq)

theorem foldl_one {before after : List (Nat × Timer Owner)} {p : Nat × Timer Owner}
    (hp : p.2.cb = .node) (hother : ∀ q ∈ before ++ after, q.2.cb = .other) :
    (before ++ p :: after).foldl (fun n p => byOwner fire p.2.cb n) n = fire n := by
  rw [List.foldl_append, List.foldl_cons,
    foldl_others fire n fun q hq => hother q (List.mem_append_left _ hq), hp, byOwner]
  exact foldl_others fire (fire n) fun q hq => hother q (List.mem_append_right _ hq)

-- The node's timer fires once in a sweep at which it is due.
theorem Owns.fires_once (hcap : cap ≤ 65535) (h : Owns cap s timer) {i : Nat} {t : Timer Owner}
    (hi : s.slots[i]? = some (some t)) (hcb : t.cb = .node)
    (hdue : schedReached nowMs t.dueMs = true) :
    (s.started.agenda nowMs).foldl (fun n p => byOwner fire p.2.cb n) n = fire n := by
  have hnodup := (agenda_spec s.started nowMs).nodup_index.of_map
  obtain ⟨before, after, horder⟩ := List.append_of_mem ((h.still.due_iff hi).mpr hdue)
  have hother : ∀ p ∈ before ++ after, p.2.cb = .other := by
    intro p hp
    have hmem : p ∈ s.started.agenda nowMs := by
      rw [horder]
      exact List.mem_append.mpr ((List.mem_append.mp hp).imp id (List.mem_cons_of_mem _))
    have hslot := (((agenda_spec s.started nowMs).mem p).mp hmem).1
    cases hown : p.2.cb with
    | other => rfl
    | node =>
      obtain ⟨hidx, ht⟩ := h.unique hcap hi hcb hslot hown
      rw [horder] at hnodup
      have hnot := (List.nodup_cons.mp (List.nodup_middle.mp hnodup)).1
      rw [show p = (i, t) from Prod.ext hidx.symm ht.symm] at hp
      exact absurd hp hnot
  rw [horder]
  exact foldl_one fire n hcb hother

-- What a sweep does to the node: a timer that is due fires and is gone, one that
-- is not stays.
theorem Owns.sweep (hcap : cap ≤ 65535) (h : Owns cap s timer) (nowMs : UInt32) :
    ∃ fired s' n', s.fire (idle (byOwner fire)) nowMs n = some (fired, s', n') ∧
      ((∃ dueMs, ArmedAt s dueMs ∧ schedReached nowMs dueMs = true) ∧ n' = fire n ∧
          Owns cap s' schedHandleNone ∨
        (∀ dueMs, ArmedAt s dueMs → ¬ schedReached nowMs dueMs = true) ∧ n' = n ∧
          Owns cap s' timer ∧ SameNode s s') := by
  refine ⟨_, _, _, h.still.fire_idle (byOwner fire) nowMs n, ?_⟩
  have hstill := still_turn h.still nowMs
  have hlength : (s.slots.map (turn nowMs)).length = s.slots.length := List.length_map _
  by_cases hdue : ∃ dueMs, ArmedAt s dueMs ∧ schedReached nowMs dueMs = true
  · refine .inl ⟨hdue, ?_⟩
    obtain ⟨dueMs, ⟨i, t, hi, hcb, -, rfl⟩, hdue⟩ := hdue
    refine ⟨h.fires_once fire n hcap hi hcb hdue, hstill, hlength.trans h.length, ?_,
      fun hnone => absurd rfl hnone⟩
    intro j u hj hu
    obtain ⟨a, ha, hturn⟩ := slot_of_turn hj
    obtain ⟨v, rfl, hsame, hcase⟩ := turn_eq_some hturn
    obtain ⟨rfl, rfl⟩ := h.unique hcap hi hcb ha (hsame.symm.trans hu)
    rcases hcase with ⟨-, hperiod, -⟩ | ⟨hnot, -⟩
    · exact absurd (h.own hi hcb).2.2 hperiod
    · exact absurd hdue hnot
  · have hnot : ∀ dueMs, ArmedAt s dueMs → ¬ schedReached nowMs dueMs = true :=
      fun dueMs harmed hreached => hdue ⟨dueMs, harmed, hreached⟩
    have hearly : ∀ {i : Nat} {t : Timer Owner}, s.slots[i]? = some (some t) → t.cb = .node →
        ¬ schedReached nowMs t.dueMs = true := fun hi hcb =>
      hnot _ ⟨_, _, hi, hcb, (h.still.quiet _ _ hi).1, rfl⟩
    have hsame : SameNode s { s with slots := s.slots.map (turn nowMs) } := by
      intro i t hcb
      constructor
      · intro hi
        obtain ⟨a, ha, hturn⟩ := slot_of_turn hi
        obtain ⟨u, rfl, hown, ⟨hreached, -⟩ | ⟨-, rfl⟩⟩ := turn_eq_some hturn
        · exact absurd hreached (hearly ha (hown.symm.trans hcb))
        · exact ha
      · intro hi
        change (s.slots.map (turn nowMs))[i]? = _
        rw [List.getElem?_map, hi, Option.map_some, turn, if_neg (hearly hi hcb)]
    refine .inr ⟨hnot, ?_, h.same hsame hstill hlength, hsame⟩
    refine foldl_others fire n fun p hp => ?_
    have hslot := (((agenda_spec s.started nowMs).mem p).mp hp).1
    cases hown : p.2.cb with
    | other => rfl
    | node => exact absurd ((h.still.due_iff hslot).mp hp) (hearly hslot hown)

end Swept

end Own

end Espos.Flow
