import Espos.Flow.Owned

-- `Debounce` and `Expire`, nodes that wait for a timer of their own. A `set` is
-- not called from inside a sweep: there its call for a timer never comes back.

namespace Espos.Flow

open Espos.Run

-- The timer table, and a node that uses it among others.
structure Net (N : Type*) where
  sched : Sched Owner
  node : N

structure Deferring (N T : Type*) where
  timer : N → UInt32
  set : UInt32 → T → Net N → Net N
  retime : UInt32 → N → N
  fire : N → N

inductive NetStep (T : Type*) where
  | set (nowMs : UInt32) (v : T)
  | retime (ms : UInt32)
  | add (nowMs delayMs periodMs : UInt32)
  | cancel (handle : UInt32)
  | sweep (nowMs : UInt32)

section Net

variable {N T : Type*} (k : Deferring N T)

def Net.swept (w : Net N) (nowMs : UInt32) : Net N :=
  match w.sched.fire (idle (byOwner k.fire)) nowMs w.node with
  | some (_, s, n) => ⟨s, n⟩
  | none => w

-- Others arm timers, and cancel those that are theirs.
def Net.step (w : Net N) : NetStep T → Net N
  | .set nowMs v => k.set nowMs v w
  | .retime ms => { w with node := k.retime ms w.node }
  | .add nowMs delayMs periodMs =>
    { w with sched := (w.sched.add nowMs delayMs periodMs (some .other)).2.2 }
  | .cancel handle =>
    match w.sched.resolve handle with
    | some (_, t) => if t.cb = .other then { w with sched := (w.sched.cancel handle).2 } else w
    | none => w
  | .sweep nowMs => w.swept k nowMs

-- There is a timer for the node: one it can give back first, or a free one.
def Fits (s : Sched Owner) (delayMs : UInt32) : Prop :=
  delayMs ≤ schedMaxDelayMs ∧ (Armed s ∨ s.used < s.slots.length)

-- What a `set` needs, of a whole step.
def NetStep.Fits (room : Net N → T → Prop) (w : Net N) : NetStep T → Prop
  | .set _ v => room w v
  | _ => True

end Net

-- The last three fields are what it has emitted, what was set last and when the
-- timer that was asked for last is due.
structure Debounce (T : Type*) where
  stableMs : UInt32
  candidate : T
  settled : T
  pending : Bool
  have_ : Bool
  timer : UInt32
  emitted : List T
  last : Option T
  dueMs : UInt32
deriving DecidableEq

namespace Debounce

variable {T : Type*} [BEq T]

def init [Inhabited T] (stableMs : UInt32) : Debounce T :=
  ⟨stableMs, default, default, false, false, schedHandleNone, [], none, 0⟩

def set (nowMs : UInt32) (v : T) (w : Net (Debounce T)) : Net (Debounce T) :=
  let d := w.node
  if d.pending && v == d.candidate then ⟨w.sched, { d with last := some v }⟩
  else
    let (timer, s) := rearm d.timer nowMs d.stableMs w.sched
    ⟨s, { d with
      candidate := v
      pending := true
      timer := timer
      last := some v
      dueMs := nowMs + d.stableMs }⟩

def fire (d : Debounce T) : Debounce T :=
  let d := { d with timer := schedHandleNone, pending := false }
  if d.have_ && d.settled == d.candidate then d
  else { d with settled := d.candidate, have_ := true, emitted := d.emitted ++ [d.candidate] }

def node : Deferring (Debounce T) T where
  timer := timer
  set := set
  retime := fun ms d => { d with stableMs := ms }
  fire := fire

end Debounce

-- The last two fields are what it has emitted and when the timer that was asked
-- for last is due.
structure Expire (T : Type*) where
  maxAgeMs : UInt32
  expired : Bool
  timer : UInt32
  emitted : List (Option T)
  dueMs : UInt32
deriving DecidableEq

namespace Expire

variable {T : Type*}

def init (maxAgeMs : UInt32) : Expire T :=
  ⟨maxAgeMs, false, schedHandleNone, [], 0⟩

def set (nowMs : UInt32) (v : T) (w : Net (Expire T)) : Net (Expire T) :=
  let e := w.node
  let (timer, s) := rearm e.timer nowMs e.maxAgeMs w.sched
  ⟨s, { e with
    expired := false
    timer := timer
    emitted := e.emitted ++ [some v]
    dueMs := nowMs + e.maxAgeMs }⟩

def fire (e : Expire T) : Expire T :=
  let e := { e with timer := schedHandleNone }
  if e.expired then e else { e with expired := true, emitted := e.emitted ++ [none] }

def node : Deferring (Expire T) T where
  timer := timer
  set := set
  retime := fun ms e => { e with maxAgeMs := ms }
  fire := fire

end Expire

section Served

variable {N T : Type*} {k : Deferring N T} {cap : Nat}

-- The node waits for a deadline only with a timer that is due then.
def Net.Served (waits : N → Option UInt32) (w : Net N) : Prop :=
  ∀ dueMs, waits w.node = some dueMs → ArmedAt w.sched dueMs

structure Net.Right (k : Deferring N T) (cap : Nat) (good : N → Prop) (w : Net N) : Prop where
  owns : Owns cap w.sched (k.timer w.node)
  good : good w.node

-- What the steps of a node that waits do.
structure Deferring.Waits (k : Deferring N T) (cap : Nat) (good : N → Prop)
    (waits : N → Option UInt32) (room : Net N → T → Prop) : Prop where
  set : ∀ {w : Net N} (nowMs : UInt32) (v : T), w.Right k cap good → w.Served waits →
    (k.set nowMs v w).Right k cap good ∧ ((k.set nowMs v w).Served waits ↔ room w v)
  retime : ∀ {n : N} (ms : UInt32), good n → good (k.retime ms n) ∧
    k.timer (k.retime ms n) = k.timer n ∧ waits (k.retime ms n) = waits n
  fire : ∀ {n : N}, good n → k.timer n ≠ schedHandleNone →
    good (k.fire n) ∧ k.timer (k.fire n) = schedHandleNone ∧ waits (k.fire n) = none

theorem ArmedAt.same {s s' : Sched Owner} {dueMs : UInt32} (hsame : SameNode s s')
    (h : ArmedAt s dueMs) : ArmedAt s' dueMs := by
  obtain ⟨i, t, hi, hcb, hrest⟩ := h
  exact ⟨i, t, (hsame i t hcb).mpr hi, hcb, hrest⟩

variable {good : N → Prop} {waits : N → Option UInt32} {room : Net N → T → Prop} {w : Net N}

theorem Net.Right.sched (h : w.Right k cap good) (hserved : w.Served waits) {s : Sched Owner}
    (howns : Owns cap s (k.timer w.node)) (hsame : SameNode w.sched s) :
    Net.Right k cap good { w with sched := s } ∧ Net.Served waits { w with sched := s } :=
  ⟨⟨howns, h.good⟩, fun dueMs hwaits => (hserved dueMs hwaits).same hsame⟩

-- A sweep for which the node's timer is due, and any other.
theorem Net.swept_cases (hcap : cap ≤ 65535) (h : w.Right k cap good) (nowMs : UInt32) :
    ((∃ dueMs, ArmedAt w.sched dueMs ∧ schedReached nowMs dueMs = true) ∧
        (w.swept k nowMs).node = k.fire w.node ∧
        Owns cap (w.swept k nowMs).sched schedHandleNone) ∨
      (∀ dueMs, ArmedAt w.sched dueMs → ¬ schedReached nowMs dueMs = true) ∧
        w.swept k nowMs = { w with sched := (w.swept k nowMs).sched } ∧
        Owns cap (w.swept k nowMs).sched (k.timer w.node) ∧
        SameNode w.sched (w.swept k nowMs).sched := by
  obtain ⟨fired, s, n, hfire, hcase⟩ := h.owns.sweep k.fire w.node hcap nowMs
  rw [Net.swept, hfire]
  rcases hcase with ⟨hdue, rfl, howns⟩ | ⟨hnot, rfl, howns, hsame⟩
  · exact .inl ⟨hdue, rfl, howns⟩
  · exact .inr ⟨hnot, rfl, howns, hsame⟩

theorem Net.Right.step (hcap : cap ≤ 65535) (hk : k.Waits cap good waits room)
    (h : w.Right k cap good) (hserved : w.Served waits) (e : NetStep T) :
    (w.step k e).Right k cap good ∧ ((w.step k e).Served waits ↔ e.Fits room w) := by
  cases e with
  | set nowMs v => exact hk.set nowMs v h hserved
  | retime ms =>
    obtain ⟨hgood, htimer, hwaits⟩ := hk.retime ms h.good
    refine ⟨⟨htimer ▸ h.owns, hgood⟩, iff_of_true (fun dueMs hdue => ?_) trivial⟩
    exact hserved dueMs (hwaits.symm.trans hdue)
  | add nowMs delayMs periodMs =>
    obtain ⟨howns, hsame⟩ := h.owns.add_other nowMs delayMs periodMs
    obtain ⟨hright, hserved⟩ := h.sched hserved howns hsame
    exact ⟨hright, iff_of_true hserved trivial⟩
  | cancel handle =>
    rw [Net.step]
    cases hres : w.sched.resolve handle with
    | none => exact ⟨h, iff_of_true hserved trivial⟩
    | some p =>
      obtain ⟨i, t⟩ := p
      dsimp only
      by_cases hother : t.cb = .other
      · rw [if_pos hother]
        obtain ⟨howns, hsame⟩ := h.owns.cancel_other hres hother
        obtain ⟨hright, hserved⟩ := h.sched hserved howns hsame
        exact ⟨hright, iff_of_true hserved trivial⟩
      · rw [if_neg hother]
        exact ⟨h, iff_of_true hserved trivial⟩
  | sweep nowMs =>
    change (w.swept k nowMs).Right k cap good ∧ ((w.swept k nowMs).Served waits ↔ True)
    rcases Net.swept_cases hcap h nowMs with ⟨hdue, hnode, howns⟩ | ⟨-, heq, howns, hsame⟩
    · obtain ⟨dueMs, harmed, -⟩ := hdue
      obtain ⟨hgood, htimer, hwaits⟩ := hk.fire h.good ((h.owns.armed_iff hcap).mpr harmed.armed)
      refine ⟨⟨?_, hnode ▸ hgood⟩, iff_of_true (fun dueMs hdue => ?_) trivial⟩
      · rw [hnode, htimer]
        exact howns
      · rw [hnode, hwaits] at hdue
        cases hdue
    · obtain ⟨hright, hserved⟩ := h.sched hserved howns hsame
      rw [heq]
      exact ⟨hright, iff_of_true hserved trivial⟩

-- The timer the node waits for ends the wait.
theorem Net.Right.fires (hcap : cap ≤ 65535) (h : w.Right k cap good) {dueMs nowMs : UInt32}
    (harmed : ArmedAt w.sched dueMs) (hdue : schedReached nowMs dueMs = true) :
    (w.swept k nowMs).node = k.fire w.node := by
  rcases Net.swept_cases hcap h nowMs with ⟨-, hnode, -⟩ | ⟨hnot, -⟩
  · exact hnode
  · exact absurd hdue (hnot dueMs harmed)

-- Where the node asks for a timer, it gets one exactly when there is one for it.
theorem Net.Right.asks (hcap : cap ≤ 65535) (h : w.Right k cap good) (nowMs delayMs : UInt32) :
    let r := rearm (k.timer w.node) nowMs delayMs w.sched
    Owns cap r.2 r.1 ∧ (ArmedAt r.2 (nowMs + delayMs) ↔ Fits w.sched delayMs) := by
  have harms := h.owns.rearm hcap nowMs delayMs
  rw [Fits, h.owns.length]
  exact ⟨harms.owns, ⟨fun hdue => harms.armed.mp hdue.armed,
    fun hroom => harms.due (harms.armed.mpr hroom)⟩⟩

theorem Net.always_served_iff {P : Net N → Prop} (hcap : cap ≤ 65535)
    (hk : k.Waits cap good waits room)
    (hiff : ∀ w : Net N, w.Right k cap good → (P w ↔ w.Served waits)) (hright : w.Right k cap good)
    (hstart : w.Served waits) (es : List (NetStep T)) :
    Always (Net.step k) P w es ↔ Along (Net.step k) (fun w e => e.Fits room w) w es := by
  apply always_iff_along (I := fun w : Net N => w.Right k cap good)
  · intro w e hw hp
    exact (hw.step hcap hk ((hiff w hw).mp hp) e).1
  · intro w e hw hp
    obtain ⟨hnext, hserved⟩ := hw.step hcap hk ((hiff w hw).mp hp) e
    exact (hiff _ hnext).trans hserved
  · exact hright
  · exact (hiff w hright).mpr hstart

end Served

namespace Debounce

variable {T : Type*} [BEq T] {cap : Nat}

-- The value set last is the one emitted last, as far as `==` tells.
def Delivered (d : Debounce T) : Prop :=
  ∀ v, d.last = some v → ∃ u, d.emitted.getLast? = some u ∧ (v = u ∨ (v == u) = true)

-- A pending candidate has a live timer, and any sweep from its deadline on ends
-- the wait with the value delivered.
def Kept (w : Net (Debounce T)) : Prop :=
  (w.node.pending = true → ArmedAt w.sched w.node.dueMs ∧
    ∀ nowMs, schedReached nowMs w.node.dueMs = true →
      (w.swept node nowMs).node.pending = false ∧ (w.swept node nowMs).node.Delivered) ∧
    (w.node.pending = false → w.node.Delivered)

def waits (d : Debounce T) : Option UInt32 :=
  if d.pending then some d.dueMs else none

-- The values that were set while one was pending all match the candidate.
structure Good (d : Debounce T) : Prop where
  pending : d.pending = true → ∃ v, d.last = some v ∧ (v = d.candidate ∨ (v == d.candidate) = true)
  settled : d.pending = false → d.Delivered
  have_ : d.have_ = true → d.emitted.getLast? = some d.settled
  armed : d.timer ≠ schedHandleNone → d.pending = true

-- The value is already pending, or there is a timer for it.
def Fits (w : Net (Debounce T)) (v : T) : Prop :=
  (w.node.pending && v == w.node.candidate) = true ∨ Flow.Fits w.sched w.node.stableMs

theorem fire_pending (d : Debounce T) :
    d.fire.pending = false ∧ d.fire.timer = schedHandleNone := by
  rw [Debounce.fire]
  dsimp only
  by_cases hsame : (d.have_ && d.settled == d.candidate) = true
  · rw [if_pos hsame]
    exact ⟨rfl, rfl⟩
  · rw [if_neg hsame]
    exact ⟨rfl, rfl⟩

theorem Good.delivers [PartialEquivBEq T] {d : Debounce T} (h : d.Good)
    (hpending : d.pending = true) : d.fire.Delivered ∧
      (d.fire.have_ = true → d.fire.emitted.getLast? = some d.fire.settled) := by
  obtain ⟨v, hlast, hv⟩ := h.pending hpending
  rw [Debounce.fire]
  dsimp only
  by_cases hsame : (d.have_ && d.settled == d.candidate) = true
  · rw [if_pos hsame]
    rw [Bool.and_eq_true] at hsame
    refine ⟨fun u hu => ⟨d.settled, h.have_ hsame.1, .inr ?_⟩, h.have_⟩
    obtain rfl := Option.some.inj (hlast.symm.trans hu)
    rcases hv with rfl | hv
    · exact BEq.symm hsame.2
    · exact BEq.trans hv (BEq.symm hsame.2)
  · rw [if_neg hsame]
    refine ⟨fun u hu => ⟨d.candidate, List.getLast?_concat, ?_⟩, fun _ => List.getLast?_concat⟩
    obtain rfl := Option.some.inj (hlast.symm.trans hu)
    exact hv

theorem Good.fire [PartialEquivBEq T] {d : Debounce T} (h : d.Good) (hpending : d.pending = true) :
    d.fire.Good := by
  obtain ⟨hdone, htimer⟩ := fire_pending d
  obtain ⟨hdelivered, hsettled⟩ := h.delivers hpending
  refine ⟨fun hnone => ?_, fun _ => hdelivered, hsettled, fun hsome => absurd htimer hsome⟩
  rw [hdone] at hnone
  cases hnone

omit [BEq T] in
theorem waits_eq_some {d : Debounce T} {dueMs : UInt32} :
    d.waits = some dueMs ↔ d.pending = true ∧ d.dueMs = dueMs := by
  rw [waits, Option.ite_none_right_eq_some, Option.some.injEq]

theorem kept_iff [PartialEquivBEq T] (hcap : cap ≤ 65535) {w : Net (Debounce T)}
    (h : w.Right node cap Good) : Kept w ↔ w.Served waits := by
  constructor
  · intro hkept dueMs hwaits
    obtain ⟨hpending, rfl⟩ := waits_eq_some.mp hwaits
    exact (hkept.1 hpending).1
  · intro hserved
    refine ⟨fun hpending => ?_, h.good.settled⟩
    have harmed := hserved _ (waits_eq_some.mpr ⟨hpending, rfl⟩)
    refine ⟨harmed, fun nowMs hdue => ?_⟩
    rw [h.fires hcap harmed hdue]
    exact ⟨(fire_pending w.node).1, (h.good.delivers hpending).1⟩

theorem node_waits [PartialEquivBEq T] (hcap : cap ≤ 65535) :
    (node : Deferring (Debounce T) T).Waits cap Good waits Fits where
  set := by
    intro w nowMs v h hserved
    change Net.Right node cap Good (set nowMs v w) ∧ _
    change _ ∧ (Net.Served waits (set nowMs v w) ↔ _)
    rw [set, Fits]
    dsimp only
    by_cases hsame : (w.node.pending && v == w.node.candidate) = true
    · rw [if_pos hsame]
      have hpending := (Bool.and_eq_true _ _ ▸ hsame)
      refine ⟨⟨h.owns, fun _ => ⟨v, rfl, .inr hpending.2⟩, fun hnone => ?_, h.good.have_,
        h.good.armed⟩, iff_of_true hserved (.inl hsame)⟩
      rw [hpending.1] at hnone
      cases hnone
    · rw [if_neg hsame, or_iff_right hsame]
      obtain ⟨howns, hasks⟩ := h.asks hcap nowMs w.node.stableMs
      refine ⟨⟨howns, fun _ => ⟨v, rfl, .inl rfl⟩, (fun hnone => by cases hnone),
        h.good.have_, fun _ => rfl⟩, ?_⟩
      rw [← hasks]
      constructor
      · intro hserved
        exact hserved _ (waits_eq_some.mpr ⟨rfl, rfl⟩)
      · intro harmed dueMs hwaits
        obtain ⟨-, rfl⟩ := waits_eq_some.mp hwaits
        exact harmed
  retime := fun ms h => ⟨⟨h.pending, h.settled, h.have_, h.armed⟩, rfl, rfl⟩
  fire := by
    intro d h hsome
    obtain ⟨hdone, htimer⟩ := fire_pending d
    refine ⟨h.fire (h.armed hsome), htimer, ?_⟩
    change waits d.fire = none
    rw [waits, hdone]
    rfl

def start [Inhabited T] (cap : Nat) (stableMs : UInt32) : Net (Debounce T) :=
  ⟨.init cap, .init stableMs⟩

theorem right_start [Inhabited T] (cap : Nat) (stableMs : UInt32) :
    (start cap stableMs : Net (Debounce T)).Right node cap Good where
  owns := owns_init cap
  good := ⟨fun h => (by cases h), fun _ _ h => (by cases h), fun h => (by cases h),
    fun h => absurd rfl h⟩

end Debounce

namespace Expire

variable {T : Type*} {cap : Nat}

-- A value that was emitted last has a live timer, and any sweep from its deadline
-- on emits the absence of one.
def Kept (w : Net (Expire T)) : Prop :=
  ∀ v, w.node.emitted.getLast? = some (some v) → ArmedAt w.sched w.node.dueMs ∧
    ∀ nowMs, schedReached nowMs w.node.dueMs = true →
      (w.swept node nowMs).node.emitted = w.node.emitted ++ [none]

def waits (e : Expire T) : Option UInt32 :=
  if e.emitted.getLast?.any Option.isSome then some e.dueMs else none

-- The absence is emitted once.
def Good (e : Expire T) : Prop :=
  e.expired = true → ∃ older, e.emitted = older ++ [none]

def Fits (w : Net (Expire T)) (_ : T) : Prop :=
  Flow.Fits w.sched w.node.maxAgeMs

theorem waits_eq_some {e : Expire T} {dueMs : UInt32} :
    e.waits = some dueMs ↔ (∃ v, e.emitted.getLast? = some (some v)) ∧ e.dueMs = dueMs := by
  rw [waits, Option.ite_none_right_eq_some, Option.some.injEq]
  refine and_congr_left fun _ => ?_
  rcases e.emitted.getLast? with _ | _ | v
  · simp
  · simp
  · simp

theorem kept_iff (hcap : cap ≤ 65535) {w : Net (Expire T)} (h : w.Right node cap Good) :
    Kept w ↔ w.Served waits := by
  constructor
  · intro hkept dueMs hwaits
    obtain ⟨⟨v, hlast⟩, rfl⟩ := waits_eq_some.mp hwaits
    exact (hkept v hlast).1
  · intro hserved v hlast
    have harmed := hserved _ (waits_eq_some.mpr ⟨⟨v, hlast⟩, rfl⟩)
    refine ⟨harmed, fun nowMs hdue => ?_⟩
    rw [h.fires hcap harmed hdue]
    have hfresh : ¬ w.node.expired = true := by
      intro hexpired
      obtain ⟨older, holder⟩ := h.good hexpired
      rw [holder, List.getLast?_concat] at hlast
      cases hlast
    change (fire w.node).emitted = _
    rw [fire]
    dsimp only
    rw [if_neg hfresh]

theorem node_waits (hcap : cap ≤ 65535) :
    (node : Deferring (Expire T) T).Waits cap Good waits Fits where
  set := by
    intro w nowMs v h hserved
    change Net.Right node cap Good (set nowMs v w) ∧ (Net.Served waits (set nowMs v w) ↔ _)
    rw [set, Fits]
    dsimp only
    obtain ⟨howns, hasks⟩ := h.asks hcap nowMs w.node.maxAgeMs
    refine ⟨⟨howns, fun hnone => by cases hnone⟩, ?_⟩
    rw [← hasks]
    constructor
    · intro hserved
      exact hserved _ (waits_eq_some.mpr ⟨⟨v, List.getLast?_concat⟩, rfl⟩)
    · intro harmed dueMs hwaits
      obtain ⟨-, rfl⟩ := waits_eq_some.mp hwaits
      exact harmed
  retime := fun ms h => ⟨h, rfl, rfl⟩
  fire := by
    intro e h hsome
    change Good (fire e) ∧ (fire e).timer = _ ∧ waits (fire e) = none
    rw [fire]
    dsimp only
    by_cases hexpired : e.expired = true
    · obtain ⟨older, holder⟩ := h hexpired
      rw [if_pos hexpired]
      refine ⟨h, rfl, ?_⟩
      rw [waits, holder, List.getLast?_concat]
      rfl
    · rw [if_neg hexpired]
      refine ⟨fun _ => ⟨e.emitted, rfl⟩, rfl, ?_⟩
      rw [waits, List.getLast?_concat]
      rfl

def start (cap : Nat) (maxAgeMs : UInt32) : Net (Expire T) :=
  ⟨.init cap, .init maxAgeMs⟩

theorem right_start (cap : Nat) (maxAgeMs : UInt32) :
    (start cap maxAgeMs : Net (Expire T)).Right node cap Good where
  owns := owns_init cap
  good := fun h => by cases h

end Expire

section Runs

variable {T : Type*} [BEq T] [PartialEquivBEq T] [Inhabited T] {cap : Nat}

-- Neither node ever waits for a timer it does not have exactly when each `set` in
-- need of one finds one. Both drop the answer of the call that arms it.
theorem waits_kept_iff (hcap : cap ≤ 65535) (ms : UInt32) (es : List (NetStep T)) :
    (Always (Net.step Debounce.node) Debounce.Kept (Debounce.start (T := T) cap ms) es ↔
      Along (Net.step Debounce.node) (fun w e => e.Fits Debounce.Fits w) (Debounce.start cap ms)
        es) ∧
    (Always (Net.step Expire.node) Expire.Kept (Expire.start (T := T) cap ms) es ↔
      Along (Net.step Expire.node) (fun w e => e.Fits Expire.Fits w) (Expire.start cap ms) es) := by
  constructor
  · exact Net.always_served_iff hcap (Debounce.node_waits hcap) (fun w => Debounce.kept_iff hcap)
      (Debounce.right_start cap ms) (fun dueMs h => by cases h) es
  · exact Net.always_served_iff hcap (Expire.node_waits hcap) (fun w => Expire.kept_iff hcap)
      (Expire.right_start cap ms) (fun dueMs h => by cases h) es

theorem waits_kept_two :
    (Always (Net.step Debounce.node) Debounce.Kept (Debounce.start (T := Bool) 2 50)
        [.add 0 1000 0, .set 0 true, .sweep 60] ↔
      Along (Net.step Debounce.node) (fun w e => e.Fits Debounce.Fits w) (Debounce.start 2 50)
        [.add 0 1000 0, .set 0 true, .sweep 60]) ∧
    (Always (Net.step Expire.node) Expire.Kept (Expire.start (T := Bool) 2 50)
        [.add 0 1000 0, .set 0 true, .sweep 60] ↔
      Along (Net.step Expire.node) (fun w e => e.Fits Expire.Fits w) (Expire.start 2 50)
        [.add 0 1000 0, .set 0 true, .sweep 60]) :=
  waits_kept_iff (by decide) 50 [.add 0 1000 0, .set 0 true, .sweep 60]

end Runs

theorem not_armedAt (cap : Nat) {s : Sched Owner} (hempty : s.slots = List.replicate cap none)
    (dueMs : UInt32) : ¬ ArmedAt s dueMs := by
  rintro ⟨i, t, hi, -⟩
  rw [hempty, List.getElem?_replicate] at hi
  obtain ⟨-, hi⟩ := Option.ite_none_right_eq_some.mp hi
  cases hi

-- The one slot is taken when the value is set. Long after it is free again the
-- value, set a second time, is still pending without a timer. The value that
-- should have expired stands.
theorem waits_for_nothing :
    (let w := run (Net.step Debounce.node) (Debounce.start 1 50)
      [.add 0 1000 0, .set 0 true, .sweep 1000, .set 1000 true, .sweep 5000]
    w.sched.used = 0 ∧ w.node.pending = true ∧ w.node.emitted = [] ∧ ¬ Debounce.Kept w) ∧
    (let w := run (Net.step Expire.node) (Expire.start 1 50)
      [.add 0 1000 0, .set 0 true, .sweep 1000, .sweep 5000]
    w.sched.used = 0 ∧ w.node.emitted = [some true] ∧ ¬ Expire.Kept w) := by
  refine ⟨⟨by decide, by decide, by decide, fun hkept => ?_⟩, by decide, by decide, fun hkept => ?_⟩
  · exact not_armedAt 1 (by decide) _ (hkept.1 (by decide)).1
  · exact not_armedAt 1 (by decide) _ (hkept true (by decide)).1

end Espos.Flow
