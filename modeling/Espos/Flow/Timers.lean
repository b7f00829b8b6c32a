import Espos.Flow.Wheel

-- What a sweep runs, and whether there is room for a timer in it.

namespace Espos.Flow

open Espos.Run

variable {γ : Type} {w : Wheel γ} {nowMs : UInt32}

section Order

-- A timer that is live outside a sweep, and due.
def Due (w : Wheel γ) (nowMs : UInt32) (i : Nat) (t : Timer (Tag γ)) : Prop :=
  w.sched.slots[i]? = some (some t) ∧ schedReached nowMs t.dueMs = true

-- Of two due timers of one deadline the one in the lower slot was added first.
def SlotsInOrder (w : Wheel γ) (nowMs : UInt32) : Prop :=
  ∀ i j t u, Due w nowMs i t → Due w nowMs j u → t.dueMs = u.dueMs → i < j →
    t.cb.serial < u.cb.serial

-- The sweep comes to its end with nothing due left, and answers how many timers
-- it ran: each that was due, once, or a callback cancelled it before its turn.
-- Their deadlines ascend, and timers of one deadline come in the order of adding.
def SweepsRight (w : Wheel γ) (nowMs : UInt32) {σ : Type} (script : γ → σ → Body γ σ) (x : σ) :
    Prop :=
  let log := w.ran script nowMs x
  (∃ s' w' x', w.sched.started.sweep (Wheel.call script) nowMs w.sched.slots.length 0
        (w.begin nowMs, x) = some (log.length, s', w', x') ∧
      w.fire script nowMs x = some (log.length, w'.ended s', x') ∧ s'.pick nowMs = none ∧
      ∀ i t, Due w nowMs i t → (i, t) ∉ log →
        ∃ u, s'.slots[i]? = some (some u) ∧ u.cancelled = true ∧ u.swept = false) ∧
    (∀ p ∈ log, Due w nowMs p.1 p.2) ∧ (log.map Prod.fst).Nodup ∧
    (log.Pairwise fun p q => overdue nowMs q.2 ≤ overdue nowMs p.2) ∧
    log.Pairwise fun p q => p.2.dueMs = q.2.dueMs → p.2.cb.serial < q.2.cb.serial

theorem settled_run (cap : Nat) (es : List (WheelStep γ)) :
    (run Wheel.step (.init cap) es).Settled :=
  run_move (fun h hmove => h.move hmove) (settled_init cap) es

theorem eligible_iff_due (h : w.Settled) (hsweep : w.sweep = none) {i : Nat}
    {t : Timer (Tag γ)} : (w.sched.started.slots[i]? = some (some t) ∧
      Sched.eligible nowMs (some t) = true) ↔ Due w nowMs i t := by
  refine and_congr_right fun hslot => ?_
  obtain ⟨hlive, hswept, hfresh⟩ := h.quiet (by rw [h.firing, hsweep]; rfl) i t hslot
  simp [Sched.eligible, hlive, hswept, hfresh]

-- Callbacks that do nothing let every due timer run.
theorem runs_of_idle {ι τ : Type*} {call : ι → Sched ι → τ → Option (Sched ι × τ)}
    (hidle : ∀ c s x, ∃ x', call c s x = some (s, x')) {order : List (Nat × Timer ι)}
    (fuel : Nat) {s : Sched ι} {x : τ} (h : Agenda nowMs s order) (hfuel : order.length ≤ fuel) :
    s.runs call nowMs fuel x = order := by
  induction order generalizing fuel s x with
  | nil =>
    cases fuel with
    | zero => rfl
    | succ fuel => rw [Sched.runs, pick_of_agenda_nil h]
  | cons p order ih =>
    obtain ⟨i, t⟩ := p
    cases fuel with
    | zero => simp at hfuel
    | succ fuel =>
      obtain ⟨x', hcall⟩ :=
        hidle t.cb { s with slots := s.slots.set i (some (Sched.mark nowMs t)) } x
      rw [Sched.runs, pick_of_agenda_cons h]
      dsimp only
      rw [hcall]
      dsimp only
      rw [ih fuel h.tail (Nat.le_of_succ_le_succ hfuel)]

section Ran

variable {σ : Type} (script : γ → σ → Body γ σ) (x : σ)

theorem ran_sublist (w : Wheel γ) :
    (w.ran script nowMs x).Sublist (w.sched.started.agenda nowMs) :=
  runs_sublist (behaves_call script) w.sched.slots.length rfl (agenda_spec w.sched.started nowMs)

theorem ran_due (h : w.Settled) (hsweep : w.sweep = none) :
    ∀ p ∈ w.ran script nowMs x, Due w nowMs p.1 p.2 := by
  intro p hp
  have hmem := (ran_sublist script x w).subset hp
  exact (eligible_iff_due h hsweep).mp (((agenda_spec w.sched.started nowMs).mem p).mp hmem)

theorem ran_comesFirst (w : Wheel γ) : (w.ran script nowMs x).Pairwise fun p q =>
    comesFirst nowMs p q = true :=
  (agenda_spec w.sched.started nowMs).sorted.sublist (ran_sublist script x w)

theorem ran_nodup (w : Wheel γ) : ((w.ran script nowMs x).map Prod.fst).Nodup :=
  (agenda_spec w.sched.started nowMs).nodup_index.sublist ((ran_sublist script x w).map Prod.fst)

theorem ran_inserted (h : w.Settled) (hsweep : w.sweep = none) (hslots : SlotsInOrder w nowMs) :
    (w.ran script nowMs x).Pairwise fun p q =>
      p.2.dueMs = q.2.dueMs → p.2.cb.serial < q.2.cb.serial := by
  have hdistinct : (w.ran script nowMs x).Pairwise fun p q => p.1 ≠ q.1 :=
    List.pairwise_map.mp (ran_nodup script x w)
  refine List.Pairwise.imp_of_mem ?_ ((ran_comesFirst script x w).and hdistinct)
  rintro ⟨i, t⟩ ⟨j, u⟩ ht hu ⟨hfirst, hne⟩ hsame
  have hoverdue : overdue nowMs t = overdue nowMs u := by
    unfold overdue
    rw [hsame]
  rw [comesFirst_iff] at hfirst
  dsimp only at hne
  exact hslots i j t u (ran_due script x h hsweep _ ht) (ran_due script x h hsweep _ hu) hsame
    (by omega)

end Ran

theorem either_order {α : Type*} {R : α → α → Prop} {l : List α} (h : l.Pairwise R) {a b : α}
    (ha : a ∈ l) (hb : b ∈ l) (hne : a ≠ b) : R a b ∨ R b a := by
  have hsymm : l.Pairwise fun a b => R a b ∨ R b a := h.imp Or.inl
  have : Std.Symm fun a b => R a b ∨ R b a := ⟨fun _ _ => Or.symm⟩
  exact hsymm.forall ha hb hne

-- The order of the slots is the order of adding only where no slot was freed and
-- taken again in between.
theorem sweeps_right_iff (cap : Nat) (es : List (WheelStep γ)) (nowMs : UInt32)
    (hsweep : (run Wheel.step (.init cap) es).sweep = none) :
    (∀ (σ : Type) (script : γ → σ → Body γ σ) (x : σ),
      SweepsRight (run Wheel.step (.init cap) es) nowMs script x) ↔
      SlotsInOrder (run Wheel.step (.init cap) es) nowMs := by
  have h := settled_run cap es
  generalize run Wheel.step (.init cap) es = w at h hsweep
  constructor
  · intro hright i j t u ht hu hsame hij
    obtain ⟨-, -, -, -, hinserted⟩ := hright Unit (fun _ _ => .done ()) ()
    have hlog : w.ran (fun _ _ => Body.done ()) nowMs () = w.sched.started.agenda nowMs :=
      runs_of_idle (fun c s x => ⟨_, rfl⟩) _ (agenda_spec w.sched.started nowMs)
        (agenda_spec w.sched.started nowMs).length_le
    have hmem : ∀ {k : Nat} {v : Timer (Tag γ)}, Due w nowMs k v →
        (k, v) ∈ w.ran (fun _ _ => Body.done ()) nowMs () := by
      intro k v hv
      rw [hlog]
      exact ((agenda_spec w.sched.started nowMs).mem _).mpr ((eligible_iff_due h hsweep).mpr hv)
    have hne : (i, t) ≠ (j, u) := fun heq => by
      have := congrArg Prod.fst heq
      omega
    have hpair := (ran_comesFirst (fun _ _ => Body.done ()) () w).and hinserted
    rcases either_order hpair (hmem ht) (hmem hu) hne with
      ⟨-, hserial⟩ | ⟨hfirst, -⟩
    · exact hserial hsame
    · have hoverdue : overdue nowMs t = overdue nowMs u := by
        unfold overdue
        rw [hsame]
      rw [comesFirst_iff] at hfirst
      omega
  · intro hslots σ script x
    obtain ⟨s', w', x', hrun, hswept, hfire, -⟩ := fire_eq script h hsweep nowMs x
    refine ⟨⟨s', w', x', hrun, hfire, hswept.finished, ?_⟩, ran_due script x h hsweep,
      ran_nodup script x w, ?_, ran_inserted script x h hsweep hslots⟩
    · intro i t hdue hnot
      have hother : ∀ u, (i, u) ∉ w.ran script nowMs x := by
        intro u hu
        have hslot := (ran_due script x h hsweep _ hu).1
        rw [hdue.1] at hslot
        obtain rfl := Option.some.inj (Option.some.inj hslot)
        exact hnot hu
      obtain ⟨hslot, heligible⟩ := (eligible_iff_due h hsweep).mpr hdue
      obtain ⟨b, hb, hkept⟩ := hswept.rest hslot hother
      cases hkept with
      | same =>
        rw [not_eligible_of_pick hswept.finished hb] at heligible
        cases heligible
      | cancelled =>
        refine ⟨_, hb, rfl, ?_⟩
        exact (h.quiet (by rw [h.firing, hsweep]; rfl) i t hdue.1).2.1
    · refine (ran_comesFirst script x w).imp ?_
      rintro ⟨i, t⟩ ⟨j, u⟩ hfirst
      rw [comesFirst_iff] at hfirst
      dsimp only
      omega

theorem sweeps_right_two :
    (∀ (σ : Type) (script : Nat → σ → Body Nat σ) (x : σ), SweepsRight
      (run Wheel.step (.init 2) [.add 0 5 0 (some 0), .add 0 5 0 (some 1)]) 5 script x) ↔
      SlotsInOrder (run Wheel.step (.init 2) [.add 0 5 0 (some 0), .add 0 5 0 (some 1)]) 5 :=
  sweeps_right_iff 2 [.add 0 5 0 (some 0), .add 0 5 0 (some 1)] 5 (by decide)

-- The third timer takes the slot of the first and runs ahead of the second, which
-- is due at the same time.
theorem sweep_out_of_order :
    let w := run Wheel.step (.init 2) [.add 0 5 0 (some 0), .add 0 5 0 (some 1), .cancel 65536,
      .add 0 5 0 (some 2)]
    w.sweep = none ∧
      (w.ran (fun (_ : Nat) _ => Body.done ()) 5 ()).map (fun p => (p.2.cb.serial, p.2.dueMs)) =
        [(2, 5), (1, 5)] ∧
      ¬ SweepsRight w 5 (fun _ _ => Body.done ()) () := by
  intro w
  refine ⟨by decide, by decide +kernel, ?_⟩
  rintro ⟨-, -, -, -, hinserted⟩
  revert hinserted
  decide +kernel

end Order

section Room

variable {ι : Type*}

theorem used_take {slots : List (Option (Timer ι))} {i : Nat} (hfree : slots[i]? = some none)
    (t : Timer ι) :
    (slots.set i (some t)).countP Option.isSome = slots.countP Option.isSome + 1 := by
  obtain ⟨hlt, hget⟩ := List.getElem?_eq_some_iff.mp hfree
  rw [List.countP_set hlt, hget]
  rfl

theorem used_keep {slots : List (Option (Timer ι))} {i : Nat} {t : Timer ι}
    (hslot : slots[i]? = some (some t)) (u : Timer ι) :
    (slots.set i (some u)).countP Option.isSome = slots.countP Option.isSome := by
  obtain ⟨hlt, hget⟩ := List.getElem?_eq_some_iff.mp hslot
  have hpos : 0 < slots.countP Option.isSome :=
    List.countP_pos_iff.mpr ⟨some t, List.mem_of_getElem? hslot, rfl⟩
  rw [List.countP_set hlt, hget]
  exact Nat.sub_add_cancel hpos

-- There is room while not every slot is used.
theorem add_ok_iff (s : Sched ι) (nowMs : UInt32) {delayMs periodMs : UInt32}
    (hdelay : delayMs ≤ schedMaxDelayMs) (hperiod : periodMs ≤ schedMaxDelayMs) (cb : ι) :
    (s.add nowMs delayMs periodMs (some cb)).1 = .ok ↔ s.used < s.slots.length := by
  have hrange : ¬ (schedMaxDelayMs < delayMs ∨ schedMaxDelayMs < periodMs) := by
    rw [not_or, UInt32.not_lt, UInt32.not_lt]
    exact ⟨hdelay, hperiod⟩
  rw [Sched.add, if_neg hrange, Sched.used]
  have hle : s.slots.countP Option.isSome ≤ s.slots.length := List.countP_le_length
  cases hfree : s.slots.findIdx? Option.isNone with
  | none =>
    have hall : s.slots.countP Option.isSome = s.slots.length := by
      rw [List.countP_eq_length]
      intro a ha
      have hnone := List.findIdx?_eq_none_iff.mp hfree a ha
      cases a with
      | none => cases hnone
      | some t => rfl
    refine iff_of_false (fun hok => by cases hok) ?_
    omega
  | some i =>
    refine iff_of_true rfl (lt_of_le_of_ne hle ?_)
    intro hall
    have hmem := List.mem_of_getElem? (findIdx_isNone hfree)
    cases List.countP_eq_length.mp hall none hmem

-- In a sweep every used slot stays used.
def Wheel.Counted (w : Wheel γ) : Prop :=
  ∀ sw, w.sweep = some sw →
    sw.issued ≤ w.issued.length ∧ w.sched.used = sw.used + (w.issued.length - sw.issued)

theorem counted_move {w' : Wheel γ} (hsettled : w.Settled) (h : w.Counted) (hmove : Move w w') :
    w'.Counted := by
  cases hmove with
  | stay => exact h
  | add nowMs cb hdelay hperiod hfree =>
    intro sw hsweep
    obtain ⟨hle, hused⟩ := h sw hsweep
    refine ⟨hle.trans (by simp), ?_⟩
    rw [Sched.used] at hused ⊢
    rw [used_take hfree, List.length_append, List.length_singleton]
    omega
  | mark hslot hlive hfiring =>
    intro sw hsweep
    rw [Sched.used, used_keep hslot]
    exact h sw hsweep
  | free hslot hlive hstill =>
    intro sw hsweep
    have hfiring := hsettled.firing
    rw [hsweep, hstill] at hfiring
    cases hfiring
  | begin nowMs hstill =>
    intro sw hsweep
    obtain rfl := Option.some.inj hsweep
    exact ⟨Nat.le_refl _, by simp [Sched.used]⟩
  | run hsweep hslot hdue =>
    intro sw hsw
    rw [Sched.used, used_keep hslot]
    exact h sw hsw
  | finish hsweep hpick =>
    intro sw hsw
    cases hsw

theorem counted_init (cap : Nat) : (Wheel.init cap : Wheel γ).Counted := by
  intro sw hsw
  cases hsw

theorem counted_run (cap : Nat) (es : List (WheelStep γ)) :
    (run Wheel.step (.init cap : Wheel γ) es).Counted ∧
      (run Wheel.step (.init cap : Wheel γ) es).sched.slots.length = cap := by
  have hinv := run_move (P := fun w : Wheel γ => w.Settled ∧ w.Counted ∧ w.sched.slots.length = cap)
    (fun ⟨hsettled, hcounted, hlen⟩ hmove =>
      ⟨hsettled.move hmove, counted_move hsettled hcounted hmove, (length_move hmove).trans hlen⟩)
    ⟨settled_init cap, counted_init cap, List.length_replicate⟩ es
  exact hinv.2

-- Room for a timer in the middle of a sweep: the slots that were used when it
-- began and the timers added since leave one free. The slot of the one-shot whose
-- callback asks is still used.
theorem add_in_sweep_iff (cap : Nat) (es : List (WheelStep γ)) {sw : Sweep}
    (hsweep : (run Wheel.step (.init cap) es).sweep = some sw) (nowMs : UInt32)
    {delayMs periodMs : UInt32} (hdelay : delayMs ≤ schedMaxDelayMs)
    (hperiod : periodMs ≤ schedMaxDelayMs) (cb : γ) :
    ((run Wheel.step (.init cap) es).add nowMs delayMs periodMs (some cb)).1 = .ok ↔
      sw.used + ((run Wheel.step (.init cap) es).issued.length - sw.issued) < cap := by
  obtain ⟨hcounted, hlen⟩ := counted_run cap es
  rw [← (hcounted sw hsweep).2]
  have hok := add_ok_iff (run Wheel.step (.init cap) es).sched nowMs hdelay hperiod
    (Tag.mk (run Wheel.step (.init cap) es).issued.length cb)
  rw [hlen] at hok
  exact hok

theorem add_in_sweep_two :
    ((run Wheel.step (.init 2) [.add 0 0 0 (some 0), .begin 0, .runNext]).add 0 5 0
      (some 0)).1 = .ok ↔
      1 + ((run Wheel.step (.init 2) [.add 0 0 0 (some 0), .begin 0, .runNext]).issued.length -
        1) < 2 :=
  add_in_sweep_iff 2 [.add 0 0 0 (some 0), .begin 0, .runNext]
    (show _ = some ⟨0, 1, 1⟩ by decide) 0 (by decide) (by decide) 0

-- A table of one slot: its one-shot cannot arm itself again, neither in single
-- steps nor in a sweep.
theorem rearm_refused :
    ((run Wheel.step (.init 1) [.add 0 0 0 (some 0), .begin 0, .runNext]).add 0 5 0
      (some 0)).1 = .noMem ∧
    (((run Wheel.step (.init 1) [.add 0 0 0 (some 0)]).fire
      (fun (cb : Nat) _ => .add 0 5 0 (some cb) fun err _ => .done err) 0 .ok).map
        fun r => (r.1, r.2.2)) = some (1, .noMem) := by
  decide +kernel

end Room

end Espos.Flow
