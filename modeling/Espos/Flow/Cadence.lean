import Espos.Flow.Timers

-- How long the loop may sleep, and the deadlines of the periodic timers.

namespace Espos.Flow

open Espos.Clock Espos.Run

section Wait

variable {ι : Type*} {nowMs : UInt32}

-- The time left until a timer is due.
def wait (nowMs : UInt32) (t : Timer ι) : UInt32 :=
  if schedReached nowMs t.dueMs then 0 else t.dueMs - nowMs

def Live (s : Sched ι) (t : Timer ι) : Prop :=
  some t ∈ s.slots ∧ t.cancelled = false

def shorter (nowMs : UInt32) (best : UInt32) : Option (Timer ι) → UInt32
  | none => best
  | some t => if t.cancelled then best else if wait nowMs t < best then wait nowMs t else best

theorem nextDue_eq (s : Sched ι) (nowMs : UInt32) :
    s.nextDue nowMs = s.slots.foldl (shorter nowMs) 0xFFFFFFFF := rfl

theorem shorter_le (best : UInt32) (a : Option (Timer ι)) : shorter nowMs best a ≤ best := by
  cases a with
  | none => exact UInt32.le_refl best
  | some t =>
    rw [shorter]
    by_cases hlive : t.cancelled = true
    · rw [if_pos hlive]
      exact UInt32.le_refl best
    · rw [if_neg hlive]
      by_cases hlt : wait nowMs t < best
      · rw [if_pos hlt]
        exact UInt32.le_of_lt hlt
      · rw [if_neg hlt]
        exact UInt32.le_refl best

theorem foldl_shorter_le (slots : List (Option (Timer ι))) (best : UInt32) :
    slots.foldl (shorter nowMs) best ≤ best ∧
      ∀ t, some t ∈ slots → t.cancelled = false →
        slots.foldl (shorter nowMs) best ≤ wait nowMs t := by
  induction slots generalizing best with
  | nil => exact ⟨UInt32.le_refl best, fun t ht => by cases ht⟩
  | cons a slots ih =>
    obtain ⟨hle, hrest⟩ := ih (shorter nowMs best a)
    refine ⟨UInt32.le_trans hle (shorter_le best a), fun t ht hlive => ?_⟩
    rcases List.mem_cons.mp ht with rfl | ht
    · refine UInt32.le_trans hle ?_
      rw [shorter, hlive, if_neg Bool.false_ne_true]
      by_cases hlt : wait nowMs t < best
      · rw [if_pos hlt]
        exact UInt32.le_refl _
      · rw [if_neg hlt]
        exact UInt32.not_lt.mp hlt
    · exact hrest t ht hlive

theorem foldl_shorter_mem (nowMs : UInt32) (slots : List (Option (Timer ι))) (best : UInt32) :
    slots.foldl (shorter nowMs) best = best ∨
      ∃ t, some t ∈ slots ∧ t.cancelled = false ∧
        slots.foldl (shorter nowMs) best = wait nowMs t := by
  induction slots generalizing best with
  | nil => exact .inl rfl
  | cons a slots ih =>
    rw [List.foldl_cons]
    rcases ih (shorter nowMs best a) with hbest | ⟨t, ht, hlive, hwait⟩
    · rw [hbest]
      cases a with
      | none => exact .inl rfl
      | some t =>
        rw [shorter]
        by_cases hlive : t.cancelled = true
        · exact .inl (if_pos hlive)
        · rw [if_neg hlive]
          by_cases hlt : wait nowMs t < best
          · exact .inr ⟨t, List.mem_cons_self .., Bool.not_eq_true _ ▸ hlive, if_pos hlt⟩
          · exact .inl (if_neg hlt)
    · exact .inr ⟨t, List.mem_cons_of_mem _ ht, hlive, hwait⟩

-- No timer is due before the time the loop may sleep, and one is due then.
theorem nextDue_le {s : Sched ι} {t : Timer ι} (nowMs : UInt32) (h : Live s t) :
    s.nextDue nowMs ≤ wait nowMs t := by
  rw [nextDue_eq]
  exact (foldl_shorter_le s.slots _).2 t h.1 h.2

theorem nextDue_attained (s : Sched ι) (nowMs : UInt32) :
    s.nextDue nowMs = 0xFFFFFFFF ∨ ∃ t, Live s t ∧ s.nextDue nowMs = wait nowMs t := by
  rw [nextDue_eq]
  rcases foldl_shorter_mem nowMs s.slots 0xFFFFFFFF with hbest | ⟨t, ht, hlive, hwait⟩
  · exact .inl hbest
  · exact .inr ⟨t, ⟨ht, hlive⟩, hwait⟩

theorem wait_eq_zero {t : Timer ι} : wait nowMs t = 0 ↔ schedReached nowMs t.dueMs = true := by
  rw [wait]
  by_cases hdue : schedReached nowMs t.dueMs = true
  · simp [hdue]
  · rw [if_neg hdue]
    refine iff_of_false (fun hzero => hdue ?_) hdue
    obtain rfl : t.dueMs = nowMs := by
      have hsub := congrArg (· + nowMs) hzero
      simpa using hsub
    simp [schedReached, ahead]

theorem reached_iff {a b : UInt32} : schedReached a b = true ↔ (a - b).toNat < 2147483648 := by
  have hlt := (a - b).toNat_lt
  rw [schedReached, decide_eq_true_eq, ahead]
  by_cases hnear : (a - b).toNat < 2147483648
  · rw [if_pos hnear]
    omega
  · rw [if_neg hnear]
    omega

-- A timer does not get due while the loop sleeps less than its wait.
theorem not_reached_add {t : Timer ι} {e : UInt32} (he : e < wait nowMs t) :
    schedReached (nowMs + e) t.dueMs = false := by
  have hnot : ¬ schedReached nowMs t.dueMs = true := by
    intro hdue
    rw [wait, if_pos hdue] at he
    exact absurd he (UInt32.not_lt.mpr (UInt32.zero_le))
  rw [wait, if_neg hnot, UInt32.lt_iff_toNat_lt] at he
  rw [reached_iff] at hnot
  rw [← Bool.not_eq_true, reached_iff]
  have hn := nowMs.toNat_lt
  have hd := t.dueMs.toNat_lt
  have hel := e.toNat_lt
  rw [toNat_sub_of] at hnot he ⊢
  rw [UInt32.toNat_add]
  split_ifs at * <;> omega

theorem reached_add_wait {t : Timer ι} (h : wait nowMs t ≠ 0) :
    schedReached (nowMs + wait nowMs t) t.dueMs = true := by
  have hnot : ¬ schedReached nowMs t.dueMs = true := fun hdue => h (wait_eq_zero.mpr hdue)
  rw [wait, if_neg hnot]
  have hmeet : nowMs + (t.dueMs - nowMs) = t.dueMs := by
    rw [UInt32.add_comm, UInt32.sub_add_cancel]
  rw [hmeet, reached_iff, UInt32.sub_self]
  decide

end Wait

section Period

variable {ι : Type*} {nowMs : UInt32}

theorem overdue_add (n : UInt32) {p : UInt32} (hp : p ≠ 0) :
    n - n % p + p = UInt32.ofNat (n.toNat / p.toNat + 1) * p := by
  have hpos : 0 < p.toNat := Nat.pos_of_ne_zero fun h => hp (UInt32.toNat_inj.mp h)
  have hle : n % p ≤ n := by
    rw [UInt32.le_iff_toNat_le, UInt32.toNat_mod]
    exact Nat.mod_le _ _
  have hdiv : n.toNat - n.toNat % p.toNat = n.toNat / p.toNat * p.toNat := by
    have hsplit := Nat.div_add_mod' n.toNat p.toNat
    omega
  apply UInt32.toNat_inj.mp
  rw [UInt32.toNat_add, UInt32.toNat_sub_of_le _ _ hle, UInt32.toNat_mod, UInt32.toNat_mul,
    UInt32.toNat_ofNat', Nat.mod_mul_mod, Nat.add_mul, Nat.one_mul, hdiv]

theorem add_sub_add (a b c : UInt32) : a + b - (a + c) = b - c := by
  apply UInt32.toNat_inj.mp
  have ha := a.toNat_lt
  have hb := b.toNat_lt
  have hc := c.toNat_lt
  rw [toNat_sub_of, toNat_sub_of, UInt32.toNat_add, UInt32.toNat_add]
  split_ifs <;> omega

-- The next deadline of a timer that has just been due: some periods later, and
-- the first that is not yet due.
theorem mark_period {t : Timer ι} (hdue : schedReached nowMs t.dueMs = true)
    (hperiod : t.periodMs ≠ 0) (hrange : t.periodMs ≤ schedMaxDelayMs) :
    (∃ k : Nat, (Sched.mark nowMs t).dueMs = t.dueMs + UInt32.ofNat k * t.periodMs) ∧
      schedReached nowMs (Sched.mark nowMs t).dueMs = false ∧
      ((Sched.mark nowMs t).dueMs - nowMs).toNat ≤ t.periodMs.toNat := by
  have hpos : 0 < t.periodMs.toNat := Nat.pos_of_ne_zero fun h => hperiod (UInt32.toNat_inj.mp h)
  have hmax : t.periodMs.toNat ≤ 2147483647 := UInt32.le_iff_toNat_le.mp hrange
  obtain ⟨late, rfl⟩ : ∃ late, nowMs = t.dueMs + late :=
    ⟨nowMs - t.dueMs, by rw [UInt32.add_comm, UInt32.sub_add_cancel]⟩
  have hzero : t.dueMs + late - t.dueMs = late := by
    rw [UInt32.add_comm, UInt32.add_sub_cancel]
  have hlate : late.toNat < 2147483648 := by
    rw [← hzero]
    exact reached_iff.mp hdue
  rw [Sched.mark, if_neg hperiod]
  dsimp only
  rw [hzero]
  by_cases hskip : schedReached (t.dueMs + late) (t.dueMs + t.periodMs) = true
  · rw [if_pos hskip]
    refine ⟨⟨_, by rw [overdue_add late hperiod]⟩, ?_⟩
    have hmod := Nat.mod_lt late.toNat hpos
    have hmodLe := Nat.mod_le late.toNat t.periodMs.toNat
    have hnext : (late - late % t.periodMs + t.periodMs).toNat =
        late.toNat - late.toNat % t.periodMs.toNat + t.periodMs.toNat := by
      rw [UInt32.toNat_add, toNat_sub_of, UInt32.toNat_mod, if_pos hmodLe]
      omega
    rw [← Bool.not_eq_true, reached_iff, add_sub_add, add_sub_add, toNat_sub_of, toNat_sub_of,
      hnext]
    split_ifs <;> omega
  · rw [if_neg hskip]
    refine ⟨⟨1, by rw [UInt32.ofNat_one, UInt32.one_mul]⟩, Bool.not_eq_true _ ▸ hskip, ?_⟩
    rw [reached_iff, add_sub_add, toNat_sub_of] at hskip
    rw [add_sub_add, toNat_sub_of]
    split_ifs at * <;> omega

end Period

variable {γ : Type} {w : Wheel γ} {nowMs : UInt32}

-- The deadline is the first one of the timer and a whole number of periods.
def OnBeat (issued : List Ticket) (t : Timer (Tag γ)) : Prop :=
  ∃ k : Nat, ∃ ticket, issued[t.cb.serial]? = some ticket ∧
    t.dueMs = ticket.dueMs + UInt32.ofNat k * t.periodMs

structure Wheel.Regular (w : Wheel γ) : Prop where
  range : ∀ (i : Nat) (t : Timer (Tag γ)), w.sched.slots[i]? = some (some t) →
    t.periodMs ≤ schedMaxDelayMs
  beat : ∀ (i : Nat) (t : Timer (Tag γ)), w.sched.slots[i]? = some (some t) → OnBeat w.issued t

theorem regular_init (cap : Nat) : (Wheel.init cap : Wheel γ).Regular :=
  ⟨fun _ _ h => absurd h slots_init, fun _ _ h => absurd h slots_init⟩

theorem OnBeat.age {issued : List Ticket} {t u : Timer (Tag γ)} (h : OnBeat issued t)
    (hages : Ages t u) (hrange : t.periodMs ≤ schedMaxDelayMs) : OnBeat issued u := by
  obtain ⟨k, ticket, hget, hbeat⟩ := h
  rw [OnBeat, hages.cb, hages.periodMs]
  rcases hages.dueMs with hsame | ⟨nowMs, hdue, hmark⟩
  · exact ⟨k, ticket, hget, hsame.trans hbeat⟩
  · by_cases hperiod : t.periodMs = 0
    · rw [Sched.mark, if_pos hperiod] at hmark
      exact ⟨k, ticket, hget, hmark.trans hbeat⟩
    · obtain ⟨⟨k', hnext⟩, -⟩ := mark_period hdue hperiod hrange
      refine ⟨k + k', ticket, hget, ?_⟩
      rw [hmark, hnext, hbeat, UInt32.ofNat_add, UInt32.add_mul, UInt32.add_assoc]

theorem Wheel.Regular.move {w' : Wheel γ} (h : w.Regular) (hmove : Move w w') : w'.Regular := by
  constructor
  · intro i u hi
    rcases slot_move hmove hi with ⟨t, ht, hages⟩ | hadded
    · rw [hages.periodMs]
      exact h.range i t ht
    · exact hadded.periodMs
  · intro i u hi
    rcases slot_move hmove hi with ⟨t, ht, hages⟩ | hadded
    · obtain ⟨k, ticket, hget, hbeat⟩ := (h.beat i t ht).age hages (h.range i t ht)
      exact ⟨k, ticket, issued_kept hmove hget, hbeat⟩
    · refine ⟨0, ⟨handleMake i u.gen, u.dueMs⟩, ?_, ?_⟩
      · rw [hadded.issued, hadded.serial, List.getElem?_concat_length]
      · change u.dueMs = u.dueMs + 0 * u.periodMs
        rw [UInt32.zero_mul, UInt32.add_zero]

theorem regular_run (cap : Nat) (es : List (WheelStep γ)) :
    (run Wheel.step (.init cap : Wheel γ) es).Regular :=
  run_move (fun h hmove => h.move hmove) (regular_init cap) es

section Sleep

variable {σ : Type} (script : γ → σ → Body γ σ) (x : σ)

theorem ran_pos_iff (h : w.Settled) (hsweep : w.sweep = none) :
    0 < (w.ran script nowMs x).length ↔ ∃ i t, Due w nowMs i t := by
  constructor
  · intro hpos
    obtain ⟨p, hp⟩ := List.exists_mem_of_length_pos hpos
    exact ⟨p.1, p.2, ran_due script x h hsweep p hp⟩
  · rintro ⟨i, t, hdue⟩
    obtain ⟨hslot, heligible⟩ := (eligible_iff_due h hsweep).mpr hdue
    have hlt := (List.getElem?_eq_some_iff.mp hdue.1).1
    obtain ⟨cap, hcap⟩ : ∃ cap, w.sched.slots.length = cap + 1 :=
      Nat.exists_eq_succ_of_ne_zero (by omega)
    cases hpick : w.sched.started.pick nowMs with
    | none =>
      rw [not_eligible_of_pick hpick hslot] at heligible
      cases heligible
    | some p =>
      rw [Wheel.ran, hcap, Sched.runs, hpick]
      exact Nat.succ_pos _

theorem fire_count (h : w.Settled) (hsweep : w.sweep = none) :
    (w.fire script nowMs x).map Prod.fst = some (w.ran script nowMs x).length := by
  obtain ⟨s', w', x', -, -, hfire, -⟩ := fire_eq script h hsweep nowMs x
  rw [hfire]
  rfl

theorem live_iff (h : w.Settled) (hsweep : w.sweep = none) {t : Timer (Tag γ)} :
    Live w.sched t ↔ ∃ i : Nat, w.sched.slots[i]? = some (some t) := by
  constructor
  · rintro ⟨hmem, -⟩
    exact List.mem_iff_getElem?.mp hmem
  · rintro ⟨i, hi⟩
    exact ⟨List.mem_of_getElem? hi, (h.quiet (by rw [h.firing, hsweep]; rfl) i t hi).1⟩

theorem nextDue_eq_zero_iff (h : w.Settled) (hsweep : w.sweep = none) :
    w.sched.nextDue nowMs = 0 ↔ ∃ i t, Due w nowMs i t := by
  constructor
  · intro hzero
    rcases nextDue_attained w.sched nowMs with hnone | ⟨t, hlive, hwait⟩
    · rw [hzero] at hnone
      cases hnone
    · obtain ⟨i, hi⟩ := (live_iff h hsweep).mp hlive
      exact ⟨i, t, hi, wait_eq_zero.mp (hwait.symm.trans hzero)⟩
  · rintro ⟨i, t, hi, hdue⟩
    have hle := nextDue_le nowMs ((live_iff h hsweep).mpr ⟨i, hi⟩)
    rw [wait_eq_zero.mpr hdue] at hle
    exact UInt32.le_zero_iff.mp hle

-- A loop that sleeps as long as it may misses no deadline and never wakes early.
theorem nextDue_sleep (h : w.Settled) (hsweep : w.sweep = none)
    (hpos : 0 < w.sched.nextDue nowMs) (hsome : w.sched.nextDue nowMs < 0xFFFFFFFF) :
    (∀ e < w.sched.nextDue nowMs, ¬ ∃ i t, Due w (nowMs + e) i t) ∧
      ∃ i t, Due w (nowMs + w.sched.nextDue nowMs) i t := by
  constructor
  · rintro e he ⟨i, t, hi, hdue⟩
    have hle := nextDue_le nowMs ((live_iff h hsweep).mpr ⟨i, hi⟩)
    rw [not_reached_add (UInt32.lt_of_lt_of_le he hle)] at hdue
    cases hdue
  · rcases nextDue_attained w.sched nowMs with hnone | ⟨t, hlive, hwait⟩
    · rw [hnone] at hsome
      exact absurd hsome (UInt32.lt_irrefl _)
    · obtain ⟨i, hi⟩ := (live_iff h hsweep).mp hlive
      rw [hwait] at hpos ⊢
      refine ⟨i, t, hi, reached_add_wait fun hzero => ?_⟩
      rw [hzero] at hpos
      exact absurd hpos (UInt32.lt_irrefl 0)

-- Where a timer stands after a sweep that found it in its slot.
theorem due_after_fire (h : w.Settled) (hsweep : w.sweep = none) (hregular : w.Regular)
    {s' : Sched (Tag γ)} (hswept : Swept nowMs w.sched.started (w.ran script nowMs x) s')
    {i : Nat} {t u : Timer (Tag γ)} (hi : w.sched.slots[i]? = some (some u))
    (ht : (s'.slots.map Sched.unwind)[i]? = some (some t)) (hperiod : t.periodMs ≠ 0) :
    schedReached nowMs t.dueMs = false ∧
      ((i, u) ∈ w.ran script nowMs x → (t.dueMs - nowMs).toNat ≤ t.periodMs.toNat) ∧
      ((i, u) ∉ w.ran script nowMs x → t.dueMs = u.dueMs) := by
  obtain ⟨v, hv, hlive, rfl⟩ := slot_of_unwind ht
  by_cases hran : (i, u) ∈ w.ran script nowMs x
  · obtain ⟨b, hb, hkept⟩ := hswept.ran hran
    rw [hv] at hb
    obtain rfl := Option.some.inj hb
    have hdue := (ran_due script x h hsweep _ hran).2
    cases hkept with
    | same =>
      dsimp only at hperiod ⊢
      rw [mark_periodMs] at hperiod ⊢
      obtain ⟨-, hlater, hle⟩ := mark_period hdue hperiod (hregular.range i u hi)
      exact ⟨hlater, fun _ => hle, fun hnot => absurd hran hnot⟩
    | cancelled => cases hlive
  · have hother : ∀ t, (i, t) ∉ w.ran script nowMs x := by
      intro t ht
      have hslot := (ran_due script x h hsweep _ ht).1
      rw [hi] at hslot
      obtain rfl := Option.some.inj (Option.some.inj hslot)
      exact hran ht
    obtain ⟨b, hb, hkept⟩ := hswept.rest hi hother
    rw [hv] at hb
    obtain rfl := Option.some.inj hb
    cases hkept with
    | same =>
      refine ⟨?_, fun hmem => absurd hmem hran, fun _ => rfl⟩
      rw [← Bool.not_eq_true]
      intro hdue
      have heligible := ((eligible_iff_due h hsweep).mpr ⟨hi, hdue⟩).2
      rw [not_eligible_of_pick hswept.finished hv] at heligible
      cases heligible
    | cancelled => cases hlive

end Sleep

-- The sleep agrees with the sweep. The deadlines of periodic timers keep their
-- beat, and those a sweep finds are behind it when it ends; one that it runs is at
-- most a period ahead, and any other stays where it was.
theorem sleep_and_cadence (cap : Nat) (es : List (WheelStep γ))
    (hsweep : (run Wheel.step (.init cap) es).sweep = none) (nowMs : UInt32) {σ : Type}
    (script : γ → σ → Body γ σ) (x : σ) :
    let w := run Wheel.step (.init cap) es
    ∃ n w' x', w.fire script nowMs x = some (n, w', x') ∧
      (w.sched.nextDue nowMs = 0 ↔ 0 < n) ∧
      (∀ d, w.sched.nextDue nowMs = d → 0 < d → d < 0xFFFFFFFF →
        (∀ e < d, (w.fire script (nowMs + e) x).map Prod.fst = some 0) ∧
        ∃ m, 0 < m ∧ (w.fire script (nowMs + d) x).map Prod.fst = some m) ∧
      ∀ (i : Nat) (t : Timer (Tag γ)), w'.sched.slots[i]? = some (some t) → t.periodMs ≠ 0 →
        OnBeat w'.issued t ∧ ∀ u, w.sched.slots[i]? = some (some u) →
          schedReached nowMs t.dueMs = false ∧
          ((i, u) ∈ w.ran script nowMs x → (t.dueMs - nowMs).toNat ≤ t.periodMs.toNat) ∧
          ((i, u) ∉ w.ran script nowMs x → t.dueMs = u.dueMs) := by
  intro w
  have h : w.Settled := settled_run cap es
  obtain ⟨s', w', x', -, hswept, hfire, fs, hsteps⟩ := fire_eq script h hsweep nowMs x
  refine ⟨_, _, _, hfire, ?_, ?_, ?_⟩
  · rw [ran_pos_iff script x h hsweep, nextDue_eq_zero_iff h hsweep]
  · rintro d rfl hpos hsome
    obtain ⟨hbefore, hthen⟩ := nextDue_sleep h hsweep hpos hsome
    refine ⟨fun e he => ?_, _, (ran_pos_iff script x h hsweep).mpr hthen,
      fire_count script x h hsweep⟩
    rw [fire_count script x h hsweep]
    have hnone := mt (ran_pos_iff script x h hsweep).mp (hbefore e he)
    rw [Nat.eq_zero_of_not_pos hnone]
  · intro i t ht hperiod
    have hregular : (w'.ended s').Regular := by
      rw [hsteps]
      exact run_move (fun h hmove => h.move hmove) (regular_run cap es) fs
    exact ⟨hregular.beat i t ht, fun u hu =>
      due_after_fire script x h hsweep (regular_run cap es) hswept hu ht hperiod⟩

theorem sleep_and_cadence_poll :
    ∃ n w' x', (run Wheel.step (.init 2) [.add 0 5 10 (some 0)]).fire
        (fun (_ : Nat) _ => .done ()) 37 () = some (n, w', x') ∧
      ((run Wheel.step (.init 2) [.add 0 5 10 (some 0)]).sched.nextDue 37 = 0 ↔ 0 < n) := by
  obtain ⟨n, w', x', hfire, hsleep, -⟩ := sleep_and_cadence 2 [.add 0 5 10 (some 0)] (by decide) 37
    (fun (_ : Nat) _ => .done ()) ()
  exact ⟨n, w', x', hfire, hsleep⟩

-- A first delay of a hundred periods is not shortened by a sweep, and a timer that
-- a callback adds in the sweep may be due at once.
theorem cadence_of_new :
    ((run Wheel.step (.init 2) [.add 0 1000 10 (some 0)]).fire
      (fun (_ : Nat) _ => .done ()) 0 ()).map
        (fun r => r.2.1.sched.slots.map (Option.map fun t => (t.dueMs, t.periodMs))) =
      some [some (1000, 10), none] ∧
    ((run Wheel.step (.init 2) [.add 0 0 0 (some 0)]).fire
      (fun (cb : Nat) _ => .add 7 0 10 (some cb) fun _ _ => .done ()) 7 ()).map
        (fun r => r.2.1.sched.slots.map (Option.map fun t => (t.dueMs, t.periodMs))) =
      some [none, some (7, 10)] := by
  decide +kernel

end Espos.Flow
