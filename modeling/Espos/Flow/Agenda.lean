import Espos.Flow.Sched
import Mathlib.Data.List.Nodup
import Mathlib.Data.List.Sigma
import Mathlib.Tactic.SplitIfs

-- What a sweep runs, and in which order.

namespace Espos.Flow

open Espos.Best Espos.Clock

variable {ι τ : Type*}

@[simp] theorem add_firing (s : Sched ι) (nowMs delayMs periodMs : UInt32) (cb : Option ι) :
    (s.add nowMs delayMs periodMs cb).2.2.firing = s.firing := by
  cases cb with
  | none => rfl
  | some cb =>
    rw [Sched.add]
    split_ifs
    · rfl
    · cases s.slots.findIdx? Option.isNone <;> rfl

@[simp] theorem cancel_firing (s : Sched ι) (h : UInt32) : (s.cancel h).2.firing = s.firing := by
  rw [Sched.cancel]
  cases s.resolve h <;> rfl

-- How long the timer has been due.
def overdue (nowMs : UInt32) (t : Timer ι) : Nat :=
  (nowMs - t.dueMs).toNat

-- The earlier deadline first, and of two that are equal the lower slot.
def comesFirst (nowMs : UInt32) (p q : Nat × Timer ι) : Bool :=
  overdue nowMs q.2 < overdue nowMs p.2 ||
    (overdue nowMs p.2 = overdue nowMs q.2 && p.1 ≤ q.1)

theorem comesFirst_iff {nowMs : UInt32} {i j : Nat} {t u : Timer ι} :
    comesFirst nowMs (i, t) (j, u) = true ↔
      overdue nowMs u < overdue nowMs t ∨ overdue nowMs t = overdue nowMs u ∧ i ≤ j := by
  simp [comesFirst]

-- The timers a sweep would run, in their order, if none of them changed the table.
def Sched.agenda (s : Sched ι) (nowMs : UInt32) : List (Nat × Timer ι) :=
  (s.slots.zipIdx.filterMap fun p =>
    match p.1 with
    | none => none
    | some t => if Sched.eligible nowMs (some t) then some (p.2, t) else none).mergeSort
      (comesFirst nowMs)

theorem overdue_lt {nowMs : UInt32} {t : Timer ι} (h : Sched.eligible nowMs (some t) = true) :
    overdue nowMs t < 2147483648 := by
  rw [Sched.eligible, Bool.and_eq_true] at h
  obtain ⟨-, hdue⟩ := h
  rw [schedReached, decide_eq_true_eq, ahead] at hdue
  have hlt := (nowMs - t.dueMs).toNat_lt
  rw [overdue]
  split at hdue <;> omega

-- Of two due timers the earlier deadline is the one that is longer overdue.
theorem earlier_iff {nowMs : UInt32} {t u : Timer ι}
    (ht : Sched.eligible nowMs (some t) = true) (hu : Sched.eligible nowMs (some u) = true) :
    Sched.earlier (some t) (some u) = true ↔ overdue nowMs u < overdue nowMs t := by
  have htlt := overdue_lt ht
  have hult := overdue_lt hu
  rw [Sched.earlier, decide_eq_true_eq, ahead]
  simp only [overdue, toNat_sub_of] at htlt hult ⊢
  have hn := nowMs.toNat_lt
  have h1 := t.dueMs.toNat_lt
  have h2 := u.dueMs.toNat_lt
  split_ifs at * <;> omega

-- What is still to be run: everything eligible, in order, once.
structure Agenda (nowMs : UInt32) (s : Sched ι) (order : List (Nat × Timer ι)) : Prop where
  mem : ∀ p : Nat × Timer ι, p ∈ order ↔
    s.slots[p.1]? = some (some p.2) ∧ Sched.eligible nowMs (some p.2) = true
  sorted : order.Pairwise fun p q => comesFirst nowMs p q = true
  nodup : order.Nodup

theorem agenda_spec (s : Sched ι) (nowMs : UInt32) : Agenda nowMs s (s.agenda nowMs) := by
  constructor
  case mem =>
    rintro ⟨i, t⟩
    rw [Sched.agenda, List.mem_mergeSort, List.mem_filterMap]
    constructor
    · rintro ⟨⟨slot, j⟩, hslot, hsome⟩
      cases slot with
      | none => cases hsome
      | some u =>
        dsimp only at hsome
        split_ifs at hsome with hdue
        cases hsome
        exact ⟨List.mk_mem_zipIdx_iff_getElem?.mp hslot, hdue⟩
    · rintro ⟨hslot, hdue⟩
      refine ⟨(some t, i), List.mk_mem_zipIdx_iff_getElem?.mpr hslot, ?_⟩
      exact if_pos hdue
  case sorted =>
    apply List.pairwise_mergeSort
    · intro a b c hab hbc
      rw [comesFirst_iff] at hab hbc ⊢
      omega
    · intro a b
      rw [Bool.or_eq_true, comesFirst_iff, comesFirst_iff]
      omega
  case nodup =>
    rw [Sched.agenda, (List.mergeSort_perm _ _).nodup_iff]
    apply List.Nodup.filterMap ?_ (List.Nodup.of_map _ (List.nodup_zipIdx_map_snd s.slots))
    rintro ⟨slot, i⟩ ⟨slot', j⟩ ⟨k, t⟩ h h'
    cases slot with
    | none => cases h
    | some u =>
      cases slot' with
      | none => cases h'
      | some u' =>
        simp only [Option.mem_def] at h h'
        split_ifs at h h'
        cases h
        cases h'
        rfl

variable {nowMs : UInt32} {s : Sched ι} {order : List (Nat × Timer ι)}

theorem pick_of_agenda_nil (h : Agenda nowMs s []) : s.pick nowMs = none := by
  rw [Sched.pick]
  cases helect : elect (Sched.eligible nowMs) Sched.earlier s.slots with
  | none => rfl
  | some p =>
    obtain ⟨i, slot⟩ := p
    cases slot with
    | none => rfl
    | some t =>
      obtain ⟨-, hget, hhit⟩ := electFrom_none_mem helect
      have hmem := (h.mem (i, t)).mpr ⟨hget, hhit⟩
      cases hmem

-- The loop over the slots finds the head of the agenda.
theorem pick_of_agenda_cons {i : Nat} {t : Timer ι} (h : Agenda nowMs s ((i, t) :: order)) :
    s.pick nowMs = some (i, t) := by
  obtain ⟨hslot, hdue⟩ : s.slots[i]? = some (some t) ∧ Sched.eligible nowMs (some t) = true :=
    (h.mem (i, t)).mp (by simp)
  have hfirst := (List.pairwise_cons.mp h.sorted).1
  have hother : ∀ j u, j ≠ i → s.slots[j]? = some (some u) →
      Sched.eligible nowMs (some u) = true → comesFirst nowMs (i, t) (j, u) = true := by
    intro j u hji hj hu
    rcases List.mem_cons.mp ((h.mem (j, u)).mpr ⟨hj, hu⟩) with hhead | hrest
    · cases hhead
      exact absurd rfl hji
    · exact hfirst _ hrest
  rw [Sched.pick, elect_eq_of_first hslot hdue]
  · intro j slot hji hj hu
    cases slot with
    | none => cases hu
    | some u =>
      have hcomes := hother j u (by omega) hj hu
      rw [earlier_iff hdue hu]
      rw [comesFirst_iff] at hcomes
      omega
  · intro j slot hij hj hu
    cases slot with
    | none => cases hu
    | some u =>
      have hcomes := hother j u (by omega) hj hu
      rw [← Bool.not_eq_true, earlier_iff hu hdue]
      rw [comesFirst_iff] at hcomes
      omega

theorem not_eligible_mark (t : Timer ι) :
    Sched.eligible nowMs (some (Sched.mark nowMs t)) = false := by
  have hswept : (Sched.mark nowMs t).swept = true := by
    rw [Sched.mark]
    split_ifs <;> rfl
  simp [Sched.eligible, hswept]

-- The timer that is run leaves the agenda, and nothing else does.
theorem Agenda.tail {i : Nat} {t : Timer ι} (h : Agenda nowMs s ((i, t) :: order)) :
    Agenda nowMs { s with slots := s.slots.set i (some (Sched.mark nowMs t)) } order := by
  obtain ⟨hnotin, hnodup⟩ := List.nodup_cons.mp h.nodup
  obtain ⟨hslot, -⟩ := (h.mem (i, t)).mp (by simp)
  have hlt := (List.getElem?_eq_some_iff.mp hslot).1
  refine ⟨?_, (List.pairwise_cons.mp h.sorted).2, hnodup⟩
  rintro ⟨j, u⟩
  have hmem := h.mem (j, u)
  by_cases hji : j = i
  · subst hji
    simp only [List.getElem?_set_self hlt, Option.some.injEq]
    constructor
    · intro hj
      have hslot' := (hmem.mp (List.mem_cons_of_mem _ hj)).1
      obtain rfl : t = u := by simpa [hslot] using hslot'
      exact absurd hj hnotin
    · rintro ⟨hmark, hdue⟩
      rw [← hmark, not_eligible_mark] at hdue
      cases hdue
  · simp only [List.getElem?_set_ne (Ne.symm hji)]
    rw [← hmem, List.mem_cons, or_iff_right]
    intro hhead
    cases hhead
    exact hji rfl

theorem Agenda.nodup_index (h : Agenda nowMs s order) : (order.map Prod.fst).Nodup := by
  apply h.nodup.map_on
  rintro ⟨i, t⟩ ht ⟨j, u⟩ hu hij
  dsimp only at hij
  subst hij
  have hslot := ((h.mem (i, t)).mp ht).1
  have hslot' := ((h.mem (i, u)).mp hu).1
  rw [hslot] at hslot'
  cases hslot'
  rfl

theorem Agenda.length_le (h : Agenda nowMs s order) : order.length ≤ s.slots.length := by
  have hsub : order.map Prod.fst ⊆ List.range s.slots.length := by
    intro i hi
    obtain ⟨p, hp, rfl⟩ := List.mem_map.mp hi
    exact List.mem_range.mpr (List.getElem?_eq_some_iff.mp ((h.mem p).mp hp).1).1
  simpa using (List.subperm_of_subset h.nodup_index hsub).length_le

section Callback

-- What a callback can do to a slot of the table that is being swept: a free slot
-- may be taken, and a timer be marked as cancelled.
inductive SlotKept : Option (Timer ι) → Option (Timer ι) → Prop where
  | free : SlotKept none none
  | taken (t : Timer ι) (hfresh : t.fresh = true) : SlotKept none (some t)
  | same (t : Timer ι) : SlotKept (some t) (some t)
  | cancelled (t : Timer ι) : SlotKept (some t) (some { t with cancelled := true })

theorem SlotKept.refl (a : Option (Timer ι)) : SlotKept a a := by
  cases a with
  | none => exact .free
  | some t => exact .same t

theorem SlotKept.trans {a b c : Option (Timer ι)} (h : SlotKept a b) (h' : SlotKept b c) :
    SlotKept a c := by
  cases h with
  | free => exact h'
  | taken t hfresh =>
    cases h' with
    | same => exact .taken t hfresh
    | cancelled => exact .taken _ hfresh
  | same t => exact h'
  | cancelled t =>
    cases h' with
    | same => exact .cancelled t
    | cancelled => exact .cancelled t

-- What callbacks make of a table.
structure Grows (s s' : Sched ι) : Prop where
  firing : s'.firing = s.firing
  length : s'.slots.length = s.slots.length
  slot : ∀ {i : Nat} {a : Option (Timer ι)}, s.slots[i]? = some a →
      ∃ b, s'.slots[i]? = some b ∧ SlotKept a b

theorem Grows.refl (s : Sched ι) : Grows s s :=
  ⟨rfl, rfl, fun h => ⟨_, h, .refl _⟩⟩

theorem Grows.trans {s s' s'' : Sched ι} (h : Grows s s') (h' : Grows s' s'') : Grows s s'' where
  firing := h'.firing.trans h.firing
  length := h'.length.trans h.length
  slot := by
    intro i a ha
    obtain ⟨b, hb, hab⟩ := h.slot ha
    obtain ⟨c, hc, hbc⟩ := h'.slot hb
    exact ⟨c, hc, hab.trans hbc⟩

theorem grows_set {s : Sched ι} {i : Nat} {a b : Option (Timer ι)} (ha : s.slots[i]? = some a)
    (hab : SlotKept a b) (seq : UInt32) :
    Grows s { s with slots := s.slots.set i b, seq := seq } where
  firing := rfl
  length := List.length_set
  slot := by
    intro j c hc
    by_cases hij : i = j
    · subst hij
      obtain rfl : a = c := Option.some.inj (ha.symm.trans hc)
      exact ⟨b, List.getElem?_set_self (List.getElem?_eq_some_iff.mp ha).1, hab⟩
    · exact ⟨c, by rw [List.getElem?_set_ne hij, hc], .refl c⟩

-- The lowest free slot.
theorem findIdx_isNone {slots : List (Option (Timer ι))} {i : Nat}
    (h : slots.findIdx? Option.isNone = some i) : slots[i]? = some none := by
  obtain ⟨hlt, hnone, -⟩ := List.findIdx?_eq_some_iff_getElem.mp h
  rw [List.getElem?_eq_getElem hlt, Option.isNone_iff_eq_none.mp hnone]

theorem add_grows {s : Sched ι} (hfiring : s.firing = true) (nowMs delayMs periodMs : UInt32)
    (cb : Option ι) : Grows s (s.add nowMs delayMs periodMs cb).2.2 := by
  cases cb with
  | none => exact .refl s
  | some cb =>
    rw [Sched.add]
    by_cases hrange : schedMaxDelayMs < delayMs ∨ schedMaxDelayMs < periodMs
    · rw [if_pos hrange]
      exact .refl s
    · rw [if_neg hrange]
      cases hfree : s.slots.findIdx? Option.isNone with
      | none => exact .refl s
      | some i => exact grows_set (findIdx_isNone hfree) (.taken _ hfiring) _

theorem resolve_eq_some {s : Sched ι} {h : UInt32} {i : Nat} {t : Timer ι}
    (hres : s.resolve h = some (i, t)) :
    h ≠ schedHandleNone ∧ i = handleIdx h ∧ s.slots[i]? = some (some t) ∧ t.cancelled = false ∧
      t.gen = handleGen h := by
  rw [Sched.resolve] at hres
  obtain ⟨hnone, hres⟩ := Option.ite_none_left_eq_some.mp hres
  cases hslot : s.slots[handleIdx h]? with
  | none =>
    rw [hslot] at hres
    cases hres
  | some a =>
    rw [hslot] at hres
    cases a with
    | none => cases hres
    | some u =>
      obtain ⟨hlive, hres⟩ := Option.ite_none_left_eq_some.mp hres
      obtain ⟨rfl, rfl⟩ := Prod.mk.inj (Option.some.inj hres)
      rw [not_or, Bool.not_eq_true, not_not] at hlive
      exact ⟨hnone, rfl, hslot, hlive⟩

theorem cancel_grows {s : Sched ι} (hfiring : s.firing = true) (h : UInt32) :
    Grows s (s.cancel h).2 := by
  rw [Sched.cancel]
  cases hres : s.resolve h with
  | none => exact .refl s
  | some p =>
    obtain ⟨-, -, hslot, -⟩ := resolve_eq_some hres
    dsimp only
    rw [if_pos hfiring]
    exact grows_set hslot (.cancelled p.2) s.seq

end Callback

section Runs

-- The timers a sweep runs, as they are when their callbacks are called.
def Sched.runs (call : ι → Sched ι → τ → Option (Sched ι × τ)) (nowMs : UInt32) :
    Nat → Sched ι → τ → List (Nat × Timer ι)
  | 0, _, _ => []
  | fuel + 1, s, x =>
    match s.pick nowMs with
    | none => []
    | some (i, t) =>
      (i, t) :: match call t.cb { s with slots := s.slots.set i (some (mark nowMs t)) } x with
        | none => []
        | some (s, x) => runs call nowMs fuel s x

-- Callbacks that come back, and leave the table as callbacks can.
def Behaves (call : ι → Sched ι → τ → Option (Sched ι × τ)) : Prop :=
  ∀ c s x, s.firing = true → ∃ s' x', call c s x = some (s', x') ∧ Grows s s'

variable {nowMs : UInt32} {s s' : Sched ι} {order : List (Nat × Timer ι)}

theorem eligible_kept {a : Option (Timer ι)} {u : Timer ι} (h : SlotKept a (some u))
    (hdue : Sched.eligible nowMs (some u) = true) : a = some u := by
  cases h with
  | taken t hfresh => simp [Sched.eligible, hfresh] at hdue
  | same t => rfl
  | cancelled t => simp [Sched.eligible] at hdue

-- Callbacks only take timers from the agenda.
theorem Agenda.shrink (h : Agenda nowMs s order) (hgrows : Grows s s') :
    ∃ order', order'.Sublist order ∧ Agenda nowMs s' order' := by
  refine ⟨order.filter fun p => (s'.slots[p.1]?).any (Sched.eligible nowMs), List.filter_sublist,
    ?_, h.sorted.filter _, h.nodup.filter _⟩
  rintro ⟨i, u⟩
  rw [List.mem_filter, h.mem]
  constructor
  · rintro ⟨⟨hslot, hdue⟩, hstill⟩
    obtain ⟨b, hb, hkept⟩ := hgrows.slot hslot
    rw [hb, Option.any_some] at hstill
    cases hkept with
    | same => exact ⟨hb, hdue⟩
    | cancelled => simp [Sched.eligible] at hstill
  · rintro ⟨hslot, hdue⟩
    have hlt : i < s.slots.length := by
      rw [← hgrows.length]
      exact (List.getElem?_eq_some_iff.mp hslot).1
    obtain ⟨b, hb, hkept⟩ := hgrows.slot (List.getElem?_eq_getElem hlt)
    obtain rfl : b = some u := Option.some.inj (hb.symm.trans hslot)
    rw [List.getElem?_eq_getElem hlt, eligible_kept hkept hdue]
    exact ⟨⟨rfl, hdue⟩, by rw [hb, Option.any_some, hdue]⟩

theorem pick_eq_some {i : Nat} {t : Timer ι}
    (h : s.pick nowMs = some (i, t)) :
    s.slots[i]? = some (some t) ∧ Sched.eligible nowMs (some t) = true := by
  have hagenda := agenda_spec s nowMs
  cases horder : s.agenda nowMs with
  | nil =>
    rw [horder] at hagenda
    rw [pick_of_agenda_nil hagenda] at h
    cases h
  | cons p order =>
    rw [horder] at hagenda
    rw [pick_of_agenda_cons hagenda] at h
    obtain ⟨rfl, rfl⟩ := Prod.mk.inj (Option.some.inj h)
    exact (hagenda.mem p).mp (List.mem_cons_self ..)

-- A timer that is due and still there is on the agenda, so the scan finds one.
theorem not_eligible_of_pick (hpick : s.pick nowMs = none) {i : Nat} {t : Timer ι}
    (hslot : s.slots[i]? = some (some t)) : Sched.eligible nowMs (some t) = false := by
  have h := agenda_spec s nowMs
  cases hagenda : s.agenda nowMs with
  | nil =>
    rw [hagenda] at h
    cases hdue : Sched.eligible nowMs (some t) with
    | false => rfl
    | true => exact absurd ((h.mem (i, t)).mpr ⟨hslot, hdue⟩) List.not_mem_nil
  | cons p order =>
    rw [hagenda] at h
    rw [pick_of_agenda_cons h] at hpick
    cases hpick

variable {call : ι → Sched ι → τ → Option (Sched ι × τ)}

theorem runs_sublist (hcall : Behaves call) (fuel : Nat) {x : τ} (hfiring : s.firing = true)
    (h : Agenda nowMs s order) : (s.runs call nowMs fuel x).Sublist order := by
  induction fuel generalizing s order x with
  | zero => exact List.nil_sublist _
  | succ fuel ih =>
    rw [Sched.runs]
    cases order with
    | nil =>
      rw [pick_of_agenda_nil h]
    | cons p order =>
      obtain ⟨i, t⟩ := p
      rw [pick_of_agenda_cons h]
      dsimp only
      obtain ⟨s', x', hcome, hgrows⟩ :=
        hcall t.cb { s with slots := s.slots.set i (some (Sched.mark nowMs t)) } x hfiring
      obtain ⟨order', hsub, h'⟩ := h.tail.shrink hgrows
      rw [hcome]
      exact ((ih (hgrows.firing.trans hfiring) h').trans hsub).cons_cons _

-- Where a sweep ends: everything it ran is marked, nothing else was touched but
-- by callbacks, and nothing that is due is left.
structure Swept (nowMs : UInt32) (s : Sched ι) (log : List (Nat × Timer ι)) (s' : Sched ι) :
    Prop where
  firing : s'.firing = s.firing
  length : s'.slots.length = s.slots.length
  ran : ∀ {i : Nat} {t : Timer ι}, (i, t) ∈ log →
      ∃ b, s'.slots[i]? = some b ∧ SlotKept (some (Sched.mark nowMs t)) b
  rest : ∀ {i : Nat} {a : Option (Timer ι)}, s.slots[i]? = some a → (∀ t, (i, t) ∉ log) →
      ∃ b, s'.slots[i]? = some b ∧ SlotKept a b
  finished : s'.pick nowMs = none

theorem swept_cons {i : Nat} {t : Timer ι} {log : List (Nat × Timer ι)} {s₁ : Sched ι}
    (hlt : i < s.slots.length) (hnot : ∀ u, (i, u) ∉ log)
    (hgrows : Grows { s with slots := s.slots.set i (some (Sched.mark nowMs t)) } s₁)
    (h : Swept nowMs s₁ log s') : Swept nowMs s ((i, t) :: log) s' where
  firing := h.firing.trans hgrows.firing
  length := h.length.trans (hgrows.length.trans List.length_set)
  ran := by
    intro j u hmem
    rcases List.mem_cons.mp hmem with hhead | hmem
    · obtain ⟨rfl, rfl⟩ := Prod.mk.inj hhead
      obtain ⟨b, hb, hkept⟩ := hgrows.slot (List.getElem?_set_self hlt)
      obtain ⟨c, hc, hkept'⟩ := h.rest hb hnot
      exact ⟨c, hc, hkept.trans hkept'⟩
    · exact h.ran hmem
  rest := by
    intro j a ha hj
    have hij : i ≠ j := by
      rintro rfl
      exact hj t (List.mem_cons_self ..)
    obtain ⟨b, hb, hkept⟩ := hgrows.slot ((List.getElem?_set_ne hij).trans ha)
    obtain ⟨c, hc, hkept'⟩ := h.rest hb fun u hu => hj u (List.mem_cons_of_mem _ hu)
    exact ⟨c, hc, hkept.trans hkept'⟩
  finished := h.finished

theorem sweep_spec (hcall : Behaves call) (fuel fired : Nat) {x : τ} (hfiring : s.firing = true)
    (h : Agenda nowMs s order) (hfuel : order.length ≤ fuel) :
    ∃ s' x', s.sweep call nowMs fuel fired x =
        some (fired + (s.runs call nowMs fuel x).length, s', x') ∧
      Swept nowMs s (s.runs call nowMs fuel x) s' := by
  induction fuel generalizing s order x fired with
  | zero =>
    obtain rfl : order = [] := List.length_eq_zero_iff.mp (Nat.le_zero.mp hfuel)
    refine ⟨s, x, rfl, rfl, rfl, ?_, fun ha _ => ⟨_, ha, .refl _⟩, pick_of_agenda_nil h⟩
    intro i t hmem
    cases hmem
  | succ fuel ih =>
    rw [Sched.runs, Sched.sweep]
    cases order with
    | nil =>
      rw [pick_of_agenda_nil h]
      refine ⟨s, x, rfl, rfl, rfl, ?_, fun ha _ => ⟨_, ha, .refl _⟩, pick_of_agenda_nil h⟩
      intro i t hmem
      cases hmem
    | cons p order =>
      obtain ⟨i, t⟩ := p
      obtain ⟨hslot, -⟩ := (h.mem (i, t)).mp (List.mem_cons_self ..)
      have hlt := (List.getElem?_eq_some_iff.mp hslot).1
      rw [pick_of_agenda_cons h]
      dsimp only
      obtain ⟨s₁, x₁, hcome, hgrows⟩ :=
        hcall t.cb { s with slots := s.slots.set i (some (Sched.mark nowMs t)) } x hfiring
      obtain ⟨order', hsub, h'⟩ := h.tail.shrink hgrows
      have hfiring' := hgrows.firing.trans hfiring
      have hlen : order'.length ≤ fuel := hsub.length_le.trans (Nat.le_of_succ_le_succ hfuel)
      obtain ⟨s', x', hsweep, hswept⟩ := ih (fired + 1) hfiring' h' hlen
      rw [hcome]
      refine ⟨s', x', ?_, swept_cons hlt ?_ hgrows hswept⟩
      · dsimp only
        rw [hsweep, List.length_cons]
        congr 2
        omega
      · intro u hu
        have hmem := hsub.subset ((runs_sublist hcall fuel hfiring' h').subset hu)
        have hslot' := ((h.tail.mem (i, u)).mp hmem)
        rw [List.getElem?_set_self hlt, Option.some.injEq, Option.some.injEq] at hslot'
        obtain ⟨rfl, hdue⟩ := hslot'
        rw [not_eligible_mark] at hdue
        cases hdue

end Runs

end Espos.Flow
