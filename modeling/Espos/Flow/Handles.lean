import Espos.Flow.Wheel

-- What a handle names once its timer is gone.

namespace Espos.Flow

open Espos.Run

variable {γ : Type} {w : Wheel γ}

-- The generation of the timer of a number: 0 is left out.
def genOf (n : Nat) : UInt16 :=
  UInt16.ofNat (n % 65535 + 1)

theorem genOf_toNat (n : Nat) : (genOf n).toNat = n % 65535 + 1 := by
  rw [genOf, UInt16.toNat_ofNat']
  omega

theorem genOf_inj {m n : Nat} : genOf m = genOf n ↔ m % 65535 = n % 65535 := by
  rw [← UInt16.toNat_inj, genOf_toNat, genOf_toNat]
  omega

theorem genOf_ne_zero (n : Nat) : genOf n ≠ 0 := by
  intro hzero
  have hnat := congrArg UInt16.toNat hzero
  rw [genOf_toNat, UInt16.toNat_zero] at hnat
  omega

theorem handleMake_toNat {i : Nat} (hi : i < 65536) (gen : UInt16) :
    (handleMake i gen).toNat = gen.toNat * 65536 + i := by
  have hgen : gen.toNat < 65536 := gen.toNat_lt
  have hidx : (UInt32.ofNat i &&& 0xFFFF).toNat = i := by
    rw [UInt32.toNat_and, UInt32.toNat_ofNat', Nat.mod_eq_of_lt (by omega)]
    have hmask := Nat.and_two_pow_sub_one_eq_mod i 16
    rw [Nat.mod_eq_of_lt hi] at hmask
    exact hmask
  have hshift : (UInt32.ofNat gen.toNat <<< 16).toNat = gen.toNat <<< 16 := by
    have hsixteen : (16 : UInt32).toNat % 32 = 16 := rfl
    have hfit : gen.toNat % 2 ^ 32 = gen.toNat := Nat.mod_eq_of_lt (by omega)
    rw [UInt32.toNat_shiftLeft, UInt32.toNat_ofNat', hsixteen, hfit, Nat.shiftLeft_eq]
    exact Nat.mod_eq_of_lt (by omega)
  rw [handleMake, UInt32.toNat_or, hidx, hshift, ← Nat.shiftLeft_add_eq_or_of_lt hi,
    Nat.shiftLeft_eq]

theorem handleIdx_make {i : Nat} (hi : i < 65536) (gen : UInt16) :
    handleIdx (handleMake i gen) = i := by
  rw [handleIdx, UInt32.toNat_and, handleMake_toNat hi]
  have hmask := Nat.and_two_pow_sub_one_eq_mod (gen.toNat * 65536 + i) 16
  have hmod : (gen.toNat * 65536 + i) % 2 ^ 16 = i := by omega
  rw [hmod] at hmask
  exact hmask

theorem handleGen_make {i : Nat} (hi : i < 65536) (gen : UInt16) :
    handleGen (handleMake i gen) = gen := by
  have hgen : gen.toNat < 65536 := gen.toNat_lt
  apply UInt16.toNat_inj.mp
  rw [handleGen, UInt16.toNat_ofNat', UInt32.toNat_shiftRight, handleMake_toNat hi]
  have hsixteen : (16 : UInt32).toNat % 32 = 16 := rfl
  rw [hsixteen, Nat.shiftRight_eq_div_pow]
  omega

theorem handleMake_ne_none {i : Nat} (hi : i < 65536) {gen : UInt16} (hgen : gen ≠ 0) :
    handleMake i gen ≠ schedHandleNone := by
  intro hnone
  have hsame := handleGen_make hi gen
  rw [hnone] at hsame
  exact hgen hsame.symm

-- Which generation comes next after `n` timers, and the counter behind it.
def Drawn (seq : UInt32) (n : Nat) : Prop :=
  seq.toNat % 65536 = n % 65535 + 1 ∨ n % 65535 = 0 ∧ seq.toNat % 65536 = 0

theorem nextGen_drawn {seq : UInt32} {n : Nat} (h : Drawn seq n) :
    (Sched.nextGen seq).1 = genOf n ∧ Drawn (Sched.nextGen seq).2 (n + 1) := by
  have hlow : ∀ seq : UInt32, (seq &&& 0xFFFF).toNat = seq.toNat % 65536 := by
    intro seq
    rw [UInt32.toNat_and]
    exact Nat.and_two_pow_sub_one_eq_mod seq.toNat 16
  have hseq := seq.toNat_lt
  rw [Sched.nextGen, hlow, hlow]
  have hone : (seq + 1).toNat % 65536 = (seq.toNat + 1) % 65536 := by
    rw [UInt32.toNat_add]
    exact Nat.mod_mod_of_dvd _ (by decide)
  have htwo : (seq + 2).toNat % 65536 = (seq.toNat + 2) % 65536 := by
    rw [UInt32.toNat_add]
    exact Nat.mod_mod_of_dvd _ (by decide)
  have hzero : UInt16.ofNat (seq.toNat % 65536) = 0 ↔ seq.toNat % 65536 = 0 := by
    rw [← UInt16.toNat_inj, UInt16.toNat_ofNat', UInt16.toNat_zero]
    omega
  by_cases hcase : UInt16.ofNat (seq.toNat % 65536) = 0
  · have hlowZero := hzero.mp hcase
    have hwrap : n % 65535 = 0 := by
      rcases h with h | h
      · omega
      · exact h.1
    rw [if_pos hcase]
    refine ⟨?_, .inl ?_⟩
    · have hfirst : (seq.toNat + 1) % 65536 = n % 65535 + 1 := by omega
      dsimp only
      rw [genOf, hone, hfirst]
    · dsimp only
      rw [htwo]
      omega
  · have hdrawn : seq.toNat % 65536 = n % 65535 + 1 := by
      rcases h with h | h
      · exact h
      · exact absurd (hzero.mpr h.2) hcase
    rw [if_neg hcase]
    refine ⟨by rw [genOf, hdrawn], ?_⟩
    rw [Drawn]
    dsimp only
    rw [hone]
    omega

-- Every handle names a slot and a generation, and so does every timer.
structure Wheel.Numbered (cap : Nat) (w : Wheel γ) : Prop where
  length : w.sched.slots.length = cap
  drawn : Drawn w.sched.seq w.issued.length
  ticket : ∀ {n : Nat} {ticket : Ticket}, w.issued[n]? = some ticket →
    ∃ i < cap, ticket.handle = handleMake i (genOf n)
  own : ∀ {i : Nat} {t : Timer (Tag γ)}, w.sched.slots[i]? = some (some t) →
    t.gen = genOf t.cb.serial ∧
      w.issued[t.cb.serial]?.map Ticket.handle = some (handleMake i (genOf t.cb.serial))

theorem numbered_init (cap : Nat) : (Wheel.init cap : Wheel γ).Numbered cap where
  length := List.length_replicate
  drawn := .inl rfl
  ticket := by
    intro n ticket h
    cases h
  own := fun h => absurd h slots_init

theorem drawn_move {w' : Wheel γ} (h : Drawn w.sched.seq w.issued.length) (hmove : Move w w') :
    Drawn w'.sched.seq w'.issued.length := by
  cases hmove with
  | add nowMs cb hdelay hperiod hfree =>
    rw [List.length_append, List.length_singleton]
    exact (nextGen_drawn h).2
  | _ => exact h

theorem Wheel.Numbered.move {cap : Nat} {w' : Wheel γ} (h : w.Numbered cap) (hmove : Move w w') :
    w'.Numbered cap where
  length := (length_move hmove).trans h.length
  drawn := drawn_move h.drawn hmove
  ticket := by
    intro n ticket hget
    cases hmove with
    | @add i nowMs delayMs periodMs cb hdelay hperiod hfree =>
      have hi : i < cap := by
        rw [← h.length]
        exact (List.getElem?_eq_some_iff.mp hfree).1
      by_cases hold : n < w.issued.length
      · rw [List.getElem?_append_left hold] at hget
        exact h.ticket hget
      · have hlast : n = w.issued.length := by
          have hlt := (List.getElem?_eq_some_iff.mp hget).1
          rw [List.length_append, List.length_singleton] at hlt
          omega
        rw [hlast, List.getElem?_concat_length, Option.some.injEq] at hget
        refine ⟨i, hi, ?_⟩
        rw [← hget, hlast, (nextGen_drawn h.drawn).1]
    | _ => exact h.ticket hget
  own := by
    intro i u hi
    rcases slot_move hmove hi with ⟨t, ht, hages⟩ | hadded
    · obtain ⟨hgen, hown⟩ := h.own ht
      obtain ⟨ticket, hget, hhandle⟩ := Option.map_eq_some_iff.mp hown
      rw [hages.cb, hages.gen]
      exact ⟨hgen, by rw [issued_kept hmove hget, Option.map_some, hhandle]⟩
    · have hgen : u.gen = genOf u.cb.serial := by
        rw [hadded.gen, hadded.serial, (nextGen_drawn h.drawn).1]
      refine ⟨hgen, ?_⟩
      rw [hadded.issued, hadded.serial, List.getElem?_concat_length, Option.map_some, hgen,
        hadded.serial]

theorem numbered_run (cap : Nat) (es : List (WheelStep γ)) :
    (run Wheel.step (.init cap : Wheel γ) es).Numbered cap :=
  run_move (fun h hmove => h.move hmove) (numbered_init cap) es

-- The timer of a number is live.
def Wheel.Holds (w : Wheel γ) (n : Nat) : Prop :=
  ∃ (i : Nat) (t : Timer (Tag γ)), w.sched.slots[i]? = some (some t) ∧ t.cancelled = false ∧
    t.cb.serial = n

-- A live timer in the slot of `h` whose generation is that of number `n`.
def Wheel.Mistaken (w : Wheel γ) (h : UInt32) (n : Nat) : Prop :=
  ∃ t, w.sched.slots[handleIdx h]? = some (some t) ∧ t.cancelled = false ∧
    t.cb.serial % 65535 = n % 65535

-- A timer that is gone does not come back.
theorem holds_move {w' : Wheel γ} (hmove : Move w w') {n : Nat} (hn : n < w.issued.length)
    (h : w'.Holds n) : w.Holds n := by
  obtain ⟨i, u, hi, hlive, rfl⟩ := h
  rcases slot_move hmove hi with ⟨t, ht, hages⟩ | hadded
  · exact ⟨i, t, ht, hages.live hlive, by rw [hages.cb]⟩
  · rw [hadded.serial] at hn
    exact absurd hn (Nat.lt_irrefl _)

theorem gone_run {n : Nat} {ticket : Ticket} (hticket : w.issued[n]? = some ticket)
    (hgone : ¬ w.Holds n) (es : List (WheelStep γ)) :
    (run Wheel.step w es).issued[n]? = some ticket ∧ ¬ (run Wheel.step w es).Holds n :=
  run_move (P := fun w => w.issued[n]? = some ticket ∧ ¬ w.Holds n)
    (fun ⟨hissued, hnot⟩ hmove => ⟨issued_kept hmove hissued,
      mt (holds_move hmove (List.getElem?_eq_some_iff.mp hissued).1) hnot⟩) ⟨hticket, hgone⟩ es

theorem cancel_notFound_iff {s : Sched (Tag γ)} {h : UInt32} :
    s.cancel h = (.notFound, s) ↔ s.resolve h = none := by
  rw [Sched.cancel]
  cases hres : s.resolve h with
  | none => exact iff_of_true rfl rfl
  | some p => exact iff_of_false (fun hcancel => by cases congrArg Prod.fst hcancel) (by simp)

theorem resolve_handleMake {s : Sched (Tag γ)} {i : Nat} (hi : i < 65536) {gen : UInt16}
    (hgen : gen ≠ 0) : s.resolve (handleMake i gen) = none ↔
      ¬ ∃ t, s.slots[i]? = some (some t) ∧ t.cancelled = false ∧ t.gen = gen := by
  rw [Sched.resolve, if_neg (handleMake_ne_none hi hgen), handleIdx_make hi, handleGen_make hi]
  cases hslot : s.slots[i]? with
  | none => simp
  | some a =>
    cases a with
    | none => simp
    | some t =>
      dsimp only
      by_cases hstale : t.cancelled = true ∨ t.gen ≠ gen
      · rw [if_pos hstale]
        refine iff_of_true rfl ?_
        rintro ⟨u, hu, hlive, hsame⟩
        obtain rfl := Option.some.inj (Option.some.inj hu)
        rcases hstale with hcancelled | hother
        · rw [hlive] at hcancelled
          cases hcancelled
        · exact hother hsame
      · rw [if_neg hstale]
        rw [not_or, Bool.not_eq_true, not_not] at hstale
        exact iff_of_false (by simp) fun hnot => hnot ⟨t, rfl, hstale.1, hstale.2⟩

-- A handle that was given out for a timer that is gone: cancelling it later finds
-- nothing, unless the timer now in its slot is a multiple of 65535 timers younger.
theorem stale_handle_iff {cap : Nat} (hcap : cap ≤ 65535) (es : List (WheelStep γ)) {n : Nat}
    {ticket : Ticket} (hticket : (run Wheel.step (.init cap) es).issued[n]? = some ticket)
    (hgone : ¬ (run Wheel.step (.init cap) es).Holds n) (fs : List (WheelStep γ)) :
    let w := run Wheel.step (run Wheel.step (.init cap) es) fs
    w.sched.cancel ticket.handle = (.notFound, w.sched) ↔ ¬ w.Mistaken ticket.handle n := by
  intro w
  obtain ⟨hissued, -⟩ := gone_run hticket hgone fs
  have h : w.Numbered cap := run_move (fun h hmove => h.move hmove) (numbered_run cap es) fs
  obtain ⟨i, hi, hhandle⟩ := h.ticket hissued
  have hlow : i < 65536 := by omega
  rw [cancel_notFound_iff, Wheel.Mistaken, hhandle, resolve_handleMake hlow (genOf_ne_zero n),
    handleIdx_make hlow]
  refine not_congr (exists_congr fun t => and_congr_right fun hslot => and_congr_right fun _ => ?_)
  rw [(h.own hslot).1, genOf_inj]

theorem stale_handle_fired :
    let es : List (WheelStep Nat) := [.add 0 1 0 (some 0), .begin 1, .runNext, .finish]
    let w := run Wheel.step (run Wheel.step (.init 1) es) [.add 2 1 0 (some 0)]
    w.sched.cancel 65536 = (.notFound, w.sched) ↔ ¬ w.Mistaken 65536 0 := by
  intro es
  have hslots : (run Wheel.step (.init 1) es).sched.slots = [none] := by decide
  have hticket : (run Wheel.step (.init 1) es).issued[0]? = some ⟨65536, 1⟩ := by decide
  have hgone : ¬ (run Wheel.step (.init 1) es).Holds 0 := by
    rintro ⟨i, t, hi, -⟩
    rw [hslots] at hi
    have hmem := List.mem_of_getElem? hi
    rw [List.mem_singleton] at hmem
    cases hmem
  exact stale_handle_iff (by decide) es hticket hgone [.add 2 1 0 (some 0)]

section Churn

-- A timer that is armed again and again, as by a node that is kept busy.
def swap (n : Nat) : List (WheelStep Nat) :=
  [.cancel (handleMake 0 (genOf n)), .add 0 1 0 (some 0)]

def churn (n : Nat) : List (WheelStep Nat) :=
  .add 0 1 0 (some 0) :: (List.range n).flatMap swap

def churned (n : Nat) : Timer (Tag Nat) :=
  ⟨⟨n, 0⟩, 0 + 1, 0, genOf n, false, false, false⟩

theorem swap_run {w : Wheel Nat} {n : Nat} (hslots : w.sched.slots = [some (churned n)])
    (hstill : w.sched.firing = false) (hlen : w.issued.length = n + 1)
    (hdrawn : Drawn w.sched.seq w.issued.length) :
    (run Wheel.step w (swap n)).sched.slots = [some (churned (n + 1))] ∧
      (run Wheel.step w (swap n)).sched.firing = false ∧
      (run Wheel.step w (swap n)).issued.length = n + 2 := by
  have hidx := handleIdx_make (show 0 < 65536 by decide) (genOf n)
  have hgen := handleGen_make (show 0 < 65536 by decide) (genOf n)
  have hnext := (nextGen_drawn hdrawn).1
  obtain ⟨⟨slots, seq, firing⟩, issued, sweep⟩ := w
  dsimp only at hslots hstill hlen hnext
  subst hslots hstill
  have hsome : handleMake 0 (genOf n) ≠ schedHandleNone :=
    handleMake_ne_none (by decide) (genOf_ne_zero n)
  have hresolve : (⟨[some (churned n)], seq, false⟩ : Sched (Tag Nat)).resolve
      (handleMake 0 (genOf n)) = some (0, churned n) := by
    rw [Sched.resolve, if_neg hsome, hidx, hgen]
    exact if_neg (by simp [churned])
  have hcancel : (⟨⟨[some (churned n)], seq, false⟩, issued, sweep⟩ : Wheel Nat).step
      (.cancel (handleMake 0 (genOf n))) = ⟨⟨[none], seq, false⟩, issued, sweep⟩ := by
    rw [Wheel.step, Wheel.cancel, Sched.cancel, hresolve]
    rfl
  rw [swap, run_cons, run_cons, run_nil, hcancel]
  refine ⟨?_, rfl, ?_⟩
  · change [some (⟨⟨issued.length, 0⟩, 0 + 1, 0, (Sched.nextGen seq).1, false, false, false⟩ :
      Timer (Tag Nat))] = _
    rw [hnext, hlen]
    rfl
  · change (issued ++ [_]).length = n + 2
    rw [List.length_append, hlen, List.length_singleton]

theorem churn_run (n : Nat) :
    (run Wheel.step (.init 1) (churn n)).sched.slots = [some (churned n)] ∧
      (run Wheel.step (.init 1) (churn n)).sched.firing = false ∧
      (run Wheel.step (.init 1) (churn n)).issued.length = n + 1 := by
  induction n with
  | zero => decide
  | succ n ih =>
    obtain ⟨hslots, hstill, hlen⟩ := ih
    have hsplit : churn (n + 1) = churn n ++ swap n := by
      rw [churn, churn, List.range_succ, List.flatMap_append, List.cons_append]
      simp
    have hrun : run Wheel.step (.init 1) (churn (n + 1)) =
        run Wheel.step (run Wheel.step (.init 1) (churn n)) (swap n) := by
      rw [hsplit]
      exact List.foldl_append ..
    rw [hrun]
    exact swap_run hslots hstill hlen (numbered_run 1 (churn n)).drawn

theorem churn_stale {n : Nat} (hn : genOf n = genOf 0) (hpos : n ≠ 0) {w : Wheel Nat}
    (hw : w = run Wheel.step (.init 1) (churn n)) :
    w.issued[0]?.map Ticket.handle = some 65536 ∧ ¬ w.Holds 0 ∧
      w.sched.cancel 65536 ≠ (.notFound, w.sched) := by
  obtain ⟨hslots, -, hlen⟩ := churn_run n
  have h := numbered_run 1 (churn n)
  rw [← hw] at hslots hlen h
  have hslot : w.sched.slots[0]? = some (some (churned n)) := by
    rw [hslots]
    rfl
  have hfirst : (65536 : UInt32) = handleMake 0 (genOf 0) := by decide
  refine ⟨?_, ?_, ?_⟩
  · obtain ⟨ticket, hticket⟩ : ∃ ticket, w.issued[0]? = some ticket :=
      ⟨_, List.getElem?_eq_getElem (by omega)⟩
    obtain ⟨i, hi, hhandle⟩ := h.ticket hticket
    obtain rfl : i = 0 := by omega
    rw [hticket, Option.map_some, hhandle, ← hfirst]
  · rintro ⟨i, t, hi, -, hserial⟩
    rw [hslots] at hi
    have hmem := List.mem_singleton.mp (List.mem_of_getElem? hi)
    obtain rfl := Option.some.inj hmem
    exact hpos hserial
  · rw [hfirst, ← hn, Ne, cancel_notFound_iff,
      resolve_handleMake (by decide) (genOf_ne_zero n), not_not]
    exact ⟨churned n, hslot, rfl, rfl⟩

-- The 65536th timer has the handle of the first, which was cancelled long ago.
theorem stale_handle_cancels :
    let w := run Wheel.step (.init 1) (churn 65535)
    w.issued[0]?.map Ticket.handle = some 65536 ∧ ¬ w.Holds 0 ∧
      w.sched.cancel 65536 ≠ (.notFound, w.sched) :=
  churn_stale (by decide) (by decide) rfl

end Churn

end Espos.Flow
