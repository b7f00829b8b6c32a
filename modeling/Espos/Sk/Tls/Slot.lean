import Espos.Sk.Tls.Verify
import Espos.Sk.Tls.San

-- What the slot holds.

namespace Espos.Sk.Tls

open Espos.Text

namespace State

variable {s : State} {crt : Crt}

theorem verifyUpper_cap (s : State) (crt : Crt) :
    ∃ fp have_, (s.verifyUpper crt).cap = { s.cap with caFp := fp, haveCa := have_ } := by
  rw [verifyUpper]
  split
  · exact ⟨crt.fp, true, rfl⟩
  · exact ⟨s.cap.caFp, s.cap.haveCa, rfl⟩

theorem verifyUpper_ca (s : State) (crt : Crt) :
    (s.verifyUpper crt).cap.ca =
      if s.cap.ca.isNone && crt.isCa then some crt.fp else s.cap.ca := by
  by_cases hhave : s.cap.haveCa = true
  · simp [verifyUpper, Capture.ca, hhave]
  · by_cases hca : crt.isCa = true
    · simp [verifyUpper, Capture.ca, hhave, hca]
    · simp [verifyUpper, Capture.ca, hhave, hca]

@[simp] theorem verifyLeaf_anchor (s : State) (crt : Crt) :
    (s.verifyLeaf crt).anchor = s.anchor := by
  simp only [verifyLeaf]
  split <;> rfl

-- The leaf's callback writes the whole of the leaf's part of the slot.
theorem verifyLeaf_cap (s : State) (crt : Crt) :
    (s.verifyLeaf crt).cap.ca = s.cap.ca ∧ (s.verifyLeaf crt).cap.leafFp = crt.fp ∧
      (s.verifyLeaf crt).cap.san = crt.sanSet.1 ∧ (s.verifyLeaf crt).cap.cn = crt.cn ∧
      ((s.verifyLeaf crt).cap.valid = true ↔ (s.decision crt).verdict ≠ .reject) := by
  simp only [verifyLeaf, Capture.ca]
  split
  · simp [*]
  · simp [*]

theorem decision_ca (h : (s.decision crt).verdict ≠ .reject) (hkind : s.anchor.kind = .ca) :
    s.cap.ca = some s.anchor.caFp ∧ crt.sanSet.1 = s.anchor.san := by
  obtain ⟨hca, _, hsan⟩ := (decideOn_ca hkind).mp h
  exact ⟨hca, Buf.ext (sanEqual_iff.mp hsan).2.2⟩

theorem decideOn_leaf {anchor : Anchor} {ca : Option Fp} (hkind : anchor.kind = .leaf) :
    (decideOn (factsOf anchor ca crt)).verdict ≠ .reject ↔ crt.fp = anchor.leafFp := by
  by_cases hfp : crt.fp = anchor.leafFp
  · simp [decideOn, factsOf, hkind, hfp]
  · simp [decideOn, factsOf, hkind, hfp]

theorem decideOn_none {anchor : Anchor} {ca : Option Fp} (hkind : anchor.kind = .none) :
    decideOn (factsOf anchor ca crt) = ⟨.capture, .firstUse,
      if ca.isSome && (!crt.sanSet.1.isEmpty && !crt.sanSet.2) then .ca else .leaf⟩ := by
  simp [decideOn, factsOf, hkind]

theorem verifyCb_state (s : State) (crt : Crt) (depth : Nat) (flags : UInt32) :
    (s.verifyCb crt depth flags).1 =
      if 0 < depth then s.verifyUpper crt else s.verifyLeaf crt := by
  rw [verifyCb]
  split
  · rfl
  · split <;> rfl

end State

-- The slot is about this leaf, that was let through under the anchor.
structure Capture.Records (cap : Capture) (anchor : Anchor) (leaf : Crt) : Prop where
  fp : cap.leafFp = leaf.fp
  san : cap.san = leaf.sanSet.1
  cn : cap.cn = leaf.cn
  first : anchor.kind = .none → cap.captureAs = .leaf ∨
    (cap.captureAs = .ca ∧ cap.ca.isSome = true ∧
      leaf.sanSet.1.isEmpty = false ∧ leaf.sanSet.2 = false)

theorem State.verifyUpper_records {s : State} {leaf : Crt} (h : s.cap.Records s.anchor leaf)
    (crt : Crt) : (s.verifyUpper crt).cap.Records s.anchor leaf := by
  have hca : s.cap.ca.isSome = true → (s.verifyUpper crt).cap.ca.isSome = true := by
    rw [State.verifyUpper_ca]
    split
    · intro _
      rfl
    · exact id
  obtain ⟨fp, have_, hcap⟩ := s.verifyUpper_cap crt
  rw [hcap] at hca ⊢
  refine ⟨h.fp, h.san, h.cn, ?_⟩
  intro hkind
  rcases h.first hkind with hleaf | ⟨has, hsome, hnames⟩
  · exact Or.inl hleaf
  · exact Or.inr ⟨has, hca hsome, hnames⟩

theorem State.verifyLeaf_captureAs {s : State} {crt : Crt} (hkind : s.anchor.kind = .none) :
    (s.verifyLeaf crt).cap.captureAs =
      if s.cap.ca.isSome && (!crt.sanSet.1.isEmpty && !crt.sanSet.2) then .ca else .leaf := by
  simp [State.verifyLeaf, State.decision, State.decideOn_none hkind]

theorem State.verifyLeaf_records (s : State) (crt : Crt) :
    (s.verifyLeaf crt).cap.Records s.anchor crt := by
  obtain ⟨hca, hfp, hsan, hcn, _⟩ := s.verifyLeaf_cap crt
  refine ⟨hfp, hsan, hcn, ?_⟩
  intro hkind
  rw [State.verifyLeaf_captureAs hkind, hca]
  split
  · rename_i hnames
    simp only [Bool.and_eq_true, Bool.not_eq_true'] at hnames
    exact Or.inr ⟨rfl, hnames⟩
  · exact Or.inl rfl

-- An anchor that is there goes on to let through what it let through.
def Anchor.Keeps (a b : Anchor) : Prop :=
  a.kind ≠ .none → b.kind = a.kind ∧ b.decidingFp = a.decidingFp ∧ (a.kind = .ca → b.san = a.san)

namespace Anchor.Keeps

variable {a b c : Anchor}

theorem refl (a : Anchor) : a.Keeps a :=
  fun _ => ⟨rfl, rfl, fun _ => rfl⟩

theorem trans (hab : a.Keeps b) (hbc : b.Keeps c) : a.Keeps c := by
  intro hsome
  obtain ⟨hkind, hfp, hsan⟩ := hab hsome
  obtain ⟨hkind', hfp', hsan'⟩ := hbc (hkind ▸ hsome)
  refine ⟨hkind'.trans hkind, hfp'.trans hfp, ?_⟩
  intro hca
  exact (hsan' (hkind.trans hca)).trans (hsan hca)

end Anchor.Keeps

-- The slot, after a verdict that let the leaf through, is what the anchor asks
-- for.
structure Passed (s : State) : Prop where
  ca : s.cap.valid = true → s.anchor.kind = .ca →
    s.cap.ca = some s.anchor.caFp ∧ s.cap.san = s.anchor.san
  leaf : s.cap.valid = true → s.anchor.kind = .leaf → s.cap.leafFp = s.anchor.leafFp
  first : s.cap.valid = true → s.anchor.kind = .none → s.cap.captureAs ≠ .none

namespace Passed

variable {s : State}

theorem of_invalid (hvalid : s.cap.valid = false) : Passed s := by
  constructor
  all_goals
    intro h
    rw [hvalid] at h
    cases h

theorem verifyUpper (h : Passed s) (crt : Crt) : Passed (s.verifyUpper crt) := by
  obtain ⟨fp, have_, hcap⟩ := s.verifyUpper_cap crt
  have hca := s.verifyUpper_ca crt
  have hanchor := s.verifyUpper_anchor crt
  constructor
  · intro hvalid hkind
    rw [hanchor] at hkind ⊢
    rw [hcap] at hvalid
    obtain ⟨hcaS, hsan⟩ := h.ca hvalid hkind
    rw [hca, hcap]
    exact ⟨by simp [hcaS], hsan⟩
  · rw [hcap, hanchor]
    exact h.leaf
  · rw [hcap, hanchor]
    exact h.first

theorem verifyLeaf (s : State) (crt : Crt) : Passed (s.verifyLeaf crt) := by
  obtain ⟨hca, hfp, hsan, hcn, hvalid⟩ := s.verifyLeaf_cap crt
  have hanchor := s.verifyLeaf_anchor crt
  constructor
  · intro hv hkind
    rw [hanchor] at hkind ⊢
    rw [hca, hsan]
    exact State.decision_ca (hvalid.mp hv) hkind
  · intro hv hkind
    rw [hanchor] at hkind ⊢
    rw [hfp]
    exact (State.decideOn_leaf hkind).mp (hvalid.mp hv)
  · intro _ hkind
    rw [hanchor] at hkind
    rw [State.verifyLeaf_captureAs hkind]
    split <;> simp

-- A commit leaves alone what the anchor decides by.
theorem keeps (h : Passed s) (hvalid : s.cap.valid = true) (self : Option CStr) (now : Int) :
    s.anchor.Keeps (s.merged self now) := by
  intro hsome
  have hkind : (s.merged self now).kind = s.anchor.kind := by simp [State.merged, hsome]
  refine ⟨hkind, ?_⟩
  cases hk : s.anchor.kind with
  | none => exact absurd hk hsome
  | ca =>
    obtain ⟨hca, hsan⟩ := h.ca hvalid hk
    have hhave : s.cap.haveCa = true ∧ s.cap.caFp = s.anchor.caFp := by
      by_cases hhave : s.cap.haveCa = true
      · exact ⟨hhave, by simpa [Capture.ca, hhave] using hca⟩
      · simp [Capture.ca, hhave] at hca
    refine ⟨?_, ?_⟩
    · simp [Anchor.decidingFp, hk, State.merged, hhave]
    · intro _
      simp [State.merged, hsan]
  | leaf =>
    refine ⟨?_, ?_⟩
    · simp only [Anchor.decidingFp, hkind, hk, if_true]
      exact h.leaf hvalid hk
    · intro hca
      cases hca

end Passed

namespace World

-- The slot is empty, or it holds what one handshake's callbacks have shown.
structure Filled (w : World) : Prop where
  clear : w.owner = none → w.tls.cap = .blank
  idle : ∀ i, (w.own i).begun = false → (w.own i).ca = none
  ca : ∀ i, w.owner = some i → (w.own i).begun = true → w.tls.cap.ca = (w.own i).ca
  leaf : ∀ i, w.owner = some i → (w.own i).begun = true → w.tls.cap.valid = true →
    ∃ leaf, (w.own i).leaf = some leaf ∧ w.tls.cap.Records w.tls.anchor leaf
  passed : Passed w.tls

variable {w : World}

theorem filled_start (a : Anchor) : Filled (start a) where
  clear := fun _ => rfl
  idle := fun _ _ => rfl
  ca := fun i h => by cases h
  leaf := fun i h => by cases h
  passed := .of_invalid rfl

namespace Filled

theorem cleared (h : Filled w) {t : State} (hcap : t.cap = .blank) (holder : Option Nat) :
    Filled { w with tls := t, holder := holder, owner := none } where
  clear := fun _ => hcap
  idle := h.idle
  ca := fun i h => by cases h
  leaf := fun i h => by cases h
  passed := .of_invalid (by rw [hcap]; rfl)

theorem restart (h : Filled w) (i : Nat) : Filled (w.restart i) where
  clear := h.clear
  idle := by
    intro j hj
    by_cases hij : j = i
    · subst hij
      simp [World.restart, Own.blank]
    · simp only [World.restart, Function.update_of_ne hij] at hj ⊢
      exact h.idle j hj
  ca := by
    intro j hj hbegun
    by_cases hij : j = i
    · subst hij
      simp [World.restart, Own.blank] at hbegun
    · simp only [World.restart, Function.update_of_ne hij] at hbegun ⊢
      exact h.ca j hj hbegun
  leaf := by
    intro j hj hbegun
    by_cases hij : j = i
    · subst hij
      simp [World.restart, Own.blank] at hbegun
    · simp only [World.restart, Function.update_of_ne hij] at hbegun ⊢
      exact h.leaf j hj hbegun
  passed := h.passed

-- A handshake that is not disturbed finds its own CA in the slot.
theorem ca_eq (h : Filled w) {i : Nat}
    (hown : if (w.own i).begun then w.owner = some i else w.owner = none) :
    w.tls.cap.ca = (w.own i).ca := by
  cases hbegun : (w.own i).begun with
  | true =>
    rw [if_pos hbegun] at hown
    exact h.ca i hown hbegun
  | false =>
    rw [if_neg (by simp [hbegun])] at hown
    rw [h.clear hown, h.idle i hbegun]
    rfl

-- One more callback of the handshake that owns the slot, or the first of one
-- that finds it empty.
theorem shown (h : Filled w) {i : Nat} {t : State} {o : Own} (hbegun : o.begun = true)
    (hca : t.cap.ca = o.ca)
    (hleaf : t.cap.valid = true → ∃ leaf, o.leaf = some leaf ∧ t.cap.Records t.anchor leaf)
    (hpassed : Passed t) :
    Filled { w with tls := t, owner := some i, own := Function.update w.own i o } where
  clear := fun h => by cases h
  idle := by
    intro j hj
    by_cases hij : j = i
    · subst hij
      simp [hbegun] at hj
    · simp only [Function.update_of_ne hij] at hj ⊢
      exact h.idle j hj
  ca := by
    intro j hj _
    obtain rfl : i = j := Option.some.inj hj
    simpa using hca
  leaf := by
    intro j hj _
    obtain rfl : i = j := Option.some.inj hj
    simpa using hleaf
  passed := hpassed

theorem callback (h : Filled w) {i : Nat} {crt : Crt}
    (hown : if (w.own i).begun then w.owner = some i else w.owner = none) (depth : Nat)
    (flags : UInt32) : Filled (w.callback i crt depth flags) := by
  have hslot := h.ca_eq hown
  rw [World.callback, State.verifyCb_state]
  by_cases hdepth : 0 < depth
  · rw [if_pos hdepth, if_pos hdepth]
    apply h.shown rfl
    · rw [State.verifyUpper_ca, hslot]
      rfl
    · obtain ⟨fp, have_, hcap⟩ := w.tls.verifyUpper_cap crt
      intro hvalid
      rw [hcap] at hvalid
      cases hbegun : (w.own i).begun with
      | true =>
        rw [if_pos hbegun] at hown
        obtain ⟨leaf, hleaf, hrecords⟩ := h.leaf i hown hbegun hvalid
        rw [State.verifyUpper_anchor]
        exact ⟨leaf, hleaf, State.verifyUpper_records hrecords crt⟩
      | false =>
        rw [if_neg (by simp [hbegun])] at hown
        change w.tls.cap.valid = true at hvalid
        rw [h.clear hown] at hvalid
        cases hvalid
    · exact h.passed.verifyUpper crt
  · rw [if_neg hdepth, if_neg hdepth]
    apply h.shown rfl
    · rw [(w.tls.verifyLeaf_cap crt).1, hslot]
      rfl
    · intro _
      rw [State.verifyLeaf_anchor]
      exact ⟨crt, rfl, State.verifyLeaf_records w.tls crt⟩
    · exact .verifyLeaf w.tls crt

-- A request that nothing disturbs commits its own handshake's slot.
theorem committed (h : Filled w) {i : Nat} {self : Option CStr} {now : Int} {stored : Bool}
    (hcond : w.Undisturbed (.commit i self now stored)) (hholder : w.holder = some i)
    (hvalid : w.tls.cap.valid = true) :
    w.tls.cap.ca = (w.own i).ca ∧
      ∃ leaf, (w.own i).leaf = some leaf ∧ w.tls.cap.Records w.tls.anchor leaf := by
  rcases hcond hholder with hnone | ⟨howner, hbegun⟩
  · rw [h.clear hnone] at hvalid
    cases hvalid
  · exact ⟨h.ca i howner hbegun, h.leaf i howner hbegun hvalid⟩

end Filled

theorem filled_step (e : Event) (h : Filled w) (hcond : w.Undisturbed e) : Filled (w.step e) := by
  cases e with
  | begin i =>
    simp only [step]
    split
    · exact (h.restart i).cleared rfl (some i)
    · exact h
  | attach i => exact h.restart i
  | callback i crt depth flags => exact h.callback hcond depth flags
  | commit i self now stored =>
    simp only [step]
    split
    · by_cases hvalid : w.tls.cap.valid = true
      · rw [World.commit, if_pos hvalid]
        apply h.cleared
        rw [State.commit, if_pos hvalid]
      · have hsame : w.commit self now stored = w := by
          simp [World.commit, State.commit, hvalid]
        rw [hsame]
        exact h
    · exact h
  | discard i =>
    simp only [step]
    split
    · exact h.cleared rfl w.holder
    · exact h
  | finish i =>
    simp only [step]
    split
    · exact ⟨h.clear, h.idle, h.ca, h.leaf, h.passed⟩
    · exact h
  | reset => exact h.cleared rfl w.holder
  | setTrust ca now stored =>
    cases ca with
    | none => exact h
    | some ca =>
      have hvalid : w.tls.cap.valid = false := hcond rfl
      refine ⟨h.clear, h.idle, h.ca, ?_, .of_invalid hvalid⟩
      intro i howner hbegun hv
      exact absurd (hvalid.symm.trans hv) (by simp)

-- The steps that change an anchor that is there.
theorem anchor_step (e : Event) (hkeep : ¬ e.Replaces) :
    (w.step e).tls.anchor = w.tls.anchor ∨
      ∃ i self now stored, e = .commit i self now stored ∧ w.holder = some i ∧
        w.tls.cap.valid = true ∧ (w.step e).tls.anchor = w.tls.merged self now := by
  cases e with
  | begin i =>
    left
    simp only [step]
    split <;> rfl
  | attach i => exact Or.inl rfl
  | callback i crt depth flags =>
    left
    simp only [step, World.callback, State.verifyCb_state]
    split
    · exact State.verifyUpper_anchor _ _
    · exact State.verifyLeaf_anchor _ _
  | commit i self now stored =>
    by_cases hholder : w.holder = some i
    · by_cases hvalid : w.tls.cap.valid = true
      · right
        refine ⟨i, self, now, stored, rfl, hholder, hvalid, ?_⟩
        simp [step, hholder, World.commit, State.commit, hvalid]
      · left
        simp [step, hholder, World.commit, State.commit, hvalid]
    · left
      simp [step, hholder]
  | discard i =>
    left
    simp only [step]
    split <;> rfl
  | finish i =>
    left
    simp only [step]
    split <;> rfl
  | reset => exact absurd trivial hkeep
  | setTrust ca now stored =>
    cases ca with
    | none => exact Or.inl rfl
    | some ca => exact absurd rfl hkeep

theorem keeps_step (e : Event) (h : Filled w) (hkeep : ¬ e.Replaces) :
    w.tls.anchor.Keeps (w.step e).tls.anchor := by
  rcases anchor_step e hkeep with hsame | ⟨i, self, now, stored, _, _, hvalid, hmerged⟩
  · rw [hsame]
    exact .refl _
  · rw [hmerged]
    exact h.passed.keeps hvalid self now

end World

end Espos.Sk.Tls
