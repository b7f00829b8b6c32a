import Espos.Sk.Tls.AnchorStore
import Espos.Sk.Tls.Slot

-- What is left of a pinned chain after boots and power cuts.

namespace Espos.Sk.Tls

open Espos.Text
open Espos.Nvs
open Espos.Run

-- An anchor that is there lets the leaf through.
def Anchor.Admits (a : Anchor) (ca : Option Fp) (leaf : Crt) : Prop :=
  a.kind ≠ .none ∧ (decideOn (factsOf a ca leaf)).verdict ≠ .reject

namespace Anchor

variable {a b : Anchor} {ca : Option Fp} {leaf : Crt}

theorem Admits.of_keeps (h : a.Admits ca leaf) (hkeeps : a.Keeps b) : b.Admits ca leaf := by
  obtain ⟨hsome, hverdict⟩ := h
  obtain ⟨hkind, hfp, hsan⟩ := hkeeps hsome
  refine ⟨hkind ▸ hsome, ?_⟩
  cases hk : a.kind with
  | none => exact absurd hk hsome
  | ca =>
    rw [hk] at hkind
    have hca : b.caFp = a.caFp := by simpa [decidingFp, hk, hkind] using hfp
    rw [State.decideOn_ca hk] at hverdict
    rw [State.decideOn_ca hkind, hca, NamesOf, hsan hk]
    exact hverdict
  | leaf =>
    rw [hk] at hkind
    have hleaf : b.leafFp = a.leafFp := by simpa [decidingFp, hk, hkind] using hfp
    rw [State.decideOn_leaf hk] at hverdict
    rw [State.decideOn_leaf hkind, hleaf]
    exact hverdict

-- Also while `b` is being written.
theorem Keeps.mix (h : a.Keeps b) (n : Nat) : a.Keeps (a.mix b n) := by
  intro hsome
  obtain ⟨hkind, hfp, hsan⟩ := h hsome
  have hmixed : (a.mix b n).kind = a.kind := by
    simp only [Anchor.mix, hkind, ite_self]
  refine ⟨hmixed, ?_, ?_⟩
  · by_cases hleaf : a.kind = .leaf
    · simp only [decidingFp, hmixed, hkind, hleaf, if_true] at hfp ⊢
      simp only [Anchor.mix, hfp, ite_self]
    · simp only [decidingFp, hmixed, hkind, hleaf, if_false] at hfp ⊢
      simp only [Anchor.mix, hfp, ite_self]
  · intro hca
    simp only [Anchor.mix, hsan hca, ite_self]

end Anchor

namespace World

variable {w : World} {e : Event} {a b : Anchor}

theorem writes_of_stores (h : w.stores e = some b) : w.writes e = storeWrites b := by
  have hne : e ≠ .reset := by
    rintro rfl
    cases h
  simp only [writes, if_neg hne, h]

theorem writes_cases (w : World) (e : Event) :
    w.writes e = [] ∨ e = .reset ∨ ∃ b, w.stores e = some b := by
  by_cases hreset : e = .reset
  · exact Or.inr (Or.inl hreset)
  · cases hstores : w.stores e with
    | none => exact Or.inl (by simp [writes, hreset, hstores])
    | some b => exact Or.inr (Or.inr ⟨b, rfl⟩)

theorem writes_take (w : World) (e : Event) : (w.writes e).take 7 = w.writes e := by
  rcases w.writes_cases e with hnone | rfl | ⟨b, hstores⟩
  · rw [hnone]
    rfl
  · rfl
  · rw [writes_of_stores hstores]
    rfl

theorem stores_commit {i : Nat} {self : Option CStr} {now : Int} {stored : Bool}
    (h : w.stores (.commit i self now stored) = some b) :
    w.holder = some i ∧ w.tls.cap.valid = true ∧ b = w.tls.merged self now := by
  simp only [stores] at h
  split at h
  · rename_i hcond
    have hvalid : w.tls.cap.valid = true := by
      have hwrites := hcond.2.1
      simp only [State.commitWrites, Bool.and_eq_true] at hwrites
      exact hwrites.1
    exact ⟨hcond.1, hvalid, (Option.some.inj h).symm⟩
  · cases h

-- What is written is what the device goes by afterwards.
theorem anchor_of_stores (h : w.stores e = some b) : (w.step e).tls.anchor = b := by
  cases e with
  | commit i self now stored =>
    obtain ⟨hholder, hvalid, rfl⟩ := stores_commit h
    simp [step, hholder, World.commit, State.commit, hvalid]
  | setTrust ca now stored =>
    cases ca with
    | none => cases h
    | some ca =>
      cases stored with
      | false => cases h
      | true => exact Option.some.inj h
  | begin i => cases h
  | attach i => cases h
  | callback i crt depth flags => cases h
  | discard i => cases h
  | finish i => cases h
  | reset => cases h

theorem kind_of_stores (hfilled : Filled w) (h : w.stores e = some b) : b.kind ≠ .none := by
  cases e with
  | commit i self now stored =>
    obtain ⟨_, hvalid, rfl⟩ := stores_commit h
    by_cases hkind : w.tls.anchor.kind = .none
    · simp only [State.merged, hkind, decide_true, if_true]
      exact hfilled.passed.first hvalid hkind
    · simp [State.merged, hkind]
  | setTrust ca now stored =>
    cases ca with
    | none => cases h
    | some ca =>
      cases stored with
      | false => cases h
      | true =>
        obtain rfl := Option.some.inj h
        simp [State.suppliedAnchor]
  | begin i => cases h
  | attach i => cases h
  | callback i crt depth flags => cases h
  | discard i => cases h
  | finish i => cases h
  | reset => cases h

end World

namespace Device

variable {d : Device} {e : World.Event} {a b : Anchor}

theorem cutNvs_reset (hnvs : Represents d.nvs a) (n : Nat) :
    Represents (d.cutNvs .reset n) (a.mix .blank n) :=
  hnvs.eraseWrites n

theorem cutNvs_stores (hnvs : Represents d.nvs a) (h : d.world.stores e = some b) (n : Nat) :
    Represents (d.cutNvs e n) (a.mix b n) := by
  rw [cutNvs, World.writes_of_stores h]
  exact hnvs.storeWrites b n

-- The state a device can be in, whatever happened to its power.
structure Sound (d : Device) : Prop where
  filled : d.world.Filled
  nvs : ∃ a, Represents d.nvs a

theorem sound_fresh : Sound fresh :=
  ⟨World.filled_start _, .blank, fun _ => rfl⟩

theorem Sound.cut (h : Sound d) (e : World.Event) (n : Nat) : ∃ a, Represents (d.cutNvs e n) a := by
  obtain ⟨a, hnvs⟩ := h.nvs
  rcases d.world.writes_cases e with hnone | rfl | ⟨b, hstores⟩
  · refine ⟨a, ?_⟩
    rw [cutNvs, hnone, List.take_nil]
    exact hnvs
  · exact ⟨_, cutNvs_reset hnvs n⟩
  · exact ⟨_, cutNvs_stores hnvs hstores n⟩

theorem cutNvs_all (d : Device) (e : World.Event) :
    d.cutNvs e 7 = after d.nvs (d.world.writes e) := by
  rw [cutNvs, World.writes_take]

theorem sound_step (ev : Event) (h : Sound d) (hcond : d.Undisturbed ev) : Sound (d.step ev) := by
  cases ev with
  | ran e =>
    refine ⟨World.filled_step e h.filled hcond, ?_⟩
    obtain ⟨a, hnvs⟩ := h.cut e 7
    rw [cutNvs_all] at hnvs
    exact ⟨a, hnvs⟩
  | cut e n => exact ⟨World.filled_start _, h.cut e n⟩

theorem cutSafe_iff (h : Sound d) (hstores : d.world.stores e = some b) :
    d.CutSafe e ↔ (load d.nvs).OneChange b := by
  obtain ⟨a, hnvs⟩ := h.nvs
  rw [hnvs.load_eq, ← Anchor.mix_iff (World.kind_of_stores h.filled hstores)]
  apply forall_congr'
  intro n
  rw [(cutNvs_stores hnvs hstores n).load_eq, hnvs.load_eq, World.writes_of_stores hstores,
    load_storeWrites]

theorem cutSafe_reset (h : Sound d) : d.CutSafe .reset := by
  obtain ⟨a, hnvs⟩ := h.nvs
  intro n
  simp only [(cutNvs_reset hnvs n).load_eq, hnvs.load_eq]
  cases n with
  | zero => exact Or.inl rfl
  | succ n => exact Or.inr (Or.inr (by simp [Anchor.mix, Anchor.blank]))

-- Neither NVS nor the device has lost the chain.
structure Survives (ca : Option Fp) (leaf : Crt) (d : Device) : Prop where
  filled : d.world.Filled
  nvs : ∃ a, Represents d.nvs a ∧ a.Admits ca leaf ∧ a.Keeps d.world.tls.anchor

variable {ca : Option Fp} {leaf : Crt}

theorem survives_step (ev : Event) (h : Survives ca leaf d)
    (hcond : d.Undisturbed ev ∧ ¬ ev.Replaces) : Survives ca leaf (d.step ev) := by
  obtain ⟨a, hnvs, hadmits, hkeeps⟩ := h.nvs
  cases ev with
  | ran e =>
    refine ⟨World.filled_step e h.filled hcond.1, ?_⟩
    have hstep : a.Keeps (d.world.step e).tls.anchor :=
      hkeeps.trans (World.keeps_step e h.filled hcond.2)
    rcases d.world.writes_cases e with hnone | rfl | ⟨b, hstores⟩
    · refine ⟨a, ?_, hadmits, hstep⟩
      simp only [step, hnone]
      exact hnvs
    · exact absurd trivial hcond.2
    · have hanchor := World.anchor_of_stores hstores
      rw [hanchor] at hstep
      refine ⟨a.mix b 7, ?_, hadmits.of_keeps (hstep.mix 7), ?_⟩
      · have hcut := cutNvs_stores hnvs hstores 7
        rw [cutNvs_all] at hcut
        exact hcut
      · change (a.mix b 7).Keeps (d.world.step e).tls.anchor
        rw [hanchor]
        exact .refl b
  | cut e n =>
    refine ⟨World.filled_start _, ?_⟩
    have hstart : ∀ c, Represents (d.cutNvs e n) c →
        c.Keeps (World.start (load (d.cutNvs e n))).tls.anchor := by
      intro c hc
      rw [hc.load_eq]
      exact .refl c
    rcases d.world.writes_cases e with hnone | rfl | ⟨b, hstores⟩
    · have hcut : d.cutNvs e n = d.nvs := by
        rw [cutNvs, hnone, List.take_nil]
        rfl
      have hsame : Represents (d.cutNvs e n) a := by
        rw [hcut]
        exact hnvs
      exact ⟨a, hsame, hadmits, hstart a hsame⟩
    · exact absurd trivial hcond.2
    · have hmixed := cutNvs_stores hnvs hstores n
      have hstep : a.Keeps b := by
        rw [← World.anchor_of_stores hstores]
        exact hkeeps.trans (World.keeps_step e h.filled hcond.2)
      exact ⟨a.mix b n, hmixed, hadmits.of_keeps (hstep.mix n), hstart _ hmixed⟩

theorem admits_of_survives (ev : Event) (h : Survives ca leaf d) (hcond : d.Undisturbed ev) :
    d.Admits ca leaf ev := by
  obtain ⟨a, _, hadmits, hkeeps⟩ := h.nvs
  cases ev with
  | cut e n => trivial
  | ran e =>
    cases e with
    | callback j crt depth flags =>
      rintro _ rfl hown
      rw [State.decision, h.filled.ca_eq hcond, hown]
      exact (hadmits.of_keeps hkeeps).2
    | begin i => trivial
    | attach i => trivial
    | commit i self now stored => trivial
    | discard i => trivial
    | finish i => trivial
    | reset => trivial
    | setTrust ca now stored => trivial

-- A chain that is pinned is one the anchor lets through, unless the names of its
-- leaf look as if there were more of them.
theorem admits_merged_iff {w : World} {i : Nat} {self : Option CStr} {now : Int}
    (hfilled : w.Filled) (hcond : w.Undisturbed (.commit i self now true))
    (hholder : w.holder = some i) (hvalid : w.tls.cap.valid = true)
    (hkind : w.tls.anchor.kind = .none) (hleaf : (w.own i).leaf = some leaf) :
    (w.tls.merged self now).Admits (w.own i).ca leaf ↔
      ¬ (w.tls.cap.captureAs = .ca ∧ leaf.sanSet.1.chars.head? = some '!') := by
  obtain ⟨hca, leaf', hleaf', hrecords⟩ := hfilled.committed hcond hholder hvalid
  obtain rfl : leaf = leaf' := Option.some.inj (hleaf.symm.trans hleaf')
  have hmerged : (w.tls.merged self now).kind = w.tls.cap.captureAs := by
    simp [State.merged, hkind]
  rcases hrecords.first hkind with has | ⟨has, hsome, hnonempty, hcut⟩
  · rw [has] at hmerged ⊢
    have hfp : leaf.fp = (w.tls.merged self now).leafFp := hrecords.fp.symm
    simp [Anchor.Admits, hmerged, State.decideOn_leaf hmerged, hfp]
  · rw [has] at hmerged ⊢
    have hhave : w.tls.cap.haveCa = true := by
      by_contra hhave
      simp [Capture.ca, hhave] at hsome
    have hcaFp : (w.own i).ca = some (w.tls.merged self now).caFp := by
      rw [← hca]
      simp [Capture.ca, State.merged, hhave]
    rw [Anchor.Admits, State.decideOn_ca hmerged, NamesOf, sanEqual_iff]
    constructor
    · rintro ⟨_, _, _, _, hhead, _⟩ ⟨_, hmarked⟩
      exact hhead hmarked
    · intro hnot
      have hhead : leaf.sanSet.1.chars.head? ≠ some '!' := fun hmarked => hnot ⟨rfl, hmarked⟩
      have hstorable : storable w.tls.cap.san = true := by
        rw [hrecords.san, storable, hnonempty]
        simpa using hhead
      have hsan : (w.tls.merged self now).san = leaf.sanSet.1 := by
        simp only [State.merged]
        rw [if_pos hstorable, hrecords.san]
      have hchars : leaf.sanSet.1.chars ≠ [] := by
        simpa [Buf.isEmpty] using hnonempty
      rw [hsan, hmerged]
      exact ⟨by simp, hcaFp, ⟨hnonempty, hcut⟩, hchars, hhead, rfl⟩

section Pin

variable {i : Nat} {self : Option CStr} {now : Int}

theorem survives_pin (h : Sound d) (hcond : d.Undisturbed (.ran (.commit i self now true)))
    (hpins : d.Pins i leaf)
    (hadmits : (d.world.tls.merged self now).Admits (d.world.own i).ca leaf) :
    Survives (d.world.own i).ca leaf (d.step (.ran (.commit i self now true))) := by
  obtain ⟨hholder, hvalid, hkind, _⟩ := hpins
  have hstores : d.world.stores (.commit i self now true) = some (d.world.tls.merged self now) := by
    simp [World.stores, hholder, State.commitWrites, hvalid, hkind]
  obtain ⟨a, hnvs⟩ := h.nvs
  have hfilled := World.filled_step (.commit i self now true) h.filled hcond
  refine ⟨hfilled, d.world.tls.merged self now, ?_, hadmits, ?_⟩
  · have hcut := cutNvs_stores hnvs hstores 7
    rw [cutNvs_all] at hcut
    exact hcut
  · change (d.world.tls.merged self now).Keeps (d.world.step (.commit i self now true)).tls.anchor
    rw [World.anchor_of_stores hstores]
    exact .refl _

-- The server shows the same chain once more.
def again (i : Nat) (ca : Fp) (leaf : Crt) : List Event :=
  [.ran (.finish i), .ran (.begin i), .ran (.callback i ⟨ca, true, none, []⟩ 1 0),
    .ran (.callback i leaf 0 0)]

theorem verdict_again {ca : Fp} (hholder : d.world.holder = some i)
    (h : Along step (fun d ev => d.Undisturbed ev ∧ ¬ ev.Replaces) d (again i ca leaf) →
      Along step (Admits (some ca) leaf) d (again i ca leaf)) :
    (decideOn (factsOf d.world.tls.anchor (some ca) leaf)).verdict ≠ .reject := by
  have hquiet : Along step (fun d ev => d.Undisturbed ev ∧ ¬ ev.Replaces) d (again i ca leaf) := by
    refine ⟨⟨trivial, id⟩, ⟨trivial, id⟩, ⟨?_, id⟩, ⟨?_, id⟩, trivial⟩
    · simp [Undisturbed, World.Undisturbed, step, World.step, hholder, World.begin, World.restart,
        Own.blank]
    · simp [Undisturbed, World.Undisturbed, step, World.step, hholder, World.begin, World.restart,
        World.callback, Own.upper]
  obtain ⟨_, _, _, hleaf, _⟩ := h hquiet
  have hown := hleaf rfl rfl
  simpa [step, World.step, hholder, World.begin, World.restart, World.callback, Own.upper,
    Own.blank, State.decision, State.verifyCb, State.verifyUpper, State.handshakeBegin,
    Capture.blank, Capture.ca] using hown

theorem pinLasts_iff (h : Sound d) (hcond : d.Undisturbed (.ran (.commit i self now true)))
    (hpins : d.Pins i leaf) :
    d.PinLasts i self now leaf ↔
      ¬ (d.world.tls.cap.captureAs = .ca ∧ leaf.sanSet.1.chars.head? = some '!') := by
  obtain ⟨hholder, hvalid, hkind, hleaf⟩ := id hpins
  have hown : d.world.Undisturbed (.commit i self now true) := hcond
  have hiff := admits_merged_iff h.filled hown hholder hvalid hkind hleaf
  constructor
  · rintro hlasts hmarked
    obtain ⟨hca, leaf', _, hrecords⟩ := h.filled.committed hown hholder hvalid
    have hsome : (d.world.own i).ca.isSome = true := by
      rcases hrecords.first hkind with has | ⟨_, hsome, _⟩
      · rw [hmarked.1] at has
        cases has
      · rw [← hca]
        exact hsome
    obtain ⟨fp, hfp⟩ := Option.isSome_iff_exists.mp hsome
    have hmerged : (d.world.tls.merged self now).kind = .ca := by
      simp [State.merged, hkind, hmarked.1]
    have hanchor : (d.step (.ran (.commit i self now true))).world.tls.anchor =
        d.world.tls.merged self now := by
      simp [step, World.step, hholder, World.commit, State.commit, hvalid]
    have hagain := hlasts (again i fp leaf)
    rw [hfp] at hagain
    have hverdict := verdict_again (by simp [step, World.step, hholder, World.commit]) hagain
    rw [hanchor, ← hfp] at hverdict
    refine hiff.mp ⟨?_, hverdict⟩ hmarked
    rw [hmerged]
    simp
  · intro hnot es halong
    have hpin := survives_pin h hcond hpins (hiff.mpr hnot)
    refine along_of_invariant (fun d ev hd hev => survives_step ev hd hev) ?_ hpin halong
    intro d ev hsurvives hcond
    exact admits_of_survives ev hsurvives hcond.1

end Pin

end Device

-- Pinned chains, power cuts and the round trip, on every device there can be.
theorem anchor_survives (es : List Device.Event)
    (hcond : Along Device.step Device.Undisturbed Device.fresh es) :
    let d := run Device.step Device.fresh es
    (∀ i self now leaf, d.Undisturbed (.ran (.commit i self now true)) → d.Pins i leaf →
      (d.PinLasts i self now leaf ↔
        ¬ (d.world.tls.cap.captureAs = .ca ∧ leaf.sanSet.1.chars.head? = some '!'))) ∧
    (∀ a, load (after d.nvs (storeWrites a)) = a) ∧
    (∀ e a, d.world.stores e = some a → (d.CutSafe e ↔ (load d.nvs).OneChange a)) ∧
    d.CutSafe .reset := by
  intro d
  have hsound : d.Sound :=
    run_invariant_of_along (fun _ ev h hev => Device.sound_step ev h hev) Device.sound_fresh hcond
  refine ⟨?_, ?_, ?_, ?_⟩
  · intro i self now leaf hcond hpins
    exact Device.pinLasts_iff hsound hcond hpins
  · exact load_storeWrites d.nvs
  · intro e a hstores
    exact Device.cutSafe_iff hsound hstores
  · exact Device.cutSafe_reset hsound

-- A first connect to the boat, up to the commit.
def boatConnect : List Device.Event :=
  [.ran (.begin 1), .ran (.callback 1 boatCa 1 8), .ran (.callback 1 (boatLeaf (.fill 3)) 0 8)]

theorem boatConnect_pins :
    (run Device.step Device.fresh boatConnect).Pins 1 (boatLeaf (.fill 3)) := by
  rw [Device.Pins]
  decide +kernel

-- The power fails behind `tls_kind`: a CA is pinned whose fingerprint is all
-- zeros.
theorem first_pin_torn :
    let d := run Device.step Device.fresh boatConnect
    d.Pins 1 (boatLeaf (.fill 3)) ∧ ¬ d.CutSafe (.commit 1 none 1700000000 true) := by
  refine ⟨boatConnect_pins, ?_⟩
  intro hsafe
  have hcut := hsafe 1
  revert hcut
  decide +kernel

-- The chain of that connect is let through ever after.
theorem anchor_survives_boat :
    (run Device.step Device.fresh boatConnect).PinLasts 1 none 1700000000 (boatLeaf (.fill 3)) := by
  have hquiet : Along Device.step Device.Undisturbed Device.fresh boatConnect :=
    ⟨trivial, rfl, rfl, trivial⟩
  obtain ⟨hpin, _⟩ := anchor_survives boatConnect hquiet
  refine (hpin 1 none 1700000000 _ ?_ boatConnect_pins).mpr (by decide +kernel)
  intro _
  exact Or.inr ⟨rfl, rfl⟩

end Espos.Sk.Tls
