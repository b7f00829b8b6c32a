import Espos.Sk.Tls.Slot

-- Whom the slot is for.

namespace Espos.Sk.Tls

open Espos.Text
open Espos.Run

-- A certificate of `S` that an anchor on a leaf pins has the names recorded with
-- it, where there are such.
def Pinned (S : Crt → Prop) (a : Anchor) : Prop :=
  a.kind = .leaf → ∀ c, S c → c.fp = a.leafFp →
    a.san.isEmpty = true ∨ a.san = c.sanSet.1 ∨ storable c.sanSet.1 = false

-- A slot that may be committed is about a certificate of `S`.
structure Judged (S : Crt → Prop) (s : State) : Prop where
  shown : s.cap.valid = true → ∃ c, S c ∧ s.cap.leafFp = c.fp ∧ s.cap.san = c.sanSet.1
  pinned : Pinned S s.anchor

namespace Judged

variable {S : Crt → Prop} {s : State} {crt : Crt}

theorem of_invalid (hvalid : s.cap.valid = false) (hpinned : Pinned S s.anchor) : Judged S s := by
  refine ⟨?_, hpinned⟩
  intro h
  rw [hvalid] at h
  cases h

theorem verifyUpper (h : Judged S s) (crt : Crt) : Judged S (s.verifyUpper crt) := by
  obtain ⟨fp, have_, hcap⟩ := s.verifyUpper_cap crt
  refine ⟨?_, ?_⟩
  · rw [hcap]
    exact h.shown
  · rw [s.verifyUpper_anchor crt]
    exact h.pinned

theorem verifyLeaf (h : Judged S s) (hcrt : S crt) : Judged S (s.verifyLeaf crt) := by
  obtain ⟨hca, hfp, hsan, hcn, hvalid⟩ := s.verifyLeaf_cap crt
  refine ⟨?_, ?_⟩
  · intro _
    exact ⟨crt, hcrt, hfp, hsan⟩
  · rw [s.verifyLeaf_anchor crt]
    exact h.pinned

-- A commit leaves alone what the anchor decides by and the names it has.
theorem stays (h : Judged S s) (hpassed : Passed s) (hvalid : s.cap.valid = true)
    (self : Option CStr) (now : Int) : s.anchor.Stays (s.merged self now) := by
  intro hsome
  obtain ⟨hkind, hfp, hsan⟩ := hpassed.keeps hvalid self now hsome
  refine ⟨hkind, hfp, ?_⟩
  intro hnonempty
  cases hk : s.anchor.kind with
  | none => exact absurd hk hsome
  | ca => exact hsan hk
  | leaf =>
    obtain ⟨c, hc, hcfp, hcsan⟩ := h.shown hvalid
    have hleaf := hpassed.leaf hvalid hk
    rcases h.pinned hk c hc (hcfp.symm.trans hleaf) with hempty | heq | hnot
    · rw [hempty] at hnonempty
      cases hnonempty
    · simp [State.merged, hcsan, heq]
    · simp [State.merged, hcsan, hnot]

variable (hS : ∀ c d, S c → S d → c.fp = d.fp → c = d)

include hS

theorem commit (h : Judged S s) (self : Option CStr) (now : Int) (stored : Bool) :
    Judged S (s.commit self now stored) := by
  by_cases hvalid : s.cap.valid = true
  · rw [State.commit, if_pos hvalid]
    refine of_invalid rfl ?_
    obtain ⟨c, hc, hfp, hsan⟩ := h.shown hvalid
    intro _ d hd hdfp
    have hdc : d = c := hS d c hd hc (hdfp.trans hfp)
    subst hdc
    by_cases hstorable : storable s.cap.san = true
    · have hmerged : (s.merged self now).san = s.cap.san := by simp [State.merged, hstorable]
      exact Or.inr (Or.inl (hmerged.trans hsan))
    · right
      right
      rw [← hsan]
      simpa using hstorable
  · rw [State.commit, if_neg hvalid]
    exact h

end Judged

namespace World

variable {S : Crt → Prop} {w : World}

-- The certificate an event shows.
def Event.Shows (S : Crt → Prop) : Event → Prop
  | .callback _ crt _ _ => S crt
  | _ => True

theorem judged_step (hS : ∀ c d, S c → S d → c.fp = d.fp → c = d) (e : Event)
    (h : Judged S w.tls) (hcond : w.Undisturbed e) (hshows : e.Shows S) :
    Judged S (w.step e).tls := by
  cases e with
  | begin i =>
    simp only [step]
    split
    · exact .of_invalid rfl h.pinned
    · exact h
  | attach i => exact h
  | callback i crt depth flags =>
    simp only [step, World.callback, State.verifyCb_state]
    split
    · exact h.verifyUpper crt
    · exact h.verifyLeaf hshows
  | commit i self now stored =>
    simp only [step]
    split
    · exact h.commit hS self now stored
    · exact h
  | discard i =>
    simp only [step]
    split
    · exact .of_invalid rfl h.pinned
    · exact h
  | finish i =>
    simp only [step]
    split <;> exact h
  | reset =>
    refine .of_invalid rfl ?_
    intro hkind
    cases hkind
  | setTrust ca now stored =>
    cases ca with
    | none => exact h
    | some ca =>
      refine .of_invalid (hcond rfl) ?_
      intro hkind
      cases hkind

theorem stays_step (e : Event) (hfilled : Filled w) (h : Judged S w.tls) (hkeep : ¬ e.Replaces) :
    w.tls.anchor.Stays (w.step e).tls.anchor := by
  rcases anchor_step e hkeep with hsame | ⟨i, self, now, stored, _, _, hvalid, hmerged⟩
  · rw [hsame]
    exact fun _ => ⟨rfl, rfl, fun _ => rfl⟩
  · rw [hmerged]
    exact h.stays hfilled.passed hvalid self now

theorem apart_step (e : Event) (hfilled : Filled w) (h : Judged S w.tls)
    (hcond : w.Undisturbed e) : w.Apart e := by
  cases e with
  | begin i => exact ⟨trivial, stays_step _ hfilled h id⟩
  | attach i => exact ⟨trivial, stays_step _ hfilled h id⟩
  | callback i crt depth flags =>
    refine ⟨?_, stays_step _ hfilled h id⟩
    intro _
    rw [OwnVerdict, State.decision, hfilled.ca_eq hcond]
  | commit i self now stored =>
    refine ⟨?_, stays_step _ hfilled h id⟩
    intro hholder hvalid
    obtain ⟨hca, leaf, hleaf, hrecords⟩ := hfilled.committed hcond hholder hvalid
    refine ⟨leaf, hleaf, hrecords.fp, hrecords.cn, ?_, ?_⟩
    · by_cases hhave : w.tls.cap.haveCa = true
      · right
        rw [← hca]
        simp [Capture.ca, State.merged, hhave]
      · left
        simp [State.merged, hhave]
    · by_cases hstorable : storable w.tls.cap.san = true
      · right
        rw [← hrecords.san]
        simp [State.merged, hstorable]
      · left
        simp [State.merged, hstorable]
  | discard i => exact ⟨trivial, stays_step _ hfilled h id⟩
  | finish i => exact ⟨trivial, stays_step _ hfilled h id⟩
  | reset => exact ⟨trivial, trivial⟩
  | setTrust ca now stored => exact ⟨trivial, trivial⟩

-- The certificates of a run.
def certs (es : List Event) : List Crt :=
  es.filterMap fun e =>
    match e with
    | .callback _ crt _ _ => some crt
    | _ => none

theorem shows_of_mem {es : List Event} {e : Event} (h : e ∈ es) : e.Shows (· ∈ certs es) := by
  cases e with
  | callback i crt depth flags => exact List.mem_filterMap.mpr ⟨_, h, rfl⟩
  | begin i => trivial
  | attach i => trivial
  | commit i self now stored => trivial
  | discard i => trivial
  | finish i => trivial
  | reset => trivial
  | setTrust ca now stored => trivial

end World

-- No handshake leaks into another while the slot is left alone. Fingerprints
-- tell the certificates apart, the one pinned before the run included.
theorem handshakes_apart (a : Anchor) (es : List World.Event)
    (hfp : ∀ c d, c ∈ World.certs es → d ∈ World.certs es → c.fp = d.fp → c = d)
    (hpin : Pinned (· ∈ World.certs es) a)
    (hcond : Along World.step World.Undisturbed (World.start a) es) :
    Along World.step World.Apart (World.start a) es := by
  have hshows : Along World.step (fun _ e => World.Event.Shows (· ∈ World.certs es) e)
      (World.start a) es := along_of_forall fun e he => World.shows_of_mem he
  refine along_of_invariant (P := fun w => w.Filled ∧ Judged (· ∈ World.certs es) w.tls)
    ?_ ?_ ⟨World.filled_start a, .of_invalid rfl hpin⟩ (along_and hcond hshows)
  · rintro w e ⟨hfilled, hjudged⟩ ⟨hcond, hshows⟩
    exact ⟨World.filled_step e hfilled hcond, World.judged_step hfp e hjudged hcond hshows⟩
  · rintro w e ⟨hfilled, hjudged⟩ ⟨hcond, _⟩
    exact World.apart_step e hfilled hjudged hcond

-- While a request waits for its certificates, the control socket shows the
-- boat's CA; the request's server then presents a bare leaf.
theorem control_socket_leaks :
    ¬ Along World.step World.Apart (World.start boatAnchor)
      [.begin 1, .attach 2, .callback 2 boatCa 1 8, .callback 1 (boatLeaf (.fill 9)) 0 8] := by
  rintro ⟨_, _, _, ⟨hverdict, _⟩, _⟩
  have hown := hverdict rfl
  rw [World.OwnVerdict] at hown
  revert hown
  decide +kernel

-- A first use that nothing disturbs.
theorem handshakes_apart_first_use :
    Along World.step World.Apart (World.start .blank)
      [.begin 1, .callback 1 boatCa 1 8, .callback 1 (boatLeaf (.fill 3)) 0 8,
        .commit 1 none 1700000000 true, .finish 1] := by
  apply handshakes_apart
  · intro c d hc hd hfp
    simp only [World.certs, List.filterMap_cons, List.filterMap_nil, List.mem_cons,
      List.not_mem_nil, or_false] at hc hd
    have hne : boatCa.fp ≠ (boatLeaf (.fill 3)).fp := by decide +kernel
    rcases hc with rfl | rfl
    · rcases hd with rfl | rfl
      · rfl
      · exact absurd hfp hne
    · rcases hd with rfl | rfl
      · exact absurd hfp hne.symm
      · rfl
  · intro hkind
    cases hkind
  · refine ⟨trivial, rfl, rfl, ?_, trivial, trivial⟩
    intro _
    exact Or.inr ⟨rfl, rfl⟩

end Espos.Sk.Tls
