import Espos.Sk.Tls.Slot

-- A CA that the operator supplies: `espos_sk_tls_set_trust` with the PEM text it
-- compares, and the connections behind it.

namespace Espos.Sk.Tls

open Espos.Text

-- `espos_sk_tls_trust_t`
inductive Trust where
  | tofu
  | ca
  | bundle
deriving DecidableEq

-- What the configuration sets. `caPem` is the text that was given last.
structure Configured (K : Kconfig) where
  tls : State
  trust : Trust
  caPem : Buf K.skTlsCaMax

variable {K : Kconfig}

-- `espos_sk_tls_parse_ca`, where `parse` is `mbedtls_x509_crt_parse` and gives the
-- first certificate of the text.
def parseCa (K : Kconfig) (parse : CStr → Option Crt) (pem : CStr) : Option Crt :=
  if pem.isEmpty then none
  else if K.skTlsCaMax < pem.length + 1 then none
  else parse pem

namespace Configured

variable (c : Configured K)

-- `espos_sk_tls_set_trust`
def setTrust (parse : CStr → Option Crt) (trust : Trust) (caPem : Option CStr) (now : Int)
    (stored : Bool) : Configured K :=
  match caPem with
  | none => { c with trust }
  | some text =>
    if strcmp c.caPem.chars text == .eq then { c with trust }
    else
      let caPem : Buf K.skTlsCaMax := .print text
      { tls := c.tls.setTrust (parseCa K parse caPem.chars) now stored, trust, caPem }

end Configured

-- A connection: the chain the server sends, and what is committed if it works.
structure Attempt where
  chain : List (Crt × UInt32)
  committed : Option (Option CStr × Int × Bool)

namespace State

variable (s : State)

-- What one connection leaves behind.
def attempt (a : Attempt) : State :=
  let s := (s.handshakeBegin.handshake a.chain).1
  match a.committed with
  | none => s.discard
  | some (self, now, stored) => s.commit self now stored

-- The chain is let through, and once it is committed, and whatever connections
-- come behind that, a leaf under the same CA is let through exactly if it has
-- the same names.
def BindsNames (ca : Crt) (upper : List (Crt × UInt32)) (leaf : Crt) (flags : UInt32) : Prop :=
  let first := s.handshakeBegin.handshake (upper ++ [(leaf, flags)])
  first.2 = true ∧ ∀ self now stored (attempts : List Attempt) upper' leaf' flags',
    caUnder .blank (upper'.map Prod.fst) = some ca.fp →
    (((attempts.foldl attempt (first.1.commit self now stored)).handshakeBegin.handshake
        (upper' ++ [(leaf', flags')])).2 = true ↔ leaf'.sanSet.1 = leaf.sanSet.1)

variable {s : State}

-- What a chain leaves in the slot.
theorem handshake_state (s : State) (upper : List (Crt × UInt32)) (leaf : Crt) (flags : UInt32) :
    (s.handshake (upper ++ [(leaf, flags)])).1 =
      ((upper.map Prod.fst).foldl verifyUpper s).verifyLeaf leaf := by
  induction upper generalizing s with
  | nil => simp [handshake, verifyCb_state]
  | cons top upper ih =>
    have hdepth : 0 < (upper ++ [(leaf, flags)]).length := by simp
    simp only [List.cons_append, handshake, verifyCb_state, hdepth, if_true, ih, List.map_cons,
      List.foldl_cons]

theorem foldl_verifyUpper (s : State) (upper : List Crt) :
    (upper.foldl verifyUpper s).anchor = s.anchor ∧
      (upper.foldl verifyUpper s).cap.ca = caUnder s.cap upper := by
  induction upper generalizing s with
  | nil => exact ⟨rfl, rfl⟩
  | cons crt upper ih =>
    obtain ⟨hanchor, hca⟩ := ih (s.verifyUpper crt)
    rw [List.foldl_cons, hanchor, hca, verifyUpper_anchor, caUnder_verifyUpper]
    exact ⟨rfl, rfl⟩

-- Whatever a connection shows and commits, an anchor that is there stays.
theorem attempt_keeps (s : State) (a : Attempt) : s.anchor.Keeps (s.attempt a).anchor := by
  have hstate : ((s.handshakeBegin.handshake a.chain).1).anchor = s.anchor ∧
      Passed (s.handshakeBegin.handshake a.chain).1 := by
    rcases List.eq_nil_or_concat a.chain with hnil | ⟨upper, ⟨leaf, flags⟩, hchain⟩
    · rw [hnil]
      exact ⟨rfl, Passed.of_invalid rfl⟩
    · rw [hchain, List.concat_eq_append, handshake_state]
      obtain ⟨hanchor, -⟩ := foldl_verifyUpper s.handshakeBegin (upper.map Prod.fst)
      exact ⟨by rw [verifyLeaf_anchor, hanchor]; rfl, Passed.verifyLeaf _ leaf⟩
  obtain ⟨hanchor, hpassed⟩ := hstate
  rw [← hanchor, attempt]
  cases a.committed with
  | none => exact Anchor.Keeps.refl _
  | some how =>
    obtain ⟨self, now, stored⟩ := how
    simp only [commit]
    cases hvalid : ((s.handshakeBegin.handshake a.chain).1).cap.valid with
    | false => exact Anchor.Keeps.refl _
    | true => exact hpassed.keeps hvalid self now

theorem attempts_keep (s : State) (attempts : List Attempt) :
    s.anchor.Keeps (attempts.foldl attempt s).anchor := by
  induction attempts generalizing s with
  | nil => exact Anchor.Keeps.refl _
  | cons a attempts ih => exact (attempt_keeps s a).trans (ih (s.attempt a))

end State

-- A set that is not whole is marked.
theorem head_of_cut {crt : Crt} (h : crt.sanSet.2 = true) :
    crt.sanSet.1.chars.head? = some '!' := by
  simp only [Crt.sanSet, crtSanSet] at h ⊢
  by_cases hcut : (!(normalise (collectNames [] crt.sans).1 SAN_MAX).2 ||
      (collectNames [] crt.sans).2) = true
  · rw [if_pos hcut]
    rfl
  · rw [if_neg hcut] at h
    cases h

-- Under names that are whole, the leaf's are the pinned ones if they are equal.
theorem namesOf_iff {anchor : Anchor} {leaf : Crt} (hnames : storable anchor.san = true) :
    NamesOf anchor leaf ↔ leaf.sanSet.1 = anchor.san := by
  simp only [storable, Bool.and_eq_true, Bool.not_eq_true', bne_iff_ne] at hnames
  obtain ⟨hne, hhead⟩ := hnames
  constructor
  · intro h
    exact Buf.ext (sanEqual_iff.mp h.2).2.2
  · intro h
    have hwhole : leaf.sanSet.2 = false := by
      cases hcut : leaf.sanSet.2 with
      | false => rfl
      | true => exact absurd (h ▸ head_of_cut hcut) hhead
    refine ⟨⟨h ▸ hne, hwhole⟩, sanEqual_iff.mpr ⟨?_, h ▸ hhead, by rw [h]⟩⟩
    rw [h]
    exact fun hnil => by simp [Buf.isEmpty, hnil] at hne

namespace State

variable {s : State} {ca : Crt} {upper : List (Crt × UInt32)} {leaf : Crt} {flags : UInt32}

-- An anchor on the CA that has names goes by them from now on.
theorem later_iff (hkind : s.anchor.kind = .ca) (hca : s.anchor.caFp = ca.fp)
    (hnames : storable s.anchor.san = true) (attempts : List Attempt)
    (hunder : caUnder .blank (upper.map Prod.fst) = some ca.fp) :
    ((attempts.foldl attempt s).handshakeBegin.handshake (upper ++ [(leaf, flags)])).2 = true ↔
      leaf.sanSet.1 = s.anchor.san := by
  obtain ⟨hkind', hfp, hsan⟩ := attempts_keep s attempts (by rw [hkind]; exact Kind.noConfusion)
  have hsan' := hsan hkind
  rw [hkind] at hkind'
  simp only [Anchor.decidingFp, hkind, hkind', reduceCtorEq, if_false] at hfp
  rw [handshake_eq]
  have hanchor : (attempts.foldl attempt s).handshakeBegin.anchor =
      (attempts.foldl attempt s).anchor := rfl
  rw [hanchor, decideOn_ca hkind', namesOf_iff (by rw [hsan']; exact hnames), hsan', hfp, hca]
  exact ⟨And.right, fun h => ⟨hunder, h⟩⟩

-- What the commit of an accepted chain makes of the anchor.
theorem commit_first (hunder : caUnder .blank (upper.map Prod.fst) = some ca.fp)
    (hpass : (s.handshakeBegin.handshake (upper ++ [(leaf, flags)])).2 = true)
    (self : Option CStr) (now : Int) (stored : Bool) :
    let t := (s.handshakeBegin.handshake (upper ++ [(leaf, flags)])).1.commit self now stored
    t.anchor.caFp = ca.fp ∧ t.anchor.leafFp = leaf.fp ∧
      (storable leaf.sanSet.1 = true → t.anchor.san = leaf.sanSet.1) ∧
      (s.anchor.kind ≠ .none → t.anchor.kind = s.anchor.kind) ∧
      (s.anchor.kind = .none → leaf.sanSet.1.isEmpty = false → leaf.sanSet.2 = false →
        t.anchor.kind = .ca) := by
  intro t
  rw [handshake_eq] at hpass
  obtain ⟨hanchor, hca⟩ := foldl_verifyUpper s.handshakeBegin (upper.map Prod.fst)
  let top := (upper.map Prod.fst).foldl verifyUpper s.handshakeBegin
  have hstate : t = (top.verifyLeaf leaf).commit self now stored := by
    rw [← handshake_state s.handshakeBegin upper leaf flags]
  have htop : top.anchor = s.anchor := hanchor
  obtain ⟨hcap, hfp, hsan, -, hvalid⟩ := top.verifyLeaf_cap leaf
  have hvalid' : (top.verifyLeaf leaf).cap.valid = true := by
    rw [hvalid, decision, hanchor, hca]
    exact hpass
  have hhave : (top.verifyLeaf leaf).cap.haveCa = true ∧
      (top.verifyLeaf leaf).cap.caFp = ca.fp := by
    have hsome : (top.verifyLeaf leaf).cap.ca = some ca.fp := by
      rw [hcap]
      exact hca.trans hunder
    by_cases hhave : (top.verifyLeaf leaf).cap.haveCa = true
    · exact ⟨hhave, by simpa [Capture.ca, hhave] using hsome⟩
    · simp [Capture.ca, hhave] at hsome
  have hanchor' : t.anchor = (top.verifyLeaf leaf).merged self now := by
    rw [hstate, commit, if_pos hvalid']
  rw [hanchor']
  refine ⟨by simp [merged, hhave], by simp [merged, hfp], ?_, ?_, ?_⟩
  · intro hnames
    simp [merged, hsan, hnames]
  · intro hsome
    simp [merged, htop, hsome]
  · intro hnone hne hwhole
    have hkind : top.anchor.kind = .none := by
      rw [htop]
      exact hnone
    have hcapture : (top.verifyLeaf leaf).cap.captureAs = _ := verifyLeaf_captureAs hkind
    have hsome : top.cap.ca = some ca.fp := hca.trans hunder
    simp [merged, htop, hnone, hcapture, hsome, hne, hwhole]

-- What the first connection needs of the anchor.
theorem bindsNames_iff (hunder : caUnder .blank (upper.map Prod.fst) = some ca.fp)
    (hne : leaf.sanSet.1.isEmpty = false) (hwhole : leaf.sanSet.2 = false) :
    s.BindsNames ca upper leaf flags ↔ leaf.sanSet.1.chars.head? ≠ some '!' ∧
      (s.anchor.kind = .none ∨
        s.anchor.kind = .ca ∧ s.anchor.caFp = ca.fp ∧ s.anchor.san = leaf.sanSet.1) := by
  have hblank : s.handshakeBegin.cap = .blank := rfl
  have hbegin : s.handshakeBegin.anchor = s.anchor := rfl
  constructor
  · rintro ⟨hpass, hlater⟩
    -- the chain once more, right behind the commit
    have hagain := hlater none 0 true [] upper
    obtain ⟨hca, hfp, hsan, hkind, hfirst⟩ := commit_first hunder hpass none 0 true
    have hverdict := hpass
    rw [handshake_eq, hbegin, hblank, hunder] at hverdict
    cases hk : s.anchor.kind with
    | none =>
      have hthrough := (hagain leaf flags hunder).mpr rfl
      rw [handshake_eq, List.foldl_nil] at hthrough
      have hnames := ((decideOn_ca (hfirst hk hne hwhole)).mp hthrough).2
      exact ⟨(sanEqual_iff.mp hnames.2).2.1, Or.inl rfl⟩
    | ca =>
      obtain ⟨hsame, hnames⟩ := (decideOn_ca hk).mp hverdict
      obtain ⟨-, hhead, heq⟩ := sanEqual_iff.mp hnames.2
      exact ⟨hhead, Or.inr ⟨rfl, (Option.some.inj hsame).symm, (Buf.ext heq).symm⟩⟩
    | leaf =>
      -- another certificate with the same names is turned away
      obtain ⟨other, hother⟩ : ∃ other : Fp, other ≠ leaf.fp := by
        by_cases h : leaf.fp = .zero
        · exact ⟨.fill 1, by rw [h]; decide⟩
        · exact ⟨.zero, Ne.symm h⟩
      have hthrough := (hagain { leaf with fp := other } flags hunder).mpr rfl
      rw [handshake_eq, List.foldl_nil] at hthrough
      have hleaf := hkind (by rw [hk]; exact Kind.noConfusion)
      rw [hk] at hleaf
      exact absurd (((decideOn_leaf hleaf).mp hthrough).trans hfp) hother
  · rintro ⟨hhead, hanchor⟩
    have hstorable : storable leaf.sanSet.1 = true := by
      simp [storable, hne, hhead]
    have hpass : (s.handshakeBegin.handshake (upper ++ [(leaf, flags)])).2 = true := by
      rw [handshake_eq, hbegin, hblank]
      rcases hanchor with hk | ⟨hk, hfp, hsan⟩
      · rw [decideOn_none hk]
        exact Verdict.noConfusion
      · rw [decideOn_ca hk, hunder, hfp, namesOf_iff (by rw [hsan]; exact hstorable), hsan]
        exact ⟨rfl, rfl⟩
    refine ⟨hpass, ?_⟩
    intro self now stored attempts upper' leaf' flags' hunder'
    obtain ⟨hca, -, hsan, hkind, hfirst⟩ := commit_first hunder hpass self now stored
    have hkind' : ((s.handshakeBegin.handshake (upper ++ [(leaf, flags)])).1.commit self now
        stored).anchor.kind = .ca := by
      rcases hanchor with hk | ⟨hk, -⟩
      · exact hfirst hk hne hwhole
      · rw [hkind (by rw [hk]; exact Kind.noConfusion), hk]
    have hnames := hsan hstorable
    rw [later_iff hkind' hca (by rw [hnames]; exact hstorable) attempts hunder', hnames]

-- An anchor on the CA without any names lets nothing through.
theorem supplied_refuses (hkind : s.anchor.kind = .ca) (hsan : s.anchor.san = .empty) :
    (s.handshakeBegin.handshake (upper ++ [(leaf, flags)])).2 = false := by
  rw [← Bool.not_eq_true, handshake_eq, show s.handshakeBegin.anchor = s.anchor from rfl,
    decideOn_ca hkind]
  rintro ⟨-, -, hequal⟩
  rw [hsan] at hequal
  obtain ⟨hne, -, heq⟩ := sanEqual_iff.mp hequal
  exact hne heq

end State

-- The operator's CA connects on the first try exactly if it was there already
-- and nothing is pinned, or the CA is with the names of this server: to give it
-- anew pins it without names, and no server has none.
theorem supplied_ca_binds_iff (parse : CStr → Option Crt) (c : Configured K) (trust : Trust)
    (pem : CStr) (now : Int) (stored : Bool) {ca : Crt} (flagsCa : UInt32)
    (upper : List (Crt × UInt32)) {leaf : Crt} (flags : UInt32)
    (hparse : parseCa K parse (Buf.print pem : Buf K.skTlsCaMax).chars = some ca)
    (hca : ca.isCa = true) (hne : leaf.sanSet.1.isEmpty = false) (hwhole : leaf.sanSet.2 = false) :
    (c.setTrust parse trust (some pem) now stored).tls.BindsNames ca ((ca, flagsCa) :: upper) leaf
        flags ↔
      c.caPem.chars = pem ∧ leaf.sanSet.1.chars.head? ≠ some '!' ∧
        (c.tls.anchor.kind = .none ∨ c.tls.anchor.kind = .ca ∧ c.tls.anchor.caFp = ca.fp ∧
          c.tls.anchor.san = leaf.sanSet.1) := by
  by_cases hsame : c.caPem.chars = pem
  · have htls : (c.setTrust parse trust (some pem) now stored).tls = c.tls := by
      simp [Configured.setTrust, hsame, strcmp_eq_iff]
    have hunder : caUnder .blank (((ca, flagsCa) :: upper).map Prod.fst) = some ca.fp := by
      simp [caUnder, Capture.blank, hca]
    rw [htls, State.bindsNames_iff hunder hne hwhole]
    exact ⟨fun h => ⟨hsame, h⟩, And.right⟩
  · have hanchor : (c.setTrust parse trust (some pem) now stored).tls.anchor =
        State.suppliedAnchor ca now := by
      have hdiffer : (strcmp c.caPem.chars pem == .eq) = false := by
        rw [← Bool.not_eq_true, beq_iff_eq, strcmp_eq_iff]
        exact hsame
      simp [Configured.setTrust, hdiffer, State.setTrust, hparse]
    constructor
    · rintro ⟨hpass, -⟩
      rw [State.supplied_refuses (by rw [hanchor]; rfl) (by rw [hanchor]; rfl)] at hpass
      cases hpass
    · exact fun h => absurd h.1 hsame

-- The boat's CA as the configuration has it.
def boatPem : CStr :=
  lit "-----BEGIN CERTIFICATE-----"

def parseBoat (text : CStr) : Option Crt :=
  if text = boatPem then some boatCa else none

-- A device out of the box that is given the CA, and the server of that CA.
theorem supplied_ca_refused :
    let c : Configured Kconfig.default := ⟨.boot .blank, .tofu, .empty⟩
    let leaf := boatLeaf (.fill 3)
    let after := c.setTrust parseBoat .ca (some boatPem) 0 true
    parseCa Kconfig.default parseBoat boatPem = some boatCa ∧ leaf.sanSet.1.isEmpty = false ∧
      leaf.sanSet.2 = false ∧
      (after.tls.handshakeBegin.handshake [(boatCa, 0), (leaf, 0)]).2 = false ∧
      ¬ after.tls.BindsNames boatCa [(boatCa, 0)] leaf 0 := by
  intro c leaf after
  have hrefused : (after.tls.handshakeBegin.handshake [(boatCa, 0), (leaf, 0)]).2 = false := by
    decide +kernel
  refine ⟨by decide +kernel, by decide +kernel, by decide +kernel, hrefused, ?_⟩
  intro hbinds
  exact absurd hbinds.1 (by rw [Bool.not_eq_true]; exact hrefused)

-- The same CA given again after the anchor was cleared.
theorem supplied_ca_binds_after_reset :
    let c : Configured Kconfig.default := ⟨(State.boot boatAnchor).reset, .ca, .print boatPem⟩
    (c.setTrust parseBoat .ca (some boatPem) 0 true).tls.BindsNames boatCa [(boatCa, 0)]
      (boatLeaf (.fill 3)) 0 := by
  intro c
  exact (supplied_ca_binds_iff parseBoat c .ca boatPem 0 true 0 [] 0 (by decide +kernel) rfl
    (by decide +kernel) (by decide +kernel)).mpr
      ⟨by decide +kernel, by decide +kernel, Or.inl rfl⟩

end Espos.Sk.Tls
