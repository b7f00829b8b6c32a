import Mathlib.Algebra.Order.Ring.Nat
import Mathlib.Data.List.Nodup
import Mathlib.Data.List.Perm.Basic
import Mathlib.Tactic.SplitIfs
import Espos.Lib.Run

-- `TxSlotRing`, and the three who use it at once: the tasks that transmit, the
-- driver with its TX-done callback, and the task that takes abandoned slots back.

namespace Espos.N2k

-- One flag per slot. `claims` is a `size_t` of 32 bits.
structure TxSlotRing where
  inUse : List Bool
  next : Nat
  claims : UInt32
  filling : Nat
deriving DecidableEq

structure ReclaimTicket where
  claims : UInt32
  worthAsking : Bool
deriving DecidableEq

namespace TxSlotRing

def init (n : Nat) : TxSlotRing :=
  ⟨List.replicate n false, 0, 0, 0⟩

def size (r : TxSlotRing) : Nat :=
  r.inUse.length

-- The next free slot, round robin from the last claim.
def claim (r : TxSlotRing) : Option (Nat × TxSlotRing) :=
  match (List.range r.size).find? fun i => r.inUse[(r.next + i) % r.size]? = some false with
  | some i =>
    let idx := (r.next + i) % r.size
    some (idx, { r with
      inUse := r.inUse.set idx true
      next := (idx + 1) % r.size
      claims := r.claims + 1
      filling := r.filling + 1 })
  | none => none

def submitted (r : TxSlotRing) (idx : Nat) (accepted : Bool) : TxSlotRing :=
  if r.size ≤ idx then r
  else
    { r with
      filling := r.filling - 1
      inUse := if accepted then r.inUse else r.inUse.set idx false }

def release (r : TxSlotRing) (idx : Nat) : TxSlotRing :=
  { r with inUse := r.inUse.set idx false }

def reclaimBegin (r : TxSlotRing) : ReclaimTicket :=
  ⟨r.claims, r.filling = 0 ∧ true ∈ r.inUse⟩

def reclaimCommit (r : TxSlotRing) (ticket : ReclaimTicket) : TxSlotRing :=
  if ticket.worthAsking = false ∨ r.claims ≠ ticket.claims ∨ r.filling ≠ 0 then r
  else { r with inUse := r.inUse.map fun _ => false }

end TxSlotRing

-- Where a call of `transmit` is, from its claim on. The driver's answer is
-- `answered`; the call is over once it has been told to the ring.
inductive TxPhase where
  | claimed
  | filled
  | answered (accepted : Bool)
deriving DecidableEq

structure Transmit where
  idx : Nat
  phase : TxPhase
deriving DecidableEq

-- A pass of `reclaim_tx_slots`. `total` is the number of claims at its start
-- (history only).
structure Pass where
  ticket : ReclaimTicket
  idle : Bool
  total : Nat
deriving DecidableEq

-- `held` are the slots whose frames the driver holds; `total`, history only,
-- counts the claims.
structure TwaiNode where
  txRing : TxSlotRing
  transmits : List Transmit
  held : List Nat
  pass : Option Pass
  total : Nat
deriving DecidableEq

inductive TxStep where
  | claim
  | fill (i : Nat)
  | driver (i : Nat) (accepted : Bool)
  | submitted (i : Nat)
  | txDone (idx : Nat)
  | drop (idx : Nat)
  | begin
  | query (idle : Bool)
  | commit
deriving DecidableEq

namespace TwaiNode

def init (n : Nat) : TwaiNode :=
  ⟨.init n, [], [], none, 0⟩

-- A full ring ends the call with ESP_ERR_NO_MEM.
def claim (m : TwaiNode) : TwaiNode :=
  match m.txRing.claim with
  | some (idx, ring) =>
    { m with
      txRing := ring
      transmits := m.transmits ++ [⟨idx, .claimed⟩]
      total := m.total + 1 }
  | none => m

def fill (m : TwaiNode) (i : Nat) : TwaiNode :=
  match m.transmits[i]? with
  | some t =>
    if t.phase = .claimed then
      { m with transmits := m.transmits.set i { t with phase := .filled } }
    else m
  | none => m

-- `twai_node_transmit`: an accepted frame is held, a refused one is not.
def driver (m : TwaiNode) (i : Nat) (accepted : Bool) : TwaiNode :=
  match m.transmits[i]? with
  | some t =>
    if t.phase = .filled then
      { m with
        transmits := m.transmits.set i { t with phase := .answered accepted }
        held := if accepted then t.idx :: m.held else m.held }
    else m
  | none => m

def submitted (m : TwaiNode) (i : Nat) : TwaiNode :=
  match m.transmits[i]? with
  | some t =>
    match t.phase with
    | .answered accepted =>
      { m with
        transmits := m.transmits.eraseIdx i
        txRing := m.txRing.submitted t.idx accepted }
    | _ => m
  | none => m

-- The driver has finished with a frame it held, and says so.
def txDone (m : TwaiNode) (idx : Nat) : TwaiNode :=
  if idx ∈ m.held then { m with held := m.held.erase idx, txRing := m.txRing.release idx }
  else m

-- The driver drops a frame and says nothing.
def drop (m : TwaiNode) (idx : Nat) : TwaiNode :=
  { m with held := m.held.erase idx }

-- There is one task that takes slots back, so one pass at a time.
def begin (m : TwaiNode) : TwaiNode :=
  if m.pass = none ∧ m.txRing.reclaimBegin.worthAsking then
    { m with pass := some ⟨m.txRing.reclaimBegin, false, m.total⟩ }
  else m

-- `twai_node_transmit_wait_all_done(node, 0)` answers ESP_OK only while the
-- driver holds nothing.
def query (m : TwaiNode) (idle : Bool) : TwaiNode :=
  match m.pass with
  | some p =>
    if idle = true ∧ m.held = [] then { m with pass := some { p with idle := true } }
    else { m with pass := none }
  | none => m

def commit (m : TwaiNode) : TwaiNode :=
  match m.pass with
  | some p =>
    if p.idle then { m with txRing := m.txRing.reclaimCommit p.ticket, pass := none } else m
  | none => m

def step (m : TwaiNode) : TxStep → TwaiNode
  | .claim => m.claim
  | .fill i => m.fill i
  | .driver i accepted => m.driver i accepted
  | .submitted i => m.submitted i
  | .txDone idx => m.txDone idx
  | .drop idx => m.drop idx
  | .begin => m.begin
  | .query idle => m.query idle
  | .commit => m.commit

end TwaiNode

end Espos.N2k

-- No transmit slot has two owners.

namespace Espos.N2k

open Espos.Run

variable {n : Nat} {r : TxSlotRing} {m : TwaiNode}

namespace TxSlotRing

theorem claim_eq_some {idx : Nat} {r' : TxSlotRing} (h : r.claim = some (idx, r')) :
    r.inUse[idx]? = some false ∧
      r' = { r with
        inUse := r.inUse.set idx true
        next := (idx + 1) % r.size
        claims := r.claims + 1
        filling := r.filling + 1 } := by
  rw [claim] at h
  cases hfind : (List.range r.size).find? fun i =>
      r.inUse[(r.next + i) % r.size]? = some false with
  | none => simp only [hfind, reduceCtorEq] at h
  | some i =>
    simp only [hfind, Option.some.injEq, Prod.mk.injEq] at h
    obtain ⟨rfl, rfl⟩ := h
    have hfound := List.find?_some hfind
    exact ⟨of_decide_eq_true hfound, rfl⟩

end TxSlotRing

-- A call of `transmit` that the slot still belongs to: its frame has not been
-- accepted by the driver.
def Transmit.owns (t : Transmit) : Bool :=
  t.phase ≠ .answered true

namespace TwaiNode

def ownersOf (held : List Nat) (transmits : List Transmit) : List Nat :=
  held ++ (transmits.filter Transmit.owns).map Transmit.idx

-- The driver, for the frames it holds, and the calls that are at their slots.
def owners (m : TwaiNode) : List Nat :=
  ownersOf m.held m.transmits

structure OneOwner (m : TwaiNode) : Prop where
  nodup : m.owners.Nodup
  claim_free : ∀ idx r, m.txRing.claim = some (idx, r) →
    idx ∉ m.held ∧ ∀ t ∈ m.transmits, t.idx = idx → t.phase = .answered true

-- Fewer than 2^32 claims happen within a pass.
def FewClaims (m : TwaiNode) : TxStep → Prop
  | .commit => ∀ p, m.pass = some p → m.total < p.total + 2 ^ 32
  | _ => True

-- The counters, and what a pass knows, whatever happens.
structure Counted (n : Nat) (m : TwaiNode) : Prop where
  size : m.txRing.inUse.length = n
  filling : m.txRing.filling = m.transmits.length
  claims : m.txRing.claims = UInt32.ofNat m.total
  slots : ∀ t ∈ m.transmits, t.idx < n
  asking : ∀ p, m.pass = some p → p.ticket = ⟨UInt32.ofNat p.total, true⟩ ∧ p.total ≤ m.total
  quiet : ∀ p, m.pass = some p → p.total = m.total → m.transmits = []
  idle : ∀ p, m.pass = some p → p.total = m.total → p.idle = true → m.held = []

-- Every owned slot is in use, and owned once.
structure Owned (m : TwaiNode) : Prop where
  inUse : ∀ idx ∈ m.owners, m.txRing.inUse[idx]? = some true
  nodup : m.owners.Nodup

theorem ownersOf_perm {held : List Nat} {ts ts' : List Transmit} (h : ts.Perm ts') :
    (ownersOf held ts).Perm (ownersOf held ts') :=
  ((h.filter _).map _).append_left held

theorem mem_owners_of_transmit {t : Transmit} (ht : t ∈ m.transmits)
    (hphase : t.phase ≠ .answered true) : t.idx ∈ m.owners := by
  apply List.mem_append_right
  apply List.mem_map_of_mem
  exact List.mem_filter.mpr ⟨ht, decide_eq_true hphase⟩

theorem Owned.oneOwner (h : m.Owned) : m.OneOwner := by
  constructor
  case nodup => exact h.nodup
  case claim_free =>
    intro idx r hclaim
    have hfree := (TxSlotRing.claim_eq_some hclaim).1
    have hnot : idx ∉ m.owners := by
      intro hmem
      rw [h.inUse idx hmem] at hfree
      cases hfree
    refine ⟨fun hheld => hnot (List.mem_append_left _ hheld), ?_⟩
    rintro t ht rfl
    by_contra hphase
    exact hnot (mem_owners_of_transmit ht hphase)

theorem init_counted (n : Nat) : (init n).Counted n := by
  constructor
  case size => exact List.length_replicate
  case filling => rfl
  case claims => rfl
  all_goals nofun

theorem init_owned (n : Nat) : (init n).Owned :=
  ⟨nofun, List.nodup_nil⟩

theorem ownersOf_cons (held : List Nat) {t : Transmit} (ts : List Transmit)
    (hphase : t.phase ≠ .answered true) :
    (ownersOf held (t :: ts)).Perm (t.idx :: ownersOf held ts) := by
  have howns : t.owns = true := decide_eq_true hphase
  rw [ownersOf, List.filter_cons_of_pos howns, List.map_cons]
  exact List.perm_middle

theorem ownersOf_cons_accepted (held : List Nat) {t : Transmit} (ts : List Transmit)
    (hphase : t.phase = .answered true) : ownersOf held (t :: ts) = ownersOf held ts := by
  have howns : ¬t.owns = true := by simp [Transmit.owns, hphase]
  rw [ownersOf, List.filter_cons_of_neg howns, ownersOf]

-- A call that goes on, or ends, as a permutation of the calls.
theorem split_transmits {ts : List Transmit} {i : Nat} {t : Transmit} (h : ts[i]? = some t) :
    ts.Perm (t :: ts.eraseIdx i) ∧ ∀ t', (ts.set i t').Perm (t' :: ts.eraseIdx i) := by
  obtain ⟨hlt, hget⟩ := List.getElem?_eq_some_iff.mp h
  refine ⟨?_, List.set_perm_cons_eraseIdx hlt⟩
  rw [← hget]
  exact (List.getElem_cons_eraseIdx_perm hlt).symm

-- What a call is to the owners before and after it goes on.
theorem owners_split {i : Nat} {t : Transmit} (ht : m.transmits[i]? = some t)
    (hphase : t.phase ≠ .answered true) :
    m.owners.Perm (t.idx :: ownersOf m.held (m.transmits.eraseIdx i)) :=
  (ownersOf_perm (split_transmits ht).1).trans (ownersOf_cons m.held _ hphase)

theorem owners_set {i : Nat} {t t' : Transmit} (ht : m.transmits[i]? = some t)
    (hphase : t'.phase ≠ .answered true) :
    (ownersOf m.held (m.transmits.set i t')).Perm
      (t'.idx :: ownersOf m.held (m.transmits.eraseIdx i)) :=
  (ownersOf_perm ((split_transmits ht).2 t')).trans (ownersOf_cons m.held _ hphase)

theorem Owned.of_perm (h : m.Owned) {m' : TwaiNode} (hring : m'.txRing.inUse = m.txRing.inUse)
    (hperm : m'.owners.Perm m.owners) : m'.Owned := by
  refine ⟨?_, hperm.nodup_iff.mpr h.nodup⟩
  intro idx hidx
  rw [hring]
  exact h.inUse idx (hperm.mem_iff.mp hidx)

theorem Owned.free (h : m.Owned) {m' : TwaiNode} {idx : Nat}
    (hring : m'.txRing.inUse = m.txRing.inUse.set idx false)
    (hperm : (idx :: m'.owners).Perm m.owners) : m'.Owned := by
  have hnodup := hperm.nodup_iff.mpr h.nodup
  obtain ⟨hnew, hrest⟩ := List.nodup_cons.mp hnodup
  refine ⟨?_, hrest⟩
  intro idx' hidx'
  have hne : idx ≠ idx' := by
    rintro rfl
    exact hnew hidx'
  rw [hring, List.getElem?_set_ne hne]
  exact h.inUse idx' (hperm.mem_iff.mp (List.mem_cons_of_mem idx hidx'))

theorem Owned.claim (h : m.Owned) : m.claim.Owned := by
  rw [TwaiNode.claim]
  cases hclaim : m.txRing.claim with
  | none => exact h
  | some found =>
    obtain ⟨idx, ring⟩ := found
    obtain ⟨hfree, rfl⟩ := TxSlotRing.claim_eq_some hclaim
    obtain ⟨hlt, -⟩ := List.getElem?_eq_some_iff.mp hfree
    have hnot : idx ∉ m.owners := by
      intro hmem
      rw [h.inUse idx hmem] at hfree
      cases hfree
    have howners : owners { m with
        txRing := { m.txRing with
          inUse := m.txRing.inUse.set idx true
          next := (idx + 1) % m.txRing.size
          claims := m.txRing.claims + 1
          filling := m.txRing.filling + 1 }
        transmits := m.transmits ++ [⟨idx, .claimed⟩]
        total := m.total + 1 } = m.owners ++ [idx] := by
      simp [owners, ownersOf, Transmit.owns]
    constructor
    case inUse =>
      intro idx' hidx'
      rw [howners] at hidx'
      by_cases hsame : idx' = idx
      · rw [hsame]
        exact List.getElem?_set_self hlt
      · have hold := (List.mem_append.mp hidx').resolve_right (by simpa using hsame)
        show (m.txRing.inUse.set idx true)[idx']? = some true
        rw [List.getElem?_set_ne (Ne.symm hsame)]
        exact h.inUse idx' hold
    case nodup =>
      rw [howners]
      exact List.nodup_append.mpr ⟨h.nodup, List.nodup_singleton idx, by
        intro a ha b hb
        rw [List.mem_singleton.mp hb]
        rintro rfl
        exact hnot ha⟩

theorem Owned.fill (h : m.Owned) (i : Nat) : (m.fill i).Owned := by
  rw [TwaiNode.fill]
  cases ht : m.transmits[i]? with
  | none => exact h
  | some t =>
    dsimp only
    split_ifs with hphase
    · have hbefore := owners_split ht (by rw [hphase]; nofun)
      have hafter := @owners_set m i t { t with phase := .filled } ht nofun
      refine h.of_perm ?_ (hafter.trans hbefore.symm)
      rfl
    · exact h

theorem Owned.driver (h : m.Owned) (i : Nat) (accepted : Bool) : (m.driver i accepted).Owned := by
  rw [TwaiNode.driver]
  cases ht : m.transmits[i]? with
  | none => exact h
  | some t =>
    dsimp only
    split_ifs with hphase haccepted
    · -- the slot passes from the call to the driver
      have hbefore := owners_split ht (by rw [hphase]; nofun)
      have hafter : (ownersOf (t.idx :: m.held)
          (m.transmits.set i { t with phase := .answered accepted })).Perm
          (t.idx :: ownersOf m.held (m.transmits.eraseIdx i)) := by
        have hset := (split_transmits ht).2 { t with phase := .answered accepted }
        have hgone := ownersOf_cons_accepted (t.idx :: m.held)
          (t := { t with phase := .answered accepted }) (m.transmits.eraseIdx i)
          (by rw [haccepted])
        exact (ownersOf_perm hset).trans (hgone ▸ List.Perm.refl _)
      refine h.of_perm ?_ (hafter.trans hbefore.symm)
      rfl
    · have hbefore := owners_split ht (by rw [hphase]; nofun)
      have hafter := @owners_set m i t { t with phase := .answered accepted } ht
        (by simpa using haccepted)
      refine h.of_perm ?_ (hafter.trans hbefore.symm)
      rfl
    · exact h

theorem Owned.submitted (h : m.Owned) (hcounted : m.Counted n) (i : Nat) :
    (m.submitted i).Owned := by
  rw [TwaiNode.submitted]
  cases ht : m.transmits[i]? with
  | none => exact h
  | some t =>
    dsimp only
    have hlt := hcounted.slots t (List.mem_of_getElem? ht)
    have hsize : ¬m.txRing.size ≤ t.idx := by
      rw [TxSlotRing.size, hcounted.size]
      omega
    cases hphase : t.phase with
    | claimed => exact h
    | filled => exact h
    | answered accepted =>
      cases accepted with
      | true =>
        have hperm := (split_transmits ht).1
        have hgone := ownersOf_cons_accepted m.held (m.transmits.eraseIdx i) hphase
        refine h.of_perm ?_ ((hgone ▸ ownersOf_perm hperm).symm)
        simp only [TxSlotRing.submitted, hsize, if_false, if_true]
      | false =>
        have hbefore := owners_split ht (by rw [hphase]; nofun)
        refine h.free ?_ hbefore.symm
        simp only [TxSlotRing.submitted, hsize, if_false, Bool.false_eq_true]

theorem Owned.txDone (h : m.Owned) (idx : Nat) : (m.txDone idx).Owned := by
  rw [TwaiNode.txDone]
  split_ifs with hheld
  · have hperm : (idx :: ownersOf (m.held.erase idx) m.transmits).Perm m.owners :=
      (List.perm_cons_erase hheld).symm.append_right _
    refine h.free ?_ hperm
    rfl
  · exact h

theorem Owned.drop (h : m.Owned) (idx : Nat) : (m.drop idx).Owned := by
  have hsub : (m.drop idx).owners.Sublist m.owners := List.erase_sublist.append_right _
  exact ⟨fun idx' hidx' => h.inUse idx' (hsub.subset hidx'), hsub.nodup h.nodup⟩

theorem Owned.commit (h : m.Owned) (hcounted : m.Counted n)
    (hfew : ∀ p, m.pass = some p → m.total < p.total + 2 ^ 32) : m.commit.Owned := by
  rw [TwaiNode.commit]
  cases hpass : m.pass with
  | none => exact h
  | some p =>
    dsimp only
    split_ifs with hidle
    · by_cases hkeep : p.ticket.worthAsking = false ∨ m.txRing.claims ≠ p.ticket.claims ∨
          m.txRing.filling ≠ 0
      · refine h.of_perm ?_ (List.Perm.refl _)
        rw [TxSlotRing.reclaimCommit, if_pos hkeep]
      · have hlt := hfew p hpass
        obtain ⟨hticket, hle⟩ := hcounted.asking p hpass
        have hclaims : m.txRing.claims = p.ticket.claims := by
          by_contra hne
          exact hkeep (.inr (.inl hne))
        have hsame : p.total = m.total := by
          rw [hcounted.claims, hticket] at hclaims
          have hmod := congrArg UInt32.toNat hclaims
          simp only [UInt32.toNat_ofNat'] at hmod
          omega
        have hnone : m.owners = [] := by
          rw [owners, hcounted.quiet p hpass hsame, hcounted.idle p hpass hsame hidle]
          rfl
        refine ⟨?_, ?_⟩
        · intro idx hidx
          have hidx : idx ∈ m.owners := hidx
          rw [hnone] at hidx
          cases hidx
        · exact h.nodup
    · exact h

theorem Owned.step (h : m.Owned) (hcounted : m.Counted n) (s : TxStep) (hfew : m.FewClaims s) :
    (m.step s).Owned := by
  cases s with
  | claim => exact h.claim
  | fill i => exact h.fill i
  | driver i accepted => exact h.driver i accepted
  | submitted i => exact h.submitted hcounted i
  | txDone idx => exact h.txDone idx
  | drop idx => exact h.drop idx
  | begin =>
    show m.begin.Owned
    rw [begin]
    split_ifs
    · exact ⟨h.inUse, h.nodup⟩
    · exact h
  | query idle =>
    show (m.query idle).Owned
    rw [query.eq_def]
    cases m.pass with
    | none => exact h
    | some p =>
      dsimp only
      split_ifs
      · exact ⟨h.inUse, h.nodup⟩
      · exact ⟨h.inUse, h.nodup⟩
  | commit => exact h.commit hcounted hfew

-- While a call is under way, a pass has fallen behind.
theorem Counted.behind (h : m.Counted n) {i : Nat} {t : Transmit} (ht : m.transmits[i]? = some t)
    {p : Pass} (hpass : m.pass = some p) : p.total ≠ m.total := by
  intro hsame
  rw [h.quiet p hpass hsame] at ht
  cases ht

theorem Counted.claim (h : m.Counted n) : m.claim.Counted n := by
  rw [TwaiNode.claim]
  cases hclaim : m.txRing.claim with
  | none => exact h
  | some found =>
    obtain ⟨idx, ring⟩ := found
    obtain ⟨hfree, rfl⟩ := TxSlotRing.claim_eq_some hclaim
    obtain ⟨hlt, -⟩ := List.getElem?_eq_some_iff.mp hfree
    have hsize := h.size
    have hbehind : ∀ p, m.pass = some p → p.total ≠ m.total + 1 := by
      intro p hpass
      have hle := (h.asking p hpass).2
      omega
    constructor
    case size =>
      show (m.txRing.inUse.set idx true).length = n
      rw [List.length_set, hsize]
    case filling =>
      show m.txRing.filling + 1 = (m.transmits ++ [_]).length
      rw [h.filling, List.length_append, List.length_singleton]
    case claims =>
      show m.txRing.claims + 1 = UInt32.ofNat (m.total + 1)
      rw [h.claims, UInt32.ofNat_add]
      rfl
    case slots =>
      intro t ht
      rcases List.mem_append.mp ht with ht | ht
      · exact h.slots t ht
      · rw [List.mem_singleton.mp ht, ← hsize]
        exact hlt
    case asking =>
      intro p hpass
      obtain ⟨hticket, hle⟩ := h.asking p hpass
      exact ⟨hticket, Nat.le_succ_of_le hle⟩
    case quiet => exact fun p hpass hsame => absurd hsame (hbehind p hpass)
    case idle => exact fun p hpass hsame => absurd hsame (hbehind p hpass)

theorem Counted.goOn (h : m.Counted n) {i : Nat} {t : Transmit} (ht : m.transmits[i]? = some t)
    (phase : TxPhase) (held : List Nat) :
    Counted n { m with transmits := m.transmits.set i { t with phase := phase }, held := held } := by
  constructor
  case size => exact h.size
  case filling =>
    show m.txRing.filling = (m.transmits.set i _).length
    rw [List.length_set, h.filling]
  case claims => exact h.claims
  case slots =>
    intro t' ht'
    rcases List.mem_or_eq_of_mem_set ht' with ht' | rfl
    · exact h.slots t' ht'
    · exact h.slots t (List.mem_of_getElem? ht)
  case asking => exact h.asking
  case quiet => exact fun p hpass hsame => absurd hsame (h.behind ht hpass)
  case idle => exact fun p hpass hsame => absurd hsame (h.behind ht hpass)

theorem Counted.submitted (h : m.Counted n) (i : Nat) : (m.submitted i).Counted n := by
  rw [TwaiNode.submitted]
  cases ht : m.transmits[i]? with
  | none => exact h
  | some t =>
    dsimp only
    obtain ⟨hi, -⟩ := List.getElem?_eq_some_iff.mp ht
    have hlt := h.slots t (List.mem_of_getElem? ht)
    have hsize : ¬m.txRing.size ≤ t.idx := by
      rw [TxSlotRing.size, h.size]
      omega
    cases hphase : t.phase with
    | claimed => exact h
    | filled => exact h
    | answered accepted =>
      dsimp only
      rw [TxSlotRing.submitted, if_neg hsize]
      constructor
      case size =>
        show (if accepted then m.txRing.inUse else m.txRing.inUse.set t.idx false).length = n
        split_ifs
        · exact h.size
        · rw [List.length_set, h.size]
      case filling =>
        show m.txRing.filling - 1 = (m.transmits.eraseIdx i).length
        rw [List.length_eraseIdx_of_lt hi, h.filling]
      case claims => exact h.claims
      case slots =>
        intro t' ht'
        exact h.slots t' (List.mem_of_mem_eraseIdx ht')
      case asking => exact h.asking
      case quiet => exact fun p hpass hsame => absurd hsame (h.behind ht hpass)
      case idle => exact fun p hpass hsame => absurd hsame (h.behind ht hpass)

theorem Counted.letGo (h : m.Counted n) (idx : Nat) {ring : TxSlotRing}
    (hsize : ring.inUse.length = m.txRing.inUse.length) (hfilling : ring.filling = m.txRing.filling)
    (hclaims : ring.claims = m.txRing.claims) :
    Counted n { m with held := m.held.erase idx, txRing := ring } := by
  constructor
  case size => exact hsize.trans h.size
  case filling => exact hfilling.trans h.filling
  case claims => exact hclaims.trans h.claims
  case slots => exact h.slots
  case asking => exact h.asking
  case quiet => exact h.quiet
  case idle =>
    intro p hpass hsame hidle
    show m.held.erase idx = []
    rw [h.idle p hpass hsame hidle]
    rfl

theorem Counted.begin (h : m.Counted n) : m.begin.Counted n := by
  rw [TwaiNode.begin]
  split_ifs with hask
  · have hworth : m.txRing.filling = 0 ∧ true ∈ m.txRing.inUse := of_decide_eq_true hask.2
    constructor
    case size => exact h.size
    case filling => exact h.filling
    case claims => exact h.claims
    case slots => exact h.slots
    case asking =>
      intro p hpass
      obtain rfl := Option.some.inj hpass
      refine ⟨?_, Nat.le_refl _⟩
      rw [← h.claims, ← hask.2]
      rfl
    case quiet =>
      intro p _ _
      apply List.eq_nil_of_length_eq_zero
      rw [← h.filling, hworth.1]
    case idle =>
      intro p hpass _ hidle
      obtain rfl := Option.some.inj hpass
      cases hidle
  · exact h

theorem Counted.query (h : m.Counted n) (idle : Bool) : (m.query idle).Counted n := by
  cases hpass : m.pass with
  | none =>
    simp only [TwaiNode.query, hpass]
    exact h
  | some p =>
    simp only [TwaiNode.query, hpass]
    split_ifs with hidle
    · refine ⟨h.size, h.filling, h.claims, h.slots, ?_, ?_, ?_⟩
      · intro p' hp'
        obtain rfl := Option.some.inj hp'
        exact h.asking p hpass
      · intro p' hp'
        obtain rfl := Option.some.inj hp'
        exact h.quiet p hpass
      · exact fun _ _ _ _ => hidle.2
    · exact ⟨h.size, h.filling, h.claims, h.slots, nofun, nofun, nofun⟩

theorem Counted.commit (h : m.Counted n) : m.commit.Counted n := by
  cases hpass : m.pass with
  | none =>
    simp only [TwaiNode.commit, hpass]
    exact h
  | some p =>
    simp only [TwaiNode.commit, hpass]
    split_ifs with hidle
    · rw [TxSlotRing.reclaimCommit]
      split_ifs with hkeep
      · exact ⟨h.size, h.filling, h.claims, h.slots, nofun, nofun, nofun⟩
      · refine ⟨?_, h.filling, h.claims, h.slots, nofun, nofun, nofun⟩
        show (m.txRing.inUse.map fun _ => false).length = n
        rw [List.length_map, h.size]
    · exact h

theorem Counted.step (h : m.Counted n) (s : TxStep) : (m.step s).Counted n := by
  cases s with
  | claim => exact h.claim
  | fill i =>
    show (m.fill i).Counted n
    rw [fill]
    cases ht : m.transmits[i]? with
    | none => exact h
    | some t =>
      dsimp only
      split_ifs
      · exact h.goOn ht _ m.held
      · exact h
  | driver i accepted =>
    show (m.driver i accepted).Counted n
    rw [driver]
    cases ht : m.transmits[i]? with
    | none => exact h
    | some t =>
      dsimp only
      split_ifs
      · exact h.goOn ht _ (t.idx :: m.held)
      · exact h.goOn ht _ m.held
      · exact h
  | submitted i => exact h.submitted i
  | txDone idx =>
    show (m.txDone idx).Counted n
    rw [txDone]
    split_ifs
    · exact h.letGo idx List.length_set rfl rfl
    · exact h
  | drop idx => exact h.letGo idx rfl rfl rfl
  | begin => exact h.begin
  | query idle => exact h.query idle
  | commit => exact h.commit

-- Where the driver holds nothing and nobody transmits, one pass frees all.
def Reclaims (m : TwaiNode) : Prop :=
  m.held = [] → m.transmits = [] → m.pass = none →
    ∀ b ∈ (run TwaiNode.step m [.begin, .query true, .commit]).txRing.inUse, b = false

theorem Counted.reclaims (h : m.Counted n) : m.Reclaims := by
  intro hheld htransmits hpass b hb
  have hfilling : m.txRing.filling = 0 := by
    rw [h.filling, htransmits]
    rfl
  by_cases hworth : true ∈ m.txRing.inUse
  · have hask : m.txRing.reclaimBegin = ⟨m.txRing.claims, true⟩ := by
      simp [TxSlotRing.reclaimBegin, hfilling, hworth]
    have hfreed : (run TwaiNode.step m [.begin, .query true, .commit]).txRing =
        { m.txRing with inUse := m.txRing.inUse.map fun _ => false } := by
      simp [TwaiNode.step, TwaiNode.begin, TwaiNode.query, TwaiNode.commit, hpass, hask, hheld,
        TxSlotRing.reclaimCommit, hfilling]
    rw [hfreed] at hb
    obtain ⟨_, -, rfl⟩ := List.mem_map.mp hb
    rfl
  · have hask : m.txRing.reclaimBegin.worthAsking = false := by
      simp [TxSlotRing.reclaimBegin, hworth]
    have hsame : run TwaiNode.step m [.begin, .query true, .commit] = m := by
      simp [TwaiNode.step, TwaiNode.begin, TwaiNode.query, TwaiNode.commit, hpass, hask]
    rw [hsame] at hb
    cases b with
    | false => rfl
    | true => exact absurd hb hworth

end TwaiNode

open TwaiNode

theorem tx_slots_have_one_owner (n : Nat) (steps : List TxStep) :
    (Along TwaiNode.step FewClaims (init n) steps →
      Always TwaiNode.step OneOwner (init n) steps) ∧
    Always TwaiNode.step Reclaims (init n) steps := by
  refine ⟨?_, ?_⟩
  · intro hfew
    have halways : Always TwaiNode.step (fun m => m.Counted n ∧ m.Owned) (init n) steps :=
      always_of_along
        (fun m s h hs => ⟨h.1.step s, h.2.step h.1 s hs⟩)
        ⟨init_counted n, init_owned n⟩ hfew
    exact halways.imp fun m h => h.2.oneOwner
  · have halways : Always TwaiNode.step (fun m => m.Counted n) (init n) steps :=
      always_of_along (C := fun _ _ => True) (fun m s h _ => h.step s) (init_counted n)
        (along_of_forall fun s _ => trivial)
    exact halways.imp fun m h => h.reclaims

-- Two calls, a frame the driver drops, and a pass that takes its slot back.
def abandoned : List TxStep :=
  [.claim, .fill 0, .driver 0 true, .claim, .submitted 0, .fill 0, .driver 0 false, .submitted 0,
    .drop 0, .begin, .query true, .commit, .claim]

theorem tx_slots_have_one_owner_abandoned :
    Always TwaiNode.step OneOwner (init 2) abandoned ∧
      (run TwaiNode.step (init 2) abandoned).txRing.inUse = [true, false] := by
  refine ⟨(tx_slots_have_one_owner 2 abandoned).1 ?_, by decide⟩
  have hcommit : ∀ p, (run TwaiNode.step (init 2) (abandoned.take 11)).pass = some p →
      (run TwaiNode.step (init 2) (abandoned.take 11)).total < p.total + 2 ^ 32 := by
    intro p _
    have htotal : (run TwaiNode.step (init 2) (abandoned.take 11)).total = 2 := by decide
    omega
  exact ⟨trivial, trivial, trivial, trivial, trivial, trivial, trivial, trivial, trivial, trivial,
    trivial, hcommit, trivial, trivial⟩

end Espos.N2k
