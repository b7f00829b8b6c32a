import Mathlib.Data.List.Nodup
import Mathlib.Data.Prod.Lex
import Mathlib.Order.WithBot
import Espos.Lib.Text
import Espos.Sk.Select.Servers

-- What `findAnchored` picks, as the least entry of a linear order.

namespace Espos.Sk.Select

open Espos.Text
open Espos.Best

variable {a b d : Discovered} {host : CStr} {port : UInt16}

theorem sameAddr_iff : sameAddr d host port = true ↔ host ≠ [] ∧ d.addr = (host, port) := by
  simp only [sameAddr, Bool.and_eq_true, beq_iff_eq, strcmp_eq_iff, Discovered.addr, Prod.mk.injEq]
  cases host <;> simp [and_comm]

namespace Keep

variable (keep : Keep)

-- The order of `espos_sk_disc_before`: the self URN, the server in use, the
-- address.
def key (d : Discovered) : List ℕ ×ₗ Bool ×ₗ List ℕ ×ₗ ℕ :=
  toLex (d.self.chars.map Char.toNat, toLex (!sameAddr d keep.curHost keep.curPort,
    toLex (d.host.chars.map Char.toNat, d.port.toNat)))

-- The anchored server comes before the others.
def rank (d : Discovered) : WithBot (List ℕ ×ₗ Bool ×ₗ List ℕ ×ₗ ℕ) :=
  if isAnchor d keep.anchor then ⊥ else ↑(keep.key d)

-- The entry may be picked.
def Hit (d : Discovered) : Prop :=
  isAnchor d keep.anchor = true ∨ (keep.bySelf = true ∧ d.self.chars = keep.anchor.self)

variable {keep}

theorem before_iff : keep.before a b = true ↔ keep.key a < keep.key b := by
  simp only [before, discBefore, key, Prod.Lex.toLex_lt_toLex]
  cases hself : strcmp a.self.chars b.self.chars with
  | lt => simp [strcmp_lt_iff.mp hself]
  | gt =>
    have hlt := strcmp_lt_iff.mp (strcmp_gt_iff.mp hself)
    simp [not_lt_of_gt hlt, ne_of_gt hlt]
  | eq =>
    have heq := strcmp_eq_iff.mp hself
    simp only [heq, lt_irrefl, true_and, false_or]
    by_cases hcur : sameAddr a keep.curHost keep.curPort = sameAddr b keep.curHost keep.curPort
    · rw [if_neg (by simp [hcur])]
      simp only [hcur, lt_irrefl, true_and, false_or]
      cases hhost : strcmp a.host.chars b.host.chars with
      | lt => simp [strcmp_lt_iff.mp hhost]
      | gt =>
        have hlt := strcmp_lt_iff.mp (strcmp_gt_iff.mp hhost)
        simp [not_lt_of_gt hlt, ne_of_gt hlt]
      | eq => simp [strcmp_eq_iff.mp hhost, UInt16.lt_iff_toNat_lt]
    · rw [if_pos (by simpa using hcur)]
      cases ha : sameAddr a keep.curHost keep.curPort <;>
        cases hb : sameAddr b keep.curHost keep.curPort <;> simp_all

theorem addr_eq_of_key_eq (h : keep.key a = keep.key b) : a.addr = b.addr := by
  simp only [key, toLex_inj, Prod.mk.injEq] at h
  obtain ⟨_, _, hhost, hport⟩ := h
  have hinj : Function.Injective Char.toNat := fun x y hxy => Char.toNat_inj.mp hxy
  simp only [Discovered.addr, Prod.mk.injEq]
  exact ⟨List.map_injective_iff.mpr hinj hhost, UInt16.toNat_inj.mp hport⟩

theorem addr_of_isAnchor (h : isAnchor d keep.anchor = true) :
    d.addr = (keep.anchor.host, keep.anchor.port) := by
  simp only [isAnchor, Bool.and_eq_true] at h
  exact (sameAddr_iff.mp h.2).2

theorem addr_eq_of_rank_eq (h : keep.rank a = keep.rank b) : a.addr = b.addr := by
  simp only [rank] at h
  by_cases ha : isAnchor a keep.anchor = true
  · by_cases hb : isAnchor b keep.anchor = true
    · rw [addr_of_isAnchor ha, addr_of_isAnchor hb]
    · simp [ha, hb] at h
  · by_cases hb : isAnchor b keep.anchor = true
    · simp [ha, hb] at h
    · rw [if_neg ha, if_neg hb, WithBot.coe_inj] at h
      exact addr_eq_of_key_eq h

-- Entries that share their address and self URN are picked alike.
theorem isAnchor_congr (haddr : a.addr = b.addr) (hself : a.self = b.self) :
    isAnchor a keep.anchor = isAnchor b keep.anchor := by
  simp only [Discovered.addr, Prod.mk.injEq] at haddr
  simp only [isAnchor, sameAddr, haddr.1, haddr.2, hself]

theorem hit_congr (haddr : a.addr = b.addr) (hself : a.self = b.self) :
    keep.Hit a ↔ keep.Hit b := by
  simp only [Hit, isAnchor_congr haddr hself, hself]

theorem rank_congr (haddr : a.addr = b.addr) (hself : a.self = b.self) :
    keep.rank a = keep.rank b := by
  have hanchor : isAnchor a keep.anchor = isAnchor b keep.anchor := isAnchor_congr haddr hself
  simp only [Discovered.addr, Prod.mk.injEq] at haddr
  simp only [rank, key, sameAddr, hanchor, haddr.1, haddr.2, hself]

end Keep

variable {keep : Keep} {list : List Discovered}

theorem findAnchored_eq_some {i : Nat} (h : findAnchored list keep = some (i, d)) :
    list[i]? = some d ∧ Least keep.Hit keep.rank list d := by
  simp only [findAnchored] at h
  split at h
  · rename_i j hfind
    obtain ⟨hlt, hanchor, _⟩ := List.findIdx?_eq_some_iff_getElem.mp hfind
    rw [List.getElem?_eq_getElem hlt] at h
    obtain ⟨rfl, rfl⟩ : j = i ∧ list[j] = d := by simpa using h
    refine ⟨List.getElem?_eq_getElem hlt, List.getElem_mem hlt, Or.inl hanchor, ?_⟩
    intro b _ _
    simp [Keep.rank, hanchor]
  · rename_i hfind
    have hnone : ∀ b ∈ list, isAnchor b keep.anchor = false := by
      simpa [List.findIdx?_eq_none_iff] using hfind
    split at h
    · rename_i hself
      obtain ⟨hget, hhit, hle⟩ := elect_eq_some (fun a b => Keep.before_iff (a := a) (b := b)) h
      simp only [beq_iff_eq, strcmp_eq_iff] at hhit hle
      have hmem := List.mem_of_getElem? hget
      refine ⟨hget, hmem, Or.inr ⟨hself, hhit⟩, ?_⟩
      rintro b hb (hanchor | ⟨_, hb'⟩)
      · rw [hnone b hb] at hanchor
        cases hanchor
      · simp only [Keep.rank, hnone b hb, hnone d hmem, Bool.false_eq_true, if_false,
          WithBot.coe_le_coe]
        exact hle b hb hb'
    · cases h

theorem findAnchored_eq_none (h : findAnchored list keep = none) : ∀ d ∈ list, ¬ keep.Hit d := by
  simp only [findAnchored] at h
  split at h
  · rename_i j hfind
    obtain ⟨hlt, _, _⟩ := List.findIdx?_eq_some_iff_getElem.mp hfind
    simp [List.getElem?_eq_getElem hlt] at h
  · rename_i hfind
    have hnone : ∀ b ∈ list, isAnchor b keep.anchor = false := by
      simpa [List.findIdx?_eq_none_iff] using hfind
    rintro d hd (hanchor | ⟨hself, hd'⟩)
    · rw [hnone d hd] at hanchor
      cases hanchor
    · rw [if_pos hself] at h
      have hmiss := (electFrom_eq_none h).2 d hd
      rw [hd', strcmp_eq_iff.mpr rfl] at hmiss
      cases hmiss

-- The server that is picked, and none for -1.
def picked (list : List Discovered) (keep : Keep) : Option Discovered :=
  (findAnchored list keep).map Prod.snd

theorem picked_eq_some (h : picked list keep = some d) : Least keep.Hit keep.rank list d := by
  obtain ⟨⟨i, _⟩, hfind, rfl⟩ := Option.map_eq_some_iff.mp h
  exact (findAnchored_eq_some hfind).2

theorem picked_eq_none (h : picked list keep = none) : ∀ d ∈ list, ¬ keep.Hit d :=
  findAnchored_eq_none (Option.map_eq_none_iff.mp h)

-- Lists with the same entries pick the same one where no two share an address.
theorem picked_perm {list' : List Discovered} (hapart : (list.map Discovered.addr).Nodup)
    (hperm : list.Perm list') : picked list' keep = picked list keep := by
  cases hold : picked list keep with
  | none =>
    have hnone := picked_eq_none hold
    cases hnew : picked list' keep with
    | none => rfl
    | some d =>
      have hd := picked_eq_some hnew
      exact absurd hd.qualifies (hnone d (hperm.mem_iff.mpr hd.mem))
  | some c =>
    have hc := picked_eq_some hold
    cases hnew : picked list' keep with
    | none => exact absurd hc.qualifies (picked_eq_none hnew c (hperm.mem_iff.mp hc.mem))
    | some d =>
      have hd : Least keep.Hit keep.rank list d := (picked_eq_some hnew).perm hperm.symm
      have haddr : d.addr = c.addr := Keep.addr_eq_of_rank_eq (hd.key_eq hc)
      rw [List.inj_on_of_nodup_map hapart hd.mem hc.mem haddr]

-- The order decides between any two servers at different addresses.
theorem discBefore_strict (curHost : CStr) (curPort : UInt16) :
    (∀ a, discBefore a a curHost curPort = false) ∧
      (∀ a b d, discBefore a b curHost curPort = true → discBefore b d curHost curPort = true →
        discBefore a d curHost curPort = true) ∧
      ∀ a b, a.addr ≠ b.addr →
        discBefore a b curHost curPort = !discBefore b a curHost curPort := by
  let keep : Keep := ⟨⟨[], 0, []⟩, curHost, curPort, false⟩
  have hiff : ∀ a b, discBefore a b curHost curPort = true ↔ keep.key a < keep.key b :=
    fun a b => (Keep.before_iff : keep.before a b = true ↔ _)
  refine ⟨?_, ?_, ?_⟩
  · intro a
    rw [← Bool.not_eq_true, hiff]
    exact lt_irrefl _
  · intro a b d hab hbd
    exact (hiff a d).mpr (lt_trans ((hiff a b).mp hab) ((hiff b d).mp hbd))
  · intro a b hne
    have hkey : keep.key a ≠ keep.key b := fun h => hne (Keep.addr_eq_of_key_eq h)
    rw [Bool.eq_iff_iff, Bool.not_eq_true', ← Bool.not_eq_true, hiff, hiff, not_lt]
    exact ⟨le_of_lt, fun hle => lt_of_le_of_ne hle hkey⟩

-- mDNS answer order never decides which server it is.
theorem choice_ignores_answer_order :
    (∀ (curHost : CStr) (curPort : UInt16),
      (∀ a, discBefore a a curHost curPort = false) ∧
        (∀ a b d, discBefore a b curHost curPort = true → discBefore b d curHost curPort = true →
          discBefore a d curHost curPort = true) ∧
        ∀ a b, a.addr ≠ b.addr →
          discBefore a b curHost curPort = !discBefore b a curHost curPort) ∧
      ∀ (list list' : List Discovered) (keep : Keep), (list.map Discovered.addr).Nodup →
        list.Perm list' → picked list' keep = picked list keep :=
  ⟨discBefore_strict, fun _ _ _ hapart hperm => picked_perm hapart hperm⟩

-- A server and its twin under one self URN, after its address changed.
theorem twins_in_either_order :
    let keep : Keep := ⟨⟨lit "10.0.0.9", 3000, lit "urn:a"⟩, lit "10.0.0.2", 3000, true⟩
    let a := Discovered.answer "10.0.0.1" 3000 "urn:a" 5
    let b := Discovered.answer "10.0.0.2" 3000 "urn:a" 6
    discBefore b a keep.curHost keep.curPort = !discBefore a b keep.curHost keep.curPort ∧
      picked [b, a] keep = picked [a, b] keep ∧ picked [a, b] keep = some b := by
  intro keep a b
  have hchoice := choice_ignores_answer_order
  have hne : b.addr ≠ a.addr := by decide
  exact ⟨(hchoice.1 keep.curHost keep.curPort).2.2 b a hne,
    hchoice.2 [a, b] [b, a] keep (by decide) (List.Perm.swap b a []), by decide⟩

end Espos.Sk.Select

namespace Espos.Sk.Select

open Espos.Text
open Espos.Best

-- The entries are not at one address. An empty host is none.
def Apart (a b : Discovered) : Prop :=
  b.host.chars ≠ [] → a.addr ≠ b.addr

-- The address of the entry that `findAnchored` picks.
def pickedAddr (list : List Discovered) (keep : Keep) : Option (CStr × UInt16) :=
  (findAnchored list keep).map fun p => p.2.addr

variable {keep : Keep} {max : Nat} {out answers : List Discovered} {d : Discovered}

theorem apart_symm {a b : Discovered} (h : Apart a b) : Apart b a := by
  intro hhost heq
  have hhost' : b.host.chars = a.host.chars := (Prod.mk.inj heq).1
  exact h (by rwa [hhost']) heq.symm

theorem pairwise_set {R : Discovered → Discovered → Prop} (hsymm : ∀ {a b}, R a b → R b a)
    {l : List Discovered} (h : l.Pairwise R) {i : Nat}
    (hd : ∀ j b, i ≠ j → l[j]? = some b → R b d) : (l.set i d).Pairwise R := by
  rw [List.pairwise_iff_getElem] at h ⊢
  intro j k hj hk hjk
  simp only [List.length_set] at hj hk
  rw [List.getElem_set, List.getElem_set]
  by_cases hij : i = j
  · rw [if_pos hij, if_neg (by omega)]
    exact hsymm (hd k _ (by omega) (List.getElem?_eq_getElem hk))
  · rw [if_neg hij]
    by_cases hik : i = k
    · rw [if_pos hik]
      exact hd j _ hij (List.getElem?_eq_getElem hj)
    · rw [if_neg hik]
      exact h j k hj hk hjk

theorem apart_of_ne {l : List Discovered} (h : l.Pairwise Apart) {i j : Nat} (hij : i ≠ j)
    {a b : Discovered} (ha : l[i]? = some a) (hb : l[j]? = some b) : Apart a b := by
  rw [List.pairwise_iff_getElem] at h
  obtain ⟨hi, rfl⟩ := List.getElem?_eq_some_iff.mp ha
  obtain ⟨hj, rfl⟩ := List.getElem?_eq_some_iff.mp hb
  by_cases hlt : i < j
  · exact h i j hi hj hlt
  · exact apart_symm (h j i hj hi (by omega))

-- What the list is after `answers` have been added to it.
structure Collected (keep : Keep) (max : Nat) (answers out : List Discovered) : Prop where
  size : out.length ≤ max
  apart : out.Pairwise Apart
  mem : out ⊆ answers
  covers : Covers keep.Hit keep.rank out answers

theorem collected_nil : Collected keep max [] [] where
  size := Nat.zero_le max
  apart := List.Pairwise.nil
  mem := List.Subset.refl []
  covers := by simp [Covers]

-- The answer takes the place of a listed one that is no better.
theorem Collected.set (h : Collected keep max answers out) {i : Nat} {c : Discovered}
    (hi : out[i]? = some c) (hapart : ∀ j b, i ≠ j → out[j]? = some b → Apart b d)
    (hc : keep.Hit c → keep.Hit d ∧ keep.rank d ≤ keep.rank c) :
    Collected keep max (answers ++ [d]) (out.set i d) where
  size := by simpa using h.size
  apart := pairwise_set apart_symm h.apart hapart
  mem := by
    intro b hb
    rcases List.mem_or_eq_of_mem_set hb with hb | rfl
    · exact List.mem_append_left _ (h.mem hb)
    · simp
  covers := covers_set h.covers hi hc

theorem Collected.append (h : Collected keep max answers out) (hlt : out.length < max)
    (hapart : ∀ b ∈ out, Apart b d) : Collected keep max (answers ++ [d]) (out ++ [d]) where
  size := by
    rw [List.length_append, List.length_singleton]
    exact hlt
  apart := by
    rw [List.pairwise_append]
    refine ⟨h.apart, List.pairwise_singleton _ _, ?_⟩
    intro b hb c hc
    obtain rfl := List.mem_singleton.mp hc
    exact hapart b hb
  mem := List.append_subset.mpr
    ⟨List.subset_append_of_subset_left _ h.mem, List.subset_append_right _ _⟩
  covers := covers_append_both h.covers d

-- The answer is dropped, for something that is as good or because it is not wanted.
theorem Collected.drop (h : Collected keep max answers out)
    (hd : keep.Hit d → ∃ c ∈ out, keep.Hit c ∧ keep.rank c ≤ keep.rank d) :
    Collected keep max (answers ++ [d]) out where
  size := h.size
  apart := h.apart
  mem := List.subset_append_of_subset_left _ h.mem
  covers := covers_append h.covers hd

theorem Collected.full (h : Collected keep max answers out) (hmax : 1 ≤ max)
    (hfull : max ≤ out.length) (hapart : ∀ b ∈ out, Apart b d) :
    Collected keep max (answers ++ [d]) (discAddFull max keep out d) := by
  have hapart' : ∀ {i : Nat}, ∀ j b, i ≠ j → out[j]? = some b → Apart b d :=
    fun _ b _ hb => hapart b (List.mem_of_getElem? hb)
  simp only [discAddFull]
  split
  · rename_i cur c hcur
    obtain ⟨hget, hleast⟩ := findAnchored_eq_some hcur
    split
    · rename_i e hpair
      obtain ⟨he, hbest⟩ := findAnchored_eq_some hpair
      obtain rfl : d = e := by simpa using he
      exact h.set hget hapart' fun hc => ⟨hbest.qualifies, hbest.le c (by simp) hc⟩
    · rename_i hpair
      apply h.drop
      intro hd
      refine ⟨c, hleast.mem, hleast.qualifies, ?_⟩
      cases hpick : findAnchored [c, d] keep with
      | none => exact absurd hd (findAnchored_eq_none hpick d (by simp))
      | some p =>
        obtain ⟨i, e⟩ := p
        obtain ⟨he, hbest⟩ := findAnchored_eq_some hpick
        -- the pick is not the newcomer, so it is the entry listed
        rcases i with _ | _ | i
        · obtain rfl : c = e := by simpa using he
          exact hbest.le d (by simp) hd
        · exact absurd hpick (hpair e)
        · simp at he
  · rename_i hcur
    have hnone := findAnchored_eq_none hcur
    split
    · rename_i e hpair
      have hlast : max - 1 < out.length := by omega
      refine h.set (List.getElem?_eq_getElem hlast) hapart' fun hc => ?_
      exact absurd hc (hnone _ (List.getElem_mem hlast))
    · rename_i hpair
      apply h.drop
      intro hd
      cases hpick : findAnchored [d] keep with
      | none => exact absurd hd (findAnchored_eq_none hpick d (by simp))
      | some p =>
        obtain ⟨i, e⟩ := p
        obtain ⟨he, _⟩ := findAnchored_eq_some hpick
        rcases i with _ | i
        · exact absurd hpick (hpair e)
        · simp at he

-- One answer. Those for an address that is listed have its self URN.
theorem Collected.add (h : Collected keep max answers out) (hmax : 1 ≤ max)
    (hself : ∀ c ∈ answers, sameAddr c d.host.chars d.port = true → c.self = d.self) :
    Collected keep max (answers ++ [d]) (discAdd max (some keep) out d) := by
  simp only [discAdd]
  split
  · rename_i i hfind
    obtain ⟨hlt, hsame, _⟩ := List.findIdx?_eq_some_iff_getElem.mp hfind
    have hget : out[i]? = some out[i] := List.getElem?_eq_getElem hlt
    have haddr : out[i].addr = d.addr := (sameAddr_iff.mp hsame).2
    have hself' := hself _ (h.mem (List.getElem_mem hlt)) hsame
    refine h.set hget ?_ fun hc =>
      ⟨(Keep.hit_congr haddr hself').mp hc, (Keep.rank_congr haddr hself').ge⟩
    intro j b hij hb hhost heq
    have hhost' : out[i].host.chars ≠ [] := by rwa [(Prod.mk.inj haddr).1]
    exact apart_of_ne h.apart (Ne.symm hij) hb hget hhost' (heq.trans haddr.symm)
  · rename_i hfind
    have hapart : ∀ b ∈ out, Apart b d := by
      intro b hb hhost heq
      have hmiss := List.findIdx?_eq_none_iff.mp hfind b hb
      rw [sameAddr_iff.mpr ⟨hhost, heq⟩] at hmiss
      cases hmiss
    split
    · rename_i hlt
      exact h.append hlt hapart
    · rename_i hfull
      rw [if_neg (by omega)]
      exact h.full hmax (by omega) hapart

theorem Collected.fold (h : Collected keep max answers out) (hmax : 1 ≤ max)
    {later : List Discovered}
    (hself : ∀ c ∈ answers ++ later, ∀ d ∈ later,
      sameAddr c d.host.chars d.port = true → c.self = d.self) :
    Collected keep max (answers ++ later) (later.foldl (discAdd max (some keep)) out) := by
  induction later generalizing answers out with
  | nil => simpa using h
  | cons d later ih =>
    have hadd := h.add hmax fun c hc => hself c (List.mem_append_left _ hc) d (by simp)
    rw [← List.singleton_append, ← List.append_assoc]
    apply ih hadd
    intro c hc e he
    rw [List.append_assoc] at hc
    exact hself c hc e (List.mem_cons_of_mem d he)

-- The list and all the answers elect one address.
theorem Collected.pickedAddr_eq (h : Collected keep max answers out) :
    pickedAddr out keep = pickedAddr answers keep := by
  simp only [pickedAddr]
  cases hout : findAnchored out keep with
  | none =>
    have hnone := covers_none h.covers (findAnchored_eq_none hout)
    cases hall : findAnchored answers keep with
    | none => rfl
    | some p =>
      have hleast := (findAnchored_eq_some (i := p.1) (d := p.2) hall).2
      exact absurd hleast.qualifies (hnone _ hleast.mem)
  | some p =>
    have hleast := (findAnchored_eq_some (i := p.1) (d := p.2) hout).2
    cases hall : findAnchored answers keep with
    | none =>
      exact absurd hleast.qualifies (findAnchored_eq_none hall _ (h.mem hleast.mem))
    | some q =>
      have hleast' := (findAnchored_eq_some (i := q.1) (d := q.2) hall).2
      have hrank := key_eq_of_covers h.covers h.mem hleast hleast'
      simp [Keep.addr_eq_of_rank_eq hrank]

-- Discovery keeps the server we are anchored to, however many answers come in
-- and in whatever order.
theorem discovery_keeps_anchored (keep : Keep) (max : Nat) (hmax : 1 ≤ max)
    (answers : List Discovered)
    (hself : ∀ c ∈ answers, ∀ d ∈ answers,
      sameAddr c d.host.chars d.port = true → c.self = d.self) :
    let out := answers.foldl (discAdd max (some keep)) []
    out.length ≤ max ∧ out.Pairwise Apart ∧ pickedAddr out keep = pickedAddr answers keep := by
  intro out
  have hcollected : Collected keep max answers out := by
    have hnil : Collected keep max [] [] := collected_nil
    have hfold := hnil.fold hmax hself
    simpa using hfold
  exact ⟨hcollected.size, hcollected.apart, hcollected.pickedAddr_eq⟩

-- A list of one, full when the anchored server answers.
theorem discovery_keeps_anchored_when_full :
    let keep : Keep := ⟨⟨lit "10.0.0.2", 3000, lit "urn:b"⟩, [], 0, false⟩
    let answers := [Discovered.answer "10.0.0.1" 3000 "urn:a" 5, .answer "10.0.0.2" 3000 "urn:b" 6]
    pickedAddr (answers.foldl (discAdd 1 (some keep)) []) keep = some (lit "10.0.0.2", 3000) := by
  intro keep answers
  have hkept := discovery_keeps_anchored keep 1 (le_refl 1) answers (by decide)
  exact hkept.2.2.trans (by decide)

end Espos.Sk.Select
