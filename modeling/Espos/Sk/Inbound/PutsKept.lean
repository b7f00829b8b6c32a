import Mathlib.Data.List.Basic
import Mathlib.Data.UInt
import Mathlib.Tactic.Ring
import Espos.Lib.Run
import Espos.Sk.Inbound.Puts

namespace Espos.Sk.Inbound

open Espos.Text
open Espos.Run
open scoped UInt32.CommRing

namespace Puts

variable {t t' : Puts} {p q : Put}

-- Scanning

theorem scanFrom_eq_some {hit : Put → Bool} {i k j : Nat} {slots : List (Option Put)}
    (h : scanFrom hit i k slots = some (j, p)) :
    k ≤ j ∧ i ≤ j ∧ slots[j - k]? = some (some p) ∧ hit p = true ∧
      ∀ m q, k ≤ m → i ≤ m → slots[m - k]? = some (some q) → hit q = true → j ≤ m := by
  induction slots generalizing k with
  | nil => cases h
  | cons slot slots ih =>
    have hrest (h : scanFrom hit i (k + 1) slots = some (j, p))
        (hk : ∀ q, slot = some q → i ≤ k → hit q = false) :
        k ≤ j ∧ i ≤ j ∧ (slot :: slots)[j - k]? = some (some p) ∧ hit p = true ∧
          ∀ m q, k ≤ m → i ≤ m → (slot :: slots)[m - k]? = some (some q) → hit q = true →
            j ≤ m := by
      obtain ⟨hkj, hij, hslot, hp, hfirst⟩ := ih h
      refine ⟨by omega, hij, ?_, hp, ?_⟩
      · rw [show j - k = j - (k + 1) + 1 by omega, List.getElem?_cons_succ]
        exact hslot
      · intro m q hkm him hm hq
        by_cases heq : m = k
        · subst heq
          rw [Nat.sub_self, List.getElem?_cons_zero, Option.some.injEq] at hm
          rw [hk q hm him] at hq
          cases hq
        · rw [show m - k = m - (k + 1) + 1 by omega, List.getElem?_cons_succ] at hm
          exact hfirst m q (by omega) him hm hq
    cases slot with
    | none => exact hrest h (by simp)
    | some r =>
      unfold scanFrom at h
      split at h
      · rename_i hhit
        obtain ⟨rfl, rfl⟩ := Prod.mk.inj (Option.some.inj h)
        exact ⟨le_refl k, hhit.1, by simp, hhit.2, fun m q hkm _ _ _ => hkm⟩
      · rename_i hmiss
        apply hrest h
        intro q hq hik
        obtain rfl := Option.some.inj hq
        simpa [hik] using hmiss

theorem scanFrom_eq_none {hit : Put → Bool} {i k : Nat} {slots : List (Option Put)}
    (h : scanFrom hit i k slots = none) {m : Nat} (hkm : k ≤ m) (him : i ≤ m)
    (hm : slots[m - k]? = some (some q)) : hit q = false := by
  induction slots generalizing k with
  | nil => cases hm
  | cons slot slots ih =>
    have hrest (h : scanFrom hit i (k + 1) slots = none) (hne : m ≠ k) : hit q = false := by
      rw [show m - k = m - (k + 1) + 1 by omega, List.getElem?_cons_succ] at hm
      exact ih h (by omega) hm
    by_cases hne : m = k
    · subst hne
      rw [Nat.sub_self, List.getElem?_cons_zero, Option.some.injEq] at hm
      subst hm
      unfold scanFrom at h
      split at h
      · cases h
      · rename_i hmiss
        simpa [him] using hmiss
    · cases slot with
      | none => exact hrest h hne
      | some r =>
        unfold scanFrom at h
        split at h
        · cases h
        · exact hrest h hne

theorem scan_eq_some {hit : Put → Bool} {i j : Nat} (h : t.scan hit i = some (j, p)) :
    i ≤ j ∧ t.slots[j]? = some (some p) ∧ hit p = true ∧
      ∀ m q, i ≤ m → t.slots[m]? = some (some q) → hit q = true → j ≤ m := by
  obtain ⟨_, hij, hslot, hp, hfirst⟩ := scanFrom_eq_some h
  exact ⟨hij, hslot, hp, fun m q him hm hq => hfirst m q (Nat.zero_le m) him hm hq⟩

theorem scan_eq_none {hit : Put → Bool} {i m : Nat} (h : t.scan hit i = none) (him : i ≤ m)
    (hm : t.slots[m]? = some (some q)) : hit q = false :=
  scanFrom_eq_none h (Nat.zero_le m) him hm

-- The invariant

-- How often the PUT's callback was told its end.
def told (t : Puts) (p : Put) : Nat :=
  t.calls.countP fun c => c.terminal && c.put == p

-- The stream task stands in front of the PUT's last callback.
def Called (t : Puts) (p : Put) : Prop :=
  ∃ c pass, t.task = .calling c pass ∧ c.terminal = true ∧ c.put = p

-- The PUT's end has not been told.
def Waits (t : Puts) (p : Put) : Prop :=
  some p ∈ t.slots ∨ t.Called p

def Free (t : Puts) : Prop :=
  ∀ c pass, t.task ≠ .calling c pass

structure Kept (t : Puts) : Prop where
  size : t.slots.length = MAX_PUTS
  numbered : ∀ p ∈ t.accepted, p.serial < t.accepted.length
  listed : ∀ p, some p ∈ t.slots → p ∈ t.accepted
  apart : ∀ (i j : Nat) p, t.slots[i]? = some (some p) → t.slots[j]? = some (some p) → i = j
  known : ∀ c pass, t.task = .calling c pass → c.put ∈ t.accepted ∧ c.put.cb.isSome
  gone : ∀ p, t.Called p → some p ∉ t.slots
  heard : ∀ c ∈ t.calls, c.put ∈ t.accepted
  silent : ∀ p, t.Waits p → t.told p = 0
  ended : ∀ p ∈ t.accepted, ¬ t.Waits p → t.told p = if p.cb.isSome then 1 else 0
  balance : t.putsSent + t.putsFailed + UInt32.ofNat t.used = UInt32.ofNat t.accepted.length

theorem kept_start : start.Kept := by
  have hnone (p : Put) : some p ∉ start.slots := by simp [start]
  have hget (i : Nat) (p : Put) : start.slots[i]? ≠ some (some p) := by
    intro h
    exact hnone p (List.mem_of_getElem? h)
  refine ⟨by simp [start], by simp [start], ?_, ?_, by simp [start], ?_, by simp [start], ?_,
    by simp [start], rfl⟩
  · intro p hp
    exact absurd hp (hnone p)
  · intro i j p hi
    exact absurd hi (hget i p)
  · intro p _
    exact hnone p
  · intro p _
    rfl

theorem not_called_of_free (h : t.Free) : ¬ t.Called p := by
  rintro ⟨c, pass, htask, _⟩
  exact h c pass htask

-- The state of the stream and a task that calls nobody make no difference.
theorem Kept.congr_of_free (h : t.Kept) (hfree : t.Free) (hfree' : t'.Free)
    (hslots : t'.slots = t.slots) (hsent : t'.putsSent = t.putsSent)
    (hfailed : t'.putsFailed = t.putsFailed) (haccepted : t'.accepted = t.accepted)
    (hcalls : t'.calls = t.calls) : t'.Kept := by
  have hwaits (p : Put) : t'.Waits p ↔ t.Waits p := by
    simp only [Waits, not_called_of_free hfree, not_called_of_free hfree', hslots]
  refine ⟨?_, ?_, ?_, ?_, ?_, ?_, ?_, ?_, ?_, ?_⟩
  · rw [hslots]
    exact h.size
  · rw [haccepted]
    exact h.numbered
  · rw [haccepted, hslots]
    exact h.listed
  · rw [hslots]
    exact h.apart
  · intro c pass htask
    exact absurd htask (hfree' c pass)
  · intro p hp
    exact absurd hp (not_called_of_free hfree')
  · rw [haccepted, hcalls]
    exact h.heard
  · intro p hp
    rw [told, hcalls]
    exact h.silent p ((hwaits p).mp hp)
  · intro p hp hnot
    rw [haccepted] at hp
    rw [told, hcalls]
    exact h.ended p hp (mt (hwaits p).mpr hnot)
  · rw [used, hslots, hsent, hfailed, haccepted]
    exact h.balance

-- Filling and freeing a slot

theorem mem_set_some {slots : List (Option Put)} {i : Nat} (hslot : slots[i]? = some none) :
    some q ∈ slots.set i (some p) ↔ q = p ∨ some q ∈ slots := by
  have hlt : i < slots.length := (List.getElem?_eq_some_iff.mp hslot).1
  rw [List.mem_iff_getElem?, List.mem_iff_getElem?]
  constructor
  · rintro ⟨j, hj⟩
    rw [List.getElem?_set] at hj
    split at hj
    · left
      simpa [hlt] using hj.symm
    · exact Or.inr ⟨j, hj⟩
  · rintro (rfl | ⟨j, hj⟩)
    · exact ⟨i, by simp [hlt]⟩
    · refine ⟨j, ?_⟩
      rw [List.getElem?_set_ne, hj]
      rintro rfl
      rw [hslot] at hj
      cases hj

theorem mem_set_none (h : t.Kept) {i : Nat} (hslot : t.slots[i]? = some (some p)) :
    some q ∈ t.slots.set i none ↔ q ≠ p ∧ some q ∈ t.slots := by
  rw [List.mem_iff_getElem?, List.mem_iff_getElem?]
  constructor
  · rintro ⟨j, hj⟩
    rw [List.getElem?_set] at hj
    split at hj
    · split at hj <;> cases hj
    · rename_i hij
      refine ⟨?_, j, hj⟩
      rintro rfl
      exact hij (h.apart i j q hslot hj)
  · rintro ⟨hne, j, hj⟩
    refine ⟨j, ?_⟩
    rw [List.getElem?_set_ne, hj]
    rintro rfl
    rw [hslot] at hj
    exact hne (Option.some.inj (Option.some.inj hj)).symm

theorem used_set_some {slots : List (Option Put)} {i : Nat} (hslot : slots[i]? = some none) :
    (slots.set i (some p)).countP Option.isSome = slots.countP Option.isSome + 1 := by
  obtain ⟨hlt, hget⟩ := List.getElem?_eq_some_iff.mp hslot
  rw [List.countP_set hlt, hget]
  simp

theorem used_set_none {slots : List (Option Put)} {i : Nat} (hslot : slots[i]? = some (some p)) :
    slots.countP Option.isSome = (slots.set i none).countP Option.isSome + 1 := by
  obtain ⟨hlt, hget⟩ := List.getElem?_eq_some_iff.mp hslot
  have hpos : 0 < slots.countP Option.isSome := by
    rw [List.countP_pos_iff]
    exact ⟨some p, List.mem_of_getElem? hslot, rfl⟩
  rw [List.countP_set hlt, hget]
  simp only [Option.isSome_some, if_true, Option.isSome_none, Bool.false_eq_true, if_false]
  omega

theorem Kept.accept (h : t.Kept) {i : Nat} (hslot : t.slots[i]? = some none) (frame : CStr)
    (hserial : p.serial = t.accepted.length) : (t.accept i frame p).Kept := by
  have hnew : p ∉ t.accepted := by
    intro hp
    have := h.numbered p hp
    omega
  have hmem (q : Put) : some q ∈ t.slots.set i (some p) ↔ q = p ∨ some q ∈ t.slots :=
    mem_set_some hslot
  have hfresh : t.told p = 0 := by
    rw [told, List.countP_eq_zero]
    intro c hc heq
    simp only [Bool.and_eq_true, beq_iff_eq] at heq
    exact hnew (heq.2 ▸ h.heard c hc)
  refine ⟨?_, ?_, ?_, ?_, ?_, ?_, ?_, ?_, ?_, ?_⟩
  · simpa [Puts.accept] using h.size
  · intro q hq
    simp only [Puts.accept, List.mem_append, List.mem_singleton, List.length_append,
      List.length_singleton] at hq ⊢
    rcases hq with hq | rfl
    · have := h.numbered q hq
      omega
    · omega
  · intro q hq
    simp only [Puts.accept, List.mem_append, List.mem_singleton]
    rcases (hmem q).mp hq with rfl | hq
    · exact Or.inr rfl
    · exact Or.inl (h.listed q hq)
  · intro a b q ha hb
    simp only [Puts.accept, List.getElem?_set] at ha hb
    have hcopy (j : Nat) (hj : t.slots[j]? = some (some p)) : False :=
      hnew (h.listed p (List.mem_of_getElem? hj))
    split at ha <;> split at hb
    · omega
    · split at ha
      · obtain rfl : p = q := by simpa using ha
        exact (hcopy b hb).elim
      · cases ha
    · split at hb
      · obtain rfl : p = q := by simpa using hb
        exact (hcopy a ha).elim
      · cases hb
    · exact h.apart a b q ha hb
  · intro c pass htask
    obtain ⟨hput, hcb⟩ := h.known c pass htask
    exact ⟨List.mem_append_left _ hput, hcb⟩
  · rintro q ⟨c, pass, htask, hterminal, rfl⟩ hq
    rcases (hmem c.put).mp hq with heq | hq
    · exact hnew (heq ▸ (h.known c pass htask).1)
    · exact h.gone c.put ⟨c, pass, htask, hterminal, rfl⟩ hq
  · intro c hc
    exact List.mem_append_left _ (h.heard c hc)
  · intro q hq
    rcases hq with hq | hq
    · rcases (hmem q).mp hq with rfl | hq
      · exact hfresh
      · exact h.silent q (Or.inl hq)
    · exact h.silent q (Or.inr hq)
  · intro q hq hnot
    have hne : q ≠ p := by
      rintro rfl
      exact hnot (Or.inl ((hmem q).mpr (Or.inl rfl)))
    have hold : q ∈ t.accepted := by
      rcases List.mem_append.mp hq with hq | hq
      · exact hq
      · exact absurd (List.mem_singleton.mp hq) hne
    apply h.ended q hold
    rintro (hq | hq)
    · exact hnot (Or.inl ((hmem q).mpr (Or.inr hq)))
    · exact hnot (Or.inr hq)
  · have hbalance := h.balance
    simp only [used, Puts.accept, List.length_append, List.length_singleton, used_set_some hslot,
      UInt32.ofNat_add] at hbalance ⊢
    rw [← hbalance]
    ring

theorem handOver_calling {c c' : Call} {pass pass' : Pass}
    (h : (t.handOver c pass).task = .calling c' pass') : c' = c ∧ c.put.cb.isSome := by
  simp only [handOver, setTask] at h
  split at h
  · rename_i hcb
    cases h
    exact ⟨rfl, hcb⟩
  · cases h

-- A slot is freed, its PUT counted and its last callback left to make.
theorem Kept.finish (h : t.Kept) (hfree : t.Free) {i : Nat} {c : Call} (pass : Pass)
    (hslot : t.slots[i]? = some (some c.put)) (hterminal : c.terminal = true)
    (hslots : t'.slots = t.slots.set i none) (haccepted : t'.accepted = t.accepted)
    (hcalls : t'.calls = t.calls)
    (hcount : t'.putsSent + t'.putsFailed = t.putsSent + t.putsFailed + 1) :
    (t'.handOver c pass).Kept := by
  have hin : some c.put ∈ t.slots := List.mem_of_getElem? hslot
  have hmem (q : Put) : some q ∈ t'.slots ↔ q ≠ c.put ∧ some q ∈ t.slots := by
    rw [hslots]
    exact mem_set_none h hslot
  have hcalled (q : Put) : (t'.handOver c pass).Called q ↔ c.put.cb.isSome ∧ q = c.put := by
    constructor
    · rintro ⟨c', pass', heq, _, rfl⟩
      obtain ⟨rfl, hcb⟩ := handOver_calling heq
      exact ⟨hcb, rfl⟩
    · rintro ⟨hcb, rfl⟩
      exact ⟨c, pass, by simp [handOver, setTask, hcb], hterminal, rfl⟩
  refine ⟨?_, ?_, ?_, ?_, ?_, ?_, ?_, ?_, ?_, ?_⟩
  · change t'.slots.length = MAX_PUTS
    rw [hslots, List.length_set]
    exact h.size
  · change ∀ q ∈ t'.accepted, q.serial < t'.accepted.length
    rw [haccepted]
    exact h.numbered
  · intro q hq
    change q ∈ t'.accepted
    rw [haccepted]
    exact h.listed q ((hmem q).mp hq).2
  · intro a b q ha hb
    change t'.slots[a]? = some (some q) at ha
    change t'.slots[b]? = some (some q) at hb
    rw [hslots, List.getElem?_set] at ha hb
    split at ha
    · split at ha <;> cases ha
    · split at hb
      · split at hb <;> cases hb
      · exact h.apart a b q ha hb
  · intro c' pass' heq
    obtain ⟨rfl, hcb⟩ := handOver_calling heq
    change c'.put ∈ t'.accepted ∧ _
    rw [haccepted]
    exact ⟨h.listed c'.put hin, hcb⟩
  · intro q hq hslot'
    obtain ⟨_, rfl⟩ := (hcalled q).mp hq
    exact ((hmem c.put).mp hslot').1 rfl
  · intro c' hc'
    change c' ∈ t'.calls at hc'
    change c'.put ∈ t'.accepted
    rw [hcalls] at hc'
    rw [haccepted]
    exact h.heard c' hc'
  · intro q hq
    change t'.told q = 0
    rw [told, hcalls]
    apply h.silent q
    rcases hq with hq | hq
    · exact Or.inl ((hmem q).mp hq).2
    · obtain ⟨_, rfl⟩ := (hcalled q).mp hq
      exact Or.inl hin
  · intro q hq hnot
    change q ∈ t'.accepted at hq
    change t'.told q = _
    rw [haccepted] at hq
    rw [told, hcalls]
    by_cases heq : q = c.put
    · -- without a callback nobody is told
      subst heq
      have hcb : c.put.cb.isSome = false := by
        rw [Bool.eq_false_iff]
        intro hcb
        exact hnot (Or.inr ((hcalled c.put).mpr ⟨hcb, rfl⟩))
      rw [hcb]
      exact h.silent c.put (Or.inl hin)
    · apply h.ended q hq
      rintro (hslot' | hq')
      · exact hnot (Or.inl ((hmem q).mpr ⟨heq, hslot'⟩))
      · exact not_called_of_free hfree hq'
  · have hbalance := h.balance
    change t'.putsSent + t'.putsFailed + UInt32.ofNat t'.used = UInt32.ofNat t'.accepted.length
    rw [haccepted, ← hbalance, hcount, used, used, hslots, used_set_none hslot, UInt32.ofNat_add]
    change _ + 1 + _ = _ + (_ + 1)
    ring

-- A pending request's callback leaves the PUT where it is.
theorem Kept.inform (h : t.Kept) (hfree : t.Free) {c : Call} (pass : Pass)
    (hput : some c.put ∈ t.slots) (hpending : c.terminal = false) : (t.handOver c pass).Kept := by
  have hcalled (q : Put) : ¬ (t.handOver c pass).Called q := by
    rintro ⟨c', pass', heq, hterminal, _⟩
    obtain ⟨rfl, _⟩ := handOver_calling heq
    rw [hpending] at hterminal
    cases hterminal
  refine ⟨h.size, h.numbered, h.listed, h.apart, ?_, ?_, h.heard, ?_, ?_, h.balance⟩
  · intro c' pass' heq
    obtain ⟨rfl, hcb⟩ := handOver_calling heq
    exact ⟨h.listed c'.put hput, hcb⟩
  · intro q hq
    exact absurd hq (hcalled q)
  · rintro q (hq | hq)
    · exact h.silent q (Or.inl hq)
    · exact absurd hq (hcalled q)
  · intro q hq hnot
    apply h.ended q hq
    rintro (hslot | hq')
    · exact hnot (Or.inl hslot)
    · exact not_called_of_free hfree hq'

-- The stream task

theorem free_of_idle (h : t.task = .idle) : t.Free := by
  intro c pass hcalling
  rw [h] at hcalling
  cases hcalling

theorem free_of_running {pass : Pass} (h : t.task = .running pass) : t.Free := by
  intro c pass' hcalling
  rw [h] at hcalling
  cases hcalling

theorem Kept.goOn (h : t.Kept) (hfree : t.Free) (pass : Pass) : (t.goOn pass).Kept := by
  have hidle : (t.setTask .idle).Free := free_of_idle rfl
  unfold Puts.goOn
  split
  · exact h.congr_of_free hfree hidle rfl rfl rfl rfl rfl
  · rename_i now i
    split
    · exact h.congr_of_free hfree hidle rfl rfl rfl rfl rfl
    · rename_i j p hscan
      obtain ⟨_, hslot, _, _⟩ := scan_eq_some hscan
      exact h.finish hfree (c := ⟨p, lit "TIMEOUT", 0, lit "no response"⟩) _ hslot rfl rfl rfl rfl
        (UInt32.add_assoc _ _ _).symm
  · rename_i i
    split
    · exact h.congr_of_free hfree (free_of_idle rfl) rfl rfl rfl rfl rfl
    · rename_i j p hscan
      obtain ⟨_, hslot, _, _⟩ := scan_eq_some hscan
      exact h.finish hfree (c := ⟨p, lit "FAILED", 0, lit "stream closed"⟩) _ hslot rfl rfl rfl rfl
        (UInt32.add_assoc _ _ _).symm

theorem terminal_of_final {r : Response} (h : r.pending = false) :
    Call.terminal ⟨p, r.state.getD [], r.statusCode, r.message.getD []⟩ = true := by
  simp only [Call.terminal, bne_iff_ne, ne_eq]
  intro heq
  cases hs : r.state with
  | none =>
    rw [hs] at heq
    cases heq
  | some st =>
    rw [hs] at heq
    simp [Response.pending, hs, ← heq] at h

theorem Kept.handleResponse (h : t.Kept) (hfree : t.Free) (r : Response) :
    (t.handleResponse r).Kept := by
  unfold Puts.handleResponse
  split
  · exact h
  · rename_i id hid
    split
    · exact h
    · rename_i i p hscan
      obtain ⟨_, hslot, _, _⟩ := scan_eq_some hscan
      unfold Puts.settle
      split
      · rename_i hpending
        have hs : r.state = some (lit "PENDING") := by simpa [Response.pending] using hpending
        apply h.inform hfree _ (List.mem_of_getElem? hslot)
        simp [Call.terminal, hs]
      · rename_i hfinal
        have hterminal :
            Call.terminal ⟨p, r.state.getD [], r.statusCode, r.message.getD []⟩ = true :=
          terminal_of_final (by simpa using hfinal)
        split
        · exact h.finish hfree _ hslot hterminal rfl rfl rfl (UInt32.add_assoc _ _ _).symm
        · have hcount : (t.succeed i).putsSent + (t.succeed i).putsFailed =
              t.putsSent + t.putsFailed + 1 := by
            simp only [succeed]
            ring
          exact h.finish hfree _ hslot hterminal rfl rfl rfl hcount

theorem Kept.call (h : t.Kept) {c : Call} {pass : Pass} (htask : t.task = .calling c pass) :
    Kept { t with calls := t.calls ++ [c], task := .running pass } := by
  have hfree : Free { t with calls := t.calls ++ [c], task := .running pass } := free_of_running rfl
  have htold (q : Put) : told { t with calls := t.calls ++ [c], task := .running pass } q =
      t.told q + if c.terminal = true ∧ c.put = q then 1 else 0 := by
    simp [told, List.countP_append, List.countP_singleton]
  have hcalled (q : Put) : t.Called q ↔ c.terminal = true ∧ c.put = q := by
    constructor
    · rintro ⟨c', pass', heq, hterminal, rfl⟩
      rw [htask] at heq
      cases heq
      exact ⟨hterminal, rfl⟩
    · rintro ⟨hterminal, rfl⟩
      exact ⟨c, pass, htask, hterminal, rfl⟩
  obtain ⟨hput, hcb⟩ := h.known c pass htask
  refine ⟨h.size, h.numbered, h.listed, h.apart, ?_, ?_, ?_, ?_, ?_, h.balance⟩
  · intro c' pass' heq
    exact absurd heq (hfree c' pass')
  · intro q hq
    exact absurd hq (not_called_of_free hfree)
  · intro c' hc'
    rcases List.mem_append.mp hc' with hc' | hc'
    · exact h.heard c' hc'
    · rw [List.mem_singleton] at hc'
      rw [hc']
      exact hput
  · rintro q (hq | hq)
    · rw [htold, h.silent q (Or.inl hq), if_neg]
      intro hend
      exact h.gone q ((hcalled q).mpr hend) hq
    · exact absurd hq (not_called_of_free hfree)
  · intro q hq hnot
    rw [htold]
    by_cases hend : c.terminal = true ∧ c.put = q
    · rw [if_pos hend, h.silent q (Or.inr ((hcalled q).mpr hend)), ← hend.2, hcb]
      rfl
    · rw [if_neg hend]
      apply h.ended q hq
      rintro (hslot | hq')
      · exact hnot (Or.inl hslot)
      · exact hend ((hcalled q).mp hq')

theorem Kept.proceed (h : t.Kept) : t.proceed.Kept := by
  unfold Puts.proceed
  split
  · exact h
  · rename_i htask
    exact h.call htask
  · rename_i pass htask
    exact h.goOn (free_of_running htask) pass

theorem put_cases (t : Puts) (path : CStr) (value : Option CStr) (cb : Option Nat) (id : CStr)
    (now : UInt32) (alloc : Bool) :
    (∃ err, err ≠ .ok ∧ t.put path value cb id now alloc = (t, err)) ∨
    ∃ i frame, t.slots[i]? = some none ∧ t.put path value cb id now alloc =
      (t.accept i frame ⟨id, cb, now, t.accepted.length⟩, .ok) := by
  unfold Puts.put
  split
  · exact Or.inl ⟨_, by decide, rfl⟩
  · split
    · exact Or.inl ⟨_, by decide, rfl⟩
    · split
      · exact Or.inl ⟨_, by decide, rfl⟩
      · split
        · exact Or.inl ⟨_, by decide, rfl⟩
        · rename_i i hfind
          split
          · exact Or.inl ⟨_, by decide, rfl⟩
          · split
            · exact Or.inl ⟨_, by decide, rfl⟩
            · obtain ⟨hlt, hnone, _⟩ := List.findIdx?_eq_some_iff_getElem.mp hfind
              refine Or.inr ⟨i, _, ?_, rfl⟩
              rw [List.getElem?_eq_getElem hlt]
              simpa using hnone

theorem kept_step (t : Puts) (e : Event) (h : t.Kept) : (t.step e).Kept := by
  cases e with
  | put path value cb id now alloc =>
    simp only [step]
    rcases t.put_cases path value cb id now alloc with ⟨_, _, hput⟩ | ⟨i, frame, hslot, hput⟩
    · rw [hput]
      exact h
    · rw [hput]
      exact h.accept hslot frame rfl
  | proceed => exact h.proceed
  | response r =>
    simp only [step]
    split
    · rename_i hidle
      exact h.handleResponse (free_of_idle hidle) r
    · exact h
  | tick now =>
    simp only [step]
    split
    · rename_i hidle
      exact h.goOn (free_of_idle hidle) _
    · exact h
  | setConnected connected =>
    simp only [step]
    split
    · rename_i hidle
      have hfree := free_of_idle hidle
      have hstate : Kept { t with s := { t.s.setConnected connected with raw := t.s.raw } } :=
        h.congr_of_free hfree hfree rfl rfl rfl rfl rfl
      unfold Puts.setConnected
      dsimp only
      split
      · exact hstate
      · exact hstate.goOn hfree _
    · exact h
  | takeRaw =>
    simp only [step]
    split
    · rename_i hidle
      exact h.congr_of_free (free_of_idle hidle) (free_of_idle hidle) rfl rfl rfl rfl rfl
    · exact h

theorem kept_run (es : List Event) : (run step start es).Kept :=
  run_invariant kept_step kept_start es

end Puts

end Espos.Sk.Inbound
