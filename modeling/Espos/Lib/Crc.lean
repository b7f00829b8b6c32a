import Mathlib.Data.List.Basic
import Mathlib.Logic.Function.Iterate

-- A reflected cyclic redundancy check of `w` bits, one bit of the message at a
-- time, and the damage it cannot miss.

namespace Espos.Crc

variable {w : Nat} (poly : BitVec w)

def step (s : BitVec w) : BitVec w :=
  if s.getLsbD 0 then (s >>> 1) ^^^ poly else s >>> 1

-- The bit in the lowest place.
def bit (b : Bool) : BitVec w :=
  BitVec.ofNat w b.toNat

def feed (s : BitVec w) (bits : List Bool) : BitVec w :=
  bits.foldl (fun s b => step poly (s ^^^ bit b)) s

-- The bits as a word, the first one in the lowest place.
def word : List Bool → BitVec w
  | [] => 0#w
  | b :: bits => bit b ^^^ (word bits <<< 1)

variable {poly}

theorem xor_xor_xor (a b p : BitVec w) : (a ^^^ p) ^^^ (b ^^^ p) = a ^^^ b := by
  rw [BitVec.xor_assoc a p (b ^^^ p), BitVec.xor_comm b p, ← BitVec.xor_assoc p p b,
    BitVec.xor_self, BitVec.zero_xor]

theorem step_xor (a b : BitVec w) : step poly (a ^^^ b) = step poly a ^^^ step poly b := by
  unfold step
  rw [BitVec.getLsbD_xor, BitVec.ushiftRight_xor_distrib]
  cases a.getLsbD 0 <;> cases b.getLsbD 0
  · rfl
  · simp [BitVec.xor_assoc]
  · simp only [Bool.xor_false, if_true, Bool.false_eq_true, if_false]
    rw [BitVec.xor_assoc, BitVec.xor_assoc, BitVec.xor_comm poly]
  · simp only [Bool.xor_self, Bool.false_eq_true, if_false, if_true]
    exact (xor_xor_xor _ _ _).symm

-- Nothing but zero is shifted to zero, as the polynomial fills the highest place.
theorem eq_zero_of_step (hpoly : poly.getLsbD (w - 1) = true) {s : BitVec w}
    (h : step poly s = 0#w) : s = 0#w := by
  have hw : w - 1 < w := BitVec.lt_of_getLsbD hpoly
  unfold step at h
  split at h
  next =>
    have htop := congrArg (fun x : BitVec w => x.getLsbD (w - 1)) h
    simp only [BitVec.getLsbD_xor, BitVec.getLsbD_ushiftRight, hpoly, BitVec.getLsbD_zero] at htop
    rw [BitVec.getLsbD_of_ge s (1 + (w - 1)) (by omega)] at htop
    exact absurd htop (by decide)
  next hlow =>
    apply BitVec.eq_of_getLsbD_eq
    intro i hi
    rw [BitVec.getLsbD_zero]
    cases i with
    | zero => exact Bool.eq_false_iff.mpr hlow
    | succ i =>
      have hshift := congrArg (fun x : BitVec w => x.getLsbD i) h
      simpa [BitVec.getLsbD_ushiftRight, Nat.add_comm 1 i] using hshift

theorem iterate_step_xor (n : Nat) (a b : BitVec w) :
    (step poly)^[n] (a ^^^ b) = (step poly)^[n] a ^^^ (step poly)^[n] b := by
  induction n generalizing a b with
  | zero => rfl
  | succ n ih => rw [Function.iterate_succ_apply, step_xor, ih, ← Function.iterate_succ_apply,
      ← Function.iterate_succ_apply]

theorem eq_zero_of_iterate_step (hpoly : poly.getLsbD (w - 1) = true) {n : Nat} {s : BitVec w}
    (h : (step poly)^[n] s = 0#w) : s = 0#w := by
  induction n generalizing s with
  | zero => exact h
  | succ n ih => exact eq_zero_of_step hpoly (ih h)

-- The word of a few bits fills no place above them.
theorem getLsbD_word (bits : List Bool) (i : Nat) :
    (word bits : BitVec w).getLsbD i = (decide (i < w) && bits.getD i false) := by
  induction bits generalizing i with
  | nil => simp [word]
  | cons b bits ih =>
    rw [word, BitVec.getLsbD_xor, BitVec.getLsbD_shiftLeft]
    cases i with
    | zero =>
      cases b <;> simp [bit, BitVec.getLsbD_ofNat]
    | succ i =>
      have hbit : (bit b : BitVec w).getLsbD (i + 1) = false := by
        cases b <;> simp [bit, BitVec.getLsbD_ofNat, Nat.testBit_succ]
      rw [hbit, Nat.add_sub_cancel, ih]
      by_cases hi : i + 1 < w
      · simp [hi, show i < w by omega]
      · simp [hi]

theorem step_word_cons {bits : List Bool} (hlen : bits.length < w) (s : BitVec w) (b : Bool) :
    step poly (s ^^^ word (b :: bits)) = step poly (s ^^^ bit b) ^^^ word bits := by
  have hshift : step poly (word bits <<< 1) = word bits := by
    unfold step
    rw [if_neg (by simp [BitVec.getLsbD_shiftLeft])]
    apply BitVec.eq_of_getLsbD_eq
    intro i hi
    rw [BitVec.getLsbD_ushiftRight, BitVec.getLsbD_shiftLeft, getLsbD_word, getLsbD_word,
      Nat.add_sub_cancel_left]
    by_cases hlast : 1 + i < w
    · simp [hlast, hi]
    · have hnone : bits[i]? = none := List.getElem?_eq_none (by omega)
      simp [hlast, hnone]
  rw [word, ← BitVec.xor_assoc, step_xor, hshift]

-- Bits that fit into the word are taken in one after the other or all at once.
theorem feed_eq_iterate {bits : List Bool} (hlen : bits.length ≤ w) (s : BitVec w) :
    feed poly s bits = (step poly)^[bits.length] (s ^^^ word bits) := by
  induction bits generalizing s with
  | nil => simp [feed, word]
  | cons b bits ih =>
    rw [List.length_cons] at hlen
    rw [List.length_cons, Function.iterate_succ_apply, step_word_cons (by omega), ← ih (by omega)]
    rfl

theorem feed_append (s : BitVec w) (p q : List Bool) :
    feed poly s (p ++ q) = feed poly (feed poly s p) q :=
  List.foldl_append

theorem eq_of_feed_eq (hpoly : poly.getLsbD (w - 1) = true) {q : List Bool} {s t : BitVec w}
    (h : feed poly s q = feed poly t q) : s = t := by
  induction q generalizing s t with
  | nil => exact h
  | cons b q ih =>
    have hstep : step poly (s ^^^ bit b) = step poly (t ^^^ bit b) := ih h
    have hzero : step poly (s ^^^ t) = 0#w := by
      rw [← xor_xor_xor s t (bit b), step_xor, hstep, BitVec.xor_self]
    exact BitVec.xor_eq_zero_iff.mp (eq_zero_of_step hpoly hzero)

theorem word_injective {u v : List Bool} (hlen : u.length = v.length) (hw : u.length ≤ w)
    (h : (word u : BitVec w) = word v) : u = v := by
  apply List.ext_getElem hlen
  intro i hu hv
  have hbit := congrArg (fun x : BitVec w => x.getLsbD i) h
  simp only [getLsbD_word] at hbit
  simpa [show i < w by omega, hu, hv] using hbit

-- Two messages that differ within `w` bits in a row have different remainders.
theorem feed_burst (hpoly : poly.getLsbD (w - 1) = true) {p u v q : List Bool}
    (hlen : u.length = v.length) (hw : u.length ≤ w) (hne : u ≠ v) (s : BitVec w) :
    feed poly s (p ++ u ++ q) ≠ feed poly s (p ++ v ++ q) := by
  intro h
  rw [feed_append, feed_append, feed_append, feed_append] at h
  have hmid := eq_of_feed_eq hpoly h
  rw [@feed_eq_iterate _ _ u hw, @feed_eq_iterate _ _ v (hlen ▸ hw), ← hlen] at hmid
  have hzero : (step poly)^[u.length] ((word u : BitVec w) ^^^ word v) = 0#w := by
    rw [← xor_xor_xor _ _ (feed poly s p), BitVec.xor_comm (word u), BitVec.xor_comm (word v),
      iterate_step_xor, hmid, BitVec.xor_self]
  have hwords := BitVec.xor_eq_zero_iff.mp (eq_zero_of_iterate_step hpoly hzero)
  exact hne (word_injective hlen hw hwords)

end Espos.Crc
