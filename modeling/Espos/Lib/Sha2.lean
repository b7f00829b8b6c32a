import Mathlib.Analysis.SpecialFunctions.Pow.NthRootLemmas
import Mathlib.Data.Fin.VecNotation
import Mathlib.Data.List.FinRange
import Mathlib.Data.Nat.NthRoot.Defs
import Mathlib.Data.Nat.Nth
import Mathlib.Data.Nat.Prime.Basic
import Espos.Lib.Text

-- SHA-256 as FIPS 180-4 defines it: its constants by the roots of primes, the
-- message schedule by recursion, the digest of a whole message.

namespace Espos.Sha2

open Espos.Text

-- The first 32 bits of the fractional part of the `k`-th root of a prime.
noncomputable def rootWord (k t : Nat) : UInt32 :=
  .ofNat (Nat.nthRoot k (Nat.nth Nat.Prime t * 2 ^ (32 * k)))

def rotr (n : UInt32) (x : UInt32) : UInt32 :=
  (x >>> n) ||| (x <<< (32 - n))

def ch (x y z : UInt32) : UInt32 :=
  (x &&& y) ^^^ (~~~x &&& z)

def maj (x y z : UInt32) : UInt32 :=
  (x &&& y) ^^^ (x &&& z) ^^^ (y &&& z)

-- The words of a block and those the schedule derives from them.
def schedule (m : Nat → UInt32) (t : Nat) : UInt32 :=
  if t < 16 then m t
  else
    let w2 := schedule m (t - 2)
    let w15 := schedule m (t - 15)
    (rotr 17 w2 ^^^ rotr 19 w2 ^^^ (w2 >>> 10)) + schedule m (t - 7) +
      (rotr 7 w15 ^^^ rotr 18 w15 ^^^ (w15 >>> 3)) + schedule m (t - 16)
termination_by t

def round (k w : UInt32) (v : Fin 8 → UInt32) : Fin 8 → UInt32 :=
  let t1 := v 7 + (rotr 6 (v 4) ^^^ rotr 11 (v 4) ^^^ rotr 25 (v 4)) + ch (v 4) (v 5) (v 6) + k + w
  let t2 := (rotr 2 (v 0) ^^^ rotr 13 (v 0) ^^^ rotr 22 (v 0)) + maj (v 0) (v 1) (v 2)
  ![t1 + t2, v 0, v 1, v 2, v 3 + t1, v 4, v 5, v 6]

noncomputable def rounds (m : Nat → UInt32) (v : Fin 8 → UInt32) : Nat → Fin 8 → UInt32
  | 0 => v
  | t + 1 => round (rootWord 3 t) (schedule m t) (rounds m v t)

noncomputable def compress (v : Fin 8 → UInt32) (m : Nat → UInt32) : Fin 8 → UInt32 :=
  fun i => rounds m v 64 i + v i

-- The zeroes between the message's closing bit and its length.
def zeroes (n : Nat) : Nat :=
  (119 - n % 64) % 64

def lengthBytes (n : Nat) : List UInt8 :=
  (List.range 8).map fun i => .ofNat (8 * n / 2 ^ (56 - 8 * i))

def paddedMessage (data : List UInt8) : List UInt8 :=
  data ++ 0x80 :: List.replicate (zeroes data.length) 0 ++ lengthBytes data.length

-- The words of a text, four bytes to a word.
def wordAt (bytes : List UInt8) (j : Nat) : UInt32 :=
  .ofNat ((bytes.getD (4 * j) 0).toNat * 2 ^ 24 + (bytes.getD (4 * j + 1) 0).toNat * 2 ^ 16 +
    (bytes.getD (4 * j + 2) 0).toNat * 2 ^ 8 + (bytes.getD (4 * j + 3) 0).toNat)

noncomputable def hash (data : List UInt8) : Fin 8 → UInt32 :=
  (List.range ((paddedMessage data).length / 64)).foldl
    (fun v i => compress v fun t => wordAt (paddedMessage data) (16 * i + t)) fun i => rootWord 2 i

noncomputable def digest (data : List UInt8) : List UInt8 :=
  (List.finRange 8).flatMap fun i =>
    (List.range 4).map fun j => .ofNat ((hash data i).toNat / 2 ^ (24 - 8 * j))

theorem length_paddedMessage (data : List UInt8) : (paddedMessage data).length % 64 = 0 := by
  simp only [paddedMessage, zeroes, lengthBytes, List.length_append, List.length_cons,
    List.length_replicate, List.length_map, List.length_range]
  omega

theorem schedule_congr {m m' : Nat → UInt32} (h : ∀ t < 16, m t = m' t) (t : Nat) :
    schedule m t = schedule m' t := by
  induction t using Nat.strong_induction_on with
  | _ t ih =>
    rw [schedule.eq_def m t, schedule.eq_def m' t]
    by_cases ht : t < 16
    · rw [if_pos ht, if_pos ht, h t ht]
    · rw [if_neg ht, if_neg ht, ih (t - 2) (by omega), ih (t - 7) (by omega),
        ih (t - 15) (by omega), ih (t - 16) (by omega)]

theorem compress_congr {m m' : Nat → UInt32} (h : ∀ t < 16, m t = m' t) (v : Fin 8 → UInt32) :
    compress v m = compress v m' := by
  have hrounds : ∀ n, rounds m v n = rounds m' v n := by
    intro n
    induction n with
    | zero => rfl
    | succ n ih => rw [rounds, rounds, ih, schedule_congr h]
  funext i
  rw [compress, compress, hrounds]

section Constants

variable {p : Nat → Prop} [DecidablePred p]

theorem length_filter_range (n : Nat) :
    ((List.range n).filter (p ·)).length = Nat.count p n := by
  induction n with
  | zero => rfl
  | succ n ih =>
    rw [List.range_succ, List.filter_append, List.length_append, ih, Nat.count_succ]
    by_cases hn : p n <;> simp [hn]

-- A search from below finds the numbers that meet `p` in their order.
theorem nth_eq_of_filter {n t x : Nat} (h : ((List.range n).filter (p ·))[t]? = some x) :
    Nat.nth p t = x := by
  induction n with
  | zero => cases h
  | succ n ih =>
    rw [List.range_succ, List.filter_append, List.getElem?_append] at h
    split at h
    next => exact ih h
    next hlast =>
      by_cases hn : p n
      · rw [length_filter_range] at h hlast
        simp only [hn, decide_true, List.filter_cons_of_pos, List.filter_nil] at h
        have ht : t = Nat.count p n := by
          have hlt := (List.getElem?_eq_some_iff.mp h).1
          rw [List.length_singleton] at hlt
          omega
        rw [ht, Nat.sub_self] at h
        obtain rfl : n = x := Option.some.inj h
        rw [ht]
        exact Nat.nth_count hn
      · simp [hn] at h

end Constants

-- Whether a number below 18 * 18 is prime, by trial.
def trial (n : Nat) : Bool :=
  decide (2 ≤ n) && (List.range 18).all fun m => m < 2 || n < m * m || n % m != 0

theorem trial_iff {n : Nat} (hn : n < 324) : trial n = true ↔ n.Prime := by
  rw [Nat.prime_def_le_sqrt, trial]
  simp only [Bool.and_eq_true, decide_eq_true_eq, List.all_eq_true, List.mem_range,
    Bool.or_eq_true, bne_iff_ne]
  refine and_congr_right fun _ => ⟨?_, ?_⟩
  · intro h m hm hsqrt hdvd
    have hle : m * m ≤ n := Nat.le_sqrt.mp hsqrt
    have hlt : m < 18 := by nlinarith
    rcases h m hlt with (h | h) | h
    · omega
    · omega
    · exact h (Nat.mod_eq_zero_of_dvd hdvd)
  · intro h m _
    by_cases hm : m < 2
    · exact .inl (.inl hm)
    · by_cases hle : n < m * m
      · exact .inl (.inr hle)
      · refine .inr fun hmod => h m (by omega) (Nat.le_sqrt.mpr (by omega)) ?_
        exact Nat.dvd_of_mod_eq_zero hmod

theorem nth_prime {t q : Nat} (h : ((List.range 324).filter trial)[t]? = some q) :
    Nat.nth Nat.Prime t = q := by
  have hsame : (List.range 324).filter (fun n => decide n.Prime) =
      (List.range 324).filter trial := by
    apply List.filter_congr
    intro n hn
    rw [Bool.eq_iff_iff, trial_iff (List.mem_range.mp hn), decide_eq_true_eq]
  rw [← hsame] at h
  exact nth_eq_of_filter h

-- A word is the fractional part of a root when the root lies between it and the next.
def IsRoot (k q whole : Nat) (w : UInt32) : Prop :=
  (whole * 2 ^ 32 + w.toNat) ^ k ≤ q * 2 ^ (32 * k) ∧
    q * 2 ^ (32 * k) < (whole * 2 ^ 32 + w.toNat + 1) ^ k

instance (k q whole : Nat) (w : UInt32) : Decidable (IsRoot k q whole w) :=
  inferInstanceAs (Decidable (_ ∧ _))

theorem rootWord_eq {k t q whole : Nat} {w : UInt32} (hq : Nat.nth Nat.Prime t = q)
    (h : IsRoot k q whole w) : rootWord k t = w := by
  rw [rootWord, hq, Nat.nthRoot_eq_of_le_of_lt h.1 h.2]
  apply UInt32.toNat_inj.mp
  have hlt := w.toNat_lt
  rw [UInt32.toNat_ofNat']
  omega

def hasRoot (k q : Nat) (w : UInt32) : Bool :=
  (List.range 18).any fun whole => decide (IsRoot k q whole w)

theorem rootWord_of_hasRoot {k t q : Nat} {w : UInt32} (hq : Nat.nth Nat.Prime t = q)
    (h : hasRoot k q w = true) : rootWord k t = w := by
  obtain ⟨whole, _, hroot⟩ := List.any_eq_true.mp h
  exact rootWord_eq hq (of_decide_eq_true hroot)

end Espos.Sha2
