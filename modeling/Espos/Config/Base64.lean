import Espos.Platform
import Espos.Lib.Text
import Mathlib.Data.List.DropRight

-- The base64 text of `b64.c`.

namespace Espos.Config

open Espos.Text

def alphabet : CStr :=
  lit "ABCDEFGHIJKLMNOPQRSTUVWXYZabcdefghijklmnopqrstuvwxyz0123456789+/"

def alpha (n : Nat) : Char :=
  alphabet.getD n '='

-- Three bytes are four characters; what is missing at the end is padding.
def b64Encode : List UInt8 → CStr
  | [] => []
  | [a] =>
    let v := a.toNat * 65536
    [alpha (v / 262144 % 64), alpha (v / 4096 % 64), '=', '=']
  | [a, b] =>
    let v := a.toNat * 65536 + b.toNat * 256
    [alpha (v / 262144 % 64), alpha (v / 4096 % 64), alpha (v / 64 % 64), '=']
  | a :: b :: c :: rest =>
    let v := a.toNat * 65536 + b.toNat * 256 + c.toNat
    [alpha (v / 262144 % 64), alpha (v / 4096 % 64), alpha (v / 64 % 64), alpha (v % 64)] ++
      b64Encode rest

def b64Val (c : Char) : Option Nat :=
  if 'A' ≤ c ∧ c ≤ 'Z' then some (c.toNat - 65)
  else if 'a' ≤ c ∧ c ≤ 'z' then some (c.toNat - 97 + 26)
  else if '0' ≤ c ∧ c ≤ '9' then some (c.toNat - 48 + 52)
  else if c = '+' then some 62
  else if c = '/' then some 63
  else none

-- The loop of the decoder: `acc` is 32 bits wide, `bits` of it are still to be
-- written.
def decodeFrom (outSize acc bits : Nat) (out : List UInt8) : CStr → Except EspErr (List UInt8)
  | [] => .ok out
  | c :: rest =>
    match b64Val c with
    | none => .error .invalidArg
    | some v =>
      let acc := (acc * 64 + v) % 2 ^ 32
      let bits := bits + 6
      if 8 ≤ bits then
        if outSize ≤ out.length then .error .invalidSize
        else
          decodeFrom outSize acc (bits - 8)
            (out ++ [UInt8.ofNat (acc / 2 ^ (bits - 8) % 256)]) rest
      else decodeFrom outSize acc bits out rest

-- Padding at the end is optional.
def b64Decode (text : CStr) (outSize : Nat) : Except EspErr (List UInt8) :=
  let text := text.rdropWhile (· = '=')
  if text.length % 4 = 1 then .error .invalidArg else decodeFrom outSize 0 0 [] text

-- The buffer the import gives the decoder.
def decodeCap (text : CStr) : Nat :=
  (text.length / 4 + 1) * 3

theorem b64Val_alpha {n : Nat} (h : n < 64) : b64Val (alpha n) = some n := by
  have hall : ∀ n < 64, b64Val (alpha n) = some n := by decide +kernel
  exact hall n h

theorem alpha_ne {n : Nat} (h : n < 64) : alpha n ≠ '=' ∧ alpha n ≠ '*' := by
  have hall : ∀ n < 64, alpha n ≠ '=' ∧ alpha n ≠ '*' := by decide +kernel
  exact hall n h

section Steps

variable {outSize acc : Nat} {out : List UInt8} {rest : CStr}

theorem decodeFrom_cons {bits n : Nat} (hn : n < 64) (hfits : out.length < outSize) :
    decodeFrom outSize acc bits out (alpha n :: rest) =
      if 8 ≤ bits + 6 then
        decodeFrom outSize ((acc * 64 + n) % 2 ^ 32) (bits + 6 - 8)
          (out ++ [UInt8.ofNat ((acc * 64 + n) % 2 ^ 32 / 2 ^ (bits + 6 - 8) % 256)]) rest
      else decodeFrom outSize ((acc * 64 + n) % 2 ^ 32) (bits + 6) out rest := by
  rw [decodeFrom, b64Val_alpha hn]
  dsimp only
  rw [if_neg (Nat.not_le.mpr hfits)]

theorem ofNat_eq {n : Nat} {a : UInt8} (h : n = a.toNat) : UInt8.ofNat n = a := by
  rw [h, UInt8.ofNat_toNat]

variable {a b c : UInt8}

-- Two characters give a byte, three give two and four give three.
theorem decode_one (acc : Nat) (rest : CStr) {v : Nat} (hv : v / 65536 = a.toNat)
    (hfits : out.length < outSize) :
    ∃ acc', acc' % 16 = v / 4096 % 16 ∧
      decodeFrom outSize acc 0 out (alpha (v / 262144 % 64) :: alpha (v / 4096 % 64) :: rest) =
        decodeFrom outSize acc' 4 (out ++ [a]) rest := by
  have ha := a.toNat_lt
  refine ⟨((acc * 64 + v / 262144 % 64) % 2 ^ 32 * 64 + v / 4096 % 64) % 2 ^ 32, by omega, ?_⟩
  rw [decodeFrom_cons (by omega) hfits, if_neg (by omega), decodeFrom_cons (by omega) hfits,
    if_pos (by omega)]
  congr 2
  rw [ofNat_eq (a := a) (by omega)]

theorem decode_two (acc : Nat) (rest : CStr) {v : Nat} (hv : v / 65536 = a.toNat)
    (hb : v / 256 % 256 = b.toNat) (hfits : out.length + 1 < outSize) :
    ∃ acc', acc' % 4 = v / 64 % 4 ∧
      decodeFrom outSize acc 0 out
          (alpha (v / 262144 % 64) :: alpha (v / 4096 % 64) :: alpha (v / 64 % 64) :: rest) =
        decodeFrom outSize acc' 2 (out ++ [a, b]) rest := by
  obtain ⟨acc₁, hacc, hone⟩ := decode_one acc (alpha (v / 64 % 64) :: rest) hv
    (by omega : out.length < outSize)
  refine ⟨(acc₁ * 64 + v / 64 % 64) % 2 ^ 32, by omega, ?_⟩
  rw [hone, decodeFrom_cons (by omega) (by simpa using hfits), if_pos (by omega),
    ofNat_eq (a := b) (by omega), List.append_assoc]
  rfl

theorem decode_three (acc : Nat) (rest : CStr) {v : Nat} (hv : v / 65536 = a.toNat)
    (hb : v / 256 % 256 = b.toNat) (hc : v % 256 = c.toNat) (hfits : out.length + 2 < outSize) :
    ∃ acc', decodeFrom outSize acc 0 out (alpha (v / 262144 % 64) :: alpha (v / 4096 % 64) ::
        alpha (v / 64 % 64) :: alpha (v % 64) :: rest) =
      decodeFrom outSize acc' 0 (out ++ [a, b, c]) rest := by
  obtain ⟨acc₂, hacc, htwo⟩ := decode_two acc (alpha (v % 64) :: rest) hv hb
    (by omega : out.length + 1 < outSize)
  refine ⟨(acc₂ * 64 + v % 64) % 2 ^ 32, ?_⟩
  rw [htwo, decodeFrom_cons (by omega) (by simpa using hfits), if_pos (by omega),
    ofNat_eq (a := c) (by omega), List.append_assoc]
  rfl

end Steps

-- The text without its padding.
def b64Core : List UInt8 → CStr
  | [] => []
  | [a] =>
    let v := a.toNat * 65536
    [alpha (v / 262144 % 64), alpha (v / 4096 % 64)]
  | [a, b] =>
    let v := a.toNat * 65536 + b.toNat * 256
    [alpha (v / 262144 % 64), alpha (v / 4096 % 64), alpha (v / 64 % 64)]
  | a :: b :: c :: rest =>
    let v := a.toNat * 65536 + b.toNat * 256 + c.toNat
    [alpha (v / 262144 % 64), alpha (v / 4096 % 64), alpha (v / 64 % 64), alpha (v % 64)] ++
      b64Core rest

def b64Pad (bytes : List UInt8) : Nat :=
  (3 - bytes.length % 3) % 3

theorem b64Encode_eq (bytes : List UInt8) :
    b64Encode bytes = b64Core bytes ++ List.replicate (b64Pad bytes) '=' := by
  induction bytes using b64Core.induct with
  | case1 => rfl
  | case2 a => rfl
  | case3 a b => rfl
  | case4 a b c rest ih =>
    have hpad : b64Pad (a :: b :: c :: rest) = b64Pad rest := by
      simp only [b64Pad, List.length_cons]
      omega
    rw [b64Encode, b64Core, ih, hpad, List.append_assoc]

theorem mem_b64Core {bytes : List UInt8} {ch : Char} (h : ch ∈ b64Core bytes) :
    ch ≠ '=' ∧ ch ≠ '*' := by
  induction bytes using b64Core.induct with
  | case1 => simp [b64Core] at h
  | case2 a =>
    simp only [b64Core, List.mem_cons, List.not_mem_nil, or_false] at h
    rcases h with rfl | rfl <;> exact alpha_ne (by omega)
  | case3 a b =>
    simp only [b64Core, List.mem_cons, List.not_mem_nil, or_false] at h
    rcases h with rfl | rfl | rfl <;> exact alpha_ne (by omega)
  | case4 a b c rest ih =>
    simp only [b64Core, List.mem_cons, List.cons_append, List.nil_append] at h
    rcases h with rfl | rfl | rfl | rfl | h
    · exact alpha_ne (by omega)
    · exact alpha_ne (by omega)
    · exact alpha_ne (by omega)
    · exact alpha_ne (by omega)
    · exact ih h

theorem length_b64Core (bytes : List UInt8) :
    (b64Core bytes).length = bytes.length / 3 * 4 + (bytes.length % 3 + 1) / 2 +
      bytes.length % 3 := by
  induction bytes using b64Core.induct with
  | case1 => rfl
  | case2 a => simp [b64Core]
  | case3 a b => simp [b64Core]
  | case4 a b c rest ih =>
    simp only [b64Core, List.length_append, List.length_cons, List.length_nil, ih]
    omega

theorem rdropWhile_pad (bytes : List UInt8) (n : Nat) :
    (b64Core bytes ++ List.replicate n '=').rdropWhile (· = '=') = b64Core bytes := by
  induction n with
  | zero =>
    rw [List.replicate_zero, List.append_nil, List.rdropWhile_eq_self_iff]
    intro hne
    simpa using (mem_b64Core (List.getLast_mem hne)).1
  | succ n ih =>
    rw [List.replicate_succ', ← List.append_assoc, List.rdropWhile_concat_pos _ _ _ (by simp)]
    exact ih

theorem decodeFrom_b64Core {outSize acc : Nat} {out bytes : List UInt8}
    (hfits : out.length + bytes.length ≤ outSize) :
    decodeFrom outSize acc 0 out (b64Core bytes) = .ok (out ++ bytes) := by
  induction bytes using b64Core.induct generalizing acc out with
  | case1 => simp [b64Core, decodeFrom]
  | case2 a =>
    have ha := a.toNat_lt
    simp only [List.length_cons, List.length_nil] at hfits
    obtain ⟨acc', _, hone⟩ := decode_one acc []
      (by omega : a.toNat * 65536 / 65536 = a.toNat) (by omega : out.length < outSize)
    rw [b64Core, hone, decodeFrom]
  | case3 a b =>
    have ha := a.toNat_lt
    have hb := b.toNat_lt
    simp only [List.length_cons, List.length_nil] at hfits
    obtain ⟨acc', _, htwo⟩ := decode_two acc []
      (by omega : (a.toNat * 65536 + b.toNat * 256) / 65536 = a.toNat)
      (by omega : (a.toNat * 65536 + b.toNat * 256) / 256 % 256 = b.toNat)
      (by omega : out.length + 1 < outSize)
    rw [b64Core, htwo, decodeFrom]
  | case4 a b c rest ih =>
    have ha := a.toNat_lt
    have hb := b.toNat_lt
    have hc := c.toNat_lt
    simp only [List.length_cons] at hfits
    obtain ⟨acc', hthree⟩ := decode_three acc (b64Core rest)
      (by omega : (a.toNat * 65536 + b.toNat * 256 + c.toNat) / 65536 = a.toNat)
      (by omega : (a.toNat * 65536 + b.toNat * 256 + c.toNat) / 256 % 256 = b.toNat)
      (by omega : (a.toNat * 65536 + b.toNat * 256 + c.toNat) % 256 = c.toNat)
      (by omega : out.length + 2 < outSize)
    rw [b64Core]
    have hlen : (out ++ [a, b, c]).length + rest.length ≤ outSize := by
      simp only [List.length_append, List.length_cons, List.length_nil]
      omega
    exact hthree.trans ((ih hlen).trans (by rw [List.append_assoc]; rfl))

theorem b64Decode_b64Encode (bytes : List UInt8) :
    b64Decode (b64Encode bytes) (decodeCap (b64Encode bytes)) = .ok bytes := by
  have hlen := length_b64Core bytes
  have hcap : bytes.length ≤ decodeCap (b64Encode bytes) := by
    rw [decodeCap, b64Encode_eq, List.length_append, hlen, List.length_replicate, b64Pad]
    omega
  rw [b64Decode]
  generalize decodeCap (b64Encode bytes) = cap at hcap
  rw [b64Encode_eq, rdropWhile_pad, if_neg (by omega)]
  exact decodeFrom_b64Core (by simpa using hcap)

end Espos.Config
