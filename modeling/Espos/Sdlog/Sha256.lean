import Espos.Lib.Text

-- `sdlog_sha256.c`: SHA-256 and CRC-32.

namespace Espos.Sdlog

open Espos.Text

def sha256K : List UInt32 :=
  [0x428a2f98, 0x71374491, 0xb5c0fbcf, 0xe9b5dba5, 0x3956c25b, 0x59f111f1, 0x923f82a4, 0xab1c5ed5,
    0xd807aa98, 0x12835b01, 0x243185be, 0x550c7dc3, 0x72be5d74, 0x80deb1fe, 0x9bdc06a7, 0xc19bf174,
    0xe49b69c1, 0xefbe4786, 0x0fc19dc6, 0x240ca1cc, 0x2de92c6f, 0x4a7484aa, 0x5cb0a9dc, 0x76f988da,
    0x983e5152, 0xa831c66d, 0xb00327c8, 0xbf597fc7, 0xc6e00bf3, 0xd5a79147, 0x06ca6351, 0x14292967,
    0x27b70a85, 0x2e1b2138, 0x4d2c6dfc, 0x53380d13, 0x650a7354, 0x766a0abb, 0x81c2c92e, 0x92722c85,
    0xa2bfe8a1, 0xa81a664b, 0xc24b8b70, 0xc76c51a3, 0xd192e819, 0xd6990624, 0xf40e3585, 0x106aa070,
    0x19a4c116, 0x1e376c08, 0x2748774c, 0x34b0bcb5, 0x391c0cb3, 0x4ed8aa4a, 0x5b9cca4f, 0x682e6ff3,
    0x748f82ee, 0x78a5636f, 0x84c87814, 0x8cc70208, 0x90befffa, 0xa4506ceb, 0xbef9a3f7, 0xc67178f2]

def ror (x : UInt32) (n : UInt32) : UInt32 :=
  (x >>> n) ||| (x <<< (32 - n))

-- A word as eight digits, the first byte first.
def hexWord (w : UInt32) : CStr :=
  (List.range 4).flatMap fun j => hexByte (w >>> .ofNat (24 - 8 * j)).toUInt8

structure ShaWords where
  a : UInt32
  b : UInt32
  c : UInt32
  d : UInt32
  e : UInt32
  f : UInt32
  g : UInt32
  k : UInt32
deriving DecidableEq

-- The first sixteen words of a block.
def blockWords (p : List UInt8) : List UInt32 :=
  (List.range 16).map fun i =>
    (p.getD (4 * i) 0).toUInt32 <<< 24 ||| (p.getD (4 * i + 1) 0).toUInt32 <<< 16 |||
      (p.getD (4 * i + 2) 0).toUInt32 <<< 8 ||| (p.getD (4 * i + 3) 0).toUInt32

-- One more word behind the words so far.
def extendWords (w : List UInt32) : List UInt32 :=
  let i := w.length
  let w15 := w.getD (i - 15) 0
  let w2 := w.getD (i - 2) 0
  let s0 := ror w15 7 ^^^ ror w15 18 ^^^ (w15 >>> 3)
  let s1 := ror w2 17 ^^^ ror w2 19 ^^^ (w2 >>> 10)
  w ++ [w.getD (i - 16) 0 + s0 + w.getD (i - 7) 0 + s1]

def shaRound (s : ShaWords) (kw : UInt32 × UInt32) : ShaWords :=
  let t1 := s.k + (ror s.e 6 ^^^ ror s.e 11 ^^^ ror s.e 25) + ((s.e &&& s.f) ^^^ (~~~s.e &&& s.g)) +
    kw.1 + kw.2
  let t2 := (ror s.a 2 ^^^ ror s.a 13 ^^^ ror s.a 22) +
    ((s.a &&& s.b) ^^^ (s.a &&& s.c) ^^^ (s.b &&& s.c))
  ⟨t1 + t2, s.a, s.b, s.c, s.d + t1, s.e, s.f, s.g⟩

def shaBlock (h : ShaWords) (p : List UInt8) : ShaWords :=
  let w := (extendWords^[48]) (blockWords p)
  let s := (sha256K.zip w).foldl shaRound h
  ⟨h.a + s.a, h.b + s.b, h.c + s.c, h.d + s.d, h.e + s.e, h.f + s.f, h.g + s.g, h.k + s.k⟩

-- `buf` is the part of the block that has come in.
structure Sha256 where
  h : ShaWords
  len : UInt64
  buf : List UInt8
  used : buf.length < 64
deriving DecidableEq

namespace Sha256

def init : Sha256 :=
  ⟨⟨0x6a09e667, 0xbb67ae85, 0x3c6ef372, 0xa54ff53a, 0x510e527f, 0x9b05688c, 0x1f83d9ab,
    0x5be0cd19⟩, 0, [], by decide⟩

-- The loop of `update`: as many bytes as the block still takes, until none is left.
def absorb (c : Sha256) (data : List UInt8) : Sha256 :=
  if h : data = [] then c
  else
    let take := min (64 - c.buf.length) data.length
    let buf := c.buf ++ data.take take
    if hfull : buf.length = 64 then
      absorb ⟨shaBlock c.h buf, c.len, [], by decide⟩ (data.drop take)
    else
      absorb ⟨c.h, c.len, buf, by
        have hused := c.used
        simp only [buf, take, List.length_append, List.length_take] at hfull ⊢
        omega⟩ (data.drop take)
termination_by data.length
decreasing_by
  all_goals
    have hused := c.used
    have hpos := List.length_pos_iff.mpr h
    rw [List.length_drop]
    omega

def update (c : Sha256) (data : List UInt8) : Sha256 :=
  absorb { c with len := c.len + .ofNat data.length } data

-- The padding loop of `hex`: zeroes up to the last eight bytes of a block.
def pad : Nat → Sha256 → Sha256
  | 0, c => c
  | fuel + 1, c => if c.buf.length = 56 then c else pad fuel (c.update [0])

def words (h : ShaWords) : List UInt32 :=
  [h.a, h.b, h.c, h.d, h.e, h.f, h.g, h.k]

def hex (c : Sha256) : CStr :=
  let bits := c.len * 8
  let c := pad 64 (c.update [0x80])
  let c := c.update ((List.range 8).map fun i => (bits >>> .ofNat (56 - 8 * i)).toUInt8)
  (words c.h).flatMap hexWord

-- `absorb` for one byte.
def push (c : Sha256) (b : UInt8) : Sha256 :=
  if h : c.buf.length = 63 then ⟨shaBlock c.h (c.buf ++ [b]), c.len, [], by decide⟩
  else
    ⟨c.h, c.len, c.buf ++ [b], by
      have hused := c.used
      rw [List.length_append, List.length_singleton]
      omega⟩

theorem foldl_push_short {c : Sha256} {data : List UInt8}
    (h : (c.buf ++ data).length < 64) : data.foldl push c = ⟨c.h, c.len, c.buf ++ data, h⟩ := by
  induction data generalizing c with
  | nil => simp only [List.foldl_nil, List.append_nil]
  | cons b data ih =>
    have hlen : c.buf.length + (data.length + 1) < 64 := by
      rw [← List.length_cons, ← List.length_append]
      exact h
    have hpush : push c b = ⟨c.h, c.len, c.buf ++ [b], by
        rw [List.length_append, List.length_singleton]
        omega⟩ := dif_neg (by omega)
    have hrest : (c.buf ++ [b] ++ data).length < 64 := by
      rw [List.append_assoc]
      exact h
    rw [List.foldl_cons, hpush, ih hrest]
    simp only [List.append_assoc, List.singleton_append]

theorem foldl_push_block {c : Sha256} {data : List UInt8} (hne : data ≠ [])
    (h : (c.buf ++ data).length = 64) :
    data.foldl push c = ⟨shaBlock c.h (c.buf ++ data), c.len, [], by decide⟩ := by
  obtain ⟨front, last, rfl⟩ := (List.eq_nil_or_concat' data).resolve_left hne
  have hlen : (c.buf ++ front).length = 63 := by
    simp only [List.length_append, List.length_singleton] at h ⊢
    omega
  have hfront := @foldl_push_short c front (by omega)
  rw [List.foldl_append, hfront, List.foldl_cons, List.foldl_nil, push, dif_pos hlen,
    List.append_assoc]

-- The bytes are taken block by block, or one by one.
theorem absorb_eq_foldl (c : Sha256) (data : List UInt8) : absorb c data = data.foldl push c := by
  induction hn : data.length using Nat.strong_induction_on generalizing c data with
  | _ n ih =>
    rw [absorb]
    by_cases hnil : data = []
    · rw [dif_pos hnil, hnil, List.foldl_nil]
    · rw [dif_neg hnil]
      have hused := c.used
      have hpos : 0 < data.length := List.length_pos_iff.mpr hnil
      have hlen : (c.buf ++ data.take (min (64 - c.buf.length) data.length)).length =
          c.buf.length + min (64 - c.buf.length) data.length := by
        rw [List.length_append, List.length_take]
        omega
      have hdrop : (data.drop (min (64 - c.buf.length) data.length)).length < n := by
        rw [List.length_drop]
        omega
      have hsplit : data.foldl push c = (data.drop (min (64 - c.buf.length) data.length)).foldl
          push ((data.take (min (64 - c.buf.length) data.length)).foldl push c) := by
        rw [← List.foldl_append, List.take_append_drop]
      have htake : data.take (min (64 - c.buf.length) data.length) ≠ [] := by
        apply List.ne_nil_of_length_pos
        rw [List.length_take]
        omega
      by_cases hfull : (c.buf ++ data.take (min (64 - c.buf.length) data.length)).length = 64
      · rw [dif_pos hfull, ih _ hdrop _ _ rfl, hsplit, foldl_push_block htake hfull]
      · have hshort := @foldl_push_short c (data.take (min (64 - c.buf.length) data.length))
          (by omega)
        rw [dif_neg hfull, ih _ hdrop _ _ rfl, hsplit, hshort]

theorem foldl_push_len (c : Sha256) (len : UInt64) (data : List UInt8) :
    data.foldl push { c with len := len } = { data.foldl push c with len := len } := by
  induction data generalizing c with
  | nil => rfl
  | cons b data ih =>
    have hpush : push { c with len := len } b = { push c b with len := len } := by
      by_cases h : c.buf.length = 63
      · simp only [push, dif_pos h]
      · simp only [push, dif_neg h]
    rw [List.foldl_cons, List.foldl_cons, hpush, ih]

-- A text is hashed whole or in parts.
theorem update_update (c : Sha256) (data more : List UInt8) :
    (c.update data).update more = c.update (data ++ more) := by
  simp only [update, absorb_eq_foldl, List.foldl_append, List.length_append, UInt64.ofNat_add,
    foldl_push_len, UInt64.add_assoc]

theorem update_nil (c : Sha256) : c.update [] = c := by
  rw [update, absorb_eq_foldl, List.foldl_nil]
  show { c with len := c.len + 0 } = c
  rw [UInt64.add_zero]

theorem length_hex (c : Sha256) : c.hex.length = 64 := by
  simp only [hex, words, hexWord, hexByte, List.flatMap_cons, List.flatMap_nil, List.length_append,
    List.length_flatMap]
  rfl

end Sha256

-- The bytes of a text, one to a character.
def bytesOf (text : CStr) : List UInt8 :=
  text.map fun c => UInt8.ofNat c.toNat

def crcBit (crc : UInt32) : UInt32 :=
  (crc >>> 1) ^^^ (0xEDB88320 &&& (0 - (crc &&& 1)))

def crc32 (crc : UInt32) (data : List UInt8) : UInt32 :=
  ~~~data.foldl (fun crc b => (crcBit^[8]) (crc ^^^ b.toUInt32)) (~~~crc)

end Espos.Sdlog
