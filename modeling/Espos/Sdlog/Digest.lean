import Mathlib.Tactic.FinCases
import Espos.Lib.Crc
import Espos.Lib.Sha2
import Espos.Sdlog.Sha256

-- What `sdlog_sha256.c` computes: the digest of FIPS 180-4, whatever the pieces
-- a text is hashed in, and a check that no short run of damaged bits passes.

namespace Espos.Sdlog

open Espos.Text Espos.Sha2

def smallPrimes : List Nat :=
  [2, 3, 5, 7, 11, 13, 17, 19, 23, 29, 31, 37, 41, 43, 47, 53, 59, 61, 67, 71, 73, 79, 83, 89, 97,
    101, 103, 107, 109, 113, 127, 131, 137, 139, 149, 151, 157, 163, 167, 173, 179, 181, 191, 193,
    197, 199, 211, 223, 227, 229, 233, 239, 241, 251, 257, 263, 269, 271, 277, 281, 283, 293, 307,
    311, 313, 317]

theorem nth_smallPrimes {t : Nat} (ht : t < smallPrimes.length) :
    Nat.nth Nat.Prime t = smallPrimes[t] := by
  have hall : (List.range 324).filter trial = smallPrimes := by decide +kernel
  apply nth_prime
  rw [hall]
  exact List.getElem?_eq_getElem ht

-- The table holds the cube roots of the first primes.
theorem sha256K_eq : sha256K = (List.range 64).map (rootWord 3) := by
  have hroots : (smallPrimes.zip sha256K).all (fun qw => hasRoot 3 qw.1 qw.2) = true := by
    decide +kernel
  apply List.ext_getElem
  · rw [List.length_map, List.length_range]
    rfl
  · intro t ht ht'
    have hprime : t < smallPrimes.length := ht.trans (by decide)
    have hzip : t < (smallPrimes.zip sha256K).length := by
      rw [List.length_zip]
      exact lt_min hprime ht
    have hroot := List.all_eq_true.mp hroots _ (List.getElem_mem hzip)
    rw [List.getElem_zip] at hroot
    rw [List.getElem_map, List.getElem_range]
    exact (rootWord_of_hasRoot (nth_smallPrimes hprime) hroot).symm

namespace ShaWords

def vars (s : ShaWords) : Fin 8 → UInt32 :=
  ![s.a, s.b, s.c, s.d, s.e, s.f, s.g, s.k]

theorem vars_round (s : ShaWords) (kw : UInt32 × UInt32) :
    (shaRound s kw).vars = Sha2.round kw.1 kw.2 s.vars := by
  rfl

-- What a hash starts from are the square roots of the first primes.
theorem vars_init : Sha256.init.h.vars = fun i => rootWord 2 i.val := by
  have hroots : (List.finRange 8).all (fun i =>
      hasRoot 2 (smallPrimes.getD i.val 0) (Sha256.init.h.vars i)) = true := by
    decide +kernel
  funext i
  have hprime : i.val < smallPrimes.length := i.isLt.trans (by decide)
  have hroot := List.all_eq_true.mp hroots i (List.mem_finRange i)
  rw [List.getD_eq_getElem _ _ hprime] at hroot
  exact (rootWord_of_hasRoot (nth_smallPrimes hprime) hroot).symm

end ShaWords

theorem schedule_of_ge (m : Nat → UInt32) {t : Nat} (ht : 16 ≤ t) :
    schedule m t = schedule m (t - 16) +
      (ror (schedule m (t - 15)) 7 ^^^ ror (schedule m (t - 15)) 18 ^^^
        (schedule m (t - 15) >>> 3)) + schedule m (t - 7) +
      (ror (schedule m (t - 2)) 17 ^^^ ror (schedule m (t - 2)) 19 ^^^
        (schedule m (t - 2) >>> 10)) := by
  have hturn : ∀ a b c d : UInt32, a + b + c + d = d + c + b + a := by
    intro a b c d
    ac_rfl
  rw [schedule, if_neg (by omega)]
  exact hturn _ _ _ _

-- Appending word after word goes through the schedule.
theorem extendWords_iterate (m : Nat → UInt32) (n : Nat) :
    (extendWords^[n]) ((List.range 16).map m) = (List.range (16 + n)).map (schedule m) := by
  induction n with
  | zero =>
    apply List.map_congr_left
    intro t ht
    rw [schedule, if_pos (List.mem_range.mp ht)]
  | succ n ih =>
    have hget : ∀ j < 16 + n,
        ((List.range (16 + n)).map (schedule m)).getD j 0 = schedule m j := by
      intro j hj
      rw [List.getD_eq_getElem _ _ (by simpa using hj), List.getElem_map, List.getElem_range]
    have hlen : ((List.range (16 + n)).map (schedule m)).length = 16 + n := by simp
    rw [Function.iterate_succ_apply', ih, extendWords, hlen, hget _ (by omega),
      hget _ (by omega), hget _ (by omega), hget _ (by omega), ← Nat.add_assoc, List.range_succ,
      List.map_append, List.map_singleton, schedule_of_ge m (by omega : 16 ≤ 16 + n)]

theorem shiftLeft_or {a b n : Nat} (hb : b < 2 ^ n) : a <<< n ||| b = a * 2 ^ n + b := by
  rw [← Nat.shiftLeft_add_eq_or_of_lt hb, Nat.shiftLeft_eq]

-- A word is put together by shifts or by powers.
theorem ofNat_word (a b c d : UInt8) :
    UInt32.ofNat (a.toNat * 2 ^ 24 + b.toNat * 2 ^ 16 + c.toNat * 2 ^ 8 + d.toNat) =
      a.toUInt32 <<< 24 ||| b.toUInt32 <<< 16 ||| c.toUInt32 <<< 8 ||| d.toUInt32 := by
  have ha := a.toNat_lt
  have hb := b.toNat_lt
  have hc := c.toNat_lt
  have hd := d.toNat_lt
  have hshift : ∀ (x : UInt8) (n : Nat), n ≤ 24 → x.toNat <<< n % 2 ^ 32 = x.toNat <<< n := by
    intro x n hn
    have hx := x.toNat_lt
    rw [Nat.shiftLeft_eq]
    apply Nat.mod_eq_of_lt
    calc x.toNat * 2 ^ n < 2 ^ 8 * 2 ^ n := Nat.mul_lt_mul_of_pos_right hx (Nat.two_pow_pos n)
      _ ≤ 2 ^ 8 * 2 ^ 24 := Nat.mul_le_mul_left _ (Nat.pow_le_pow_right (by decide) hn)
      _ = 2 ^ 32 := by decide
  have hwhole : a.toNat <<< 24 ||| b.toNat <<< 16 ||| c.toNat <<< 8 ||| d.toNat =
      a.toNat * 2 ^ 24 + b.toNat * 2 ^ 16 + c.toNat * 2 ^ 8 + d.toNat := by
    rw [Nat.or_assoc, Nat.or_assoc, shiftLeft_or (a := c.toNat) hd,
      shiftLeft_or (a := b.toNat) (n := 16) (by omega),
      shiftLeft_or (a := a.toNat) (n := 24) (by omega)]
    omega
  apply UInt32.toNat_inj.mp
  rw [UInt32.toNat_ofNat', ← hwhole, UInt32.toNat_or, UInt32.toNat_or, UInt32.toNat_or,
    UInt32.toNat_shiftLeft, UInt32.toNat_shiftLeft, UInt32.toNat_shiftLeft, UInt8.toNat_toUInt32,
    UInt8.toNat_toUInt32, UInt8.toNat_toUInt32, UInt8.toNat_toUInt32]
  change _ = _ <<< 24 % 2 ^ 32 ||| _ <<< 16 % 2 ^ 32 ||| _ <<< 8 % 2 ^ 32 ||| _
  rw [hshift a 24 (by decide), hshift b 16 (by decide), hshift c 8 (by decide), hwhole]
  omega

theorem blockWords_eq (p : List UInt8) : blockWords p = (List.range 16).map (wordAt p) :=
  List.map_congr_left fun _ _ => (ofNat_word ..).symm

theorem vars_foldl (m : Nat → UInt32) (s : ShaWords) (n : Nat) :
    (((List.range n).map fun t => (rootWord 3 t, schedule m t)).foldl shaRound s).vars =
      rounds m s.vars n := by
  induction n with
  | zero => rfl
  | succ n ih =>
    rw [List.range_succ, List.map_append, List.foldl_append, List.map_singleton, List.foldl_cons,
      List.foldl_nil, ShaWords.vars_round, ih]
    rfl

theorem vars_add (s t : ShaWords) :
    ShaWords.vars ⟨s.a + t.a, s.b + t.b, s.c + t.c, s.d + t.d, s.e + t.e, s.f + t.f, s.g + t.g,
      s.k + t.k⟩ = fun i => t.vars i + s.vars i := by
  funext i
  fin_cases i <;> exact UInt32.add_comm _ _

theorem vars_shaBlock (s : ShaWords) (p : List UInt8) :
    (shaBlock s p).vars = compress s.vars (wordAt p) := by
  have hw : (extendWords^[48]) (blockWords p) = (List.range 64).map (schedule (wordAt p)) := by
    rw [blockWords_eq, extendWords_iterate]
  have hzip : sha256K.zip ((List.range 64).map (schedule (wordAt p))) =
      (List.range 64).map fun t => (rootWord 3 t, schedule (wordAt p) t) := by
    rw [sha256K_eq]
    exact List.zip_map'
  rw [shaBlock, hw, hzip]
  refine (vars_add s _).trans ?_
  rw [vars_foldl]
  rfl

namespace Sha256

-- The block that starts at `64 * i`.
def blockAt (data : List UInt8) (i : Nat) : List UInt8 :=
  (data.drop (64 * i)).take 64

theorem foldl_push_blocks {n : Nat} {c : Sha256} {data : List UInt8} (hbuf : c.buf = [])
    (hlen : data.length = 64 * n) : data.foldl push c =
      ⟨(List.range n).foldl (fun h i => shaBlock h (blockAt data i)) c.h, c.len, [],
        by decide⟩ := by
  induction n generalizing data with
  | zero =>
    obtain rfl := List.eq_nil_of_length_eq_zero hlen
    obtain ⟨h, len, buf, used⟩ := c
    obtain rfl := hbuf
    rfl
  | succ n ih =>
    have htake : (data.take (64 * n)).length = 64 * n := by
      rw [List.length_take]
      omega
    have hlast : (data.drop (64 * n)).length = 64 := by
      rw [List.length_drop]
      omega
    have hne : data.drop (64 * n) ≠ [] := by
      intro hnil
      rw [hnil] at hlast
      cases hlast
    have hfirst : (List.range n).foldl
        (fun h i => shaBlock h (blockAt (data.take (64 * n)) i)) c.h =
          (List.range n).foldl (fun h i => shaBlock h (blockAt data i)) c.h := by
      apply List.foldl_ext
      intro h i hi
      have hin := List.mem_range.mp hi
      rw [blockAt, blockAt, List.drop_take, List.take_take, Nat.min_eq_left (by omega)]
    conv_lhs => rw [← List.take_append_drop (64 * n) data]
    have hblock := foldl_push_block (c := ⟨(List.range n).foldl
      (fun h i => shaBlock h (blockAt data i)) c.h, c.len, [], by decide⟩) hne hlast
    rw [List.foldl_append, ih htake, hfirst, hblock, List.range_succ, List.foldl_append,
      List.foldl_cons, List.foldl_nil, blockAt, List.take_of_length_le hlast.le]
    rfl

theorem length_push (c : Sha256) (b : UInt8) : (push c b).buf.length = (c.buf.length + 1) % 64 := by
  have hused := c.used
  unfold push
  split
  next h =>
    rw [h]
    rfl
  next =>
    rw [List.length_append, List.length_singleton]
    omega

theorem length_update (c : Sha256) (data : List UInt8) :
    (c.update data).buf.length = (c.buf.length + data.length) % 64 := by
  have hpushes : ∀ (data : List UInt8) (c : Sha256),
      (data.foldl push c).buf.length = (c.buf.length + data.length) % 64 := by
    intro data
    induction data with
    | nil =>
      intro c
      exact (Nat.mod_eq_of_lt c.used).symm
    | cons b data ih =>
      intro c
      rw [List.foldl_cons, ih, length_push, List.length_cons]
      omega
  rw [update, absorb_eq_foldl, hpushes]

-- The loop ends, with as few zeroes as it takes.
theorem pad_eq {fuel : Nat} {c : Sha256} (h : (120 - c.buf.length) % 64 ≤ fuel) :
    pad fuel c = c.update (List.replicate ((120 - c.buf.length) % 64) 0) := by
  have hused := c.used
  induction fuel generalizing c with
  | zero =>
    rw [Nat.le_zero.mp h, List.replicate_zero, update_nil]
    rfl
  | succ fuel ih =>
    rw [pad]
    by_cases h56 : c.buf.length = 56
    · rw [if_pos h56, h56]
      exact (update_nil c).symm
    · have hnext := length_update c [0]
      rw [List.length_singleton] at hnext
      have hfew : (120 - (c.update [0]).buf.length) % 64 + 1 = (120 - c.buf.length) % 64 := by
        omega
      rw [if_neg h56, ih (by omega) (c.update [0]).used, update_update, ← hfew,
        Nat.add_comm _ 1, List.replicate_add]
      rfl

theorem lengthBytes_eq (n : Nat) : (List.range 8).map (fun i =>
      ((UInt64.ofNat n * 8) >>> .ofNat (56 - 8 * i)).toUInt8) = lengthBytes n := by
  apply List.map_congr_left
  intro i _
  have hbits : (UInt64.ofNat n * 8).toNat = 8 * n % 2 ^ 64 := by
    rw [UInt64.toNat_mul, UInt64.toNat_ofNat']
    change n % 2 ^ 64 * 8 % 2 ^ 64 = _
    omega
  have hplace : (UInt64.ofNat (56 - 8 * i)).toNat % 64 = 56 - 8 * i := by
    rw [UInt64.toNat_ofNat']
    omega
  have hsplit : 2 ^ 64 = 2 ^ (56 - 8 * i) * (2 ^ 8 * 2 ^ (56 - (56 - 8 * i))) := by
    rw [← Nat.pow_add, ← Nat.pow_add]
    congr 1
    omega
  apply UInt8.toNat_inj.mp
  rw [UInt64.toNat_toUInt8, UInt64.toNat_shiftRight, hplace, hbits, UInt8.toNat_ofNat',
    Nat.shiftRight_eq_div_pow, hsplit, Nat.mod_mul_right_div_self,
    Nat.mod_mod_of_dvd _ (Nat.dvd_mul_right _ _)]

-- The text is hashed as one, with its padding.
theorem hex_update (data : List UInt8) : (init.update data).hex =
    (words ((List.range ((paddedMessage data).length / 64)).foldl
      (fun h i => shaBlock h (blockAt (paddedMessage data) i)) init.h)).flatMap hexWord := by
  have hlen : (init.update data).len = .ofNat data.length := by
    rw [update, absorb_eq_foldl, foldl_push_len]
    exact UInt64.zero_add _
  have hone : ((init.update data).update [0x80]).buf.length = (data.length + 1) % 64 := by
    rw [update_update, length_update, List.length_append, List.length_singleton]
    exact congrArg (· % 64) (Nat.zero_add _)
  have hzeroes : (120 - ((init.update data).update [0x80]).buf.length) % 64 =
      zeroes data.length := by
    rw [hone, zeroes]
    omega
  have hpad := @pad_eq 64 ((init.update data).update [0x80]) (by omega)
  rw [hzeroes] at hpad
  rw [hex, hlen, hpad, lengthBytes_eq]
  change (words (((((init.update data).update [0x80]).update _).update _).h)).flatMap hexWord = _
  have hwhole : data ++ ([0x80] ++ (List.replicate (zeroes data.length) 0 ++
      lengthBytes data.length)) = paddedMessage data := by
    rw [paddedMessage, List.append_assoc]
    rfl
  have hblocks : (paddedMessage data).length = 64 * ((paddedMessage data).length / 64) := by
    have hmod := length_paddedMessage data
    omega
  rw [update_update, update_update, update_update, hwhole, update, absorb_eq_foldl, foldl_push_len,
    foldl_push_blocks rfl hblocks]

theorem vars_blocks (data : List UInt8) (n : Nat) (h : ShaWords) :
    ((List.range n).foldl (fun h i => shaBlock h (blockAt data i)) h).vars =
      (List.range n).foldl (fun v i => compress v fun t => wordAt data (16 * i + t)) h.vars := by
  induction n with
  | zero => rfl
  | succ n ih =>
    rw [List.range_succ, List.foldl_append, List.foldl_append, List.foldl_cons, List.foldl_cons,
      List.foldl_nil, List.foldl_nil, vars_shaBlock, ih]
    apply compress_congr
    intro t ht
    have hbyte : ∀ k < 64, (blockAt data n).getD k 0 = data.getD (64 * n + k) 0 := by
      intro k hk
      rw [blockAt, List.getD_eq_getElem?_getD, List.getElem?_take_of_lt hk, List.getElem?_drop,
        List.getD_eq_getElem?_getD]
    rw [wordAt, wordAt, hbyte _ (by omega), hbyte _ (by omega), hbyte _ (by omega),
      hbyte _ (by omega)]
    simp only [Nat.mul_add, ← Nat.mul_assoc, Nat.reduceMul, Nat.add_assoc]

theorem hexWord_eq (w : UInt32) : hexWord w =
    ((List.range 4).map fun j => UInt8.ofNat (w.toNat / 2 ^ (24 - 8 * j))).flatMap hexByte := by
  rw [hexWord, List.flatMap_map]
  apply List.flatMap_congr
  intro j _
  congr 1
  apply UInt8.toNat_inj.mp
  have hplace : (UInt32.ofNat (24 - 8 * j)).toNat % 32 = 24 - 8 * j := by
    rw [UInt32.toNat_ofNat']
    omega
  rw [UInt32.toNat_toUInt8, UInt32.toNat_shiftRight, hplace, UInt8.toNat_ofNat',
    Nat.shiftRight_eq_div_pow]

-- Whatever the pieces a text comes in, its digest is the one of FIPS 180-4.
theorem hex_eq_digest (pieces : List (List UInt8)) :
    (pieces.foldl update init).hex = (digest pieces.flatten).flatMap hexByte := by
  have hwhole : ∀ (pieces : List (List UInt8)) (c : Sha256),
      pieces.foldl update c = c.update pieces.flatten := by
    intro pieces
    induction pieces with
    | nil =>
      intro c
      exact (update_nil c).symm
    | cons piece pieces ih =>
      intro c
      rw [List.foldl_cons, ih, update_update, List.flatten_cons]
  have hwords : ∀ h : ShaWords, words h = (List.finRange 8).map h.vars := fun _ => rfl
  rw [hwhole, hex_update, hwords, vars_blocks, ShaWords.vars_init, List.flatMap_map, digest,
    List.flatMap_assoc]
  exact List.flatMap_congr fun i _ => hexWord_eq _

end Sha256

def crcPoly : BitVec 32 :=
  0xEDB88320#32

theorem toBitVec_crcBit (c : UInt32) : (crcBit c).toBitVec = Crc.step crcPoly c.toBitVec := by
  have hlow : (c &&& 1).toBitVec = BitVec.setWidth 32 (BitVec.ofBool (c.toBitVec.getLsbD 0)) := by
    rw [UInt32.toBitVec_and]
    exact BitVec.and_one_eq_setWidth_ofBool_getLsbD
  rw [crcBit, Crc.step, UInt32.toBitVec_xor, UInt32.toBitVec_and, UInt32.toBitVec_sub, hlow]
  cases c.toBitVec.getLsbD 0 with
  | false =>
    rw [if_neg Bool.false_ne_true]
    change (c.toBitVec >>> 1) ^^^ 0#32 = _
    exact BitVec.xor_zero
  | true =>
    rw [if_pos rfl]
    rfl

-- The bits of a text, the lowest one of a byte first.
def bitsOf (data : List UInt8) : List Bool :=
  data.flatMap fun b => (List.range 8).map b.toNat.testBit

theorem toBitVec_crcBits (n : Nat) (c : UInt32) :
    (crcBit^[n] c).toBitVec = (Crc.step crcPoly)^[n] c.toBitVec := by
  induction n generalizing c with
  | zero => rfl
  | succ n ih =>
    rw [Function.iterate_succ_apply, ih, toBitVec_crcBit, ← Function.iterate_succ_apply]

theorem word_byte (b : UInt8) :
    Crc.word ((List.range 8).map b.toNat.testBit) = b.toUInt32.toBitVec := by
  apply BitVec.eq_of_getLsbD_eq
  intro i hi
  have hplace : b.toUInt32.toBitVec.getLsbD i = b.toNat.testBit i :=
    (BitVec.testBit_toNat _).symm
  rw [Crc.getLsbD_word, hplace, decide_eq_true hi, Bool.true_and]
  by_cases hbyte : i < 8
  · rw [List.getD_eq_getElem _ _ (by simpa using hbyte), List.getElem_map, List.getElem_range]
  · have hlt : b.toNat < 2 ^ i :=
      b.toNat_lt.trans_le (Nat.pow_le_pow_right (by decide) (by omega))
    rw [Nat.testBit_lt_two_pow hlt, List.getD_eq_getElem?_getD,
      List.getElem?_eq_none (by simpa using hbyte)]
    rfl

theorem toBitVec_foldl (data : List UInt8) (c : UInt32) :
    (data.foldl (fun crc b => (crcBit^[8]) (crc ^^^ b.toUInt32)) c).toBitVec =
      Crc.feed crcPoly c.toBitVec (bitsOf data) := by
  induction data generalizing c with
  | nil => rfl
  | cons b data ih =>
    have hbits : ((List.range 8).map b.toNat.testBit).length ≤ 32 := by simp
    have hbyte := @Crc.feed_eq_iterate _ crcPoly _ hbits c.toBitVec
    rw [word_byte, List.length_map, List.length_range] at hbyte
    rw [List.foldl_cons, ih, toBitVec_crcBits, UInt32.toBitVec_xor, ← hbyte, ← Crc.feed_append]
    rfl

-- A check is continued with the result so far.
theorem foldl_crc32 (pieces : List (List UInt8)) (crc : UInt32) :
    pieces.foldl crc32 crc = crc32 crc pieces.flatten := by
  induction pieces generalizing crc with
  | nil => simp [crc32]
  | cons piece pieces ih =>
    rw [List.foldl_cons, ih, List.flatten_cons]
    simp [crc32, List.foldl_append]

-- Damage to no more than 32 bits in a row does not pass the check, whatever the
-- pieces it is computed in.
theorem crc32_burst {as bs : List (List UInt8)} {p u v q : List Bool}
    (ha : bitsOf as.flatten = p ++ u ++ q) (hb : bitsOf bs.flatten = p ++ v ++ q)
    (hlen : u.length = v.length) (hburst : u.length ≤ 32) (hne : u ≠ v) (crc : UInt32) :
    as.foldl crc32 crc ≠ bs.foldl crc32 crc := by
  intro h
  rw [foldl_crc32, foldl_crc32] at h
  have hsame := congrArg UInt32.toBitVec (UInt32.not_inj.mp h)
  rw [toBitVec_foldl, toBitVec_foldl, ha, hb] at hsame
  exact Crc.feed_burst (by decide) hlen hburst hne _ hsame

-- The second byte reads 3 in the place of 2.
theorem crc32_one_bit : [[0x31, 0x32, 0x33]].foldl crc32 0 ≠ [[0x31], [0x33, 0x33]].foldl crc32 0 :=
  crc32_burst (p := (bitsOf [0x31])) (u := [false]) (v := [true])
    (q := (bitsOf [0x32, 0x33]).tail) rfl rfl rfl (by decide) (by decide) 0

end Espos.Sdlog
