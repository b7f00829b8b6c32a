import Espos.Lib.Text

-- What `scanf` reads with a fixed format.

namespace Espos.Scan

open Espos.Text

def isSpace (c : Char) : Bool :=
  c = ' ' ∨ (9 ≤ c.toNat ∧ c.toNat ≤ 13)

-- A literal part of the format without white space.
def literal : CStr → CStr → Option CStr
  | [], text => some text
  | c :: format, d :: text => if c = d then literal format text else none
  | _ :: _, [] => none

-- `%lu` and the like: white space, a sign and digits. What does not fit is the
-- greatest value, and a minus sign turns the value round.
def unsigned (bits : Nat) (text : CStr) : Option (Nat × CStr) :=
  let text := text.dropWhile isSpace
  let sign := text.take 1
  let text := if sign = ['-'] ∨ sign = ['+'] then text.drop 1 else text
  let digits := text.takeWhile Char.isDigit
  if digits = [] then none
  else
    let v := Nat.ofDigitChars 10 digits 0
    let v := if 2 ^ bits ≤ v then 2 ^ bits - 1 else if sign = ['-'] then (2 ^ bits - v) % 2 ^ bits
      else v
    some (v, text.dropWhile Char.isDigit)

-- `%<width>[...]`: at least one character of the set, and no more than `width`.
def set (width : Nat) (p : Char → Bool) (text : CStr) : Option (CStr × CStr) :=
  let run := (text.take width).takeWhile p
  if run = [] then none else some (run, text.drop run.length)

theorem literal_append (format text : CStr) : literal format (format ++ text) = some text := by
  induction format with
  | nil => rfl
  | cons c format ih => rw [List.cons_append, literal, if_pos rfl, ih]

theorem set_append {width : Nat} {p : Char → Bool} {run text : CStr} (hne : run ≠ [])
    (hwidth : run.length ≤ width) (hrun : ∀ c ∈ run, p c = true)
    (hend : run.length < width → ∀ c ∈ text.head?, p c = false) :
    set width p (run ++ text) = some (run, text) := by
  have htake : ((run ++ text).take width).takeWhile p = run := by
    rw [List.take_append, List.take_of_length_le hwidth, List.takeWhile_append_of_pos hrun]
    rcases Nat.lt_or_ge run.length width with hlt | hge
    · cases text with
      | nil => rw [List.take_nil, List.takeWhile_nil, List.append_nil]
      | cons c text =>
        have hc := hend hlt c rfl
        obtain ⟨m, hm⟩ := Nat.exists_eq_succ_of_ne_zero (Nat.sub_ne_zero_of_lt hlt)
        rw [hm, List.take_succ_cons, List.takeWhile_cons_of_neg (by simp [hc]), List.append_nil]
    · rw [Nat.sub_eq_zero_of_le hge, List.take_zero, List.takeWhile_nil, List.append_nil]
  simp only [set, htake, hne, if_false, List.drop_left]

theorem not_isSpace_of_isDigit {c : Char} (hc : c.isDigit = true) : isSpace c = false := by
  have hrange : 48 ≤ c.toNat ∧ c.toNat ≤ 57 := by
    simpa [Char.isDigit, UInt32.le_iff_toNat_le] using hc
  have hne : c ≠ ' ' := by
    rintro rfl
    exact absurd hrange.1 (by decide)
  simp only [isSpace, hne, false_or, decide_eq_false_iff_not]
  omega

theorem unsigned_decimal {bits n : Nat} (hn : n < 2 ^ bits) {text : CStr}
    (hend : ∀ c ∈ text.head?, c.isDigit = false) :
    unsigned bits (decimal n ++ text) = some (n, text) := by
  have hdigits : ∀ c ∈ decimal n, c.isDigit = true := fun c hc =>
    Nat.isDigit_of_mem_toDigits (by decide) (by decide) hc
  have hvalue : Nat.ofDigitChars 10 (decimal n) 0 = n := Nat.ofDigitChars_ten_toDigits
  have htake : (decimal n ++ text).takeWhile Char.isDigit = decimal n ∧
      (decimal n ++ text).dropWhile Char.isDigit = text := by
    rw [List.takeWhile_append_of_pos hdigits, List.dropWhile_append_of_pos hdigits]
    cases text with
    | nil => exact ⟨List.append_nil _, rfl⟩
    | cons c text =>
      have hc : ¬c.isDigit = true := by simp [hend c rfl]
      rw [List.takeWhile_cons_of_neg hc, List.dropWhile_cons_of_neg hc]
      exact ⟨List.append_nil _, rfl⟩
  cases hdecimal : decimal n with
  | nil => exact absurd hdecimal Nat.toDigits_ne_nil
  | cons d ds =>
    have hd : d.isDigit = true := hdigits d (hdecimal ▸ List.mem_cons_self)
    have hspace : ¬isSpace d = true := by simp [not_isSpace_of_isDigit hd]
    have hminus : d ≠ '-' := by
      rintro rfl
      cases hd
    have hplus : d ≠ '+' := by
      rintro rfl
      cases hd
    rw [hdecimal] at htake hvalue
    simp only [unsigned, List.cons_append, List.dropWhile_cons_of_neg hspace, List.take_succ_cons,
      List.take_zero, List.cons.injEq, hminus, hplus, and_true, or_self, if_false]
    rw [← List.cons_append, htake.1, htake.2, hvalue, if_neg (List.cons_ne_nil d ds),
      if_neg (Nat.not_le_of_lt hn)]

end Espos.Scan

-- Numbers of a fixed width in some base, written and read.

namespace Espos.Digits

open Espos.Text

section Base

variable (b : Nat) (digit : Nat → Char) (value : Char → Option Nat)

-- The last `width` digits of a number.
def fixed (width n : Nat) : CStr :=
  (List.range width).reverse.map fun i => digit (n / b ^ i % b)

-- Just as many digits, behind those of `v`.
def take : Nat → Nat → CStr → Option (Nat × CStr)
  | 0, v, text => some (v, text)
  | _ + 1, _, [] => none
  | width + 1, v, c :: text => (value c).bind fun d => take width (v * b + d) text

variable {b digit value}

theorem fixed_succ (width n : Nat) :
    fixed b digit (width + 1) n = digit (n / b ^ width % b) :: fixed b digit width n := by
  simp [fixed, List.range_succ]

theorem fixed_mod (width n : Nat) :
    fixed b digit width (n % b ^ width) = fixed b digit width n := by
  refine List.map_congr_left fun i hi => ?_
  have hlt : i < width := by simpa using hi
  have hpow : b ^ width = b ^ i * (b * b ^ (width - i - 1)) := by
    rw [← Nat.pow_succ', ← Nat.pow_add]
    congr 1
    omega
  rw [hpow, Nat.mod_mul_right_div_self, Nat.mod_mul_right_mod]

theorem take_fixed (hdigit : ∀ d < b, value (digit d) = some d) (hb : 0 < b) (width v n : Nat)
    (text : CStr) :
    take b value width v (fixed b digit width n ++ text) =
      some (v * b ^ width + n % b ^ width, text) := by
  induction width generalizing v with
  | zero => simp [fixed, take, Nat.mod_one]
  | succ width ih =>
    have hsplit : n % b ^ (width + 1) = b ^ width * (n / b ^ width % b) + n % b ^ width := by
      rw [Nat.pow_succ, Nat.mod_mul, Nat.add_comm]
    rw [fixed_succ, List.cons_append, take, hdigit _ (Nat.mod_lt _ hb), Option.bind_some, ih,
      hsplit, Nat.pow_succ]
    congr 2
    ring

-- What was read is what such a number is written as.
theorem fixed_of_take (hvalue : ∀ c d, value c = some d → d < b ∧ digit d = c) {width v r : Nat}
    {text rest : CStr} (h : take b value width v text = some (r, rest)) :
    ∃ n < b ^ width, r = v * b ^ width + n ∧ text = fixed b digit width n ++ rest := by
  induction width generalizing v text with
  | zero =>
    rw [take, Option.some.injEq, Prod.mk.injEq] at h
    obtain ⟨rfl, rfl⟩ := h
    exact ⟨0, by simp, by simp, rfl⟩
  | succ width ih =>
    cases text with
    | nil => cases h
    | cons c text =>
      obtain ⟨d, hd, hrest⟩ := Option.bind_eq_some_iff.mp h
      obtain ⟨hlt, hchar⟩ := hvalue c d hd
      obtain ⟨n, hn, hr, htext⟩ := ih hrest
      refine ⟨d * b ^ width + n, ?_, ?_, ?_⟩
      · have hle : (d + 1) * b ^ width ≤ b * b ^ width := Nat.mul_le_mul_right _ hlt
        rw [Nat.add_mul, Nat.one_mul] at hle
        rw [Nat.pow_succ']
        omega
      · rw [hr, Nat.pow_succ]
        ring
      · have hpos : 0 < b ^ width := Nat.zero_lt_of_lt hn
        have hhead : (d * b ^ width + n) / b ^ width % b = d := by
          rw [Nat.add_comm, Nat.add_mul_div_right _ _ hpos, Nat.div_eq_of_lt hn, Nat.zero_add,
            Nat.mod_eq_of_lt hlt]
        have htail : fixed b digit width (d * b ^ width + n) = fixed b digit width n := by
          rw [← fixed_mod, Nat.add_comm, Nat.add_mul_mod_self_right, Nat.mod_eq_of_lt hn]
        rw [fixed_succ, hhead, htail, hchar, htext, List.cons_append]

end Base

-- Decimal digits.
def decimalValue (c : Char) : Option Nat :=
  if c.isDigit then some (c.toNat - 48) else none

theorem decimalValue_digitChar : ∀ d < 10, decimalValue (Nat.digitChar d) = some d := by
  decide

theorem digitChar_of_decimalValue {c : Char} {d : Nat} (h : decimalValue c = some d) :
    d < 10 ∧ Nat.digitChar d = c := by
  rw [decimalValue, Option.ite_none_right_eq_some, Option.some.injEq] at h
  obtain ⟨hdigit, rfl⟩ := h
  have hrange : 48 ≤ c.toNat ∧ c.toNat ≤ 57 := by
    simpa [Char.isDigit, UInt32.le_iff_toNat_le] using hdigit
  refine ⟨by omega, Char.toNat_inj.mp ?_⟩
  rw [Nat.toNat_digitChar_of_lt_ten (by omega)]
  omega

theorem fixed_snoc {b : Nat} (digit : Nat → Char) (width n : Nat) :
    fixed b digit (width + 1) n = fixed b digit width (n / b) ++ [digit (n % b)] := by
  simp [fixed, List.range_succ_eq_map, Function.comp_def, Nat.div_div_eq_div_mul, Nat.pow_succ']

theorem padded_snoc {width : Nat} (hw : 0 < width) (n : Nat) :
    padded (width + 1) n = padded width (n / 10) ++ [Nat.digitChar (n % 10)] := by
  by_cases hn : n < 10
  · have hdecimal : decimal n = [Nat.digitChar n] := Nat.toDigits_of_lt_base hn
    have hzero : decimal 0 = ['0'] := rfl
    rw [padded, padded, Nat.div_eq_of_lt hn, Nat.mod_eq_of_lt hn, hdecimal, hzero,
      List.length_singleton, List.length_singleton, Nat.add_sub_cancel, ← List.replicate_succ',
      Nat.sub_add_cancel hw]
  · have hdecimal : decimal n = decimal (n / 10) ++ [Nat.digitChar (n % 10)] :=
      Nat.toDigits_of_base_le (by decide) (Nat.le_of_not_lt hn)
    rw [padded, padded, hdecimal, List.length_append, List.length_singleton, Nat.add_sub_add_right,
      List.append_assoc]

-- The padding of `printf` makes a number of a fixed width of one that fits.
theorem padded_eq_fixed {width n : Nat} (hw : 0 < width) (hn : n < 10 ^ width) :
    padded width n = fixed 10 Nat.digitChar width n := by
  induction width, hw using Nat.le_induction generalizing n with
  | base =>
    have hlt : n < 10 := hn
    have hdecimal : decimal n = [Nat.digitChar n] := Nat.toDigits_of_lt_base hlt
    rw [padded, hdecimal, fixed_succ, Nat.pow_zero, Nat.div_one, Nat.mod_eq_of_lt hlt]
    rfl
  | succ width hw ih =>
    have hrest : n / 10 < 10 ^ width := by
      rw [Nat.div_lt_iff_lt_mul (by decide), ← Nat.pow_succ]
      exact hn
    rw [padded_snoc hw, fixed_snoc, ih hrest]

theorem take_padded {width n : Nat} (hw : 0 < width) (hn : n < 10 ^ width) (text : CStr) :
    take 10 decimalValue width 0 (padded width n ++ text) = some (n, text) := by
  rw [padded_eq_fixed hw hn, take_fixed decimalValue_digitChar (by decide), Nat.zero_mul,
    Nat.zero_add, Nat.mod_eq_of_lt hn]

theorem padded_of_take {width n : Nat} {text rest : CStr} (hw : 0 < width)
    (h : take 10 decimalValue width 0 text = some (n, rest)) :
    n < 10 ^ width ∧ text = padded width n ++ rest := by
  obtain ⟨m, hm, hn, htext⟩ := fixed_of_take (fun _ _ => digitChar_of_decimalValue) h
  rw [Nat.zero_mul, Nat.zero_add] at hn
  subst hn
  exact ⟨hm, by rw [htext, padded_eq_fixed hw hm]⟩

end Espos.Digits

-- What `strtol` and its kin read of a text.

namespace Espos.Strtol

open Espos.Text Espos.Scan Espos.Digits

-- Letters of either case are digits from ten on.
def digit (base : Nat) (c : Char) : Option Nat :=
  let d := if c.isDigit then c.toNat - 48 else if c.isLower then c.toNat - 87
    else if c.isUpper then c.toNat - 55 else base
  if d < base then some d else none

-- As many digits as there are, behind those of `v`.
def magnitude (base : Nat) : Nat → CStr → Nat × CStr
  | v, [] => (v, [])
  | v, c :: text =>
    match digit base c with
    | some d => magnitude base (v * base + d) text
    | none => (v, c :: text)

-- A sign may come first, and `0x` in front of the digits of a hexadecimal number.
def unsign (text : CStr) : Bool × CStr :=
  if text.head? = some '-' then (true, text.tail)
  else if text.head? = some '+' then (false, text.tail)
  else (false, text)

def unmark (base : Nat) (text : CStr) : CStr :=
  if base = 16 ∧ text[0]? = some '0' ∧ (text[1]? = some 'x' ∨ text[1]? = some 'X') ∧
      (text[2]?.bind (digit 16)).isSome then text.drop 2
  else text

-- Whether the number has a minus sign, its magnitude and what follows it.
def number (base : Nat) (text : CStr) : Option (Bool × Nat × CStr) :=
  let (negative, digits) := unsign (text.dropWhile isSpace)
  let digits := unmark base digits
  if (digits.head?.bind (digit base)).isNone then none
  else some (negative, magnitude base 0 digits)

-- Without a number the value is 0, and the text is where it was.
def strtoll (text : CStr) : Int × CStr :=
  match number 10 text with
  | none => (0, text)
  | some (negative, n, rest) =>
    (max (-2 ^ 63) (min (if negative then -n else n) (2 ^ 63 - 1)), rest)

-- For `long` of 32 bits.
def strtol (text : CStr) : Int × CStr :=
  match number 10 text with
  | none => (0, text)
  | some (negative, n, rest) =>
    (max (-2 ^ 31) (min (if negative then -n else n) (2 ^ 31 - 1)), rest)

-- For `unsigned long` of 32 bits: a minus sign turns a value round that fits.
def strtoul (base : Nat) (text : CStr) : UInt32 × CStr :=
  match number base text with
  | none => (0, text)
  | some (negative, n, rest) =>
    (if 2 ^ 32 ≤ n then 0xFFFFFFFF else if negative then -UInt32.ofNat n else UInt32.ofNat n, rest)

variable {base : Nat}

-- No digit follows.
def Ends (base : Nat) (text : CStr) : Prop :=
  ∀ c ∈ text.head?, digit base c = none

theorem magnitude_of_ends {text : CStr} (h : Ends base text) (v : Nat) :
    magnitude base v text = (v, text) := by
  cases text with
  | nil => rfl
  | cons c text => rw [magnitude, h c rfl]

theorem magnitude_digits {run text : CStr} (hrun : ∀ c ∈ run, (digit base c).isSome = true)
    (hend : Ends base text) (v : Nat) : (magnitude base v (run ++ text)).2 = text := by
  induction run generalizing v with
  | nil => rw [List.nil_append, magnitude_of_ends hend]
  | cons c run ih =>
    obtain ⟨d, hd⟩ := Option.isSome_iff_exists.mp (hrun c (List.mem_cons_self ..))
    rw [List.cons_append, magnitude, hd]
    exact ih (fun e he => hrun e (List.mem_cons_of_mem _ he)) _

-- Digits of a fixed width are read with those that follow.
theorem magnitude_of_take {width v r : Nat} {text rest : CStr}
    (h : take base (digit base) width v text = some (r, rest)) :
    magnitude base v text = magnitude base r rest := by
  induction width generalizing v text with
  | zero =>
    rw [take, Option.some.injEq, Prod.mk.injEq] at h
    rw [h.1, h.2]
  | succ width ih =>
    cases text with
    | nil => cases h
    | cons c text =>
      obtain ⟨d, hd, hrest⟩ := Option.bind_eq_some_iff.mp h
      rw [magnitude, hd]
      exact ih hrest

theorem le_toNat_of_digit {c : Char} (h : (digit base c).isSome = true) : 48 ≤ c.toNat := by
  rw [digit] at h
  by_cases hdigit : c.isDigit = true
  · simp only [Char.isDigit, Bool.and_eq_true, decide_eq_true_eq, UInt32.le_iff_toNat_le] at hdigit
    exact hdigit.1
  · rw [if_neg hdigit] at h
    by_cases hlow : c.isLower = true
    · have hrange := Bool.and_eq_true_iff.mp hlow
      exact le_trans (by decide) (UInt32.le_iff_toNat_le.mp (of_decide_eq_true hrange.1))
    · rw [if_neg hlow] at h
      by_cases hup : c.isUpper = true
      · have hrange := of_decide_eq_true hup
        exact le_trans (by decide) (UInt32.le_iff_toNat_le.mp hrange.1)
      · rw [if_neg hup] at h
        simp at h

theorem not_isSpace_of_digit {c : Char} (h : (digit base c).isSome = true) :
    isSpace c = false ∧ c ≠ '-' ∧ c ≠ '+' := by
  have hle := le_toNat_of_digit h
  have hne : ∀ d : Char, d.toNat < 48 → c ≠ d := by
    rintro d hd rfl
    exact absurd hle (Nat.not_le_of_lt hd)
  refine ⟨?_, hne '-' (by decide), hne '+' (by decide)⟩
  simp only [isSpace, hne ' ' (by decide), false_or, decide_eq_false_iff_not]
  omega

theorem unsign_of_digit {c : Char} (h : (digit base c).isSome = true) (text : CStr) :
    unsign (c :: text) = (false, c :: text) := by
  obtain ⟨-, hminus, hplus⟩ := not_isSpace_of_digit h
  rw [unsign, List.head?_cons, if_neg (by simpa using hminus), if_neg (by simpa using hplus)]

theorem unmark_of_ne (hbase : base ≠ 16) (text : CStr) : unmark base text = text := by
  rw [unmark, if_neg fun h => hbase h.1]

-- No prefix stands where a digit comes second.
theorem unmark_of_digit {a c : Char} (hc : (digit 16 c).isSome = true) (text : CStr) :
    unmark base (a :: c :: text) = a :: c :: text := by
  rw [unmark, if_neg]
  rintro ⟨-, -, hx | hx, -⟩
  · obtain rfl : c = 'x' := Option.some.inj hx
    exact absurd hc (by decide)
  · obtain rfl : c = 'X' := Option.some.inj hx
    exact absurd hc (by decide)

theorem number_run {run text : CStr} (hne : run ≠ [])
    (hrun : ∀ c ∈ run, (digit base c).isSome = true) (hend : Ends base text)
    (hbare : unmark base (run ++ text) = run ++ text) :
    number base (run ++ text) = some (false, (magnitude base 0 (run ++ text)).1, text) ∧
      number base ('-' :: (run ++ text)) =
        some (true, (magnitude base 0 (run ++ text)).1, text) := by
  have hrest := magnitude_digits hrun hend 0
  obtain ⟨c, run', rfl⟩ := List.exists_cons_of_ne_nil hne
  have hc := hrun c (List.mem_cons_self ..)
  have hspace : ¬ isSpace c = true := by simp [(not_isSpace_of_digit hc).1]
  have hhead : ((c :: (run' ++ text)).head?.bind (digit base)).isNone = false := by
    rw [List.head?_cons, Option.bind_some, ← Option.not_isSome, hc]
    rfl
  have hread : magnitude base 0 (c :: (run' ++ text)) =
      ((magnitude base 0 (c :: (run' ++ text))).1, text) := Prod.ext rfl hrest
  rw [List.cons_append] at hbare ⊢
  constructor
  · rw [number, List.dropWhile_cons_of_neg hspace, unsign_of_digit hc]
    dsimp only
    rw [hbare, hhead, ← hread]
    rfl
  · rw [number, List.dropWhile_cons_of_neg (by decide), unsign, List.head?_cons, if_pos rfl]
    dsimp only [List.tail_cons]
    rw [hbare, hhead, ← hread]
    rfl

end Espos.Strtol
