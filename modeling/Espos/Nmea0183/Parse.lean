import Mathlib.Data.List.DropRight
import Mathlib.Tactic.Common
import Espos.Nmea0183.Reader

-- One line: `espos_nmea0183_finish` and `espos_nmea0183_parse`. A C string is the
-- bytes before its NUL.

namespace Espos.Nmea0183

-- `ESPOS_NMEA0183_MAX_FIELDS`
def MAX_FIELDS : Nat := 40

def STAR : UInt8 := 0x2a
def COMMA : UInt8 := 0x2c
def BANG : UInt8 := 0x21

-- `espos_nmea0183_err_t`
inductive Err where
  | empty
  | noStart
  | tooLong
  | badChar
  | noChecksum
  | badChecksum
  | badAddress
  | tooManyFields
deriving DecidableEq

-- `espos_nmea0183_sentence_t`, the fields as texts.
structure Sentence where
  talker : List UInt8
  type : List UInt8
  proprietary : Bool
  encapsulated : Bool
  hasChecksum : Bool
  field : List (List UInt8)
deriving DecidableEq

-- The address as the line has it.
def Sentence.address (s : Sentence) : List UInt8 :=
  if s.proprietary then 0x50 :: s.type else s.talker ++ s.type

-- `espos_nmea0183_checksum`
def checksum (body : List UInt8) : UInt8 :=
  body.foldl (· ^^^ ·) 0

-- What `strchr` cuts a text into: the part before the separator, and the part
-- behind it where there is one.
def upTo (sep : UInt8) (text : List UInt8) : List UInt8 :=
  text.takeWhile (· != sep)

def past (sep : UInt8) (text : List UInt8) : Option (List UInt8) :=
  match text.dropWhile (· != sep) with
  | [] => none
  | _ :: rest => some rest

-- A digit of `%02X`.
def hexDigit (d : UInt8) : UInt8 :=
  if d < 10 then 0x30 + d else 0x41 + (d - 10)

-- `*%02X`
def sumText (sum : UInt8) : List UInt8 :=
  [STAR, hexDigit (sum >>> 4), hexDigit (sum &&& 15)]

-- `espos_nmea0183_finish` with room for `n` bytes, and nothing for 0.
def finish (line : List UInt8) (n : Nat) : Option (List UInt8) :=
  match line with
  | [] => none
  | start :: _ =>
    if isStart start then
      let body := line.takeWhile fun c => c != STAR && !isEol c
      if body.length < 2 ∨ LINE_MAX < body.length + 3 ∨ n < body.length + 6 then none
      else some (body ++ sumText (checksum body.tail) ++ [CR, LF])
    else none

-- `hex_val`
def hexVal (c : UInt8) : Option UInt8 :=
  if 0x30 ≤ c ∧ c ≤ 0x39 then some (c - 0x30)
  else if 0x41 ≤ c ∧ c ≤ 0x46 then some (c - 0x41 + 10)
  else if 0x61 ≤ c ∧ c ≤ 0x66 then some (c - 0x61 + 10)
  else none

def isBlank (c : UInt8) : Bool :=
  c == 0x20 || c == 0x09

-- What is cut off at the end of a line.
def isTrailing (c : UInt8) : Bool :=
  isEol c || isBlank c

def trim (line : List UInt8) : List UInt8 :=
  (line.dropWhile isBlank).rdropWhile isTrailing

-- The text in front of the checksum, and whether there is one.
def stripChecksum (text : List UInt8) (requireChecksum : Bool) : Except Err (List UInt8 × Bool) :=
  match past STAR text with
  | none => if requireChecksum then .error .noChecksum else .ok (text, false)
  | some [hi, lo] =>
    match hexVal hi, hexVal lo with
    | some hi, some lo =>
      if checksum (upTo STAR text).tail = hi <<< 4 ||| lo then .ok (upTo STAR text, true)
      else .error .badChecksum
    | _, _ => .error .badChecksum
  | some _ => .error .badChecksum

-- `isupper` or `isdigit`
def isAddressChar (c : UInt8) : Bool :=
  decide (0x41 ≤ c ∧ c ≤ 0x5a) || decide (0x30 ≤ c ∧ c ≤ 0x39)

-- The talker, the type and whether the address is proprietary.
def parseAddress (addr : List UInt8) : Except Err (List UInt8 × List UInt8 × Bool) :=
  if addr.all isAddressChar then
    if 2 ≤ addr.length ∧ addr.head? = some 0x50 then
      if 8 ≤ addr.length - 1 then .error .badAddress else .ok ([], addr.tail, true)
    else if addr.length = 5 then .ok (addr.take 2, addr.drop 2, false)
    else .error .badAddress
  else .error .badAddress

-- The loop over the fields, with room for `n` more.
def fields : Nat → Option (List UInt8) → Except Err (List (List UInt8))
  | _, none => .ok []
  | 0, some _ => .error .tooManyFields
  | n + 1, some p =>
    match fields n (past COMMA p) with
    | .error e => .error e
    | .ok rest => .ok (upTo COMMA p :: rest)

-- The text between the start character and the checksum.
def splitBody (start : UInt8) (body : List UInt8) (hasChecksum : Bool) : Except Err Sentence :=
  match parseAddress (upTo COMMA body) with
  | .error e => .error e
  | .ok (talker, type, proprietary) =>
    match fields MAX_FIELDS (past COMMA body) with
    | .error e => .error e
    | .ok field => .ok ⟨talker, type, proprietary, start == BANG, hasChecksum, field⟩

-- `espos_nmea0183_parse`
def parse (line : List UInt8) (requireChecksum : Bool) : Except Err Sentence :=
  match trim line with
  | [] => .error .empty
  | start :: rest =>
    if isStart start = false then .error .noStart
    else if LINE_MAX < (start :: rest).length then .error .tooLong
    else if (start :: rest).all printable = false then .error .badChar
    else
      match stripChecksum (start :: rest) requireChecksum with
      | .error e => .error e
      | .ok (text, hasChecksum) => splitBody start text.tail hasChecksum

variable {line text lead trail body p l r : List UInt8} {sep a b c d hi lo sum : UInt8} {n : Nat}

theorem past_eq_none : past sep text = none ↔ sep ∉ text := by
  induction text with
  | nil => simp [past]
  | cons c text ih =>
    by_cases hc : c = sep
    · simp [past, hc]
    · rw [past, List.dropWhile_cons_of_pos (by simpa using hc), List.mem_cons, not_or, ← ih, past]
      exact ⟨fun h => ⟨Ne.symm hc, h⟩, And.right⟩

theorem upTo_of_not_mem (h : sep ∉ text) : upTo sep text = text := by
  rw [upTo, List.takeWhile_eq_self_iff]
  intro c hc
  simp only [bne_iff_ne, ne_eq]
  rintro rfl
  exact h hc

theorem upTo_append (h : sep ∉ l) : upTo sep (l ++ sep :: r) = l := by
  rw [upTo, List.takeWhile_append_of_pos, List.takeWhile_cons_of_neg (by simp), List.append_nil]
  intro c hc
  simp only [bne_iff_ne, ne_eq]
  rintro rfl
  exact h hc

theorem past_append (h : sep ∉ l) : past sep (l ++ sep :: r) = some r := by
  rw [past, List.dropWhile_append_of_pos, List.dropWhile_cons_of_neg (by simp)]
  intro c hc
  simp only [bne_iff_ne, ne_eq]
  rintro rfl
  exact h hc

theorem cut_inj {u v : List UInt8} (hl : sep ∉ l) (hr : sep ∉ r)
    (h : l ++ sep :: u = r ++ sep :: v) : l = r ∧ u = v := by
  have hupTo := congrArg (upTo sep) h
  have hpast := congrArg (past sep) h
  rw [upTo_append hl, upTo_append hr] at hupTo
  rw [past_append hl, past_append hr] at hpast
  exact ⟨hupTo, Option.some.inj hpast⟩

theorem not_mem_upTo : sep ∉ upTo sep text := by
  intro h
  simpa using List.mem_takeWhile_imp h

theorem upTo_append_past (h : past sep text = some p) : upTo sep text ++ sep :: p = text := by
  induction text with
  | nil => simp [past] at h
  | cons c text ih =>
    by_cases hc : c = sep
    · subst hc
      have hrest : text = p := by simpa [past] using h
      simp [upTo, hrest]
    · have hrest : past sep text = some p := by simpa [past, hc] using h
      have hupTo : upTo sep (c :: text) = c :: upTo sep text := by simp [upTo, hc]
      rw [hupTo, List.cons_append, ih hrest]

theorem intercalate_cons (sep : UInt8) (first : List UInt8) (rest : List (List UInt8)) :
    [sep].intercalate (first :: rest) = first ++ rest.flatMap (sep :: ·) := by
  induction rest generalizing first with
  | nil => simp
  | cons next rest ih =>
    rw [List.intercalate_cons_cons, ih, List.flatMap_cons]
    simp

theorem fields_flatMap {rest : Option (List UInt8)} {fs : List (List UInt8)}
    (h : fields n rest = .ok fs) : fs.flatMap (COMMA :: ·) = rest.elim [] (COMMA :: ·) := by
  induction n generalizing rest fs with
  | zero =>
    cases rest with
    | none => cases h; rfl
    | some p => cases h
  | succ n ih =>
    cases rest with
    | none => cases h; rfl
    | some p =>
      rw [fields] at h
      cases hrest : fields n (past COMMA p) with
      | error e => rw [hrest] at h; cases h
      | ok fs' =>
        rw [hrest] at h
        cases h
        rw [List.flatMap_cons, ih hrest, Option.elim_some, List.cons_append]
        cases hpast : past COMMA p with
        | none =>
          rw [Option.elim_none, List.append_nil, upTo_of_not_mem (past_eq_none.mp hpast)]
        | some q => rw [Option.elim_some, upTo_append_past hpast]

theorem parseAddress_ok {talker type : List UInt8} {proprietary : Bool}
    (h : parseAddress body = .ok (talker, type, proprietary)) :
    body = if proprietary then 0x50 :: type else talker ++ type := by
  simp only [parseAddress] at h
  by_cases hall : body.all isAddressChar = true
  · rw [if_pos hall] at h
    by_cases hown : 2 ≤ body.length ∧ body.head? = some 0x50
    · rw [if_pos hown] at h
      by_cases hlong : 8 ≤ body.length - 1
      · rw [if_pos hlong] at h
        cases h
      · rw [if_neg hlong] at h
        cases h
        exact (List.cons_head?_tail hown.2).symm
    · rw [if_neg hown] at h
      by_cases hlen : body.length = 5
      · rw [if_pos hlen] at h
        cases h
        exact (List.take_append_drop 2 body).symm
      · rw [if_neg hlen] at h
        cases h
  · rw [if_neg hall] at h
    cases h

theorem splitBody_ok {start : UInt8} {hasChecksum : Bool} {s : Sentence}
    (h : splitBody start body hasChecksum = .ok s) :
    [COMMA].intercalate (s.address :: s.field) = body ∧ s.encapsulated = (start == BANG) ∧
      s.hasChecksum = hasChecksum := by
  rw [splitBody] at h
  cases haddr : parseAddress (upTo COMMA body) with
  | error e => rw [haddr] at h; cases h
  | ok parts =>
    obtain ⟨talker, type, proprietary⟩ := parts
    rw [haddr] at h
    cases hfields : fields MAX_FIELDS (past COMMA body) with
    | error e => simp only [hfields] at h; cases h
    | ok fs =>
      simp only [hfields] at h
      cases h
      refine ⟨?_, rfl, rfl⟩
      rw [intercalate_cons, fields_flatMap hfields, Sentence.address, ← parseAddress_ok haddr]
      cases hpast : past COMMA body with
      | none =>
        rw [Option.elim_none, List.append_nil, upTo_of_not_mem (past_eq_none.mp hpast)]
      | some q => rw [Option.elim_some, upTo_append_past hpast]

-- Only the flag tells whether a checksum was there.
theorem splitBody_flag {start : UInt8} {flag : Bool} {s : Sentence} (flag' : Bool)
    (h : splitBody start body flag = .ok s) :
    splitBody start body flag' = .ok { s with hasChecksum := flag' } := by
  rw [splitBody] at h ⊢
  cases haddr : parseAddress (upTo COMMA body) with
  | error e => rw [haddr] at h; cases h
  | ok parts =>
    rw [haddr] at h
    cases hfields : fields MAX_FIELDS (past COMMA body) with
    | error e => simp only [hfields] at h; cases h
    | ok fs =>
      simp only [hfields] at h ⊢
      cases h
      rfl

theorem stripChecksum_ok {require has : Bool} (h : stripChecksum text require = .ok (body, has)) :
    STAR ∉ body ∧ ((has = false ∧ text = body) ∨
      has = true ∧ ∃ hi lo vh vl, text = body ++ [STAR, hi, lo] ∧ hexVal hi = some vh ∧
        hexVal lo = some vl ∧ checksum body.tail = vh <<< 4 ||| vl) := by
  rw [stripChecksum] at h
  cases hpast : past STAR text with
  | none =>
    rw [hpast] at h
    cases require with
    | true => cases h
    | false =>
      cases h
      exact ⟨past_eq_none.mp hpast, Or.inl ⟨rfl, rfl⟩⟩
  | some sum =>
    have htext := upTo_append_past hpast
    rw [hpast] at h
    match sum, h with
    | [hi, lo], h =>
      cases hvh : hexVal hi with
      | none => simp only [hvh] at h; cases h
      | some vh =>
        cases hvl : hexVal lo with
        | none => simp only [hvh, hvl] at h; cases h
        | some vl =>
          simp only [hvh, hvl] at h
          by_cases hsum : checksum (upTo STAR text).tail = vh <<< 4 ||| vl
          · rw [if_pos hsum] at h
            cases h
            exact ⟨not_mem_upTo,
              Or.inr ⟨rfl, hi, lo, vh, vl, htext.symm, hvh, hvl, hsum⟩⟩
          · rw [if_neg hsum] at h
            cases h
    | [], h => cases h
    | [_], h => cases h
    | _ :: _ :: _ :: _, h => cases h

theorem exists_trim (line : List UInt8) : ∃ lead trail, line = lead ++ trim line ++ trail ∧
    (∀ c ∈ lead, isBlank c = true) ∧ ∀ c ∈ trail, isTrailing c = true := by
  refine ⟨line.takeWhile isBlank, (line.dropWhile isBlank).rtakeWhile isTrailing, ?_, ?_, ?_⟩
  · rw [trim, List.append_assoc, List.rdropWhile_append_rtakeWhile, List.takeWhile_append_dropWhile]
  · exact fun c hc => List.mem_takeWhile_imp hc
  · exact fun c hc => List.mem_rtakeWhile_imp hc

theorem trim_append (hlead : ∀ c ∈ lead, isBlank c = true)
    (htrail : ∀ c ∈ trail, isTrailing c = true) (ha : isBlank a = false)
    (hb : isTrailing b = false) :
    trim (lead ++ (a :: body ++ [b]) ++ trail) = a :: body ++ [b] := by
  have hdrop : (lead ++ (a :: body ++ [b]) ++ trail).dropWhile isBlank =
      a :: body ++ [b] ++ trail := by
    rw [List.append_assoc, List.dropWhile_append_of_pos hlead, List.cons_append, List.cons_append,
      List.dropWhile_cons_of_neg (by simp [ha])]
  rw [trim, hdrop, List.rdropWhile, List.reverse_append, List.dropWhile_append_of_pos]
  · rw [List.reverse_append, List.reverse_singleton, List.singleton_append,
      List.dropWhile_cons_of_neg (by simp [hb])]
    simp
  · intro c hc
    exact htrail c (List.mem_reverse.mp hc)

theorem parse_ok {require : Bool} {s : Sentence} (h : parse line require = .ok s) :
    ∃ start rest text, trim line = start :: rest ∧ isStart start = true ∧
      (start :: rest).length ≤ LINE_MAX ∧ (start :: rest).all printable = true ∧
      stripChecksum (start :: rest) require = .ok (text, s.hasChecksum) ∧
      splitBody start text.tail s.hasChecksum = .ok s := by
  rw [parse] at h
  cases htrim : trim line with
  | nil => rw [htrim] at h; cases h
  | cons start rest =>
    simp only [htrim] at h
    cases hstart : isStart start with
    | false => rw [if_pos hstart] at h; cases h
    | true =>
      rw [if_neg (by simp [hstart])] at h
      by_cases hlong : LINE_MAX < (start :: rest).length
      · rw [if_pos hlong] at h
        cases h
      · rw [if_neg hlong] at h
        cases hascii : (start :: rest).all printable with
        | false => rw [if_pos hascii] at h; cases h
        | true =>
          rw [if_neg (by simp [hascii])] at h
          cases hstrip : stripChecksum (start :: rest) require with
          | error e => simp only [hstrip] at h; cases h
          | ok parts =>
            obtain ⟨text, has⟩ := parts
            simp only [hstrip] at h
            obtain ⟨-, -, rfl⟩ := splitBody_ok h
            exact ⟨start, rest, text, rfl, hstart, by omega, hascii, hstrip, h⟩

theorem sumText_read (sum : UInt8) : ∃ hi lo vh vl, sumText sum = [STAR, hi, lo] ∧
    hexVal hi = some vh ∧ hexVal lo = some vl ∧ sum = vh <<< 4 ||| vl ∧
    printable hi = true ∧ printable lo = true := by
  have hall : ∀ n : Fin 256,
      hexVal (hexDigit (UInt8.ofNat n >>> 4)) = some (UInt8.ofNat n >>> 4) ∧
      hexVal (hexDigit (UInt8.ofNat n &&& 15)) = some (UInt8.ofNat n &&& 15) ∧
      UInt8.ofNat n = (UInt8.ofNat n >>> 4) <<< 4 ||| (UInt8.ofNat n &&& 15) ∧
      printable (hexDigit (UInt8.ofNat n >>> 4)) = true ∧
      printable (hexDigit (UInt8.ofNat n &&& 15)) = true := by decide +kernel
  have hsum := hall ⟨sum.toNat, sum.toNat_lt⟩
  simp only [UInt8.ofNat_toNat] at hsum
  exact ⟨_, _, _, _, rfl, hsum⟩

-- A digit is not cut off.
theorem isTrailing_of_hexVal {v : UInt8} (h : hexVal c = some v) : isTrailing c = false := by
  by_contra htrail
  rw [Bool.not_eq_false, isTrailing, isEol, isBlank] at htrail
  simp only [Bool.or_eq_true, beq_iff_eq] at htrail
  rcases htrail with (rfl | rfl) | rfl | rfl
  · cases h
  · cases h
  · cases h
  · cases h

theorem isBlank_of_isStart (h : isStart c = true) : isBlank c = false := by
  simp only [isStart, Bool.or_eq_true, beq_iff_eq] at h
  rcases h with rfl | rfl
  · rfl
  · rfl

theorem foldl_xor (sum : UInt8) (body : List UInt8) :
    body.foldl (· ^^^ ·) sum = sum ^^^ checksum body := by
  induction body generalizing sum with
  | nil => simp [checksum]
  | cons c body ih => rw [checksum, List.foldl_cons, List.foldl_cons, ih, ih, UInt8.zero_xor,
      UInt8.xor_assoc]

theorem checksum_inj (h : checksum (l ++ a :: r) = checksum (l ++ b :: r)) : a = b := by
  have hsum : ∀ c, checksum (l ++ c :: r) = checksum l ^^^ (checksum r ^^^ c) := by
    intro c
    rw [checksum, List.foldl_append, List.foldl_cons, foldl_xor, ← checksum, UInt8.xor_assoc,
      UInt8.xor_comm c]
  rw [hsum, hsum, UInt8.xor_right_inj, UInt8.xor_right_inj] at h
  exact h

theorem stripChecksum_append {vh vl : UInt8} (hstar : STAR ∉ text) (hhi : hexVal hi = some vh)
    (hlo : hexVal lo = some vl) (require : Bool) :
    stripChecksum (text ++ [STAR, hi, lo]) require =
      if checksum text.tail = vh <<< 4 ||| vl then .ok (text, true) else .error .badChecksum := by
  rw [stripChecksum, past_append hstar, upTo_append hstar]
  simp only [hhi, hlo]

theorem stripChecksum_long (hstar : STAR ∉ l) (require : Bool) :
    stripChecksum (l ++ STAR :: (r ++ [a, b, c])) require = .error .badChecksum := by
  rw [stripChecksum, past_append hstar]
  match r with
  | [] => rfl
  | [_] => rfl
  | [_, _] => rfl
  | _ :: _ :: _ :: _ => rfl

theorem parse_eq {start : UInt8} {has require : Bool} (htrim : trim line = start :: body)
    (hstart : isStart start = true) (hfits : (start :: body).length ≤ LINE_MAX)
    (hascii : (start :: body).all printable = true)
    (hstrip : stripChecksum (start :: body) require = .ok (text, has)) :
    parse line require = splitBody start text.tail has := by
  rw [parse, htrim]
  simp only [hstart, hascii, Bool.true_eq_false, if_false, if_neg (not_lt.mpr hfits), hstrip]

theorem parse_error {start : UInt8} {require : Bool} (htrim : trim line = start :: body)
    (hstart : isStart start = true)
    (hstrip : stripChecksum (start :: body) require = .error .badChecksum) :
    ∃ e, parse line require = .error e := by
  rw [parse, htrim]
  simp only [hstart, Bool.true_eq_false, if_false, hstrip]
  by_cases hlong : LINE_MAX < (start :: body).length
  · exact ⟨.tooLong, if_pos hlong⟩
  · rw [if_neg hlong]
    by_cases hascii : (start :: body).all printable = false
    · exact ⟨.badChar, if_pos hascii⟩
    · exact ⟨.badChecksum, if_neg hascii⟩

theorem finish_eq_some {out : List UInt8} (h : finish line n = some out) :
    let kept := line.takeWhile fun c => c != STAR && !isEol c
    (∃ start rest, line = start :: rest ∧ isStart start = true) ∧ kept.length + 3 ≤ LINE_MAX ∧
      out = kept ++ sumText (checksum kept.tail) ++ [CR, LF] := by
  intro kept
  cases line with
  | nil => cases h
  | cons start rest =>
    rw [finish] at h
    cases hstart : isStart start with
    | false => rw [hstart] at h; cases h
    | true =>
      simp only [hstart, if_true] at h
      by_cases hroom : kept.length < 2 ∨ LINE_MAX < kept.length + 3 ∨ n < kept.length + 6
      · rw [if_pos hroom] at h
        cases h
      · rw [if_neg hroom] at h
        cases h
        exact ⟨⟨start, rest, rfl, hstart⟩, by omega, rfl⟩

-- What `finish` keeps of a line without an asterisk that `parse` accepts.
theorem kept_eq {start : UInt8} (hstar : STAR ∉ line)
    (hline : line = start :: body ++ trail) (hascii : (start :: body).all printable = true)
    (htrail : ∀ c ∈ trail, isTrailing c = true)
    (hblank : ∀ c ∈ (line.takeWhile fun c => !isEol c).getLast?, isBlank c = false) :
    (line.takeWhile fun c => c != STAR && !isEol c) = start :: body := by
  have hbody : ∀ c ∈ start :: body, (c != STAR && !isEol c) = true := by
    intro c hc
    have hne : c ≠ STAR := by
      rintro rfl
      exact hstar (hline ▸ List.mem_append_left trail hc)
    simp [hne, isEol_eq_false (List.all_eq_true.mp hascii c hc)]
  have heol : ∀ c ∈ start :: body, (!isEol c) = true := by
    intro c hc
    exact (Bool.and_eq_true_iff.mp (hbody c hc)).2
  rw [hline] at hblank ⊢
  rw [List.takeWhile_append_of_pos heol] at hblank
  rw [List.takeWhile_append_of_pos hbody]
  cases trail with
  | nil => simp
  | cons c trail =>
    cases hc : isEol c with
    | true => simp [hc]
    | false =>
      -- the line would end in a blank
      obtain ⟨last, hlast⟩ : ∃ last,
          (c :: trail.takeWhile fun c => !isEol c).getLast? = some last :=
        ⟨_, List.getLast?_eq_some_getLast (List.cons_ne_nil _ _)⟩
      have hmem : last ∈ (c :: trail).takeWhile fun c => !isEol c := by
        rw [List.takeWhile_cons_of_pos (by simp [hc])]
        exact List.mem_of_getLast? hlast
      have heol' : isEol last = false := by simpa using List.mem_takeWhile_imp hmem
      have hlast' := htrail last ((List.takeWhile_prefix _).subset hmem)
      rw [isTrailing, heol', Bool.false_or, hblank last] at hlast'
      · cases hlast'
      · rw [List.takeWhile_cons_of_pos (by simp [hc]), List.getLast?_append, hlast]
        rfl

-- The sentence that `finish` makes of a line is what `parse` makes of the line.
theorem parse_finish {out : List UInt8} {s : Sentence} (hstar : STAR ∉ line)
    (hblank : ∀ c ∈ (line.takeWhile fun c => !isEol c).getLast?, isBlank c = false)
    (hparse : parse line false = .ok s) (hfinish : finish line n = some out) :
    parse out true = .ok { s with hasChecksum := true } := by
  obtain ⟨start, rest, text, htrim, hstart, hfits, hascii, hstrip, hsplit⟩ := parse_ok hparse
  obtain ⟨⟨start', rest', hline', hstart'⟩, hroom, hout⟩ := finish_eq_some hfinish
  obtain ⟨lead, trail, hline, hlead, htrail⟩ := exists_trim line
  rw [htrim] at hline
  have hnil : lead = [] := by
    cases lead with
    | nil => rfl
    | cons c lead =>
      obtain rfl : c = start' := by
        rw [hline] at hline'
        exact (List.cons.inj hline').1
      have hc := hlead c List.mem_cons_self
      rw [isBlank_of_isStart hstart'] at hc
      cases hc
  subst hnil
  have hkept := kept_eq hstar hline hascii htrail hblank
  rw [hkept] at hroom hout
  have hnone : STAR ∉ start :: rest := fun h => hstar (hline ▸ List.mem_append_left trail h)
  have htext : text = start :: rest := by
    rw [stripChecksum, past_eq_none.mpr hnone] at hstrip
    exact (Prod.mk.inj (Except.ok.inj hstrip)).1.symm
  subst htext
  obtain ⟨hi, lo, vh, vl, hsum, hhi, hlo, hval, hprint, hprint'⟩ :=
    sumText_read (checksum (start :: rest).tail)
  have htrimmed : trim out = start :: (rest ++ [STAR, hi, lo]) := by
    have hends : ∀ c ∈ [CR, LF], isTrailing c = true := List.all_eq_true.mp rfl
    have htrim' : trim ([] ++ (start :: (rest ++ [STAR, hi]) ++ [lo]) ++ [CR, LF]) = _ :=
      trim_append (List.forall_mem_nil _) hends (isBlank_of_isStart hstart)
        (isTrailing_of_hexVal hlo)
    rw [hout, hsum]
    simpa using htrim'
  have hstrip' := stripChecksum_append hnone hhi hlo true
  rw [if_pos hval] at hstrip'
  have hlen : (start :: (rest ++ [STAR, hi, lo])).length ≤ LINE_MAX := by
    rwa [← List.cons_append, List.length_append]
  rw [parse_eq htrimmed hstart hlen ?_ hstrip']
  · exact splitBody_flag true hsplit
  · rw [← List.cons_append, List.all_append, hascii]
    simp [hprint, hprint', show printable STAR = true from rfl]

-- The text of an accepted line, up to its checksum, is the address and the fields.
theorem parse_rejoin {require : Bool} {s : Sentence} (h : parse line require = .ok s) :
    ∃ start sum, trim line = start :: [COMMA].intercalate (s.address :: s.field) ++ sum ∧
      isStart start = true ∧ s.encapsulated = (start == BANG) ∧
      STAR ∉ [COMMA].intercalate (s.address :: s.field) ∧
      (s.hasChecksum = false ∧ sum = [] ∨
        s.hasChecksum = true ∧ ∃ hi lo, sum = [STAR, hi, lo]) := by
  obtain ⟨start, rest, text, htrim, hstart, -, -, hstrip, hsplit⟩ := parse_ok h
  obtain ⟨hjoin, hkind, -⟩ := splitBody_ok hsplit
  obtain ⟨hstar, hsum⟩ := stripChecksum_ok hstrip
  rcases hsum with ⟨hhas, htext⟩ | ⟨hhas, hi, lo, -, -, htext, -⟩
  · rw [← htext] at hjoin hstar
    rw [htrim, hjoin]
    exact ⟨start, [], by simp, hstart, hkind, fun hmem => hstar (List.mem_of_mem_tail hmem),
      Or.inl ⟨hhas, rfl⟩⟩
  · cases text with
    | nil =>
      obtain rfl : start = STAR := (List.cons.inj htext).1
      cases hstart
    | cons start' body =>
      obtain ⟨rfl, hrest⟩ := List.cons.inj htext
      rw [List.tail_cons] at hjoin
      rw [htrim, hjoin, hrest]
      exact ⟨start, [STAR, hi, lo], rfl, hstart, hkind,
        fun hmem => hstar (List.mem_cons_of_mem start hmem), Or.inr ⟨hhas, hi, lo, rfl⟩⟩

-- Where the start character of an accepted line with a checksum is, and where
-- the asterisk.
theorem parse_ok_sum {require : Bool} {s : Sentence} (h : parse line require = .ok s)
    (hstar : STAR ∈ line) : ∃ lead start body hi lo vh vl trail,
      line = lead ++ start :: body ++ STAR :: hi :: lo :: trail ∧
      (∀ c ∈ lead, isBlank c = true) ∧ isStart start = true ∧ STAR ∉ lead ++ start :: body ∧
      (∀ c ∈ trail, isTrailing c = true) ∧ hexVal hi = some vh ∧ hexVal lo = some vl ∧
      checksum body = vh <<< 4 ||| vl := by
  obtain ⟨start, rest, text, htrim, hstart, -, -, hstrip, -⟩ := parse_ok h
  obtain ⟨lead, trail, hline, hlead, htrail⟩ := exists_trim line
  obtain ⟨htext, hsum⟩ := stripChecksum_ok hstrip
  rw [htrim] at hline
  have hlead' : STAR ∉ lead := by
    intro hmem
    cases hlead STAR hmem
  have htrail' : STAR ∉ trail := by
    intro hmem
    cases htrail STAR hmem
  rcases hsum with ⟨-, rfl⟩ | ⟨-, hi, lo, vh, vl, hrest, hhi, hlo, hval⟩
  · rw [hline, List.mem_append, List.mem_append] at hstar
    rcases hstar with (hstar | hstar) | hstar
    · exact absurd hstar hlead'
    · exact absurd hstar htext
    · exact absurd hstar htrail'
  · cases text with
    | nil =>
      obtain rfl : start = STAR := (List.cons.inj hrest).1
      cases hstart
    | cons start' body =>
      obtain ⟨rfl, rfl⟩ := List.cons.inj hrest
      refine ⟨lead, start, body, hi, lo, vh, vl, trail, ?_, hlead, hstart, ?_, htrail, hhi, hlo,
        hval⟩
      · rw [hline]
        simp
      · rw [List.mem_append, not_or]
        exact ⟨hlead', htext⟩

-- One byte between the start character and the asterisk that changes.
theorem parse_corrupted {require : Bool} {s : Sentence} {pre post : List UInt8}
    (h : parse (pre ++ a :: post) require = .ok s) (hstart : ∃ c ∈ pre, isStart c = true)
    (hbefore : STAR ∉ pre ++ [a]) (hafter : STAR ∈ post) (hne : b ≠ a) (require' : Bool) :
    ∃ e, parse (pre ++ b :: post) require' = .error e := by
  obtain ⟨lead, start, body, hi, lo, vh, vl, trail, hline, hlead, hfirst, hstar, htrail, hhi, hlo,
    hval⟩ := parse_ok_sum h (List.mem_append_right pre (List.mem_cons_of_mem a hafter))
  obtain ⟨r, rest, rfl, hr⟩ := List.eq_append_cons_of_mem hafter
  have hpre : STAR ∉ pre ++ a :: r := by
    rw [← List.singleton_append, ← List.append_assoc, List.mem_append, not_or]
    exact ⟨hbefore, hr⟩
  have hline' : (pre ++ a :: r) ++ STAR :: rest =
      (lead ++ start :: body) ++ STAR :: hi :: lo :: trail := by
    rw [← hline]
    simp
  obtain ⟨hkept, rfl⟩ := cut_inj hpre hstar hline'
  -- the start character is in front of the byte that changes
  obtain ⟨l, hpre', hbody⟩ : ∃ l, pre = lead ++ start :: l ∧ body = l ++ a :: r := by
    obtain ⟨c, hc, hcstart⟩ := hstart
    have hnot : c ∉ lead := by
      intro hmem
      have hblank := hlead c hmem
      rw [isBlank_of_isStart hcstart] at hblank
      cases hblank
    rcases List.append_eq_append_iff.mp hkept with ⟨m, hm, -⟩ | ⟨m, hm, hrest⟩
    · exact absurd (hm ▸ List.mem_append_left m hc) hnot
    · cases m with
      | nil =>
        rw [List.append_nil] at hm
        exact absurd (hm ▸ hc) hnot
      | cons start' l =>
        obtain ⟨rfl, hbody⟩ := List.cons.inj hrest
        exact ⟨l, hm, hbody⟩
  subst hpre' hbody
  have htrim : trim (lead ++ start :: l ++ b :: (r ++ STAR :: hi :: lo :: trail)) =
      start :: (l ++ b :: r ++ [STAR, hi, lo]) := by
    have htrim' : trim (lead ++ (start :: (l ++ b :: r ++ [STAR, hi]) ++ [lo]) ++ trail) = _ :=
      trim_append hlead htrail (isBlank_of_isStart hfirst) (isTrailing_of_hexVal hlo)
    simpa using htrim'
  apply parse_error htrim hfirst
  rw [List.mem_append, not_or] at hstar
  by_cases hb : b = STAR
  · have hl : STAR ∉ start :: l := by
      intro hmem
      exact hstar.2 (by
        rw [← List.cons_append]
        exact List.mem_append_left _ hmem)
    have hlong := stripChecksum_long (r := r) (a := STAR) (b := hi) (c := lo) hl require'
    rw [hb]
    simpa using hlong
  · have hnone : STAR ∉ start :: (l ++ b :: r) := by
      intro hmem
      apply hstar.2
      rw [List.mem_cons, List.mem_append, List.mem_cons] at hmem ⊢
      rcases hmem with hmem | hmem | hmem | hmem
      · exact Or.inl hmem
      · exact Or.inr (Or.inl hmem)
      · exact absurd hmem.symm hb
      · exact Or.inr (Or.inr (Or.inr hmem))
    have hstrip := stripChecksum_append hnone hhi hlo require'
    rw [if_neg] at hstrip
    · simpa using hstrip
    · intro hsum
      rw [← hval] at hsum
      exact hne (checksum_inj hsum)

-- What `finish` builds of a line `parse` reads as the line; the address and the
-- fields are all of an accepted line in front of its checksum; and the checksum
-- finds every single changed byte.
theorem build_and_parse_agree :
    (∀ line n out s, STAR ∉ line →
      (∀ c ∈ (line.takeWhile fun c => !isEol c).getLast?, isBlank c = false) →
      parse line false = .ok s → finish line n = some out →
      parse out true = .ok { s with hasChecksum := true }) ∧
    (∀ line require s, parse line require = .ok s →
      ∃ start sum, trim line = start :: [COMMA].intercalate (s.address :: s.field) ++ sum ∧
        isStart start = true ∧ s.encapsulated = (start == BANG) ∧
        STAR ∉ [COMMA].intercalate (s.address :: s.field) ∧
        (s.hasChecksum = false ∧ sum = [] ∨
          s.hasChecksum = true ∧ ∃ hi lo, sum = [STAR, hi, lo])) ∧
    ∀ pre a post b require require' s, parse (pre ++ a :: post) require = .ok s →
      (∃ c ∈ pre, isStart c = true) → STAR ∉ pre ++ [a] → STAR ∈ post → b ≠ a →
      ∃ e, parse (pre ++ b :: post) require' = .error e :=
  ⟨fun _ _ _ _ hstar hblank hparse hfinish => parse_finish hstar hblank hparse hfinish,
    fun _ _ _ h => parse_rejoin h,
    fun _ _ _ _ _ require' _ h hstart hbefore hafter hne =>
      parse_corrupted h hstart hbefore hafter hne require'⟩

-- A heading, with an empty field, built and read, and with one digit flipped.
theorem heading_agrees :
    let line := ascii "$GPHDT,12.5,,T\r\n"
    let out := ascii "$GPHDT,12.5,,T*2F\r\n"
    let s : Sentence :=
      ⟨ascii "GP", ascii "HDT", false, false, false, [ascii "12.5", [], ascii "T"]⟩
    parse line false = .ok s ∧ finish line 32 = some out ∧
      parse out true = .ok { s with hasChecksum := true } ∧
      (∃ start sum, trim out = start :: [COMMA].intercalate (s.address :: s.field) ++ sum) ∧
      ∃ e, parse (ascii "$GPHDT,12.6,,T*2F\r\n") true = .error e := by
  intro line out s
  have hagree := build_and_parse_agree
  have hline : parse line false = .ok s := by decide +kernel
  have hfinish : finish line 32 = some out := by decide +kernel
  have hout : parse out true = .ok { s with hasChecksum := true } :=
    hagree.1 line 32 out s (by decide +kernel) (by decide +kernel) hline hfinish
  obtain ⟨start, sum, htrim, -⟩ := hagree.2.1 out true _ hout
  exact ⟨hline, hfinish, hout, ⟨start, sum, htrim⟩,
    hagree.2.2 (ascii "$GPHDT,12.") 0x35 (ascii ",,T*2F\r\n") 0x36 true true _ hout
      (by decide +kernel) (by decide +kernel) (by decide +kernel) (by decide)⟩

end Espos.Nmea0183
