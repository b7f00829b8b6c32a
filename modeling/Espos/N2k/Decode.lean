import Espos.Lib.Digits
import Espos.N2k.Candump
import Mathlib.Data.List.TakeWhile

-- The frame that is read from a line of candump text.

namespace Espos.N2k

open Espos.Text Espos.Strtol

-- `none` for -1.
def hexNibble (c : Char) : Option Nat :=
  if '0' ≤ c ∧ c ≤ '9' then some (c.toNat - '0'.toNat)
  else if 'a' ≤ c ∧ c ≤ 'f' then some (c.toNat - 'a'.toNat + 10)
  else if 'A' ≤ c ∧ c ≤ 'F' then some (c.toNat - 'A'.toNat + 10)
  else none

def kMaxSec : Int := 4000000000

def clamp (i limit : Int) : Int :=
  let i := if i < 0 then 0 else i
  if limit < i then limit else i

-- The two halves of the timestamp, if there is one, and the text behind it.
def readStamp (line : CStr) : Int × Int × CStr :=
  if line.head? = some '(' then
    let (sec, stop) := strtoll line.tail
    let (usec, stop) := if stop.head? = some '.' then strtoll stop.tail else (0, stop)
    (sec, usec, if stop.head? = some ')' then stop.tail else stop)
  else (0, 0, line)

def skipIface (line : CStr) : CStr :=
  let line := line.dropWhile (· = ' ')
  let line := line.dropWhile (· ≠ ' ')
  line.dropWhile (· = ' ')

-- The loop over pairs of digits. `room` is what is left of the eight bytes.
def readData : Nat → Nat → Vector UInt8 8 → CStr → Nat × Vector UInt8 8
  | room + 1, dataLen, data, h :: l :: hash =>
    match hexNibble h, hexNibble l with
    | some hi, some lo =>
      readData room (dataLen + 1) (data.setIfInBounds dataLen (UInt8.ofNat (hi <<< 4 ||| lo))) hash
    | _, _ => (dataLen, data)
  | _, dataLen, data, _ => (dataLen, data)

-- The id and the data, behind the name of the interface. `out` keeps what a
-- refused line has not got as far as writing.
def readFrame (line : CStr) (out : CanMessage) : Bool × CanMessage :=
  let (canId, hash) := strtoul 16 (skipIface line)
  if hash.head? = some '#' then
    let (dataLen, data) := readData kCanMaxData 0 out.frame.data hash.tail
    (0 < dataLen, { out with frame := ⟨canId, true, false, UInt8.ofNat dataLen, data⟩ })
  else (false, out)

def candumpDecode (line : CStr) (out : CanMessage) : Bool × CanMessage :=
  let line := line.dropWhile fun c => c = ' ' ∨ c = '\t'
  let (sec, usec, line) := readStamp line
  readFrame line { out with timestampUs := clamp sec kMaxSec * 1000000 + clamp usec 999999 }

section Numbers

theorem digit_of_isDigit {c : Char} (h : c.isDigit = true) : (digit 10 c).isSome = true := by
  have hrange : 48 ≤ c.toNat ∧ c.toNat ≤ 57 := by
    simpa [Char.isDigit, UInt32.le_iff_toNat_le] using h
  have hlt : c.toNat - 48 < 10 := by omega
  simp [digit, h, hlt]

theorem strtoll_run {run text : CStr} (hne : run ≠ []) (hrun : ∀ c ∈ run, c.isDigit = true)
    (hend : Ends 10 text) :
    (strtoll (run ++ text)).2 = text ∧ (strtoll ('-' :: (run ++ text))).2 = text := by
  obtain ⟨hplain, hminus⟩ := number_run hne (fun c hc => digit_of_isDigit (hrun c hc)) hend
    (unmark_of_ne (by decide) (run ++ text))
  rw [strtoll, hplain, strtoll, hminus]
  exact ⟨rfl, rfl⟩

theorem isDigit_decimal {n : Nat} : ∀ c ∈ decimal n, c.isDigit = true :=
  fun _ hc => Nat.isDigit_of_mem_toDigits (by decide) (by decide) hc

theorem isDigit_padded {width n : Nat} : ∀ c ∈ padded width n, c.isDigit = true := by
  intro c hc
  rcases List.mem_append.mp hc with hc | hc
  · rw [List.eq_of_mem_replicate hc]
    rfl
  · exact isDigit_decimal c hc

theorem padded_ne_nil (width n : Nat) : padded width n ≠ [] := by
  intro h
  exact Nat.toDigits_ne_nil (List.append_eq_nil_iff.mp h).2

theorem strtoll_decimalInt (i : Int) {text : CStr} (hend : Ends 10 text) :
    (strtoll (decimalInt i ++ text)).2 = text := by
  cases i with
  | ofNat n => exact (strtoll_run Nat.toDigits_ne_nil isDigit_decimal hend).1
  | negSucc n => exact (strtoll_run Nat.toDigits_ne_nil isDigit_decimal hend).2

theorem strtoll_paddedInt (width : Nat) (i : Int) {text : CStr} (hend : Ends 10 text) :
    (strtoll (paddedInt width i ++ text)).2 = text := by
  cases i with
  | ofNat n => exact (strtoll_run (padded_ne_nil _ _) isDigit_padded hend).1
  | negSucc n => exact (strtoll_run (padded_ne_nil _ _) isDigit_padded hend).2

-- Any timestamp that is written is read past.
theorem readStamp_written (sec usec : Int) (line : CStr) :
    (readStamp ('(' :: (decimalInt sec ++ '.' :: (paddedInt 6 usec ++ ')' :: line)))).2.2 =
      line := by
  have hdot : Ends 10 ('.' :: (paddedInt 6 usec ++ ')' :: line)) := by
    intro c hc
    obtain rfl := Option.some.inj hc
    rfl
  have hclose : Ends 10 (')' :: line) := by
    intro c hc
    obtain rfl := Option.some.inj hc
    rfl
  have hsec := strtoll_decimalInt sec hdot
  have husec := strtoll_paddedInt 6 usec hclose
  simp only [readStamp, List.head?_cons, List.tail_cons, if_true, hsec, husec]

def upperDigit (d : Nat) : Char :=
  (Nat.digitChar d).toUpper

theorem digit_upperDigit : ∀ d < 16, digit 16 (upperDigit d) = some d := by
  decide

theorem hexNibble_upperDigit : ∀ d < 16, hexNibble (upperDigit d) = some d := by
  decide

theorem hexUpper_eq (width n : Nat) : hexUpper width n = Digits.fixed 16 upperDigit width n := rfl

theorem digit_of_mem_hexUpper {width n : Nat} :
    ∀ c ∈ hexUpper width n, (digit 16 c).isSome = true := by
  intro c hc
  obtain ⟨i, -, rfl⟩ := List.mem_map.mp hc
  have hread := digit_upperDigit (n / 16 ^ i % 16) (Nat.mod_lt _ (by decide))
  rw [upperDigit] at hread
  rw [hread]
  rfl

theorem space_not_mem_hexUpper (width n : Nat) : ' ' ∉ hexUpper width n := by
  intro h
  exact absurd (digit_of_mem_hexUpper ' ' h) (by decide)

theorem strtoul_hexUpper {n : Nat} (hn : n < 2 ^ 32) {text : CStr} (hend : Ends 16 text) :
    strtoul 16 (hexUpper 8 n ++ text) = (UInt32.ofNat n, text) := by
  have hbare : unmark 16 (hexUpper 8 n ++ text) = hexUpper 8 n ++ text := by
    rw [hexUpper_eq, Digits.fixed_succ, Digits.fixed_succ]
    apply unmark_of_digit
    rw [digit_upperDigit _ (Nat.mod_lt _ (by decide))]
    rfl
  have hread : magnitude 16 0 (hexUpper 8 n ++ text) = (n, text) := by
    have htake := Digits.take_fixed digit_upperDigit (by decide) 8 0 n text
    rw [Nat.zero_mul, Nat.zero_add, Nat.mod_eq_of_lt (show n < 16 ^ 8 from hn)] at htake
    rw [hexUpper_eq, magnitude_of_take htake, magnitude_of_ends hend]
  have hnumber := (number_run (by simp [hexUpper]) digit_of_mem_hexUpper hend hbare).1
  rw [hread] at hnumber
  rw [strtoul, hnumber]
  dsimp only
  rw [if_neg (by omega), if_neg Bool.false_ne_true]

end Numbers

section Data

theorem hexUpper_two (b : UInt8) :
    hexUpper 2 b.toNat = [upperDigit (b.toNat / 16), upperDigit (b.toNat % 16)] := by
  have hlt := b.toNat_lt
  have hhigh : b.toNat / 16 % 16 = b.toNat / 16 := Nat.mod_eq_of_lt (by omega)
  simp [hexUpper_eq, Digits.fixed, List.range_succ, hhigh]

theorem byte_halves (b : UInt8) :
    UInt8.ofNat ((b.toNat / 16) <<< 4 ||| b.toNat % 16) = b := by
  have hlow : b.toNat % 16 < 2 ^ 4 := Nat.mod_lt _ (by decide)
  rw [Nat.shiftLeft_eq, Nat.mul_comm, ← Nat.two_pow_add_eq_or_of_lt hlow,
    show 2 ^ 4 * (b.toNat / 16) + b.toNat % 16 = b.toNat by omega, UInt8.ofNat_toNat]

theorem readData_pair (room dataLen : Nat) (data : Vector UInt8 8) (b : UInt8) (hash : CStr) :
    readData (room + 1) dataLen data (hexUpper 2 b.toNat ++ hash) =
      readData room (dataLen + 1) (data.setIfInBounds dataLen b) hash := by
  have hlt := b.toNat_lt
  have hhigh := hexNibble_upperDigit (b.toNat / 16) (by omega)
  have hlow := hexNibble_upperDigit (b.toNat % 16) (Nat.mod_lt _ (by decide))
  have hbyte := byte_halves b
  rw [hexUpper_two]
  change (match hexNibble (upperDigit (b.toNat / 16)), hexNibble (upperDigit (b.toNat % 16)) with
    | some hi, some lo =>
      readData room (dataLen + 1) (data.setIfInBounds dataLen (UInt8.ofNat (hi <<< 4 ||| lo))) hash
    | _, _ => (dataLen, data)) = _
  rw [hhigh, hlow]
  dsimp only
  rw [hbyte]

-- The bytes are read one after the other, up to the end of the line.
theorem readData_written (bytes : List UInt8) (room dataLen : Nat) (data : Vector UInt8 8)
    (hroom : dataLen + room = 8) (hfits : bytes.length ≤ room) :
    let r := readData room dataLen data (bytes.flatMap (fun b => hexUpper 2 b.toNat) ++ ['\n'])
    r.1 = dataLen + bytes.length ∧ ∀ i, r.2[i]? =
      if dataLen ≤ i ∧ i < dataLen + bytes.length then bytes[i - dataLen]? else data[i]? := by
  induction bytes generalizing room dataLen data with
  | nil =>
    have hstop : readData room dataLen data ['\n'] = (dataLen, data) := by
      cases room <;> rfl
    intro r
    have hr : r = (dataLen, data) := hstop
    rw [hr]
    refine ⟨rfl, fun i => ?_⟩
    rw [if_neg (by simp only [List.length_nil]; omega)]
  | cons b bytes ih =>
    cases room with
    | zero => simp at hfits
    | succ room =>
      intro r
      have hr : r = readData room (dataLen + 1) (data.setIfInBounds dataLen b)
          (bytes.flatMap (fun b => hexUpper 2 b.toNat) ++ ['\n']) := by
        change readData (room + 1) dataLen data _ = _
        rw [List.flatMap_cons, List.append_assoc, readData_pair]
      obtain ⟨hlen, hdata⟩ := ih room (dataLen + 1) (data.setIfInBounds dataLen b) (by omega)
        (Nat.le_of_succ_le_succ hfits)
      rw [hr]
      refine ⟨by rw [hlen, List.length_cons]; omega, fun i => ?_⟩
      rw [hdata, List.length_cons]
      by_cases hnew : i = dataLen
      · rw [if_neg (by omega), if_pos (by omega), hnew, Nat.sub_self, List.getElem?_cons_zero,
          Vector.getElem?_setIfInBounds_self_of_lt (by omega)]
      · rw [Vector.getElem?_setIfInBounds_ne (Ne.symm hnew)]
        by_cases hlater : dataLen + 1 ≤ i ∧ i < dataLen + 1 + bytes.length
        · have hshift : i - dataLen = i - (dataLen + 1) + 1 := by omega
          rw [if_pos hlater, if_pos (by omega), hshift, List.getElem?_cons_succ]
        · rw [if_neg hlater, if_neg (by omega)]

end Data

section Frames

variable {msg out : CanMessage} {tv : Timeval} {iface : CStr}

theorem dropWhile_eq_of_head {p : Char → Bool} {text : CStr} (h : ∀ c ∈ text.head?, ¬ p c = true) :
    text.dropWhile p = text := by
  cases text with
  | nil => rfl
  | cons c text => exact List.dropWhile_cons_of_neg (h c rfl)

theorem skipIface_written (hiface : ' ' ∉ iface) (hne : iface ≠ []) {text : CStr}
    (htext : ' ' ∉ text.head?) : skipIface (' ' :: (iface ++ ' ' :: text)) = text := by
  obtain ⟨c, name, rfl⟩ := List.exists_cons_of_ne_nil hne
  have hc : c ≠ ' ' := fun h => hiface (h ▸ List.mem_cons_self ..)
  have hname : ∀ d ∈ c :: name, decide (d ≠ ' ') = true := fun d hd =>
    decide_eq_true fun h => hiface (h ▸ hd)
  rw [skipIface, List.dropWhile_cons_of_pos (by decide), List.cons_append,
    List.dropWhile_cons_of_neg (by simpa using hc), ← List.cons_append,
    List.dropWhile_append_of_pos hname, List.dropWhile_cons_of_neg (by simp),
    List.dropWhile_cons_of_pos (by decide), dropWhile_eq_of_head]
  intro d hd
  have hne : d ≠ ' ' := fun h => htext (h ▸ hd)
  simpa using hne

-- A line without a name has its id skipped for one.
theorem skipIface_nameless {text : CStr} (htext : ' ' ∉ text) :
    skipIface (' ' :: ' ' :: text) = [] := by
  have hall : ∀ d ∈ text, decide (d ≠ ' ') = true := fun d hd =>
    decide_eq_true fun h => htext (h ▸ hd)
  have hkeep : text.dropWhile (fun d => decide (d = ' ')) = text :=
    dropWhile_eq_of_head fun d hd => by simpa using hall d (List.mem_of_mem_head? hd)
  rw [skipIface, List.dropWhile_cons_of_pos (by decide), List.dropWhile_cons_of_pos (by decide),
    hkeep, List.dropWhile_eq_nil_iff.mpr hall, List.dropWhile_nil]

theorem candumpLine_eq (msg : CanMessage) (tv : Timeval) (iface : CStr) :
    candumpLine msg tv iface = '(' :: (decimalInt (stamp msg tv).1 ++ '.' ::
      (paddedInt 6 (stamp msg tv).2 ++ ')' :: ' ' :: (iface ++ ' ' ::
        (hexUpper 8 msg.frame.id.toNat ++ '#' :: (dataHex msg.frame ++ ['\n']))))) := by
  simp [candumpLine, lit]

-- The timestamp is read past, whatever it says.
theorem candumpDecode_line (msg : CanMessage) (tv : Timeval) (iface : CStr) (out : CanMessage) :
    ∃ timestampUs, candumpDecode (candumpLine msg tv iface) out =
      readFrame (' ' :: (iface ++ ' ' :: (hexUpper 8 msg.frame.id.toNat ++
        '#' :: (dataHex msg.frame ++ ['\n'])))) { out with timestampUs := timestampUs } := by
  have hread := readStamp_written (stamp msg tv).1 (stamp msg tv).2 (' ' :: (iface ++ ' ' ::
    (hexUpper 8 msg.frame.id.toNat ++ '#' :: (dataHex msg.frame ++ ['\n']))))
  rw [candumpDecode, candumpLine_eq, List.dropWhile_cons_of_neg (by decide)]
  dsimp only
  rw [hread]
  exact ⟨_, rfl⟩

-- The same id, kind and length, and the same data.
structure Carries (out msg : CanMessage) : Prop where
  id : out.frame.id = msg.frame.id
  extended : out.frame.extended = msg.frame.extended
  remote : out.frame.remote = msg.frame.remote
  dlc : out.frame.dlc = msg.frame.dlc
  data : ∀ i, i < msg.frame.dlc.toNat → out.frame.data[i]? = msg.frame.data[i]?

-- An extended data frame, as it is in a driver.
structure DataFrame (frame : CanFrame) : Prop where
  extended : frame.extended = true
  remote : frame.remote = false
  id : frame.id.toNat < 2 ^ 29
  dlc : frame.dlc.toNat ≤ kCanMaxData

theorem readData_dataHex (frame : CanFrame) (hdlc : frame.dlc.toNat ≤ kCanMaxData)
    (data : Vector UInt8 8) :
    let r := readData kCanMaxData 0 data (dataHex frame ++ ['\n'])
    r.1 = frame.dlc.toNat ∧ ∀ i, i < frame.dlc.toNat → r.2[i]? = frame.data[i]? := by
  have hlen : (frame.data.toList.take frame.dlc.toNat).length = frame.dlc.toNat := by
    rw [List.length_take, Vector.length_toList]
    exact min_eq_left hdlc
  have hread := readData_written (frame.data.toList.take frame.dlc.toNat) kCanMaxData 0 data rfl
    (hlen.trans_le hdlc)
  rw [hlen, Nat.zero_add] at hread
  rw [dataHex, min_eq_left hdlc]
  refine ⟨hread.1, fun i hi => ?_⟩
  rw [hread.2 i, if_pos ⟨Nat.zero_le i, hi⟩, Nat.sub_zero, List.getElem?_take_of_lt hi]
  simp

theorem readFrame_written (hiface : ' ' ∉ iface) (hne : iface ≠ []) (hdlc : msg.frame.dlc.toNat ≤ 8)
    (out : CanMessage) :
    ∃ data, readFrame (' ' :: (iface ++ ' ' :: (hexUpper 8 msg.frame.id.toNat ++
        '#' :: (dataHex msg.frame ++ ['\n'])))) out =
      (decide (0 < msg.frame.dlc.toNat),
        { out with frame := ⟨msg.frame.id, true, false, msg.frame.dlc, data⟩ }) ∧
      ∀ i, i < msg.frame.dlc.toNat → data[i]? = msg.frame.data[i]? := by
  have hend : Ends 16 ('#' :: (dataHex msg.frame ++ ['\n'])) := by
    intro c hc
    obtain rfl := Option.some.inj hc
    rfl
  have hhead : ' ' ∉ (hexUpper 8 msg.frame.id.toNat ++
      '#' :: (dataHex msg.frame ++ ['\n'])).head? := by
    rw [List.head?_append_of_ne_nil _ (by simp [hexUpper])]
    exact fun hc => space_not_mem_hexUpper _ _ (List.mem_of_mem_head? hc)
  obtain ⟨hlen, hdata⟩ := readData_dataHex msg.frame hdlc out.frame.data
  refine ⟨_, ?_, hdata⟩
  rw [readFrame, skipIface_written hiface hne hhead, strtoul_hexUpper msg.frame.id.toNat_lt hend]
  dsimp only [List.tail_cons]
  simp only [List.head?_cons, if_true, hlen, UInt32.ofNat_toNat, UInt8.ofNat_toNat]

theorem space_not_mem_data (msg : CanMessage) :
    ' ' ∉ hexUpper 8 msg.frame.id.toNat ++ '#' :: (dataHex msg.frame ++ ['\n']) := by
  simp only [List.mem_append, List.mem_cons, dataHex, List.mem_flatMap]
  rintro (h | h | ⟨b, -, h⟩ | h | h)
  · exact space_not_mem_hexUpper _ _ h
  · cases h
  · exact space_not_mem_hexUpper _ _ h
  · cases h
  · cases h

-- What a client reads of a frame it was sent is the frame, if it has data and the
-- interface a name.
theorem decode_encode_iff (hframe : DataFrame msg.frame) (hiface : ' ' ∉ iface) {bufLen : Nat}
    {line : CStr} (hline : candumpEncode msg tv iface bufLen = some line) (out : CanMessage) :
    (candumpDecode line out).1 = true ∧ Carries (candumpDecode line out).2 msg ↔
      iface ≠ [] ∧ 0 < msg.frame.dlc.toNat := by
  obtain ⟨rfl, -⟩ := candumpEncode_eq_some hline
  obtain ⟨timestampUs, hdecode⟩ := candumpDecode_line msg tv iface out
  rw [hdecode]
  by_cases hne : iface = []
  · subst hne
    refine iff_of_false (fun h => ?_) fun h => h.1 rfl
    have hskip := skipIface_nameless (space_not_mem_data msg)
    rw [List.nil_append, readFrame, hskip] at h
    cases h.1
  · obtain ⟨data, hread, hdata⟩ := readFrame_written hiface hne hframe.dlc
      { out with timestampUs := timestampUs }
    rw [hread]
    dsimp only
    rw [decide_eq_true_eq]
    constructor
    · exact fun h => ⟨hne, h.1⟩
    · exact fun h => ⟨h.2, rfl, hframe.extended.symm, hframe.remote.symm, rfl, hdata⟩

-- Where the id of a line is written.
def idField (line : CStr) : CStr :=
  skipIface (readStamp (line.dropWhile fun c => c = ' ' ∨ c = '\t')).2.2

theorem id_of_readFrame {line : CStr} (h : (readFrame line out).1 = true) :
    (readFrame line out).2.frame.id = (strtoul 16 (skipIface line)).1 := by
  rw [readFrame] at h ⊢
  dsimp only at h ⊢
  by_cases hhash : (strtoul 16 (skipIface line)).2.head? = some '#'
  · rw [if_pos hhash]
  · rw [if_neg hhash] at h
    cases h

-- A number without a sign that is short enough becomes the id.
theorem id_of_number {line rest : CStr} {n : Nat} (h : (candumpDecode line out).1 = true)
    (hnumber : number 16 (idField line) = some (false, n, rest)) (hn : n < 2 ^ 29) :
    (candumpDecode line out).2.frame.id.toNat = n := by
  have hid := id_of_readFrame h
  have hfield : strtoul 16 (idField line) = (UInt32.ofNat n, rest) := by
    rw [strtoul, hnumber]
    dsimp only
    rw [if_neg (by omega), if_neg Bool.false_ne_true]
  have hsame : (candumpDecode line out).2.frame.id = UInt32.ofNat n :=
    hid.trans (congrArg Prod.fst hfield)
  rw [hsame, UInt32.toNat_ofNat_of_lt' (lt_trans hn (by decide))]

-- A client gets back every frame that has data, and the id of a line it sends is
-- the number that is written there.
theorem candump_corresponds :
    (∀ (msg : CanMessage) (tv : Timeval) (iface : CStr) (bufLen : Nat) (line : CStr),
      DataFrame msg.frame → ' ' ∉ iface → candumpEncode msg tv iface bufLen = some line →
      ∀ out, (candumpDecode line out).1 = true ∧ Carries (candumpDecode line out).2 msg ↔
        iface ≠ [] ∧ 0 < msg.frame.dlc.toNat) ∧
    ∀ (line : CStr) (out : CanMessage), (candumpDecode line out).1 = true →
      ∀ n rest, number 16 (idField line) = some (false, n, rest) → n < 2 ^ 29 →
        (candumpDecode line out).2.frame.id.toNat = n := by
  constructor
  · intro msg tv iface bufLen line hframe hiface hline out
    exact decode_encode_iff hframe hiface hline out
  · intro line out h n rest hnumber hn
    exact id_of_number h hnumber hn

def heartbeat (dlc : UInt8) : CanMessage :=
  ⟨⟨0x1DEFFF03, true, false, dlc, #v[0x01, 0xAB, 0, 0, 0, 0, 0, 0]⟩, 5000001⟩

theorem candump_corresponds_heartbeat :
    ((candumpDecode (candumpLine (heartbeat 2) ⟨0, 0⟩ (lit "can0")) (heartbeat 0)).1 = true ∧
      Carries (candumpDecode (candumpLine (heartbeat 2) ⟨0, 0⟩ (lit "can0")) (heartbeat 0)).2
        (heartbeat 2)) ∧
    (candumpDecode (lit "can0 1F#07") (heartbeat 0)).2.frame.id.toNat = 31 := by
  constructor
  · exact (candump_corresponds.1 (heartbeat 2) ⟨0, 0⟩ (lit "can0") 128 _
      ⟨rfl, rfl, by decide, by decide⟩ (by decide) (by decide +kernel) (heartbeat 0)).mpr
      ⟨by decide, by decide⟩
  · exact candump_corresponds.2 (lit "can0 1F#07") (heartbeat 0) (by decide +kernel) 31
      (lit "#07") (by decide +kernel) (by decide)

-- A frame without data makes a line that is not read as a frame.
theorem empty_frame_refused :
    DataFrame (heartbeat 0).frame ∧
      candumpEncode (heartbeat 0) ⟨0, 0⟩ (lit "can0") 128 =
        some (lit "(5.000001) can0 1DEFFF03#\n") ∧
      (candumpDecode (lit "(5.000001) can0 1DEFFF03#\n") (heartbeat 0)).1 = false :=
  ⟨⟨rfl, rfl, by decide, by decide⟩, by decide +kernel, by decide +kernel⟩

end Frames

end Espos.N2k
