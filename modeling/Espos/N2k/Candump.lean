import Espos.Lib.Lines
import Espos.Lib.Text

-- The candump text of a frame, and where a transmit buffer goes on after the
-- socket took a part of it.

namespace Espos.N2k

open Espos.Text Espos.Lines

def kCanMaxData : Nat := 8

structure CanFrame where
  id : UInt32
  extended : Bool
  remote : Bool
  dlc : UInt8
  data : Vector UInt8 8
deriving DecidableEq

structure CanMessage where
  frame : CanFrame
  timestampUs : Int
deriving DecidableEq

structure Timeval where
  sec : Int
  usec : Int
deriving DecidableEq

-- `%0<width>X` of a number that has no more digits than that.
def hexUpper (width n : Nat) : CStr :=
  (List.range width).reverse.map fun i => (Nat.digitChar (n / 16 ^ i % 16)).toUpper

-- `%0<width>lld`: the sign takes one of the columns.
def paddedInt (width : Nat) : Int → CStr
  | .ofNat n => padded width n
  | .negSucc n => '-' :: padded (width - 1) (n + 1)

def dataHex (frame : CanFrame) : CStr :=
  (frame.data.toList.take (min frame.dlc.toNat kCanMaxData)).flatMap fun b => hexUpper 2 b.toNat

-- The wall clock, or the uptime of the frame where no clock has been set.
def stamp (msg : CanMessage) (tv : Timeval) : Int × Int :=
  if 1577836800 < tv.sec then (tv.sec, tv.usec)
  else (msg.timestampUs.tdiv 1000000, msg.timestampUs.tmod 1000000)

def candumpLine (msg : CanMessage) (tv : Timeval) (iface : CStr) : CStr :=
  lit "(" ++ decimalInt (stamp msg tv).1 ++ lit "." ++ paddedInt 6 (stamp msg tv).2 ++ lit ") " ++
    iface ++ lit " " ++ hexUpper 8 msg.frame.id.toNat ++ lit "#" ++ dataHex msg.frame ++ lit "\n"

-- `none` is the answer -1: the buffer is too small.
def candumpEncode (msg : CanMessage) (tv : Timeval) (iface : CStr) (bufLen : Nat) : Option CStr :=
  if bufLen ≤ (candumpLine msg tv iface).length then none else some (candumpLine msg tv iface)

-- `buf` is the whole of the buffer that is in use.
def candumpResyncOffset (buf : CStr) (sent : Nat) : Nat :=
  if buf.length ≤ sent then buf.length
  else if sent = 0 ∨ buf[sent - 1]? = some '\n' then sent
  else
    match (buf.drop sent).findIdx? (· = '\n') with
    | none => buf.length
    | some i => sent + i + 1

theorem candumpEncode_eq_some {msg : CanMessage} {tv : Timeval} {iface line : CStr} {bufLen : Nat}
    (h : candumpEncode msg tv iface bufLen = some line) :
    line = candumpLine msg tv iface ∧ line.length < bufLen := by
  rw [candumpEncode] at h
  split_ifs at h with hlen
  obtain rfl := Option.some.inj h
  exact ⟨rfl, Nat.lt_of_not_le hlen⟩

-- Neither a parenthesis nor the end of a line.
def Plain (c : Char) : Prop :=
  c ≠ '(' ∧ c ≠ '\n'

instance (c : Char) : Decidable (Plain c) :=
  inferInstanceAs (Decidable (c ≠ '(' ∧ c ≠ '\n'))

theorem plain_hexUpper {width n : Nat} {c : Char} (hc : c ∈ hexUpper width n) : Plain c := by
  obtain ⟨i, -, rfl⟩ := List.mem_map.mp hc
  have hall : ∀ m : Fin 16, Plain (Nat.digitChar m).toUpper := by decide
  exact hall ⟨n / 16 ^ i % 16, Nat.mod_lt _ (by decide)⟩

theorem plain_of_isDigit {c : Char} (hc : c.isDigit = true) : Plain c := by
  refine ⟨?_, ?_⟩
  · rintro rfl
    cases hc
  · rintro rfl
    cases hc

theorem plain_decimal {n : Nat} {c : Char} (hc : c ∈ decimal n) : Plain c :=
  plain_of_isDigit (Nat.isDigit_of_mem_toDigits (by decide) (by decide) hc)

theorem plain_decimalInt {i : Int} {c : Char} (hc : c ∈ decimalInt i) : Plain c := by
  cases i with
  | ofNat n => exact plain_decimal hc
  | negSucc n =>
    rcases List.mem_cons.mp hc with rfl | hc
    · decide
    · exact plain_decimal hc

theorem plain_padded {width n : Nat} {c : Char} (hc : c ∈ padded width n) : Plain c := by
  rcases List.mem_append.mp hc with hc | hc
  · rw [List.eq_of_mem_replicate hc]
    decide
  · exact plain_decimal hc

theorem plain_paddedInt {width : Nat} {i : Int} {c : Char} (hc : c ∈ paddedInt width i) :
    Plain c := by
  cases i with
  | ofNat n => exact plain_padded hc
  | negSucc n =>
    rcases List.mem_cons.mp hc with rfl | hc
    · decide
    · exact plain_padded hc

theorem plain_dataHex {frame : CanFrame} {c : Char} (hc : c ∈ dataHex frame) : Plain c := by
  obtain ⟨b, -, hc⟩ := List.mem_flatMap.mp hc
  exact plain_hexUpper hc

-- A line opens with a parenthesis, ends with a newline, and has nothing of the
-- kind between but what is in the name of the interface.
theorem candumpLine_shape (msg : CanMessage) (tv : Timeval) (iface : CStr) :
    ∃ before after, (∀ c ∈ before, Plain c) ∧ (∀ c ∈ after, Plain c) ∧
      candumpLine msg tv iface = '(' :: (before ++ iface ++ after ++ ['\n']) := by
  refine ⟨decimalInt (stamp msg tv).1 ++ lit "." ++ paddedInt 6 (stamp msg tv).2 ++ lit ") ",
    lit " " ++ hexUpper 8 msg.frame.id.toNat ++ lit "#" ++ dataHex msg.frame, ?_, ?_, ?_⟩
  · intro c hc
    simp only [List.mem_append] at hc
    rcases hc with ((hc | hc) | hc) | hc
    · exact plain_decimalInt hc
    · rw [List.mem_singleton.mp hc]
      decide
    · exact plain_paddedInt hc
    · have hall : (lit ") ").all (fun c => decide (Plain c)) = true := by decide
      exact of_decide_eq_true (List.all_eq_true.mp hall c hc)
  · intro c hc
    simp only [List.mem_append] at hc
    rcases hc with ((hc | hc) | hc) | hc
    · rw [List.mem_singleton.mp hc]
      decide
    · exact plain_hexUpper hc
    · rw [List.mem_singleton.mp hc]
      decide
    · exact plain_dataHex hc
  · simp [candumpLine, lit]

variable {iface : CStr}

theorem isRecord_candumpLine (hiface : '\n' ∉ iface) (msg : CanMessage) (tv : Timeval) :
    IsRecord '\n' (candumpLine msg tv iface) := by
  obtain ⟨before, after, hbefore, hafter, hline⟩ := candumpLine_shape msg tv iface
  refine ⟨'(' :: (before ++ iface ++ after), ?_, by rw [hline]; rfl⟩
  simp only [List.mem_cons, List.mem_append]
  rintro (h | (h | h) | h)
  · cases h
  · exact (hbefore _ h).2 rfl
  · exact hiface h
  · exact (hafter _ h).2 rfl

theorem count_candumpLine (msg : CanMessage) (tv : Timeval) :
    (candumpLine msg tv iface).count '(' = iface.count '(' + 1 := by
  obtain ⟨before, after, hbefore, hafter, hline⟩ := candumpLine_shape msg tv iface
  have hb : before.count '(' = 0 := List.count_eq_zero.mpr fun h => (hbefore _ h).1 rfl
  have ha : after.count '(' = 0 := List.count_eq_zero.mpr fun h => (hafter _ h).1 rfl
  rw [hline, List.count_cons_self, List.count_append, List.count_append, List.count_append, hb, ha]
  simp

theorem unfinished_candumpLine (msg : CanMessage) (tv : Timeval) :
    unfinished '\n' (candumpLine msg tv iface) = [] := by
  obtain ⟨before, after, -, -, hline⟩ := candumpLine_shape msg tv iface
  rw [hline]
  exact unfinished_concat '\n' ('(' :: (before ++ iface ++ after))

-- Going on at the offset loses one line at the most, and no part of another.
theorem records_resync {buf : CStr} (hwhole : unfinished '\n' buf = []) (sent : Nat) :
    ∃ cut, records '\n' buf = records '\n' (buf.take sent) ++ cut ++
        records '\n' (buf.drop (candumpResyncOffset buf sent)) ∧
      unfinished '\n' (buf.drop (candumpResyncOffset buf sent)) = [] := by
  have hsplit := records_append '\n' (buf.take sent) (buf.drop sent)
  have hrest := unfinished_append '\n' (buf.take sent) (buf.drop sent)
  rw [List.take_append_drop] at hsplit hrest
  rw [hwhole] at hrest
  rw [candumpResyncOffset]
  split_ifs with hall hstart
  · refine ⟨[], ?_, ?_⟩
    · rw [List.take_of_length_le hall, List.drop_length, records_of_not_mem List.not_mem_nil,
        List.append_nil, List.append_nil]
    · rw [List.drop_length]
      rfl
  · have hnone : unfinished '\n' (buf.take sent) = [] := by
      by_cases hzero : sent = 0
      · subst hzero
        rfl
      · obtain ⟨hlt, hget⟩ := List.getElem?_eq_some_iff.mp (hstart.resolve_left hzero)
        have htake : buf.take sent = buf.take (sent - 1) ++ ['\n'] := by
          rw [← hget, List.take_append_getElem, Nat.sub_add_cancel (Nat.pos_of_ne_zero hzero)]
        rw [htake]
        exact unfinished_concat '\n' _
    rw [hnone, List.nil_append] at hsplit hrest
    exact ⟨[], by rw [List.append_nil, hsplit], hrest.symm⟩
  · cases hfind : (buf.drop sent).findIdx? (· = '\n') with
    | none =>
      dsimp only
      refine ⟨records '\n' (unfinished '\n' (buf.take sent) ++ buf.drop sent), ?_, ?_⟩
      · rw [List.drop_length, records_of_not_mem List.not_mem_nil, List.append_nil, ← hsplit]
      · rw [List.drop_length]
        rfl
    | some i =>
      dsimp only
      obtain ⟨hi, hnewline, hbefore⟩ := List.findIdx?_eq_some_iff_getElem.mp hfind
      have hnewline := of_decide_eq_true hnewline
      have hcut : (buf.drop sent).take i ++ ['\n'] ++ buf.drop (sent + i + 1) =
          buf.drop sent := by
        rw [← hnewline, List.take_append_getElem, ← List.drop_drop, ← List.drop_drop,
          List.drop_drop, List.take_append_drop]
      have hclean : '\n' ∉ unfinished '\n' (buf.take sent) ++ (buf.drop sent).take i := by
        intro hmem
        rcases List.mem_append.mp hmem with hmem | hmem
        · exact not_mem_unfinished '\n' _ hmem
        · obtain ⟨j, hj, heq⟩ := List.mem_iff_getElem.mp hmem
          rw [List.length_take] at hj
          rw [List.getElem_take] at heq
          exact hbefore j (by omega) (decide_eq_true heq)
      have hrecord := isRecord_concat hclean
      rw [← hcut, ← List.append_assoc, ← List.append_assoc] at hsplit hrest
      rw [records_record_append hrecord] at hsplit
      rw [unfinished_record_append hrecord] at hrest
      refine ⟨[unfinished '\n' (buf.take sent) ++ (buf.drop sent).take i ++ ['\n']], ?_,
        hrest.symm⟩
      rw [hsplit]
      simp only [List.append_assoc, List.singleton_append]

theorem candumpResyncOffset_le (buf : CStr) (sent : Nat) :
    candumpResyncOffset buf sent ≤ buf.length := by
  rw [candumpResyncOffset]
  split_ifs with hall hstart
  · exact Nat.le_refl _
  · omega
  · cases hfind : (buf.drop sent).findIdx? (· = '\n') with
    | none => exact Nat.le_refl _
    | some i =>
      obtain ⟨hi, -⟩ := List.findIdx?_eq_some_iff_getElem.mp hfind
      rw [List.length_drop] at hi
      dsimp only
      omega

-- The offset is the first line end, from what was sent on.
theorem candumpResyncOffset_lt_iff {buf : CStr} {sent bound : Nat} (hpos : 0 < sent)
    (hlt : sent < buf.length) (hbound : bound ≤ buf.length) :
    candumpResyncOffset buf sent < bound ↔
      ∃ b, sent ≤ b ∧ b < bound ∧ buf[b - 1]? = some '\n' := by
  rw [candumpResyncOffset, if_neg (Nat.not_le_of_lt hlt)]
  split_ifs with hstart
  · have hnewline := hstart.resolve_left (Nat.ne_of_gt hpos)
    constructor
    · intro h
      exact ⟨sent, Nat.le_refl _, h, hnewline⟩
    · intro ⟨b, hle, h, _⟩
      omega
  · have hnot : ¬buf[sent - 1]? = some '\n' := fun h => hstart (.inr h)
    cases hfind : (buf.drop sent).findIdx? (· = '\n') with
    | none =>
      refine iff_of_false (Nat.not_lt_of_le hbound) ?_
      rintro ⟨b, hle, h, hnewline⟩
      have hmem : '\n' ∈ buf.drop sent := by
        by_cases hsame : b = sent
        · exact absurd (hsame ▸ hnewline) hnot
        · apply List.mem_iff_getElem?.mpr
          refine ⟨b - 1 - sent, ?_⟩
          rw [List.getElem?_drop, show sent + (b - 1 - sent) = b - 1 by omega, hnewline]
      have hnone := List.findIdx?_eq_none_iff.mp hfind '\n' hmem
      simp at hnone
    | some i =>
      dsimp only
      obtain ⟨hi, hnewline, hbefore⟩ := List.findIdx?_eq_some_iff_getElem.mp hfind
      have hnewline := of_decide_eq_true hnewline
      constructor
      · intro h
        refine ⟨sent + i + 1, by omega, h, ?_⟩
        rw [Nat.add_sub_cancel, ← List.getElem?_drop, List.getElem?_eq_getElem hi, hnewline]
      · intro ⟨b, hle, h, hb⟩
        by_contra hge
        by_cases hsame : b = sent
        · exact hnot (hsame ▸ hb)
        · apply hbefore (b - 1 - sent) (by omega)
          have hget : (buf.drop sent)[b - 1 - sent]? = some '\n' := by
            rw [List.getElem?_drop, show sent + (b - 1 - sent) = b - 1 by omega, hb]
          exact decide_eq_true (List.getElem?_eq_some_iff.mp hget).2

end Espos.N2k
