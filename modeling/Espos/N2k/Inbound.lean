import Espos.N2k.Decode
import Mathlib.Data.List.Flatten
import Mathlib.Data.List.Induction

-- The lines a candump client sends, and the frames that go from them to the
-- transmitter.

namespace Espos.N2k

open Espos.Text Espos.Lines

-- `sizeof(line_buf) - 1`
def kLineMax : Nat := 127

def emptyMessage : CanMessage :=
  ⟨⟨0, true, false, 0, Vector.replicate 8 0⟩, 0⟩

-- The frame of a line that was cut from the stream, if it decodes and the filter
-- lets it pass. For the decoder a zero byte ends the line.
def handOver (txFilter : Option (CanFrame → Bool)) (line : CStr) : Option CanMessage :=
  let (ok, msg) := candumpDecode (line.takeWhile (· ≠ '\x00')) emptyMessage
  if ok && txFilter.all (fun allows => allows msg.frame) then some msg else none

-- What is in the line buffer, and what the transmitter was handed.
structure Inbound where
  lineBuf : CStr
  handed : List CanMessage
deriving DecidableEq

namespace Inbound

variable (txFilter : Option (CanFrame → Bool))

def init : Inbound :=
  ⟨[], []⟩

-- A full buffer is treated like the end of a line, and the byte is lost.
def receive (s : Inbound) (c : Char) : Inbound :=
  if c = '\n' ∨ kLineMax ≤ s.lineBuf.length then
    ⟨[], s.handed ++ (handOver txFilter s.lineBuf).toList⟩
  else { s with lineBuf := s.lineBuf ++ [c] }

-- What one call of `recv` brings.
def feed (s : Inbound) (recvBuf : CStr) : Inbound :=
  recvBuf.foldl (receive txFilter) s

def feeds (s : Inbound) (chunks : List CStr) : Inbound :=
  chunks.foldl (feed txFilter) s

end Inbound

section Cut

-- A line that is too long is cut after 127 bytes, and the byte at the cut is lost.
def cuts (line : CStr) : List CStr :=
  (List.range (line.length / (kLineMax + 1))).map fun k =>
    (line.drop (k * (kLineMax + 1))).take kLineMax

def cutEnd (line : CStr) : CStr :=
  line.drop (line.length / (kLineMax + 1) * (kLineMax + 1))

theorem length_cutEnd (line : CStr) : (cutEnd line).length = line.length % (kLineMax + 1) := by
  have hdiv := Nat.div_add_mod line.length (kLineMax + 1)
  rw [cutEnd, List.length_drop]
  rw [Nat.mul_comm] at hdiv
  omega

theorem cuts_of_short {line : CStr} (h : line.length ≤ kLineMax) :
    cuts line = [] ∧ cutEnd line = line := by
  have hzero : line.length / (kLineMax + 1) = 0 := Nat.div_eq_of_lt (Nat.lt_succ_of_le h)
  rw [cuts, cutEnd, hzero]
  exact ⟨rfl, by rw [Nat.zero_mul, List.drop_zero]⟩

-- All the pieces of a line that has ended.
def pieces (line : CStr) : List CStr :=
  cuts line ++ [cutEnd line]

theorem cuts_append {line : CStr} {n : Nat} (hn : n * (kLineMax + 1) ≤ line.length) (more : CStr) :
    (List.range n).map (fun k => ((line ++ more).drop (k * (kLineMax + 1))).take kLineMax) =
      (List.range n).map fun k => (line.drop (k * (kLineMax + 1))).take kLineMax := by
  refine List.map_congr_left fun k hk => ?_
  have hle : (k + 1) * (kLineMax + 1) ≤ n * (kLineMax + 1) :=
    Nat.mul_le_mul_right _ (List.mem_range.mp hk)
  rw [Nat.add_mul, Nat.one_mul] at hle
  rw [List.drop_append_of_le_length (by omega), List.take_append_of_le_length]
  rw [List.length_drop]
  omega

-- The pieces of a line that goes on by one byte.
theorem cuts_concat (line : CStr) (c : Char) :
    ((cutEnd line).length = kLineMax ∧ cuts (line ++ [c]) = cuts line ++ [cutEnd line] ∧
        cutEnd (line ++ [c]) = []) ∨
      (cutEnd line).length < kLineMax ∧ cuts (line ++ [c]) = cuts line ∧
        cutEnd (line ++ [c]) = cutEnd line ++ [c] := by
  have hlength := length_cutEnd line
  have hdiv := Nat.div_add_mod' line.length (kLineMax + 1)
  have hpos := Nat.add_one_pos kLineMax
  have hlt := Nat.mod_lt line.length hpos
  have hkeep := cuts_append (Nat.div_mul_le_self line.length (kLineMax + 1)) [c]
  have hdrop : (line ++ [c]).drop (line.length / (kLineMax + 1) * (kLineMax + 1)) =
      cutEnd line ++ [c] := by
    rw [List.drop_append_of_le_length (Nat.div_mul_le_self ..), cutEnd]
  have hlen : (line ++ [c]).length = line.length + 1 := by
    rw [List.length_append, List.length_singleton]
  by_cases hfull : line.length % (kLineMax + 1) = kLineMax
  · left
    have hnext : (line.length + 1) / (kLineMax + 1) = line.length / (kLineMax + 1) + 1 := by
      rw [Nat.div_eq_iff hpos, Nat.add_mul]
      omega
    refine ⟨hlength.trans hfull, ?_, ?_⟩
    · rw [cuts, hlen, hnext, List.range_succ, List.map_append, hkeep, List.map_singleton, hdrop,
        List.take_append_of_le_length (by omega), List.take_of_length_le (by omega)]
      rfl
    · rw [cutEnd, hlen, hnext, List.drop_eq_nil_iff, hlen, Nat.add_mul]
      omega
  · right
    have hnext : (line.length + 1) / (kLineMax + 1) = line.length / (kLineMax + 1) := by
      rw [Nat.div_eq_iff hpos]
      omega
    refine ⟨by omega, ?_, ?_⟩
    · rw [cuts, hlen, hnext, hkeep]
      rfl
    · rw [← hdrop, cutEnd, hlen, hnext]

-- A list is no longer than its part exactly where the rest contributes nothing.
theorem flatMap_append_eq_iff {α β : Type*} (f : α → List β) (p : α → Bool) (l : List α)
    (rest : List β) : l.flatMap f ++ rest = (l.filter p).flatMap f ↔
      (∀ x ∈ l, p x = false → f x = []) ∧ rest = [] := by
  induction l with
  | nil => simp
  | cons x l ih =>
    rw [List.flatMap_cons, List.append_assoc, List.forall_mem_cons, and_assoc]
    by_cases hx : p x = true
    · rw [List.filter_cons_of_pos hx, List.flatMap_cons, List.append_cancel_left_eq, ih]
      simp [hx]
    · rw [List.filter_cons_of_neg hx]
      have hle := ((List.filter_sublist (p := p) (l := l)).flatMap f).length_le
      constructor
      · intro h
        have hlen := congrArg List.length h
        simp only [List.length_append] at hlen
        have hnone : f x = [] := List.eq_nil_of_length_eq_zero (by omega)
        rw [hnone, List.nil_append] at h
        exact ⟨fun _ => hnone, ih.mp h⟩
      · intro h
        rw [h.1 (Bool.eq_false_of_not_eq_true hx), List.nil_append]
        exact ih.mpr h.2

end Cut

namespace Inbound

variable (txFilter : Option (CanFrame → Bool))

-- A line leaves behind what it leaves of its last piece.
theorem feed_line {line : CStr} (hline : '\n' ∉ line) (handed : List CanMessage) :
    feed txFilter ⟨[], handed⟩ line =
      ⟨cutEnd line, handed ++ (cuts line).filterMap (handOver txFilter)⟩ := by
  induction line using List.reverseRecOn with
  | nil => rw [(cuts_of_short (Nat.zero_le _)).1, (cuts_of_short (Nat.zero_le _)).2]; simp [feed]
  | append_singleton line c ih =>
    rw [List.mem_append, not_or] at hline
    have hc : c ≠ '\n' := fun h => hline.2 (h ▸ List.mem_singleton_self c)
    have hfeed := ih hline.1
    rw [feed] at hfeed
    rw [feed, List.foldl_append, hfeed, List.foldl_cons, List.foldl_nil, receive]
    dsimp only
    rcases cuts_concat line c with ⟨hfull, hcuts, hend⟩ | ⟨hroom, hcuts, hend⟩
    · rw [if_pos (.inr hfull.ge), hcuts, hend, List.filterMap_append, List.append_assoc]
      congr 2
    · rw [if_neg (not_or.mpr ⟨hc, Nat.not_le.mpr hroom⟩), hcuts, hend]

theorem feed_append (s : Inbound) (x y : CStr) :
    feed txFilter s (x ++ y) = feed txFilter (feed txFilter s x) y :=
  List.foldl_append

theorem feeds_eq (s : Inbound) (chunks : List CStr) :
    feeds txFilter s chunks = feed txFilter s chunks.flatten :=
  List.foldl_flatten.symm

theorem feed_record {line : CStr} (hline : '\n' ∉ line) (handed : List CanMessage) :
    feed txFilter ⟨[], handed⟩ (line ++ ['\n']) =
      ⟨[], handed ++ (pieces line).filterMap (handOver txFilter)⟩ := by
  rw [feed_append, feed_line txFilter hline, pieces, List.filterMap_append, ← List.append_assoc]
  rfl

-- The lines of a stream, without their ends.
def lines (stream : CStr) : List CStr :=
  (records '\n' stream).map List.dropLast

theorem feed_records {rs : List CStr} (hrs : ∀ r ∈ rs, IsRecord '\n' r)
    (handed : List CanMessage) :
    feed txFilter ⟨[], handed⟩ rs.flatten = ⟨[], handed ++ (rs.map List.dropLast).flatMap
      fun line => (pieces line).filterMap (handOver txFilter)⟩ := by
  induction rs generalizing handed with
  | nil => simp [feed]
  | cons r rs ih =>
    obtain ⟨line, hline, rfl⟩ := hrs r (List.mem_cons_self ..)
    rw [List.flatten_cons, feed_append, feed_record txFilter hline,
      ih fun r hr => hrs r (List.mem_cons_of_mem _ hr), List.map_cons, List.dropLast_concat,
      List.flatMap_cons, List.append_assoc]

theorem handed_feeds (chunks : List CStr) :
    (feeds txFilter init chunks).handed =
      (lines chunks.flatten).flatMap (fun line => (pieces line).filterMap (handOver txFilter)) ++
        (cuts (unfinished '\n' chunks.flatten)).filterMap (handOver txFilter) := by
  have hstream := flatten_records '\n' chunks.flatten
  have hrs : ∀ r ∈ records '\n' chunks.flatten, IsRecord '\n' r := fun r hr => isRecord_of_mem hr
  have hrecords := feed_records txFilter hrs []
  rw [feeds_eq, ← hstream, feed_append, init, hrecords,
    feed_line txFilter (not_mem_unfinished '\n' _), hstream]
  rfl

-- The frames are those of the whole lines that fit, each once and in order.
def WholeLines (chunks : List CStr) : Prop :=
  (feeds txFilter init chunks).handed =
    ((lines chunks.flatten).filter fun line => decide (line.length ≤ kLineMax)).filterMap
      (handOver txFilter)

-- No piece of a line that is too long is a frame, nor of one that has not ended.
structure CutsRefused (stream : CStr) : Prop where
  lines : ∀ line ∈ lines stream, kLineMax < line.length →
    ∀ piece ∈ pieces line, handOver txFilter piece = none
  rest : ∀ piece ∈ cuts (unfinished '\n' stream), handOver txFilter piece = none

-- The transmitter is handed the frames of whole lines only, and all of them, where
-- no line is too long but those whose pieces are refused.
theorem whole_lines_iff (txFilter : Option (CanFrame → Bool)) (chunks : List CStr) :
    WholeLines txFilter chunks ↔ CutsRefused txFilter chunks.flatten := by
  have hshort : ((lines chunks.flatten).filter fun line =>
      decide (line.length ≤ kLineMax)).filterMap (handOver txFilter) =
        ((lines chunks.flatten).filter fun line => decide (line.length ≤ kLineMax)).flatMap
          fun line => (pieces line).filterMap (handOver txFilter) := by
    rw [List.filterMap_eq_flatMap_toList]
    refine List.flatMap_congr fun line hline => ?_
    have hfits := of_decide_eq_true (List.mem_filter.mp hline).2
    rw [pieces, (cuts_of_short hfits).1, (cuts_of_short hfits).2]
    rfl
  rw [WholeLines, handed_feeds, hshort, flatMap_append_eq_iff]
  constructor
  · rintro ⟨hlines, hrest⟩
    refine ⟨fun line hline hlong => ?_, List.filterMap_eq_nil_iff.mp hrest⟩
    exact List.filterMap_eq_nil_iff.mp (hlines line hline (by simpa using hlong))
  · intro h
    refine ⟨fun line hline hlong => ?_, List.filterMap_eq_nil_iff.mpr h.rest⟩
    exact List.filterMap_eq_nil_iff.mpr (h.lines line hline (by simpa using hlong))

-- A client whose line is too long by the head has the rest of it sent as a frame.
def longLine : CStr :=
  List.replicate 128 'x' ++ lit "can0 1DEFFF03#01\n"

theorem cut_line_sent :
    (feeds none init [longLine]).handed.map (fun msg => msg.frame.id) = [0x1DEFFF03] ∧
      lines longLine = [longLine.dropLast] ∧ kLineMax < longLine.dropLast.length ∧
      ¬ WholeLines none [longLine] := by
  refine ⟨by decide +kernel, by decide +kernel, by decide +kernel, fun hwhole => ?_⟩
  have hlen := congrArg List.length hwhole
  revert hlen
  decide +kernel

end Inbound

end Espos.N2k
