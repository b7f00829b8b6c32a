import Mathlib.Logic.Function.Basic
import Espos.N2k.Transmission

-- The frames that the driver does not take wait for it in a ring, in their order.

namespace Espos.N2k

open Espos.Run

-- The buffer of a node, of which one place stays free, and the driver: what it has
-- taken, and how often it has been offered a frame.
structure SendBuffer where
  size : Nat
  buf : Nat → CanFrame
  read : Nat
  write : Nat
  sent : List CanFrame
  attempts : Nat

section Sending

-- Which of the offers the driver takes.
variable (accepts : Nat → Bool)

def canSendFrame (b : SendBuffer) (frame : CanFrame) : Bool × SendBuffer :=
  let taken := accepts b.attempts
  (taken, { b with
    attempts := b.attempts + 1
    sent := if taken then b.sent ++ [frame] else b.sent })

-- There are no more frames than places.
def sendFrames : Nat → SendBuffer → Bool × SendBuffer
  | 0, b => (true, b)
  | rounds + 1, b =>
    if b.read = b.write then (true, b)
    else
      let temp := (b.read + 1) % b.size
      let r := canSendFrame accepts b (b.buf temp)
      if r.1 then sendFrames rounds { r.2 with read := temp } else (false, r.2)

-- `GetNextFreeCANSendFrame`, and what is copied there
def bufferFrame (b : SendBuffer) (frame : CanFrame) : Bool × SendBuffer :=
  let temp := (b.write + 1) % b.size
  if temp ≠ b.read then (true, { b with buf := Function.update b.buf temp frame, write := temp })
  else (false, b)

def sendFrame (b : SendBuffer) (frame : CanFrame) : Bool × SendBuffer :=
  let flushed := sendFrames accepts b.size b
  if flushed.1 then
    let r := canSendFrame accepts flushed.2 frame
    if r.1 then r else bufferFrame r.2 frame
  else bufferFrame flushed.2 frame

-- The loop of `SendMsg`, as long as there is room: its result, and how many frames
-- have found some.
def sendFastPacket (frame : Nat → CanFrame) : Nat → Nat → SendBuffer → Bool × Nat × SendBuffer
  | 0, i, b => (true, i, b)
  | frames + 1, i, b =>
    let r := sendFrame accepts b (frame i)
    if r.1 then sendFastPacket frame frames (i + 1) r.2 else (false, i, r.2)

structure Device where
  counters : List UInt32
  buffer : SendBuffer

inductive Use where
  | send (msg : N2kMsg)
  | flush

-- What a device does. It sends what `SendMsg` makes of a message, with its result.
def use (d : Device) : Use → Option (Bool × Send) × Device
  | .send msg =>
    let sequence := (getSequenceCounter msg.pgn d.counters).1
    let r := sendFastPacket accepts (msg.frame sequence) msg.frames 0 d.buffer
    let sent := sendMsg d.counters msg r.2.1
    (some (r.1, sent.1), ⟨sent.2, r.2.2⟩)
  | .flush => (none, { d with buffer := (sendFrames accepts d.buffer.size d.buffer).2 })

end Sending

namespace SendBuffer

def count (b : SendBuffer) : Nat :=
  if b.read ≤ b.write then b.write - b.read else b.write + b.size - b.read

-- The frames that wait, the oldest first.
def waiting (b : SendBuffer) : List CanFrame :=
  (List.range b.count).map fun i => b.buf ((b.read + 1 + i) % b.size)

-- All that has been put in.
def all (b : SendBuffer) : List CanFrame :=
  b.sent ++ b.waiting

structure Valid (b : SendBuffer) : Prop where
  read_lt : b.read < b.size
  write_lt : b.write < b.size

end SendBuffer

open SendBuffer

variable {accepts : Nat → Bool} {b : SendBuffer} {frame : CanFrame}

theorem wrap_succ {i n : Nat} (hi : i < n) : (i + 1) % n = if i + 1 = n then 0 else i + 1 := by
  split_ifs with h
  · rw [h, Nat.mod_self]
  · exact Nat.mod_eq_of_lt (by omega)

theorem waiting_nil (h : b.read = b.write) : b.waiting = [] := by
  rw [waiting, count, if_pos (le_of_eq h), h, Nat.sub_self]
  rfl

-- The oldest of those that wait leaves at one end
theorem waiting_next (h : b.Valid) (hsome : b.read ≠ b.write) :
    b.waiting = b.buf ((b.read + 1) % b.size) ::
      waiting { b with read := (b.read + 1) % b.size } := by
  obtain ⟨hread, hwrite⟩ := h
  have hwrap := wrap_succ hread
  have hcount : b.count = count { b with read := (b.read + 1) % b.size } + 1 := by
    simp only [count, hwrap]
    split_ifs <;> omega
  rw [waiting, waiting, hcount, List.range_succ_eq_map, List.map_cons, List.map_map]
  congr 1
  refine List.map_congr_left fun i _ => ?_
  simp only [Function.comp_apply, Nat.add_assoc, Nat.mod_add_mod]
  congr 2
  omega

-- and a new one comes in at the other, if there is a place.
theorem bufferFrame_true (h : b.Valid) (hput : (bufferFrame b frame).1 = true) :
    (bufferFrame b frame).2.waiting = b.waiting ++ [frame] := by
  obtain ⟨hread, hwrite⟩ := h
  have hwrap := wrap_succ hwrite
  simp only [bufferFrame] at hput ⊢
  split_ifs at hput ⊢ with hfree
  have hcount : count { b with
      buf := Function.update b.buf ((b.write + 1) % b.size) frame
      write := (b.write + 1) % b.size } = b.count + 1 := by
    rw [hwrap] at hfree
    simp only [count, hwrap]
    split_ifs at hfree ⊢ <;> omega
  have hlast : (b.read + 1 + b.count) % b.size = (b.write + 1) % b.size := by
    rw [count]
    split_ifs with hle
    · congr 1
      omega
    · have hround : b.read + 1 + (b.write + b.size - b.read) = b.write + 1 + b.size := by omega
      rw [hround, Nat.add_mod_right]
  have hothers : ∀ i < b.count, (b.read + 1 + i) % b.size ≠ (b.write + 1) % b.size := by
    intro i hi
    have hone : (b.read + 1 + i) % b.size =
        if b.read + 1 + i < b.size then b.read + 1 + i else b.read + 1 + i - b.size := by
      split_ifs with hlt
      · exact Nat.mod_eq_of_lt hlt
      · rw [count] at hi
        rw [Nat.mod_eq_sub_mod (by omega)]
        exact Nat.mod_eq_of_lt (by split_ifs at hi <;> omega)
    rw [hone, hwrap]
    rw [count] at hi
    split_ifs at hi ⊢ <;> omega
  rw [waiting, hcount, List.range_succ, List.map_append, List.map_singleton, waiting]
  congr 1
  · refine List.map_congr_left fun i hi => ?_
    exact Function.update_of_ne (hothers i (List.mem_range.mp hi)) _ _
  · dsimp only
    rw [hlast, Function.update_self]

theorem bufferFrame_false (hput : ¬(bufferFrame b frame).1 = true) :
    (bufferFrame b frame).2 = b := by
  simp only [bufferFrame] at hput ⊢
  split_ifs at hput ⊢
  · exact absurd rfl hput
  · rfl

theorem bufferFrame_valid (h : b.Valid) : (bufferFrame b frame).2.Valid := by
  simp only [bufferFrame]
  split_ifs
  · exact ⟨h.read_lt, Nat.mod_lt _ (Nat.zero_lt_of_lt h.read_lt)⟩
  · exact h

-- What is taken or buffered of a frame is put in; what is neither leaves it as it was.
theorem all_bufferFrame (h : b.Valid) (frame : CanFrame) :
    (bufferFrame b frame).2.all = b.all ++ if (bufferFrame b frame).1 then [frame] else [] := by
  by_cases hput : (bufferFrame b frame).1 = true
  · have hsent : (bufferFrame b frame).2.sent = b.sent := by
      rw [bufferFrame]
      split_ifs <;> rfl
    rw [if_pos hput, all, all, hsent, bufferFrame_true h hput, List.append_assoc]
  · rw [if_neg hput, bufferFrame_false hput, List.append_nil]

theorem length_waiting (b : SendBuffer) : b.waiting.length = b.count := by
  rw [waiting, List.length_map, List.length_range]

theorem sendFrames_spec (accepts : Nat → Bool) {rounds : Nat} (h : b.Valid)
    (hrounds : b.count ≤ rounds) :
    (sendFrames accepts rounds b).2.Valid ∧ (sendFrames accepts rounds b).2.all = b.all ∧
      ((sendFrames accepts rounds b).1 = true → (sendFrames accepts rounds b).2.waiting = []) := by
  induction rounds generalizing b with
  | zero =>
    refine ⟨h, rfl, fun _ => List.eq_nil_of_length_eq_zero ?_⟩
    rw [sendFrames, length_waiting]
    exact Nat.le_zero.mp hrounds
  | succ rounds ih =>
    rw [sendFrames]
    by_cases hnone : b.read = b.write
    · rw [if_pos hnone]
      exact ⟨h, rfl, fun _ => waiting_nil hnone⟩
    rw [if_neg hnone]
    have hnext := waiting_next h hnone
    have hcount := congrArg List.length hnext
    rw [length_waiting, List.length_cons, length_waiting] at hcount
    simp only [canSendFrame]
    by_cases htaken : accepts b.attempts = true
    · simp only [htaken, if_true]
      have hvalid : Valid ⟨b.size, b.buf, (b.read + 1) % b.size, b.write,
          b.sent ++ [b.buf ((b.read + 1) % b.size)], b.attempts + 1⟩ :=
        ⟨Nat.mod_lt _ (Nat.zero_lt_of_lt h.read_lt), h.write_lt⟩
      obtain ⟨hlast, hall, hempty⟩ := ih hvalid (by
        rw [hcount] at hrounds
        exact Nat.le_of_succ_le_succ hrounds)
      refine ⟨hlast, hall.trans ?_, hempty⟩
      rw [all, all, hnext, List.append_assoc]
      rfl
    · simp only [htaken, if_false, Bool.false_eq_true]
      exact ⟨⟨h.read_lt, h.write_lt⟩, rfl, False.elim⟩

theorem count_le (h : b.Valid) : b.count ≤ b.size := by
  have hread := h.read_lt
  have hwrite := h.write_lt
  rw [count]
  split_ifs <;> omega

theorem canSendFrame_valid (accepts : Nat → Bool) (h : b.Valid) (frame : CanFrame) :
    (canSendFrame accepts b frame).2.Valid :=
  ⟨h.read_lt, h.write_lt⟩

theorem all_canSendFrame_true (hnone : b.waiting = [])
    (htaken : (canSendFrame accepts b frame).1 = true) :
    (canSendFrame accepts b frame).2.all = b.all ++ [frame] := by
  have hwaiting : (canSendFrame accepts b frame).2.waiting = [] := hnone
  simp only [canSendFrame] at htaken
  rw [all, all, hwaiting, hnone, canSendFrame]
  simp [htaken]

theorem all_canSendFrame_false (htaken : ¬(canSendFrame accepts b frame).1 = true) :
    (canSendFrame accepts b frame).2.all = b.all := by
  have hwaiting : (canSendFrame accepts b frame).2.waiting = b.waiting := rfl
  simp only [canSendFrame] at htaken
  rw [all, all, hwaiting, canSendFrame]
  simp [htaken]

-- A frame that finds room goes behind all that were put in before.
theorem sendFrame_spec (accepts : Nat → Bool) (h : b.Valid) (frame : CanFrame) :
    (sendFrame accepts b frame).2.Valid ∧
      (sendFrame accepts b frame).2.all =
        b.all ++ if (sendFrame accepts b frame).1 then [frame] else [] := by
  obtain ⟨hvalid, hall, hempty⟩ := sendFrames_spec accepts h (count_le h)
  rw [sendFrame]
  generalize sendFrames accepts b.size b = flushed at hvalid hall hempty ⊢
  dsimp only
  by_cases hflushed : flushed.1 = true
  · rw [if_pos hflushed]
    have hnone := hempty hflushed
    by_cases htaken : (canSendFrame accepts flushed.2 frame).1 = true
    · rw [if_pos htaken, if_pos htaken, all_canSendFrame_true hnone htaken, hall]
      exact ⟨canSendFrame_valid accepts hvalid frame, rfl⟩
    · rw [if_neg htaken, ← hall, ← all_canSendFrame_false htaken]
      have hvalid' := canSendFrame_valid accepts hvalid frame
      exact ⟨bufferFrame_valid hvalid', all_bufferFrame hvalid' frame⟩
  · rw [if_neg hflushed, ← hall]
    exact ⟨bufferFrame_valid hvalid, all_bufferFrame hvalid frame⟩

-- The frames up to the first that finds no room are put in.
theorem sendFastPacket_spec (accepts : Nat → Bool) (f : Nat → CanFrame) (frames i : Nat)
    (h : b.Valid) :
    ∃ k, (sendFastPacket accepts f frames i b).1 = decide (frames ≤ k) ∧
      (sendFastPacket accepts f frames i b).2.1 = i + k ∧ k ≤ frames ∧
      (sendFastPacket accepts f frames i b).2.2.Valid ∧
      (sendFastPacket accepts f frames i b).2.2.all = b.all ++ (List.range' i k).map f := by
  induction frames generalizing i b with
  | zero => exact ⟨0, rfl, rfl, le_rfl, h, (List.append_nil _).symm⟩
  | succ frames ih =>
    obtain ⟨hvalid, hall⟩ := sendFrame_spec accepts h (f i)
    rw [sendFastPacket]
    by_cases hroom : (sendFrame accepts b (f i)).1 = true
    · obtain ⟨k, hresult, hk, hle, hvalid', hall'⟩ := ih (i + 1) hvalid
      rw [if_pos hroom] at hall ⊢
      refine ⟨k + 1, ?_, by rw [hk]; omega, by omega, hvalid', ?_⟩
      · rw [hresult, decide_eq_decide]
        omega
      · rw [hall', hall, List.range'_succ, List.map_cons, List.append_assoc,
          List.singleton_append]
    · rw [if_neg hroom] at hall ⊢
      exact ⟨0, rfl, rfl, Nat.zero_le _, hvalid, hall⟩

-- What goes into the buffer and to the driver is what the messages transmit, and
-- the result says whether it is all of them.
structure Put (before after : SendBuffer) (sent : List (Bool × Send)) : Prop where
  valid : after.Valid
  all : after.all = before.all ++ sent.flatMap fun r => r.2.transmitted
  results : ∀ r ∈ sent, r.1 = r.2.whole

theorem use_put (accepts : Nat → Bool) {d : Device} (h : d.buffer.Valid) (e : Use) :
    Put d.buffer (use accepts d e).2.buffer (use accepts d e).1.toList := by
  cases e with
  | send msg =>
    obtain ⟨k, hresult, hk, hle, hvalid, hall⟩ := sendFastPacket_spec accepts
      (msg.frame (getSequenceCounter msg.pgn d.counters).1) msg.frames 0 h
    refine ⟨hvalid, hall.trans ?_, ?_⟩
    · rw [use, hk, Nat.zero_add, Option.toList_some, List.flatMap_singleton, Send.transmitted,
        sendMsg, Nat.min_eq_left hle, List.range_eq_range']
    · rw [use, hresult, hk, Nat.zero_add, Option.toList_some]
      exact List.forall_mem_singleton.mpr rfl
  | flush =>
    obtain ⟨hvalid, hall, -⟩ := sendFrames_spec accepts h (count_le h)
    exact ⟨hvalid, hall.trans (List.append_nil _).symm, fun _ hr => absurd hr List.not_mem_nil⟩

def results (accepts : Nat → Bool) (d : Device) (uses : List Use) : List (Bool × Send) :=
  (answers (use accepts) d uses).1.reduceOption

theorem results_put (accepts : Nat → Bool) {d : Device} (h : d.buffer.Valid) (uses : List Use) :
    Put d.buffer (answers (use accepts) d uses).2.buffer (results accepts d uses) := by
  induction uses generalizing d with
  | nil => exact ⟨h, (List.append_nil _).symm, fun _ hr => absurd hr List.not_mem_nil⟩
  | cons e uses ih =>
    have hhere := use_put accepts h e
    have hrest := ih hhere.valid
    have hresults : results accepts d (e :: uses) =
        (use accepts d e).1.toList ++ results accepts (use accepts d e).2 uses := by
      rw [results, answers]
      cases (use accepts d e).1 <;> rfl
    rw [hresults]
    refine ⟨hrest.valid, hrest.all.trans ?_, ?_⟩
    · rw [hhere.all, List.append_assoc, ← List.flatMap_append]
    · intro r hr
      rcases List.mem_append.mp hr with hr | hr
      · exact hhere.results r hr
      · exact hrest.results r hr

def bufferAfter (accepts : Nat → Bool) (d : Device) (uses : List Use) : SendBuffer :=
  (answers (use accepts) d uses).2.buffer

-- A device that has sent nothing yet.
def freshDevice (counters : List UInt32) (size : Nat) (place : Nat → CanFrame) : Device :=
  ⟨counters, size, place, 0, 0, [], 0⟩

theorem fresh_put (accepts : Nat → Bool) {size : Nat} (hsize : 0 < size) (counters : List UInt32)
    (place : Nat → CanFrame) (uses : List Use) :
    Put (freshDevice counters size place).buffer
      (bufferAfter accepts (freshDevice counters size place) uses)
      (results accepts (freshDevice counters size place) uses) :=
  results_put accepts ⟨hsize, hsize⟩ uses

-- Whatever frames the driver takes at once, later or not at all for now, those it has
-- taken and those that wait are the frames of the messages in their order, as many
-- of each as there was room for: all of them where `SendMsg` said so.
theorem sent_in_order (accepts : Nat → Bool) (counters : List UInt32) {size : Nat}
    (hsize : 0 < size) (place : Nat → CanFrame) (uses : List Use) :
    (bufferAfter accepts (freshDevice counters size place) uses).all =
        (results accepts (freshDevice counters size place) uses).flatMap
          (fun r => r.2.transmitted) ∧
      ∀ r ∈ results accepts (freshDevice counters size place) uses, r.1 = r.2.whole := by
  have hput := fresh_put accepts hsize counters place uses
  exact ⟨hput.all, hput.results⟩

-- A driver that takes one of three frames, and a message in the midst that is cut off.
def accepting (n : Nat) : Bool :=
  n % 3 = 0

def fixes : List Use :=
  [.send (position 7 15 (by decide)), .send (position 7 43 (by decide)), .flush, .flush,
    .send (position 7 8 (by decide)), .flush, .flush, .flush, .flush,
    .flush, .flush, .flush]

def blank : CanFrame :=
  canFrame 0 fun _ => 0

theorem fixes_in_order :
    (bufferAfter accepting (freshDevice [0, 0] 4 fun _ => blank) fixes).all =
        (results accepting (freshDevice [0, 0] 4 fun _ => blank) fixes).flatMap
          (fun r => r.2.transmitted) ∧
      ∀ r ∈ results accepting (freshDevice [0, 0] 4 fun _ => blank) fixes, r.1 = r.2.whole :=
  sent_in_order accepting [0, 0] (by decide) (fun _ => blank) fixes

-- From one device to another

theorem use_msg {d : Device} {e : Use} {r : Bool × Send} (h : (use accepts d e).1 = some r) :
    e = .send r.2.msg := by
  cases e with
  | send msg =>
    obtain rfl := Option.some.inj h
    rfl
  | flush => exact absurd h (Option.some_ne_none r).symm

theorem results_msg {d : Device} {uses : List Use} {r : Bool × Send}
    (h : r ∈ results accepts d uses) : .send r.2.msg ∈ uses := by
  induction uses generalizing d with
  | nil => exact absurd h List.not_mem_nil
  | cons e uses ih =>
    rw [results, answers, List.reduceOption_mem_iff, List.mem_cons] at h
    rcases h with h | h
    · rw [← use_msg h.symm]
      exact List.mem_cons_self
    · exact List.mem_cons_of_mem e (ih (List.reduceOption_mem_iff.mpr h))

theorem filter_transmitted {sends : List Send} (pgn : UInt32)
    (hsends : ∀ send ∈ sends, Sendable send.msg.pgn) :
    (sends.flatMap Send.transmitted).filter (fun frame => (canIdToN2k frame.id).pgn = pgn) =
      (sends.filter fun send => send.msg.pgn = pgn).flatMap Send.transmitted := by
  induction sends with
  | nil => rfl
  | cons send sends ih =>
    have hpgn : ∀ frame ∈ send.transmitted, (canIdToN2k frame.id).pgn = send.msg.pgn := by
      intro frame hframe
      obtain ⟨i, -, rfl⟩ := List.mem_map.mp hframe
      rw [frame_id, N2kMsg.canId, canIdToN2k_n2kToCanId (hsends send List.mem_cons_self)]
    rw [List.flatMap_cons, List.filter_append,
      ih fun send hsend => hsends send (List.mem_cons_of_mem _ hsend)]
    by_cases hmine : send.msg.pgn = pgn
    · rw [List.filter_cons_of_pos (by simp [hmine]), List.flatMap_cons,
        List.filter_eq_self.mpr]
      intro frame hframe
      rw [hpgn frame hframe]
      simpa using hmine
    · rw [List.filter_cons_of_neg (by simp [hmine]), List.filter_eq_nil_iff.mpr, List.nil_append]
      intro frame hframe
      rw [hpgn frame hframe]
      simpa using hmine

-- The messages of a PGN that a device has sent are handled by a receiver once each, in
-- order, whatever else they both do: those for which `SendMsg` said that it took them.
theorem handled_as_sent {accepts : Nat → Bool} {counters : List UInt32} {size : Nat}
    {place : Nat → CanFrame} {uses : List Use} {P : Pgns} {pgn : UInt32}
    {source destination : UInt8} {slots : List Slot} {arrivals : List Arrival}
    (hsize : 0 < size) (hpgn : Sendable pgn) (hfast : Fast P pgn)
    (huses : ∀ msg, Use.send msg ∈ uses → Sendable msg.pgn ∧ msg.source = source ∧
      (msg.pgn = pgn → msg.destination = destination))
    (hidle : ∀ s ∈ slots, s.freeMsg = true ∧ s.pgn = 0)
    (hempty : (bufferAfter accepts (freshDevice counters size place) uses).waiting = [])
    (hbus : (arrivals.filter fun a => a.heading.source = source).map Arrival.frame =
      (bufferAfter accepts (freshDevice counters size place) uses).sent)
    (hroom : Along (fun slots a => (arrive P slots a).2) (Roomy P) slots arrivals) :
    (handled P slots arrivals).filter (Received.mine pgn source) =
      ((results accepts (freshDevice counters size place) uses).filter
        fun r => r.1 && r.2.msg.pgn = pgn).map fun r => r.2.received := by
  have hput := fresh_put accepts hsize counters place uses
  have hmsgs : ∀ r ∈ results accepts (freshDevice counters size place) uses,
      Use.send r.2.msg ∈ uses := fun r => results_msg
  generalize results accepts (freshDevice counters size place) uses = rs at hput hmsgs ⊢
  generalize bufferAfter accepts (freshDevice counters size place) uses = last at *
  have hsent : last.sent = (rs.map Prod.snd).flatMap Send.transmitted := by
    have hall := hput.all
    rw [SendBuffer.all, hempty, List.append_nil] at hall
    rw [List.flatMap_map]
    exact hall
  have hsends : ∀ send ∈ rs.map Prod.snd, Sendable send.msg.pgn ∧ send.msg.source = source ∧
      (send.msg.pgn = pgn → send.msg.destination = destination) := by
    intro send hsend
    obtain ⟨r, hr, rfl⟩ := List.mem_map.mp hsend
    exact huses r.2.msg (hmsgs r hr)
  have hframes : (arrivals.filter (Arrival.mine pgn source)).map Arrival.frame =
      ((rs.map Prod.snd).filter fun send => send.msg.pgn = pgn).flatMap Send.transmitted := by
    rw [← filter_transmitted pgn fun send hsend => (hsends send hsend).1, ← hsent, ← hbus,
      List.filter_map, List.filter_filter]
    rfl
  have hown : ∀ send ∈ (rs.map Prod.snd).filter fun send => send.msg.pgn = pgn,
      send.msg.pgn = pgn ∧ send.msg.source = source ∧ send.msg.destination = destination := by
    intro send hsend
    obtain ⟨hmem, hmine⟩ := List.mem_filter.mp hsend
    obtain ⟨-, hsource, hdestination⟩ := hsends send hmem
    have hmine := of_decide_eq_true hmine
    exact ⟨hmine, hsource, hdestination hmine⟩
  have hresults : (rs.filter fun r => r.1 && r.2.msg.pgn = pgn) =
      rs.filter fun r => r.2.whole && r.2.msg.pgn = pgn :=
    List.filter_congr fun r hr => by rw [hput.results r hr]
  rw [handled_eq_sent hpgn hfast hidle hown hframes hroom, hresults, List.filter_filter,
    List.filter_map, List.map_map]
  rfl

def otherPosition : Send :=
  ⟨position 9 8 (by decide), 6, by decide, 20⟩

-- Two receivers of satellites take turns on the bus.
def takesTurns : List Arrival :=
  let mine := (bufferAfter accepting (freshDevice [0, 0] 4 fun _ => blank) fixes).sent
  let others := otherPosition.transmitted
  ((mine.take 2 ++ others.take 1 ++ (mine.drop 2).take 1 ++ others.drop 1 ++ mine.drop 3).map
    fun frame => ⟨1000, frame, []⟩)

def knowsPositions : Pgns :=
  ⟨fun pgn => pgn = 129029, fun pgn => pgn = 129029, false⟩

def idleSlots : List Slot :=
  .replicate 3 ⟨true, 0, 0, 0, 0xff, false, 0, 0, 0, []⟩

theorem fixes_handled :
    (handled knowsPositions idleSlots takesTurns).filter (Received.mine 129029 7) =
      ((results accepting (freshDevice [0, 0] 4 fun _ => blank) fixes).filter
        fun r => r.1 && r.2.msg.pgn = 129029).map fun r => r.2.received :=
  @handled_as_sent accepting [0, 0] 4 (fun _ => blank) fixes knowsPositions 129029 7 0xff idleSlots
    takesTurns (by decide) ⟨by decide, by decide⟩
    ⟨by decide, by decide, by decide, by decide, by decide⟩
    (by
      intro msg hmsg
      have hpositions : ∃ len h, msg = position 7 len h := by
        simp only [fixes, List.mem_cons, Use.send.injEq, reduceCtorEq, List.not_mem_nil, or_false,
          false_or] at hmsg
        rcases hmsg with rfl | rfl | rfl <;> exact ⟨_, _, rfl⟩
      obtain ⟨len, h, rfl⟩ := hpositions
      have hpgn : Sendable 129029 := ⟨by decide, by decide⟩
      exact ⟨hpgn, rfl, fun _ => rfl⟩)
    (by decide) (by decide +kernel) (by decide +kernel) (by decide +kernel)

end Espos.N2k
