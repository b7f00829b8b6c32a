import Mathlib.Data.List.OfFn
import Mathlib.Data.List.ReduceOption
import Espos.Lib.Run
import Espos.N2k.Candump

-- Messages of more than a frame: how a device puts them on the bus, and how a
-- node puts together what arrives from many devices at once.

namespace Espos.N2k

open Espos.Run

def maxDataLen : Nat := 223

-- A message to be sent: `dataLen` bytes of its array count.
structure N2kMsg where
  priority : UInt8
  pgn : UInt32
  source : UInt8
  destination : UInt8
  data : Vector UInt8 maxDataLen
  dataLen : Nat
  dataLen_le : dataLen ≤ maxDataLen

def N2kMsg.byte (msg : N2kMsg) (i : Nat) : UInt8 :=
  msg.data.toList.getD i 0

-- A message handed to the handlers.
structure Received where
  priority : UInt8
  pgn : UInt32
  source : UInt8
  destination : UInt8
  data : List UInt8
  tpMessage : Bool
deriving DecidableEq

-- What the receiver's lists of messages say of a PGN.
structure Pgns where
  known : UInt32 → Bool
  fastPacket : UInt32 → Bool
  handleOnlyKnown : Bool

def n2kToCanId (priority : UInt8) (pgn : UInt32) (source destination : UInt8) : UInt32 :=
  if (pgn >>> 8).toUInt8 < 240 then
    if pgn &&& 0xff ≠ 0 then 0
    else ((priority &&& 7).toUInt32 <<< 26) ||| (pgn <<< 8) ||| (destination.toUInt32 <<< 8) |||
      source.toUInt32
  else ((priority &&& 7).toUInt32 <<< 26) ||| (pgn <<< 8) ||| source.toUInt32

-- What the identifier of a frame says.
structure Heading where
  priority : UInt8
  pgn : UInt32
  source : UInt8
  destination : UInt8

def canIdToN2k (id : UInt32) : Heading :=
  let pf := (id >>> 16).toUInt8
  let ps := (id >>> 8).toUInt8
  let dp := (id >>> 24).toUInt8 &&& 1
  { priority := ((id >>> 26) &&& 7).toUInt8
    pgn :=
      if pf < 240 then (dp.toUInt32 <<< 16) ||| (pf.toUInt32 <<< 8)
      else (dp.toUInt32 <<< 16) ||| (pf.toUInt32 <<< 8) ||| ps.toUInt32
    source := id.toUInt8
    destination := if pf < 240 then ps else 0xff }

def nextSequence (sc : UInt32) : UInt32 :=
  if 7 < sc + 1 then 0 else sc + 1

-- The counters of a device, one for each PGN it names, with the sequence above
-- the PGN, and a last one for the others.
def getSequenceCounter (pgn : UInt32) : List UInt32 → UInt32 × List UInt32
  | [] => (0, [])
  | [common] => (nextSequence common, [nextSequence common])
  | counter :: rest =>
    if counter = 0 then (0, pgn :: rest)
    else if counter &&& 0x00ffffff = pgn then
      let sc := nextSequence (counter >>> 24)
      (sc, (pgn ||| (sc <<< 24)) :: rest)
    else
      let r := getSequenceCounter pgn rest
      (r.1, counter :: r.2)

theorem nextSequence_le (sc : UInt32) : nextSequence sc ≤ 7 := by
  rw [nextSequence]
  split_ifs with h
  · decide
  · exact UInt32.not_lt.mp h

theorem getSequenceCounter_le (pgn : UInt32) (counters : List UInt32) :
    (getSequenceCounter pgn counters).1 ≤ 7 := by
  induction counters using getSequenceCounter.induct pgn with
  | case1 => exact UInt32.le_iff_toNat_le.mpr (Nat.zero_le _)
  | case2 common => exact nextSequence_le common
  | case3 rest hrest =>
    rw [getSequenceCounter, if_pos rfl]
    · exact UInt32.le_iff_toNat_le.mpr (Nat.zero_le _)
    · exact hrest
  | case4 counter rest hrest hzero hpgn =>
    rw [getSequenceCounter, if_neg hzero, if_pos hpgn]
    · exact nextSequence_le _
    · exact hrest
  | case5 counter rest hrest hzero hpgn ih =>
    rw [getSequenceCounter, if_neg hzero, if_neg hpgn]
    · exact ih
    · exact hrest

-- The frame that `CANSendFrame` hands to the driver.
def canFrame (id : UInt32) (buf : Fin 8 → UInt8) : CanFrame :=
  ⟨id, true, false, 8, .ofFn buf⟩

def N2kMsg.canId (msg : N2kMsg) : UInt32 :=
  n2kToCanId msg.priority msg.pgn msg.source msg.destination

def N2kMsg.frames (msg : N2kMsg) : Nat :=
  if 6 < msg.dataLen then (msg.dataLen - 6 - 1) / 7 + 1 + 1 else 1

-- The `i`-th frame of a fast packet. The first has six bytes of the message,
-- whatever its length; each of the others goes on where the one before ended.
def N2kMsg.frame (msg : N2kMsg) (sequence : UInt32) (i : Nat) : CanFrame :=
  let head := UInt8.ofNat (i ||| (sequence <<< 5).toNat)
  if i = 0 then
    canFrame msg.canId fun j =>
      if j.val = 0 then head else if j.val = 1 then .ofNat msg.dataLen else msg.byte (j.val - 2)
  else
    let cur := 6 + 7 * (i - 1)
    canFrame msg.canId fun j =>
      if j.val = 0 then head
      else if cur + (j.val - 1) < msg.dataLen then msg.byte (cur + (j.val - 1))
      else 0xff

-- A fast packet of which the first `room` frames find their way into the send
-- buffer; `SendMsg` returns `true` when these are all of them.
structure Send where
  msg : N2kMsg
  sequence : UInt32
  sequence_le : sequence ≤ 7
  room : Nat

def Send.whole (send : Send) : Bool :=
  decide (send.msg.frames ≤ send.room)

def Send.transmitted (send : Send) : List CanFrame :=
  (List.range (min send.room send.msg.frames)).map (send.msg.frame send.sequence)

def sendMsg (counters : List UInt32) (msg : N2kMsg) (room : Nat) : Send × List UInt32 :=
  let r := getSequenceCounter msg.pgn counters
  (⟨msg, r.1, getSequenceCounter_le _ _, room⟩, r.2)

-- Reception

-- A place where a message is put together (`tN2kCANMsg`). `copied` are the bytes
-- of its array that have been written since its first frame.
structure Slot where
  freeMsg : Bool
  priority : UInt8
  pgn : UInt32
  source : UInt8
  destination : UInt8
  tpMessage : Bool
  msgTime : UInt32
  dataLen : Nat
  lastFrame : UInt8
  copied : List UInt8
deriving DecidableEq

namespace Slot

def freeMessage (s : Slot) : Slot :=
  { s with freeMsg := true, pgn := 0, dataLen := 0, msgTime := 0, source := 0 }

def copyBufToCanMsg (s : Slot) (start len : Nat) (buf : List UInt8) : Slot :=
  { s with copied := s.copied ++ ((buf.take len).drop start).take (maxDataLen - s.copied.length) }

def received (s : Slot) : Received :=
  ⟨s.priority, s.pgn, s.source, s.destination, s.copied.take s.dataLen, s.tpMessage⟩

def isFor (pgn : UInt32) (source destination : UInt8) (tp : Bool) (s : Slot) : Bool :=
  s.pgn = pgn && s.source = source && s.destination = destination && s.tpMessage = tp

def ready (s : Slot) : Bool :=
  decide (s.dataLen ≤ s.copied.length)

-- `Init`: what a new message starts from.
def init (h : Heading) (tp : Bool) (now : UInt32) : Slot :=
  ⟨false, h.priority, h.pgn, h.source, h.destination, tp, now, 0, 0, []⟩

end Slot

-- `N2kIsTimeBefore` and `N2kHasElapsed`
def isTimeBefore (t1 t2 : UInt32) : Bool :=
  t2 - t1 < 2147483647

def hasElapsed (start elapsed now : UInt32) : Bool :=
  now - (start + elapsed) < 2147483647

def maxN2kMsgBufTime : UInt32 := 100

-- The last place that is not younger than those before it and than `now`.
def oldestSlot (now : UInt32) (slots : List Slot) : Option Nat × UInt32 :=
  slots.zipIdx.foldl
    (fun oldest s => if isTimeBefore s.1.msgTime oldest.2 then (some s.2, s.1.msgTime) else oldest)
    (none, now)

-- A place that is free, or that is in use for the same message; failing that,
-- the oldest, if it has been waiting for too long.
def findFreeCanMsgIndex (slots : List Slot) (now pgn : UInt32) (source destination : UInt8)
    (tp : Bool) : List Slot × Option Nat :=
  match slots.findIdx? fun s => s.freeMsg || s.isFor pgn source destination tp with
  | some i => (slots, some i)
  | none =>
    let oldest := oldestSlot now slots
    if hasElapsed oldest.2 maxN2kMsgBufTime now then
      match oldest.1 with
      | some i => (slots.modify i Slot.freeMessage, some i)
      | none => (slots, none)
    else (slots, none)

def TP_CM : UInt32 := 60416

def TP_DT : UInt32 := 60160

-- A message that is complete is handed to the handlers and its place is freed.
def handReady (slots : List Slot) (i : Nat) : Option Received × List Slot :=
  match slots[i]? with
  | none => (none, slots)
  | some s => if s.ready then (some s.received, slots.set i s.freeMessage) else (none, slots)

def transportPgn (buf : List UInt8) : UInt32 :=
  (buf.getD 5 0).toUInt32 ||| ((buf.getD 6 0).toUInt32 <<< 8) ||| ((buf.getD 7 0).toUInt32 <<< 16)

-- The start of a message of the ISO transport protocol takes a place; the other
-- control messages are about what this device sends.
def tpControl (P : Pgns) (slots : List Slot) (now : UInt32) (h : Heading) (buf : List UInt8) :
    List Slot :=
  if buf.getD 0 0 = 32 ∨ buf.getD 0 0 = 16 then
    let pgn := transportPgn buf
    let nBytes := (buf.getD 1 0).toNat + 256 * (buf.getD 2 0).toNat
    match findFreeCanMsgIndex slots now pgn h.source h.destination true with
    | (slots, none) => slots
    | (slots, some i) =>
      if nBytes < maxDataLen ∧ (P.known pgn || !P.handleOnlyKnown) then
        let start := Slot.init { h with priority := 7, pgn := pgn } true now
        slots.set i { start with dataLen := nBytes }
      else slots
  else slots

-- The right packet goes behind those that are there; another one ends it all.
def addPacket (slots : List Slot) (i len : Nat) (buf : List UInt8) (s : Slot) :
    Option Received × List Slot :=
  if s.lastFrame.toNat + 1 = (buf.getD 0 0).toNat then
    handReady (slots.set i { s.copyBufToCanMsg 1 len buf with lastFrame := buf.getD 0 0 }) i
  else (none, slots.set i s.freeMessage)

def tpData (slots : List Slot) (now : UInt32) (h : Heading) (len : Nat) (buf : List UInt8) :
    Option Received × List Slot :=
  let found := slots.findIdx? fun s =>
    !s.freeMsg && s.tpMessage && s.destination = h.destination && s.source = h.source
  match found with
  | none => (none, slots)
  | some i =>
    match slots[i]? with
    | none => (none, slots)
    | some s => addPacket slots i len buf { s with msgTime := now }

def isFastPacketFirstFrame (b : UInt8) : Bool :=
  b &&& 0x1f = 0

-- The frame that starts a message.
def Slot.first (P : Pgns) (h : Heading) (now : UInt32) (len : Nat) (buf : List UInt8) : Slot :=
  let s := Slot.init h false now
  if P.fastPacket h.pgn then
    { s.copyBufToCanMsg 2 len buf with
      lastFrame := buf.getD 0 0
      dataLen := (buf.getD 1 0).toNat }
  else { s.copyBufToCanMsg 0 len buf with dataLen := len }

def firstFrame (P : Pgns) (slots : List Slot) (now : UInt32) (h : Heading) (len : Nat)
    (buf : List UInt8) : Option Received × List Slot :=
  match findFreeCanMsgIndex slots now h.pgn h.source h.destination false with
  | (slots, none) => (none, slots)
  | (slots, some i) => handReady (slots.set i (Slot.first P h now len buf)) i

def nextFrame (slots : List Slot) (h : Heading) (len : Nat) (buf : List UInt8) :
    Option Received × List Slot :=
  match slots.findIdx? fun s => s.pgn = h.pgn && s.source = h.source && !s.tpMessage with
  | none => (none, slots)
  | some i =>
    match slots[i]? with
    | none => (none, slots)
    | some s => addPacket slots i len buf s

-- A frame that is received, and the message it completes, which is handled
-- before the next.
def setN2kCanBufMsg (P : Pgns) (slots : List Slot) (now : UInt32) (h : Heading) (len : Nat)
    (buf : List UInt8) : Option Received × List Slot :=
  if h.pgn = TP_CM then (none, tpControl P slots now h buf)
  else if h.pgn = TP_DT then tpData slots now h len buf
  else if P.known h.pgn || !P.handleOnlyKnown then
    if P.fastPacket h.pgn && !isFastPacketFirstFrame (buf.getD 0 0) then nextFrame slots h len buf
    else firstFrame P slots now h len buf
  else (none, slots)

-- A frame from the driver at a time; a frame that is not full leaves what is
-- behind it in the buffer as it was.
structure Arrival where
  now : UInt32
  frame : CanFrame
  stale : List UInt8

namespace Arrival

def heading (a : Arrival) : Heading :=
  canIdToN2k a.frame.id

def len (a : Arrival) : Nat :=
  a.frame.dlc.toNat

def buf (a : Arrival) : List UInt8 :=
  a.frame.data.toList.take a.len ++ a.stale.drop a.len

def byte (a : Arrival) (i : Nat) : UInt8 :=
  a.buf.getD i 0

end Arrival

def arrive (P : Pgns) (slots : List Slot) (a : Arrival) : Option Received × List Slot :=
  setN2kCanBufMsg P slots a.now a.heading a.len a.buf

-- The messages that are handed to the handlers.
def handled (P : Pgns) (slots : List Slot) (arrivals : List Arrival) : List Received :=
  (answers (arrive P) slots arrivals).1.reduceOption

end Espos.N2k
