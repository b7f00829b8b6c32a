import Espos.Lib.Lists
import Espos.N2k.FastPacket

-- The messages of one PGN from one device, put together among those of all the
-- others, come out as they were sent.

namespace Espos.N2k

open Espos.Run Espos.Search

-- The receiver takes the PGN for a fast packet.
structure Fast (P : Pgns) (pgn : UInt32) : Prop where
  ne_zero : pgn ≠ 0
  ne_control : pgn ≠ TP_CM
  ne_data : pgn ≠ TP_DT
  handled : (P.known pgn || !P.handleOnlyKnown) = true
  fastPacket : P.fastPacket pgn = true

def Slot.mine (pgn : UInt32) (source : UInt8) (s : Slot) : Bool :=
  s.pgn = pgn && s.source = source && !s.tpMessage

def Received.mine (pgn : UInt32) (source : UInt8) (r : Received) : Bool :=
  r.pgn = pgn && r.source = source && !r.tpMessage

def Arrival.mine (pgn : UInt32) (source : UInt8) (a : Arrival) : Bool :=
  a.heading.pgn = pgn && a.heading.source = source

-- The message whose first frame it is, and whether it is one of the ISO
-- transport protocol.
def Arrival.starts (P : Pgns) (a : Arrival) : Option (UInt32 × Bool) :=
  if a.heading.pgn = TP_CM then
    if a.byte 0 = 32 ∨ a.byte 0 = 16 then some (transportPgn a.buf, true) else none
  else if a.heading.pgn = TP_DT then none
  else if P.known a.heading.pgn || !P.handleOnlyKnown then
    if P.fastPacket a.heading.pgn && !isFastPacketFirstFrame (a.byte 0) then none
    else some (a.heading.pgn, false)
  else none

-- There is a place for the message it starts.
def Roomy (P : Pgns) (slots : List Slot) (a : Arrival) : Prop :=
  ∀ start, a.starts P = some start →
    (slots.any fun s =>
      s.freeMsg || s.isFor start.1 a.heading.source a.heading.destination start.2) = true

instance (P : Pgns) (slots : List Slot) (a : Arrival) : Decidable (Roomy P slots a) :=
  match h : a.starts P with
  | none => .isTrue (by rw [Roomy, h]; nofun)
  | some start => decidable_of_iff ((slots.any fun s =>
    s.freeMsg || s.isFor start.1 a.heading.source a.heading.destination start.2) = true)
    (by rw [Roomy, h]; simp)

-- How a message would be put together that has a place of its own.
def Slot.settle (s : Slot) : Option Received × Option Slot :=
  if s.ready then (some s.received, none) else (none, some s)

def Slot.next (s : Slot) (a : Arrival) : Slot :=
  { s.copyBufToCanMsg 1 a.len a.buf with lastFrame := a.byte 0 }

-- What a frame of it adds: a first frame starts anew, another one must go on
-- where the one before ended.
def assemble (P : Pgns) (t : Option Slot) (a : Arrival) : Option (Option Received × Option Slot) :=
  if isFastPacketFirstFrame (a.byte 0) then some (Slot.first P a.heading a.now a.len a.buf).settle
  else
    t.bind fun s =>
      if s.lastFrame.toNat + 1 = (a.byte 0).toNat then some (s.next a).settle else none

def assembled (P : Pgns) : Option Slot → List Arrival → Option (List Received)
  | _, [] => some []
  | t, a :: arrivals =>
    (assemble P t a).bind fun r =>
      (assembled P r.2 arrivals).map fun rest => r.1.toList ++ rest

-- The places agree with it: the first that is in use for the device and the PGN
-- is this message's.
structure Agrees (pgn : UInt32) (source destination : UInt8) (slots : List Slot)
    (t : Option Slot) : Prop where
  tidy : ∀ s ∈ slots, s.freeMsg = true → s.pgn = 0
  destination : ∀ s ∈ slots, s.mine pgn source = true → s.destination = destination
  place : ∀ s, t = some s → ∃ i, slots[i]? = some s ∧ slots.findIdx? (Slot.mine pgn source) = some i

variable {P : Pgns} {pgn : UInt32} {source destination : UInt8} {slots : List Slot}
  {t : Option Slot} {a : Arrival} {i : Nat} {s u : Slot}

theorem mine_freeMessage (hpgn : pgn ≠ 0) (s : Slot) : s.freeMessage.mine pgn source = false := by
  simp [Slot.mine, Slot.freeMessage, Ne.symm hpgn]

-- A place that is not this message's changes and does not become so.
theorem Agrees.set (h : Agrees pgn source destination slots t) (hold : slots[i]? = some u)
    (hu : u.mine pgn source = false) (hs : s.mine pgn source = false)
    (htidy : s.freeMsg = true → s.pgn = 0) :
    Agrees pgn source destination (slots.set i s) t := by
  constructor
  case tidy =>
    intro v hv
    rcases List.mem_or_eq_of_mem_set hv with hv | rfl
    · exact h.tidy v hv
    · exact htidy
  case destination =>
    intro v hv hmine
    rcases List.mem_or_eq_of_mem_set hv with hv | rfl
    · exact h.destination v hv hmine
    · exact absurd (hmine.symm.trans hs) nofun
  case place =>
    intro v hv
    obtain ⟨j, hj, hfind⟩ := h.place v hv
    refine ⟨j, ?_, (findIdx?_set_of_eq hold (hs.trans hu.symm)).trans hfind⟩
    have hne : i ≠ j := by
      rintro rfl
      obtain rfl : u = v := Option.some.inj (hold.symm.trans hj)
      obtain ⟨w, hw, hmine, -⟩ := findIdx?_eq_some.mp hfind
      obtain rfl : u = w := Option.some.inj (hj.symm.trans hw)
      exact absurd (hmine.symm.trans hu) nofun
    rw [List.getElem?_set_ne hne]
    exact hj

theorem handReady_other (h : Agrees pgn source destination slots t) (hpgn : pgn ≠ 0)
    (hold : slots[i]? = some u) (hu : u.mine pgn source = false) :
    (∀ r, (handReady slots i).1 = some r → r.mine pgn source = false) ∧
      Agrees pgn source destination (handReady slots i).2 t := by
  simp only [handReady, hold]
  split
  · refine ⟨fun r hr => ?_, h.set hold hu (mine_freeMessage hpgn u) fun _ => rfl⟩
    obtain rfl := Option.some.inj hr
    exact hu
  · exact ⟨nofun, h⟩

theorem set_handReady_other (h : Agrees pgn source destination slots t) (hpgn : pgn ≠ 0)
    (hold : slots[i]? = some u) (hu : u.mine pgn source = false) (hs : s.mine pgn source = false)
    (htidy : s.freeMsg = true → s.pgn = 0) :
    (∀ r, (handReady (slots.set i s) i).1 = some r → r.mine pgn source = false) ∧
      Agrees pgn source destination (handReady (slots.set i s) i).2 t := by
  obtain ⟨hi, -⟩ := List.getElem?_eq_some_iff.mp hold
  exact handReady_other (h.set hold hu hs htidy) hpgn (List.getElem?_set_self hi) hs

theorem addPacket_other (h : Agrees pgn source destination slots t) (hpgn : pgn ≠ 0)
    (hold : slots[i]? = some u) (hu : u.mine pgn source = false) (hs : s.mine pgn source = false)
    (htidy : s.freeMsg = true → s.pgn = 0) (len : Nat) (buf : List UInt8) :
    (∀ r, (addPacket slots i len buf s).1 = some r → r.mine pgn source = false) ∧
      Agrees pgn source destination (addPacket slots i len buf s).2 t := by
  rw [addPacket]
  split
  · refine set_handReady_other h hpgn hold hu ?_ htidy
    exact hs
  · exact ⟨nofun, h.set hold hu (mine_freeMessage hpgn s) fun _ => rfl⟩

theorem findFreeCanMsgIndex_of_any (now : UInt32) {pgn' : UInt32} {source' destination' : UInt8}
    {tp : Bool}
    (h : (slots.any fun s => s.freeMsg || s.isFor pgn' source' destination' tp) = true) :
    ∃ i s, slots[i]? = some s ∧ (s.freeMsg || s.isFor pgn' source' destination' tp) = true ∧
      (∀ j < i, ∀ u, slots[j]? = some u →
        (u.freeMsg || u.isFor pgn' source' destination' tp) = false) ∧
      findFreeCanMsgIndex slots now pgn' source' destination' tp = (slots, some i) := by
  rw [← List.findIdx?_isSome] at h
  obtain ⟨i, hi⟩ := Option.isSome_iff_exists.mp h
  obtain ⟨s, hs, hfits, hbefore⟩ := findIdx?_eq_some.mp hi
  refine ⟨i, s, hs, hfits, hbefore, ?_⟩
  rw [findFreeCanMsgIndex, hi]

theorem mine_first : (Slot.first P a.heading a.now a.len a.buf).mine pgn source =
    a.mine pgn source := by
  rw [Slot.first]
  split <;> simp [Slot.mine, Arrival.mine, Slot.init, Slot.copyBufToCanMsg]

theorem freeMsg_first : (Slot.first P a.heading a.now a.len a.buf).freeMsg = false := by
  rw [Slot.first]
  split <;> rfl

theorem destination_first : (Slot.first P a.heading a.now a.len a.buf).destination =
    a.heading.destination := by
  rw [Slot.first]
  split <;> rfl

-- A place that another frame's message finds is not this message's.
theorem Agrees.found (h : Agrees pgn source destination slots t) (hpgn : pgn ≠ 0)
    (hs : slots[i]? = some s) {pgn' : UInt32} {source' destination' : UInt8} {tp : Bool}
    (hfits : (s.freeMsg || s.isFor pgn' source' destination' tp) = true)
    (hother : tp = true ∨ ¬(pgn' = pgn ∧ source' = source)) : s.mine pgn source = false := by
  rw [Bool.or_eq_true] at hfits
  rcases hfits with hfree | hfor
  · have hzero := h.tidy s (List.mem_of_getElem? hs) hfree
    simp [Slot.mine, hzero, Ne.symm hpgn]
  · simp only [Slot.isFor, Bool.and_eq_true, decide_eq_true_eq] at hfor
    obtain ⟨⟨⟨rfl, rfl⟩, -⟩, htp⟩ := hfor
    rcases hother with rfl | hother
    · simp [Slot.mine, htp]
    · rw [← Bool.not_eq_true, Slot.mine]
      intro hmine
      simp only [Bool.and_eq_true, decide_eq_true_eq] at hmine
      exact hother hmine.1

theorem tpControl_other (h : Agrees pgn source destination slots t) (hpgn : pgn ≠ 0)
    (hcontrol : a.heading.pgn = TP_CM) (hroom : Roomy P slots a) :
    Agrees pgn source destination (tpControl P slots a.now a.heading a.buf) t := by
  rw [tpControl]
  split
  case isTrue hstart =>
    have hstarts : a.starts P = some (transportPgn a.buf, true) := by
      rw [Arrival.starts, if_pos hcontrol]
      exact if_pos hstart
    obtain ⟨i, s, hs, hfits, -, hfind⟩ := findFreeCanMsgIndex_of_any a.now (hroom _ hstarts)
    simp only [hfind]
    split
    · refine h.set hs (h.found hpgn hs hfits (.inl rfl)) ?_ nofun
      simp [Slot.mine, Slot.init]
    · exact h
  case isFalse => exact h

theorem tpData_other (h : Agrees pgn source destination slots t) (hpgn : pgn ≠ 0) (a : Arrival) :
    (∀ r, (tpData slots a.now a.heading a.len a.buf).1 = some r → r.mine pgn source = false) ∧
      Agrees pgn source destination (tpData slots a.now a.heading a.len a.buf).2 t := by
  rw [tpData]
  split
  case h_1 => exact ⟨nofun, h⟩
  case h_2 i hfind =>
    obtain ⟨s, hs, hfound, -⟩ := findIdx?_eq_some.mp hfind
    have htp : s.tpMessage = true := by
      simp only [Bool.and_eq_true] at hfound
      exact hfound.1.1.2
    have hmine : s.mine pgn source = false := by simp [Slot.mine, htp]
    simp only [hs]
    exact addPacket_other (s := { s with msgTime := a.now }) h hpgn hs hmine hmine
      (h.tidy s (List.mem_of_getElem? hs)) _ _

theorem nextFrame_other (h : Agrees pgn source destination slots t) (hpgn : pgn ≠ 0)
    (hother : a.mine pgn source = false) :
    (∀ r, (nextFrame slots a.heading a.len a.buf).1 = some r → r.mine pgn source = false) ∧
      Agrees pgn source destination (nextFrame slots a.heading a.len a.buf).2 t := by
  rw [nextFrame]
  split
  case h_1 => exact ⟨nofun, h⟩
  case h_2 i hfind =>
    obtain ⟨s, hs, hfound, -⟩ := findIdx?_eq_some.mp hfind
    have hmine : s.mine pgn source = false := by
      simp only [Bool.and_eq_true, decide_eq_true_eq] at hfound
      simpa [Slot.mine, Arrival.mine, hfound.1.1, hfound.1.2, hfound.2] using hother
    simp only [hs]
    exact addPacket_other h hpgn hs hmine hmine (h.tidy s (List.mem_of_getElem? hs)) _ _

theorem firstFrame_other (h : Agrees pgn source destination slots t) (hpgn : pgn ≠ 0)
    (hother : a.mine pgn source = false) (hroom : Roomy P slots a)
    (hstarts : a.starts P = some (a.heading.pgn, false)) :
    (∀ r, (firstFrame P slots a.now a.heading a.len a.buf).1 = some r →
      r.mine pgn source = false) ∧
      Agrees pgn source destination (firstFrame P slots a.now a.heading a.len a.buf).2 t := by
  obtain ⟨i, s, hs, hfits, -, hfind⟩ := findFreeCanMsgIndex_of_any a.now (hroom _ hstarts)
  have hheading : ¬(a.heading.pgn = pgn ∧ a.heading.source = source) := by
    simpa [Arrival.mine] using hother
  rw [firstFrame, hfind]
  refine set_handReady_other h hpgn hs (h.found hpgn hs hfits (.inr hheading)) ?_ ?_
  · rw [mine_first]
    exact hother
  · rw [freeMsg_first]
    exact nofun

theorem arrive_other (h : Agrees pgn source destination slots t) (hpgn : pgn ≠ 0)
    (hroom : Roomy P slots a) (hother : a.mine pgn source = false) :
    (∀ r, (arrive P slots a).1 = some r → r.mine pgn source = false) ∧
      Agrees pgn source destination (arrive P slots a).2 t := by
  rw [arrive, setN2kCanBufMsg]
  split_ifs with hcontrol hdata hhandled hnext
  · exact ⟨nofun, tpControl_other h hpgn hcontrol hroom⟩
  · exact tpData_other h hpgn a
  · exact nextFrame_other h hpgn hother
  · refine firstFrame_other h hpgn hother hroom ?_
    rw [Arrival.starts, if_neg hcontrol, if_neg hdata, if_pos hhandled]
    exact if_neg hnext
  · exact ⟨nofun, h⟩

-- Its own frames settle in the first place that is in use for it.
theorem handReady_own (h : Agrees pgn source destination slots t) (hpgn : pgn ≠ 0)
    (hi : i < slots.length) (hbefore : ∀ j < i, ∀ u, slots[j]? = some u → u.mine pgn source = false)
    (hmine : s.mine pgn source = true) (hdestination : s.destination = destination)
    (htaken : s.freeMsg = false) :
    (handReady (slots.set i s) i).1 = s.settle.1 ∧
      Agrees pgn source destination (handReady (slots.set i s) i).2 s.settle.2 := by
  have hset : (slots.set i s)[i]? = some s := List.getElem?_set_self hi
  simp only [handReady, hset, Slot.settle]
  split
  · refine ⟨rfl, ?_, ?_, nofun⟩
    · intro v hv hfree
      rw [List.set_set] at hv
      rcases List.mem_or_eq_of_mem_set hv with hv | rfl
      · exact h.tidy v hv hfree
      · rfl
    · intro v hv hv'
      rw [List.set_set] at hv
      rcases List.mem_or_eq_of_mem_set hv with hv | rfl
      · exact h.destination v hv hv'
      · exact absurd (hv'.symm.trans (mine_freeMessage hpgn s)) nofun
  · refine ⟨rfl, ?_, ?_, ?_⟩
    · intro v hv hfree
      rcases List.mem_or_eq_of_mem_set hv with hv | rfl
      · exact h.tidy v hv hfree
      · exact absurd (hfree.symm.trans htaken) nofun
    · intro v hv hv'
      rcases List.mem_or_eq_of_mem_set hv with hv | rfl
      · exact h.destination v hv hv'
      · exact hdestination
    · intro v hv
      obtain rfl := Option.some.inj hv
      refine ⟨i, hset, findIdx?_eq_some.mpr ⟨s, hset, hmine, ?_⟩⟩
      intro j hj u hu
      rw [List.getElem?_set_ne (by omega)] at hu
      exact hbefore j hj u hu

theorem firstFrame_own (h : Agrees pgn source destination slots t) (hpgn : pgn ≠ 0)
    (hroom : Roomy P slots a) (hmine : a.mine pgn source = true)
    (hdestination : a.heading.destination = destination)
    (hstarts : a.starts P = some (a.heading.pgn, false)) :
    (firstFrame P slots a.now a.heading a.len a.buf).1 =
        (Slot.first P a.heading a.now a.len a.buf).settle.1 ∧
      Agrees pgn source destination (firstFrame P slots a.now a.heading a.len a.buf).2
        (Slot.first P a.heading a.now a.len a.buf).settle.2 := by
  obtain ⟨i, s, hs, -, hbefore, hfind⟩ := findFreeCanMsgIndex_of_any a.now (hroom _ hstarts)
  obtain ⟨hi, -⟩ := List.getElem?_eq_some_iff.mp hs
  rw [firstFrame, hfind]
  refine handReady_own h hpgn hi ?_ (mine_first.trans hmine) (destination_first.trans hdestination)
    freeMsg_first
  intro j hj u hu
  rw [← Bool.not_eq_true]
  intro humine
  have hudestination := h.destination u (List.mem_of_getElem? hu) humine
  have hufits := hbefore j hj u hu
  simp only [Slot.mine, Arrival.mine, Bool.and_eq_true, Bool.not_eq_true', decide_eq_true_eq]
    at humine hmine
  simp [Slot.isFor, humine.1.1, humine.1.2, humine.2, hudestination, hmine.1, hmine.2,
    hdestination] at hufits

theorem addPacket_next (slots : List Slot) (i : Nat)
    (hnext : s.lastFrame.toNat + 1 = (a.byte 0).toNat) :
    addPacket slots i a.len a.buf s = handReady (slots.set i (s.next a)) i := by
  rw [addPacket]
  exact if_pos hnext

theorem nextFrame_own (h : Agrees pgn source destination slots (some s)) (hpgn : pgn ≠ 0)
    (hmine : a.mine pgn source = true) (hnext : s.lastFrame.toNat + 1 = (a.byte 0).toNat) :
    (nextFrame slots a.heading a.len a.buf).1 = (s.next a).settle.1 ∧
      Agrees pgn source destination (nextFrame slots a.heading a.len a.buf).2
        (s.next a).settle.2 := by
  obtain ⟨i, hs, hfind⟩ := h.place s rfl
  obtain ⟨hi, -⟩ := List.getElem?_eq_some_iff.mp hs
  obtain ⟨w, hw, hwmine, hbefore⟩ := findIdx?_eq_some.mp hfind
  obtain rfl : s = w := Option.some.inj (hs.symm.trans hw)
  have hheading : a.heading.pgn = pgn ∧ a.heading.source = source := by
    simpa [Arrival.mine] using hmine
  obtain ⟨rfl, rfl⟩ := hheading
  have hsearch : (slots.findIdx? fun s =>
      s.pgn = a.heading.pgn && s.source = a.heading.source && !s.tpMessage) = some i := hfind
  have hmem := List.mem_of_getElem? hs
  simp only [nextFrame, hsearch, hs]
  rw [addPacket_next slots i hnext]
  refine handReady_own h hpgn hi hbefore hwmine (h.destination s hmem hwmine) ?_
  rw [← Bool.not_eq_true]
  intro hfree
  have hzero : s.pgn = a.heading.pgn := by
    simp only [Slot.mine, Bool.and_eq_true, decide_eq_true_eq] at hwmine
    exact hwmine.1.1
  exact hpgn (hzero.symm.trans (h.tidy s hmem hfree))

theorem arrive_of_mine (slots : List Slot) (hfast : Fast P pgn)
    (hmine : a.mine pgn source = true) :
    arrive P slots a =
      if isFastPacketFirstFrame (a.byte 0) then firstFrame P slots a.now a.heading a.len a.buf
      else nextFrame slots a.heading a.len a.buf := by
  simp only [Arrival.mine, Bool.and_eq_true, decide_eq_true_eq] at hmine
  obtain ⟨rfl, -⟩ := hmine
  rw [arrive, setN2kCanBufMsg, if_neg hfast.ne_control, if_neg hfast.ne_data, if_pos hfast.handled,
    hfast.fastPacket, Bool.true_and]
  rw [← Arrival.byte]
  cases isFastPacketFirstFrame (a.byte 0) <;> rfl

theorem starts_of_mine (hfast : Fast P pgn) (hmine : a.mine pgn source = true)
    (hfirst : isFastPacketFirstFrame (a.byte 0) = true) :
    a.starts P = some (a.heading.pgn, false) := by
  simp only [Arrival.mine, Bool.and_eq_true, decide_eq_true_eq] at hmine
  obtain ⟨rfl, -⟩ := hmine
  rw [Arrival.starts, if_neg hfast.ne_control, if_neg hfast.ne_data, if_pos hfast.handled, hfirst]
  simp

-- A frame of its own does to the places what it would do to a place of its own.
theorem arrive_own (h : Agrees pgn source destination slots t) (hfast : Fast P pgn)
    (hroom : Roomy P slots a) (hmine : a.mine pgn source = true)
    (hdestination : a.heading.destination = destination) {r : Option Received × Option Slot}
    (hassemble : assemble P t a = some r) :
    (arrive P slots a).1 = r.1 ∧ Agrees pgn source destination (arrive P slots a).2 r.2 := by
  rw [arrive_of_mine slots hfast hmine]
  rw [assemble] at hassemble
  split_ifs at hassemble ⊢ with hfirst
  · obtain rfl := Option.some.inj hassemble
    exact firstFrame_own h hfast.ne_zero hroom hmine hdestination
      (starts_of_mine hfast hmine hfirst)
  · obtain ⟨s, rfl, hs⟩ := Option.bind_eq_some_iff.mp hassemble
    split_ifs at hs with hnext
    obtain rfl := Option.some.inj hs
    exact nextFrame_own h hfast.ne_zero hmine hnext

theorem settle_mine {m : Received} (hmine : s.mine pgn source = true)
    (hm : s.settle.1 = some m) : m.mine pgn source = true := by
  rw [Slot.settle] at hm
  split_ifs at hm
  obtain rfl := Option.some.inj hm
  exact hmine

theorem Agrees.assemble_mine (h : Agrees pgn source destination slots t)
    (hmine : a.mine pgn source = true) {r : Option Received × Option Slot}
    (hassemble : assemble P t a = some r) {m : Received} (hm : r.1 = some m) :
    m.mine pgn source = true := by
  rw [assemble] at hassemble
  split_ifs at hassemble with hfirst
  · obtain rfl := Option.some.inj hassemble
    exact settle_mine (mine_first.trans hmine) hm
  · obtain ⟨s, rfl, hs⟩ := Option.bind_eq_some_iff.mp hassemble
    split_ifs at hs with hnext
    obtain rfl := Option.some.inj hs
    obtain ⟨i, hi, hfind⟩ := h.place s rfl
    obtain ⟨w, hw, hwmine, -⟩ := findIdx?_eq_some.mp hfind
    obtain rfl : s = w := Option.some.inj (hi.symm.trans hw)
    exact settle_mine (s := s.next a) hwmine hm

theorem handled_cons (P : Pgns) (slots : List Slot) (a : Arrival) (arrivals : List Arrival) :
    handled P slots (a :: arrivals) =
      (arrive P slots a).1.toList ++ handled P (arrive P slots a).2 arrivals := by
  rw [handled, answers]
  cases (arrive P slots a).1 <;> rfl

-- What is handled of it is what it would be if its frames were the only ones.
theorem handled_filter (hfast : Fast P pgn) {arrivals : List Arrival} {rs : List Received}
    (h : Agrees pgn source destination slots t)
    (hroom : Along (fun s a => (arrive P s a).2) (Roomy P) slots arrivals)
    (hdestination : ∀ a ∈ arrivals, a.mine pgn source = true → a.heading.destination = destination)
    (hassembled : assembled P t (arrivals.filter (Arrival.mine pgn source)) = some rs) :
    (handled P slots arrivals).filter (Received.mine pgn source) = rs := by
  induction arrivals generalizing slots t rs with
  | nil =>
    obtain rfl := Option.some.inj hassembled
    rfl
  | cons a arrivals ih =>
    obtain ⟨hhere, hrest⟩ := hroom
    have hlater : ∀ b ∈ arrivals, b.mine pgn source = true →
        b.heading.destination = destination :=
      fun b hb => hdestination b (List.mem_cons_of_mem a hb)
    rw [handled_cons, List.filter_append]
    cases hmine : a.mine pgn source with
    | false =>
      rw [List.filter_cons_of_neg (by simp [hmine])] at hassembled
      obtain ⟨hothers, hnext⟩ := arrive_other h hfast.ne_zero hhere hmine
      rw [ih hnext hrest hlater hassembled]
      cases hr : (arrive P slots a).1 with
      | none => rfl
      | some r => simp [hothers r hr]
    | true =>
      rw [List.filter_cons_of_pos hmine, assembled] at hassembled
      obtain ⟨r, hassemble, hassembled⟩ := Option.bind_eq_some_iff.mp hassembled
      obtain ⟨rest, hrs, rfl⟩ := Option.map_eq_some_iff.mp hassembled
      obtain ⟨hanswer, hnext⟩ :=
        arrive_own h hfast hhere hmine (hdestination a List.mem_cons_self hmine) hassemble
      rw [ih hnext hrest hlater hrs, hanswer]
      cases hr : r.1 with
      | none => rfl
      | some m => simp [h.assemble_mine hmine hassemble hr]

end Espos.N2k
