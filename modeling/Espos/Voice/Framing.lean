import Espos.Lib.Json

-- The decoder of `framing.cpp`. cJSON is a parameter: what it parses a header line to,
-- and how it prints a document.

namespace Espos.Voice

open Espos.Text

abbrev Bytes := List UInt8

structure CJson where
  parse : Bytes → Option Json
  print : Json → Option Bytes

-- `cJSON_GetObjectItemCaseSensitive`
def item (doc : Json) (name : CStr) : Option Json :=
  match doc with
  | .object members => (members.find? fun m => m.1 == name).map Prod.snd
  | _ => none

structure DecodedEvent where
  type : CStr
  dataJson : Bytes
  payload : Bytes
deriving DecidableEq

def kMaxHeaderBytes : Nat := 8 * 1024
def kMaxDataBytes : Nat := 64 * 1024
def kMaxPayloadBytes : Nat := 2 * 1024 * 1024 * 1024

def newline : UInt8 := 10

-- What the decoder keeps of a header line.
structure Header where
  type : CStr
  dataLen : Nat
  payloadLen : Nat
  inlineDataJson : Bytes
deriving DecidableEq

-- Absent and other than a number is 0; `none` where it is not an integer in range.
def lengthOf (value : Option Json) (most : Nat) : Option Nat :=
  match value with
  | some (.number x) => (x.toInt? 0 most).map Int.toNat
  | _ => some 0

-- The fields of a header line, or `none` where the line is refused.
def fieldsOf (cjson : CJson) (line : Bytes) : Option Header :=
  match cjson.parse line with
  | some (.object members) =>
    let doc := Json.object members
    match item doc (lit "type") with
    | some (.string (c :: type)) =>
      match lengthOf (item doc (lit "data_length")) kMaxDataBytes,
          lengthOf (item doc (lit "payload_length")) kMaxPayloadBytes with
      | some dataLen, some payloadLen =>
        let inlineDataJson :=
          match item doc (lit "data") with
          | some (.object data) => (cjson.print (.object data)).getD []
          | _ => []
        some ⟨c :: type, dataLen, payloadLen, inlineDataJson⟩
      | _, _ => none
    | _ => none
  | _ => none

structure EventDecoder where
  buf : Bytes := []
  pos : Nat := 0
  failed : Bool := false
  haveHeader : Bool := false
  type : CStr := []
  inlineDataJson : Bytes := []
  dataLen : Nat := 0
  payloadLen : Nat := 0
deriving DecidableEq

namespace EventDecoder

def compact (d : EventDecoder) : EventDecoder :=
  if 0 < d.pos then { d with buf := d.buf.drop d.pos, pos := 0 } else d

def remember (d : EventDecoder) (h : Header) : EventDecoder :=
  { d with
    haveHeader := true
    type := h.type
    dataLen := h.dataLen
    payloadLen := h.payloadLen
    inlineDataJson := h.inlineDataJson }

def readHeader (cjson : CJson) (d : EventDecoder) : Bool × EventDecoder :=
  match (d.buf.drop d.pos).findIdx? (· == newline) with
  | none => (false, { d with failed := d.failed || kMaxHeaderBytes < d.buf.length - d.pos })
  | some len =>
    let line := (d.buf.drop d.pos).take len
    let d := { d with pos := d.pos + len + 1 }
    match fieldsOf cjson line with
    | none => (false, { d with failed := true })
    | some h => (true, d.remember h)

def need (d : EventDecoder) : Nat :=
  d.dataLen + d.payloadLen

-- The event whose bytes are all there.
def event (d : EventDecoder) : DecodedEvent where
  type := d.type
  dataJson := if 0 < d.dataLen then (d.buf.drop d.pos).take d.dataLen else d.inlineDataJson
  payload := (d.buf.drop (d.pos + d.dataLen)).take d.payloadLen

def consume (d : EventDecoder) : EventDecoder :=
  { d with
    pos := d.pos + d.need
    haveHeader := false
    type := []
    inlineDataJson := []
    dataLen := 0
    payloadLen := 0 }

-- The loop of `feed`. Every turn but the first reads a header, so that two turns more
-- than there are bytes are enough. The events handed to `onEvent` come with the result.
def drain (cjson : CJson) (onEvent : DecodedEvent → Bool) :
    Nat → EventDecoder → Bool × EventDecoder × List DecodedEvent
  | 0, d => (!d.failed, d.compact, [])
  | fuel + 1, d =>
    let (ready, d) := if d.haveHeader then (true, d) else d.readHeader cjson
    if ready && d.need ≤ d.buf.length - d.pos then
      if onEvent d.event then
        let (ok, d', events) := drain cjson onEvent fuel d.consume
        (ok, d', d.event :: events)
      else (false, d.consume, [d.event])
    else (!d.failed, d.compact, [])

def feed (cjson : CJson) (onEvent : DecodedEvent → Bool) (d : EventDecoder) (chunk : Bytes) :
    Bool × EventDecoder × List DecodedEvent :=
  if d.failed then (false, d, [])
  else
    let d := { d with buf := d.buf ++ chunk }
    drain cjson onEvent (d.buf.length - d.pos + 2) d

-- One `feed` after another, with the events of all of them.
def feedAll (cjson : CJson) (onEvent : DecodedEvent → Bool) :
    EventDecoder → List Bytes → EventDecoder × List DecodedEvent
  | d, [] => (d, [])
  | d, chunk :: chunks =>
    let (_, d', events) := d.feed cjson onEvent chunk
    let (d'', more) := feedAll cjson onEvent d' chunks
    (d'', events ++ more)

end EventDecoder

end Espos.Voice

-- The frames of a byte stream: a header line, then as many bytes as it names.

namespace Espos.Voice

-- A line and what follows its newline.
def splitLine (s : Bytes) : Option (Bytes × Bytes) :=
  match s with
  | [] => none
  | b :: s =>
    if b = newline then some ([], s)
    else (splitLine s).map fun p => (b :: p.1, p.2)

theorem splitLine_eq_some {s line rest : Bytes} :
    splitLine s = some (line, rest) ↔ newline ∉ line ∧ s = line ++ newline :: rest := by
  induction s generalizing line with
  | nil => simp [splitLine]
  | cons b s ih =>
    by_cases hb : b = newline
    · subst hb
      cases line with
      | nil => simp [splitLine, eq_comm]
      | cons c line =>
        simp only [splitLine, if_pos, Option.some.injEq, Prod.mk.injEq, List.cons_append,
          List.cons.injEq, List.mem_cons, not_or]
        constructor
        · rintro ⟨hnil, -⟩
          cases hnil
        · rintro ⟨⟨hc, -⟩, hnewline, -⟩
          exact absurd hnewline hc
    · cases line with
      | nil => simp [splitLine, hb]
      | cons c line =>
        simp only [splitLine, if_neg hb, Option.map_eq_some_iff, Prod.exists, Prod.mk.injEq,
          List.cons.injEq, List.cons_append, List.mem_cons, not_or]
        constructor
        · rintro ⟨line', rest', hsplit, ⟨rfl, rfl⟩, rfl⟩
          obtain ⟨hline, rfl⟩ := ih.mp hsplit
          exact ⟨⟨Ne.symm hb, hline⟩, rfl, rfl⟩
        · rintro ⟨⟨-, hline⟩, rfl, rfl⟩
          exact ⟨line, rest, ih.mpr ⟨hline, rfl⟩, ⟨rfl, rfl⟩, rfl⟩

theorem splitLine_eq_none {s : Bytes} : splitLine s = none ↔ newline ∉ s := by
  induction s with
  | nil => simp [splitLine]
  | cons b s ih =>
    by_cases hb : b = newline
    · simp [splitLine, hb]
    · simp [splitLine, hb, ih, Ne.symm hb]

def Header.need (h : Header) : Nat :=
  h.dataLen + h.payloadLen

def Header.event (h : Header) (body : Bytes) : DecodedEvent where
  type := h.type
  dataJson := if 0 < h.dataLen then body.take h.dataLen else h.inlineDataJson
  payload := (body.drop h.dataLen).take h.payloadLen

-- What a stream begins with: too little to say, a violation, or a frame.
inductive Next where
  | wait
  | violation
  | frame (event : DecodedEvent) (rest : Bytes)

-- `fits` says which header lines are short enough.
def next (cjson : CJson) (fits : Bytes → Bool) (s : Bytes) : Next :=
  match splitLine s with
  | none => if kMaxHeaderBytes < s.length then .violation else .wait
  | some (line, rest) =>
    if fits line then
      match fieldsOf cjson line with
      | none => .violation
      | some h =>
        if h.need ≤ rest.length then .frame (h.event rest) (rest.drop h.need) else .wait
    else .violation

-- The events of a stream up to its first violation (`none`) or to what is not a whole
-- frame yet.
inductive Frames (cjson : CJson) (fits : Bytes → Bool) :
    Bytes → List DecodedEvent → Option Bytes → Prop where
  | wait {s : Bytes} : next cjson fits s = .wait → Frames cjson fits s [] (some s)
  | violation {s : Bytes} : next cjson fits s = .violation → Frames cjson fits s [] none
  | frame {s rest : Bytes} {event : DecodedEvent} {events : List DecodedEvent}
      {left : Option Bytes} : next cjson fits s = .frame event rest →
      Frames cjson fits rest events left → Frames cjson fits s (event :: events) left

-- Header lines of at most `kMaxHeaderBytes`.
def short (line : Bytes) : Bool :=
  line.length ≤ kMaxHeaderBytes

section Frames

variable {cjson : CJson} {fits : Bytes → Bool} {s more : Bytes}

theorem splitLine_append {line rest : Bytes} (h : splitLine s = some (line, rest)) :
    splitLine (s ++ more) = some (line, rest ++ more) := by
  obtain ⟨hline, rfl⟩ := splitLine_eq_some.mp h
  exact splitLine_eq_some.mpr ⟨hline, by simp⟩

theorem next_frame_iff {event : DecodedEvent} {rest : Bytes} :
    next cjson fits s = .frame event rest ↔ ∃ line body h, splitLine s = some (line, body) ∧
      fits line ∧ fieldsOf cjson line = some h ∧ h.need ≤ body.length ∧
      event = h.event body ∧ rest = body.drop h.need := by
  unfold next
  constructor
  · intro hn
    cases hsplit : splitLine s with
    | none =>
      simp only [hsplit] at hn
      by_cases hlong : kMaxHeaderBytes < s.length
      · rw [if_pos hlong] at hn
        cases hn
      · rw [if_neg hlong] at hn
        cases hn
    | some p =>
      obtain ⟨line, body⟩ := p
      by_cases hfits : fits line = true
      · simp only [hsplit, if_pos hfits] at hn
        cases hfields : fieldsOf cjson line with
        | none =>
          simp only [hfields] at hn
          cases hn
        | some h =>
          by_cases hle : h.need ≤ body.length
          · simp only [hfields, if_pos hle] at hn
            cases hn
            exact ⟨line, body, h, rfl, hfits, hfields, hle, rfl, rfl⟩
          · simp only [hfields, if_neg hle] at hn
            cases hn
      · simp only [hsplit, if_neg hfits] at hn
        cases hn
  · rintro ⟨line, body, h, hsplit, hfits, hfields, hle, rfl, rfl⟩
    simp only [hsplit, if_pos hfits, hfields, if_pos hle]

theorem length_lt_of_frame {event : DecodedEvent} {rest : Bytes}
    (h : next cjson fits s = .frame event rest) : rest.length < s.length := by
  obtain ⟨line, body, hd, hsplit, -, -, -, -, rfl⟩ := next_frame_iff.mp h
  obtain ⟨-, rfl⟩ := splitLine_eq_some.mp hsplit
  simp only [List.length_drop, List.length_append, List.length_cons]
  omega

theorem Header.event_append {h : Header} {body : Bytes} (hle : h.need ≤ body.length)
    (more : Bytes) : h.event (body ++ more) = h.event body := by
  unfold Header.need at hle
  unfold Header.event
  rw [List.take_append_of_le_length (by omega), List.drop_append_of_le_length (by omega),
    List.take_append_of_le_length]
  rw [List.length_drop]
  omega

theorem next_frame_append {event : DecodedEvent} {rest : Bytes}
    (h : next cjson fits s = .frame event rest) :
    next cjson fits (s ++ more) = .frame event (rest ++ more) := by
  obtain ⟨line, body, hd, hsplit, hfits, hfields, hle, rfl, rfl⟩ := next_frame_iff.mp h
  refine next_frame_iff.mpr ⟨line, body ++ more, hd, splitLine_append hsplit, hfits, hfields, ?_,
    (Header.event_append hle more).symm, ?_⟩
  · rw [List.length_append]
    omega
  · rw [List.drop_append_of_le_length hle]

theorem Frames.unique {events events' : List DecodedEvent} {left left' : Option Bytes}
    (h : Frames cjson fits s events left) (h' : Frames cjson fits s events' left') :
    events = events' ∧ left = left' := by
  induction h generalizing events' with
  | wait hn =>
    cases h' with
    | wait _ => exact ⟨rfl, rfl⟩
    | violation hn' => cases hn.symm.trans hn'
    | frame hn' _ => cases hn.symm.trans hn'
  | violation hn =>
    cases h' with
    | wait hn' => cases hn.symm.trans hn'
    | violation _ => exact ⟨rfl, rfl⟩
    | frame hn' _ => cases hn.symm.trans hn'
  | frame hn _ ih =>
    cases h' with
    | wait hn' => cases hn.symm.trans hn'
    | violation hn' => cases hn.symm.trans hn'
    | frame hn' hrest =>
      cases hn.symm.trans hn'
      obtain ⟨rfl, rfl⟩ := ih hrest
      exact ⟨rfl, rfl⟩

theorem Frames.append {events events' : List DecodedEvent} {tail : Bytes}
    {left : Option Bytes} (h : Frames cjson fits s events (some tail))
    (h' : Frames cjson fits (tail ++ more) events' left) :
    Frames cjson fits (s ++ more) (events ++ events') left := by
  generalize hleft : some tail = left₀ at h
  induction h with
  | wait _ =>
    cases hleft
    exact h'
  | violation _ => cases hleft
  | frame hn _ ih => exact .frame (next_frame_append hn) (ih hleft)

theorem exists_frames (cjson : CJson) (fits : Bytes → Bool) (s : Bytes) :
    ∃ events left, Frames cjson fits s events left := by
  induction hlen : s.length using Nat.strong_induction_on generalizing s with
  | _ n ih =>
    cases hn : next cjson fits s with
    | wait => exact ⟨[], some s, .wait hn⟩
    | violation => exact ⟨[], none, .violation hn⟩
    | frame event rest =>
      have hlt := length_lt_of_frame hn
      obtain ⟨events, left, hrest⟩ := ih rest.length (by omega) rest rfl
      exact ⟨event :: events, left, .frame hn hrest⟩

end Frames

end Espos.Voice
