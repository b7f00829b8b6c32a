import Espos.Voice.Decoding

-- What `encode_event` writes, the decoder gives back.

namespace Espos.Voice

open Espos.Text EventDecoder

def kWyomingVersion : CStr :=
  lit "1.10.0"

-- `!data_json.empty() && data_json != "{}"`
def hasData (dataJson : Bytes) : Bool :=
  dataJson ≠ [] && dataJson ≠ [0x7b, 0x7d]

-- `cJSON_AddNumberToObject` with a size
def sizeMember (name : CStr) (size : Nat) : CStr × Json :=
  (name, .number (.finite (size : Int)))

def headerMembers (type : CStr) (dataJson payload : Bytes) : List (CStr × Json) :=
  [(lit "type", .string type), (lit "version", .string kWyomingVersion)] ++
    (if hasData dataJson then [sizeMember (lit "data_length") dataJson.length] else []) ++
    (if 0 < payload.length then [sizeMember (lit "payload_length") payload.length] else [])

-- An empty payload stands for a null pointer as well. A header that cannot be printed
-- leaves `out` as it is.
def encodeEvent (cjson : CJson) (out : Bytes) (type : CStr) (dataJson payload : Bytes) : Bytes :=
  match cjson.print (.object (headerMembers type dataJson payload)) with
  | none => out
  | some headerLine =>
    let out := out ++ headerLine ++ [newline]
    let out := if hasData dataJson then out ++ dataJson else out
    if 0 < payload.length then out ++ payload else out

def encodeAll (cjson : CJson) (events : List DecodedEvent) : Bytes :=
  events.foldl (fun out e => encodeEvent cjson out e.type e.dataJson e.payload) []

-- One line is printed for the document, and it is parsed to the document again.
def CJson.Keeps (cjson : CJson) (doc : Json) : Prop :=
  ∃ line, cjson.print doc = some line ∧ newline ∉ line ∧ cjson.parse line = some doc

def DecodedEvent.header (e : DecodedEvent) : Json :=
  .object (headerMembers e.type e.dataJson e.payload)

-- An event both ends have room for.
structure Encodable (cjson : CJson) (e : DecodedEvent) : Prop where
  type : e.type ≠ []
  header : ∀ line ∈ cjson.print e.header, line.length ≤ kMaxHeaderBytes
  data : e.dataJson.length ≤ kMaxDataBytes
  payload : e.payload.length ≤ kMaxPayloadBytes

-- The data block as it is written, and as the other end sees it.
def dataBlock (dataJson : Bytes) : Bytes :=
  if hasData dataJson then dataJson else []

def DecodedEvent.received (e : DecodedEvent) : DecodedEvent :=
  { e with dataJson := dataBlock e.dataJson }

section Header

variable {cjson : CJson} {e : DecodedEvent}

theorem item_type (type : CStr) (dataJson payload : Bytes) :
    item (.object (headerMembers type dataJson payload)) (lit "type") = some (.string type) :=
  rfl

theorem item_data (type : CStr) (dataJson payload : Bytes) :
    item (.object (headerMembers type dataJson payload)) (lit "data") = none := by
  by_cases hdata : hasData dataJson = true
  · by_cases hpayload : 0 < payload.length
    · simp only [headerMembers, if_pos hdata, if_pos hpayload]
      rfl
    · simp only [headerMembers, if_pos hdata, if_neg hpayload]
      rfl
  · by_cases hpayload : 0 < payload.length
    · simp only [headerMembers, if_neg hdata, if_pos hpayload]
      rfl
    · simp only [headerMembers, if_neg hdata, if_neg hpayload]
      rfl

theorem lengthOf_size {size most : Nat} (h : size ≤ most) :
    lengthOf (some (.number (.finite (size : Int)))) most = some size := by
  have hrange : (0 : Int) ≤ size ∧ (size : Int) ≤ most := by omega
  simp only [lengthOf, Number.toInt?_intCast hrange, Option.map_some, Int.toNat_natCast]

theorem lengthOf_data (type : CStr) {dataJson : Bytes} (payload : Bytes)
    (h : dataJson.length ≤ kMaxDataBytes) :
    lengthOf (item (.object (headerMembers type dataJson payload)) (lit "data_length"))
      kMaxDataBytes = some (dataBlock dataJson).length := by
  by_cases hdata : hasData dataJson = true
  · simp only [headerMembers, dataBlock, if_pos hdata]
    exact lengthOf_size h
  · by_cases hpayload : 0 < payload.length
    · simp only [headerMembers, dataBlock, if_neg hdata, if_pos hpayload]
      rfl
    · simp only [headerMembers, dataBlock, if_neg hdata, if_neg hpayload]
      rfl

theorem lengthOf_payload (type : CStr) (dataJson : Bytes) {payload : Bytes}
    (h : payload.length ≤ kMaxPayloadBytes) :
    lengthOf (item (.object (headerMembers type dataJson payload)) (lit "payload_length"))
      kMaxPayloadBytes = some payload.length := by
  by_cases hpayload : 0 < payload.length
  · by_cases hdata : hasData dataJson = true
    · simp only [headerMembers, if_pos hdata, if_pos hpayload]
      exact lengthOf_size h
    · simp only [headerMembers, if_neg hdata, if_pos hpayload]
      exact lengthOf_size h
  · obtain hnil : payload.length = 0 := by omega
    by_cases hdata : hasData dataJson = true
    · simp only [headerMembers, if_pos hdata, hnil]
      rfl
    · simp only [headerMembers, if_neg hdata, hnil]
      rfl

theorem fieldsOf_header {line : Bytes} (he : Encodable cjson e)
    (hparse : cjson.parse line = some e.header) :
    fieldsOf cjson line = some ⟨e.type, (dataBlock e.dataJson).length, e.payload.length, []⟩ := by
  have htype := he.type
  have hdata := lengthOf_data e.type e.payload he.data
  have hpayload := lengthOf_payload e.type e.dataJson he.payload
  have hinline := item_data e.type e.dataJson e.payload
  cases hname : e.type with
  | nil => exact absurd hname htype
  | cons c type =>
    rw [hname] at hdata hpayload hinline
    have hitem := item_type (c :: type) e.dataJson e.payload
    simp only [fieldsOf, hparse, DecodedEvent.header, hname, hitem, hdata, hpayload, hinline]

end Header

-- The bytes of one event, in front of anything.
theorem encodeEvent_eq {cjson : CJson} {e : DecodedEvent} {line : Bytes}
    (h : cjson.print e.header = some line) (out : Bytes) :
    encodeEvent cjson out e.type e.dataJson e.payload =
      out ++ (line ++ newline :: (dataBlock e.dataJson ++ e.payload)) := by
  have hpayload (out : Bytes) : (if 0 < e.payload.length then out ++ e.payload else out) =
      out ++ e.payload := by
    by_cases hpos : 0 < e.payload.length
    · rw [if_pos hpos]
    · have hnil : e.payload = [] := List.eq_nil_of_length_eq_zero (by omega)
      rw [if_neg hpos, hnil, List.append_nil]
  have hdata (out : Bytes) : (if hasData e.dataJson then out ++ e.dataJson else out) =
      out ++ dataBlock e.dataJson := by
    unfold dataBlock
    by_cases hhas : hasData e.dataJson = true
    · rw [if_pos hhas, if_pos hhas]
    · rw [if_neg hhas, if_neg hhas, List.append_nil]
  unfold DecodedEvent.header at h
  simp only [encodeEvent, h]
  rw [hpayload, hdata]
  simp only [List.append_assoc, List.cons_append, List.nil_append]

theorem next_of_encoded {cjson : CJson} {e : DecodedEvent} {line : Bytes}
    (he : Encodable cjson e) (hprint : cjson.print e.header = some line)
    (hline : newline ∉ line) (hparse : cjson.parse line = some e.header) (rest : Bytes) :
    next cjson short (line ++ newline :: (dataBlock e.dataJson ++ e.payload ++ rest)) =
      .frame e.received rest := by
  refine next_frame_iff.mpr ⟨line, _, _, splitLine_eq_some.mpr ⟨hline, rfl⟩,
    decide_eq_true (he.header line hprint), fieldsOf_header he hparse, ?_, ?_, ?_⟩
  · simp only [Header.need, List.length_append]
    omega
  · have hdrop : (dataBlock e.dataJson ++ e.payload ++ rest).drop (dataBlock e.dataJson).length =
        e.payload ++ rest := by
      rw [List.append_assoc, List.drop_left]
    simp only [Header.event, hdrop, List.take_left]
    by_cases hpos : 0 < (dataBlock e.dataJson).length
    · rw [if_pos hpos, List.append_assoc, List.take_left]
      rfl
    · rw [if_neg hpos, ← List.length_eq_zero_iff.mp (Nat.eq_zero_of_not_pos hpos)]
      rfl
  · have hneed : Header.need ⟨e.type, (dataBlock e.dataJson).length, e.payload.length, []⟩ =
        (dataBlock e.dataJson ++ e.payload).length := List.length_append.symm
    rw [hneed, List.drop_left]

theorem foldl_encodeEvent {cjson : CJson} {events : List DecodedEvent}
    (hkeeps : ∀ e ∈ events, cjson.Keeps e.header) (out : Bytes) :
    events.foldl (fun out e => encodeEvent cjson out e.type e.dataJson e.payload) out =
      out ++ encodeAll cjson events := by
  unfold encodeAll
  induction events generalizing out with
  | nil => exact (List.append_nil out).symm
  | cons e events ih =>
    have hrest := fun e' he' => hkeeps e' (List.mem_cons_of_mem _ he')
    obtain ⟨line, hprint, -, -⟩ := hkeeps e List.mem_cons_self
    rw [List.foldl_cons, List.foldl_cons, ih hrest, ih hrest (encodeEvent _ _ _ _ _),
      encodeEvent_eq hprint, encodeEvent_eq hprint, List.nil_append, List.append_assoc]

-- The stream is the frames of its events and nothing behind them.
theorem frames_encodeAll {cjson : CJson} {events : List DecodedEvent}
    (hkeeps : ∀ e ∈ events, cjson.Keeps e.header) (hroom : ∀ e ∈ events, Encodable cjson e) :
    Frames cjson short (encodeAll cjson events) (events.map DecodedEvent.received) (some []) := by
  induction events with
  | nil => exact .wait rfl
  | cons e events ih =>
    have hkeeps' := fun e' he' => hkeeps e' (List.mem_cons_of_mem _ he')
    have hroom' := fun e' he' => hroom e' (List.mem_cons_of_mem _ he')
    obtain ⟨line, hprint, hline, hparse⟩ := hkeeps e List.mem_cons_self
    have hnext := next_of_encoded (hroom e List.mem_cons_self) hprint hline hparse
      (encodeAll cjson events)
    have hstream : encodeAll cjson (e :: events) =
        line ++ newline :: (dataBlock e.dataJson ++ e.payload ++ encodeAll cjson events) := by
      have hfold := foldl_encodeEvent hkeeps' (encodeEvent cjson [] e.type e.dataJson e.payload)
      rw [encodeEvent_eq hprint, List.nil_append] at hfold
      rw [encodeAll, List.foldl_cons, encodeEvent_eq hprint, List.nil_append, hfold]
      simp only [List.append_assoc, List.cons_append]
    rw [hstream]
    exact .frame hnext (ih hkeeps' hroom')

namespace EventDecoder

variable {cjson : CJson} {d : EventDecoder} {tail : Bytes}

theorem compact_pos (d : EventDecoder) : d.compact.pos = 0 := by
  unfold compact
  by_cases hpos : 0 < d.pos
  · rw [if_pos hpos]
  · rw [if_neg hpos]
    omega

-- A call that no handler stops ends in `compact`.
theorem drain_pos (fuel : Nat) (d : EventDecoder) :
    (drain cjson (fun _ => true) fuel d).2.1.pos = 0 := by
  induction fuel generalizing d with
  | zero => exact compact_pos d
  | succ fuel ih =>
    simp only [drain]
    generalize (if d.haveHeader then (true, d) else d.readHeader cjson) = r
    by_cases hready : (r.1 && decide (r.2.need ≤ r.2.buf.length - r.2.pos)) = true
    · rw [if_pos hready]
      exact ih _
    · rw [if_neg hready]
      exact compact_pos _

-- A decoder that has not failed by the end holds what is left of the stream.
theorem feedAll_holds (h : d.Holds cjson tail) (hpos : d.pos = 0)
    (hw : next cjson whole tail = .wait) (chunks : List Bytes)
    (hok : (feedAll cjson (fun _ => true) d chunks).1.failed = false) :
    ∃ rest, (feedAll cjson (fun _ => true) d chunks).1.Holds cjson rest ∧
      (feedAll cjson (fun _ => true) d chunks).1.pos = 0 ∧
      Frames cjson whole (tail ++ chunks.flatten) (feedAll cjson (fun _ => true) d chunks).2
        (some rest) := by
  induction chunks generalizing d tail with
  | nil =>
    rw [List.flatten_nil, List.append_nil]
    exact ⟨tail, h, hpos, .wait hw⟩
  | cons chunk chunks ih =>
    obtain ⟨left, hframes, hfailed, hholds⟩ := feed_spec h chunk
    have hpos' : (d.feed cjson (fun _ => true) chunk).2.1.pos = 0 := by
      unfold feed
      rw [if_neg (by simp [h.failed])]
      exact drain_pos _ _
    simp only [feedAll] at hok ⊢
    generalize d.feed cjson (fun _ => true) chunk = r at hframes hfailed hholds hpos' hok ⊢
    obtain ⟨ok, d', events⟩ := r
    cases left with
    | none =>
      rw [feedAll_failed (hfailed rfl)] at hok
      cases (hfailed rfl).symm.trans hok
    | some tail' =>
      obtain ⟨rest, hrest, hend, hmore⟩ := ih (hholds _ rfl) hpos' hframes.waits hok
      refine ⟨rest, hrest, hend, ?_⟩
      rw [List.flatten_cons, ← List.append_assoc]
      exact hframes.append hmore

theorem Holds.buf_nil (h : d.Holds cjson []) (hpos : d.pos = 0) : d.buf = [] := by
  cases hheader : d.haveHeader with
  | true =>
    obtain ⟨line, hsplit, -⟩ := h.body hheader
    cases hsplit
  | false =>
    have hunread := h.line hheader
    rw [unread, hpos, List.drop_zero] at hunread
    exact hunread.symm

end EventDecoder

theorem Frames.whole_of_short {cjson : CJson} {s : Bytes} {events : List DecodedEvent}
    (h : Frames cjson short s events (some [])) : Frames cjson whole s events (some []) := by
  generalize hleft : some ([] : Bytes) = left at h ⊢
  induction h with
  | wait _ =>
    cases hleft
    exact .wait rfl
  | violation _ => cases hleft
  | frame hn _ ih => exact .frame (next_whole_of_frame hn) (ih hleft)

-- For any events with room, fed in whatever pieces: the decoder gives them back, with no
-- data in place of an empty object, and has nothing left of the stream.
theorem decode_encodeAll (cjson : CJson) (events : List DecodedEvent)
    (hkeeps : ∀ e ∈ events, cjson.Keeps e.header) (hroom : ∀ e ∈ events, Encodable cjson e)
    (chunks : List Bytes) (hchunks : chunks.flatten = encodeAll cjson events) :
    (decode cjson chunks).2 = events.map DecodedEvent.received ∧
      (decode cjson chunks).1.buf = [] ∧ (decode cjson chunks).1.failed = false := by
  have hframes := frames_encodeAll hkeeps hroom
  rw [← hchunks] at hframes
  have hcaught : Caught cjson chunks := by
    rintro start length ⟨events', u, hreach, -, hslip⟩
    have hends := hreach.frames (.violation hslip.next_short)
    cases (hends.unique hframes).2
  obtain ⟨left, hgrammar, hfailed⟩ := (decode_grammatical_iff cjson chunks).mpr hcaught
  obtain ⟨hevents, rfl⟩ := hgrammar.unique hframes
  have hok : (decode cjson chunks).1.failed = false :=
    Bool.eq_false_iff.mpr fun h => nomatch hfailed.mp h
  have hinit : ({} : EventDecoder).Holds cjson [] :=
    ⟨rfl, Nat.le_refl _, fun _ => rfl, nofun⟩
  obtain ⟨rest, hholds, hpos, hwhole⟩ := feedAll_holds hinit rfl rfl chunks hok
  obtain ⟨-, hrest⟩ := hwhole.unique hframes.whole_of_short
  cases hrest
  exact ⟨hevents, hholds.buf_nil hpos, hok⟩

def ofText (text : String) : Bytes :=
  text.toList.map fun c => UInt8.ofNat c.toNat

-- An event without data, and one whose payload looks like the start of a header line.
def talk : List DecodedEvent :=
  [⟨lit "ping", ofText "\x7b\x7d", []⟩,
    ⟨lit "audio-chunk", ofText "\x7b\"a\":1\x7d", ofText "\n\x7b\""⟩]

def pingHeader : Bytes :=
  ofText "\x7b\"type\":\"ping\",\"version\":\"1.10.0\"\x7d"

def chunkHeader : Bytes :=
  ofText ("\x7b\"type\":\"audio-chunk\",\"version\":\"1.10.0\"," ++
    "\"data_length\":7,\"payload_length\":3\x7d")

-- cJSON on the two headers.
def talkJson : CJson where
  parse line :=
    if line = pingHeader then some (.object (headerMembers (lit "ping") [] []))
    else if line = chunkHeader then
      some (.object (headerMembers (lit "audio-chunk") (ofText "\x7b\"a\":1\x7d")
        (ofText "\n\x7b\"")))
    else none
  print doc :=
    match doc with
    | .object members => some (if members.length = 2 then pingHeader else chunkHeader)
    | _ => none

theorem decode_encodeAll_talk :
    (decode talkJson [encodeAll talkJson talk]).2 = talk.map DecodedEvent.received ∧
      (decode talkJson [encodeAll talkJson talk]).1.buf = [] ∧
      (decode talkJson [encodeAll talkJson talk]).1.failed = false := by
  refine decode_encodeAll talkJson talk ?_ ?_ [encodeAll talkJson talk] (List.append_nil _)
  · intro e he
    rcases List.mem_pair.mp he with rfl | rfl
    · exact ⟨pingHeader, rfl, by decide, rfl⟩
    · exact ⟨chunkHeader, rfl, by decide, rfl⟩
  · intro e he
    rcases List.mem_pair.mp he with rfl | rfl
    · refine ⟨by decide, ?_, by decide, by decide⟩
      intro line hline
      cases hline
      decide
    · refine ⟨by decide, ?_, by decide, by decide⟩
      intro line hline
      cases hline
      decide

end Espos.Voice
