import Espos.Voice.Framing

-- One call of `feed` against the frames of what it has been given.

namespace Espos.Voice

open Espos.Text

-- The decoder looks at no line's length once its newline is there.
def whole (_ : Bytes) : Bool :=
  true

theorem findIdx?_of_splitLine_none {s : Bytes} (h : splitLine s = none) :
    s.findIdx? (· == newline) = none := by
  rw [List.findIdx?_eq_none_iff]
  intro b hb
  rw [beq_eq_false_iff_ne]
  rintro rfl
  exact splitLine_eq_none.mp h hb

theorem findIdx?_of_splitLine {s line rest : Bytes} (h : splitLine s = some (line, rest)) :
    s.findIdx? (· == newline) = some line.length := by
  obtain ⟨hline, rfl⟩ := splitLine_eq_some.mp h
  have hnone : line.findIdx? (· == newline) = none :=
    findIdx?_of_splitLine_none (splitLine_eq_none.mpr hline)
  rw [List.findIdx?_append, hnone, List.findIdx?_cons]
  simp

namespace EventDecoder

variable {cjson : CJson} {d : EventDecoder} {tail : Bytes}

def unread (d : EventDecoder) : Bytes :=
  d.buf.drop d.pos

def header (d : EventDecoder) : Header :=
  ⟨d.type, d.dataLen, d.payloadLen, d.inlineDataJson⟩

-- What the decoder has of a frame: the header line it remembers, if any, and the bytes
-- behind it.
structure Holds (cjson : CJson) (d : EventDecoder) (tail : Bytes) : Prop where
  failed : d.failed = false
  pos : d.pos ≤ d.buf.length
  line : d.haveHeader = false → tail = d.unread
  body : d.haveHeader = true → ∃ line, splitLine tail = some (line, d.unread) ∧
    fieldsOf cjson line = some d.header

@[simp] theorem compact_unread (d : EventDecoder) : d.compact.unread = d.unread := by
  unfold compact unread
  by_cases h : 0 < d.pos
  · rw [if_pos h]
    rfl
  · rw [if_neg h]

@[simp] theorem compact_failed (d : EventDecoder) : d.compact.failed = d.failed := by
  unfold compact
  by_cases h : 0 < d.pos
  · rw [if_pos h]
  · rw [if_neg h]

theorem length_unread (d : EventDecoder) : d.unread.length = d.buf.length - d.pos :=
  List.length_drop

theorem Holds.compact (h : d.Holds cjson tail) : d.compact.Holds cjson tail := by
  have hunread := compact_unread d
  unfold EventDecoder.compact at hunread ⊢
  by_cases hpos : 0 < d.pos
  · rw [if_pos hpos] at hunread ⊢
    refine ⟨h.failed, Nat.zero_le _, ?_, ?_⟩
    · intro hline
      rw [hunread]
      exact h.line hline
    · intro hbody
      rw [hunread]
      exact h.body hbody
  · rwa [if_neg hpos]

-- With the header there, a frame is complete or not.
theorem next_of_header (h : d.Holds cjson tail) (hheader : d.haveHeader = true) :
    next cjson whole tail =
      if d.need ≤ d.unread.length then .frame d.event (d.unread.drop d.need) else .wait := by
  obtain ⟨line, hsplit, hfields⟩ := h.body hheader
  have hevent : d.header.event d.unread = d.event := by
    simp only [Header.event, event, header, unread, List.drop_drop]
    rfl
  have hneed : d.header.need = d.need := rfl
  simp only [next, hsplit, whole, if_true, hfields, hneed, hevent]

theorem Holds.consume (h : d.Holds cjson tail) (hneed : d.need ≤ d.unread.length) :
    d.consume.Holds cjson (d.unread.drop d.need) := by
  have hpos := h.pos
  rw [length_unread] at hneed
  refine ⟨h.failed, ?_, ?_, nofun⟩
  · show d.pos + d.need ≤ d.buf.length
    omega
  · intro _
    exact List.drop_drop

theorem readHeader_spec (h : d.Holds cjson tail) (hline : d.haveHeader = false) :
    (next cjson whole tail = .wait ∧ d.readHeader cjson = (false, d)) ∨
    (next cjson whole tail = .violation ∧
      ∃ d', d.readHeader cjson = (false, d') ∧ d'.failed = true) ∨
    ∃ d', d.readHeader cjson = (true, d') ∧ d'.Holds cjson tail ∧ d'.haveHeader = true ∧
      d'.unread.length < d.unread.length := by
  have htail := h.line hline
  subst htail
  have hfailed := h.failed
  have hpos := h.pos
  cases hsplit : splitLine d.unread with
  | none =>
    have hidx := findIdx?_of_splitLine_none hsplit
    unfold unread at hidx
    by_cases hlong : kMaxHeaderBytes < d.unread.length
    · refine .inr (.inl ⟨?_, ?_⟩)
      · simp only [next, hsplit, if_pos hlong]
      · rw [length_unread] at hlong
        simp [readHeader, hidx, hlong]
    · refine .inl ⟨?_, ?_⟩
      · simp only [next, hsplit, if_neg hlong]
      · rw [length_unread] at hlong
        simp only [readHeader, hidx, hfailed, hlong, decide_false, Bool.or_false]
        rw [← hfailed]
  | some p =>
    obtain ⟨line, rest⟩ := p
    have hidx := findIdx?_of_splitLine hsplit
    obtain ⟨hnot, heq⟩ := splitLine_eq_some.mp hsplit
    have htake : d.unread.take line.length = line := by
      rw [heq, List.take_left' rfl]
    have hdrop : d.buf.drop (d.pos + line.length + 1) = rest := by
      have : d.unread.drop (line.length + 1) = rest := by
        rw [heq]
        simp
      rw [← this, unread, List.drop_drop, Nat.add_assoc]
    have hlen := congrArg List.length heq
    rw [length_unread, List.length_append, List.length_cons] at hlen
    unfold unread at hidx htake
    cases hfields : fieldsOf cjson line with
    | none =>
      refine .inr (.inl ⟨?_, ?_⟩)
      · simp only [next, hsplit, whole, if_true, hfields]
      · simp [readHeader, hidx, htake, hfields]
    | some hd =>
      have hunread : (remember { d with pos := d.pos + line.length + 1 } hd).unread = rest :=
        hdrop
      refine .inr (.inr ⟨remember { d with pos := d.pos + line.length + 1 } hd, ?_, ?_, rfl, ?_⟩)
      · simp only [readHeader, hidx, htake, hfields]
      · refine ⟨hfailed, ?_, nofun, ?_⟩
        · show d.pos + line.length + 1 ≤ d.buf.length
          omega
        · intro _
          rw [hunread]
          exact ⟨line, hsplit, hfields⟩
      · rw [hunread, length_unread, hlen]
        omega

-- What a call hands over and keeps of the bytes it starts from.
def Delivers (cjson : CJson) (tail : Bytes) (r : Bool × EventDecoder × List DecodedEvent) :
    Prop :=
  ∃ left, Frames cjson whole tail r.2.2 left ∧ (left = none → r.2.1.failed = true) ∧
    ∀ rest, left = some rest → r.2.1.Holds cjson rest

theorem delivers_wait {ok : Bool} (h : d.Holds cjson tail) (hn : next cjson whole tail = .wait) :
    Delivers cjson tail (ok, d.compact, []) := by
  refine ⟨some tail, .wait hn, nofun, ?_⟩
  intro rest hrest
  cases hrest
  exact h.compact

theorem drain_spec {fuel : Nat} (h : d.Holds cjson tail)
    (hfuel : d.unread.length + (if d.haveHeader then 1 else 0) < fuel) :
    Delivers cjson tail (drain cjson (fun _ => true) fuel d) := by
  induction fuel generalizing d tail with
  | zero => exact absurd hfuel (Nat.not_lt_zero _)
  | succ fuel ih =>
    have hready {d : EventDecoder} (h : d.Holds cjson tail) (hheader : d.haveHeader = true)
        (hlen : d.unread.length < fuel) :
        Delivers cjson tail (if true && d.need ≤ d.buf.length - d.pos then
          (drain cjson (fun _ => true) fuel d.consume).map id (Prod.map id (d.event :: ·))
          else (!d.failed, d.compact, [])) := by
      have hnext := next_of_header h hheader
      rw [← length_unread]
      by_cases hneed : d.need ≤ d.unread.length
      · rw [if_pos hneed] at hnext
        have hconsume := h.consume hneed
        have hless : d.consume.unread.length + 0 < fuel := by
          rw [← hconsume.line rfl, List.length_drop]
          omega
        obtain ⟨left, hframes, hfailed, hholds⟩ := ih hconsume hless
        simp only [hneed]
        exact ⟨left, .frame hnext hframes, hfailed, hholds⟩
      · rw [if_neg hneed] at hnext
        simp only [hneed]
        exact delivers_wait h hnext
    cases hheader : d.haveHeader with
    | true =>
      rw [hheader, if_pos rfl] at hfuel
      simp only [drain, hheader, if_true]
      exact hready h hheader (by omega)
    | false =>
      rw [hheader, if_neg Bool.false_ne_true] at hfuel
      rcases readHeader_spec h hheader with ⟨hn, hread⟩ | ⟨hn, d', hread, hfailed⟩ |
        ⟨d', hread, hholds, hheader', hless⟩
      · simp only [drain, hheader, Bool.false_eq_true, if_false, hread, Bool.false_and]
        exact delivers_wait h hn
      · simp only [drain, hheader, Bool.false_eq_true, if_false, hread, Bool.false_and]
        refine ⟨none, .violation hn, fun _ => ?_, nofun⟩
        rwa [compact_failed]
      · simp only [drain, hheader, Bool.false_eq_true, if_false, hread]
        exact hready hholds hheader' (by omega)

theorem Holds.received (h : d.Holds cjson tail) (chunk : Bytes) :
    ({ d with buf := d.buf ++ chunk } : EventDecoder).Holds cjson (tail ++ chunk) := by
  have hpos := h.pos
  have hunread : ({ d with buf := d.buf ++ chunk } : EventDecoder).unread = d.unread ++ chunk :=
    List.drop_append_of_le_length hpos
  refine ⟨h.failed, ?_, ?_, ?_⟩
  · show d.pos ≤ (d.buf ++ chunk).length
    rw [List.length_append]
    omega
  · intro hline
    rw [hunread, h.line hline]
  · intro hbody
    obtain ⟨line, hsplit, hfields⟩ := h.body hbody
    exact ⟨line, hunread ▸ splitLine_append hsplit, hfields⟩

theorem feed_spec (h : d.Holds cjson tail) (chunk : Bytes) :
    Delivers cjson (tail ++ chunk) (d.feed cjson (fun _ => true) chunk) := by
  unfold feed
  rw [if_neg (by simp [h.failed])]
  refine drain_spec (h.received chunk) ?_
  rw [length_unread]
  by_cases hheader : d.haveHeader = true
  · rw [if_pos hheader]
    omega
  · rw [if_neg hheader]
    omega

-- A decoder that has failed stays so and hands over nothing.
theorem feedAll_failed (hfailed : d.failed = true) (chunks : List Bytes) :
    feedAll cjson (fun _ => true) d chunks = (d, []) := by
  induction chunks with
  | nil => rfl
  | cons chunk chunks ih => simp only [feedAll, feed, if_pos hfailed, ih, List.append_nil]

end EventDecoder

end Espos.Voice

-- Which streams, split in which way, the decoder gives the frames of.

namespace Espos.Voice

open Espos.Text EventDecoder

variable {cjson : CJson} {s more : Bytes}

-- The whole frames in front of a part of the stream, and their events.
inductive Reaches (cjson : CJson) : Bytes → List DecodedEvent → Bytes → Prop where
  | here (s : Bytes) : Reaches cjson s [] s
  | frame {s rest u : Bytes} {event : DecodedEvent} {events : List DecodedEvent} :
    next cjson short s = .frame event rest → Reaches cjson rest events u →
    Reaches cjson s (event :: events) u

-- A header line over the limit that is complete and would be accepted.
def Slips (cjson : CJson) (s : Bytes) (length : Nat) : Prop :=
  ∃ line rest, splitLine s = some (line, rest) ∧ line.length = length ∧
    kMaxHeaderBytes < length ∧ fieldsOf cjson line ≠ none

-- The first one of a stream, and where it starts.
def LongHeader (cjson : CJson) (s : Bytes) (start length : Nat) : Prop :=
  ∃ events u, Reaches cjson s events u ∧ start + u.length = s.length ∧ Slips cjson u length

-- A call of `feed` ends inside that header line, behind the limit.
def Caught (cjson : CJson) (chunks : List Bytes) : Prop :=
  ∀ start length, LongHeader cjson chunks.flatten start length →
    ∃ fed, fed <+: chunks ∧ start + kMaxHeaderBytes < fed.flatten.length ∧
      fed.flatten.length ≤ start + length

-- What the decoder gives is what the grammar says of the stream.
def Grammatical (cjson : CJson) (s : Bytes) (r : EventDecoder × List DecodedEvent) : Prop :=
  ∃ left, Frames cjson short s r.2 left ∧ (r.1.failed = true ↔ left = none)

theorem Reaches.append {events : List DecodedEvent} {u : Bytes} (h : Reaches cjson s events u) :
    Reaches cjson (s ++ more) events (u ++ more) := by
  induction h with
  | here s => exact .here _
  | frame hn _ ih => exact .frame (next_frame_append hn) ih

theorem Reaches.frames {events events' : List DecodedEvent} {u : Bytes} {left : Option Bytes}
    (h : Reaches cjson s events u) (hu : Frames cjson short u events' left) :
    Frames cjson short s (events ++ events') left := by
  induction h with
  | here s => exact hu
  | frame hn _ ih => exact .frame hn (ih hu)

theorem Reaches.length_le {events : List DecodedEvent} {u : Bytes}
    (h : Reaches cjson s events u) : u.length ≤ s.length := by
  induction h with
  | here s => exact Nat.le_refl _
  | frame hn _ ih => exact ih.trans (Nat.le_of_lt (length_lt_of_frame hn))

theorem Frames.reaches {events : List DecodedEvent} {left : Option Bytes}
    (h : Frames cjson short s events left) :
    ∃ u, Reaches cjson s events u ∧ Frames cjson short u [] left := by
  induction h with
  | wait hn => exact ⟨_, .here _, .wait hn⟩
  | violation hn => exact ⟨_, .here _, .violation hn⟩
  | frame hn _ ih =>
    obtain ⟨u, hreach, hu⟩ := ih
    exact ⟨u, .frame hn hreach, hu⟩

-- A stream that slips does so where its frames end.
theorem Slips.next_short {length : Nat} (h : Slips cjson s length) :
    next cjson short s = .violation := by
  obtain ⟨line, rest, hsplit, rfl, hlong, -⟩ := h
  have hshort : short line = false := by
    simp only [short, decide_eq_false_iff_not]
    omega
  simp [next, hsplit, hshort]

theorem Slips.next_whole_ne {length : Nat} (h : Slips cjson s length) :
    next cjson whole s ≠ .violation := by
  obtain ⟨line, rest, hsplit, -, -, hfields⟩ := h
  obtain ⟨hd, hfields⟩ := Option.ne_none_iff_exists'.mp hfields
  simp only [next, hsplit, whole, if_true, hfields]
  by_cases hle : hd.need ≤ rest.length
  · rw [if_pos hle]
    simp
  · rw [if_neg hle]
    simp

theorem Slips.append {length : Nat} (h : Slips cjson s length) : Slips cjson (s ++ more) length := by
  obtain ⟨line, rest, hsplit, hrest⟩ := h
  exact ⟨line, rest ++ more, splitLine_append hsplit, hrest⟩

-- Elsewhere the two ways to look at a header line agree.
theorem next_whole_of_not_slips (h : ∀ length, ¬ Slips cjson s length) :
    next cjson whole s = next cjson short s := by
  cases hsplit : splitLine s with
  | none => simp [next, hsplit]
  | some p =>
    obtain ⟨line, rest⟩ := p
    by_cases hshort : short line = true
    · simp [next, hsplit, hshort, whole]
    · have hlong : kMaxHeaderBytes < line.length := by
        simpa [short] using hshort
      have hnone : fieldsOf cjson line = none := by
        by_contra hfields
        exact h line.length ⟨line, rest, hsplit, rfl, hlong, hfields⟩
      simp [next, hsplit, hshort, whole, hnone]

-- A newline that comes is behind everything that was there.
theorem length_le_of_splitLine_none {line rest : Bytes} (hs : splitLine s = none)
    (h : splitLine (s ++ more) = some (line, rest)) : s.length ≤ line.length := by
  obtain ⟨-, heq⟩ := splitLine_eq_some.mp h
  rcases List.append_eq_append_iff.mp heq with ⟨a, rfl, -⟩ | ⟨c, rfl, hc⟩
  · simp
  · cases c with
    | nil => simp
    | cons b c =>
      cases hc
      exact absurd (splitLine_eq_none.mp hs) (by simp)

theorem next_violation_append (h : next cjson short s = .violation) :
    next cjson short (s ++ more) = .violation := by
  cases hsplit : splitLine s with
  | none =>
    have hlong : kMaxHeaderBytes < s.length := by
      simpa [next, hsplit] using h
    cases hmore : splitLine (s ++ more) with
    | none =>
      have : kMaxHeaderBytes < s.length + more.length := by omega
      simp [next, hmore, this]
    | some p =>
      obtain ⟨line, rest⟩ := p
      have hle := length_le_of_splitLine_none hsplit hmore
      have hshort : short line = false := by
        simp only [short, decide_eq_false_iff_not]
        omega
      simp [next, hmore, hshort]
  | some p =>
    obtain ⟨line, rest⟩ := p
    by_cases hshort : short line = true
    · cases hfields : fieldsOf cjson line with
      | none => simp [next, splitLine_append hsplit, hshort, hfields]
      | some hd =>
        simp only [next, hsplit, hshort, if_true, hfields] at h
        by_cases hle : hd.need ≤ rest.length
        · rw [if_pos hle] at h
          cases h
        · rw [if_neg hle] at h
          cases h
    · simp [next, splitLine_append hsplit, hshort]

theorem next_whole_of_frame {event : DecodedEvent} {rest : Bytes}
    (h : next cjson short s = .frame event rest) : next cjson whole s = .frame event rest := by
  obtain ⟨line, body, hd, hsplit, -, hrest⟩ := next_frame_iff.mp h
  exact next_frame_iff.mpr ⟨line, body, hd, hsplit, rfl, hrest⟩

theorem Frames.violation_append {events : List DecodedEvent} (h : Frames cjson short s events none) :
    Frames cjson short (s ++ more) events none := by
  generalize hleft : (none : Option Bytes) = left at h
  induction h with
  | wait _ => cases hleft
  | violation hn => exact .violation (next_violation_append hn)
  | frame hn _ ih => exact .frame (next_frame_append hn) (ih hleft)

-- Where nothing slips, the decoder sees the grammar's frames.
theorem Frames.short_of_whole {events : List DecodedEvent} {left : Option Bytes}
    (h : Frames cjson whole s events left)
    (hslip : ∀ events u length, Reaches cjson s events u → ¬ Slips cjson u length) :
    Frames cjson short s events left := by
  induction h with
  | wait hn => exact .wait (next_whole_of_not_slips (hslip _ _ · (.here _)) ▸ hn)
  | violation hn => exact .violation (next_whole_of_not_slips (hslip _ _ · (.here _)) ▸ hn)
  | frame hn _ ih =>
    have hn' := next_whole_of_not_slips (hslip _ _ · (.here _)) ▸ hn
    exact .frame hn' (ih fun events u length hreach => hslip _ u length (.frame hn' hreach))

-- The same where something slips, up to there.
theorem Frames.whole_of_reaches {events events' : List DecodedEvent} {u : Bytes}
    {left : Option Bytes} (h : Frames cjson whole s events' left)
    (hreach : Reaches cjson s events u) :
    ∃ more, events' = events ++ more ∧ Frames cjson whole u more left := by
  induction hreach generalizing events' with
  | here s => exact ⟨events', rfl, h⟩
  | frame hn _ ih =>
    have hn' := next_whole_of_frame hn
    cases h with
    | wait hn'' => cases hn'.symm.trans hn''
    | violation hn'' => cases hn'.symm.trans hn''
    | frame hn'' hrest =>
      cases hn'.symm.trans hn''
      obtain ⟨more, rfl, hu⟩ := ih hrest
      exact ⟨more, rfl, hu⟩

-- A frame that is not there yet ends in what comes.
theorem length_rest_le {tail rest : Bytes} {event : DecodedEvent}
    (hw : next cjson short tail = .wait) (hn : next cjson short (tail ++ more) = .frame event rest) :
    rest.length ≤ more.length := by
  obtain ⟨line, body, hd, hsplit, hfits, hfields, hle, -, rfl⟩ := next_frame_iff.mp hn
  cases htail : splitLine tail with
  | none =>
    have hline := length_le_of_splitLine_none htail hsplit
    have hlen := congrArg List.length (splitLine_eq_some.mp hsplit).2
    rw [List.length_append, List.length_append, List.length_cons] at hlen
    rw [List.length_drop]
    omega
  | some p =>
    obtain ⟨line', body'⟩ := p
    rw [splitLine_append htail] at hsplit
    cases hsplit
    by_contra hlt
    rw [List.length_drop, List.length_append] at hlt
    have hready : hd.need ≤ body'.length := by omega
    simp [next, htail, hfits, hfields, hready] at hw

-- What waits for more has nothing of a header line over the limit.
theorem length_le_of_longHeader {tail : Bytes} (hw : next cjson short tail = .wait)
    {start length : Nat} (h : LongHeader cjson (tail ++ more) start length) :
    tail.length ≤ start + kMaxHeaderBytes := by
  obtain ⟨events, u, hreach, hstart, hslip⟩ := h
  rw [List.length_append] at hstart
  cases hreach with
  | here _ =>
    obtain ⟨line, rest, hsplit, rfl, hlong, -⟩ := hslip
    cases htail : splitLine tail with
    | none =>
      have : ¬ kMaxHeaderBytes < tail.length := by
        intro hlt
        simp [next, htail, hlt] at hw
      omega
    | some p =>
      obtain ⟨line', rest'⟩ := p
      rw [splitLine_append htail] at hsplit
      cases hsplit
      have hshort : short line = false := by
        simp only [short, decide_eq_false_iff_not]
        omega
      simp [next, htail, hshort] at hw
  | frame hn hrest =>
    have hle := hrest.length_le
    have hmore := length_rest_le hw hn
    omega

theorem not_of_slipped {d : EventDecoder} {length : Nat} (h : d.Holds cjson s)
    (hw : next cjson whole s = .wait) (hslip : Slips cjson s length) (chunks : List Bytes) :
    ¬ ((feedAll cjson (fun _ => true) d chunks).2 = [] ∧
      (feedAll cjson (fun _ => true) d chunks).1.failed = true) := by
  induction chunks generalizing d s with
  | nil =>
    rintro ⟨-, hfailed⟩
    exact absurd hfailed (by simp [feedAll, h.failed])
  | cons chunk chunks ih =>
    obtain ⟨left, hframes, hfailed, hholds⟩ := feed_spec h chunk
    simp only [feedAll]
    generalize d.feed cjson (fun _ => true) chunk = r at hframes hholds ⊢
    obtain ⟨ok, d', events⟩ := r
    cases hframes with
    | wait hw' => exact fun hall => ih (hholds _ rfl) hw' hslip.append hall
    | violation hn => exact absurd hn (Slips.next_whole_ne hslip.append)
    | frame _ _ =>
      rintro ⟨hnil, -⟩
      exact absurd hnil (by simp)

-- What is caught from a point of the stream on, where `tail` waits for more.
def CaughtFrom (cjson : CJson) (tail : Bytes) (chunks : List Bytes) : Prop :=
  ∀ start length, LongHeader cjson (tail ++ chunks.flatten) start length →
    ∃ fed, fed <+: chunks ∧ start + kMaxHeaderBytes < tail.length + fed.flatten.length ∧
      tail.length + fed.flatten.length ≤ start + length

theorem Slips.lt {length : Nat} (h : Slips cjson s length) :
    kMaxHeaderBytes < length ∧ length < s.length := by
  obtain ⟨line, rest, hsplit, rfl, hlong, -⟩ := h
  have hlen := congrArg List.length (splitLine_eq_some.mp hsplit).2
  rw [List.length_append, List.length_cons] at hlen
  exact ⟨hlong, by omega⟩

theorem Frames.waits {fits : Bytes → Bool} {events : List DecodedEvent} {tail : Bytes}
    (h : Frames cjson fits s events (some tail)) : next cjson fits tail = .wait := by
  generalize hleft : some tail = left at h
  induction h with
  | wait hn =>
    cases hleft
    exact hn
  | violation _ => cases hleft
  | frame _ _ ih => exact ih hleft

theorem Frames.nil_some {fits : Bytes → Bool} {tail : Bytes}
    (h : Frames cjson fits s [] (some tail)) : s = tail := by
  cases h with
  | wait _ => rfl

theorem Frames.nil_none (h : Frames cjson short s [] none) : next cjson short s = .violation := by
  cases h with
  | violation hn => exact hn

theorem Reaches.trans {events events' : List DecodedEvent} {t u : Bytes}
    (h : Reaches cjson s events t) (h' : Reaches cjson t events' u) :
    Reaches cjson s (events ++ events') u := by
  induction h with
  | here s => exact h'
  | frame hn _ ih => exact .frame hn (ih h')

-- A violation is behind everything else that is reached.
theorem Reaches.split {events events' : List DecodedEvent} {t u : Bytes}
    (h : Reaches cjson s events t) (h' : Reaches cjson s events' u)
    (hu : next cjson short u = .violation) : ∃ more, Reaches cjson t more u := by
  induction h generalizing events' with
  | here s => exact ⟨events', h'⟩
  | frame hn _ ih =>
    cases h' with
    | here _ => cases hn.symm.trans hu
    | frame hn' hrest =>
      cases hn.symm.trans hn'
      exact ih hrest

theorem Reaches.eq_of_violation {events : List DecodedEvent} {u : Bytes}
    (h : Reaches cjson s events u) (hs : next cjson short s = .violation) : u = s := by
  cases h with
  | here _ => rfl
  | frame hn _ => cases hn.symm.trans hs

theorem caughtFrom_of_violation {tail chunk : Bytes} {chunks : List Bytes}
    {events : List DecodedEvent}
    (hslip : ∀ events u length, Reaches cjson (tail ++ chunk) events u → ¬ Slips cjson u length)
    (h : Frames cjson short (tail ++ chunk) events none) :
    CaughtFrom cjson tail (chunk :: chunks) := by
  rintro start length ⟨events', u, hreach, hstart, hlong⟩
  obtain ⟨t, ht, hnil⟩ := h.reaches
  have hviolation := hnil.nil_none
  rw [List.flatten_cons, ← List.append_assoc] at hreach hstart
  -- the violation is the long header line, as far as it has come
  have hu : u = t ++ chunks.flatten := by
    obtain ⟨more, hmore⟩ := ht.append.split hreach hlong.next_short
    exact hmore.eq_of_violation (next_violation_append hviolation)
  subst hu
  have hlen := hreach.length_le
  have htlen := ht.length_le
  obtain ⟨line, rest, hsplit, rfl, hline, hfields⟩ := hlong
  cases hsplit' : splitLine t with
  | some p =>
    obtain ⟨line', rest'⟩ := p
    rw [splitLine_append hsplit'] at hsplit
    cases hsplit
    exact absurd ⟨line, rest', hsplit', rfl, hline, hfields⟩ (hslip _ _ _ ht)
  | none =>
    have hover : kMaxHeaderBytes < t.length := by
      simpa [next, hsplit'] using hviolation
    have hle := length_le_of_splitLine_none hsplit' hsplit
    refine ⟨[chunk], ⟨chunks, rfl⟩, ?_⟩
    simp only [List.length_append, List.flatten_cons, List.flatten_nil, List.append_nil]
      at hstart ⊢
    omega

theorem caughtFrom_cons {tail tail' chunk : Bytes} {chunks : List Bytes}
    {events : List DecodedEvent} (hw : next cjson short tail = .wait)
    (h : Reaches cjson (tail ++ chunk) events tail') :
    CaughtFrom cjson tail (chunk :: chunks) ↔ CaughtFrom cjson tail' chunks := by
  have hlen := h.length_le
  rw [List.length_append] at hlen
  constructor
  · rintro hcaught start length ⟨events', u, hreach, hstart, hlong⟩
    have hwhole : LongHeader cjson (tail ++ (chunk :: chunks).flatten)
        (start + (tail.length + chunk.length - tail'.length)) length := by
      refine ⟨events ++ events', u, ?_, ?_, hlong⟩
      · rw [List.flatten_cons, ← List.append_assoc]
        exact h.append.trans hreach
      · simp only [List.length_append, List.flatten_cons] at hstart ⊢
        omega
    have hnot := length_le_of_longHeader hw hwhole
    obtain ⟨fed, hfed, hlt, hle⟩ := hcaught _ _ hwhole
    cases fed with
    | nil =>
      simp only [List.flatten_nil, List.length_nil] at hlt
      omega
    | cons c fed =>
      obtain ⟨rfl, hrest⟩ := List.cons_prefix_cons.mp hfed
      refine ⟨fed, hrest, ?_⟩
      simp only [List.flatten_cons, List.length_append] at hlt hle
      omega
  · rintro hcaught start length ⟨events', u, hreach, hstart, hlong⟩
    rw [List.flatten_cons, ← List.append_assoc] at hreach hstart
    obtain ⟨more, hmore⟩ := h.append.split hreach hlong.next_short
    have hmorelen := hmore.length_le
    simp only [List.length_append] at hstart hmorelen
    obtain ⟨fed, hfed, hlt, hle⟩ := hcaught (start - (tail.length + chunk.length - tail'.length))
      length ⟨more, u, hmore, by rw [List.length_append]; omega, hlong⟩
    refine ⟨chunk :: fed, List.cons_prefix_cons.mpr ⟨rfl, hfed⟩, ?_⟩
    simp only [List.flatten_cons, List.length_append]
    omega

theorem grammatical_cons {d d' : EventDecoder} {ok : Bool} {tail tail' chunk : Bytes}
    {chunks : List Bytes} {events : List DecodedEvent}
    (hfeed : d.feed cjson (fun _ => true) chunk = (ok, d', events))
    (h : Frames cjson short (tail ++ chunk) events (some tail')) :
    Grammatical cjson (tail ++ (chunk :: chunks).flatten)
        (feedAll cjson (fun _ => true) d (chunk :: chunks)) ↔
      Grammatical cjson (tail' ++ chunks.flatten) (feedAll cjson (fun _ => true) d' chunks) := by
  simp only [feedAll, hfeed, Grammatical]
  rw [List.flatten_cons, ← List.append_assoc]
  constructor
  · rintro ⟨left, hframes, hfailed⟩
    obtain ⟨events', left', hrest⟩ := exists_frames cjson short (tail' ++ chunks.flatten)
    obtain ⟨hevents, rfl⟩ := (h.append hrest).unique hframes
    obtain rfl := List.append_cancel_left hevents
    exact ⟨left', hrest, hfailed⟩
  · rintro ⟨left, hframes, hfailed⟩
    exact ⟨left, h.append hframes, hfailed⟩

-- Where a long header line comes whole into one call, nothing is caught any more.
theorem not_caughtFrom {tail chunk u : Bytes} {chunks : List Bytes} {length : Nat}
    {events : List DecodedEvent} (hw : next cjson short tail = .wait)
    (hreach : Reaches cjson (tail ++ chunk) events u) (hslip : Slips cjson u length) :
    ¬ CaughtFrom cjson tail (chunk :: chunks) := by
  intro hcaught
  have hlen := hreach.length_le
  have hlt := hslip.lt
  rw [List.length_append] at hlen
  have hwhole : LongHeader cjson (tail ++ (chunk :: chunks).flatten)
      (tail.length + chunk.length - u.length) length := by
    refine ⟨events, u ++ chunks.flatten, ?_, ?_, hslip.append⟩
    · rw [List.flatten_cons, ← List.append_assoc]
      exact hreach.append
    · simp only [List.length_append, List.flatten_cons]
      omega
  have hnot := length_le_of_longHeader hw hwhole
  obtain ⟨fed, hfed, hover, hle⟩ := hcaught _ _ hwhole
  cases fed with
  | nil =>
    simp only [List.flatten_nil, List.length_nil] at hover
    omega
  | cons c fed =>
    obtain ⟨rfl, -⟩ := List.cons_prefix_cons.mp hfed
    simp only [List.flatten_cons, List.length_append] at hle
    omega

theorem not_grammatical {d : EventDecoder} {tail chunk u : Bytes} {chunks : List Bytes}
    {length : Nat} {events : List DecodedEvent} (h : d.Holds cjson tail)
    (hreach : Reaches cjson (tail ++ chunk) events u) (hslip : Slips cjson u length) :
    ¬ Grammatical cjson (tail ++ (chunk :: chunks).flatten)
        (feedAll cjson (fun _ => true) d (chunk :: chunks)) := by
  rintro ⟨left', hgrammar, hfailed'⟩
  obtain ⟨left, hframes, hfailed, hholds⟩ := feed_spec h chunk
  simp only [feedAll] at hgrammar hfailed'
  generalize d.feed cjson (fun _ => true) chunk = r at hframes hholds hgrammar hfailed'
  obtain ⟨ok, d', given⟩ := r
  obtain ⟨more, rfl, hu⟩ := hframes.whole_of_reaches hreach
  rw [List.flatten_cons, ← List.append_assoc] at hgrammar
  have hlong : Slips cjson (u ++ chunks.flatten) length := hslip.append
  have hends := hreach.append.frames (.violation hlong.next_short)
  obtain ⟨hevents, rfl⟩ := hends.unique hgrammar
  rw [List.append_assoc] at hevents
  have hnil := List.append_cancel_left hevents
  obtain ⟨rfl, hrest⟩ := List.append_eq_nil_iff.mp hnil.symm
  cases hu with
  | wait hw => exact not_of_slipped (hholds _ rfl) hw hslip chunks ⟨hrest, hfailed'.mpr rfl⟩
  | violation hn => exact hslip.next_whole_ne hn

theorem grammatical_iff {d : EventDecoder} {tail : Bytes} (h : d.Holds cjson tail)
    (hw : next cjson short tail = .wait) (chunks : List Bytes) :
    Grammatical cjson (tail ++ chunks.flatten) (feedAll cjson (fun _ => true) d chunks) ↔
      CaughtFrom cjson tail chunks := by
  induction chunks generalizing d tail with
  | nil =>
    rw [List.flatten_nil, List.append_nil]
    constructor
    · rintro - start length hlong
      have hnot := length_le_of_longHeader hw hlong
      obtain ⟨events, u, -, hstart, hslip⟩ := hlong
      have hlt := hslip.lt
      rw [List.flatten_nil, List.append_nil] at hstart
      omega
    · intro _
      exact ⟨some tail, .wait hw, by simp [feedAll, h.failed]⟩
  | cons chunk chunks ih =>
    by_cases hslip : ∀ events u length, Reaches cjson (tail ++ chunk) events u →
        ¬ Slips cjson u length
    · obtain ⟨left, hframes, hfailed, hholds⟩ := feed_spec h chunk
      have hshort := hframes.short_of_whole hslip
      rcases hfeed : d.feed cjson (fun _ => true) chunk with ⟨ok, d', events⟩
      rw [hfeed] at hfailed hholds hshort
      cases left with
      | none =>
        refine iff_of_true ⟨none, ?_, ?_⟩ (caughtFrom_of_violation hslip hshort)
        · simp only [feedAll, hfeed, feedAll_failed (hfailed rfl), List.append_nil]
          rw [List.flatten_cons, ← List.append_assoc]
          exact hshort.violation_append
        · simp only [feedAll, hfeed, feedAll_failed (hfailed rfl)]
          exact iff_of_true (hfailed rfl) trivial
      | some tail' =>
        obtain ⟨u, hreach, hnil⟩ := hshort.reaches
        obtain rfl := hnil.nil_some
        rw [grammatical_cons hfeed hshort, caughtFrom_cons hw hreach]
        exact ih (hholds _ rfl) hshort.waits
    · simp only [not_forall, not_not] at hslip
      obtain ⟨events, u, length, hreach, hlong⟩ := hslip
      exact iff_of_false (not_grammatical h hreach hlong) (not_caughtFrom hw hreach hlong)

def decode (cjson : CJson) (chunks : List Bytes) : EventDecoder × List DecodedEvent :=
  feedAll cjson (fun _ => true) {} chunks

-- One split of a stream: the decoder gives the stream's frames exactly where every header
-- line over the limit that would be accepted is caught.
theorem decode_grammatical_iff (cjson : CJson) (chunks : List Bytes) :
    Grammatical cjson chunks.flatten (decode cjson chunks) ↔ Caught cjson chunks := by
  have hinit : ({} : EventDecoder).Holds cjson [] :=
    ⟨rfl, Nat.le_refl _, fun _ => rfl, nofun⟩
  have hiff := grammatical_iff hinit rfl chunks
  simpa only [decode, CaughtFrom, Caught, List.nil_append, List.length_nil, Nat.zero_add] using hiff

-- Two splits of one stream.
theorem chunking_immaterial_iff (cjson : CJson) (chunks chunks' : List Bytes)
    (h : chunks.flatten = chunks'.flatten) :
    ((decode cjson chunks).2 = (decode cjson chunks').2 ∧
      (decode cjson chunks).1.failed = (decode cjson chunks').1.failed ∧
      Grammatical cjson chunks.flatten (decode cjson chunks)) ↔
    Caught cjson chunks ∧ Caught cjson chunks' := by
  rw [← decode_grammatical_iff, ← decode_grammatical_iff, ← h]
  constructor
  · rintro ⟨hevents, hfailed, left, hframes, hiff⟩
    exact ⟨⟨left, hframes, hiff⟩, left, hevents ▸ hframes, hfailed ▸ hiff⟩
  · rintro ⟨⟨left, hframes, hiff⟩, left', hframes', hiff'⟩
    obtain ⟨hevents, rfl⟩ := hframes.unique hframes'
    exact ⟨hevents, Bool.eq_iff_iff.mpr (hiff.trans hiff'.symm), left, hframes, hiff⟩

def pingLine : Bytes :=
  (lit "\x7b\"type\":\"ping\"\x7d").map fun c => UInt8.ofNat c.toNat

-- cJSON on one document, with any blanks in front of it.
def pingJson : CJson where
  parse line :=
    if line.dropWhile (· == 32) = pingLine then
      some (.object [(lit "type", .string (lit "ping"))])
    else none
  print _ := none

theorem chunking_immaterial_iff_ping :
    (decode pingJson [pingLine ++ [newline]]).2 =
      (decode pingJson [pingLine.take 5, [], pingLine.drop 5, [newline]]).2 := by
  have hshort (chunks : List Bytes) (hlen : chunks.flatten.length = 16) :
      Caught pingJson chunks := by
    rintro start length ⟨events, u, hreach, -, hslip⟩
    have hle := hreach.length_le
    have hlt := hslip.lt
    simp only [kMaxHeaderBytes] at hlt
    omega
  exact ((chunking_immaterial_iff pingJson _ _ (by decide)).mpr
    ⟨hshort _ (by decide), hshort _ (by decide)⟩).1

-- A header line of one byte more than the limit, at once and with its newline apart.
def longLine : Bytes :=
  List.replicate (kMaxHeaderBytes + 1 - pingLine.length) 32 ++ pingLine

theorem splitting_refuses_long_header :
    ¬ ∀ (cjson : CJson) (chunks chunks' : List Bytes), chunks.flatten = chunks'.flatten →
      (decode cjson chunks).2 = (decode cjson chunks').2 ∧
        (decode cjson chunks).1.failed = (decode cjson chunks').1.failed := by
  intro hall
  have hlen : longLine.length = kMaxHeaderBytes + 1 := by
    rw [longLine, List.length_append, List.length_replicate]
    decide
  have hparse : longLine.dropWhile (· == 32) = pingLine := by
    rw [longLine, List.dropWhile_append_of_pos]
    · decide
    · simp
  have hfields : fieldsOf pingJson longLine ≠ none := by
    simp only [fieldsOf, pingJson, hparse, if_true]
    decide
  have hsplit : splitLine (longLine ++ [newline]) = some (longLine, []) := by
    refine splitLine_eq_some.mpr ⟨?_, rfl⟩
    rw [longLine, List.mem_append, List.mem_replicate]
    decide
  have hslips : Slips pingJson (longLine ++ [newline]) (kMaxHeaderBytes + 1) :=
    ⟨longLine, [], hsplit, hlen, Nat.lt_succ_self _, hfields⟩
  have hcaught : Caught pingJson [longLine, [newline]] := by
    rintro start length ⟨events, u, hreach, hstart, line, rest, hline, rfl, -⟩
    obtain rfl := hreach.eq_of_violation hslips.next_short
    cases hsplit.symm.trans hline
    refine ⟨[longLine], ⟨[[newline]], rfl⟩, ?_⟩
    simp only [List.flatten_cons, List.flatten_nil, List.append_nil] at hstart ⊢
    omega
  have hnot : ¬ Caught pingJson [longLine ++ [newline]] := by
    intro hcaught
    obtain ⟨fed, hfed, hlt, hle⟩ := hcaught 0 _ ⟨[], _, .here _, Nat.zero_add _, by simpa using hslips⟩
    rcases List.prefix_cons_iff.mp hfed with rfl | ⟨more, rfl, hmore⟩
    · simp at hlt
    · simp only [List.flatten_cons, List.length_append, List.length_singleton] at hle
      omega
  obtain ⟨hevents, hfailed⟩ := hall pingJson [longLine ++ [newline]] [longLine, [newline]] (by simp)
  obtain ⟨left, hframes, hiff⟩ := (decode_grammatical_iff _ _).mpr hcaught
  apply hnot
  apply (decode_grammatical_iff _ _).mp
  exact ⟨left, by simpa [hevents] using hframes, by rw [hfailed]; exact hiff⟩

end Espos.Voice
