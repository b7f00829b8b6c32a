import Mathlib.Data.List.Infix
import Mathlib.Tactic.Common

-- Lines out of a byte stream: `espos_nmea0183_reader_feed`.

namespace Espos.Nmea0183

-- `ESPOS_NMEA0183_LINE_MAX`
def LINE_MAX : Nat := 160

def CR : UInt8 := 0x0d
def LF : UInt8 := 0x0a

def isEol (c : UInt8) : Bool :=
  c == CR || c == LF

-- '$' or '!'
def isStart (c : UInt8) : Bool :=
  c == 0x24 || c == 0x21

def printable (c : UInt8) : Bool :=
  decide (0x20 ≤ c) && decide (c ≤ 0x7e)

-- Text as bytes.
def ascii (s : String) : List UInt8 :=
  s.toList.map fun c => UInt8.ofNat c.toNat

theorem printable_of_isStart {c : UInt8} (h : isStart c = true) : printable c = true := by
  simp only [isStart, Bool.or_eq_true, beq_iff_eq] at h
  rcases h with rfl | rfl <;> rfl

theorem isEol_eq_false {c : UInt8} (h : printable c = true) : isEol c = false := by
  simp only [printable, Bool.and_eq_true, decide_eq_true_iff] at h
  by_contra heol
  rw [Bool.not_eq_false, isEol, Bool.or_eq_true, beq_iff_eq, beq_iff_eq] at heol
  rcases heol with rfl | rfl
  · exact absurd h.1 (by decide)
  · exact absurd h.1 (by decide)

theorem isEol_iff {c : UInt8} : isEol c = true ↔ c = CR ∨ c = LF := by
  simp [isEol]

-- `espos_nmea0183_reader_t`, with the `len` bytes of `buf` that count.
structure Reader where
  buf : List UInt8
  discarding : Bool
  lines : UInt32
  overflows : UInt32
  resyncs : UInt32
  garbled : UInt32
  fits : buf.length ≤ LINE_MAX
deriving DecidableEq

namespace Reader

-- `espos_nmea0183_reader_init`
def init : Reader :=
  ⟨[], false, 0, 0, 0, 0, Nat.zero_le _⟩

variable (r : Reader)

-- The buffer is given up.
def clear (discarding : Bool) : Reader :=
  { r with buf := [], discarding, fits := Nat.zero_le _ }

-- A line end, and the line handed to the callback.
def finishLine : Reader × Option (List UInt8) :=
  if r.discarding then (r.clear false, none)
  else if r.buf = [] then (r, none)
  else ({ r.clear false with lines := r.lines + 1 }, some r.buf)

-- A start character in the middle of a line cuts off what came before it, and
-- counts as a resync unless it ends a discard.
def resync : Reader :=
  { r.clear false with
    resyncs := if r.buf ≠ [] ∧ r.discarding = false then r.resyncs + 1 else r.resyncs }

-- A byte outside printable ASCII: noise between lines, and the end of the line
-- inside one.
def garble : Reader :=
  if r.buf = [] then r else { r.clear true with garbled := r.garbled + 1 }

def overflow : Reader :=
  { r.clear true with overflows := r.overflows + 1 }

-- A byte of a line that is not skipped.
def append (c : UInt8) : Reader :=
  if h : r.buf.length < LINE_MAX then
    { r with
      buf := r.buf ++ [c]
      fits := by rw [List.length_append]; exact h }
  else r.overflow

def body (c : UInt8) : Reader :=
  let r := if isStart c then r.resync else r
  if r.discarding then r else if printable c then r.append c else r.garble

-- One byte.
def step (c : UInt8) : Reader × Option (List UInt8) :=
  if isEol c then r.finishLine else (r.body c, none)

-- `espos_nmea0183_reader_feed`, with the lines it hands to the callback.
def feed : Reader → List UInt8 → Reader × List (List UInt8)
  | r, [] => (r, [])
  | r, c :: data =>
    let next := r.step c
    let rest := feed next.1 data
    (rest.1, next.2.toList ++ rest.2)

-- One call after the other.
def feeds : Reader → List (List UInt8) → Reader × List (List UInt8)
  | r, [] => (r, [])
  | r, data :: chunks =>
    let next := r.feed data
    let rest := feeds next.1 chunks
    (rest.1, next.2 ++ rest.2)

end Reader

-- A start character and printable bytes without another one, within the limit.
structure Complete (s : List UInt8) : Prop where
  start : ∃ c body, s = c :: body ∧ isStart c = true ∧
    ∀ b ∈ body, printable b = true ∧ isStart b = false
  fits : s.length ≤ LINE_MAX

instance (s : List UInt8) : Decidable (Complete s) :=
  match s with
  | [] => isFalse fun h => by obtain ⟨_, _, hs, _⟩ := h.start; cases hs
  | c :: body =>
    let _ : Decidable (∀ b ∈ body, printable b = true ∧ isStart b = false) :=
      List.decidableBAll _ body
    decidable_of_iff (isStart c = true ∧ (∀ b ∈ body, printable b = true ∧ isStart b = false) ∧
        (c :: body).length ≤ LINE_MAX) (by
      constructor
      · intro ⟨hc, hbody, hfits⟩
        exact ⟨⟨c, body, rfl, hc, hbody⟩, hfits⟩
      · intro ⟨⟨c', body', hs, hc, hbody⟩, hfits⟩
        obtain ⟨rfl, rfl⟩ := List.cons.inj hs
        exact ⟨hc, hbody, hfits⟩)

namespace Reader

variable {r r' : Reader} {c : UInt8} {data data' line : List UInt8}

theorem finishLine_eq_some :
    r.finishLine.2 = some line ↔ r.discarding = false ∧ line ≠ [] ∧ r.buf = line := by
  rw [finishLine]
  cases hd : r.discarding with
  | true => simp
  | false =>
    by_cases hbuf : r.buf = []
    · simp only [hbuf, if_true, Bool.false_eq_true, if_false, reduceCtorEq, false_iff]
      rintro ⟨-, hne, rfl⟩
      exact hne rfl
    · simp only [hbuf, Bool.false_eq_true, if_false, Option.some.injEq]
      constructor
      · rintro rfl
        exact ⟨trivial, hbuf, rfl⟩
      · exact fun h => h.2.2

-- A line is delivered at a line end only, and is what the buffer holds.
theorem step_eq_some : (r.step c).2 = some line ↔
    isEol c = true ∧ r.discarding = false ∧ line ≠ [] ∧ r.buf = line := by
  rw [step]
  cases heol : isEol c with
  | true => simp [finishLine_eq_some]
  | false => simp

theorem feed_append (r : Reader) (data data' : List UInt8) :
    r.feed (data ++ data') =
      (((r.feed data).1.feed data').1, (r.feed data).2 ++ ((r.feed data).1.feed data').2) := by
  induction data generalizing r with
  | nil => simp [feed]
  | cons c data ih => simp [feed, ih, List.append_assoc]

-- However the stream is cut into calls.
theorem feeds_eq (r : Reader) (chunks : List (List UInt8)) :
    r.feeds chunks = r.feed chunks.flatten := by
  induction chunks generalizing r with
  | nil => rfl
  | cons data chunks ih => rw [feeds, ih, List.flatten_cons, feed_append]

-- The byte of the stream at which a line is delivered.
theorem feed_eq_delivered {before after : List (List UInt8)}
    (h : (r.feed data).2 = before ++ line :: after) :
    ∃ pre c post, data = pre ++ c :: post ∧ (r.feed pre).2 = before ∧
      ((r.feed pre).1.step c).2 = some line := by
  induction data generalizing r before with
  | nil => simp [feed] at h
  | cons c data ih =>
    rw [feed] at h
    cases hline : (r.step c).2 with
    | none =>
      simp only [hline, Option.toList_none, List.nil_append] at h
      obtain ⟨pre, c', post, rfl, hbefore, hstep⟩ := ih h
      exact ⟨c :: pre, c', post, rfl, by simp [feed, hline, hbefore], hstep⟩
    | some first =>
      simp only [hline, Option.toList_some, List.singleton_append] at h
      cases before with
      | nil =>
        obtain ⟨rfl, -⟩ := List.cons.inj h
        exact ⟨[], c, data, rfl, rfl, hline⟩
      | cons first' before =>
        obtain ⟨rfl, hrest⟩ := List.cons.inj h
        obtain ⟨pre, c', post, rfl, hbefore, hstep⟩ := ih hrest
        exact ⟨c :: pre, c', post, rfl, by simp [feed, hline, hbefore], hstep⟩

-- What the reader holds after the stream `past`: printable bytes the stream ends
-- in, and nothing while it discards.
structure Held (past : List UInt8) (r : Reader) : Prop where
  suffix : r.buf <:+ past
  ascii : ∀ c ∈ r.buf, printable c = true
  discarding : r.discarding = true → r.buf = []

theorem held_of_nil {past : List UInt8} (hbuf : r.buf = []) : r.Held past :=
  ⟨by simp [hbuf], by simp [hbuf], fun _ => hbuf⟩

theorem Held.append {past : List UInt8} (h : r.Held past) (hd : r.discarding = false)
    (hc : printable c = true) : (r.append c).Held (past ++ [c]) := by
  rw [Reader.append]
  by_cases hfits : r.buf.length < LINE_MAX
  · rw [dif_pos hfits]
    obtain ⟨before, hbefore⟩ := h.suffix
    refine ⟨⟨before, by rw [← hbefore, List.append_assoc]⟩, ?_, fun hd' => ?_⟩
    · intro b hb
      rcases List.mem_append.mp hb with hb | hb
      · exact h.ascii b hb
      · rw [List.mem_singleton.mp hb]
        exact hc
    · rw [hd] at hd'
      cases hd'
  · rw [dif_neg hfits]
    exact held_of_nil rfl

theorem Held.body {past : List UInt8} (h : r.Held past) : (r.body c).Held (past ++ [c]) := by
  have hfrom : ∀ q : Reader, q.Held past →
      (if q.discarding then q else if printable c then q.append c else q.garble).Held
        (past ++ [c]) := by
    intro q hq
    cases hd : q.discarding with
    | true =>
      exact held_of_nil (hq.discarding hd)
    | false =>
      cases hc : printable c with
      | true => exact hq.append hd hc
      | false =>
        simp only [Bool.false_eq_true, if_false, garble]
        by_cases hbuf : q.buf = []
        · rw [if_pos hbuf]
          exact held_of_nil hbuf
        · rw [if_neg hbuf]
          exact held_of_nil rfl
  cases hstart : isStart c with
  | true =>
    simp only [Reader.body, hstart, if_true]
    exact hfrom r.resync (held_of_nil rfl)
  | false =>
    simp only [Reader.body, hstart]
    exact hfrom r h

theorem Held.step {past : List UInt8} (h : r.Held past) : (r.step c).1.Held (past ++ [c]) := by
  rw [Reader.step]
  cases heol : isEol c with
  | false => exact h.body
  | true =>
    simp only [if_true, finishLine]
    cases hd : r.discarding with
    | true => exact held_of_nil rfl
    | false =>
      by_cases hbuf : r.buf = []
      · simp only [hbuf, if_true, Bool.false_eq_true, if_false]
        exact held_of_nil hbuf
      · simp only [hbuf, Bool.false_eq_true, if_false]
        exact held_of_nil rfl

theorem Held.feed {past : List UInt8} (h : r.Held past) (data : List UInt8) :
    (r.feed data).1.Held (past ++ data) := by
  induction data generalizing r past with
  | nil => simpa [Reader.feed] using h
  | cons c data ih =>
    have hrest := ih (h.step (c := c))
    rwa [List.append_assoc, List.singleton_append] at hrest

-- The counters say nothing about what is delivered.
theorem step_congr (hbuf : r.buf = r'.buf) (hd : r.discarding = r'.discarding) (c : UInt8) :
    (r.step c).2 = (r'.step c).2 ∧ (r.step c).1.buf = (r'.step c).1.buf ∧
      (r.step c).1.discarding = (r'.step c).1.discarding := by
  cases r
  cases r'
  subst hbuf hd
  rw [step, step]
  cases isEol c with
  | true =>
    simp only [if_true, finishLine, clear]
    split_ifs <;> simp
  | false =>
    simp only [Bool.false_eq_true, if_false, true_and, body, resync, clear, append, overflow,
      garble]
    split_ifs <;> simp

theorem feed_congr (hbuf : r.buf = r'.buf) (hd : r.discarding = r'.discarding)
    (data : List UInt8) : (r.feed data).2 = (r'.feed data).2 := by
  induction data generalizing r r' with
  | nil => rfl
  | cons c data ih =>
    obtain ⟨hline, hbuf', hd'⟩ := step_congr hbuf hd c
    simp only [feed, hline, ih hbuf' hd']

-- The bytes of a line behind its start character, as long as they fit.
theorem feed_body {body : List UInt8} (hd : r.discarding = false)
    (hbody : ∀ b ∈ body, printable b = true ∧ isStart b = false)
    (hfits : r.buf.length + body.length ≤ LINE_MAX) :
    (r.feed body).2 = [] ∧ (r.feed body).1.buf = r.buf ++ body ∧
      (r.feed body).1.discarding = false := by
  induction body generalizing r with
  | nil => simp [feed, hd]
  | cons b body ih =>
    obtain ⟨hb, hstart⟩ := hbody b List.mem_cons_self
    have hroom : r.buf.length < LINE_MAX := by
      rw [List.length_cons] at hfits
      omega
    have hstep : r.step b = (r.append b, none) := by
      simp [step, isEol_eq_false hb, Reader.body, hstart, hd, hb]
    have happend : (r.append b).buf = r.buf ++ [b] ∧ (r.append b).discarding = false := by
      simp [append, dif_pos hroom, hd]
    have hlen : (r.append b).buf.length + body.length ≤ LINE_MAX := by
      rw [happend.1, List.length_append, List.length_singleton]
      rw [List.length_cons] at hfits
      omega
    obtain ⟨hlines, hbuf, hd'⟩ := ih happend.2 (fun x hx => hbody x (List.mem_cons_of_mem b hx))
      hlen
    simp only [feed, hstep, Option.toList_none, List.nil_append]
    exact ⟨hlines, by rw [hbuf, happend.1, List.append_assoc, List.singleton_append], hd'⟩

-- Whatever the reader held, a complete sentence is all it holds at its end.
theorem feed_sentence {s : List UInt8} (hs : Complete s) (r : Reader) :
    (r.feed s).2 = [] ∧ (r.feed s).1.buf = s ∧ (r.feed s).1.discarding = false := by
  obtain ⟨c, body, rfl, hc, hbody⟩ := hs.start
  have hprint := printable_of_isStart hc
  have hstep : r.step c = (r.resync.append c, none) := by
    simp [step, isEol_eq_false hprint, Reader.body, hc, hprint, resync, clear]
  have happend : (r.resync.append c).buf = [c] ∧ (r.resync.append c).discarding = false := by
    simp [append, resync, clear, LINE_MAX]
  have hfits := hs.fits
  rw [List.length_cons] at hfits
  obtain ⟨hlines, hbuf, hd⟩ := feed_body happend.2 hbody (by
    rw [happend.1, List.length_singleton]
    omega)
  simp only [feed, hstep, Option.toList_none, List.nil_append]
  exact ⟨hlines, by rw [hbuf, happend.1, List.singleton_append], hd⟩

theorem feed_eol (hd : r.discarding = false) (hbuf : r.buf ≠ []) (hc : isEol c = true) :
    (r.feed [c]).2 = [r.buf] ∧ (r.feed [c]).1.buf = [] ∧ (r.feed [c]).1.discarding = false := by
  simp [feed, step, hc, finishLine, hd, hbuf, clear]

-- A line end with nothing before it.
theorem feed_eol_idle (hd : r.discarding = false) (hbuf : r.buf = []) (hc : isEol c = true) :
    (r.feed [c]).2 = [] ∧ (r.feed [c]).1.buf = [] ∧ (r.feed [c]).1.discarding = false := by
  simp [feed, step, hc, finishLine, hd, hbuf]

-- The sentence comes out at its line end, and the reader is between lines then.
theorem feed_sentence_eol {s eol : List UInt8} (hs : Complete s)
    (heol : eol = [CR] ∨ eol = [LF] ∨ eol = [CR, LF]) (r : Reader) :
    (r.feed (s ++ eol)).2 = [s] ∧ (r.feed (s ++ eol)).1.buf = [] ∧
      (r.feed (s ++ eol)).1.discarding = false := by
  obtain ⟨hlines, hbuf, hd⟩ := feed_sentence hs r
  have hne : (r.feed s).1.buf ≠ [] := by
    obtain ⟨c, body, rfl, -⟩ := hs.start
    rw [hbuf]
    exact List.cons_ne_nil c body
  have hend : ∀ c, isEol c = true → ((r.feed s).1.feed [c]).2 = [s] ∧
      ((r.feed s).1.feed [c]).1.buf = [] ∧ ((r.feed s).1.feed [c]).1.discarding = false := by
    intro c hc
    have hfeed := feed_eol hd hne hc
    rwa [hbuf] at hfeed
  rw [feed_append, hlines, List.nil_append]
  rcases heol with rfl | rfl | rfl
  · exact hend CR rfl
  · exact hend LF rfl
  · obtain ⟨hline, hbuf', hd'⟩ := hend CR rfl
    obtain ⟨hnone, hidle⟩ := feed_eol_idle hd' hbuf' (show isEol LF = true from rfl)
    rw [show [CR, LF] = [CR] ++ [LF] from rfl, feed_append, hline, hnone]
    exact ⟨rfl, hidle⟩

-- However the stream is cut into calls, every line delivered stands in it in one
-- piece, printable, within the limit and directly before a line end, at which it
-- is delivered; and a complete sentence with its line end comes out once,
-- whatever garbage is in front of it.
theorem feeds_framed (chunks : List (List UInt8)) :
    (∀ before line after, (init.feeds chunks).2 = before ++ line :: after →
      ∃ pre c post, chunks.flatten = pre ++ line ++ c :: post ∧ (c = CR ∨ c = LF) ∧
        (∀ b ∈ line, printable b = true) ∧ line ≠ [] ∧ line.length ≤ LINE_MAX ∧
        (init.feed (pre ++ line)).2 = before ∧
        (init.feed (pre ++ line ++ [c])).2 = before ++ [line]) ∧
      ∀ garbage s eol rest, chunks.flatten = garbage ++ (s ++ eol) ++ rest → Complete s →
        (eol = [CR] ∨ eol = [LF] ∨ eol = [CR, LF]) →
        (init.feeds chunks).2 = (init.feed garbage).2 ++ s :: (init.feed rest).2 := by
  rw [feeds_eq]
  constructor
  · intro before line after hlines
    obtain ⟨past, c, post, hstream, hbefore, hstep⟩ := feed_eq_delivered hlines
    obtain ⟨hc, -, hne, hbuf⟩ := step_eq_some.mp hstep
    have hinit : init.Held [] := held_of_nil rfl
    have hheld : (init.feed past).1.Held past := by
      simpa using hinit.feed past
    obtain ⟨pre, hpre⟩ := hheld.suffix
    rw [hbuf] at hpre
    subst hpre
    have hend : (init.feed (pre ++ line ++ [c])).2 = before ++ [line] := by
      rw [feed_append, hbefore]
      simp [feed, hstep]
    refine ⟨pre, c, post, hstream, isEol_iff.mp hc, ?_, hne, ?_, hbefore, hend⟩
    · rw [← hbuf]
      exact hheld.ascii
    · rw [← hbuf]
      exact (init.feed (pre ++ line)).1.fits
  · intro garbage s eol rest hstream hs heol
    obtain ⟨hline, hbuf, hd⟩ := feed_sentence_eol hs heol (init.feed garbage).1
    have hrest : ((((init.feed garbage).1.feed (s ++ eol)).1).feed rest).2 = (init.feed rest).2 :=
      feed_congr hbuf hd rest
    rw [hstream, feed_append, feed_append, hline]
    simp only [hrest, List.append_assoc, List.singleton_append]

-- A sentence behind noise, cut twice.
theorem cut_sentence_framed :
    let chunks := [ascii "a,b$GP", ascii "HDT,12\r", ascii "\n"]
    (init.feeds chunks).2 = [ascii "$GPHDT,12"] ∧
      ∃ pre c post, chunks.flatten = pre ++ ascii "$GPHDT,12" ++ c :: post ∧ (c = CR ∨ c = LF) := by
  intro chunks
  have hframed := feeds_framed chunks
  have hlines : (init.feeds chunks).2 = [ascii "$GPHDT,12"] :=
    (hframed.2 (ascii "a,b") (ascii "$GPHDT,12") [CR, LF] [] (by decide +kernel)
      (by decide +kernel) (by decide)).trans (by decide +kernel)
  obtain ⟨pre, c, post, hstream, hc, -⟩ := hframed.1 [] (ascii "$GPHDT,12") [] hlines
  exact ⟨hlines, pre, c, post, hstream, hc⟩

end Reader

end Espos.Nmea0183
