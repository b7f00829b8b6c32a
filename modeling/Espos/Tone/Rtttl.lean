import Espos.Lib.Tokens

-- The tune parser of `rtttl.c`.

namespace Espos.Tone

open Espos.Tokens

abbrev Bytes := List UInt8

structure Note where
  freqHz : UInt16
  durationMs : UInt16

def comma : UInt8 := 0x2C

def colon : UInt8 := 0x3A

def octave4Hz : List Float :=
  [261.63, 277.18, 293.66, 311.13, 329.63, 349.23, 369.99, 392.00, 415.30, 440.00, 466.16, 493.88]

def tolower (c : UInt8) : UInt8 :=
  if 0x41 ≤ c ∧ c ≤ 0x5A then c + 0x20 else c

def semitoneOf (letter : UInt8) : Option Nat :=
  if tolower letter = 0x63 then some 0
  else if tolower letter = 0x64 then some 2
  else if tolower letter = 0x65 then some 4
  else if tolower letter = 0x66 then some 5
  else if tolower letter = 0x67 then some 7
  else if tolower letter = 0x61 then some 9
  else if tolower letter = 0x62 then some 11
  else none

def octaveMax : Nat := 8

def numberMax : Nat := 9999

-- An octave is twelve semitones. The frequency doubles or halves once an octave from the fourth.
def noteFreqHz (semitone : Nat) (sharp : Bool) (octave : Nat) : UInt16 :=
  let idx := semitone + if sharp then 1 else 0
  let oct := min octave octaveMax + idx / 12
  let hz := octave4Hz.getD (idx % 12) 0
  let hz := Nat.repeat (· * 2.0) (oct - 4) hz
  let hz := Nat.repeat (· / 2.0) (4 - oct) hz
  (hz + 0.5).toUInt16

def isDigit (c : UInt8) : Bool :=
  0x30 ≤ c && c ≤ 0x39

def addDigit (v : Nat) (c : UInt8) : Nat :=
  if v ≤ numberMax then v * 10 + (c.toNat - 0x30) else v

-- No number where there is no digit.
def readDigits (p : Bytes) : Option Nat × Bytes :=
  let digits := p.takeWhile isDigit
  (if digits = [] then none else some (min (digits.foldl addDigit 0) numberMax),
    p.dropWhile isDigit)

structure Defaults where
  duration : Nat
  octave : Nat
  bpm : Nat

def Defaults.initial : Defaults where
  duration := 4
  octave := 5
  bpm := 63

def Defaults.set (d : Defaults) (key : UInt8) (val : Nat) : Defaults :=
  if key = 0x64 then { d with duration := val }
  else if key = 0x6F then { d with octave := val }
  else if key = 0x62 then { d with bpm := val }
  else d

def isSeparator (c : UInt8) : Bool :=
  c = 0x20 || c = comma

def toComma (p : Bytes) : Bytes :=
  p.dropWhile (· ≠ comma)

-- From a key on: its value where it has one, and where the reading goes on.
def readKey (d : Defaults) (key : UInt8) (q : Bytes) : Defaults × Bytes :=
  match q.dropWhile fun c => c ≠ 0x3D && c ≠ comma with
  | [] => (d, [])
  | c :: v =>
    if c = 0x3D then
      let val := readDigits v
      (val.1.elim d (d.set key), val.2)
    else (d, c :: v)

def readDefaults : Nat → Bytes → Defaults → Option Defaults
  | 0, _, _ => none
  | rounds + 1, q, d =>
    match q.dropWhile isSeparator with
    | [] => some d
    | c :: q =>
      let read := readKey d (tolower c) (c :: q)
      readDefaults rounds (toComma read.2) read.1

def notColon (c : UInt8) : Bool :=
  c ≠ colon

-- The defaults, and the text of the notes. There are none behind a name alone.
def readHeading (text : Bytes) : Option (Defaults × Bytes) :=
  match text.dropWhile notColon with
  | [] => some (Defaults.initial, text)
  | _ :: p =>
    let defs := p.takeWhile notColon
    (readDefaults (defs.length + 1) defs Defaults.initial).map fun d =>
      (d, (p.dropWhile notColon).drop 1)

def isPause (letter : UInt8) : Bool :=
  tolower letter = 0x70

def note (d : Defaults) (duration : Nat) (letter : UInt8) (sharp dotted : Bool) (octave : Nat) :
    Note :=
  let wholeNoteMs := 240000.0 / d.bpm.toFloat
  let duration := if duration = 0 then if 0 < d.duration then d.duration else 4 else duration
  let ms := wholeNoteMs / duration.toFloat
  let ms := if dotted then ms * 1.5 else ms
  { freqHz := if isPause letter then 0 else noteFreqHz ((semitoneOf letter).getD 0) sharp octave
    durationMs := if ms < 65535.0 then (ms + 0.5).toUInt16 else 65535 }

def readMark (mark : UInt8) (p : Bytes) : Bool × Bytes :=
  match p with
  | [] => (false, [])
  | c :: rest => if c = mark then (true, rest) else (false, c :: rest)

-- What follows the letter of a note.
def readNote (d : Defaults) (duration : Nat) (letter : UInt8) (p : Bytes) : Note × Bytes :=
  let sharp := readMark 0x23 p
  let dot := readMark 0x2E sharp.2
  let octave := readDigits dot.2
  let dot' := readMark 0x2E octave.2
  (note d duration letter sharp.1 (dot.1 || dot'.1) (octave.1.getD d.octave), dot'.2)

-- From the letter on. The text may end there, and a letter that is none costs its token.
def readToken (d : Defaults) (duration : Nat) (p : Bytes) : Option (Option Note × Bytes) :=
  match p with
  | [] => none
  | letter :: rest =>
    if isPause letter = false ∧ semitoneOf letter = none then
      some (none, toComma (letter :: rest))
    else
      let read := readNote d duration letter rest
      some (some read.1, read.2)

-- One round of the loop over the notes, where it does not end it.
def readRound (d : Defaults) (p : Bytes) : Option (Option Note × Bytes) :=
  let p := p.dropWhile isSeparator
  if p = [] then none
  else
    let duration := readDigits p
    readToken d (duration.1.getD d.duration) duration.2

def readNotes (d : Defaults) (max : Nat) : Nat → Bytes → List Note → Option (List Note)
  | 0, _, _ => none
  | rounds + 1, p, out =>
    if p = [] ∨ max ≤ out.length then some out
    else
      match readRound d p with
      | none => some out
      | some (found, rest) => readNotes d max rounds rest (out ++ found.toList)

-- `espos_rtttl_parse`. A string ends at its first NUL.
def parse (rtttl : Option Bytes) (max : Nat) : Option (List Note) :=
  match rtttl with
  | none => some []
  | some bytes =>
    (readHeading (bytes.takeWhile (· ≠ 0))).bind fun heading =>
      if heading.1.bpm = 0 ∨ heading.1.duration = 0 then some []
      else readNotes heading.1 max (heading.2.length + 1) heading.2 []

-- Every reader stops at a comma.

theorem readDigits_comma (xs ys : Bytes) :
    readDigits (xs ++ comma :: ys) = ((readDigits xs).1, (readDigits xs).2 ++ comma :: ys) := by
  have hcomma : isDigit comma = false := by decide
  unfold readDigits
  rw [takeWhile_stops hcomma, dropWhile_stops hcomma]

theorem toComma_comma (xs ys : Bytes) :
    toComma (xs ++ comma :: ys) = toComma xs ++ comma :: ys :=
  dropWhile_stops (p := fun c : UInt8 => c ≠ comma) (by decide) xs ys

theorem toComma_of_comma (ys : Bytes) : toComma (comma :: ys) = comma :: ys :=
  toComma_comma [] ys

theorem readMark_comma {mark : UInt8} (hmark : comma ≠ mark) (xs ys : Bytes) :
    readMark mark (xs ++ comma :: ys) =
      ((readMark mark xs).1, (readMark mark xs).2 ++ comma :: ys) := by
  cases xs with
  | nil => simp only [readMark, List.nil_append, if_neg hmark]
  | cons x xs =>
    by_cases hx : x = mark
    · simp only [readMark, List.cons_append, if_pos hx]
    · simp only [readMark, List.cons_append, if_neg hx]

theorem readNote_comma (d : Defaults) (duration : Nat) (letter : UInt8) (xs ys : Bytes) :
    readNote d duration letter (xs ++ comma :: ys) =
      ((readNote d duration letter xs).1, (readNote d duration letter xs).2 ++ comma :: ys) := by
  have hsharp : comma ≠ 0x23 := by decide
  have hdot : comma ≠ 0x2E := by decide
  simp only [readNote, readMark_comma hsharp, readMark_comma hdot, readDigits_comma]

variable {d : Defaults} {duration : Nat} {found : Option Note} {p xs rest : Bytes}

theorem readToken_comma (ys : Bytes) (h : readToken d duration xs = some (found, rest)) :
    readToken d duration (xs ++ comma :: ys) = some (found, rest ++ comma :: ys) := by
  cases xs with
  | nil => exact absurd h (Option.some_ne_none _).symm
  | cons letter xs =>
    unfold readToken at h ⊢
    rw [List.cons_append]
    by_cases hnone : isPause letter = false ∧ semitoneOf letter = none
    · simp only [if_pos hnone] at h ⊢
      obtain ⟨rfl, rfl⟩ := Prod.mk.inj (Option.some.inj h)
      rw [← List.cons_append, toComma_comma]
    · simp only [if_neg hnone] at h ⊢
      obtain ⟨rfl, rfl⟩ := Prod.mk.inj (Option.some.inj h)
      rw [readNote_comma]

theorem readToken_of_comma (ys : Bytes) :
    readToken d duration (comma :: ys) = some (none, comma :: ys) := by
  have hnone : isPause comma = false ∧ semitoneOf comma = none := by decide
  unfold readToken
  simp only [if_pos hnone, toComma_of_comma]

theorem readToken_none (h : readToken d duration p = none) : p = [] := by
  cases p with
  | nil => rfl
  | cons letter rest =>
    unfold readToken at h
    by_cases hnone : isPause letter = false ∧ semitoneOf letter = none
    · simp only [if_pos hnone] at h
      exact absurd h (Option.some_ne_none _)
    · simp only [if_neg hnone] at h
      exact absurd h (Option.some_ne_none _)

theorem readRound_apart (d : Defaults) : Apart (readRound d) comma where
  next ys := by
    unfold readRound
    rw [List.dropWhile_cons_of_pos (by decide)]
  go := by
    intro xs found rest ys h
    unfold readRound at h ⊢
    rw [List.dropWhile_append]
    by_cases hnone : xs.dropWhile isSeparator = []
    · simp only [if_pos hnone] at h
      exact absurd h (Option.some_ne_none _).symm
    · have hsome : ¬xs.dropWhile isSeparator ++ comma :: ys = [] := by simp
      simp only [List.isEmpty_iff, if_neg hnone, if_neg hsome, readDigits_comma] at h ⊢
      exact readToken_comma ys h
  stop := by
    intro xs ys h
    unfold readRound at h ⊢
    rw [List.dropWhile_append]
    by_cases hnone : xs.dropWhile isSeparator = []
    · refine Or.inl ?_
      rw [if_pos (List.isEmpty_iff.2 hnone), List.dropWhile_cons_of_pos (by decide)]
    · refine Or.inr ?_
      have hsome : ¬xs.dropWhile isSeparator ++ comma :: ys = [] := by simp
      simp only [List.isEmpty_iff, if_neg hnone, if_neg hsome, readDigits_comma] at h ⊢
      rw [readToken_none h]
      exact readToken_of_comma ys

theorem length_readDigits_le (p : Bytes) : (readDigits p).2.length ≤ p.length :=
  List.length_dropWhile_le _ p

theorem length_toComma_le (p : Bytes) : (toComma p).length ≤ p.length :=
  List.length_dropWhile_le _ p

theorem length_readMark_le (mark : UInt8) (p : Bytes) :
    (readMark mark p).2.length ≤ p.length := by
  cases p with
  | nil => exact Nat.le_refl _
  | cons c rest =>
    by_cases hc : c = mark
    · simp only [readMark, if_pos hc, List.length_cons]
      omega
    · simp only [readMark, if_neg hc, Nat.le_refl]

theorem length_readNote_le (d : Defaults) (duration : Nat) (letter : UInt8) (p : Bytes) :
    (readNote d duration letter p).2.length ≤ p.length := by
  unfold readNote
  calc (readMark 0x2E (readDigits (readMark 0x2E (readMark 0x23 p).2).2).2).2.length
      ≤ (readDigits (readMark 0x2E (readMark 0x23 p).2).2).2.length := length_readMark_le _ _
    _ ≤ (readMark 0x2E (readMark 0x23 p).2).2.length := length_readDigits_le _
    _ ≤ (readMark 0x23 p).2.length := length_readMark_le _ _
    _ ≤ p.length := length_readMark_le _ _

theorem length_toComma_lt {c : UInt8} (hc : c ≠ comma) (p : Bytes) :
    (toComma (c :: p)).length < (c :: p).length := by
  have hskip : toComma (c :: p) = toComma p := List.dropWhile_cons_of_pos (by simpa using hc)
  have := length_toComma_le p
  rw [hskip, List.length_cons]
  omega

-- A token costs something, unless there is none in front of a comma.
theorem length_of_readToken (h : readToken d duration p = some (found, rest)) :
    rest.length < p.length ∨ p.head? = some comma ∧ rest = p := by
  cases p with
  | nil => exact absurd h (Option.some_ne_none _).symm
  | cons letter p =>
    unfold readToken at h
    by_cases hnone : isPause letter = false ∧ semitoneOf letter = none
    · simp only [if_pos hnone] at h
      obtain ⟨rfl, rfl⟩ := Prod.mk.inj (Option.some.inj h)
      by_cases hcomma : letter = comma
      · subst hcomma
        exact Or.inr ⟨rfl, toComma_of_comma p⟩
      · exact Or.inl (length_toComma_lt hcomma p)
    · simp only [if_neg hnone] at h
      obtain ⟨rfl, rfl⟩ := Prod.mk.inj (Option.some.inj h)
      have := length_readNote_le d duration letter p
      rw [List.length_cons]
      omega

theorem head_skipped :
    (p.dropWhile isSeparator).head? ≠ some comma := by
  intro hcomma
  have hstop := List.head?_dropWhile_not isSeparator p
  rw [hcomma] at hstop
  exact absurd hstop (by decide)

-- A comma that was not there at first is behind a number.
theorem length_readDigits_lt (hfirst : p.head? ≠ some comma)
    (hcomma : (readDigits p).2.head? = some comma) : (readDigits p).2.length < p.length := by
  cases p with
  | nil => exact absurd hcomma (Option.some_ne_none _).symm
  | cons c p =>
    by_cases hc : isDigit c = true
    · have hskip : (readDigits (c :: p)).2 = (readDigits p).2 := List.dropWhile_cons_of_pos hc
      have := length_readDigits_le p
      rw [hskip, List.length_cons]
      omega
    · have hkeep : (readDigits (c :: p)).2 = c :: p := List.dropWhile_cons_of_neg hc
      rw [hkeep] at hcomma
      exact absurd hcomma hfirst

theorem readRound_advances (d : Defaults) : Advances (readRound d) := by
  intro p found rest h
  have hskip := List.length_dropWhile_le isSeparator p
  unfold readRound at h
  by_cases hnone : p.dropWhile isSeparator = []
  · simp only [if_pos hnone] at h
    exact absurd h (Option.some_ne_none _).symm
  · simp only [if_neg hnone] at h
    cases length_of_readToken h with
    | inl hless =>
      have := length_readDigits_le (p.dropWhile isSeparator)
      omega
    | inr hcomma =>
      have hless := length_readDigits_lt head_skipped hcomma.1
      rw [hcomma.2]
      omega

-- The loop takes of what the rounds yield as many notes as there is room for.
theorem readNotes_eq {max : Nat} {notes : List Note} (h : Yields (readRound d) p notes) :
    ∀ {rounds out}, p.length < rounds → out.length ≤ max →
      readNotes d max rounds p out = some ((out ++ notes).take max) := by
  induction h with
  | @stop p hstop =>
    intro rounds out hrounds hout
    cases rounds with
    | zero => exact absurd hrounds (Nat.not_lt_zero _)
    | succ rounds =>
      rw [List.append_nil, List.take_of_length_le hout]
      unfold readNotes
      by_cases hend : p = [] ∨ max ≤ out.length
      · rw [if_pos hend]
      · simp only [if_neg hend, hstop]
  | @go p found rest notes hgo more ih =>
    intro rounds out hrounds hout
    cases rounds with
    | zero => exact absurd hrounds (Nat.not_lt_zero _)
    | succ rounds =>
      have hless := readRound_advances d p found rest hgo
      have hsome : p ≠ [] := List.ne_nil_of_length_pos (by omega)
      unfold readNotes
      by_cases hfull : max ≤ out.length
      · rw [if_pos (Or.inr hfull), List.take_append_of_le_length hfull,
          List.take_of_length_le hout]
      · have hmore : (out ++ found.toList).length ≤ max := by
          cases found with
          | none => simpa using hout
          | some note =>
            rw [Option.toList_some, List.length_append, List.length_singleton]
            omega
        rw [if_neg (by simp only [hsome, hfull, or_self, not_false_eq_true])]
        simp only [hgo]
        rw [ih (by omega) hmore, List.append_assoc]

-- A key costs something: its value, or what stands in front of the next comma.
theorem length_readKey_lt (d : Defaults) (key : UInt8) {q : Bytes} (hsome : q ≠ [])
    (hfirst : q.head? ≠ some comma) : (readKey d key q).2.length < q.length := by
  have hpos := List.length_pos_of_ne_nil hsome
  have hstop := List.head?_dropWhile_not (fun c : UInt8 => c ≠ 0x3D && c ≠ comma) q
  have hsuffix := List.dropWhile_suffix (l := q) (fun c : UInt8 => c ≠ 0x3D && c ≠ comma)
  unfold readKey
  cases heq : q.dropWhile fun c => c ≠ 0x3D && c ≠ comma with
  | nil => exact hpos
  | cons c v =>
    rw [heq] at hstop hsuffix
    have hle := hsuffix.length_le
    rw [List.length_cons] at hle
    by_cases hvalue : c = 0x3D
    · simp only [if_pos hvalue]
      have := length_readDigits_le v
      omega
    · have hcomma : c = comma := by simpa [hvalue] using hstop
      simp only [if_neg hvalue, List.length_cons]
      refine lt_of_le_of_ne hle fun hlen => hfirst ?_
      rw [← hsuffix.eq_of_length hlen, hcomma]
      rfl

theorem readDefaults_some {rounds : Nat} :
    ∀ {q d}, q.length < rounds → ∃ d', readDefaults rounds q d = some d' := by
  induction rounds with
  | zero => intro q d h; omega
  | succ rounds ih =>
    intro q d h
    unfold readDefaults
    have hfirst := head_skipped (p := q)
    have hskip := List.length_dropWhile_le isSeparator q
    cases hrest : q.dropWhile isSeparator with
    | nil => exact ⟨d, rfl⟩
    | cons c rest =>
      rw [hrest] at hfirst hskip
      have hkey := length_readKey_lt d (tolower c) (List.cons_ne_nil c rest) hfirst
      have hcomma := length_toComma_le (readKey d (tolower c) (c :: rest)).2
      exact ih (by omega)

theorem readHeading_some (text : Bytes) : ∃ d p, readHeading text = some (d, p) := by
  unfold readHeading
  cases text.dropWhile notColon with
  | nil => exact ⟨_, _, rfl⟩
  | cons c p =>
    obtain ⟨d, hd⟩ := readDefaults_some (q := p.takeWhile notColon)
      (d := Defaults.initial) (Nat.lt_succ_self _)
    exact ⟨d, _, by rw [Option.map_eq_some_iff]; exact ⟨d, hd, rfl⟩⟩

-- A text of bytes that neither end it nor part it.
structure Plain where
  text : Bytes
  plain : ∀ c ∈ text, c ≠ 0 ∧ c ≠ colon

def Plain.empty : Plain where
  text := []
  plain := by simp

-- Two texts with a comma between them.
def Plain.append (a b : Plain) : Plain where
  text := a.text ++ comma :: b.text
  plain := by
    intro c hc
    cases List.mem_append.1 hc with
    | inl ha => exact a.plain c ha
    | inr hb =>
      cases List.mem_cons.1 hb with
      | inl hcomma =>
        rw [hcomma]
        decide
      | inr hb => exact b.plain c hb

def joined : List Plain → Plain
  | [] => Plain.empty
  | [token] => token
  | token :: token' :: tokens => token.append (joined (token' :: tokens))

-- What stands in front of the notes: nothing, or a name and the defaults.
def heading : Option (Plain × Plain) → Bytes
  | none => []
  | some (name, defs) => name.text ++ colon :: (defs.text ++ [colon])

theorem Plain.not_nul (a : Plain) : ∀ c ∈ a.text, c ≠ 0 :=
  fun c hc => (a.plain c hc).1

theorem heading_not_nul (h : Option (Plain × Plain)) : ∀ c ∈ heading h, c ≠ 0 := by
  intro c hc
  have hcolon : colon ≠ 0 := by decide
  cases h with
  | none => exact absurd hc List.not_mem_nil
  | some parts =>
    simp only [heading, List.mem_append, List.mem_cons, List.not_mem_nil, or_false] at hc
    rcases hc with hname | rfl | hdefs | rfl
    · exact parts.1.not_nul c hname
    · exact hcolon
    · exact parts.2.not_nul c hdefs
    · exact hcolon

-- The string ends where it is taken to end.
theorem heading_whole (h : Option (Plain × Plain)) (a : Plain) :
    (heading h ++ a.text).takeWhile (fun c => c ≠ 0) = heading h ++ a.text := by
  rw [List.takeWhile_eq_self_iff]
  intro c hc
  cases List.mem_append.1 hc with
  | inl hh => simpa using heading_not_nul h c hh
  | inr ha => simpa using a.not_nul c ha

theorem Plain.takeWhile_eq (a : Plain) : a.text.takeWhile notColon = a.text :=
  List.takeWhile_eq_self_iff.2 fun c hc => by simpa [notColon] using (a.plain c hc).2

theorem Plain.dropWhile_eq (a : Plain) : a.text.dropWhile notColon = [] :=
  List.dropWhile_eq_nil_iff.2 fun c hc => by simpa [notColon] using (a.plain c hc).2

-- The defaults of a tune do not depend on its notes.
theorem readHeading_plain (h : Option (Plain × Plain)) :
    ∃ d, ∀ a : Plain, readHeading (heading h ++ a.text) = some (d, a.text) := by
  have hcolon : notColon colon = false := by decide
  cases h with
  | none =>
    refine ⟨Defaults.initial, fun a => ?_⟩
    unfold heading readHeading
    rw [List.nil_append, a.dropWhile_eq]
  | some parts =>
    obtain ⟨name, defs⟩ := parts
    obtain ⟨d, hd⟩ := readDefaults_some (q := defs.text) (d := Defaults.initial)
      (Nat.lt_succ_self _)
    refine ⟨d, fun a => ?_⟩
    have htext : heading (some (name, defs)) ++ a.text =
        name.text ++ colon :: (defs.text ++ colon :: a.text) := by
      simp only [heading, List.append_assoc, List.cons_append, List.nil_append]
    unfold readHeading
    rw [htext, dropWhile_stops hcolon, name.dropWhile_eq, List.nil_append]
    dsimp only
    rw [takeWhile_stops hcolon, dropWhile_stops hcolon, defs.takeWhile_eq, defs.dropWhile_eq,
      hd]
    rfl

theorem parse_some (rtttl : Option Bytes) (max : Nat) : ∃ notes, parse rtttl max = some notes := by
  cases rtttl with
  | none => exact ⟨[], rfl⟩
  | some bytes =>
    obtain ⟨d, p, hheading⟩ := readHeading_some (bytes.takeWhile fun c => c ≠ 0)
    unfold parse
    simp only [hheading, Option.bind_some]
    by_cases hnone : d.bpm = 0 ∨ d.duration = 0
    · rw [if_pos hnone]
      exact ⟨[], rfl⟩
    · rw [if_neg hnone]
      obtain ⟨notes, hnotes⟩ := Yields.of_advances (readRound_advances d) p
      exact ⟨_, readNotes_eq hnotes (Nat.lt_succ_self _) (Nat.zero_le _)⟩

-- What the notes of a text are under a heading, with room for all of them.
theorem parse_plain (h : Option (Plain × Plain)) :
    ∃ notesOf : Plain → List Note,
      (∀ text max, parse (some (heading h ++ text.text)) max = some ((notesOf text).take max)) ∧
        notesOf Plain.empty = [] ∧ ∀ a b, notesOf (a.append b) = notesOf a ++ notesOf b := by
  obtain ⟨d, hd⟩ := readHeading_plain h
  by_cases hnone : d.bpm = 0 ∨ d.duration = 0
  · refine ⟨fun _ => [], fun text max => ?_, rfl, fun _ _ => rfl⟩
    unfold parse
    simp only [heading_whole, hd, Option.bind_some, if_pos hnone, List.take_nil]
  · choose notesOf hnotesOf using fun text : Plain =>
      Yields.of_advances (readRound_advances d) text.text
    refine ⟨notesOf, fun text max => ?_, ?_, fun a b => ?_⟩
    · unfold parse
      simp only [heading_whole, hd, Option.bind_some, if_neg hnone]
      exact readNotes_eq (hnotesOf text) (Nat.lt_succ_self _) (Nat.zero_le _)
    · exact Yields.unique (Yields.stop rfl) (hnotesOf Plain.empty)
    · have hab := (readRound_apart d).append (hnotesOf a) (hnotesOf b)
      exact hab.unique (hnotesOf (a.append b))

theorem notes_of_joined {notesOf : Plain → List Note} (hempty : notesOf Plain.empty = [])
    (happend : ∀ a b, notesOf (a.append b) = notesOf a ++ notesOf b) (tokens : List Plain) :
    notesOf (joined tokens) = tokens.flatMap notesOf := by
  induction tokens with
  | nil => exact hempty
  | cons token tokens ih =>
    rw [List.flatMap_cons, ← ih]
    cases tokens with
    | nil => rw [joined, joined, hempty, List.append_nil]
    | cons token' tokens => exact happend token (joined (token' :: tokens))

-- Every text is read to an end. Under a heading, what is read of a token is its own, wherever
-- it stands.
theorem garbled_token_costs_itself :
    (∀ rtttl max, ∃ notes, parse rtttl max = some notes) ∧
      ∀ h : Option (Plain × Plain), ∃ notesOf : Plain → List Note,
        (∀ text max,
          parse (some (heading h ++ text.text)) max = some ((notesOf text).take max)) ∧
        (∀ a b, notesOf (a.append b) = notesOf a ++ notesOf b) ∧
        ∀ before token after, notesOf (joined (before ++ token :: after)) =
          before.flatMap notesOf ++ notesOf token ++ after.flatMap notesOf := by
  refine ⟨parse_some, fun h => ?_⟩
  obtain ⟨notesOf, hparse, hempty, happend⟩ := parse_plain h
  refine ⟨notesOf, hparse, happend, fun before token after => ?_⟩
  rw [notes_of_joined hempty happend, List.flatMap_append, List.flatMap_cons, List.append_assoc]

end Espos.Tone
