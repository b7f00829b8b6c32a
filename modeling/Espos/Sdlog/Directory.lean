import Espos.Lib.Lines
import Espos.Sdlog.Session

-- A close record is read back as it was written.

namespace Espos.Sdlog

open Espos.Text Espos.Scan

theorem isHex_digitChar : ∀ n < 16, isHex (Nat.digitChar n) = true := by
  decide

theorem isHex_of_mem_hexWord {w : UInt32} {c : Char} (h : c ∈ hexWord w) : isHex c = true := by
  obtain ⟨j, -, hc⟩ := List.mem_flatMap.mp h
  have hbyte := (w >>> .ofNat (24 - 8 * j)).toUInt8.toNat_lt
  rcases List.mem_cons.mp hc with rfl | hc
  · exact isHex_digitChar _ (by omega)
  · obtain rfl := List.mem_singleton.mp hc
    exact isHex_digitChar _ (Nat.mod_lt _ (by decide))

theorem isHex_of_mem_hex {sha : Sha256} {c : Char} (h : c ∈ sha.hex) : isHex c = true := by
  obtain ⟨w, -, hc⟩ := List.mem_flatMap.mp h
  exact isHex_of_mem_hexWord hc

theorem length_decimal_le (n : UInt64) : (decimal n.toNat).length ≤ 20 :=
  Nat.toDigits_length 10 n.toNat 20 (by decide) (n.toNat_lt.trans (by decide))

theorem length_closeHead {clean : Bool} {rows bytes : UInt64} {sha : CStr} (h : sha.length = 64) :
    (closeHead clean rows bytes sha).length < 192 := by
  have hrows := length_decimal_le rows
  have hbytes := length_decimal_le bytes
  have hclean : (lit (if clean then "true" else "false")).length ≤ 5 := by
    cases clean <;> decide
  simp only [closeHead, List.length_append, h]
  have hlits : (lit "\x7b\"closed\":true,\"clean\":").length = 23 ∧ (lit ",\"rows\":").length = 8 ∧
      (lit ",\"bytes\":").length = 9 ∧ (lit ",\"sha256\":\"").length = 11 ∧
      (lit "\",\"meta\":").length = 9 := by decide
  omega

theorem closeHead_no_nul {clean : Bool} {rows bytes : UInt64} {sha : CStr}
    (h : ∀ c ∈ sha, isHex c = true) : '\x00' ∉ closeHead clean rows bytes sha := by
  have hdigits : ∀ n, '\x00' ∉ decimal n := by
    intro n hmem
    exact absurd (Nat.isDigit_of_mem_toDigits (by decide) (by decide) hmem) (by decide)
  have hsha : '\x00' ∉ sha := fun hmem => absurd (h _ hmem) (by decide)
  have hclean : '\x00' ∉ lit (if clean then "true" else "false") := by
    cases clean <;> decide
  simp only [closeHead, List.mem_append, not_or]
  refine ⟨⟨⟨⟨⟨⟨⟨⟨?_, hclean⟩, ?_⟩, hdigits _⟩, ?_⟩, hdigits _⟩, ?_⟩, hsha⟩, ?_⟩ <;> decide

theorem read_closeHead {clean : Bool} {rows bytes : UInt64} {sha rest : CStr}
    (hlen : sha.length = 64) (h : ∀ c ∈ sha, isHex c = true) :
    ∃ rest', ((closeHead clean rows bytes sha ++ rest).take 255).takeWhile (· ≠ '\x00') =
      closeHead clean rows bytes sha ++ rest' := by
  refine ⟨(rest.take (255 - (closeHead clean rows bytes sha).length)).takeWhile (· ≠ '\x00'), ?_⟩
  have hshort := @length_closeHead clean rows bytes sha hlen
  rw [List.take_append, List.take_of_length_le (by omega), List.takeWhile_append_of_pos]
  intro c hc
  have hne : c ≠ '\x00' := by
    rintro rfl
    exact closeHead_no_nul h hc
  simpa using hne

theorem head_comma {P : Char → Bool} (hP : P ',' = false) {format : CStr}
    (hformat : format.head? = some ',') (text : CStr) :
    ∀ c ∈ (format ++ text).head?, P c = false := by
  intro c hc
  rw [List.head?_append, hformat, Option.some_or] at hc
  obtain rfl := Option.some.inj hc
  exact hP

theorem parseClose_closeHead {clean : Bool} {rows bytes : UInt64} {sha : CStr}
    (hlen : sha.length = 64) (h : ∀ c ∈ sha, isHex c = true) (rest : CStr) :
    parseClose (closeHead clean rows bytes sha ++ rest) = some (clean, rows, bytes, sha) := by
  obtain ⟨rest', hread⟩ := @read_closeHead clean rows bytes sha rest hlen h
  have hclean : ∀ text, set 5 isLower (lit (if clean then "true" else "false") ++
      (lit ",\"rows\":" ++ text)) =
        some (lit (if clean then "true" else "false"), lit ",\"rows\":" ++ text) := by
    intro text
    cases clean with
    | true => exact set_append (by decide) (by decide) (List.all_eq_true.mp (by decide)) fun _ =>
      head_comma rfl rfl text
    | false => exact set_append (by decide) (by decide) (List.all_eq_true.mp (by decide)) fun _ =>
      head_comma rfl rfl text
  have hrows : ∀ text, unsigned 64 (decimal rows.toNat ++ (lit ",\"bytes\":" ++ text)) =
      some (rows.toNat, lit ",\"bytes\":" ++ text) := fun text =>
    unsigned_decimal rows.toNat_lt (head_comma rfl rfl text)
  have hbytes : ∀ text, unsigned 64 (decimal bytes.toNat ++ (lit ",\"sha256\":\"" ++ text)) =
      some (bytes.toNat, lit ",\"sha256\":\"" ++ text) := fun text =>
    unsigned_decimal bytes.toNat_lt (head_comma rfl rfl text)
  have hsha : ∀ text, set 64 isHex (sha ++ text) = some (sha, text) := by
    intro text
    refine set_append ?_ hlen.le h fun hlt => absurd hlt (by omega)
    rintro rfl
    cases hlen
  rw [parseClose, hread]
  simp only [closeHead, List.append_assoc, literal_append, hclean, hrows, hbytes, hsha,
    Option.bind_eq_bind, Option.bind_some, hlen, if_true]
  cases clean with
  | true => simp
  | false => simpa using show lit "false" ≠ lit "true" by decide

end Espos.Sdlog

-- The directory of a session, and what is so of it at every moment.

namespace Espos.Sdlog

open Espos.Text Espos.Crash Espos.Lines

-- The three files that make a session, with the history of it.
structure Dir where
  head : Bool
  rows : Option File
  close : Option File
  passed : List CStr
  durable : Nat
  completed : Bool

def Card.dir (c : Card) (seq : Nat) : Dir where
  head := (c.files (.file seq .head)).isSome
  rows := c.files (.file seq .rows)
  close := c.files (.file seq .close)
  passed := c.passed seq
  durable := c.durable seq
  completed := c.completed seq

def hashOf (text : CStr) : CStr :=
  (Sha256.init.update (bytesOf text)).hex

-- The beginning of a close record that describes `text`.
def describes (clean : Bool) (n : Nat) (text : CStr) : CStr :=
  closeHead clean (.ofNat n) (.ofNat text.length) (hashOf text)

namespace Dir

variable {d : Dir} {n : Nat}

-- The first `n` lines that were passed.
def first (d : Dir) (n : Nat) : CStr :=
  (d.passed.take n).flatten

theorem first_prefix {m : Nat} (h : n ≤ m) : d.first n <+: d.first m := by
  obtain ⟨rest, hrest⟩ := List.take_prefix_take_left (l := d.passed) h
  refine ⟨rest.flatten, ?_⟩
  rw [first, first, ← hrest, List.flatten_append]

theorem first_prefix_passed : d.first n <+: d.passed.flatten := by
  refine ⟨(d.passed.drop n).flatten, ?_⟩
  rw [first, ← List.flatten_append, List.take_append_drop]

structure ClosedWith (d : Dir) (f : File) (n : Nat) (clean : Bool) : Prop where
  synced : f.synced = f.data
  durable_le : d.durable ≤ n
  le_passed : n ≤ d.passed.length
  completed : clean = true → d.completed = true
  record : describes clean n (d.first n) <+: f.data
  rows : ∀ g, d.rows = some g → g.synced = d.first n ∧ g.data = d.first n

-- What holds whatever file is taken away.
structure Sound (d : Dir) : Prop where
  lines : ∀ line ∈ d.passed, IsRecord '\n' line
  durable_le : d.durable ≤ d.passed.length
  rows : ∀ f, d.rows = some f → f.data <+: d.passed.flatten ∧ d.first d.durable <+: f.synced
  close : ∀ f, d.close = some f → ∃ n clean, d.ClosedWith f n clean

-- A remnant that `recover` tells from a healthy session: a close record has its
-- header and its rows, and no rows are missing that were there for good.
structure Shape (d : Dir) : Prop where
  closed : d.close ≠ none → d.head = true ∧ d.rows ≠ none
  rowless : d.head = true → d.close = none → d.rows = none → d.durable = 0

def put (d : Dir) : Name → Option File → Dir
  | .head, f => { d with head := f.isSome }
  | .rows, f => { d with rows := f }
  | .close, f => { d with close := f }
  | _, _ => d

theorem Sound.putClose (h : d.Sound) {f : Option File}
    (hf : ∀ g, f = some g → ∃ n clean, d.ClosedWith g n clean) : (d.put .close f).Sound := by
  refine ⟨h.lines, h.durable_le, h.rows, ?_⟩
  intro g hg
  obtain ⟨n, clean, hclosed⟩ := hf g hg
  exact ⟨n, clean, hclosed.synced, hclosed.durable_le, hclosed.le_passed, hclosed.completed,
    hclosed.record, hclosed.rows⟩

-- Rows of a session that is not closed yet.
theorem Sound.putRows (h : d.Sound) (hopen : d.close = none) {f : File}
    (hpre : f.data <+: d.passed.flatten) (hsynced : d.first d.durable <+: f.synced) :
    (d.put .rows (some f)).Sound := by
  refine ⟨h.lines, h.durable_le, ?_, ?_⟩
  · intro g hg
    obtain rfl := Option.some.inj hg
    exact ⟨hpre, hsynced⟩
  · intro g hg
    cases hopen.symm.trans hg

-- Any file of it may go, as far as that is concerned.
theorem Sound.thin (h : d.Sound) {d' : Dir} (hrows : d'.rows = d.rows ∨ d'.rows = none)
    (hclose : d'.close = d.close ∨ d'.close = none) (hpassed : d'.passed = d.passed)
    (hdurable : d'.durable = d.durable) (hcompleted : d'.completed = d.completed) : d'.Sound := by
  have hsub : ∀ f, d'.rows = some f → d.rows = some f := by
    intro f hf
    rcases hrows with heq | hnone
    · exact heq.symm.trans hf
    · cases hnone.symm.trans hf
  have hfirst : ∀ n, d'.first n = d.first n := fun n => by rw [first, first, hpassed]
  refine ⟨?_, ?_, ?_, ?_⟩
  · rw [hpassed]
    exact h.lines
  · rw [hpassed, hdurable]
    exact h.durable_le
  · intro f hf
    rw [hpassed, hfirst, hdurable]
    exact h.rows f (hsub f hf)
  · intro f hf
    rcases hclose with heq | hnone
    · obtain ⟨n, clean, hclosed⟩ := h.close f (heq.symm.trans hf)
      refine ⟨n, clean, hclosed.synced, ?_, ?_, ?_, ?_, ?_⟩
      · rw [hdurable]
        exact hclosed.durable_le
      · rw [hpassed]
        exact hclosed.le_passed
      · rw [hcompleted]
        exact hclosed.completed
      · rw [hfirst]
        exact hclosed.record
      · intro g hg
        rw [hfirst]
        exact hclosed.rows g (hsub g hg)
    · cases hnone.symm.trans hf

theorem Sound.whole_rows (h : d.Sound) {f : File} (hf : d.rows = some f) :
    ∃ n, d.durable ≤ n ∧ n ≤ d.passed.length ∧ records '\n' f.data = d.passed.take n := by
  obtain ⟨hpre, hsynced⟩ := h.rows f hf
  exact records_between h.lines h.durable_le (hsynced.trans f.le) hpre

theorem Sound.lines_take (h : d.Sound) (n : Nat) : ∀ line ∈ d.passed.take n, IsRecord '\n' line :=
  fun line hline => h.lines line (List.mem_of_mem_take hline)

end Dir

namespace Card

variable {c : Card} {seq k : Nat}

theorem dir_setFile (c : Card) (seq : Nat) (name : Name) (f : Option File) :
    (c.setFile (.file seq name) f).dir seq = (c.dir seq).put name f := by
  cases name <;> simp [dir, setFile, Dir.put]

theorem dir_setFile_of_ne (h : k ≠ seq) (name : Name) (f : Option File) :
    (c.setFile (.file seq name) f).dir k = c.dir k := by
  simp [dir, setFile, h]

theorem dir_setFile_root {p : Path} (h : p.isFile = false) (f : Option File) :
    (c.setFile p f).dir k = c.dir k := by
  cases p with
  | file seq name => cases h
  | _ => simp [dir, setFile]

structure Sound (c : Card) : Prop where
  dirs : ∀ seq, (c.dir seq).Sound
  within : ∀ p, ¬c.Holds p → c.files p = none

def Shape (c : Card) : Prop :=
  ∀ seq, (c.dir seq).Shape

theorem Sound.setFile (h : c.Sound) (hseq : seq ∈ c.names) {name : Name} {f : Option File}
    (hdir : ((c.dir seq).put name f).Sound) : (c.setFile (.file seq name) f).Sound := by
  refine ⟨?_, ?_⟩
  · intro k
    by_cases hk : k = seq
    · rw [hk, dir_setFile]
      exact hdir
    · rw [dir_setFile_of_ne hk]
      exact h.dirs k
  · intro p hp
    have hne : p ≠ .file seq name := by
      rintro rfl
      exact hp hseq
    rw [setFile_of_ne hne]
    exact h.within p hp

theorem Shape.setFile (h : c.Shape) {name : Name} {f : Option File}
    (hdir : ((c.dir seq).put name f).Shape) : (c.setFile (.file seq name) f).Shape := by
  intro k
  by_cases hk : k = seq
  · rw [hk, dir_setFile]
    exact hdir
  · rw [dir_setFile_of_ne hk]
    exact h k

theorem Sound.setFile_root (h : c.Sound) {p : Path} (hp : p.isFile = false) (f : Option File) :
    (c.setFile p f).Sound := by
  refine ⟨?_, ?_⟩
  · intro k
    rw [dir_setFile_root hp]
    exact h.dirs k
  · intro q hq
    have hne : q ≠ p := by
      rintro rfl
      cases q with
      | file seq name => cases hp
      | _ => exact hq trivial
    rw [setFile_of_ne hne]
    exact h.within q hq

-- Only the directory of `seq` has changed.
structure Only (seq : Nat) (c c' : Card) : Prop where
  names : c'.names = c.names
  streams : c'.streams = c.streams
  lastSeq : c'.files .lastSeq = c.files .lastSeq
  dirs : ∀ k, k ≠ seq → c'.dir k = c.dir k

theorem Only.refl (seq : Nat) (c : Card) : c.Only seq c :=
  ⟨rfl, rfl, rfl, fun _ _ => rfl⟩

theorem Only.trans {c' c'' : Card} (h : c.Only seq c') (h' : c'.Only seq c'') :
    c.Only seq c'' where
  names := h'.names.trans h.names
  streams := h'.streams.trans h.streams
  lastSeq := h'.lastSeq.trans h.lastSeq
  dirs k hk := (h'.dirs k hk).trans (h.dirs k hk)

theorem only_setFile (c : Card) (seq : Nat) (name : Name) (f : Option File) :
    c.Only seq (c.setFile (.file seq name) f) where
  names := rfl
  streams := rfl
  lastSeq := setFile_of_ne (by simp) _
  dirs _ hk := dir_setFile_of_ne hk name f

end Card

end Espos.Sdlog
