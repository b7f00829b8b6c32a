import Espos.Lib.Crash
import Espos.Lib.Text
import Mathlib.Data.List.Infix
import Mathlib.Data.List.Perm.Basic
import Mathlib.Data.List.Sort
import Mathlib.Logic.Function.Basic

-- The card as the session code sees it: the files and directories under one root,
-- and what each file operation does to them.

namespace Espos.Sdlog

open Espos.Text Espos.Crash

inductive Name where
  | head
  | headTmp
  | rows
  | close
  | closeTmp
  | synced
  | syncedTmp
deriving DecidableEq

def Name.all : List Name :=
  [.head, .headTmp, .rows, .close, .closeTmp, .synced, .syncedTmp]

-- `LASTSEQ.TXT` and `LASTSEQ.TMP` of the root, and the files of a session.
inductive Path where
  | lastSeq
  | lastSeqTmp
  | file (seq : Nat) (name : Name)
deriving DecidableEq

def Path.isFile : Path → Bool
  | .file _ _ => true
  | _ => false

-- What is on the card for good, and what is still on its way behind it.
structure File where
  synced : CStr
  data : CStr
  le : synced <+: data
deriving DecidableEq

namespace File

def empty : File :=
  ⟨[], [], List.prefix_refl _⟩

def append (f : File) (text : CStr) : File :=
  ⟨f.synced, f.data ++ text, f.le.trans (List.prefix_append _ _)⟩

def sync (f : File) : File :=
  ⟨f.data, f.data, List.prefix_refl _⟩

def truncate (f : File) (keep : Nat) : File :=
  ⟨f.synced.take keep, f.data.take keep, List.IsPrefix.take f.le keep⟩

-- After a power cut: what was synced, and a beginning of the rest.
def cut (f : File) (n : Nat) : File :=
  ⟨f.data.take (max f.synced.length n), f.data.take (max f.synced.length n), List.prefix_refl _⟩

end File

-- A `ROWS.TXT` held open for writing. Once that file is unlinked, what is written
-- goes nowhere.
structure Stream where
  seq : Nat
  attached : Bool
deriving DecidableEq

-- `names` are the directories under the root. History only, for each of them: the
-- lines passed to `append`, how many of these the last successful sync covered, and
-- whether `close` has come to its end.
structure Card where
  files : Path → Option File
  names : List Nat
  streams : List Stream
  passed : Nat → List CStr
  durable : Nat → Nat
  completed : Nat → Bool

-- What a file operation meets: whether it fails, without an effect; after how many
-- entries the reading of a directory breaks off, which looks like its end; and the
-- order of the entries.
structure Env where
  fails : Bool
  short : Option Nat
  order : List Name

inductive Op where
  | mkdirRoot
  | scanRoot
  | readNumber (p : Path)
  | fopenWrite (p : Path)
  | fputs (p : Path) (text : CStr)
  | fsync (p : Path)
  | fclose (p : Path)
  | unlink (p : Path)
  | rename (p q : Path)
  | mkdir (seq : Nat)
  | rmdir (seq : Nat)
  | isDir (seq : Nat)
  | stat (p : Path)
  | size (p : Path)
  | read (p : Path)
  | readDir (seq : Nat)
  | truncate (p : Path) (keep : Nat)
  | fopenRows (seq : Nat)
  | fwrite (i : Nat) (text : CStr)
  | fsyncRows (i : Nat)
  | fcloseRows (i : Nat)

-- `absent` is ENOENT.
inductive Got (α : Type) where
  | absent
  | failed
  | got (a : α)

@[reducible] def Op.Reply : Op → Type
  | .scanRoot => Option (List Nat)
  | .readNumber _ => Option CStr
  | .size _ => Option Nat
  | .read _ => Got CStr
  | .readDir _ => Got (List Name)
  | .fopenRows _ => Option Nat
  | _ => Bool

namespace Card

def init : Card where
  files := fun _ => none
  names := []
  streams := []
  passed := fun _ => []
  durable := fun _ => 0
  completed := fun _ => false

def setFile (c : Card) (p : Path) (f : Option File) : Card :=
  { c with files := Function.update c.files p f }

theorem setFile_self (c : Card) (p : Path) (f : Option File) : (c.setFile p f).files p = f :=
  Function.update_self _ _ _

theorem setFile_of_ne {c : Card} {p q : Path} (h : q ≠ p) (f : Option File) :
    (c.setFile p f).files q = c.files q :=
  Function.update_of_ne h _ _

theorem setFile_setFile (c : Card) (p : Path) (f g : Option File) :
    (c.setFile p f).setFile p g = c.setFile p g := by
  simp only [setFile, Function.update_idem]

theorem setFile_comm {p q : Path} (h : p ≠ q) (c : Card) (f g : Option File) :
    (c.setFile p f).setFile q g = (c.setFile q g).setFile p f := by
  simp only [setFile, Function.update_comm h]

-- The directory a path is in is there.
def Holds (c : Card) : Path → Prop
  | .file seq _ => seq ∈ c.names
  | _ => True

instance (c : Card) (p : Path) : Decidable (c.Holds p) := by
  cases p <;> unfold Holds <;> infer_instance

-- The entries of a directory as far as its reading goes.
def upTo {α : Type} (entries : List α) : Option Nat → List α
  | none => entries
  | some n => entries.take n

def present (c : Card) (seq : Nat) : List Name :=
  Name.all.filter fun name => (c.files (.file seq name)).isSome

def listing (c : Card) (seq : Nat) (e : Env) : List Name :=
  upTo (if e.order.Perm (c.present seq) then e.order else c.present seq) e.short

-- Streams on a file that is unlinked lose it.
def detach (c : Card) : Path → List Stream
  | .file seq .rows =>
    c.streams.map fun st => if st.seq = seq then { st with attached := false } else st
  | _ => c.streams

def act : (o : Op) → Env → Card → o.Reply × Card
  | .mkdirRoot, e, c => (!e.fails, c)
  | .scanRoot, e, c =>
    if e.fails then (none, c) else (some ((upTo c.names e.short).insertionSort (· ≤ ·)), c)
  | .readNumber p, e, c => if e.fails then (none, c) else ((c.files p).map File.data, c)
  | .fopenWrite p, e, c =>
    if e.fails ∨ ¬c.Holds p then (false, c) else (true, c.setFile p (some .empty))
  | .fputs p text, e, c =>
    if e.fails then (false, c) else (true, c.setFile p ((c.files p).map (·.append text)))
  | .fsync p, e, c =>
    if e.fails then (false, c) else (true, c.setFile p ((c.files p).map File.sync))
  | .fclose _, e, c => (!e.fails, c)
  | .unlink p, e, c =>
    if e.fails ∨ c.files p = none then (false, c)
    else (true, { c.setFile p none with streams := c.detach p })
  | .rename p q, e, c =>
    -- FatFs refuses a name that is taken
    if e.fails ∨ c.files p = none ∨ c.files q ≠ none then (false, c)
    else (true, (c.setFile q (c.files p)).setFile p none)
  | .mkdir seq, e, c =>
    if e.fails ∨ seq ∈ c.names then (false, c)
    else
      (true, { c with
        names := c.names ++ [seq]
        passed := Function.update c.passed seq []
        durable := Function.update c.durable seq 0
        completed := Function.update c.completed seq false })
  | .rmdir seq, e, c =>
    if e.fails ∨ seq ∉ c.names ∨ c.present seq ≠ [] then (false, c)
    else (true, { c with names := c.names.filter (· ≠ seq) })
  | .isDir seq, e, c => (!e.fails && decide (seq ∈ c.names), c)
  | .stat p, e, c => (!e.fails && (c.files p).isSome, c)
  | .size p, e, c => (if e.fails then none else (c.files p).map fun f => f.data.length, c)
  | .read p, e, c =>
    if e.fails then (.failed, c)
    else
      match c.files p with
      | none => (.absent, c)
      | some f => (.got f.data, c)
  | .readDir seq, e, c =>
    if e.fails then (.failed, c)
    else if seq ∉ c.names then (.absent, c)
    else (.got (c.listing seq e), c)
  | .truncate p keep, e, c =>
    if e.fails ∨ c.files p = none then (false, c)
    else (true, c.setFile p ((c.files p).map (·.truncate keep)))
  | .fopenRows seq, e, c =>
    if e.fails ∨ seq ∉ c.names then (none, c)
    else
      (some c.streams.length, { c.setFile (.file seq .rows) (some .empty) with
        streams := c.streams ++ [⟨seq, true⟩] })
  | .fwrite i text, e, c =>
    if e.fails then (false, c)
    else
      match c.streams[i]? with
      | some ⟨seq, true⟩ =>
        (true, c.setFile (.file seq .rows) ((c.files (.file seq .rows)).map (·.append text)))
      | _ => (true, c)
  | .fsyncRows i, e, c =>
    if e.fails then (false, c)
    else
      match c.streams[i]? with
      | some ⟨seq, true⟩ =>
        (true, { c.setFile (.file seq .rows) ((c.files (.file seq .rows)).map File.sync) with
          durable := Function.update c.durable seq (c.passed seq).length })
      | _ => (true, c)
  | .fcloseRows _, e, c => (!e.fails, c)

section Act

variable (e : Env) (c : Card)

-- What each operation with an effect can do: nothing, or all of it.

theorem act_fopenWrite (p : Path) :
    act (.fopenWrite p) e c = (false, c) ∨
      c.Holds p ∧ act (.fopenWrite p) e c = (true, c.setFile p (some .empty)) := by
  by_cases h : e.fails ∨ ¬c.Holds p
  · exact .inl (if_pos h)
  · exact .inr ⟨by simpa using fun hp => h (.inr hp), if_neg h⟩

theorem act_fputs (p : Path) (text : CStr) :
    e.fails = true ∧ act (.fputs p text) e c = (false, c) ∨
      act (.fputs p text) e c = (true, c.setFile p ((c.files p).map (·.append text))) := by
  by_cases h : e.fails = true
  · exact .inl ⟨h, if_pos h⟩
  · exact .inr (if_neg h)

theorem act_fsync (p : Path) :
    e.fails = true ∧ act (.fsync p) e c = (false, c) ∨
      act (.fsync p) e c = (true, c.setFile p ((c.files p).map File.sync)) := by
  by_cases h : e.fails = true
  · exact .inl ⟨h, if_pos h⟩
  · exact .inr (if_neg h)

theorem act_unlink (p : Path) :
    (e.fails = true ∨ c.files p = none) ∧ act (.unlink p) e c = (false, c) ∨
      e.fails = false ∧ c.files p ≠ none ∧
        act (.unlink p) e c = (true, { c.setFile p none with streams := c.detach p }) := by
  by_cases h : e.fails ∨ c.files p = none
  · exact .inl ⟨h, if_pos h⟩
  · exact .inr ⟨by simpa using fun hf => h (.inl hf), fun hp => h (.inr hp), if_neg h⟩

theorem act_rename (p q : Path) :
    act (.rename p q) e c = (false, c) ∨
      c.files p ≠ none ∧ c.files q = none ∧
        act (.rename p q) e c = (true, (c.setFile q (c.files p)).setFile p none) := by
  by_cases h : e.fails ∨ c.files p = none ∨ c.files q ≠ none
  · exact .inl (if_pos h)
  · simp only [not_or, not_not] at h
    refine .inr ⟨h.2.1, h.2.2, if_neg ?_⟩
    simp only [not_or, not_not]
    exact h

theorem act_rmdir (seq : Nat) :
    act (.rmdir seq) e c = (false, c) ∨
      e.fails = false ∧ seq ∈ c.names ∧ c.present seq = [] ∧
        act (.rmdir seq) e c = (true, { c with names := c.names.filter (· ≠ seq) }) := by
  by_cases h : e.fails ∨ seq ∉ c.names ∨ c.present seq ≠ []
  · exact .inl (if_pos h)
  · simp only [not_or, not_not] at h
    refine .inr ⟨by simpa using h.1, h.2.1, h.2.2, if_neg ?_⟩
    simp only [not_or, not_not]
    exact h

end Act

-- The power goes: no stream is left, and of each file what was synced and a
-- beginning of the rest.
def powerCut (c : Card) (survives : Path → Nat) : Card :=
  { c with
    files := fun p => (c.files p).map (·.cut (survives p))
    streams := [] }

end Card

-- A program of file operations, and each of these as a program.
abbrev Io (α : Type) : Type :=
  Prog Op.Reply α

namespace Io

abbrev mkdirRoot : Io Bool := .perform Op.mkdirRoot

abbrev scanRoot : Io (Option (List Nat)) := .perform Op.scanRoot

abbrev readNumber (p : Path) : Io (Option CStr) := .perform (Op.readNumber p)

abbrev fopenWrite (p : Path) : Io Bool := .perform (Op.fopenWrite p)

abbrev fputs (p : Path) (text : CStr) : Io Bool := .perform (Op.fputs p text)

abbrev fsync (p : Path) : Io Bool := .perform (Op.fsync p)

abbrev fclose (p : Path) : Io Bool := .perform (Op.fclose p)

abbrev unlink (p : Path) : Io Bool := .perform (Op.unlink p)

abbrev rename (p q : Path) : Io Bool := .perform (Op.rename p q)

abbrev mkdir (seq : Nat) : Io Bool := .perform (Op.mkdir seq)

abbrev rmdir (seq : Nat) : Io Bool := .perform (Op.rmdir seq)

abbrev isDir (seq : Nat) : Io Bool := .perform (Op.isDir seq)

abbrev stat (p : Path) : Io Bool := .perform (Op.stat p)

abbrev size (p : Path) : Io (Option Nat) := .perform (Op.size p)

abbrev read (p : Path) : Io (Got CStr) := .perform (Op.read p)

abbrev readDir (seq : Nat) : Io (Got (List Name)) := .perform (Op.readDir seq)

abbrev truncate (p : Path) (keep : Nat) : Io Bool := .perform (Op.truncate p keep)

abbrev fopenRows (seq : Nat) : Io (Option Nat) := .perform (Op.fopenRows seq)

abbrev fwrite (i : Nat) (text : CStr) : Io Bool := .perform (Op.fwrite i text)

abbrev fsyncRows (i : Nat) : Io Bool := .perform (Op.fsyncRows i)

abbrev fcloseRows (i : Nat) : Io Bool := .perform (Op.fcloseRows i)

end Io

end Espos.Sdlog
