import Mathlib.Algebra.Order.Ring.Nat
import Mathlib.Order.MinMax
import Espos.Lib.Run
import Espos.Sdlog.Session

-- A logger that makes the calls one after another, and a power cut between any
-- two file operations of them.

namespace Espos.Sdlog

open Espos.Text Espos.Crash

inductive Call where
  | open (header : CStr) (cfg : Option OpenCfg)
  | append (i : Nat) (row : CStr)
  | sync (i : Nat)
  | close (i : Nat) (jsonMeta : Option CStr)
  | markSynced (seq : Nat) (note : Option CStr)
  | remove (seq : Nat)
  | prune (keepBytes : UInt64)
  | recover
deriving DecidableEq

-- What a call leaves with its caller: the handles, the number of a session it has
-- opened and that of one it has closed.
structure Return where
  err : EspErr
  sessions : List (Option Session)
  opened : Option Nat
  completed : Option Nat

def handle (sessions : List (Option Session)) (i : Nat) : Option Session :=
  (sessions[i]?).join

namespace Call

def prog (sessions : List (Option Session)) : Call → Io Return
  | .open header cfg => do
    let (err, s) ← sdlogOpen header cfg
    pure ⟨err, sessions ++ (s.map some).toList, s.map Session.seq, none⟩
  | .append i row =>
    match handle sessions i with
    | none => pure ⟨.invalidArg, sessions, none, none⟩
    | some s => do
      let (err, s) ← sdlogAppend s row
      pure ⟨err, sessions.set i (some s), none, none⟩
  | .sync i =>
    match handle sessions i with
    | none => pure ⟨.invalidArg, sessions, none, none⟩
    | some s => do
      let (err, s) ← sdlogSync s
      pure ⟨err, sessions.set i (some s), none, none⟩
  | .close i jsonMeta =>
    match handle sessions i with
    | none => pure ⟨.invalidArg, sessions, none, none⟩
    | some s => do
      let err ← sdlogClose s jsonMeta
      pure ⟨err, sessions.set i none, none, if err = .ok then some s.seq else none⟩
  | .markSynced seq note => do
    let err ← sdlogMarkSynced seq note
    pure ⟨err, sessions, none, none⟩
  | .remove seq => do
    let err ← sdlogRemove seq
    pure ⟨err, sessions, none, none⟩
  | .prune keepBytes => do
    let pruned ← sdlogPrune keepBytes
    pure ⟨pruned.first, sessions, none, none⟩
  | .recover => do
    let recovered ← sdlogRecover
    pure ⟨recovered.first, sessions, none, none⟩

-- The line that an `append` passes to its session.
def passes (sessions : List (Option Session)) : Call → Option (Nat × CStr)
  | .append i row =>
    match handle sessions i with
    | some s => if Accepts s row then some (s.seq, row ++ rowTail s.rowCrc row) else none
    | none => none
  | _ => none

end Call

namespace Card

def pass (c : Card) : Option (Nat × CStr) → Card
  | some (seq, line) =>
    { c with passed := Function.update c.passed seq (c.passed seq ++ [line]) }
  | none => c

def complete (c : Card) : Option Nat → Card
  | some seq => { c with completed := Function.update c.completed seq true }
  | none => c

end Card

-- History only: the numbers of the sessions opened, and the last call that came to
-- its end, with its answer.
structure Logger where
  card : Card
  sessions : List (Option Session)
  opened : List Nat
  answered : Option (Call × EspErr)

-- A call goes on for as long as there is a file operation to meet what is listed;
-- where the list ends first, the power goes.
inductive Input where
  | call (c : Call) (es : List Env) (survives : Path → Nat)
  | powerCut (survives : Path → Nat)

namespace Logger

def init : Logger :=
  ⟨.init, [], [], none⟩

def powerCut (m : Logger) (card : Card) (survives : Path → Nat) : Logger :=
  ⟨card.powerCut survives, [], m.opened, none⟩

-- The card as a call finds it.
def before (m : Logger) (c : Call) : Card :=
  m.card.pass (c.passes m.sessions)

def run (m : Logger) (c : Call) (es : List Env) : Option Return × List Env × Card :=
  Prog.exec Card.act (c.prog m.sessions) es (m.before c)

def step (m : Logger) : Input → Logger
  | .call c es survives =>
    match m.run c es with
    | (some r, _, card) =>
      ⟨card.complete r.completed, r.sessions, m.opened ++ r.opened.toList, some (c, r.err)⟩
    | (none, _, card) => m.powerCut card survives
  | .powerCut survives => m.powerCut m.card survives

end Logger

end Espos.Sdlog

-- Which runs of a logger never hand a session number out twice.

namespace Espos.Sdlog

open Espos.Text Espos.Scan Espos.Crash Espos.Crash.Prog Espos.Run

variable {hi : Nat} {c : Card} {o : Op} {e : Env}

namespace Card

-- The number a file of the root holds for good.
def sureNumber (c : Card) (p : Path) : Nat :=
  match c.files p with
  | some f => if f.synced = f.data then numberOf f.data else 0
  | none => 0

def highest (names : List Nat) : Nat :=
  names.foldr max 0

-- The highest number the card bears witness of.
def witness (c : Card) : Nat :=
  max (max (c.sureNumber .lastSeq) (c.sureNumber .lastSeqTmp)) (highest c.names)

-- What is left of it without `LASTSEQ.TMP`.
def witnessBesideTmp (c : Card) : Nat :=
  max (c.sureNumber .lastSeq) (highest c.names)

end Card

open Card

-- A failure while `LASTSEQ.TMP` is written, the unlinking of it and the removal of a
-- directory leave something else that bears witness of `hi`.
def Spares (hi : Nat) : Op → Env → Card → Prop
  | .fputs .lastSeqTmp _, e, c | .fsync .lastSeqTmp, e, c =>
    e.fails = true → hi ≤ c.witnessBesideTmp
  | .unlink .lastSeqTmp, e, c =>
    e.fails = false → hi ≤ c.witnessBesideTmp
  | .rmdir seq, e, c =>
    e.fails = false → hi ≤ max (max (c.sureNumber .lastSeq) (c.sureNumber .lastSeqTmp))
      (highest (c.names.filter (· ≠ seq)))
  | _, _, _ => True

instance (hi : Nat) : (o : Op) → (e : Env) → (c : Card) → Decidable (Spares hi o e c)
  | .fputs .lastSeqTmp _, e, c | .fsync .lastSeqTmp, e, c =>
    inferInstanceAs (Decidable (e.fails = true → hi ≤ c.witnessBesideTmp))
  | .unlink .lastSeqTmp, e, c =>
    inferInstanceAs (Decidable (e.fails = false → hi ≤ c.witnessBesideTmp))
  | .rmdir seq, e, c =>
    inferInstanceAs (Decidable (e.fails = false →
      hi ≤ max (max (c.sureNumber .lastSeq) (c.sureNumber .lastSeqTmp))
        (highest (c.names.filter (· ≠ seq)))))
  | .fputs .lastSeq _, _, _ | .fputs (.file _ _) _, _, _ => .isTrue trivial
  | .fsync .lastSeq, _, _ | .fsync (.file _ _), _, _ => .isTrue trivial
  | .unlink .lastSeq, _, _ | .unlink (.file _ _), _, _ => .isTrue trivial
  | .mkdirRoot, _, _ | .scanRoot, _, _ | .readNumber _, _, _ | .fopenWrite _, _, _
  | .fclose _, _, _ | .rename _ _, _, _ | .mkdir _, _, _ | .isDir _, _, _ | .stat _, _, _
  | .size _, _, _ | .read _, _, _ | .readDir _, _, _ | .truncate _ _, _, _ | .fopenRows _, _, _
  | .fwrite _ _, _, _ | .fsyncRows _, _, _ | .fcloseRows _, _, _ => .isTrue trivial

-- What a file of the root bears witness of where its reading does not fail.
def numberLeft (c : Card) (p : Path) (e : Env) : Nat :=
  if e.fails then 0 else c.sureNumber p

-- What the readings of an `open` leave of the witness: of the root as far as they
-- get, and of the two files.
def witnessLeft (c : Card) (root txt tmp : Env) : Nat :=
  max (max (numberLeft c .lastSeq txt) (numberLeft c .lastSeqTmp tmp))
    (highest (upTo c.names root.short))

-- Where a reading of an `open` fails or breaks off, there is something else that
-- bears witness of `hi`.
def ReadsWell (hi : Nat) (c : Card) : List Env → Prop
  | made :: root :: txt :: tmp :: _ =>
    made.fails = false → root.fails = false →
      (root.short ≠ none ∨ txt.fails = true ∨ tmp.fails = true) → hi ≤ witnessLeft c root txt tmp
  | _ => True

-- An operation that leaves the files of the root alone.
def Away : Op → Prop
  | .fopenWrite p | .fputs p _ | .fsync p | .unlink p | .truncate p _ => p.isFile
  | .rename p q => p.isFile ∧ q.isFile
  | _ => True

theorem setFile_of_isFile {p q : Path} (hp : p.isFile = true) (hq : q.isFile = false)
    (f : Option File) : (c.setFile p f).files q = c.files q := by
  apply Function.update_of_ne
  rintro rfl
  rw [hp] at hq
  cases hq

-- An operation elsewhere keeps the files of the root.
theorem act_files (h : Away o) {q : Path} (hq : q.isFile = false) :
    (act o e c).2.files q = c.files q := by
  cases o with
  | fopenWrite p =>
    simp only [act]
    split_ifs
    · rfl
    · exact setFile_of_isFile h hq _
  | fputs p text =>
    simp only [act]
    split_ifs
    · rfl
    · exact setFile_of_isFile h hq _
  | fsync p =>
    simp only [act]
    split_ifs
    · rfl
    · exact setFile_of_isFile h hq _
  | unlink p =>
    simp only [act]
    split_ifs
    · rfl
    · exact setFile_of_isFile h hq _
  | rename p p' =>
    simp only [act]
    split_ifs
    · rfl
    · rw [setFile_of_isFile h.1 hq, setFile_of_isFile h.2 hq]
  | truncate p keep =>
    simp only [act]
    split_ifs
    · rfl
    · exact setFile_of_isFile h hq _
  | mkdir seq =>
    simp only [act]
    split_ifs <;> rfl
  | rmdir seq =>
    simp only [act]
    split_ifs <;> rfl
  | fopenRows seq =>
    simp only [act]
    split_ifs
    · rfl
    · exact @setFile_of_isFile c (.file seq .rows) q rfl hq _
  | fwrite i text =>
    simp only [act]
    split_ifs
    · rfl
    · rcases c.streams[i]? with _ | ⟨seq, _ | _⟩
      · rfl
      · rfl
      · exact setFile_of_isFile rfl hq _
  | fsyncRows i =>
    simp only [act]
    split_ifs
    · rfl
    · rcases c.streams[i]? with _ | ⟨seq, _ | _⟩
      · rfl
      · rfl
      · exact setFile_of_isFile rfl hq _
  | scanRoot =>
    simp only [act]
    split_ifs <;> rfl
  | readNumber p =>
    simp only [act]
    split_ifs <;> rfl
  | read p =>
    simp only [act]
    split_ifs
    · rfl
    · cases c.files p <;> rfl
  | readDir seq =>
    simp only [act]
    split_ifs <;> rfl
  | _ => rfl

theorem sureNumber_of_files {c c' : Card} {p : Path} (h : c'.files p = c.files p) :
    c'.sureNumber p = c.sureNumber p := by
  rw [sureNumber, sureNumber, h]

theorem le_highest {names : List Nat} {seq : Nat} (h : seq ∈ names) : seq ≤ highest names := by
  induction names with
  | nil => cases h
  | cons k names ih =>
    rcases List.mem_cons.mp h with rfl | h
    · exact Nat.le_max_left _ _
    · exact (ih h).trans (Nat.le_max_right _ _)

theorem highest_le_iff {names : List Nat} {bound : Nat} :
    highest names ≤ bound ↔ ∀ seq ∈ names, seq ≤ bound := by
  induction names with
  | nil => exact iff_of_true (Nat.zero_le _) nofun
  | cons k names ih =>
    rw [highest, List.foldr_cons, max_le_iff, List.forall_mem_cons]
    exact and_congr_right fun _ => ih

-- No operation but `rmdir` takes a directory away.
theorem highest_act (h : ∀ seq, o ≠ .rmdir seq) : highest c.names ≤ highest (act o e c).2.names := by
  have hsub : c.names ⊆ (act o e c).2.names := by
    cases o with
    | rmdir seq => exact absurd rfl (h seq)
    | mkdir seq =>
      simp only [act]
      split_ifs
      · exact List.Subset.refl _
      · exact List.subset_append_left _ _
    | scanRoot =>
      simp only [act]
      split_ifs <;> exact List.Subset.refl _
    | readNumber p =>
      simp only [act]
      split_ifs <;> exact List.Subset.refl _
    | fopenWrite p =>
      simp only [act]
      split_ifs <;> exact List.Subset.refl _
    | fputs p text =>
      simp only [act]
      split_ifs <;> exact List.Subset.refl _
    | fsync p =>
      simp only [act]
      split_ifs <;> exact List.Subset.refl _
    | unlink p =>
      simp only [act]
      split_ifs <;> exact List.Subset.refl _
    | rename p q =>
      simp only [act]
      split_ifs <;> exact List.Subset.refl _
    | truncate p keep =>
      simp only [act]
      split_ifs <;> exact List.Subset.refl _
    | read p =>
      simp only [act]
      split_ifs
      · exact List.Subset.refl _
      · cases c.files p <;> exact List.Subset.refl _
    | readDir seq =>
      simp only [act]
      split_ifs <;> exact List.Subset.refl _
    | fopenRows seq =>
      simp only [act]
      split_ifs <;> exact List.Subset.refl _
    | fwrite i text =>
      simp only [act]
      split_ifs
      · exact List.Subset.refl _
      · rcases c.streams[i]? with _ | ⟨seq, _ | _⟩ <;> exact List.Subset.refl _
    | fsyncRows i =>
      simp only [act]
      split_ifs
      · exact List.Subset.refl _
      · rcases c.streams[i]? with _ | ⟨seq, _ | _⟩ <;> exact List.Subset.refl _
    | _ => exact List.Subset.refl _
  exact highest_le_iff.mpr fun seq hseq => le_highest (hsub hseq)

-- An operation elsewhere, with a removal that spares, keeps the witness.
theorem act_keeps_witness (haway : Away o) (hspares : Spares hi o e c) (h : hi ≤ c.witness) :
    hi ≤ (act o e c).2.witness := by
  rw [witness, sureNumber_of_files (act_files haway rfl), sureNumber_of_files (act_files haway rfl)]
  cases o with
  | rmdir seq =>
    simp only [act]
    split_ifs with hgo
    · exact h
    · have hworks : e.fails = false := by simpa using fun hfails => hgo (.inl hfails)
      exact hspares hworks
  | _ => exact h.trans (max_le_max_left _ (highest_act nofun))

-- A power cut keeps what is there for good.
theorem sureNumber_powerCut (c : Card) (survives : Path → Nat) (p : Path) :
    c.sureNumber p ≤ (c.powerCut survives).sureNumber p := by
  cases hp : c.files p with
  | none =>
    rw [sureNumber, hp]
    exact Nat.zero_le _
  | some f =>
    have hcut : (c.powerCut survives).files p = some (f.cut (survives p)) := by
      simp only [powerCut, hp, Option.map_some]
    simp only [sureNumber, hp, hcut]
    split_ifs with hsynced hnot
    · have hall : (f.cut (survives p)).data = f.data := by
        apply List.take_of_length_le
        rw [← hsynced]
        exact Nat.le_max_left _ _
      rw [hall]
    · exact absurd rfl hnot
    · exact Nat.zero_le _
    · exact Nat.zero_le _

theorem witness_powerCut (c : Card) (survives : Path → Nat) :
    c.witness ≤ (c.powerCut survives).witness :=
  max_le_max (max_le_max (sureNumber_powerCut c survives _) (sureNumber_powerCut c survives _))
    (Nat.le_refl _)

theorem numberOf_lastSeqText {seq : Nat} (h : seq ≤ maxSeq) : numberOf (lastSeqText seq) = seq := by
  rw [maxSeq] at h
  have hend : ∀ c ∈ (lit "\n").head?, c.isDigit = false := by
    intro c hc
    obtain rfl : '\n' = c := Option.some.inj hc
    rfl
  have hread := @unsigned_decimal 32 seq (by omega) (lit "\n") hend
  rw [numberOf, lastSeqText, hread]
  exact if_neg (by rw [maxSeq]; omega)

end Espos.Sdlog
