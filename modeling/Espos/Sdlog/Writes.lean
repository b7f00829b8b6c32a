import Espos.Sdlog.Directory

-- A file that is written whole or not at all.

namespace Espos.Sdlog

open Espos.Text Espos.Crash Espos.Crash.Prog Card

-- No stream is held open on it.
def Path.plain : Path → Bool
  | .file _ .rows => false
  | _ => true

variable {C : Op → Env → Card → Prop} {crash : Card → Prop} {Q : EspErr → Card → Prop}
  {c : Card} {tmp dst : Path} {parts : List CStr}

theorem act_unlink_plain {p : Path} (hp : p.plain = true) (e : Env) (c : Card) :
    (e.fails = true ∨ c.files p = none) ∧ act (.unlink p) e c = (false, c) ∨
      act (.unlink p) e c = (true, c.setFile p none) := by
  rcases act_unlink e c p with ⟨hwhy, hact⟩ | ⟨_, _, hact⟩
  · exact .inl ⟨hwhy, hact⟩
  · have hdetach : c.detach p = c.streams := by
      cases p with
      | file seq name =>
        cases name with
        | rows => cases hp
        | _ => rfl
      | _ => rfl
    rw [hdetach] at hact
    exact .inr hact

theorem wp_drop (htmp : tmp.plain = true) (hcrash : crash c) (hthere : Q .fail c)
    (hgone : Q .fail (c.setFile tmp none)) : wp act C crash (dropTmp tmp) Q c := by
  rw [dropTmp, wp_bind, wp_perform]
  refine ⟨hcrash, ?_⟩
  intro e _
  rcases act_unlink_plain htmp e c with ⟨_, hact⟩ | hact
  · rw [hact]
    exact hthere
  · rw [hact]
    exact hgone

-- The states on the way: `tmp` is written, `dst` goes, and `tmp` takes its name.
structure Replaces (crash : Card → Prop) (Q : EspErr → Card → Prop) (tmp dst : Path)
    (text : CStr) (c : Card) : Prop where
  writing : ∀ f, crash (c.setFile tmp f) ∧ Q .fail (c.setFile tmp f)
  between : ∀ f, crash ((c.setFile tmp f).setFile dst none) ∧
    Q .fail ((c.setFile tmp f).setFile dst none)
  done : ∀ f : File, f.data = text → f.synced = f.data →
    Q .ok ((c.setFile tmp none).setFile dst (some f))

theorem wp_rename (hne : tmp ≠ dst) (htmp : tmp.plain = true) {f : File}
    (hf : c.files tmp = some f) (hcrash : crash c) (hthere : Q .fail c)
    (hgone : Q .fail (c.setFile tmp none))
    (hdone : Q .ok ((c.setFile tmp none).setFile dst (some f))) :
    wp act C crash
      (do
        let renamed ← Io.rename tmp dst
        if !renamed then dropTmp tmp else pure .ok) Q c := by
  rw [wp_bind, wp_perform]
  refine ⟨hcrash, ?_⟩
  intro e _
  rcases act_rename e c tmp dst with hact | ⟨_, _, hact⟩
  · rw [hact]
    exact wp_drop htmp hcrash hthere hgone
  · rw [hact, hf, setFile_comm hne.symm]
    exact hdone

theorem wp_replace {text : CStr} (hne : tmp ≠ dst) (htmp : tmp.plain = true)
    (hdst : dst.plain = true) (h : Replaces crash Q tmp dst text c) {f : File}
    (hdata : f.data = text) (hsynced : f.synced = f.data) :
    wp act C crash (putInPlace tmp dst) Q (c.setFile tmp (some f)) := by
  rw [putInPlace, wp_bind, wp_perform]
  refine ⟨(h.writing _).1, ?_⟩
  intro e _
  rcases act_unlink_plain hdst e (c.setFile tmp (some f)) with ⟨_, hact⟩ | hact
  · rw [hact]
    refine wp_rename hne htmp (setFile_self _ _ _) (h.writing _).1 (h.writing _).2 ?_ ?_
    · rw [setFile_setFile]
      exact (h.writing none).2
    · rw [setFile_setFile]
      exact h.done f hdata hsynced
  · rw [hact]
    have hthere : ((c.setFile tmp (some f)).setFile dst none).files tmp = some f := by
      rw [setFile_of_ne hne, setFile_self]
    have hgone : ((c.setFile tmp (some f)).setFile dst none).setFile tmp none =
        (c.setFile tmp none).setFile dst none := by
      rw [setFile_comm hne.symm, setFile_setFile]
    refine wp_rename hne htmp hthere (h.between _).1 (h.between _).2 ?_ ?_
    · rw [hgone]
      exact (h.between none).2
    · rw [hgone, setFile_setFile]
      exact h.done f hdata hsynced

theorem wp_putParts (hcrash : ∀ f, crash (c.setFile tmp f)) (f : File) :
    wp act C crash (putParts tmp parts)
      (fun ok c' => ∃ f', c' = c.setFile tmp (some f') ∧
        (ok = true → f'.data = f.data ++ parts.flatten)) (c.setFile tmp (some f)) := by
  induction parts generalizing f with
  | nil => exact ⟨f, rfl, fun _ => (List.append_nil _).symm⟩
  | cons text rest ih =>
    rw [putParts, wp_bind, wp_perform]
    refine ⟨hcrash _, ?_⟩
    intro e _
    rcases act_fputs e (c.setFile tmp (some f)) tmp text with ⟨_, hact⟩ | hact
    · rw [hact]
      exact ⟨f, rfl, nofun⟩
    · rw [hact, setFile_self, setFile_setFile]
      refine wp_mono ?_ (ih (f.append text))
      rintro ok c' ⟨f', hc, hdata⟩
      refine ⟨f', hc, ?_⟩
      intro hok
      rw [hdata hok, List.flatten_cons, ← List.append_assoc]
      rfl

-- The file comes into being whole, or not at all.
theorem wp_writeFileAtomic (hne : tmp ≠ dst) (htmp : tmp.plain = true) (hdst : dst.plain = true)
    (hnow : crash c ∧ Q .fail c) (h : c.Holds tmp → Replaces crash Q tmp dst parts.flatten c) :
    wp act C crash (writeFileAtomic tmp dst parts) Q c := by
  rw [writeFileAtomic, wp_bind, wp_perform]
  refine ⟨hnow.1, ?_⟩
  intro e _
  rcases act_fopenWrite e c tmp with hact | ⟨hholds, hact⟩
  · rw [hact]
    exact hnow.2
  rw [hact]
  have h := h hholds
  have hput := @wp_putParts C crash c tmp parts (fun f => (h.writing f).1) .empty
  refine (wp_bind _ _).mpr (wp_mono ?_ hput)
  rintro written _ ⟨f, rfl, hdata⟩
  have hsync : wp act C crash (andAlso written (Io.fsync tmp))
      (fun flushed c' => ∃ f', c' = c.setFile tmp (some f') ∧
        (flushed = true → f'.data = parts.flatten ∧ f'.synced = f'.data))
      (c.setFile tmp (some f)) := by
    cases written with
    | false => exact ⟨f, rfl, nofun⟩
    | true =>
      refine ⟨(h.writing _).1, ?_⟩
      intro e _
      rcases act_fsync e (c.setFile tmp (some f)) tmp with ⟨_, hact⟩ | hact
      · rw [hact]
        exact ⟨f, rfl, nofun⟩
      · rw [hact, setFile_self, setFile_setFile]
        exact ⟨f.sync, rfl, fun _ => ⟨hdata rfl, rfl⟩⟩
  refine (wp_bind _ _).mpr (wp_mono ?_ hsync)
  rintro flushed _ ⟨f', rfl, hflushed⟩
  rw [wp_bind, wp_perform]
  refine ⟨(h.writing _).1, ?_⟩
  intro e _
  have hgone : Q .fail ((c.setFile tmp (some f')).setFile tmp none) := by
    rw [setFile_setFile]
    exact (h.writing none).2
  have hdrop := @wp_drop C crash Q _ tmp htmp (h.writing (some f')).1 (h.writing _).2 hgone
  cases flushed with
  | false =>
    rw [Bool.and_false]
    exact hdrop
  | true =>
    rw [Bool.and_true]
    cases (act (.fclose tmp) e (c.setFile tmp (some f'))).1 with
    | false => exact hdrop
    | true => exact wp_replace hne htmp hdst h (hflushed rfl).1 (hflushed rfl).2

-- The operation does not fail, and the reading of a directory does not break off.
def Sure (_ : Op) (e : Env) (_ : Card) : Prop :=
  e.fails = false ∧ e.short = none

instance (o : Op) (e : Env) (c : Card) : Decidable (Sure o e c) :=
  inferInstanceAs (Decidable (_ ∧ _))

-- The file is there, whatever else is.
theorem sure_putParts (h : c.files tmp ≠ none) :
    wp act Sure (fun _ => True) (putParts tmp parts)
      (fun ok c => ok = true ∧ c.files tmp ≠ none) c := by
  induction parts generalizing c with
  | nil => exact ⟨rfl, h⟩
  | cons text rest ih =>
    rw [putParts, wp_bind, wp_perform]
    refine ⟨trivial, ?_⟩
    intro e he
    rcases act_fputs e c tmp text with ⟨hfails, _⟩ | hact
    · exact absurd (he.1.symm.trans hfails) Bool.false_ne_true
    · rw [hact]
      apply ih
      rw [setFile_self]
      simpa using h

theorem sure_putInPlace (hne : tmp ≠ dst) (hdst : dst.plain = true) (h : c.files tmp ≠ none) :
    wp act Sure (fun _ => True) (putInPlace tmp dst) (fun err _ => err = .ok) c := by
  rw [putInPlace, wp_bind, wp_perform]
  refine ⟨trivial, ?_⟩
  intro e he
  have hfree : (act (.unlink dst) e c).2.files dst = none ∧
      (act (.unlink dst) e c).2.files tmp ≠ none := by
    rcases act_unlink_plain hdst e c with ⟨hfails | hnone, hact⟩ | hact
    · exact absurd (he.1.symm.trans hfails) Bool.false_ne_true
    · rw [hact]
      exact ⟨hnone, h⟩
    · rw [hact, setFile_self, setFile_of_ne hne]
      exact ⟨rfl, h⟩
  generalize (act (.unlink dst) e c).2 = c at hfree
  rw [wp_bind, wp_perform]
  refine ⟨trivial, ?_⟩
  intro e he
  have hgo : ¬(e.fails = true ∨ c.files tmp = none ∨ c.files dst ≠ none) := by
    simp [he.1, hfree.1, hfree.2]
  have hact : act (.rename tmp dst) e c = (true, (c.setFile dst (c.files tmp)).setFile tmp none) :=
    if_neg hgo
  rw [hact]
  exact rfl

theorem sure_writeFileAtomic (hne : tmp ≠ dst) (hdst : dst.plain = true) (h : c.Holds tmp) :
    wp act Sure (fun _ => True) (writeFileAtomic tmp dst parts) (fun err _ => err = .ok) c := by
  rw [writeFileAtomic, wp_bind, wp_perform]
  refine ⟨trivial, ?_⟩
  intro e he
  have hgo : ¬(e.fails = true ∨ ¬c.Holds tmp) := by simp [he.1, h]
  have hact : act (.fopenWrite tmp) e c = (true, c.setFile tmp (some .empty)) := if_neg hgo
  rw [hact]
  have hthere : (c.setFile tmp (some .empty)).files tmp ≠ none := by
    rw [setFile_self]
    nofun
  refine (wp_bind _ _).mpr (wp_mono ?_ (sure_putParts hthere))
  rintro _ c ⟨rfl, hc⟩
  rw [wp_bind]
  refine ⟨trivial, ?_⟩
  intro e he
  rcases act_fsync e c tmp with ⟨hfails, _⟩ | hact
  · exact absurd (he.1.symm.trans hfails) Bool.false_ne_true
  rw [hact]
  have hsynced : (c.setFile tmp ((c.files tmp).map File.sync)).files tmp ≠ none := by
    rw [setFile_self]
    simpa using hc
  refine ⟨trivial, ?_⟩
  intro e he
  simp only [act, he.1, Bool.not_false, Bool.and_true]
  exact sure_putInPlace hne hdst hsynced

end Espos.Sdlog
