import Espos.Sdlog.Appends
import Espos.Sdlog.Elsewhere
import Espos.Sdlog.Handed
import Espos.Sdlog.Recovery

-- The operations that leave the sessions as they are, and what `open` adds to them.

namespace Espos.Sdlog

open Espos.Text Espos.Crash Espos.Crash.Prog Card

variable {c c' : Card} {o : Op} {e : Env} {seq : Nat} {name : Name}
  {sessions : List (Option Session)}

-- A file that is none of the three.
def Name.beside : Name → Bool
  | .head | .rows | .close => false
  | _ => true

-- What reads, or writes a file beside them.
def Beside : Op → Prop
  | .fopenWrite (.file _ n) | .fputs (.file _ n) _ | .fsync (.file _ n) | .unlink (.file _ n) =>
    n.beside = true
  | .rename (.file k n) (.file k' n') => k = k' ∧ n.beside = true ∧ n'.beside = true
  | .mkdirRoot | .scanRoot | .readNumber _ | .fclose _ | .isDir _ | .stat _ | .size _ | .read _
  | .readDir _ => True
  | _ => False

structure Same (c c' : Card) : Prop where
  names : c'.names = c.names
  streams : c'.streams = c.streams
  lastSeq : c'.files .lastSeq = c.files .lastSeq
  dirs : ∀ k, c'.dir k = c.dir k
  sound : c'.Sound

theorem Same.refl (h : c.Sound) : Same c c :=
  ⟨rfl, rfl, rfl, fun _ => rfl, h⟩

theorem Same.put (h : Same c c') (hname : name.beside = true) {f : Option File}
    (hf : seq ∈ c'.names ∨ f = none) : Same c (c'.setFile (.file seq name) f) := by
  have hdir : ∀ k, (c'.setFile (.file seq name) f).dir k = c'.dir k := by
    intro k
    by_cases hk : k = seq
    · rw [hk, dir_setFile]
      cases name with
      | head => cases hname
      | rows => cases hname
      | close => cases hname
      | _ => rfl
    · exact dir_setFile_of_ne hk _ _
  refine ⟨h.names, h.streams, ?_, fun k => (hdir k).trans (h.dirs k), ⟨?_, ?_⟩⟩
  · rw [setFile_of_ne (by simp)]
    exact h.lastSeq
  · intro k
    rw [hdir]
    exact h.sound.dirs k
  · intro p hp
    by_cases hpath : p = .file seq name
    · subst hpath
      rw [setFile_self]
      exact hf.resolve_left hp
    · rw [setFile_of_ne hpath]
      exact h.sound.within p hp

-- A file that is there is in a directory.
theorem Same.put_map (h : Same c c') (hname : name.beside = true) (g : File → File) :
    Same c (c'.setFile (.file seq name) ((c'.files (.file seq name)).map g)) := by
  apply h.put hname
  by_cases hseq : seq ∈ c'.names
  · exact .inl hseq
  · rw [h.sound.within (.file seq name) hseq]
    exact .inr rfl

theorem same_act (ho : Beside o) (h : Same c c') : Same c (act o e c').2 := by
  cases o with
  | fopenWrite p =>
    cases p with
    | file seq name =>
      rcases act_fopenWrite e c' (.file seq name) with hact | ⟨hholds, hact⟩
      · rw [hact]
        exact h
      · rw [hact]
        exact h.put ho (.inl hholds)
    | _ => cases ho
  | fputs p text =>
    cases p with
    | file seq name =>
      rcases act_fputs e c' (.file seq name) text with ⟨_, hact⟩ | hact
      · rw [hact]
        exact h
      · rw [hact]
        exact h.put_map ho _
    | _ => cases ho
  | fsync p =>
    cases p with
    | file seq name =>
      rcases act_fsync e c' (.file seq name) with ⟨_, hact⟩ | hact
      · rw [hact]
        exact h
      · rw [hact]
        exact h.put_map ho _
    | _ => cases ho
  | unlink p =>
    cases p with
    | file seq name =>
      have hplain : (Path.file seq name).plain = true := by
        cases name with
        | rows => cases ho
        | _ => rfl
      rcases act_unlink_plain hplain e c' with ⟨_, hact⟩ | hact
      · rw [hact]
        exact h
      · rw [hact]
        exact h.put ho (.inr rfl)
    | _ => cases ho
  | rename p q =>
    cases p with
    | file k n =>
      cases q with
      | file k' n' =>
        obtain ⟨rfl, hn, hn'⟩ := ho
        rcases act_rename e c' (.file k n) (.file k n') with hact | ⟨hthere, _, hact⟩
        · rw [hact]
          exact h
        · rw [hact]
          have hk : k ∈ c'.names := by
            by_contra hno
            exact hthere (h.sound.within (.file k n) hno)
          exact (h.put hn' (.inl hk)).put hn (.inr rfl)
      | _ => cases ho
    | _ => cases ho
  | scanRoot =>
    simp only [act]
    split_ifs <;> exact h
  | readNumber p =>
    simp only [act]
    split_ifs <;> exact h
  | read p =>
    simp only [act]
    split_ifs
    · exact h
    · cases c'.files p <;> exact h
  | readDir k =>
    simp only [act]
    split_ifs <;> exact h
  | mkdirRoot => exact h
  | fclose p => exact h
  | isDir k => exact h
  | stat p => exact h
  | size p => exact h
  | mkdir k => cases ho
  | rmdir k => cases ho
  | truncate p keep => cases ho
  | fopenRows k => cases ho
  | fwrite i text => cases ho
  | fsyncRows i => cases ho
  | fcloseRows i => cases ho

theorem Same.good (h : Same c c') (hc : Good c) : Good c' := by
  refine ⟨h.sound, ?_⟩
  intro k
  rw [h.dirs]
  exact hc.2 k

theorem Same.only (h : Same c c') (seq : Nat) : c.Only seq c' :=
  ⟨h.names, h.streams, h.lastSeq, fun k _ => h.dirs k⟩

theorem Consistent.same (h : Consistent sessions c) (hsame : Same c c') :
    Consistent sessions c' := by
  refine ⟨hsame.sound, (hsame.good ⟨h.sound, h.shape⟩).2, ?_, ?_, h.apart⟩
  · intro k f hf
    rw [rows_of_dir (hsame.dirs k)] at hf
    exact h.settled k f hf
  · intro i s hs
    exact (h.live i s hs).of_only (hsame.only (s.seq + 1)) (Nat.succ_ne_self _).symm

end Espos.Sdlog

-- Every call keeps the sessions and the card consistent, and a power cut in it finds
-- directories that `recover` can tell apart.

namespace Espos.Sdlog

open Espos.Text Espos.Crash Espos.Crash.Prog Card

variable {c c' : Card} {seq last : Nat} {sessions : List (Option Session)}

theorem Reads.beside {o : Op} (h : Reads o) : Beside o := by
  cases o <;> first | exact trivial | exact h.elim

theorem wp_beside {α : Type} {C : Op → Env → Card → Prop} {p : Io α} (hp : p.Uses Beside)
    (h : Good c) : wp act C Good p (fun _ => Same c) c := by
  have hsame : wp act C (Same c) p (fun _ => Same c) c :=
    wp_of_uses (fun o e c' ho _ hs => @same_act c c' o e ho hs) hp (.refl h.1)
  exact wp_crash_mono (fun c' hc' => hc'.good h) hsame

theorem sdlogMarkSynced_beside (seq : Nat) (note : Option CStr) :
    (sdlogMarkSynced seq note).Uses Beside := by
  apply uses_bind ((sdlogInfo_reads seq).imp fun _ => Reads.beside)
  intro answer
  refine uses_ite _ trivial (uses_ite _ trivial ?_)
  have hwrites : Writes Beside (.file seq .syncedTmp) (.file seq .synced) :=
    ⟨rfl, fun _ => rfl, rfl, trivial, rfl, rfl, rfl, rfl, rfl⟩
  exact writeFileAtomic_uses hwrites _

-- What is read of a file that is there for good is in it.
theorem sure_readSeqFile (p : Path) (c : Card) :
    wp act Sure (fun _ => True) (readSeqFile p) (fun n c' => c' = c ∧ c.sureNumber p ≤ n) c := by
  rw [readSeqFile, wp_bind, wp_perform]
  refine ⟨trivial, ?_⟩
  intro e he
  refine ⟨readNumber_card p e, ?_⟩
  show c.sureNumber p ≤ ((act (.readNumber p) e c).1.map numberOf).getD 0
  rw [readNumber_eq, readNumberOf, he.1, if_neg Bool.false_ne_true, sureNumber]
  cases c.files p with
  | none => exact Nat.zero_le _
  | some f =>
    show (if f.synced = f.data then numberOf f.data else 0) ≤ numberOf f.data
    split_ifs
    · exact Nat.le_refl _
    · exact Nat.zero_le _

theorem sure_readLastSeq (c : Card) :
    wp act Sure (fun _ => True) readLastSeq (fun last _ => c.sureNumber .lastSeq ≤ last) c := by
  rw [readLastSeq, wp_bind]
  refine wp_mono ?_ (sure_readSeqFile .lastSeq c)
  rintro a _ ⟨rfl, ha⟩
  refine (wp_bind _ _).mpr (wp_mono ?_ (wp_trivial _ _))
  intro b _ _
  exact ha.trans (Nat.le_max_left _ _)

theorem sure_openLast (c : Card) :
    wp act Sure (fun _ => True) openLast
      (fun r _ => ∀ last, r = .ok last → c.sureNumber .lastSeq ≤ last) c := by
  rw [openLast, wp_bind, wp_perform]
  refine ⟨trivial, ?_⟩
  intro e he
  have hmade : act .mkdirRoot e c = (true, c) :=
    Prod.ext (by simp only [act, he.1, Bool.not_false]) rfl
  rw [hmade]
  refine (wp_bind Io.scanRoot _).mpr ((wp_perform _).mpr ⟨trivial, ?_⟩)
  intro e he
  have hscan : act .scanRoot e c = (some (c.names.insertionSort (· ≤ ·)), c) := by
    simp only [act, he.1, he.2, upTo, Bool.false_eq_true, if_false]
  rw [hscan]
  refine (wp_bind readLastSeq _).mpr (wp_mono ?_ (sure_readLastSeq c))
  intro last c' hlast r hr
  obtain rfl := Except.ok.inj hr
  exact hlast.trans (Nat.le_max_left _ _)

-- The directories are as they were, whatever is in the root.
structure Rooted (c c' : Card) : Prop where
  names : c'.names = c.names
  streams : c'.streams = c.streams
  dirs : ∀ k, c'.dir k = c.dir k
  sound : c'.Sound

theorem Rooted.setFile {p : Path} (hp : p.isFile = false) (h : Rooted c c') (f : Option File) :
    Rooted c (c'.setFile p f) :=
  ⟨h.names, h.streams, fun k => (dir_setFile_root hp f).trans (h.dirs k),
    h.sound.setFile_root hp f⟩

theorem Rooted.good (h : Rooted c c') (hc : Good c) : Good c' := by
  refine ⟨h.sound, ?_⟩
  intro k
  rw [h.dirs]
  exact hc.2 k

theorem wp_writeLastSeq_rooted (h : Good c) :
    wp act Sure Good (writeLastSeq seq) (fun _ => Rooted c) c := by
  have hstart : Rooted c c := ⟨rfl, rfl, fun _ => rfl, h.1⟩
  have hat : ∀ c', Rooted c c' → Good c' ∧ Rooted c c' := fun c' hc' => ⟨hc'.good h, hc'⟩
  refine wp_writeFileAtomic (by simp) rfl rfl (hat c hstart) fun _ => ⟨?_, ?_, ?_⟩
  · intro f
    exact hat _ (hstart.setFile rfl f)
  · intro f
    exact hat _ ((hstart.setFile rfl f).setFile rfl none)
  · intro f _ _
    exact (hstart.setFile rfl none).setFile rfl (some f)

-- The number is recorded, and nothing else has changed.
theorem sure_writeLastSeq (h : Good c) (hseq : seq ≤ maxSeq) :
    wp act Sure Good (writeLastSeq seq)
      (fun err c' => err = .ok ∧ Rooted c c' ∧ c'.sureNumber .lastSeq = seq) c := by
  have hok : wp act Sure (fun _ => True) (writeLastSeq seq) (fun err _ => err = .ok) c :=
    sure_writeFileAtomic (by simp) rfl trivial
  have hspare : ∀ o e c, Sure o e c → Spares 0 o e c := by
    intro o e c _
    cases o with
    | fputs p text => cases p <;> first | exact trivial | exact fun _ => Nat.zero_le _
    | fsync p => cases p <;> first | exact trivial | exact fun _ => Nat.zero_le _
    | unlink p => cases p <;> first | exact trivial | exact fun _ => Nat.zero_le _
    | rmdir seq => exact fun _ => Nat.zero_le _
    | _ => exact trivial
  have hnumber := wp_cond_mono hspare (wp_writeLastSeq (Nat.zero_le seq) hseq (Nat.zero_le c.witness))
  have hall := wp_and (wp_writeLastSeq_rooted h) (wp_and hok hnumber)
  refine wp_crash_mono (fun _ hc => hc.1) (wp_mono ?_ hall)
  rintro err c' ⟨hrooted, rfl, hrecorded⟩
  exact ⟨rfl, hrooted, hrecorded.2 rfl⟩

-- The directory of a session that is being opened.
structure Made (seq : Nat) (head : Bool) (c c' : Card) : Prop where
  names : c'.names = c.names ++ [seq]
  streams : c'.streams = c.streams
  lastSeq : c'.files .lastSeq = c.files .lastSeq
  dirs : ∀ k, k ≠ seq → c'.dir k = c.dir k
  dir : c'.dir seq = ⟨head, none, none, [], 0, false⟩
  good : Good c'

theorem Made.mem {head : Bool} (h : Made seq head c c') : seq ∈ c'.names := by
  rw [h.names]
  exact List.mem_append_right _ List.mem_cons_self

theorem Dir.sound_started (head : Bool) (rows : Option File) (h : ∀ f, rows = some f → f.data = []) :
    (⟨head, rows, none, [], 0, false⟩ : Dir).Sound := by
  refine ⟨nofun, Nat.le_refl _, ?_, nofun⟩
  intro f hf
  rw [h f hf]
  exact ⟨List.nil_prefix, List.nil_prefix⟩

theorem Dir.shape_started (head : Bool) (rows : Option File) :
    (⟨head, rows, none, [], 0, false⟩ : Dir).Shape :=
  ⟨fun hclose => absurd rfl hclose, fun _ _ _ => rfl⟩

theorem made_mkdir (h : Good c) (hseq : seq ∉ c.names) :
    Made seq false c { c with
      names := c.names ++ [seq]
      passed := Function.update c.passed seq []
      durable := Function.update c.durable seq 0
      completed := Function.update c.completed seq false } := by
  obtain ⟨hsound, hshape⟩ := h
  have hnone : ∀ name, c.files (.file seq name) = none := fun name =>
    hsound.within (.file seq name) hseq
  have hself : Card.dir { c with
      names := c.names ++ [seq]
      passed := Function.update c.passed seq []
      durable := Function.update c.durable seq 0
      completed := Function.update c.completed seq false } seq =
        ⟨false, none, none, [], 0, false⟩ := by
    simp [dir, hnone]
  have hother : ∀ k, k ≠ seq → Card.dir { c with
      names := c.names ++ [seq]
      passed := Function.update c.passed seq []
      durable := Function.update c.durable seq 0
      completed := Function.update c.completed seq false } k = c.dir k := by
    intro k hk
    simp [dir, hk]
  refine ⟨rfl, rfl, rfl, hother, hself, ⟨?_, ?_⟩, ?_⟩
  · intro k
    by_cases hk : k = seq
    · rw [hk, hself]
      exact Dir.sound_started _ _ (by simp)
    · rw [hother k hk]
      exact hsound.dirs k
  · intro p hp
    refine hsound.within p fun hholds => hp ?_
    cases p with
    | file k name => exact List.mem_append_left _ hholds
    | _ => trivial
  · intro k
    by_cases hk : k = seq
    · rw [hk, hself]
      exact Dir.shape_started _ _
    · rw [hother k hk]
      exact hshape k

theorem Made.setFile {head head' : Bool} (h : Made seq head c c') {name : Name} {f : Option File}
    (hdir : (c'.dir seq).put name f = ⟨head', none, none, [], 0, false⟩) :
    Made seq head' c (c'.setFile (.file seq name) f) := by
  have hself := (dir_setFile c' seq name f).trans hdir
  refine ⟨h.names, h.streams, ?_, ?_, hself, ?_, ?_⟩
  · rw [setFile_of_ne (by simp)]
    exact h.lastSeq
  · intro k hk
    rw [dir_setFile_of_ne hk]
    exact h.dirs k hk
  · apply h.good.1.setFile h.mem
    rw [hdir]
    exact Dir.sound_started _ _ nofun
  · apply h.good.2.setFile
    rw [hdir]
    exact Dir.shape_started _ _

theorem sure_writeHead {c0 : Card} {header : CStr} (h : Made seq false c0 c) :
    wp act Sure Good (writeFileAtomic (.file seq .headTmp) (.file seq .head) [header])
      (fun err c' => err = .ok ∧ Made seq true c0 c') c := by
  have hok := @sure_writeFileAtomic c (.file seq .headTmp) (.file seq .head) [header] (by simp) rfl
    h.mem
  have htmp : ∀ f, Made seq false c0 (c.setFile (.file seq .headTmp) f) := fun f => h.setFile h.dir
  have hmade : wp act Sure Good (writeFileAtomic (.file seq .headTmp) (.file seq .head) [header])
      (fun err c' => err = .ok → Made seq true c0 c') c := by
    refine wp_writeFileAtomic (by simp) rfl rfl ⟨h.good, nofun⟩ fun _ => ⟨?_, ?_, ?_⟩
    · intro f
      exact ⟨(htmp f).good, nofun⟩
    · intro f
      have hbetween : Made seq false c0
          ((c.setFile (.file seq .headTmp) f).setFile (.file seq .head) none) := by
        apply (htmp f).setFile
        rw [(htmp f).dir]
        rfl
      exact ⟨hbetween.good, nofun⟩
    · intro f _ _ _
      apply (htmp none).setFile
      rw [(htmp none).dir]
      rfl
  refine wp_crash_mono (fun _ hc => hc.1) (wp_mono ?_ (wp_and hmade hok))
  rintro err c' ⟨hmade, rfl⟩
  exact ⟨rfl, hmade rfl⟩

theorem handle_concat (s : Session) (i : Nat) :
    handle (sessions ++ [some s]) i = if i = sessions.length then some s else handle sessions i := by
  rcases Nat.lt_trichotomy i sessions.length with hlt | heq | hgt
  · rw [if_neg hlt.ne, handle, handle, List.getElem?_append_left hlt]
  · rw [if_pos heq, heq, handle, List.getElem?_concat_length]
    rfl
  · rw [if_neg hgt.ne', handle, handle, List.getElem?_eq_none (by simp; omega),
      List.getElem?_eq_none hgt.le]

-- The card once the rows of the new session are held open.
def Card.started (c : Card) (seq : Nat) : Card :=
  { c.setFile (.file seq .rows) (some .empty) with streams := c.streams ++ [⟨seq, true⟩] }

theorem started_dir (h : Made seq true c c') :
    (c'.started seq).dir seq = ⟨true, some .empty, none, [], 0, false⟩ := by
  have hself := dir_setFile c' seq .rows (some .empty)
  rw [h.dir] at hself
  exact hself

theorem started_dir_of_ne {k : Nat} (h : Made seq true c c') (hk : k ≠ seq) :
    (c'.started seq).dir k = c.dir k :=
  (dir_setFile_of_ne hk .rows (some .empty)).trans (h.dirs k hk)

theorem started_good (h : Made seq true c c') : Good (c'.started seq) := by
  have hrows : Good (c'.setFile (.file seq .rows) (some .empty)) := by
    refine ⟨h.good.1.setFile h.mem ?_, h.good.2.setFile ?_⟩
    · rw [h.dir]
      exact Dir.sound_started _ _ fun f hf => by
        obtain rfl := Option.some.inj hf
        rfl
    · rw [h.dir]
      exact Dir.shape_started _ _
  refine ⟨⟨hrows.1.dirs, ?_⟩, hrows.2⟩
  intro p hp
  refine hrows.1.within p fun hholds => hp ?_
  cases p with
  | file k name => exact hholds
  | _ => trivial

theorem Consistent.opened (h : Consistent sessions c)
    (hbelow : ∀ i s, handle sessions i = some s → s.seq < seq) (hsure : c.sureNumber .lastSeq = seq)
    (hmade : Made seq true c c') {s : Session} (hseq : s.seq = seq)
    (hstream : s.stream = c'.streams.length) (hfailed : s.failed = false)
    (hcounts : s.rows = 0 ∧ s.bytes = 0 ∧ s.sha = .init) :
    Consistent (sessions ++ [some s]) (c'.started seq) := by
  subst hseq
  have hgood := started_good hmade
  have hdir := started_dir hmade
  have hnumber : (c'.started s.seq).sureNumber .lastSeq = s.seq := by
    have hfile : (c'.started s.seq).files .lastSeq = c.files .lastSeq :=
      (@setFile_of_ne c' (.file s.seq .rows) .lastSeq (by simp) (some .empty)).trans hmade.lastSeq
    exact (sureNumber_of_files hfile).trans hsure
  have hhandle : ∀ i t, handle (sessions ++ [some s]) i = some t →
      i = sessions.length ∧ t = s ∨ handle sessions i = some t := by
    intro i t hi
    rw [handle_concat] at hi
    by_cases hlast : i = sessions.length
    · rw [if_pos hlast] at hi
      exact .inl ⟨hlast, (Option.some.inj hi).symm⟩
    · rw [if_neg hlast] at hi
      exact .inr hi
  have hlast : handle (sessions ++ [some s]) sessions.length = some s := by
    rw [handle_concat, if_pos rfl]
  have hkeep : ∀ i t, handle sessions i = some t → handle (sessions ++ [some s]) i = some t := by
    intro i t hi
    have hlt : i ≠ sessions.length := by
      rintro rfl
      rw [handle, List.getElem?_eq_none (Nat.le_refl _)] at hi
      cases hi
    rw [handle_concat, if_neg hlt]
    exact hi
  refine ⟨hgood.1, hgood.2, ?_, ?_, ?_⟩
  · intro k f hf
    by_cases hk : k = s.seq
    · exact .inr ⟨sessions.length, s, hlast, hk.symm⟩
    · rw [rows_of_dir (started_dir_of_ne hmade hk)] at hf
      refine (h.settled k f hf).imp id ?_
      rintro ⟨i, t, hi, ht⟩
      exact ⟨i, t, hkeep i t hi, ht⟩
  · intro i t hi
    rcases hhandle i t hi with ⟨-, rfl⟩ | hi
    · refine ⟨hfailed, hnumber.ge, .inl ⟨?_, ⟨hmade.mem, ?_, ?_, ?_, ?_, ?_, ?_⟩⟩⟩
      · rw [hstream]
        exact List.getElem?_concat_length
      · rw [hdir]
      · rw [hdir]
      · rw [hdir]
        exact ⟨.empty, rfl, rfl⟩
      · rw [hdir]
        exact hcounts.1
      · rw [hdir]
        exact hcounts.2.1
      · rw [hdir]
        exact hcounts.2.2.trans (Sha256.update_nil _).symm
    · have hlive := h.live i t hi
      have hne : t.seq ≠ s.seq := (hbelow i t hi).ne
      have hlt : t.stream < c.streams.length := by
        rcases hlive.stream with ⟨hat, _⟩ | ⟨hat, _⟩
        · exact (List.getElem?_eq_some_iff.mp hat).1
        · exact (List.getElem?_eq_some_iff.mp hat).1
      have hat : (c'.started s.seq).streams[t.stream]? = c.streams[t.stream]? := by
        show (c'.streams ++ _)[t.stream]? = _
        rw [hmade.streams, List.getElem?_append_left hlt]
      refine ⟨hlive.failed, ?_, ?_⟩
      · rw [hnumber]
        exact (hbelow i t hi).le
      · rw [hat]
        refine hlive.stream.imp (And.imp_right fun hattached => ?_)
          (And.imp_right fun hno hmem => ?_)
        · refine hattached.of_dir ?_ (started_dir_of_ne hmade hne)
          show t.seq ∈ c'.names
          rw [hmade.names]
          exact List.mem_append_left _ hattached.mem
        · have hmem : t.seq ∈ c'.names := hmem
          rw [hmade.names] at hmem
          rcases List.mem_append.mp hmem with hold | hnew
          · exact hno hold
          · exact hne (List.mem_singleton.mp hnew)
  · intro i j t u hi hj heq
    rcases hhandle i t hi with ⟨rfl, rfl⟩ | hold
    · rcases hhandle j u hj with ⟨rfl, -⟩ | hold'
      · rfl
      · exact absurd heq.symm (hbelow j u hold').ne
    · rcases hhandle j u hj with ⟨rfl, rfl⟩ | hold'
      · exact absurd heq (hbelow i t hold).ne
      · exact h.apart i j t u hold hold' heq

-- What `open` leaves: one session more, or none.
def Opened (sessions : List (Option Session)) (r : EspErr × Option Session) (c : Card) : Prop :=
  Consistent (sessions ++ (r.2.map some).toList) c

theorem Consistent.good (h : Consistent sessions c) : Good c :=
  ⟨h.sound, h.shape⟩

theorem opened_none {err : EspErr} (h : Consistent sessions c) : Opened sessions (err, none) c := by
  show Consistent (sessions ++ []) c
  rw [List.append_nil]
  exact h

theorem wp_startSession_sure (h : Consistent sessions c)
    (hbelow : ∀ i s, handle sessions i = some s → s.seq < seq) (hsure : c.sureNumber .lastSeq = seq)
    (header : CStr) (cfg : Option OpenCfg) :
    wp act Sure Good (startSession seq header cfg) (Opened sessions) c := by
  rw [startSession, wp_bind, wp_perform]
  refine ⟨h.good, ?_⟩
  intro e he
  by_cases hseq : seq ∈ c.names
  · have hact : act (.mkdir seq) e c = (false, c) := if_pos (.inr hseq)
    rw [hact]
    exact opened_none h
  · have hgo : ¬(e.fails = true ∨ seq ∈ c.names) := by simp [he.1, hseq]
    have hact : act (.mkdir seq) e c = (true, { c with
        names := c.names ++ [seq]
        passed := Function.update c.passed seq []
        durable := Function.update c.durable seq 0
        completed := Function.update c.completed seq false }) := if_neg hgo
    rw [hact]
    refine (wp_bind _ _).mpr (wp_mono ?_ (sure_writeHead (made_mkdir h.good hseq)))
    rintro _ c1 ⟨rfl, hmade⟩
    refine (wp_bind (Io.fopenRows seq) _).mpr ((wp_perform _).mpr ⟨hmade.good, ?_⟩)
    intro e he
    have hgo : ¬(e.fails = true ∨ seq ∉ c1.names) := by simp [he.1, hmade.mem]
    have hact : act (.fopenRows seq) e c1 = (some c1.streams.length, c1.started seq) := if_neg hgo
    rw [hact]
    exact h.opened hbelow hsure hmade rfl rfl rfl ⟨rfl, rfl, rfl⟩

-- The root has a new number in it, above all the sessions that are open.
theorem Consistent.rooted (h : Consistent sessions c) (hrooted : Rooted c c')
    (hle : c.sureNumber .lastSeq ≤ c'.sureNumber .lastSeq) : Consistent sessions c' := by
  refine ⟨hrooted.sound, (hrooted.good h.good).2, ?_, ?_, h.apart⟩
  · intro k f hf
    rw [rows_of_dir (hrooted.dirs k)] at hf
    exact h.settled k f hf
  · intro i s hs
    have hlive := h.live i s hs
    refine ⟨hlive.failed, hlive.le.trans hle, ?_⟩
    rw [hrooted.streams, hrooted.names]
    refine hlive.stream.imp (And.imp_right fun hattached => ?_) id
    exact hattached.of_dir (hrooted.names ▸ hattached.mem) (hrooted.dirs _)

theorem wp_sdlogOpen (h : Consistent sessions c) (header : CStr) (cfg : Option OpenCfg) :
    wp act Sure Good (sdlogOpen header cfg) (Opened sessions) c := by
  rw [sdlogOpen, wp_bind]
  have hreads := wp_beside (C := Sure) (openLast_reads.imp fun _ => Reads.beside) h.good
  refine wp_crash_mono (fun _ hc => hc.1) (wp_mono ?_ (wp_and hreads (sure_openLast c)))
  rintro last c1 ⟨hsame, hlast⟩
  have h1 := h.same hsame
  cases last with
  | error err => exact opened_none h1
  | ok last =>
    show wp act Sure Good (if _ then _ else _) _ c1
    by_cases hfull : maxSeq ≤ last
    · rw [if_pos hfull]
      exact opened_none h1
    · rw [if_neg hfull, wp_bind]
      have hwrite := sure_writeLastSeq h1.good (Nat.not_le.mp hfull : last + 1 ≤ maxSeq)
      refine wp_mono ?_ hwrite
      rintro _ c2 ⟨rfl, hrooted, hnumber⟩
      have hle : c1.sureNumber .lastSeq ≤ last := by
        rw [sureNumber_of_files hsame.lastSeq]
        exact hlast last rfl
      have h2 := h1.rooted hrooted (by omega)
      have hbelow : ∀ i s, handle sessions i = some s → s.seq < last + 1 := by
        intro i s hs
        exact Nat.lt_succ_of_le ((h1.live i s hs).le.trans hle)
      exact wp_startSession_sure h2 hbelow hnumber header cfg

end Espos.Sdlog
