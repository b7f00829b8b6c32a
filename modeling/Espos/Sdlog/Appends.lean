import Espos.Sdlog.Closing
import Espos.Sdlog.Logger
import Espos.Sdlog.Removal

-- The sessions that are open, and the card under them.

namespace Espos.Sdlog

open Espos.Text Espos.Crash Card

variable {c c' : Card} {s s' : Session} {seq k i : Nat} {sessions : List (Option Session)}

-- The rows of the session are the lines that were passed to it, and it counts them.
structure Attached (c : Card) (s : Session) : Prop where
  mem : s.seq ∈ c.names
  head : (c.dir s.seq).head = true
  unclosed : (c.dir s.seq).close = none
  data : ∃ f, (c.dir s.seq).rows = some f ∧ f.data = (c.dir s.seq).passed.flatten
  rows : s.rows = .ofNat (c.dir s.seq).passed.length
  bytes : s.bytes = .ofNat (c.dir s.seq).passed.flatten.length
  sha : s.sha = Sha256.init.update (bytesOf (c.dir s.seq).passed.flatten)

-- Where its directory was removed under it, what it writes goes nowhere.
structure Live (c : Card) (s : Session) : Prop where
  failed : s.failed = false
  le : s.seq ≤ c.sureNumber .lastSeq
  stream : c.streams[s.stream]? = some ⟨s.seq, true⟩ ∧ Attached c s ∨
    c.streams[s.stream]? = some ⟨s.seq, false⟩ ∧ s.seq ∉ c.names

structure Consistent (sessions : List (Option Session)) (c : Card) : Prop where
  sound : c.Sound
  shape : c.Shape
  settled : ∀ seq f, c.files (.file seq .rows) = some f →
    f.synced = f.data ∨ ∃ i s, handle sessions i = some s ∧ s.seq = seq
  live : ∀ i s, handle sessions i = some s → Live c s
  apart : ∀ i j s t, handle sessions i = some s → handle sessions j = some t →
    s.seq = t.seq → i = j

theorem Attached.of_dir (h : Attached c s) (hnames : s.seq ∈ c'.names)
    (hdir : c'.dir s.seq = c.dir s.seq) : Attached c' s where
  mem := hnames
  head := hdir ▸ h.head
  unclosed := hdir ▸ h.unclosed
  data := hdir ▸ h.data
  rows := hdir ▸ h.rows
  bytes := hdir ▸ h.bytes
  sha := hdir ▸ h.sha

theorem Live.of_only (h : Live c s) (honly : c.Only seq c') (hne : s.seq ≠ seq) : Live c' s := by
  refine ⟨h.failed, ?_, ?_⟩
  · rw [sureNumber_of_files honly.lastSeq]
    exact h.le
  · rw [honly.streams, honly.names]
    refine h.stream.imp (And.imp_right fun hattached => ?_) id
    exact hattached.of_dir (honly.names ▸ hattached.mem) (honly.dirs _ hne)

theorem handle_set_self (h : handle sessions i = some s) (s' : Option Session) :
    handle (sessions.set i s') i = s' := by
  have hlt : i < sessions.length := by
    by_contra hge
    rw [handle, List.getElem?_eq_none (Nat.le_of_not_lt hge)] at h
    cases h
  rw [handle, List.getElem?_set_self hlt]
  rfl

theorem handle_set_of_ne {j : Nat} (h : i ≠ j) (s' : Option Session) :
    handle (sessions.set i s') j = handle sessions j := by
  rw [handle, handle, List.getElem?_set_ne h]

theorem rows_of_dir (hdir : c'.dir k = c.dir k) :
    c'.files (.file k .rows) = c.files (.file k .rows) :=
  congrArg Dir.rows hdir

theorem Consistent.set (h : Consistent sessions c) (hi : handle sessions i = some s)
    (hsound : c'.Sound) (hshape : c'.Shape) (honly : c.Only s.seq c') (hlive : Live c' s')
    (hseq : s'.seq = s.seq) : Consistent (sessions.set i (some s')) c' := by
  have hhandle : ∀ j t, handle (sessions.set i (some s')) j = some t →
      j = i ∧ t = s' ∨ j ≠ i ∧ handle sessions j = some t := by
    intro j t hj
    by_cases hji : j = i
    · subst hji
      rw [handle_set_self hi] at hj
      exact .inl ⟨rfl, (Option.some.inj hj).symm⟩
    · rw [handle_set_of_ne fun heq => hji heq.symm] at hj
      exact .inr ⟨hji, hj⟩
  refine ⟨hsound, hshape, ?_, ?_, ?_⟩
  · intro k f hf
    by_cases hk : k = s.seq
    · exact .inr ⟨i, s', handle_set_self hi _, hseq.trans hk.symm⟩
    · rw [rows_of_dir (honly.dirs k hk)] at hf
      refine (h.settled k f hf).imp id ?_
      rintro ⟨j, t, hj, ht⟩
      have hne : i ≠ j := by
        rintro rfl
        obtain rfl := Option.some.inj (hi.symm.trans hj)
        exact hk ht.symm
      exact ⟨j, t, (handle_set_of_ne hne _).trans hj, ht⟩
  · intro j t hj
    rcases hhandle j t hj with ⟨-, rfl⟩ | ⟨hne, hj⟩
    · exact hlive
    · exact (h.live j t hj).of_only honly fun heq => hne (h.apart j i t s hj hi heq)
  · intro j j' t t' hj hj' heq
    rcases hhandle j t hj with ⟨rfl, rfl⟩ | ⟨hne, hold⟩
    · rcases hhandle j' t' hj' with ⟨rfl, -⟩ | ⟨hne', hold'⟩
      · rfl
      · exact absurd (h.apart _ _ _ _ hi hold' (hseq.symm.trans heq)).symm hne'
    · rcases hhandle j' t' hj' with ⟨rfl, rfl⟩ | ⟨_, hold'⟩
      · exact absurd (h.apart _ _ _ _ hold hi (heq.trans hseq)) hne
      · exact h.apart _ _ _ _ hold hold' heq

-- A session is done with, and its rows are there for good.
theorem Consistent.clear (h : Consistent sessions c) (hi : handle sessions i = some s)
    (hsound : c'.Sound) (hshape : c'.Shape) (honly : c.Only s.seq c')
    (hrows : ∀ f, c'.files (.file s.seq .rows) = some f → f.synced = f.data) :
    Consistent (sessions.set i none) c' := by
  have hhandle : ∀ j t, handle (sessions.set i none) j = some t →
      j ≠ i ∧ handle sessions j = some t := by
    intro j t hj
    by_cases hji : j = i
    · subst hji
      rw [handle_set_self hi] at hj
      cases hj
    · rw [handle_set_of_ne fun heq => hji heq.symm] at hj
      exact ⟨hji, hj⟩
  refine ⟨hsound, hshape, ?_, ?_, ?_⟩
  · intro k f hf
    by_cases hk : k = s.seq
    · exact .inl (hrows f (hk ▸ hf))
    · rw [rows_of_dir (honly.dirs k hk)] at hf
      refine (h.settled k f hf).imp id ?_
      rintro ⟨j, t, hj, ht⟩
      have hne : i ≠ j := by
        rintro rfl
        obtain rfl := Option.some.inj (hi.symm.trans hj)
        exact hk ht.symm
      exact ⟨j, t, (handle_set_of_ne hne _).trans hj, ht⟩
  · intro j t hj
    obtain ⟨hne, hj⟩ := hhandle j t hj
    exact (h.live j t hj).of_only honly fun heq => hne (h.apart j i t s hj hi heq)
  · intro j j' t t' hj hj' heq
    exact h.apart _ _ _ _ (hhandle j t hj).2 (hhandle j' t' hj').2 heq

theorem Consistent.thinned (h : Consistent sessions c) (hthin : Thinned seq c c')
    (hgone : seq ∉ c'.names) : Consistent sessions c' := by
  have hsound := hthin.sound h.sound
  have hnone : ∀ name, c'.files (.file seq name) = none := fun name =>
    hsound.within (.file seq name) hgone
  refine ⟨hsound, hthin.shape_of_gone hsound h.shape hgone, ?_, ?_, h.apart⟩
  · intro k f hf
    rcases hthin.file_cases (.file k .rows) with heq | hmiss
    · exact h.settled k f (heq.symm.trans hf)
    · cases hmiss.symm.trans hf
  · intro i s hs
    have hlive := h.live i s hs
    have hlast : c'.files .lastSeq = c.files .lastSeq := by
      refine (hthin.files .lastSeq).resolve_right ?_
      rintro ⟨⟨name, heq⟩, -⟩
      cases heq
    refine ⟨hlive.failed, ?_, ?_⟩
    · rw [sureNumber_of_files hlast]
      exact hlive.le
    · by_cases hk : s.seq = seq
      · refine .inr ⟨?_, hk ▸ hgone⟩
        rcases hthin.streams with ⟨hstreams, hrows⟩ | ⟨hstreams, _⟩
        · rw [hstreams]
          rcases hlive.stream with ⟨_, hattached⟩ | ⟨hdetached, _⟩
          · obtain ⟨f, hf, -⟩ := hattached.data
            rw [hk] at hf
            cases (hrows.symm.trans (hnone .rows)).symm.trans hf
          · exact hdetached
        · rw [hstreams, detach, List.getElem?_map]
          rcases hlive.stream with ⟨hstream, _⟩ | ⟨hstream, _⟩
          · simp [hstream, hk]
          · simp [hstream, hk]
      · have hstream : c'.streams[s.stream]? = c.streams[s.stream]? := by
          rcases hthin.streams with ⟨hstreams, _⟩ | ⟨hstreams, _⟩
          · rw [hstreams]
          · rw [hstreams, detach, List.getElem?_map]
            rcases hlive.stream with ⟨hstream, _⟩ | ⟨hstream, _⟩
            · simp [hstream, hk]
            · simp [hstream, hk]
        rw [hstream]
        refine hlive.stream.imp (And.imp_right fun hattached => ?_) (And.imp_right fun hno hmem => ?_)
        · exact hattached.of_dir ((hthin.mem_names hk).mpr hattached.mem) (hthin.dir_of_ne hk)
        · exact hno ((hthin.mem_names hk).mp hmem)

end Espos.Sdlog

-- What `append`, `sync` and `close` do to the session they are called with.

namespace Espos.Sdlog

open Espos.Text Espos.Crash Espos.Crash.Prog Espos.Lines Card

variable {c c' : Card} {s : Session} {text more : CStr}

-- What a power cut finds.
def Good (c : Card) : Prop :=
  c.Sound ∧ c.Shape

-- The stream of a session, and the rows it has written so far.
structure Writing (s : Session) (text : CStr) (c : Card) : Prop where
  good : Good c
  stream : c.streams[s.stream]? = some ⟨s.seq, true⟩ ∧ s.seq ∈ c.names ∧
      (c.dir s.seq).head = true ∧ (c.dir s.seq).close = none ∧
      (∃ f, (c.dir s.seq).rows = some f ∧ f.data = text) ∨
    c.streams[s.stream]? = some ⟨s.seq, false⟩ ∧ s.seq ∉ c.names

-- Rows of an open session are replaced by other ones.
theorem good_putRows (h : Good c) (hseq : s.seq ∈ c.names) (hopen : (c.dir s.seq).close = none)
    {f : File} (hpre : f.data <+: (c.dir s.seq).passed.flatten)
    (hdurable : (c.dir s.seq).first (c.dir s.seq).durable <+: f.synced) :
    Good (c.setFile (.file s.seq .rows) (some f)) := by
  refine ⟨h.1.setFile hseq ((h.1.dirs _).putRows hopen hpre hdurable), h.2.setFile ⟨?_, ?_⟩⟩
  · intro hclose
    exact absurd hopen hclose
  · intro _ _ hnone
    cases hnone

theorem wp_fwrite (h : Writing s text c) (hpre : text ++ more <+: (c.dir s.seq).passed.flatten) :
    wp act Sure Good (Io.fwrite s.stream more)
      (fun ok c' => ok = true ∧ Writing s (text ++ more) c' ∧ c.Only s.seq c' ∧
        (c'.dir s.seq).passed = (c.dir s.seq).passed) c := by
  refine ⟨h.good, ?_⟩
  intro e he
  rcases h.stream with ⟨hstream, hmem, hhead, hopen, f, hf, hdata⟩ | ⟨hstream, hno⟩
  · have hact : act (.fwrite s.stream more) e c =
        (true, c.setFile (.file s.seq .rows) (some (f.append more))) := by
      have hfile : c.files (.file s.seq .rows) = some f := hf
      simp only [act, he.1, hstream, hfile, Bool.false_eq_true, if_false, Option.map_some]
    have hdir := dir_setFile c s.seq .rows (some (f.append more))
    have happended : (f.append more).data = text ++ more := by rw [← hdata]; rfl
    rw [hact]
    refine ⟨rfl, ⟨?_, .inl ⟨hstream, hmem, ?_, ?_, ?_⟩⟩, only_setFile _ _ _ _, ?_⟩
    · apply good_putRows h.good hmem hopen
      · rw [happended]
        exact hpre
      · exact ((h.good.1.dirs _).rows f hf).2
    · rw [hdir]
      exact hhead
    · rw [hdir]
      exact hopen
    · rw [hdir]
      exact ⟨_, rfl, happended⟩
    · rw [hdir]
      rfl
  · have hact : act (.fwrite s.stream more) e c = (true, c) := by
      simp only [act, he.1, hstream, Bool.false_eq_true, if_false]
    rw [hact]
    exact ⟨rfl, ⟨h.good, .inr ⟨hstream, hno⟩⟩, .refl _ _, rfl⟩

-- All that was written is there for good, and the history says so.
theorem wp_fsyncRows (h : Writing s text c)
    (hwhole : s.seq ∈ c.names → text = (c.dir s.seq).passed.flatten) :
    wp act Sure Good (Io.fsyncRows s.stream)
      (fun ok c' => ok = true ∧ Writing s text c' ∧ c.Only s.seq c' ∧
        (c'.dir s.seq).passed = (c.dir s.seq).passed ∧
        ∀ f, c'.files (.file s.seq .rows) = some f → f.synced = f.data) c := by
  refine ⟨h.good, ?_⟩
  intro e he
  rcases h.stream with ⟨hstream, hmem, hhead, hopen, f, hf, hdata⟩ | ⟨hstream, hno⟩
  · obtain ⟨hsound, hshape⟩ := h.good
    have hfile : c.files (.file s.seq .rows) = some f := hf
    have hact : act (.fsyncRows s.stream) e c =
        (true, { c.setFile (.file s.seq .rows) (some f.sync) with
          durable := Function.update c.durable s.seq (c.passed s.seq).length }) := by
      simp only [act, he.1, hstream, hfile, Bool.false_eq_true, if_false, Option.map_some]
    rw [hact]
    generalize hc' : { c.setFile (.file s.seq .rows) (some f.sync) with
      durable := Function.update c.durable s.seq (c.passed s.seq).length } = c'
    have hself : c'.dir s.seq = { c.dir s.seq with
        rows := some f.sync
        durable := (c.dir s.seq).passed.length } := by
      rw [← hc']
      simp [dir, setFile]
    have hother : ∀ k, k ≠ s.seq → c'.dir k = c.dir k := by
      intro k hk
      rw [← hc']
      simp [dir, setFile, hk]
    have hfiles : c'.files = (c.setFile (.file s.seq .rows) (some f.sync)).files := by rw [← hc']
    have hnames : c'.names = c.names := by rw [← hc']; rfl
    have hstreams : c'.streams = c.streams := by rw [← hc']; rfl
    have hcloseless : (c.dir s.seq).close = none := hopen
    have hdir := hsound.dirs s.seq
    have hgood : Good c' := by
      refine ⟨⟨?_, ?_⟩, ?_⟩
      · intro k
        by_cases hk : k = s.seq
        · rw [hk, hself]
          refine ⟨hdir.lines, Nat.le_refl _, ?_, ?_⟩
          · intro g hg
            obtain rfl := Option.some.inj hg
            refine ⟨(hdir.rows f hf).1, ?_⟩
            show ((c.dir s.seq).passed.take (c.dir s.seq).passed.length).flatten <+: f.data
            rw [List.take_length, ← hwhole hmem, hdata]
          · intro g hg
            cases hopen.symm.trans hg
        · rw [hother k hk]
          exact hsound.dirs k
      · intro p hp
        have hne : p ≠ .file s.seq .rows := by
          rintro rfl
          exact hp (show s.seq ∈ c'.names from hnames ▸ hmem)
        rw [hfiles, setFile_of_ne hne]
        refine hsound.within p fun hholds => hp ?_
        cases p with
        | file k name => exact (hnames ▸ hholds : k ∈ c'.names)
        | _ => trivial
      · intro k
        by_cases hk : k = s.seq
        · rw [hk, hself]
          refine ⟨fun hclose => absurd hopen hclose, ?_⟩
          intro _ _ hnone
          cases hnone
        · rw [hother k hk]
          exact hshape k
    refine ⟨rfl, ⟨hgood, .inl ⟨?_, ?_, ?_, ?_, ?_⟩⟩, ⟨hnames, hstreams, ?_, hother⟩, ?_, ?_⟩
    · rw [hstreams]
      exact hstream
    · rw [hnames]
      exact hmem
    · rw [hself]
      exact hhead
    · rw [hself]
      exact hopen
    · rw [hself]
      exact ⟨_, rfl, hdata⟩
    · rw [hfiles]
      exact setFile_of_ne (by simp) _
    · rw [hself]
    · intro g hg
      rw [hfiles, setFile_self] at hg
      obtain rfl := Option.some.inj hg
      rfl
  · have hact : act (.fsyncRows s.stream) e c = (true, c) := by
      simp only [act, he.1, hstream, Bool.false_eq_true, if_false]
    rw [hact]
    refine ⟨rfl, h, .refl _ _, rfl, ?_⟩
    intro f hf
    cases (h.good.1.within (.file s.seq .rows) hno).symm.trans hf

theorem Live.writing (h : Live c s) (hgood : Good c) :
    Writing s (c.dir s.seq).passed.flatten c := by
  refine ⟨hgood, h.stream.imp (And.imp_right fun hattached => ?_) id⟩
  exact ⟨hattached.mem, hattached.head, hattached.unclosed, hattached.data⟩

-- A session counts what it has written.
def Counts (s : Session) (lines : List CStr) : Prop :=
  s.rows = .ofNat lines.length ∧ s.bytes = .ofNat lines.flatten.length ∧
    s.sha = Sha256.init.update (bytesOf lines.flatten)

theorem Live.counts (h : Live c s) (hmem : s.seq ∈ c.names) :
    Counts s (c.dir s.seq).passed := by
  rcases h.stream with ⟨_, hattached⟩ | ⟨_, hno⟩
  · exact ⟨hattached.rows, hattached.bytes, hattached.sha⟩
  · exact absurd hmem hno

theorem Writing.live (h : Writing s (c.dir s.seq).passed.flatten c) (hfailed : s.failed = false)
    (hle : s.seq ≤ c.sureNumber .lastSeq)
    (hcounts : s.seq ∈ c.names → Counts s (c.dir s.seq).passed) : Live c s := by
  refine ⟨hfailed, hle, h.stream.imp (And.imp_right ?_) id⟩
  rintro ⟨hmem, hhead, hopen, hdata⟩
  obtain ⟨hrows, hbytes, hsha⟩ := hcounts hmem
  exact ⟨hmem, hhead, hopen, hdata, hrows, hbytes, hsha⟩

-- What a call with a session leaves.
def Serves (s : Session) (c : Card) (r : EspErr × Session) (c' : Card) : Prop :=
  Good c' ∧ c.Only s.seq c' ∧ Live c' r.2 ∧ r.2.seq = s.seq

theorem wp_sdlogSync (hgood : Good c) (hlive : Live c s) :
    wp act Sure Good (sdlogSync s) (Serves s c) c := by
  rw [sdlogSync, if_neg (by rw [hlive.failed]; exact Bool.false_ne_true)]
  have hsync := wp_fsyncRows (hlive.writing hgood) fun _ => rfl
  refine (wp_bind _ _).mpr (wp_mono ?_ hsync)
  rintro _ c' ⟨rfl, hwriting, honly, hpassed, -⟩
  rw [← hpassed] at hwriting
  have hcounts : s.seq ∈ c'.names → Counts s (c'.dir s.seq).passed := by
    intro hmem
    rw [hpassed]
    exact hlive.counts (honly.names ▸ hmem)
  have hle : s.seq ≤ c'.sureNumber .lastSeq := by
    rw [sureNumber_of_files honly.lastSeq]
    exact hlive.le
  have hwriting' : Writing { s with unsynced := 0 } (c'.dir s.seq).passed.flatten c' :=
    ⟨hwriting.good, hwriting.stream⟩
  exact ⟨hwriting.good, honly, hwriting'.live hlive.failed hle hcounts, rfl⟩

-- The card once a line is passed.
theorem pass_dir (c : Card) (seq : Nat) (line : CStr) :
    (c.pass (some (seq, line))).dir seq =
      { c.dir seq with passed := (c.dir seq).passed ++ [line] } := by
  simp [Card.pass, dir]

theorem pass_only (c : Card) (seq : Nat) (line : CStr) :
    c.Only seq (c.pass (some (seq, line))) :=
  ⟨rfl, rfl, rfl, fun k hk => by simp [Card.pass, dir, hk]⟩

theorem Dir.Sound.pass {d : Dir} (h : d.Sound) (hopen : d.close = none) {line : CStr}
    (hline : IsRecord '\n' line) : { d with passed := d.passed ++ [line] }.Sound := by
  refine ⟨?_, ?_, ?_, ?_⟩
  · intro l hl
    rcases List.mem_append.mp hl with hl | hl
    · exact h.lines l hl
    · obtain rfl := List.mem_singleton.mp hl
      exact hline
  · rw [List.length_append]
    exact Nat.le_add_right_of_le h.durable_le
  · intro f hf
    obtain ⟨hpre, hdurable⟩ := h.rows f hf
    refine ⟨hpre.trans ?_, ?_⟩
    · rw [List.flatten_append]
      exact List.prefix_append _ _
    · show ((d.passed ++ [line]).take d.durable).flatten <+: f.synced
      rw [List.take_append_of_le_length h.durable_le]
      exact hdurable
  · intro f hf
    cases hopen.symm.trans hf

theorem good_pass (hgood : Good c) (hopen : (c.dir s.seq).close = none) {line : CStr}
    (hline : IsRecord '\n' line) : Good (c.pass (some (s.seq, line))) := by
  obtain ⟨hsound, hshape⟩ := hgood
  have honly := pass_only c s.seq line
  have hself := pass_dir c s.seq line
  refine ⟨⟨?_, hsound.within⟩, ?_⟩
  · intro k
    by_cases hk : k = s.seq
    · rw [hk, hself]
      exact (hsound.dirs _).pass hopen hline
    · rw [honly.dirs k hk]
      exact hsound.dirs k
  · intro k
    by_cases hk : k = s.seq
    · rw [hk, hself]
      exact ⟨(hshape s.seq).closed, (hshape s.seq).rowless⟩
    · rw [honly.dirs k hk]
      exact hshape k

theorem isRecord_row {row : CStr} (hrow : '\n' ∉ row) (rowCrc : Bool) :
    IsRecord '\n' (row ++ rowTail rowCrc row) := by
  cases rowCrc with
  | false => exact ⟨row, hrow, rfl⟩
  | true =>
    refine ⟨row ++ (lit "," ++ hexWord (crc32 0 (bytesOf row))), ?_, ?_⟩
    · intro hmem
      rcases List.mem_append.mp hmem with hmem | hmem
      · exact hrow hmem
      · rcases List.mem_append.mp hmem with hmem | hmem
        · exact absurd hmem (by decide)
        · exact absurd (isHex_of_mem_hexWord hmem) (by decide)
    · rw [rowTail, if_pos rfl, List.append_assoc, List.append_assoc, List.append_assoc]
      rfl

theorem Counts.row {lines : List CStr} (h : Counts s lines) (row tail : CStr) :
    Counts (countRow s row tail) (lines ++ [row ++ tail]) := by
  obtain ⟨hrows, hbytes, hsha⟩ := h
  refine ⟨?_, ?_, ?_⟩
  · show s.rows + 1 = UInt64.ofNat (lines ++ [row ++ tail]).length
    rw [hrows, List.length_append, UInt64.ofNat_add]
    rfl
  · show s.bytes + UInt64.ofNat (row.length + tail.length) = _
    rw [hbytes, ← UInt64.ofNat_add, List.flatten_append, List.flatten_singleton,
      List.length_append, List.length_append]
  · show (s.sha.update (bytesOf row)).update (bytesOf tail) = _
    rw [hsha, Sha256.update_update, Sha256.update_update, List.flatten_append,
      List.flatten_singleton]
    simp only [bytesOf, List.map_append]

theorem Live.unclosed (h : Live c s) (hgood : Good c) : (c.dir s.seq).close = none := by
  rcases h.stream with ⟨_, hattached⟩ | ⟨_, hno⟩
  · exact hattached.unclosed
  · exact hgood.1.within (.file s.seq .close) hno

-- The line is written in two parts, and counted with them.
theorem wp_sdlogAppend {row : CStr} (hgood : Good c) (hlive : Live c s) (haccepts : Accepts s row) :
    wp act Sure Good (sdlogAppend s row) (Serves s c)
      (c.pass (some (s.seq, row ++ rowTail s.rowCrc row))) := by
  obtain ⟨hcr, hlf, hfailed⟩ := haccepts
  have hpassGood := good_pass hgood (hlive.unclosed hgood) (isRecord_row hlf s.rowCrc)
  have hpassDir := pass_dir c s.seq (row ++ rowTail s.rowCrc row)
  have hpassOnly := pass_only c s.seq (row ++ rowTail s.rowCrc row)
  have hstart : Writing s (c.dir s.seq).passed.flatten
      (c.pass (some (s.seq, row ++ rowTail s.rowCrc row))) := by
    refine ⟨hpassGood, ?_⟩
    rw [hpassDir, hpassOnly.streams, hpassOnly.names]
    exact (hlive.writing hgood).stream
  have hpassed := congrArg Dir.passed hpassDir
  generalize c.pass (some (s.seq, row ++ rowTail s.rowCrc row)) = c0 at hpassOnly hstart hpassed
  have hflat : (c0.dir s.seq).passed.flatten =
      (c.dir s.seq).passed.flatten ++ row ++ rowTail s.rowCrc row := by
    rw [hpassed, List.flatten_append, List.flatten_singleton, List.append_assoc]
  rw [sdlogAppend, if_neg (by simp [hcr, hlf]), if_neg (by simp [hfailed])]
  have hrow : (c.dir s.seq).passed.flatten ++ row <+: (c0.dir s.seq).passed.flatten := by
    rw [hflat]
    exact List.prefix_append _ _
  refine (wp_bind _ _).mpr (wp_mono ?_ (wp_fwrite hstart hrow))
  rintro _ c1 ⟨rfl, hwriting1, honly1, hpassed1⟩
  have htail : (c.dir s.seq).passed.flatten ++ row ++ rowTail s.rowCrc row <+:
      (c1.dir s.seq).passed.flatten := by
    rw [hpassed1, hflat]
  refine (wp_bind _ _).mpr (wp_mono ?_ (wp_fwrite hwriting1 htail))
  rintro _ c2 ⟨rfl, hwriting2, honly2, hpassed2⟩
  have honly : c.Only s.seq c2 := hpassOnly.trans (honly1.trans honly2)
  have hlines : (c2.dir s.seq).passed =
      (c.dir s.seq).passed ++ [row ++ rowTail s.rowCrc row] :=
    hpassed2.trans (hpassed1.trans hpassed)
  have hlive2 : Live c2 (countRow s row (rowTail s.rowCrc row)) := by
    have hwriting : Writing (countRow s row (rowTail s.rowCrc row))
        (c2.dir s.seq).passed.flatten c2 := by
      refine ⟨hwriting2.good, ?_⟩
      rw [hpassed2, hpassed1, hflat]
      exact hwriting2.stream
    refine hwriting.live hfailed ?_ ?_
    · rw [sureNumber_of_files honly.lastSeq]
      exact hlive.le
    · intro hmem
      have hcounts := hlive.counts (honly.names ▸ hmem)
      exact hlines ▸ hcounts.row row (rowTail s.rowCrc row)
  show wp act Sure Good (if _ then sdlogSync _ else pure _) _ c2
  by_cases hdue : (countRow s row (rowTail s.rowCrc row)).syncEvery ≤
      (countRow s row (rowTail s.rowCrc row)).unsynced
  · rw [if_pos hdue]
    refine wp_mono ?_ (wp_sdlogSync hwriting2.good hlive2)
    rintro r c3 ⟨hgood3, honly3, hlive3, hseq3⟩
    exact ⟨hgood3, honly.trans honly3, hlive3, hseq3⟩
  · rw [if_neg hdue]
    exact ⟨hwriting2.good, honly, hlive2, rfl⟩

theorem Card.Shape.complete {c : Card} (h : c.Shape) (completed : Option Nat) :
    (c.complete completed).Shape := by
  intro k
  cases completed with
  | none => exact h k
  | some seq => exact ⟨(h k).closed, (h k).rowless⟩

-- What `close` leaves behind it.
structure Shut (s : Session) (c : Card) (err : EspErr) (c' : Card) : Prop where
  good : Good (c'.complete (if err = .ok then some s.seq else none))
  only : c.Only s.seq c'
  settled : ∀ f, c'.files (.file s.seq .rows) = some f → f.synced = f.data

theorem wp_sdlogClose {jsonMeta : Option CStr} (hgood : Good c) (hlive : Live c s) :
    wp act Sure Good (sdlogClose s jsonMeta) (Shut s c) c := by
  have hsync := wp_fsyncRows (hlive.writing hgood) fun _ => rfl
  rw [sdlogClose, hlive.failed]
  refine (wp_bind _ _).mpr (wp_mono ?_ hsync)
  rintro _ c1 ⟨rfl, hwriting, honly, hpassed, hsettled⟩
  refine (wp_bind (Io.fcloseRows _) _).mpr ((wp_perform _).mpr ⟨hwriting.good, ?_⟩)
  intro e he
  have hact : act (.fcloseRows s.stream) e c1 = (true, c1) := by simp only [act, he.1, Bool.not_false]
  rw [hact]
  show wp act Sure Good (writeClose s.seq true s.rows s.bytes s.sha.hex jsonMeta) _ c1
  have hfail : Good c1 ∧ Shut s c .fail c1 := ⟨hwriting.good, hwriting.good, honly, hsettled⟩
  rcases hwriting.stream with ⟨hstream, hmem, hhead, hopen, f, hf, hdata⟩ | ⟨_, hno⟩
  · obtain ⟨hrows, hbytes, hsha⟩ := hlive.counts (honly.names ▸ hmem)
    have hfirst : (c1.dir s.seq).first (c1.dir s.seq).passed.length =
        (c.dir s.seq).passed.flatten := by
      rw [Dir.first, List.take_length, hpassed]
    have hsynced := hsettled f hf
    have hn : Closable s.seq (c1.dir s.seq).passed.length c1 := by
      refine ⟨hmem, hwriting.good.1, hwriting.good.2, hhead, ⟨f, hf, ?_, ?_⟩, ?_, Nat.le_refl _⟩
      · rw [hsynced, hdata, hfirst]
      · rw [hdata, hfirst]
      · exact (hwriting.good.1.dirs _).durable_le
    have hhash : s.sha.hex = hashOf ((c1.dir s.seq).first (c1.dir s.seq).passed.length) := by
      rw [hsha, hfirst, hashOf]
    have hlen : s.bytes =
        .ofNat ((c1.dir s.seq).first (c1.dir s.seq).passed.length).length := by
      rw [hbytes, hfirst]
    rw [hhash, hlen, hrows, ← hpassed]
    have hclosing : ∀ c', Closing s.seq c1 c' → Good c' ∧ Shut s c .fail c' := by
      intro c' hc'
      have hgood' := hn.closing hc'
      refine ⟨hgood', hgood', honly.trans hc'.only, ?_⟩
      intro g hg
      rw [hc'.rows] at hg
      exact hsettled g hg
    have hdone : ∀ c', Closed true s.seq (c1.dir s.seq).passed.length c1 c' → Shut s c .ok c' := by
      intro c' hc'
      refine ⟨⟨hc'.sound_complete hn, (hc'.shape hn).complete _⟩, honly.trans hc'.only, ?_⟩
      intro g hg
      rw [hc'.rows] at hg
      exact hsettled g hg
    have hwp := @wp_writeClose Sure Good (Shut s c) c1 s.seq (c1.dir s.seq).passed.length true
      jsonMeta hn hfail hclosing hdone
    exact hwp
  · have hshort := @length_closeHead true s.rows s.bytes s.sha.hex (Sha256.length_hex _)
    rw [writeClose, if_neg (Nat.not_le.mpr hshort)]
    exact wp_writeFileAtomic (by simp) rfl rfl hfail fun hholds => absurd hholds hno

end Espos.Sdlog
