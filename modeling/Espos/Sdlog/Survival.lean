import Espos.Sdlog.Handed
import Espos.Sdlog.Calls

namespace Espos.Sdlog

open Espos.Text Espos.Crash Espos.Crash.Prog Espos.Run Card

variable {m : Logger} {es : List Env} {survives : Path → Nat}

def Call.isOpen : Call → Bool
  | .open _ _ => true
  | _ => false

-- No failure takes away what bears witness of the highest number handed out, the
-- power goes only where there is such a thing, and an `open` that cannot read all
-- of it reads some.
def KeepsNumber (m : Logger) : Input → Prop
  | .call c es _ =>
    AlongOps act (Spares (highest m.opened)) (c.prog m.sessions) es (m.before c) ∧
      ((m.run c es).1 = none → highest m.opened ≤ (m.run c es).2.2.witness) ∧
      (c.isOpen = true → ReadsWell (highest m.opened) (m.before c) es)
  | .powerCut _ => True

def Numbered (m : Logger) : Prop :=
  m.opened.Pairwise (· < ·) ∧ highest m.opened ≤ m.card.witness

theorem before_witness (m : Logger) (c : Call) : (m.before c).witness = m.card.witness := by
  rw [Logger.before]
  cases c.passes m.sessions <;> rfl

theorem complete_witness (c : Card) (completed : Option Nat) :
    (c.complete completed).witness = c.witness := by
  cases completed <;> rfl

-- Only `open` opens a session, and only `open` writes to the files of the root.
theorem prog_away {c : Call} (h : c.isOpen = false) (sessions : List (Option Session)) :
    (c.prog sessions).Uses Away := by
  cases c with
  | «open» header cfg => cases h
  | append i row =>
    rw [Call.prog]
    cases handle sessions i with
    | none => exact trivial
    | some s => exact uses_bind (sdlogAppend_away s row) fun _ => trivial
  | sync i =>
    rw [Call.prog]
    cases handle sessions i with
    | none => exact trivial
    | some s => exact uses_bind (sdlogSync_away s) fun _ => trivial
  | close i jsonMeta =>
    rw [Call.prog]
    cases handle sessions i with
    | none => exact trivial
    | some s => exact uses_bind (sdlogClose_away s jsonMeta) fun _ => trivial
  | markSynced seq note => exact uses_bind (sdlogMarkSynced_away seq note) fun _ => trivial
  | remove seq => exact uses_bind (sdlogRemove_away seq) fun _ => trivial
  | prune keepBytes => exact uses_bind (sdlogPrune_away keepBytes) fun _ => trivial
  | recover => exact uses_bind sdlogRecover_away fun _ => trivial

theorem prog_opens_none {c : Call} (h : c.isOpen = false) (sessions : List (Option Session)) :
    (c.prog sessions).Ends fun r => r.opened = none := by
  cases c with
  | «open» header cfg => cases h
  | append i row =>
    rw [Call.prog]
    cases handle sessions i with
    | none => exact rfl
    | some s => exact ends_bind fun _ => rfl
  | sync i =>
    rw [Call.prog]
    cases handle sessions i with
    | none => exact rfl
    | some s => exact ends_bind fun _ => rfl
  | close i jsonMeta =>
    rw [Call.prog]
    cases handle sessions i with
    | none => exact rfl
    | some s => exact ends_bind fun _ => rfl
  | markSynced seq note => exact ends_bind fun _ => rfl
  | remove seq => exact ends_bind fun _ => rfl
  | prune keepBytes => exact ends_bind fun _ => rfl
  | recover => exact ends_bind fun _ => rfl

-- What a call that comes to its end leaves.
theorem run_opened {c : Call} {r : Return} {es' : List Env} {card : Card}
    (hcond : KeepsNumber m (.call c es survives)) (hwitness : highest m.opened ≤ m.card.witness)
    (hrun : m.run c es = (some r, es', card)) :
    highest m.opened ≤ card.witness ∧
      ∀ seq, r.opened = some seq → highest m.opened < seq ∧ seq ≤ card.witness := by
  obtain ⟨hspares, _, hreads⟩ := hcond
  have hbefore : highest m.opened ≤ (m.before c).witness := hwitness.trans (before_witness m c).ge
  cases hopen : c.isOpen with
  | true =>
    cases c with
    | «open» header cfg =>
      rw [Logger.run, Call.prog, exec_bind] at hrun
      rcases hexec : exec act (sdlogOpen header cfg) es (m.before (.open header cfg)) with
        ⟨_ | ⟨err, s⟩, es2, c2⟩
      · rw [hexec] at hrun
        cases hrun
      · rw [hexec] at hrun
        cases hrun
        have hhanded := exec_sdlogOpen hbefore (hreads rfl) (alongOps_bind hspares).1 hexec
        refine ⟨hhanded.1, ?_⟩
        intro seq hseq
        obtain ⟨s', hs', rfl⟩ := Option.map_eq_some_iff.mp hseq
        exact hhanded.2 s' hs'
    | _ => cases hopen
  | false =>
    have hkeeps : wp act (Spares (highest m.opened)) (fun c => highest m.opened ≤ c.witness)
        (c.prog m.sessions) (fun _ c => highest m.opened ≤ c.witness) (m.before c) := by
      refine wp_of_uses ?_ (prog_away hopen m.sessions) hbefore
      intro o e c haway hspare hc
      exact act_keeps_witness haway hspare hc
    have hpost := (exec_of_wp (wp_and_ends (prog_opens_none hopen m.sessions) hkeeps) hspares).1 r
    rw [show exec act _ es _ = _ from hrun] at hpost
    refine ⟨(hpost rfl).1, ?_⟩
    intro seq hseq
    rw [(hpost rfl).2] at hseq
    cases hseq

theorem highest_concat (numbers : List Nat) (seq : Nat) :
    highest (numbers ++ [seq]) = max (highest numbers) seq := by
  induction numbers with
  | nil => exact Nat.max_comm _ _
  | cons k numbers ih =>
    show max k (highest (numbers ++ [seq])) = max (max k (highest numbers)) seq
    rw [ih, Nat.max_assoc]

theorem numbered_step (m : Logger) (input : Input) (h : Numbered m) (hcond : KeepsNumber m input) :
    Numbered (m.step input) := by
  cases input with
  | powerCut survives => exact ⟨h.1, h.2.trans (witness_powerCut _ _)⟩
  | call c es survives =>
    rcases hrun : m.run c es with ⟨_ | r, es', card⟩
    · have hcut : highest m.opened ≤ card.witness := by
        have := hcond.2.1
        rw [hrun] at this
        exact this rfl
      simp only [Logger.step, hrun]
      exact ⟨h.1, hcut.trans (witness_powerCut _ _)⟩
    · obtain ⟨hwitness, hopened⟩ := run_opened hcond h.2 hrun
      simp only [Logger.step, hrun]
      cases hr : r.opened with
      | none =>
        refine ⟨?_, ?_⟩
        · simpa using h.1
        · simpa [complete_witness] using hwitness
      | some seq =>
        obtain ⟨habove, hbelow⟩ := hopened seq hr
        refine ⟨?_, ?_⟩
        · refine List.pairwise_append.mpr ⟨h.1, List.pairwise_singleton _ _, ?_⟩
          intro k hk j hj
          obtain rfl := List.mem_singleton.mp hj
          exact Nat.lt_of_le_of_lt (le_highest hk) habove
        · rw [complete_witness]
          show highest (m.opened ++ [seq]) ≤ card.witness
          rw [highest_concat]
          exact max_le hwitness hbelow

-- A number is handed out once in every run that keeps a witness of the highest one.
theorem numbers_increase {inputs : List Input}
    (h : Along Logger.step KeepsNumber .init inputs) :
    Always Logger.step (fun m => m.opened.Pairwise (· < ·)) .init inputs := by
  have hnumbered : Always Logger.step Numbered .init inputs :=
    always_of_along numbered_step ⟨List.Pairwise.nil, Nat.zero_le _⟩ h
  exact hnumbered.imp fun m hm => hm.1

def fine : Env :=
  ⟨false, none, []⟩

def broken : Env :=
  ⟨true, none, []⟩

def cut : Input :=
  .powerCut fun _ => 0

def opens : Input :=
  .call (.open (lit "\x7b\x7d") none) (List.replicate 18 fine) fun _ => 0

def removes : Input :=
  .call (.remove 1) (List.replicate 6 fine) fun _ => 0

-- `LASTSEQ.TXT` cannot be read.
def opensBlind : Input :=
  .call (.open (lit "\x7b\x7d") none) ([fine, fine, broken] ++ List.replicate 15 fine) fun _ => 0

-- The first session is removed, and the number of the second is another one; the
-- third goes by the directory of the second.
def removed : List Input :=
  [opens, cut, removes, opens, opensBlind]

theorem numbers_increase_removed :
    Always Logger.step (fun m => m.opened.Pairwise (· < ·)) .init removed ∧
      (run Logger.step .init removed).opened = [1, 2, 3] := by
  refine ⟨numbers_increase ?_, by decide +kernel⟩
  have hfirst : KeepsNumber .init opens :=
    ⟨by decide +kernel, fun _ => Nat.zero_le _, fun _ _ _ _ => Nat.zero_le _⟩
  have hremoves : KeepsNumber (run Logger.step .init [opens, cut]) removes := by
    refine ⟨?_, ?_, nofun⟩ <;> decide +kernel
  have hopens : KeepsNumber (run Logger.step .init [opens, cut, removes]) opens := by
    refine ⟨?_, ?_, fun _ _ _ _ => ?_⟩ <;> decide +kernel
  have hblind : KeepsNumber (run Logger.step .init [opens, cut, removes, opens]) opensBlind := by
    refine ⟨?_, ?_, fun _ _ _ _ => ?_⟩ <;> decide +kernel
  exact ⟨hfirst, trivial, hremoves, hopens, hblind, trivial⟩

-- One renaming fails. `LASTSEQ.TMP` goes where `LASTSEQ.TXT` is gone already, and of
-- the session that was removed nothing is left.
def renameFails : List Input :=
  [opens, cut, removes,
    .call (.open (lit "\x7b\x7d") none) (List.replicate 9 fine ++ [broken, fine]) fun _ => 0,
    opens]

theorem number_handed_out_twice :
    (run Logger.step .init renameFails).opened = [1, 1] ∧
      ¬Always Logger.step (fun m => m.opened.Pairwise (· < ·)) .init renameFails := by
  have hopened : (run Logger.step .init renameFails).opened = [1, 1] := by decide +kernel
  refine ⟨hopened, ?_⟩
  intro halways
  have hlast := halways.last
  rw [hopened] at hlast
  exact absurd hlast (by decide)

end Espos.Sdlog

-- What a power cut leaves of the sessions, and what `recover` makes of it.

namespace Espos.Sdlog

open Espos.Text Espos.Crash Espos.Crash.Prog Espos.Lines Espos.Run Card

variable {c c' : Card} {seq : Nat} {sessions : List (Option Session)} {m : Logger}

-- The session can be uploaded: its close record describes its rows, and these are the
-- first `n` lines that were passed.
structure Healthy (c : Card) (seq : Nat) : Prop where
  head : c.files (.file seq .head) ≠ none
  close : c.files (.file seq .close) ≠ none
  rows : ∃ f n, c.files (.file seq .rows) = some f ∧ f.data = ((c.passed seq).take n).flatten ∧
    c.durable seq ≤ n ∧ n ≤ (c.passed seq).length ∧
    ∃ info, (complete act fine (sdlogInfo seq) c).1 = (.ok, info) ∧
      info.rows = .ofNat n ∧ n = f.data.count '\n' ∧ info.bytes = .ofNat f.data.length ∧
      info.sha256 = hashOf f.data ∧ (info.clean = true → c.completed seq = true)

theorem parseClose_describes {clean : Bool} {n : Nat} {text record : CStr}
    (h : describes clean n text <+: record) :
    parseClose record = some (clean, .ofNat n, .ofNat text.length, hashOf text) := by
  obtain ⟨rest, rfl⟩ := h
  exact parseClose_closeHead (Sha256.length_hex _) (fun c hc => isHex_of_mem_hex hc) rest

-- The calls that take directories away.
def Call.takesAway : Call → Bool
  | .remove _ | .prune _ => true
  | _ => false

-- No file operation fails, and the power does not go where `remove` or `prune` has left
-- a remnant that looks like something else; `recover` is called with no session open,
-- may fail, and gets to see the headers that are there and the whole of the root.
def Recoverable (m : Logger) : Input → Prop
  | .call .recover es _ =>
    AlongOps act Sees (Call.recover.prog m.sessions) es m.card ∧ ∀ s ∈ m.sessions, s = none
  | .call c es _ =>
    AlongOps act Sure (c.prog m.sessions) es (m.before c) ∧
      (c.takesAway = true → (m.run c es).1 = none → (m.run c es).2.2.Shape)
  | .powerCut _ => True

theorem healthy_of_close (h : Good c) (hclose : (c.dir seq).close ≠ none) : Healthy c seq := by
  obtain ⟨hsound, hshape⟩ := h
  obtain ⟨hhead, hrows⟩ := (hshape seq).closed hclose
  obtain ⟨g, hg⟩ := Option.ne_none_iff_exists'.mp hclose
  obtain ⟨f, hf⟩ := Option.ne_none_iff_exists'.mp hrows
  obtain ⟨n, clean, hwith⟩ := (hsound.dirs seq).close g hg
  obtain ⟨hfsynced, hfdata⟩ := hwith.rows f hf
  have hmem : seq ∈ c.names := by
    by_contra hno
    exact hclose (hsound.within (.file seq .close) hno)
  have hfile : c.files (.file seq .close) = some g := hg
  have hparse := parseClose_describes hwith.record
  refine ⟨?_, hclose, f, n, hf, hfdata, hwith.durable_le, hwith.le_passed, ?_⟩
  · exact Option.isSome_iff_ne_none.mp hhead
  · refine ⟨⟨seq, true, clean, (c.files (.file seq .synced)).isSome, .ofNat n,
      .ofNat ((c.dir seq).first n).length, hashOf ((c.dir seq).first n)⟩, ?_, rfl, ?_, ?_, ?_,
      hwith.completed⟩
    · have hisDir : act (.isDir seq) fine c = (true, c) :=
        Prod.ext (by simp [act, fine, hmem]) rfl
      have hstat : act (.stat (.file seq .synced)) fine c =
          ((c.files (.file seq .synced)).isSome, c) := Prod.ext (by simp [act, fine]) rfl
      have hclosed : act (.stat (.file seq .close)) fine c = (true, c) :=
        Prod.ext (by simp [act, fine, hfile]) rfl
      have hread : act (.read (.file seq .close)) fine c = (.got g.data, c) := by
        simp only [act, fine, hfile, Bool.false_eq_true, if_false]
      simp only [sdlogInfo, readClose, complete_bind, complete_perform, hisDir, hstat,
        hclosed, hread, hparse, Bool.not_true, Bool.false_eq_true, if_false, if_true, complete_pure]
    · rw [hfdata, count_eq_length_records, Dir.first,
        records_flatten ((hsound.dirs seq).lines_take n), List.length_take]
      exact (Nat.min_eq_left hwith.le_passed).symm
    · rw [hfdata]
    · rw [hfdata]

-- What each call leaves where it comes to its end.
def Kept (r : Return) (c : Card) : Prop :=
  Consistent r.sessions (c.complete r.completed)

theorem Consistent.mending (h : Consistent sessions c) (hnone : ∀ i, handle sessions i = none) :
    Mending c := by
  refine ⟨h.sound, h.shape, ?_⟩
  intro k f hf
  refine (h.settled k f hf).resolve_right ?_
  rintro ⟨i, s, hi, -⟩
  cases (hnone i).symm.trans hi

theorem Mending.consistent (h : Mending c) (hnone : ∀ i, handle sessions i = none) :
    Consistent sessions c := by
  refine ⟨h.sound, h.shape, fun k f hf => .inl (h.settled k f hf), ?_, ?_⟩
  · intro i s hi
    cases (hnone i).symm.trans hi
  · intro i j s t hi
    cases (hnone i).symm.trans hi

theorem handle_none (h : ∀ s ∈ sessions, s = none) (i : Nat) : handle sessions i = none := by
  rw [handle]
  cases hi : sessions[i]? with
  | none => rfl
  | some s =>
    rw [h s (List.mem_of_getElem? hi)]
    rfl

-- A removal, whole or cut short.
theorem wp_removal (h : Consistent sessions c) (seq : Nat) :
    wp act Sure Card.Sound (sdlogRemove seq) (fun _ => Consistent sessions) c := by
  have hall := wp_and (wp_thinned (C := Sure) seq c)
    (wp_and (wp_sdlogRemove seq c) (sure_sdlogRemove seq c))
  refine wp_crash_mono (fun _ hc => hc.1.sound h.sound) (wp_mono ?_ hall)
  rintro err c' ⟨hthin, hgone, rfl | rfl⟩
  · exact h.thinned hthin (hgone rfl)
  · exact h

theorem wp_pruning (h : Consistent sessions c) (keepBytes : UInt64) :
    wp act Sure Card.Sound (sdlogPrune keepBytes) (fun _ => Consistent sessions) c := by
  have hgood : ∀ c, Good c → c.Sound := fun _ hc => hc.1
  have hreads : ∀ {α : Type} {p : Io α} {c : Card}, p.Uses Reads → Consistent sessions c →
      wp act Sure Card.Sound p (fun _ => Consistent sessions) c := by
    intro α p c hp hc
    have hwp := wp_beside (C := Sure) (hp.imp fun _ => Reads.beside) hc.good
    exact wp_crash_mono hgood (wp_mono (fun _ _ hs => hc.same hs) hwp)
  rw [sdlogPrune, wp_bind]
  refine wp_mono ?_ (hreads (uses_perform trivial) h)
  intro seqs c1 h1
  cases seqs with
  | none => exact h1
  | some seqs =>
    have hinfos := hreads (uses_foldlM pruneInfo_reads (0, []) seqs) h1
    refine (wp_bind _ _).mpr (wp_mono ?_ hinfos)
    intro acc c2 h2
    refine wp_foldlM (I := fun _ _ => Consistent sessions) ?_ h2
    intro info infos p c hc
    rw [pruneOne]
    by_cases hskip : p.total ≤ keepBytes ∨ !info.closed ∨ !info.synced
    · rw [if_pos hskip]
      exact hc
    · rw [if_neg hskip, wp_bind]
      refine wp_mono ?_ (wp_removal hc info.seq)
      intro err c' hc'
      show wp act Sure Card.Sound (if err = .ok then pure _ else pure _) _ c'
      by_cases hok : err = .ok
      · rw [if_pos hok]
        exact hc'
      · rw [if_neg hok]
        exact hc'

theorem before_of_none {c : Call} (h : c.passes m.sessions = none) : m.before c = m.card := by
  rw [Logger.before, h]
  rfl

theorem wp_append (h : Consistent m.sessions m.card) (i : Nat) (row : CStr) :
    wp act Sure Good ((Call.append i row).prog m.sessions) Kept (m.before (.append i row)) := by
  rw [Call.prog]
  cases hi : handle m.sessions i with
  | none =>
    rw [before_of_none (by rw [Call.passes, hi])]
    exact h
  | some s =>
    by_cases haccepts : Accepts s row
    · have hbefore : m.before (.append i row) =
          m.card.pass (some (s.seq, row ++ rowTail s.rowCrc row)) := by
        simp only [Logger.before, Call.passes, hi, if_pos haccepts]
      rw [hbefore]
      have happend := wp_sdlogAppend h.good (h.live i s hi) haccepts
      refine (wp_bind _ _).mpr (wp_mono ?_ happend)
      rintro r c' ⟨hgood, honly, hlive, hseq⟩
      exact h.set hi hgood.1 hgood.2 honly hlive hseq
    · rw [before_of_none (by simp only [Call.passes, hi, if_neg haccepts])]
      have hfailed := (h.live i s hi).failed
      have hrefused : sdlogAppend s row = pure (.invalidArg, s) := by
        refine if_pos ?_
        by_contra hclean
        rw [not_or] at hclean
        exact haccepts ⟨hclean.1, hclean.2, hfailed⟩
      show wp act Sure Good (sdlogAppend s row >>= _) Kept m.card
      rw [hrefused]
      exact h.set hi h.sound h.shape (.refl _ _) (h.live i s hi) rfl

theorem wp_sync (h : Consistent sessions c) (i : Nat) :
    wp act Sure Good ((Call.sync i).prog sessions) Kept c := by
  rw [Call.prog]
  cases hi : handle sessions i with
  | none => exact h
  | some s =>
    refine (wp_bind _ _).mpr (wp_mono ?_ (wp_sdlogSync h.good (h.live i s hi)))
    rintro r c' ⟨hgood, honly, hlive, hseq⟩
    exact h.set hi hgood.1 hgood.2 honly hlive hseq

theorem wp_close (h : Consistent sessions c) (i : Nat) (jsonMeta : Option CStr) :
    wp act Sure Good ((Call.close i jsonMeta).prog sessions) Kept c := by
  rw [Call.prog]
  cases hi : handle sessions i with
  | none => exact h
  | some s =>
    refine (wp_bind _ _).mpr (wp_mono ?_ (wp_sdlogClose h.good (h.live i s hi)))
    intro err c' hshut
    have honly : c.Only s.seq (c'.complete (if err = .ok then some s.seq else none)) := by
      by_cases hok : err = .ok
      · rw [if_pos hok]
        refine ⟨hshut.only.names, hshut.only.streams, hshut.only.lastSeq, ?_⟩
        intro k hk
        rw [← hshut.only.dirs k hk]
        simp [Card.complete, dir, hk]
      · rw [if_neg hok]
        exact hshut.only
    refine h.clear hi hshut.good.1 hshut.good.2 honly ?_
    intro f hf
    refine hshut.settled f ?_
    rw [← hf]
    cases (if err = .ok then some s.seq else none) <;> rfl

-- Every call but `recover`, `remove` and `prune`.
theorem wp_call {call : Call} (h : Consistent m.sessions m.card)
    (haway : call.takesAway = false) (hrecover : call ≠ .recover) :
    wp act Sure Good (call.prog m.sessions) Kept (m.before call) := by
  cases call with
  | «open» header cfg =>
    refine (wp_bind _ _).mpr (wp_mono ?_ (wp_sdlogOpen h header cfg))
    intro r c' hopened
    exact hopened
  | append i row => exact wp_append h i row
  | sync i => exact wp_sync h i
  | close i jsonMeta => exact wp_close h i jsonMeta
  | markSynced seq note =>
    have hwp := wp_beside (C := Sure) (sdlogMarkSynced_beside seq note) h.good
    refine (wp_bind _ _).mpr (wp_mono ?_ hwp)
    intro err c' hsame
    exact h.same hsame
  | remove seq => cases haway
  | prune keepBytes => cases haway
  | recover => exact absurd rfl hrecover

theorem wp_takesAway {call : Call} (h : Consistent m.sessions m.card)
    (haway : call.takesAway = true) :
    wp act Sure Card.Sound (call.prog m.sessions) Kept (m.before call) := by
  cases call with
  | remove seq => exact (wp_bind _ _).mpr (wp_mono (fun _ _ hc => hc) (wp_removal h seq))
  | prune keepBytes =>
    exact (wp_bind _ _).mpr (wp_mono (fun _ _ hc => hc) (wp_pruning h keepBytes))
  | _ => cases haway

theorem wp_recover (h : Consistent sessions c) (hnone : ∀ i, handle sessions i = none) :
    wp act Sees Good (Call.recover.prog sessions)
      (fun r c' => Kept r c' ∧ (r.err = .ok → ∀ seq ∈ c'.names, (c'.dir seq).close ≠ none)) c := by
  have hgood : ∀ c, Mending c → Good c := fun c hc => ⟨hc.sound, hc.shape⟩
  have hwp := wp_crash_mono hgood (wp_sdlogRecover (h.mending hnone))
  refine (wp_bind _ _).mpr (wp_mono ?_ hwp)
  intro r c' hwalked
  refine ⟨hwalked.mending.consistent hnone, ?_⟩
  intro hok seq hseq
  exact (hwalked.closed hok seq hseq).resolve_left List.not_mem_nil

-- The power goes: what was for good is there, and a beginning of the rest.
theorem powerCut_dir (c : Card) (survives : Path → Nat) (seq : Nat) :
    (c.powerCut survives).dir seq = { c.dir seq with
      rows := (c.dir seq).rows.map (·.cut (survives (.file seq .rows)))
      close := (c.dir seq).close.map (·.cut (survives (.file seq .close))) } := by
  simp [dir, powerCut]

theorem cut_of_synced {f : File} (h : f.synced = f.data) (n : Nat) : f.cut n = f := by
  have hall : f.data.take (max f.synced.length n) = f.data := by
    apply List.take_of_length_le
    rw [h]
    exact Nat.le_max_left _ _
  cases f with
  | mk synced data le =>
    cases h
    simp only [File.cut, hall]

theorem Dir.Sound.cut {d : Dir} (h : d.Sound) (n k : Nat) :
    { d with
      rows := d.rows.map fun f => f.cut n
      close := d.close.map fun f => f.cut k : Dir }.Sound := by
  refine ⟨h.lines, h.durable_le, ?_, ?_⟩
  · intro f hf
    obtain ⟨g, hg, rfl⟩ := Option.map_eq_some_iff.mp hf
    obtain ⟨hpre, hdurable⟩ := h.rows g hg
    refine ⟨(List.take_prefix _ _).trans hpre, hdurable.trans ?_⟩
    have hsynced : g.synced = g.data.take g.synced.length := List.prefix_iff_eq_take.mp g.le
    rw [hsynced]
    exact List.take_prefix_take_left (Nat.le_max_left _ _)
  · intro f hf
    obtain ⟨g, hg, rfl⟩ := Option.map_eq_some_iff.mp hf
    obtain ⟨m, clean, hwith⟩ := h.close g hg
    rw [cut_of_synced hwith.synced]
    refine ⟨m, clean, hwith.synced, hwith.durable_le, hwith.le_passed, hwith.completed,
      hwith.record, ?_⟩
    intro f' hf'
    obtain ⟨g', hg', rfl⟩ := Option.map_eq_some_iff.mp hf'
    have hrows := hwith.rows g' hg'
    rw [cut_of_synced (hrows.1.trans hrows.2.symm)]
    exact hrows

theorem Good.powerCut (h : Good c) (survives : Path → Nat) :
    Consistent [] (c.powerCut survives) := by
  refine ⟨⟨?_, ?_⟩, ?_, ?_, nofun, nofun⟩
  · intro k
    rw [powerCut_dir]
    exact (h.1.dirs k).cut _ _
  · intro p hp
    have hnone := h.1.within p fun hholds => hp (by cases p <;> exact hholds)
    simp [Card.powerCut, hnone]
  · intro k
    rw [powerCut_dir]
    refine ⟨?_, ?_⟩
    · intro hclose
      obtain ⟨hhead, hrows⟩ := (h.2 k).closed (by simpa using hclose)
      exact ⟨hhead, by simpa using hrows⟩
    · intro hhead hclose hrows
      exact (h.2 k).rowless hhead (by simpa using hclose) (by simpa using hrows)
  · intro k f hf
    obtain ⟨g, -, rfl⟩ := Option.map_eq_some_iff.mp hf
    exact .inl rfl

-- After a `recover` that says so, every session has its close record.
def Survives (m : Logger) : Prop :=
  Consistent m.sessions m.card ∧ (m.answered = some (.recover, .ok) →
    ∀ seq ∈ m.card.names, (m.card.dir seq).close ≠ none)

theorem survives_cut (h : Good c) (m : Logger) (survives : Path → Nat) :
    Survives (m.powerCut c survives) :=
  ⟨h.powerCut survives, nofun⟩

-- A call as a whole, from what is known of its program.
theorem survives_call {C : Op → Env → Card → Prop} {crash : Card → Prop} {call : Call}
    {es : List Env} {survives : Path → Nat} {Q : Return → Card → Prop}
    (hwp : wp act C crash (call.prog m.sessions) Q (m.before call))
    (hops : AlongOps act C (call.prog m.sessions) es (m.before call))
    (hcut : (m.run call es).1 = none → crash (m.run call es).2.2 → Good (m.run call es).2.2)
    (hdone : ∀ r c', Q r c' → Kept r c' ∧ (call = .recover → r.err = .ok →
      ∀ seq ∈ c'.names, (c'.dir seq).close ≠ none)) :
    Survives (m.step (.call call es survives)) := by
  obtain ⟨hend, hcrash⟩ := exec_of_wp hwp hops
  rcases hrun : m.run call es with ⟨_ | r, es', c'⟩
  · rw [hrun] at hcut
    rw [show exec act _ es _ = _ from hrun] at hcrash
    simp only [Logger.step, hrun]
    exact survives_cut (hcut rfl (hcrash rfl)) m survives
  · rw [show exec act _ es _ = _ from hrun] at hend
    obtain ⟨hkept, hrecovered⟩ := hdone r c' (hend r rfl)
    simp only [Logger.step, hrun]
    refine ⟨hkept, ?_⟩
    intro hanswer
    obtain ⟨hcall, herr⟩ := Prod.mk.inj (Option.some.inj hanswer)
    have hclosed := hrecovered hcall herr
    cases r.completed with
    | none => exact hclosed
    | some seq => exact hclosed

theorem survives_step (m : Logger) (input : Input) (h : Survives m) (hinput : Recoverable m input) :
    Survives (m.step input) := by
  cases input with
  | powerCut survives => exact survives_cut h.1.good m survives
  | call call es survives =>
    by_cases hrecover : call = .recover
    · subst hrecover
      obtain ⟨hops, hnone⟩ := hinput
      have hwp := wp_recover h.1 (handle_none hnone)
      refine survives_call hwp hops (fun _ hcrash => hcrash) ?_
      intro r c' hdone
      exact ⟨hdone.1, fun _ => hdone.2⟩
    · have hcond : AlongOps act Sure (call.prog m.sessions) es (m.before call) ∧
          (call.takesAway = true → (m.run call es).1 = none → (m.run call es).2.2.Shape) := by
        cases call with
        | recover => exact absurd rfl hrecover
        | _ => exact hinput
      obtain ⟨hops, hshape⟩ := hcond
      have hdone : ∀ r c', Kept r c' → Kept r c' ∧ (call = .recover → r.err = .ok →
          ∀ seq ∈ c'.names, (c'.dir seq).close ≠ none) :=
        fun r c' hkept => ⟨hkept, fun hcall => absurd hcall hrecover⟩
      cases haway : call.takesAway with
      | true =>
        exact survives_call (wp_takesAway h.1 haway) hops
          (fun hcut hsound => ⟨hsound, hshape haway hcut⟩) hdone
      | false =>
        exact survives_call (wp_call h.1 haway hrecover) hops (fun _ hcrash => hcrash) hdone

theorem survives_init : Survives .init := by
  have hdir : ∀ seq, Card.init.dir seq = ⟨false, none, none, [], 0, false⟩ := fun _ => rfl
  refine ⟨⟨⟨?_, fun _ _ => rfl⟩, ?_, nofun, nofun, nofun⟩, nofun⟩
  · intro seq
    exact (hdir seq).symm ▸ Dir.sound_started _ _ nofun
  · intro seq
    exact (hdir seq).symm ▸ Dir.shape_started _ _

-- The sessions survive every run whose removals leave nothing that misleads `recover`.
theorem sessions_survive {inputs : List Input} (h : Along Logger.step Recoverable .init inputs) :
    Always Logger.step
      (fun m => m.answered = some (.recover, .ok) → ∀ seq ∈ m.card.names, Healthy m.card seq)
      .init inputs := by
  have hsurvives : Always Logger.step Survives .init inputs :=
    always_of_along survives_step survives_init h
  refine hsurvives.imp ?_
  intro m hm hanswer seq hseq
  exact healthy_of_close hm.1.good (hm.2 hanswer seq hseq)

def appends (row : String) : Input :=
  .call (.append 0 (lit row)) (List.replicate 3 fine) fun _ => 0

def syncs : Input :=
  .call (.sync 0) [fine] fun _ => 0

def recovers : Input :=
  .call .recover (List.replicate 30 fine) fun _ => 0

-- The power goes in the middle of a row, behind one that was synced.
def halfRow : List Input :=
  [opens, appends "a", syncs, appends "b", .powerCut fun _ => 3, recovers]

theorem sessions_survive_halfRow :
    (∀ seq ∈ (run Logger.step .init halfRow).card.names,
      Healthy (run Logger.step .init halfRow).card seq) ∧
    (run Logger.step .init halfRow).card.names = [1] ∧
    ((run Logger.step .init halfRow).card.files (.file 1 .rows)).map File.data =
      some (lit "a\n") := by
  refine ⟨?_, by decide +kernel, by decide +kernel⟩
  have halways := @sessions_survive halfRow ?_
  · exact halways.last (by decide +kernel)
  refine ⟨⟨by decide +kernel, nofun⟩, ⟨by decide +kernel, nofun⟩, ⟨by decide +kernel, nofun⟩,
    ⟨by decide +kernel, nofun⟩, trivial, ⟨by decide +kernel, by decide +kernel⟩, trivial⟩

def closes : Input :=
  .call (.close 0 none) (List.replicate 10 fine) fun _ => 0

-- The rows come first in the directory, and the power goes behind them.
def removalCut : List Input :=
  [opens, closes, .call (.remove 1) [⟨false, none, [.rows, .head, .close]⟩, fine] fun _ => 0,
    recovers]

theorem recover_passes_remnant :
    (run Logger.step .init removalCut).answered = some (.recover, .ok) ∧
      1 ∈ (run Logger.step .init removalCut).card.names ∧
      (run Logger.step .init removalCut).card.files (.file 1 .rows) = none ∧
      ¬Always Logger.step
        (fun m => m.answered = some (.recover, .ok) → ∀ seq ∈ m.card.names, Healthy m.card seq)
        .init removalCut := by
  have hanswer : (run Logger.step .init removalCut).answered = some (.recover, .ok) := by
    decide +kernel
  have hmem : 1 ∈ (run Logger.step .init removalCut).card.names := by decide +kernel
  have hrows : (run Logger.step .init removalCut).card.files (.file 1 .rows) = none := by
    decide +kernel
  refine ⟨hanswer, hmem, hrows, ?_⟩
  intro halways
  obtain ⟨f, n, hf, -⟩ := (halways.last hanswer 1 hmem).rows
  cases hrows.symm.trans hf

end Espos.Sdlog
