import Espos.Sdlog.Closing
import Espos.Sdlog.Removal

-- `recover` closes what a power cut left open, and may itself be cut short.

namespace Espos.Sdlog

open Espos.Text Espos.Crash Espos.Crash.Prog Espos.Lines Card

variable {c c' : Card} {seq : Nat} {crash : Card → Prop}

-- `recover` gets to see the headers that are there, and the whole of the root.
def Sees : Op → Env → Card → Prop
  | .stat (.file _ .head), e, _ => e.fails = false
  | .scanRoot, e, _ => e.short = none
  | _, _, _ => True

instance : (o : Op) → (e : Env) → (c : Card) → Decidable (Sees o e c)
  | .stat (.file _ .head), e, _ => inferInstanceAs (Decidable (e.fails = false))
  | .scanRoot, e, _ => inferInstanceAs (Decidable (e.short = none))
  | .stat .lastSeq, _, _ | .stat .lastSeqTmp, _, _ | .stat (.file _ .headTmp), _, _
  | .stat (.file _ .rows), _, _ | .stat (.file _ .close), _, _ | .stat (.file _ .closeTmp), _, _
  | .stat (.file _ .synced), _, _ | .stat (.file _ .syncedTmp), _, _ => .isTrue trivial
  | .mkdirRoot, _, _ | .readNumber _, _, _ | .fopenWrite _, _, _ | .fputs _ _, _, _
  | .fsync _, _, _ | .fclose _, _, _ | .unlink _, _, _ | .rename _ _, _, _ | .mkdir _, _, _
  | .rmdir _, _, _ | .isDir _, _, _ | .size _, _, _ | .read _, _, _ | .readDir _, _, _
  | .truncate _ _, _, _ | .fopenRows _, _, _ | .fwrite _ _, _, _ | .fsyncRows _, _, _
  | .fcloseRows _, _, _ => .isTrue trivial

-- No rows are still on their way to the card.
structure Mending (c : Card) : Prop where
  sound : c.Sound
  shape : c.Shape
  settled : ∀ seq f, c.files (.file seq .rows) = some f → f.synced = f.data

-- A card on which the session `seq` is being mended.
structure Mends (seq : Nat) (c c' : Card) : Prop where
  mending : Mending c'
  only : c.Only seq c'
  head : (c'.dir seq).head = true

theorem Mends.mem (h : Mends seq c c') : seq ∈ c'.names := by
  by_contra hseq
  have hnone := h.mending.sound.within (.file seq .head) hseq
  have hhead := h.head
  simp [dir, hnone] at hhead

theorem Mends.dropTmp (h : Mends seq c c') :
    Mends seq c (c'.setFile (.file seq .closeTmp) none) := by
  have hdir : (c'.setFile (.file seq .closeTmp) none).dir seq = c'.dir seq := dir_setFile _ _ _ _
  refine ⟨⟨?_, ?_, ?_⟩, h.only.trans (only_setFile _ _ _ _), ?_⟩
  · exact h.mending.sound.setFile h.mem (h.mending.sound.dirs seq)
  · exact h.mending.shape.setFile (h.mending.shape seq)
  · intro k f hf
    rw [setFile_of_ne (by simp)] at hf
    exact h.mending.settled k f hf
  · rw [hdir]
    exact h.head

-- Rows of a session that has no close record.
theorem Mends.putRows (h : Mends seq c c') (hopen : (c'.dir seq).close = none) {f : File}
    (hsynced : f.synced = f.data) (hpre : f.data <+: (c'.dir seq).passed.flatten)
    (hdurable : (c'.dir seq).first (c'.dir seq).durable <+: f.synced) :
    Mends seq c (c'.setFile (.file seq .rows) (some f)) := by
  have hdir := dir_setFile c' seq .rows (some f)
  refine ⟨⟨?_, ?_, ?_⟩, h.only.trans (only_setFile _ _ _ _), ?_⟩
  · exact h.mending.sound.setFile h.mem ((h.mending.sound.dirs seq).putRows hopen hpre hdurable)
  · refine h.mending.shape.setFile ⟨?_, ?_⟩
    · intro hclose
      exact absurd hopen hclose
    · intro _ _ hnone
      cases hnone
  · intro k g hg
    by_cases hk : k = seq
    · rw [hk, setFile_self] at hg
      obtain rfl := Option.some.inj hg
      exact hsynced
    · rw [setFile_of_ne (by simpa using hk)] at hg
      exact h.mending.settled k g hg
  · rw [hdir]
    exact h.head

-- A session without rows is one that has just started.
theorem Mends.rowless (h : Mends seq c c') (hrows : c'.files (.file seq .rows) = none) :
    (c'.dir seq).close = none ∧ (c'.dir seq).first (c'.dir seq).durable = [] := by
  have hclose : (c'.dir seq).close = none := by
    by_contra hthere
    exact ((h.mending.shape seq).closed hthere).2 hrows
  refine ⟨hclose, ?_⟩
  rw [(h.mending.shape seq).rowless h.head hclose hrows]
  rfl

theorem Mends.emptyRows (h : Mends seq c c') (hrows : c'.files (.file seq .rows) = none) :
    Mends seq c (c'.setFile (.file seq .rows) (some .empty)) := by
  obtain ⟨hclose, hfirst⟩ := h.rowless hrows
  refine h.putRows hclose rfl (List.nil_prefix) ?_
  rw [hfirst]
  exact List.nil_prefix

theorem wp_recoverRows (h : Mends seq c c') :
    wp act Sees (Mends seq c) (recoverRows seq)
      (fun text c'' => Mends seq c c'' ∧ ∀ t, text = some t →
        ∃ f, c''.files (.file seq .rows) = some f ∧ f.data = t) c' := by
  rw [recoverRows, wp_bind, wp_perform]
  refine ⟨h, ?_⟩
  intro e _
  cases hfails : e.fails with
  | true =>
    simp only [act, hfails, if_true]
    exact ⟨h, (by simp)⟩
  | false =>
    cases hrows : c'.files (.file seq .rows) with
    | some f =>
      simp only [act, hfails, hrows, Bool.false_eq_true, if_false]
      refine ⟨h, ?_⟩
      intro t ht
      exact ⟨f, hrows, Option.some.inj ht⟩
    | none =>
      simp only [act, hfails, hrows, Bool.false_eq_true, if_false]
      rw [wp_bind, wp_perform]
      refine ⟨h, ?_⟩
      intro e _
      rcases act_fopenWrite e c' (.file seq .rows) with hact | ⟨_, hact⟩
      · rw [hact]
        exact ⟨h, (by simp)⟩
      rw [hact]
      have hempty := h.emptyRows hrows
      refine (wp_bind (Io.fsync _) _).mpr ⟨hempty, ?_⟩
      intro e _
      have hsame : (act (.fsync (.file seq .rows)) e
          (c'.setFile (.file seq .rows) (some .empty))).2 =
            c'.setFile (.file seq .rows) (some .empty) := by
        rcases act_fsync e (c'.setFile (.file seq .rows) (some .empty)) (.file seq .rows) with
          ⟨_, hact⟩ | hact
        · rw [hact]
        · rw [hact, setFile_self, setFile_setFile]
          rfl
      rw [hsame]
      refine (wp_bind (Io.fclose _) _).mpr ⟨hempty, ?_⟩
      intro e _
      refine ⟨hempty, ?_⟩
      intro t ht
      refine ⟨.empty, setFile_self _ _ _, ?_⟩
      obtain ⟨-, hnil⟩ := Option.ite_none_right_eq_some.mp ht
      exact Option.some.inj hnil

theorem keepOf_eq (text : CStr) : keepOf text = (records '\n' text).flatten.length := by
  have hwhole := congrArg List.length (flatten_records '\n' text)
  rw [List.length_append] at hwhole
  rw [keepOf, takeWhile_reverse, List.length_reverse]
  omega

theorem take_keepOf (text : CStr) : text.take (keepOf text) = (records '\n' text).flatten := by
  have hwhole := flatten_records '\n' text
  rw [keepOf_eq]
  nth_rewrite 2 [← hwhole]
  exact List.take_left

-- Half a row is cut off, and what is left is as many whole rows as there were.
theorem wp_cutRows (h : Mends seq c c') {f : File} (hf : c'.files (.file seq .rows) = some f) :
    wp act Sees (Mends seq c) (cutRows seq (keepOf f.data) f.data.length)
      (fun cut c'' => Mends seq c c'' ∧ (cut = true → ∃ g, c''.files (.file seq .rows) = some g ∧
        g.data = (records '\n' f.data).flatten)) c' := by
  have htake := take_keepOf f.data
  rw [cutRows]
  by_cases hlt : keepOf f.data < f.data.length
  · rw [if_pos hlt]
    refine ⟨h, ?_⟩
    intro e _
    by_cases hfails : e.fails = true ∨ c'.files (.file seq .rows) = none
    · have hact : act (.truncate (.file seq .rows) (keepOf f.data)) e c' = (false, c') :=
        if_pos hfails
      rw [hact]
      exact ⟨h, nofun⟩
    · have hact : act (.truncate (.file seq .rows) (keepOf f.data)) e c' =
          (true, c'.setFile (.file seq .rows) (some (f.truncate (keepOf f.data)))) := by
        rw [act, if_neg hfails, hf]
        rfl
      rw [hact]
      have hsound := h.mending.sound.dirs seq
      obtain ⟨n, hdurable, hpassed, hrecords⟩ := hsound.whole_rows hf
      have hdata : (f.truncate (keepOf f.data)).data = (c'.dir seq).first n := by
        rw [Dir.first, ← hrecords]
        exact htake
      have hsynced : (f.truncate (keepOf f.data)).synced = (f.truncate (keepOf f.data)).data :=
        congrArg (List.take _) (h.mending.settled seq f hf)
      refine ⟨h.putRows ?_ hsynced ?_ ?_, fun _ => ⟨_, setFile_self _ _ _, htake⟩⟩
      · by_contra hclosed
        obtain ⟨g, hg⟩ := Option.ne_none_iff_exists'.mp hclosed
        obtain ⟨m, clean, hwith⟩ := hsound.close g hg
        -- the rows under a close record are whole already
        have hwhole : keepOf f.data = f.data.length := by
          rw [keepOf_eq, (hwith.rows f hf).2, Dir.first, records_flatten (hsound.lines_take m)]
        exact absurd hlt (by rw [hwhole]; exact Nat.lt_irrefl _)
      · rw [hdata]
        exact Dir.first_prefix_passed
      · rw [hsynced, hdata]
        exact Dir.first_prefix hdurable
  · rw [if_neg hlt]
    refine ⟨h, fun _ => ⟨f, hf, ?_⟩⟩
    rw [← htake]
    exact (List.take_of_length_le (Nat.not_lt.mp hlt)).symm

-- The rows that are kept, and what is counted of them.
theorem Mends.closable (h : Mends seq c c') {text : CStr} {g : File}
    (hg : c'.files (.file seq .rows) = some g) (hdata : g.data = (records '\n' text).flatten) :
    ∃ n, Closable seq n c' ∧ g.data = (c'.dir seq).first n ∧ text.count '\n' = n ∧
      keepOf text = ((c'.dir seq).first n).length := by
  have hsound := h.mending.sound.dirs seq
  obtain ⟨n, hdurable, hpassed, hrecords⟩ := hsound.whole_rows hg
  have hsame : records '\n' text = (c'.dir seq).passed.take n := by
    rw [← hrecords, hdata, records_flatten fun r hr => isRecord_of_mem hr]
  have hfirst : g.data = (c'.dir seq).first n := by rw [hdata, hsame, Dir.first]
  have hsynced : g.synced = (c'.dir seq).first n := (h.mending.settled seq g hg).trans hfirst
  refine ⟨n, ⟨h.mem, h.mending.sound, h.mending.shape, h.head, ⟨g, hg, hsynced, hfirst⟩, hdurable,
    hpassed⟩, hfirst, ?_, ?_⟩
  · rw [count_eq_length_records, hsame, List.length_take]
    exact Nat.min_eq_left hpassed
  · rw [keepOf_eq, hsame, Dir.first]

-- The session is closed, or may be mended once more.
def Mended (seq : Nat) (c : Card) (err : EspErr) (c' : Card) : Prop :=
  Mends seq c c' ∧ (err = .ok → (c'.dir seq).close ≠ none)

theorem Mends.closing {c'' : Card} {n : Nat} (h : Mends seq c c') (hn : Closable seq n c')
    (hc : Closing seq c' c'') : Mends seq c c'' := by
  have hgood := hn.closing hc
  have hhead : (c''.dir seq).head = true := by
    rcases hc with ⟨f, rfl⟩ | ⟨f, rfl⟩
    · rw [dir_setFile]
      exact h.head
    · rw [dir_setFile, dir_setFile]
      exact h.head
  refine ⟨⟨hgood.1, hgood.2, ?_⟩, h.only.trans hc.only, hhead⟩
  intro k f hf
  rw [hc.rows] at hf
  exact h.mending.settled k f hf

theorem Mends.closed {c'' : Card} {n : Nat} (h : Mends seq c c') (hn : Closable seq n c')
    (hc : Closed false seq n c' c'') : Mended seq c .ok c'' := by
  obtain ⟨f, hdir, -⟩ := hc.dir
  refine ⟨⟨⟨hc.sound hn, hc.shape hn, ?_⟩, h.only.trans hc.only, ?_⟩, fun _ => ?_⟩
  · intro k f hf
    rw [hc.rows] at hf
    exact h.mending.settled k f hf
  · rw [hdir]
    exact h.head
  · rw [hdir]
    nofun

theorem wp_recoverOne (h : Mends seq c c') :
    wp act Sees (Mends seq c) (recoverOne seq) (Mended seq c) c' := by
  rw [recoverOne, wp_bind, wp_perform]
  refine ⟨h, ?_⟩
  intro e _
  have hdrop : Mends seq c (act (.unlink (.file seq .closeTmp)) e c').2 := by
    rcases @act_unlink_plain (.file seq .closeTmp) rfl e c' with ⟨_, hact⟩ | hact
    · rw [hact]
      exact h
    · rw [hact]
      exact h.dropTmp
  refine (wp_bind _ _).mpr (wp_mono ?_ (wp_recoverRows hdrop))
  rintro text c2 ⟨h2, htext⟩
  cases text with
  | none => exact ⟨h2, nofun⟩
  | some text =>
    obtain ⟨f, hf, rfl⟩ := htext text rfl
    refine (wp_bind _ _).mpr (wp_mono ?_ (wp_cutRows h2 hf))
    rintro cut c3 ⟨h3, hcut⟩
    cases cut with
    | false => exact ⟨h3, nofun⟩
    | true =>
      obtain ⟨g, hg, hdata⟩ := hcut rfl
      refine (wp_bind (Io.read _) _).mpr ⟨h3, ?_⟩
      intro e _
      cases hfails : e.fails with
      | true =>
        simp only [act, hfails, if_true]
        exact ⟨h3, nofun⟩
      | false =>
        simp only [act, hfails, hg, Bool.false_eq_true, if_false]
        obtain ⟨n, hn, hfirst, hcount, hkeep⟩ := h3.closable hg hdata
        have hhash : (Sha256.init.update (bytesOf ((c3.dir seq).first n))).hex =
            hashOf ((c3.dir seq).first n) := rfl
        rw [hcount, hkeep, hfirst]
        show wp act Sees (Mends seq c) (writeClose seq false _ _ (Sha256.hex _) none) _ c3
        rw [hhash]
        have hnow : Mends seq c c3 ∧ Mended seq c .fail c3 := ⟨h3, h3, nofun⟩
        have hclosing : ∀ c', Closing seq c3 c' → Mends seq c c' ∧ Mended seq c .fail c' := by
          intro c' hc'
          have hmends := h3.closing hn hc'
          exact ⟨hmends, hmends, nofun⟩
        have hwp := @wp_writeClose Sees (Mends seq c) (Mended seq c) c3 seq n false none hn
          hnow hclosing fun c' hc' => h3.closed hn hc'
        exact hwp

-- What the loop of `recover` has behind it, and before it.
structure Walked (remaining : List Nat) (r : Recovered) (c : Card) : Prop where
  mending : Mending c
  closed : r.first = .ok → ∀ seq ∈ c.names, seq ∈ remaining ∨ (c.dir seq).close ≠ none

theorem Mending.mends (h : Mending c) (hhead : (c.dir seq).head = true) : Mends seq c c :=
  ⟨h, .refl seq c, hhead⟩

theorem note_first {r : Recovered} {err : EspErr} (h : (r.note err).first = .ok) :
    r.first = .ok ∧ err = .ok := by
  rw [Recovered.note] at h
  by_cases hfirst : r.first = .ok
  · rw [if_pos hfirst] at h
    exact ⟨hfirst, h⟩
  · rw [if_neg hfirst] at h
    exact absurd h hfirst

theorem note_counted {r r' : Recovered} {err : EspErr} (hsame : r'.first = r.first)
    (h : ((if err = .ok then r' else r).note err).first = .ok) : r.first = .ok ∧ err = .ok := by
  have hnoted := note_first h
  refine ⟨?_, hnoted.2⟩
  rw [if_pos hnoted.2] at hnoted
  exact hsame.symm.trans hnoted.1

theorem Thinned.mending {c' : Card} (h : Thinned seq c c') (hc : Mending c)
    (hhead : c.files (.file seq .head) = none) : Mending c' := by
  refine ⟨h.sound hc.sound, h.shape_of_headless hc.shape hhead, ?_⟩
  intro k f hf
  rcases h.file_cases (.file k .rows) with heq | hnone
  · exact hc.settled k f (heq.symm.trans hf)
  · cases hnone.symm.trans hf

theorem wp_recoverSeq {remaining : List Nat} {r : Recovered} (h : Walked (seq :: remaining) r c) :
    wp act Sees Mending (recoverSeq r seq) (Walked remaining) c := by
  rw [recoverSeq, wp_bind, wp_perform]
  refine ⟨h.mending, ?_⟩
  intro e _
  by_cases hclosed : (!e.fails && (c.files (.file seq .close)).isSome) = true
  · have hact : act (.stat (.file seq .close)) e c = (true, c) := Prod.ext hclosed rfl
    rw [hact]
    have hthere : (c.dir seq).close ≠ none :=
      Option.isSome_iff_ne_none.mp (Bool.and_eq_true_iff.mp hclosed).2
    refine ⟨h.mending, ?_⟩
    intro hok k hk
    rcases h.closed hok k hk with hmem | hdone
    · rcases List.mem_cons.mp hmem with rfl | hmem
      · exact .inr hthere
      · exact .inl hmem
    · exact .inr hdone
  · have hact : act (.stat (.file seq .close)) e c = (false, c) :=
      Prod.ext (Bool.eq_false_iff.mpr hclosed) rfl
    rw [hact]
    refine (wp_bind (Io.stat _) _).mpr ((wp_perform _).mpr ⟨h.mending, ?_⟩)
    intro e he
    by_cases hstarted : (!e.fails && (c.files (.file seq .head)).isSome) = true
    · have hact : act (.stat (.file seq .head)) e c = (true, c) := Prod.ext hstarted rfl
      rw [hact]
      have hhead : (c.dir seq).head = true := (Bool.and_eq_true_iff.mp hstarted).2
      have hone := wp_recoverOne (h.mending.mends hhead)
      have hone := wp_crash_mono (fun c' hc' => hc'.mending) hone
      refine (wp_bind _ _).mpr (wp_mono ?_ hone)
      rintro err c' ⟨hmends, hdone'⟩
      refine ⟨hmends.mending, ?_⟩
      intro hok k hk
      obtain ⟨hfirst, herr⟩ :=
        @note_counted r { r with recovered := r.recovered + 1 } err rfl hok
      by_cases hne : k = seq
      · rw [hne]
        exact .inr (hdone' herr)
      · rcases h.closed hfirst k (hmends.only.names ▸ hk) with hmem | hdone
        · exact .inl ((List.mem_cons.mp hmem).resolve_left hne)
        · rw [hmends.only.dirs k hne]
          exact .inr hdone
    · have hact : act (.stat (.file seq .head)) e c = (false, c) :=
        Prod.ext (Bool.eq_false_iff.mpr hstarted) rfl
      rw [hact]
      have hhead : c.files (.file seq .head) = none := by
        have hsees : e.fails = false := he
        simpa [hsees] using hstarted
      have hremove := wp_and (wp_thinned (C := Sees) seq c) (wp_sdlogRemove seq c)
      have hremove := wp_crash_mono (fun c' hc' => hc'.1.mending h.mending hhead) hremove
      refine (wp_bind _ _).mpr (wp_mono ?_ hremove)
      rintro err c' ⟨hthin, hgone⟩
      refine ⟨hthin.mending h.mending hhead, ?_⟩
      intro hok k hk
      obtain ⟨hfirst, herr⟩ :=
        @note_counted r { r with removed := r.removed + 1 } err rfl hok
      have hne : k ≠ seq := by
        rintro rfl
        exact hgone herr hk
      rcases h.closed hfirst k (hthin.names_subset hk) with hmem | hdone
      · exact .inl ((List.mem_cons.mp hmem).resolve_left hne)
      · rw [hthin.dir_of_ne hne]
        exact .inr hdone

-- Where `recover` says so, every session has its close record.
theorem wp_sdlogRecover (h : Mending c) :
    wp act Sees Mending sdlogRecover (Walked []) c := by
  rw [sdlogRecover, wp_bind, wp_perform]
  refine ⟨h, ?_⟩
  intro e he
  cases hfails : e.fails with
  | true =>
    simp only [act, hfails, if_true]
    exact ⟨h, (by simp)⟩
  | false =>
    have hall : act .scanRoot e c = (some (c.names.insertionSort (· ≤ ·)), c) := by
      have hshort : e.short = none := he
      simp only [act, hfails, hshort, upTo, Bool.false_eq_true, if_false]
    rw [hall]
    have hstart : Walked (c.names.insertionSort (· ≤ ·)) ⟨.ok, 0, 0⟩ c :=
      ⟨h, fun _ seq hseq => .inl ((List.mem_insertionSort _).mpr hseq)⟩
    exact wp_foldlM (I := Walked) (fun _ _ _ _ hw => wp_recoverSeq hw) hstart

end Espos.Sdlog
