import Espos.Sdlog.Elsewhere
import Mathlib.Data.List.Pairwise

-- No number is handed out twice, unless what bears witness of the highest one is
-- taken away or cannot be read.

namespace Espos.Sdlog

open Espos.Text Espos.Scan Espos.Crash Espos.Crash.Prog Espos.Run Card

variable {hi seq : Nat} {c : Card} {e : Env}

theorem witnessBesideTmp_le (c : Card) : c.witnessBesideTmp ≤ c.witness :=
  max_le_max_right _ (Nat.le_max_left _ _)

theorem sureNumber_le_witness (c : Card) : c.sureNumber .lastSeq ≤ c.witness :=
  (Nat.le_max_left _ _).trans (Nat.le_max_left _ _)

theorem sureNumberTmp_le_witness (c : Card) : c.sureNumber .lastSeqTmp ≤ c.witness :=
  (Nat.le_max_right _ _).trans (Nat.le_max_left _ _)

theorem sureNumber_of_synced {p : Path} {f : File} (h : c.files p = some f)
    (hsynced : f.synced = f.data) : c.sureNumber p = numberOf f.data := by
  simp only [sureNumber, h, if_pos hsynced]

-- `LASTSEQ.TMP` is unlinked only where it is not needed.
theorem unlinkTmp_keeps_witness (hspares : Spares hi (.unlink .lastSeqTmp) e c)
    (h : hi ≤ c.witness) : hi ≤ (act (.unlink .lastSeqTmp) e c).2.witness := by
  rcases act_unlink e c .lastSeqTmp with ⟨_, hact⟩ | ⟨hworks, _, hact⟩
  · rw [hact]
    exact h
  · rw [hact]
    have hnumber : (c.setFile .lastSeqTmp none).sureNumber .lastSeq = c.sureNumber .lastSeq :=
      sureNumber_of_files (setFile_of_ne (by decide) _)
    calc hi ≤ c.witnessBesideTmp := hspares hworks
      _ = (c.setFile .lastSeqTmp none).witnessBesideTmp := by
        rw [witnessBesideTmp, witnessBesideTmp, hnumber]
        rfl
      _ ≤ (c.setFile .lastSeqTmp none).witness := witnessBesideTmp_le _

-- What is to hold when `LASTSEQ.TXT` has been written, or could not be.
def Recorded (hi seq : Nat) (err : EspErr) (c : Card) : Prop :=
  hi ≤ c.witness ∧ (err = .ok → c.sureNumber .lastSeq = seq)

theorem wp_dropTmp (h : hi ≤ c.witness) :
    wp act (Spares hi) (fun _ => True) (dropTmp .lastSeqTmp) (Recorded hi seq) c := by
  rw [dropTmp, wp_bind, wp_perform]
  refine ⟨trivial, ?_⟩
  intro e he
  exact ⟨unlinkTmp_keeps_witness he h, nofun⟩

-- Once `LASTSEQ.TMP` is synced, the number is in it, or in `LASTSEQ.TXT` after it.
theorem wp_putInPlace (hseq : hi ≤ seq) (h : c.sureNumber .lastSeqTmp = seq) :
    wp act (Spares hi) (fun _ => True) (putInPlace .lastSeqTmp .lastSeq) (Recorded hi seq) c := by
  rw [putInPlace, wp_bind, wp_perform]
  refine ⟨trivial, ?_⟩
  intro e _
  have hunlinked : (act (.unlink .lastSeq) e c).2.sureNumber .lastSeqTmp = seq := by
    rcases act_unlink e c .lastSeq with ⟨_, hact⟩ | ⟨_, _, hact⟩
    · rw [hact]
      exact h
    · rw [hact]
      exact (sureNumber_of_files (setFile_of_ne (by decide) _)).trans h
  generalize (act (.unlink .lastSeq) e c).2 = c at hunlinked
  rw [wp_bind, wp_perform]
  refine ⟨trivial, ?_⟩
  intro e _
  rcases act_rename e c .lastSeqTmp .lastSeq with hact | ⟨_, _, hact⟩
  · rw [hact]
    exact wp_dropTmp ((hseq.trans hunlinked.ge).trans (sureNumberTmp_le_witness c))
  · rw [hact]
    have hfiles : ((c.setFile .lastSeq (c.files .lastSeqTmp)).setFile .lastSeqTmp none).files
        .lastSeq = c.files .lastSeqTmp := by
      rw [setFile_of_ne (by decide), setFile_self]
    have hplace : ((c.setFile .lastSeq (c.files .lastSeqTmp)).setFile .lastSeqTmp none).sureNumber
        .lastSeq = seq := by
      rw [← hunlinked, sureNumber, sureNumber, hfiles]
    exact ⟨(hseq.trans hplace.ge).trans (sureNumber_le_witness _), fun _ => hplace⟩

-- The number is in `LASTSEQ.TMP`, or the rest is the witness.
theorem wp_putLastSeq (hempty : c.files .lastSeqTmp = some .empty) :
    wp act (Spares hi) (fun _ => True) (putParts .lastSeqTmp [lastSeqText seq])
      (fun written c => if written = true then
          ∃ f, c.files .lastSeqTmp = some f ∧ f.data = lastSeqText seq
        else hi ≤ c.witnessBesideTmp) c := by
  rw [putParts, wp_bind, wp_perform]
  refine ⟨trivial, ?_⟩
  intro e he
  rcases act_fputs e c .lastSeqTmp (lastSeqText seq) with ⟨hfails, hact⟩ | hact
  · rw [hact]
    exact he hfails
  · rw [hact]
    refine ⟨File.empty.append (lastSeqText seq), ?_, List.nil_append _⟩
    simp only [setFile_self, hempty, Option.map_some]

theorem wp_syncLastSeq {written : Bool} (hmax : seq ≤ maxSeq)
    (h : if written = true then ∃ f, c.files .lastSeqTmp = some f ∧ f.data = lastSeqText seq
      else hi ≤ c.witnessBesideTmp) :
    wp act (Spares hi) (fun _ => True) (andAlso written (Io.fsync .lastSeqTmp))
      (fun flushed c => if flushed = true then c.sureNumber .lastSeqTmp = seq
        else hi ≤ c.witnessBesideTmp) c := by
  cases written with
  | false => exact h
  | true =>
    obtain ⟨f, hf, hdata⟩ := h
    refine ⟨trivial, ?_⟩
    intro e he
    rcases act_fsync e c .lastSeqTmp with ⟨hfails, hact⟩ | hact
    · rw [hact]
      exact he hfails
    · rw [hact]
      have hfile : (c.setFile .lastSeqTmp ((c.files .lastSeqTmp).map File.sync)).files
          .lastSeqTmp = some f.sync := by
        rw [setFile_self, hf]
        rfl
      calc _ = numberOf f.sync.data := sureNumber_of_synced hfile rfl
        _ = numberOf (lastSeqText seq) := congrArg numberOf hdata
        _ = seq := numberOf_lastSeqText hmax

theorem wp_writeLastSeq (hseq : hi ≤ seq) (hmax : seq ≤ maxSeq) (h : hi ≤ c.witness) :
    wp act (Spares hi) (fun _ => True) (writeLastSeq seq) (Recorded hi seq) c := by
  rw [writeLastSeq, writeFileAtomic, wp_bind, wp_perform]
  refine ⟨trivial, ?_⟩
  intro e _
  rcases act_fopenWrite e c .lastSeqTmp with hact | ⟨_, hact⟩
  · rw [hact]
    exact ⟨h, nofun⟩
  rw [hact]
  refine (wp_bind _ _).mpr (wp_mono ?_ (wp_putLastSeq (setFile_self _ _ _)))
  intro written c hwritten
  refine (wp_bind _ _).mpr (wp_mono ?_ (wp_syncLastSeq hmax hwritten))
  intro flushed c hflushed
  rw [wp_bind, wp_perform]
  refine ⟨trivial, ?_⟩
  intro e _
  cases flushed with
  | false =>
    rw [Bool.and_false]
    exact wp_dropTmp (hflushed.trans (witnessBesideTmp_le c))
  | true =>
    rw [Bool.and_true]
    have hsure : c.sureNumber .lastSeqTmp = seq := hflushed
    cases (act (.fclose .lastSeqTmp) e c).1 with
    | false => exact wp_dropTmp ((hseq.trans hsure.ge).trans (sureNumberTmp_le_witness c))
    | true => exact wp_putInPlace hseq hsure

theorem startSession_seq (seq : Nat) (header : CStr) (cfg : Option OpenCfg) :
    (startSession seq header cfg).Ends fun r => ∀ s, r.2 = some s → s.seq = seq := by
  apply ends_bind
  intro made
  refine ends_ite _ nofun ?_
  apply ends_bind
  intro err
  refine ends_ite _ (ends_bind fun _ => nofun) ?_
  apply ends_bind
  intro stream
  cases stream with
  | none => exact ends_bind fun _ => nofun
  | some stream =>
    intro s hs
    obtain rfl := Option.some.inj hs
    rfl

-- The highest number is at least `hi`, and what `open` hands out is above it.
def Handed (hi : Nat) (r : EspErr × Option Session) (c : Card) : Prop :=
  hi ≤ c.witness ∧ ∀ s, r.2 = some s → hi < s.seq ∧ s.seq ≤ c.witness

theorem wp_startSession (hseq : hi < seq) (hsure : c.sureNumber .lastSeq = seq) (header : CStr)
    (cfg : Option OpenCfg) :
    wp act (Spares hi) (fun _ => True) (startSession seq header cfg) (Handed hi) c := by
  have hkeeps : wp act (Spares hi) (fun c => c.sureNumber .lastSeq = seq)
      (startSession seq header cfg) (fun _ c => c.sureNumber .lastSeq = seq) c := by
    refine wp_of_uses ?_ (startSession_away seq header cfg) hsure
    intro o e c haway _ hc
    exact (sureNumber_of_files (act_files haway rfl)).trans hc
  have hends := wp_and_ends (startSession_seq seq header cfg) hkeeps
  refine wp_crash_mono (fun _ _ => trivial) (wp_mono ?_ hends)
  intro r c hr
  have hwitness : seq ≤ c.witness := hr.1.symm.le.trans (sureNumber_le_witness c)
  refine ⟨hseq.le.trans hwitness, ?_⟩
  intro s hs
  rw [hr.2 s hs]
  exact ⟨hseq, hwitness⟩

theorem highest_le_getLast (names : List Nat) :
    highest names ≤ (names.insertionSort (· ≤ ·)).getLast?.getD 0 := by
  apply highest_le_iff.mpr
  intro seq hseq
  have hsorted := List.pairwise_insertionSort (· ≤ ·) names
  have hmem : seq ∈ names.insertionSort (· ≤ ·) := (List.mem_insertionSort _).mpr hseq
  rw [List.getLast?_eq_some_getLast (List.ne_nil_of_mem hmem), Option.getD_some]
  exact hsorted.rel_getLast hmem

-- What the reading of a file of the root gives.
def readNumberOf (c : Card) (p : Path) (e : Env) : Nat :=
  if e.fails then 0 else (((c.files p).map File.data).map numberOf).getD 0

theorem numberLeft_le (c : Card) (p : Path) (e : Env) : numberLeft c p e ≤ readNumberOf c p e := by
  unfold numberLeft readNumberOf
  split_ifs
  · exact Nat.le_refl _
  · rw [sureNumber]
    cases c.files p with
    | none => exact Nat.zero_le _
    | some f =>
      dsimp only
      split_ifs
      · exact Nat.le_refl _
      · exact Nat.zero_le _

-- All of the witness is left where no reading fails or breaks off.
theorem le_witnessLeft {made root txt tmp : Env} {es : List Env} (hwitness : hi ≤ c.witness)
    (hreads : ReadsWell hi c (made :: root :: txt :: tmp :: es)) (hmade : made.fails = false)
    (hroot : root.fails = false) : hi ≤ witnessLeft c root txt tmp := by
  by_cases hmissed : root.short ≠ none ∨ txt.fails = true ∨ tmp.fails = true
  · exact hreads hmade hroot hmissed
  · simp only [not_or, not_not, Bool.not_eq_true] at hmissed
    obtain ⟨hwhole, htxt, htmp⟩ := hmissed
    rw [witnessLeft, numberLeft, numberLeft, htxt, htmp, hwhole]
    exact hwitness

theorem readNumber_eq (p : Path) (e : Env) :
    ((act (.readNumber p) e c).1.map numberOf).getD 0 = readNumberOf c p e := by
  cases hfails : e.fails with
  | true => simp only [readNumberOf, act, hfails, if_true, Option.map_none, Option.getD_none]
  | false => simp only [readNumberOf, act, hfails, Bool.false_eq_true, if_false]

theorem readNumber_card (p : Path) (e : Env) : (act (.readNumber p) e c).2 = c := by
  simp only [act]
  split_ifs <;> rfl

theorem exec_readLastSeq {es es' : List Env} {c' : Card} {last : Nat}
    (hrun : exec act readLastSeq es c = (some last, es', c')) :
    c' = c ∧ ∃ e2 e3, es = e2 :: e3 :: es' ∧
      last = max (readNumberOf c .lastSeq e2) (readNumberOf c .lastSeqTmp e3) := by
  rcases es with _ | ⟨e2, _ | ⟨e3, es⟩⟩
  · cases hrun
  · cases hrun
  · cases hrun
    refine ⟨?_, e2, e3, rfl, ?_⟩
    · rw [readNumber_card, readNumber_card]
    · rw [readNumber_eq, readNumber_eq, readNumber_card]

-- What `open` reads gives it the highest number.
theorem exec_openLast {es es' : List Env} {c' : Card} {a : Except EspErr Nat}
    (hwitness : hi ≤ c.witness) (hreads : ReadsWell hi c es)
    (hrun : exec act openLast es c = (some a, es', c')) :
    c' = c ∧ ∀ last, a = .ok last → hi ≤ last := by
  rcases es with _ | ⟨e0, es⟩
  · cases hrun
  rw [openLast, exec_perform_cons] at hrun
  cases hmade : e0.fails with
  | true =>
    simp only [act, hmade] at hrun
    cases hrun
    exact ⟨rfl, (by simp)⟩
  | false =>
    simp only [act, hmade] at hrun
    rcases es with _ | ⟨e1, es⟩
    · cases hrun
    rw [Bool.not_false, Bool.not_true, if_neg (by simp), exec_perform_cons] at hrun
    cases hscan : e1.fails with
    | true =>
      simp only [act, hscan, if_true] at hrun
      cases hrun
      exact ⟨rfl, (by simp)⟩
    | false =>
      simp only [act, hscan, Bool.false_eq_true, if_false] at hrun
      rw [exec_bind] at hrun
      rcases hlast : exec act readLastSeq es c with ⟨_ | last, es2, c2⟩
      · rw [hlast] at hrun
        cases hrun
      · rw [hlast] at hrun
        cases hrun
        obtain ⟨hcard, e2, e3, hes, rfl⟩ := exec_readLastSeq hlast
        refine ⟨hcard, ?_⟩
        intro last hok
        obtain rfl := Except.ok.inj hok
        rw [hes] at hreads
        refine (le_witnessLeft hwitness hreads hmade hscan).trans (max_le_max ?_ ?_)
        · exact max_le_max (numberLeft_le _ _ _) (numberLeft_le _ _ _)
        · exact highest_le_getLast _

theorem wp_openAs (hwitness : hi ≤ c.witness) {last : Nat} (hlast : hi ≤ last) (header : CStr)
    (cfg : Option OpenCfg) :
    wp act (Spares hi) (fun _ => True)
      (if maxSeq ≤ last then pure (.invalidState, none)
      else do
        let err ← writeLastSeq (last + 1)
        if err ≠ .ok then pure (err, none) else startSession (last + 1) header cfg)
      (Handed hi) c := by
  by_cases hfull : maxSeq ≤ last
  · rw [if_pos hfull]
    exact ⟨hwitness, nofun⟩
  · rw [if_neg hfull, wp_bind]
    refine wp_mono ?_ (wp_writeLastSeq (Nat.le_succ_of_le hlast) (Nat.not_le.mp hfull) hwitness)
    intro err c hrecorded
    by_cases hok : err = .ok
    · rw [if_neg (not_not_intro hok)]
      exact wp_startSession (Nat.lt_succ_of_le hlast) (hrecorded.2 hok) header cfg
    · rw [if_pos hok]
      exact ⟨hrecorded.1, nofun⟩

theorem exec_sdlogOpen {es es' : List Env} {c' : Card} {r : EspErr × Option Session} {header : CStr}
    {cfg : Option OpenCfg} (hwitness : hi ≤ c.witness) (hreads : ReadsWell hi c es)
    (hspares : AlongOps act (Spares hi) (sdlogOpen header cfg) es c)
    (hrun : exec act (sdlogOpen header cfg) es c = (some r, es', c')) : Handed hi r c' := by
  rw [sdlogOpen, exec_bind] at hrun
  have hrest := (alongOps_bind hspares).2
  rcases hlast : exec act openLast es c with ⟨_ | last, es2, c2⟩
  · rw [hlast] at hrun
    cases hrun
  · rw [hlast] at hrun
    obtain ⟨rfl, hhigh⟩ := exec_openLast hwitness hreads hlast
    cases last with
    | error err =>
      cases hrun
      exact ⟨hwitness, nofun⟩
    | ok last =>
      have hwp := wp_openAs hwitness (hhigh last rfl) header cfg
      have hpost := (exec_of_wp hwp (hrest _ _ _ hlast)).1 r
      rw [show exec act _ es2 c2 = _ from hrun] at hpost
      exact hpost rfl

end Espos.Sdlog
