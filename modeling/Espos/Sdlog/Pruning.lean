import Espos.Sdlog.Elsewhere
import Espos.Sdlog.Removal
import Mathlib.Algebra.BigOperators.Group.List.Basic
import Mathlib.Data.List.Sort

-- What pruning deletes, and when it stops.

namespace Espos.Sdlog

open Espos.Text Espos.Crash Espos.Crash.Prog Card

-- Closed and delivered, with a close record that can be read.
structure Card.Prunable (c : Card) (seq : Nat) : Prop where
  synced : c.files (.file seq .synced) ≠ none
  closed : ∃ f, c.files (.file seq .close) = some f ∧ (parseClose f.data).isSome

-- What a session counts for: the bytes its close record names, or its rows while it is
-- open. A close record that cannot be read counts for nothing.
def Card.bytes (c : Card) (seq : Nat) : UInt64 :=
  match c.files (.file seq .close) with
  | some f => ((parseClose f.data).map fun fields => fields.2.2.1).getD 0
  | none => .ofNat (((c.files (.file seq .rows)).map fun f => f.data.length).getD 0)

def Card.total (c : Card) (seqs : List Nat) : Nat :=
  (seqs.map fun seq => (c.bytes seq).toNat).sum

-- An operation that deletes of a session.
def Deletes (seq : Nat) (o : Op) : Prop :=
  (∃ name, o = .unlink (.file seq name)) ∨ o = .rmdir seq

-- The sessions can be listed and read.
def Legible : Op → Env → Card → Prop
  | .scanRoot, e, _ => e.fails = false ∧ e.short = none
  | .isDir _, e, _ | .stat _, e, _ | .size _, e, _ | .read _, e, _ => e.fails = false
  | _, _, _ => True

section Info

variable {c : Card} {seq : Nat} {info : Info}

-- What is known of a session; the card is `legible` or some calls may have failed.
structure Told (legible : Prop) (c : Card) (seq : Nat) (info : Info) : Prop where
  number : info.seq = seq
  prunable : info.closed = true → info.synced = true → c.Prunable seq
  bytes : legible → info.bytes = c.bytes seq
  all : legible → c.Prunable seq → info.closed = true ∧ info.synced = true

-- Calls that may fail, unless the card is `legible`.
def Met (legible : Prop) (o : Op) (e : Env) (c : Card) : Prop :=
  legible → Legible o e c

variable {legible : Prop}

-- The answer of `sdlogInfo` as pruning takes it.
def taken (seq : Nat) (r : EspErr × Info) : Info :=
  if r.1 = .ok then r.2 else { r.2 with seq := seq, synced := false, bytes := 0 }

theorem wp_readClose (hseq : info.seq = seq) (hclosed : info.closed = true)
    (hsynced : info.synced = true → c.files (.file seq .synced) ≠ none)
    (hall : legible → c.files (.file seq .synced) ≠ none → info.synced = true)
    (hthere : c.files (.file seq .close) ≠ none) :
    wp act (Met legible) (fun _ => True) (readClose seq info)
      (fun r c' => c' = c ∧ Told legible c seq (taken seq r)) c := by
  rw [readClose, wp_bind, wp_perform]
  refine ⟨trivial, ?_⟩
  intro e he
  obtain ⟨f, hf⟩ := Option.ne_none_iff_exists'.mp hthere
  by_cases hfails : e.fails = true
  · have hact : act (.read (.file seq .close)) e c = (.failed, c) := if_pos hfails
    have hnot (hl : legible) : False := by
      have hread : e.fails = false := he hl
      rw [hread] at hfails
      cases hfails
    rw [hact]
    refine ⟨rfl, rfl, ?_, fun hl => (hnot hl).elim, fun hl => (hnot hl).elim⟩
    intro _ hs
    cases hs
  · have hact : act (.read (.file seq .close)) e c = (.got f.data, c) := by
      simp only [act, if_neg hfails, hf]
    rw [hact]
    cases hparse : parseClose f.data with
    | none =>
      simp only [hparse]
      refine ⟨rfl, rfl, ?_, ?_, ?_⟩
      · intro _ hs
        cases hs
      · intro _
        simp [taken, Card.bytes, hf, hparse]
      · intro _ hprunable
        obtain ⟨f', hf', hread⟩ := hprunable.closed
        cases hf.symm.trans hf'
        rw [hparse] at hread
        cases hread
    | some fields =>
      obtain ⟨clean, rows, bytes, sha⟩ := fields
      simp only [hparse]
      refine ⟨rfl, hseq, ?_, ?_, ?_⟩
      · intro _ hs
        exact ⟨hsynced hs, f, hf, by rw [hparse]; rfl⟩
      · intro _
        simp [taken, Card.bytes, hf, hparse]
      · intro hl hprunable
        exact ⟨hclosed, hall hl hprunable.synced⟩

theorem wp_sdlogInfo (hseq : legible → seq ∈ c.names) :
    wp act (Met legible) (fun _ => True) (sdlogInfo seq)
      (fun r c' => c' = c ∧ Told legible c seq (taken seq r)) c := by
  rw [sdlogInfo, wp_bind, wp_perform]
  refine ⟨trivial, ?_⟩
  intro e he
  change wp act (Met legible) _ (if !(!e.fails && decide (seq ∈ c.names)) then _ else _) _ c
  refine wp_ite _ ?_ ?_
  · intro hno
    have hnot (hl : legible) : False := by
      have hdir : e.fails = false := he hl
      simp [hdir, hseq hl] at hno
    exact ⟨rfl, rfl, nofun, fun hl => (hnot hl).elim, fun hl => (hnot hl).elim⟩
  · intro _
    rw [wp_bind, wp_perform]
    refine ⟨trivial, ?_⟩
    intro e1 he1
    rw [wp_bind, wp_perform]
    refine ⟨trivial, ?_⟩
    intro e2 he2
    have hsynced : (!e1.fails && (c.files (.file seq .synced)).isSome) = true →
        c.files (.file seq .synced) ≠ none := by
      intro h
      exact Option.isSome_iff_ne_none.mp (Bool.and_eq_true_iff.mp h).2
    have hall (hl : legible) (h : c.files (.file seq .synced) ≠ none) :
        (!e1.fails && (c.files (.file seq .synced)).isSome) = true := by
      have hstat : e1.fails = false := he1 hl
      rw [hstat, Option.isSome_iff_ne_none.mpr h]
      rfl
    refine wp_ite _ ?_ ?_
    · intro hclose
      have hthere := Option.isSome_iff_ne_none.mp (Bool.and_eq_true_iff.mp hclose).2
      exact wp_readClose rfl rfl hsynced hall hthere
    · intro hclose
      rw [wp_bind, wp_perform]
      refine ⟨trivial, ?_⟩
      intro e3 he3
      have hnone (hl : legible) : c.files (.file seq .close) = none := by
        have hstat : e2.fails = false := he2 hl
        by_contra hthere
        apply hclose
        change (!e2.fails && (c.files (.file seq .close)).isSome) = true
        rw [hstat, Option.isSome_iff_ne_none.mpr hthere]
        rfl
      refine ⟨rfl, rfl, nofun, ?_, ?_⟩
      · intro hl
        have hsize : e3.fails = false := he3 hl
        simp [taken, Card.bytes, hnone hl, act, hsize]
      · intro hl hprunable
        obtain ⟨f, hf, -⟩ := hprunable.closed
        cases (hnone hl).symm.trans hf

theorem wp_pruneInfo (hseq : legible → seq ∈ c.names) (acc : UInt64 × List Info) :
    wp act (Met legible) (fun _ => True) (pruneInfo acc seq) (fun acc' c' => c' = c ∧
      ∃ info, Told legible c seq info ∧ acc' = (acc.1 + info.bytes, acc.2 ++ [info])) c := by
  refine (wp_bind _ _).mpr (wp_mono ?_ (wp_sdlogInfo hseq))
  rintro ⟨err, info⟩ c' ⟨rfl, htold⟩
  refine wp_ite _ ?_ ?_
  · intro herr
    rw [taken, if_pos herr] at htold
    exact ⟨rfl, info, htold, rfl⟩
  · intro herr
    rw [taken, if_neg herr] at htold
    refine ⟨rfl, _, htold, ?_⟩
    rw [UInt64.add_zero]

-- What the first loop knows once it has seen the sessions in front of `rest`.
structure Summed (legible : Prop) (c : Card) (seqs rest : List Nat) (acc : UInt64 × List Info) :
    Prop where
  seqs : acc.2.map Info.seq ++ rest = seqs
  told : ∀ info ∈ acc.2, Told legible c info.seq info
  total : acc.1.toNat = (acc.2.map fun info => info.bytes.toNat).sum % 2 ^ 64

theorem wp_pruneInfos {seqs : List Nat} (hseqs : legible → ∀ seq ∈ seqs, seq ∈ c.names) :
    wp act (Met legible) (fun _ => True) (seqs.foldlM pruneInfo (0, []))
      (fun acc c' => c' = c ∧ Summed legible c seqs [] acc) c := by
  refine wp_foldlM (I := fun rest acc c' => c' = c ∧ Summed legible c seqs rest acc) ?_ ?_
  · rintro seq rest acc c' ⟨rfl, hsum⟩
    have hmem (hl : legible) : seq ∈ c'.names := by
      apply hseqs hl
      rw [← hsum.seqs]
      simp
    refine wp_mono ?_ (wp_pruneInfo hmem acc)
    rintro _ c ⟨rfl, info, htold, rfl⟩
    refine ⟨rfl, ?_, ?_, ?_⟩
    · rw [← hsum.seqs, List.map_append, List.append_assoc, List.map_singleton, htold.number]
      rfl
    · intro info' hinfo'
      rcases List.mem_append.mp hinfo' with hold | hnew
      · exact hsum.told info' hold
      · rw [List.mem_singleton.mp hnew, htold.number]
        exact htold
    · have hsofar := hsum.total
      rw [List.map_append, List.sum_append, List.map_singleton, List.sum_singleton,
        UInt64.toNat_add]
      omega
  · exact ⟨rfl, rfl, nofun, rfl⟩

end Info

section Removal

variable {c : Card} {seq : Nat} {C : Op → Env → Card → Prop}

theorem unlinkAll_deletes (seq : Nat) (names : List Name) :
    (unlinkAll seq names).Uses fun o => ∃ name, o = .unlink (.file seq name) := by
  refine uses_foldlM ?_ () names
  intro _ name
  exact uses_bind (uses_perform ⟨name, rfl⟩) fun _ => trivial

theorem names_unlink {name : Name} (e : Env) :
    (act (.unlink (.file seq name)) e c).2.names = c.names := by
  rcases act_unlink e c (.file seq name) with ⟨-, hact⟩ | ⟨-, -, hact⟩
  · rw [hact]
  · rw [hact]
    rfl

theorem wp_unlinkAll (names : List Name) :
    wp act C (fun _ => True) (unlinkAll seq names) (fun _ c' => c'.names = c.names) c := by
  refine wp_crash_mono (fun _ _ => trivial)
    (wp_of_uses (I := fun c' : Card => c'.names = c.names) ?_ (unlinkAll_deletes seq names) rfl)
  rintro _ e c' ⟨name, rfl⟩ - hnames
  exact (names_unlink e).trans hnames

-- The directory is gone exactly where it says so.
theorem wp_sdlogRemove_names (seq : Nat) (c : Card) :
    wp act C (fun _ => True) (sdlogRemove seq) (fun err c' =>
      (err = .ok ∧ c'.names = c.names.filter (· ≠ seq)) ∨ (err ≠ .ok ∧ c'.names = c.names)) c := by
  rw [sdlogRemove, wp_bind, wp_perform]
  refine ⟨trivial, ?_⟩
  intro e _
  have hsame : (act (.readDir seq) e c).2 = c := by
    simp only [act]
    split_ifs <;> rfl
  rw [hsame]
  cases (act (.readDir seq) e c).1 with
  | absent => exact .inr ⟨(fun h => by cases h), rfl⟩
  | failed => exact .inr ⟨(fun h => by cases h), rfl⟩
  | got names =>
    refine (wp_bind _ _).mpr (wp_mono ?_ (wp_unlinkAll names))
    intro _ c' hnames
    rw [wp_bind, wp_perform]
    refine ⟨trivial, ?_⟩
    intro e _
    rcases act_rmdir e c' seq with hact | ⟨-, -, -, hact⟩
    · rw [hact]
      exact .inr ⟨(fun h => by cases h), hnames⟩
    · rw [hact]
      refine .inl ⟨rfl, ?_⟩
      change c'.names.filter _ = _
      rw [hnames]

-- All that a removal deletes it deletes while the session is there.
theorem along_sdlogRemove {D : Op → Env → Card → Prop} {es : List Env}
    (hread : ∀ e c', D (.readDir seq) e c')
    (hdelete : ∀ o e c', Deletes seq o → c'.names = c.names → D o e c') :
    AlongOps act D (sdlogRemove seq) es c := by
  cases es with
  | nil => trivial
  | cons e es =>
    refine ⟨hread e c, ?_⟩
    have hsame : (act (.readDir seq) e c).2 = c := by
      simp only [act]
      split_ifs <;> rfl
    rw [hsame]
    cases (act (.readDir seq) e c).1 with
    | absent => trivial
    | failed => trivial
    | got names =>
      change AlongOps act D (unlinkAll seq names >>= _) es c
      refine AlongOps.bind ?_ ?_
      · refine alongOps_of_uses (C := fun _ _ _ => True)
          (I := fun c' : Card => c'.names = c.names) ?_ ?_ (unlinkAll_deletes seq names) rfl
          (alongOps_true _ _ _)
        · rintro _ e c' ⟨name, rfl⟩ - hnames
          exact (names_unlink e).trans hnames
        · rintro o e c' hunlink hnames
          exact hdelete o e c' (.inl hunlink) hnames
      · intro _ es' c' hrun
        have hunlinked : wp act (fun _ _ _ => True) (fun _ => True) (unlinkAll seq names)
            (fun _ c' => c'.names = c.names) c := wp_unlinkAll names
        have hnames : c'.names = c.names :=
          post_of_exec (Q := fun _ c' => c'.names = c.names) hunlinked hrun
        cases es' with
        | nil => trivial
        | cons e es' => exact ⟨hdelete _ _ _ (.inr rfl) hnames, trivial⟩

end Removal

section Loop

variable {legible : Prop} {c c' : Card} {keepBytes : UInt64} {info : Info} {rest : List Info}
  {p : Pruned} {C : Op → Env → Card → Prop}

-- What holds in front of `rest`: `kept` are the sessions passed over, `others` those the
-- listing did not give.
structure Ledger (legible : Prop) (c : Card) (keepBytes : UInt64) (rest : List Info) (p : Pruned)
    (c' : Card) (kept : List Info) (others : List Nat) : Prop where
  names : c'.names.Perm (others ++ (kept ++ rest).map Info.seq)
  nodup : c'.names.Nodup
  others : legible → others = []
  told : ∀ info ∈ kept ++ rest, Told legible c info.seq info
  total : p.total.toNat = ((kept ++ rest).map fun info => info.bytes.toNat).sum % 2 ^ 64
  kept : p.first = .ok → ∀ info ∈ kept,
    p.total ≤ keepBytes ∨ ¬(info.closed = true ∧ info.synced = true)
  gone : ∀ seq ∈ c.names, seq ∉ c'.names → ∀ info ∈ rest, seq < info.seq
  ascending : (rest.map Info.seq).Pairwise (· < ·)

def Accounts (legible : Prop) (c : Card) (keepBytes : UInt64) (rest : List Info) (p : Pruned)
    (c' : Card) : Prop :=
  ∃ kept others, Ledger legible c keepBytes rest p c' kept others

theorem Ledger.total_names {kept : List Info} {others : List Nat}
    (h : Ledger legible c keepBytes rest p c' kept others) (hl : legible) :
    p.total.toNat = c.total c'.names % 2 ^ 64 := by
  have hnames := h.names
  rw [h.others hl, List.nil_append] at hnames
  have hperm := (hnames.map fun seq => (c.bytes seq).toNat).sum_eq
  rw [h.total, Card.total, hperm, List.map_map]
  congr 2
  apply List.map_congr_left
  intro info hinfo
  rw [(h.told info hinfo).bytes hl]
  rfl

theorem Ledger.keep {kept : List Info} {others : List Nat} {first : EspErr}
    (h : Ledger legible c keepBytes (info :: rest) p c' kept others)
    (hkept : first = .ok → p.first = .ok ∧
      (p.total ≤ keepBytes ∨ ¬(info.closed = true ∧ info.synced = true))) :
    Ledger legible c keepBytes rest { p with first := first } c' (kept ++ [info]) others := by
  have happend : kept ++ [info] ++ rest = kept ++ info :: rest := by simp
  refine ⟨?_, h.nodup, h.others, ?_, ?_, ?_, ?_, ?_⟩
  · rw [happend]
    exact h.names
  · rw [happend]
    exact h.told
  · rw [happend]
    exact h.total
  · intro hfirst info' hinfo'
    obtain ⟨hok, hthis⟩ := hkept hfirst
    rcases List.mem_append.mp hinfo' with hold | hnew
    · exact h.kept hok info' hold
    · rw [List.mem_singleton.mp hnew]
      exact hthis
  · intro seq hseq hgone info' hinfo'
    exact h.gone seq hseq hgone info' (List.mem_cons_of_mem _ hinfo')
  · exact (List.pairwise_cons.mp h.ascending).2

theorem Ledger.remove {kept : List Info} {others : List Nat} {c1 : Card} {removed : Nat}
    (h : Ledger legible c keepBytes (info :: rest) p c' kept others)
    (hmany : ¬ p.total ≤ keepBytes)
    (hnames : c1.names = c'.names.filter (· ≠ info.seq)) :
    Ledger legible c keepBytes rest
      { p with total := p.total - info.bytes, removed := removed } c1 kept others := by
  have hmiddle : (others ++ (kept ++ info :: rest).map Info.seq).Perm
      (info.seq :: (others ++ (kept ++ rest).map Info.seq)) := by
    rw [List.map_append, List.map_cons, ← List.append_assoc, List.map_append, ← List.append_assoc]
    exact List.perm_middle
  have hleft : c1.names.Perm (others ++ (kept ++ rest).map Info.seq) := by
    have herase := (h.names.trans hmiddle).erase info.seq
    rw [List.erase_cons_head, h.nodup.erase_eq_filter] at herase
    have hsame : c'.names.filter (· ≠ info.seq) = c'.names.filter (· != info.seq) := by
      apply List.filter_congr
      intro seq _
      by_cases hseq : seq = info.seq
      · simp [hseq]
      · simp [hseq]
    rw [hnames, hsame]
    exact herase
  refine ⟨hleft, ?_, h.others, ?_, ?_, ?_, ?_, ?_⟩
  · rw [hnames]
    exact h.nodup.filter _
  · intro info' hinfo'
    apply h.told info'
    rcases List.mem_append.mp hinfo' with hold | hnew
    · exact List.mem_append_left _ hold
    · exact List.mem_append_right _ (List.mem_cons_of_mem _ hnew)
  · have htotal := h.total
    have hlt := info.bytes.toNat_lt
    rw [List.map_append, List.sum_append] at htotal ⊢
    rw [List.map_cons, List.sum_cons] at htotal
    rw [UInt64.toNat_sub]
    omega
  · intro hfirst info' hinfo'
    rcases h.kept hfirst info' hinfo' with hfew | hspared
    · exact absurd hfew hmany
    · exact .inr hspared
  · intro seq hseq hgone info' hinfo'
    have hafter := (List.pairwise_cons.mp h.ascending).1 info'.seq (List.mem_map_of_mem hinfo')
    by_cases hthis : seq = info.seq
    · rw [hthis]
      exact hafter
    · have hbefore : seq ∉ c'.names := by
        intro hmem
        apply hgone
        rw [hnames]
        exact List.mem_filter.mpr ⟨hmem, by simpa using hthis⟩
      exact (h.gone seq hseq hbefore info List.mem_cons_self).trans hafter
  · exact (List.pairwise_cons.mp h.ascending).2

theorem wp_pruneOne (h : Accounts legible c keepBytes (info :: rest) p c') :
    wp act C (fun _ => True) (pruneOne keepBytes p info)
      (Accounts legible c keepBytes rest) c' := by
  obtain ⟨kept, others, h⟩ := h
  refine wp_ite _ ?_ ?_
  · intro hspared
    refine ⟨_, _, h.keep fun hok => ⟨hok, ?_⟩⟩
    rcases hspared with hfew | hopen | hhere
    · exact .inl hfew
    · refine .inr fun hboth => ?_
      simp [hboth.1] at hopen
    · refine .inr fun hboth => ?_
      simp [hboth.2] at hhere
  · intro hchosen
    have hmany : ¬ p.total ≤ keepBytes := fun hfew => hchosen (.inl hfew)
    refine (wp_bind _ _).mpr (wp_mono ?_ (wp_sdlogRemove_names info.seq c'))
    rintro err c1 (⟨rfl, hnames⟩ | ⟨herr, hnames⟩)
    · exact ⟨_, _, h.remove hmany hnames⟩
    · rw [if_neg herr]
      have hhere : Ledger legible c keepBytes (info :: rest) p c1 kept others :=
        ⟨hnames ▸ h.names, hnames ▸ h.nodup, h.others, h.told, h.total, h.kept,
          hnames ▸ h.gone, h.ascending⟩
      by_cases hfirst : p.first = .ok
      · rw [if_pos hfirst]
        exact ⟨_, _, hhere.keep fun hok => absurd hok herr⟩
      · rw [if_neg hfirst]
        exact ⟨_, _, hhere.keep fun hok => absurd hok hfirst⟩

-- An operation only looks, or deletes of a session that may go, above all those gone, and
-- while there is more on the card than is to be kept.
def Due (legible : Prop) (c : Card) (keepBytes : UInt64) (o : Op) (c' : Card) : Prop :=
  Reads o ∨ ∃ seq, Deletes seq o ∧ c.Prunable seq ∧
    (∀ gone ∈ c.names, gone ∉ c'.names → gone < seq) ∧
    (legible → keepBytes.toNat < c.total c'.names % 2 ^ 64)

theorem along_reads {α : Type} {prog : Io α} (hreads : prog.Uses Reads) (es : List Env)
    (s : Card) : AlongOps act (fun o _ => Due legible c keepBytes o) prog es s :=
  alongOps_of_uses (C := fun _ _ _ => True) (I := fun _ => True) (fun _ _ _ _ _ _ => trivial)
    (fun _ _ _ ho _ => .inl ho) hreads trivial (alongOps_true _ _ _)

theorem along_pruneOne (h : Accounts legible c keepBytes (info :: rest) p c') (es : List Env) :
    AlongOps act (fun o _ => Due legible c keepBytes o) (pruneOne keepBytes p info) es c' := by
  obtain ⟨kept, others, h⟩ := h
  unfold pruneOne
  by_cases hspared : p.total ≤ keepBytes ∨ !info.closed ∨ !info.synced
  · rw [if_pos hspared]
    trivial
  · rw [if_neg hspared]
    simp only [not_or, Bool.not_eq_true', Bool.not_eq_false] at hspared
    obtain ⟨hmany, hclosed, hsynced⟩ := hspared
    refine AlongOps.bind ?_ ?_
    · apply along_sdlogRemove
      · intro e c1
        exact .inl trivial
      · intro o e c1 hdelete hnames
        refine .inr ⟨info.seq, hdelete, ?_, ?_, ?_⟩
        · exact (h.told info (by simp)).prunable hclosed hsynced
        · intro seq hseq hgone
          rw [hnames] at hgone
          exact h.gone seq hseq hgone info List.mem_cons_self
        · intro hl
          rw [hnames, ← h.total_names hl]
          exact Nat.lt_of_not_le hmany
    · intro err es' c1 _
      by_cases herr : err = .ok
      · rw [if_pos herr]
        trivial
      · rw [if_neg herr]
        trivial

theorem along_pruneAll (h : Accounts legible c keepBytes rest p c') (es : List Env) :
    AlongOps act (fun o _ => Due legible c keepBytes o) (rest.foldlM (pruneOne keepBytes) p) es
      c' := by
  induction rest generalizing p es c' with
  | nil => trivial
  | cons info rest ih =>
    rw [List.foldlM_cons]
    refine AlongOps.bind (along_pruneOne h es) ?_
    intro p1 es1 c1 hrun
    exact ih (post_of_exec (wp_pruneOne h) hrun) es1

theorem wp_pruneAll (h : Accounts legible c keepBytes rest p c') :
    wp act C (fun _ => True) (rest.foldlM (pruneOne keepBytes) p)
      (Accounts legible c keepBytes []) c' :=
  wp_foldlM (I := Accounts legible c keepBytes) (fun _ _ _ _ h => wp_pruneOne h) h

-- With the infos of a listing, the second loop can start.
theorem Summed.accounts {seqs : List Nat} {acc : UInt64 × List Info}
    (h : Summed legible c seqs [] acc) (hnodup : c.names.Nodup) {others : List Nat}
    (hnames : c.names.Perm (others ++ seqs)) (hothers : legible → others = [])
    (hseqs : seqs.Pairwise (· < ·)) :
    Accounts legible c keepBytes acc.2 ⟨acc.1, .ok, 0⟩ c := by
  have hlisted : acc.2.map Info.seq = seqs := by
    rw [← h.seqs, List.append_nil]
  refine ⟨[], others, ?_, hnodup, hothers, h.told, h.total, nofun, ?_, ?_⟩
  · rw [List.nil_append, hlisted]
    exact hnames
  · intro seq hseq hgone
    exact absurd hseq hgone
  · rw [hlisted]
    exact hseqs

theorem Accounts.settled (h : Accounts legible c keepBytes [] p c') (hl : legible)
    (hfirst : p.first = .ok) :
    c.total c'.names % 2 ^ 64 ≤ keepBytes.toNat ∨ ∀ seq ∈ c'.names, ¬c.Prunable seq := by
  obtain ⟨kept, others, h⟩ := h
  by_cases hfew : p.total ≤ keepBytes
  · left
    rw [← h.total_names hl]
    exact hfew
  · right
    intro seq hseq hprunable
    have hmem := h.names.mem_iff.mp hseq
    rw [h.others hl, List.nil_append, List.append_nil] at hmem
    obtain ⟨info, hinfo, rfl⟩ := List.mem_map.mp hmem
    have htold := h.told info (by simpa using hinfo)
    rcases h.kept hfirst info hinfo with hless | hspared
    · exact hfew hless
    · exact hspared (htold.all hl hprunable)

end Loop

section Prune

variable {legible : Prop} {c : Card} {keepBytes : UInt64}

-- What a listing gives of the sessions, in order.
theorem listing_of_scan (hnodup : c.names.Nodup) {e : Env}
    (he : legible → e.short = none) : ∃ others : List Nat,
      c.names.Perm (others ++ (upTo c.names e.short).insertionSort (· ≤ ·)) ∧
        (legible → others = []) ∧
        ((upTo c.names e.short).insertionSort (· ≤ ·)).Pairwise (· < ·) := by
  have hlisted := List.perm_insertionSort (· ≤ ·) (upTo c.names e.short)
  have hsorted := List.pairwise_insertionSort (· ≤ ·) (upTo c.names e.short)
  have hnodup' : (upTo c.names e.short).Nodup := by
    cases e.short with
    | none => exact hnodup
    | some n => exact hnodup.sublist (List.take_sublist n _)
  have hstrict : ((upTo c.names e.short).insertionSort (· ≤ ·)).Pairwise (· < ·) := by
    have hboth := hsorted.and (hlisted.nodup_iff.mpr hnodup')
    exact hboth.imp fun h => Nat.lt_of_le_of_ne h.1 h.2
  cases hshort : e.short with
  | none =>
    rw [hshort] at hlisted hstrict
    exact ⟨[], hlisted.symm, fun _ => rfl, hstrict⟩
  | some n =>
    rw [hshort] at hlisted hstrict
    refine ⟨c.names.drop n, ?_, ?_, hstrict⟩
    · have hall : c.names.Perm (c.names.drop n ++ c.names.take n) := by
        have happend : (c.names.take n ++ c.names.drop n).Perm
            (c.names.drop n ++ c.names.take n) := List.perm_append_comm
        rwa [List.take_append_drop] at happend
      exact hall.trans (List.Perm.append_left _ hlisted.symm)
    · intro hl
      rw [he hl] at hshort
      cases hshort

theorem wp_sdlogPrune (hnodup : c.names.Nodup) :
    wp act (Met legible) (fun _ => True) (sdlogPrune keepBytes) (fun p c' => legible →
      p.first = .ok →
        c.total c'.names % 2 ^ 64 ≤ keepBytes.toNat ∨ ∀ seq ∈ c'.names, ¬c.Prunable seq) c := by
  rw [sdlogPrune, wp_bind, wp_perform]
  refine ⟨trivial, ?_⟩
  intro e he
  by_cases hfails : e.fails = true
  · have hact : act .scanRoot e c = (none, c) := if_pos hfails
    rw [hact]
    intro hl
    have hscan : e.fails = false := (he hl).1
    rw [hscan] at hfails
    cases hfails
  · have hact : act .scanRoot e c =
        (some ((upTo c.names e.short).insertionSort (· ≤ ·)), c) := if_neg hfails
    rw [hact]
    obtain ⟨others, hnames, hothers, hseqs⟩ := listing_of_scan hnodup fun hl => (he hl).2
    have hmem (hl : legible) : ∀ seq ∈ (upTo c.names e.short).insertionSort (· ≤ ·),
        seq ∈ c.names := by
      intro seq hseq
      exact hnames.mem_iff.mpr (List.mem_append_right _ hseq)
    refine (wp_bind _ _).mpr (wp_mono ?_ (wp_pruneInfos hmem))
    rintro acc c' ⟨rfl, hsum⟩
    refine wp_mono ?_ (wp_pruneAll (hsum.accounts hnodup hnames hothers hseqs))
    intro p c1 haccounts hl hfirst
    exact haccounts.settled hl hfirst

theorem along_sdlogPrune (hnodup : c.names.Nodup) {es : List Env}
    (hes : AlongOps act (Met legible) (sdlogPrune keepBytes) es c) :
    AlongOps act (fun o _ => Due legible c keepBytes o) (sdlogPrune keepBytes) es c := by
  cases es with
  | nil => trivial
  | cons e es =>
    refine ⟨.inl trivial, ?_⟩
    obtain ⟨he, hrest⟩ := hes
    by_cases hfails : e.fails = true
    · have hact : act .scanRoot e c = (none, c) := if_pos hfails
      rw [hact]
      trivial
    · have hact : act .scanRoot e c =
          (some ((upTo c.names e.short).insertionSort (· ≤ ·)), c) := if_neg hfails
      rw [hact] at hrest ⊢
      obtain ⟨others, hnames, hothers, hseqs⟩ := listing_of_scan hnodup fun hl => (he hl).2
      have hmem (hl : legible) : ∀ seq ∈ (upTo c.names e.short).insertionSort (· ≤ ·),
          seq ∈ c.names := by
        intro seq hseq
        exact hnames.mem_iff.mpr (List.mem_append_right _ hseq)
      change AlongOps act _ (List.foldlM pruneInfo (0, [])
        ((upTo c.names e.short).insertionSort (· ≤ ·)) >>= _) es c
      change AlongOps act _ (List.foldlM pruneInfo (0, [])
        ((upTo c.names e.short).insertionSort (· ≤ ·)) >>= _) es c at hrest
      refine AlongOps.bind (along_reads (uses_foldlM pruneInfo_reads _ _) es c) ?_
      intro acc es' c' hrun
      have hinfos := (exec_of_wp (wp_pruneInfos hmem) (alongOps_bind hrest).1).1 acc
      rw [hrun] at hinfos
      obtain ⟨rfl, hsum⟩ := hinfos rfl
      exact along_pruneAll (hsum.accounts hnodup hnames hothers hseqs) es'

end Prune

theorem prune_spares (c : Card) (hnodup : c.names.Nodup) (keepBytes : UInt64) (es : List Env) :
    AlongOps act (fun o _ c' => Reads o ∨ ∃ seq, Deletes seq o ∧ c.Prunable seq ∧
      ∀ gone ∈ c.names, gone ∉ c'.names → gone < seq) (sdlogPrune keepBytes) es c ∧
    (AlongOps act Legible (sdlogPrune keepBytes) es c →
      AlongOps act (fun o _ c' => ∀ seq, Deletes seq o →
        keepBytes.toNat < c.total c'.names % 2 ^ 64) (sdlogPrune keepBytes) es c ∧
      ∀ p es' c', exec act (sdlogPrune keepBytes) es c = (some p, es', c') → p.first = .ok →
        c.total c'.names % 2 ^ 64 ≤ keepBytes.toNat ∨ ∀ seq ∈ c'.names, ¬c.Prunable seq) := by
  refine ⟨?_, ?_⟩
  · have hmet : AlongOps act (Met False) (sdlogPrune keepBytes) es c :=
      (alongOps_true _ _ _).imp fun _ _ _ _ => False.elim
    apply (along_sdlogPrune hnodup hmet).imp
    rintro o - c' (hreads | ⟨seq, hdelete, hprunable, hgone, -⟩)
    · exact .inl hreads
    · exact .inr ⟨seq, hdelete, hprunable, hgone⟩
  · intro hlegible
    have hmet : AlongOps act (Met True) (sdlogPrune keepBytes) es c :=
      hlegible.imp fun _ _ _ h _ => h
    refine ⟨?_, ?_⟩
    · apply (along_sdlogPrune hnodup hmet).imp
      rintro o - c' (hreads | ⟨-, -, -, -, hmany⟩)
      · rintro seq (⟨name, rfl⟩ | rfl)
        · exact hreads.elim
        · exact hreads.elim
      · intro _ _
        exact hmany trivial
    · intro p es' c' hrun hfirst
      have hend := (exec_of_wp (wp_sdlogPrune hnodup) hmet).1 p
      rw [hrun] at hend
      exact hend rfl trivial hfirst

-- Two delivered sessions whose close records name so many bytes each.
def twoSessions (bytes : UInt64) : Card :=
  let record := closeHead true 0 bytes (List.replicate 64 '0') ++ lit "null\x7d\n"
  { Card.init with
    names := [2, 1]
    files := fun p => match p with
      | .file seq .close => if seq = 1 ∨ seq = 2 then some (File.empty.append record) else none
      | .file seq .synced => if seq = 1 ∨ seq = 2 then some .empty else none
      | _ => none }

def calm : List Env :=
  List.replicate 40 ⟨false, none, []⟩

-- The older one is removed, and the other is as much as there may be.
theorem prune_spares_two :
    let r := exec act (sdlogPrune 7) calm (twoSessions 7)
    (r.1.map Pruned.first = some .ok ∧ r.2.2.names = [2]) ∧
      AlongOps act (fun o _ c' => Reads o ∨ ∃ seq, Deletes seq o ∧ (twoSessions 7).Prunable seq ∧
        ∀ gone ∈ [2, 1], gone ∉ c'.names → gone < seq) (sdlogPrune 7) calm (twoSessions 7) ∧
      AlongOps act (fun o _ c' => ∀ seq, Deletes seq o →
        7 < (twoSessions 7).total c'.names % 2 ^ 64) (sdlogPrune 7) calm (twoSessions 7) ∧
      ((twoSessions 7).total r.2.2.names % 2 ^ 64 ≤ 7 ∨
        ∀ seq ∈ r.2.2.names, ¬(twoSessions 7).Prunable seq) := by
  intro r
  obtain ⟨hspares, hwhole⟩ := prune_spares (twoSessions 7) (by decide) 7 calm
  have hlegible : AlongOps act Legible (sdlogPrune 7) calm (twoSessions 7) := by
    apply alongOps_of_forall
    intro e he o c
    obtain rfl := List.eq_of_mem_replicate he
    cases o <;> simp [Legible]
  obtain ⟨hmany, hend⟩ := hwhole hlegible
  have hrun : r.1.map Pruned.first = some .ok ∧ r.2.2.names = [2] := by decide +kernel
  obtain ⟨p, hp, hfirst⟩ := Option.map_eq_some_iff.mp hrun.1
  refine ⟨hrun, hspares, hmany, hend p r.2.1 r.2.2 ?_ hfirst⟩
  rw [← hp]

-- The sum of the bytes is one of 64 bits.
theorem prune_wraps :
    (twoSessions 9223372036854775808).total [2, 1] = 2 ^ 64 ∧
      (exec act (sdlogPrune 0) calm (twoSessions 9223372036854775808)).1 = some ⟨0, .ok, 0⟩ ∧
      (twoSessions 9223372036854775808).Prunable 1 := by
  refine ⟨by decide +kernel, by decide +kernel, ?_⟩
  exact ⟨nofun, _, rfl, by decide +kernel⟩

end Espos.Sdlog
