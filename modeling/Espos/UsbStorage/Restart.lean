import Espos.UsbStorage.Complete

-- When a file starts over: what its record says against what the card holds.

namespace Espos.UsbStorage

open Espos.Text Espos.Crash Espos.Crash.Prog Espos.Run

-- The file is still the one the record is of, and as long as it was. A record with a longer
-- head than this code writes is of no file, one without a head is of any.
def Progress.Fits (p : Progress) (content : List UInt8) : Prop :=
  p.offset ≤ content.length ∧ p.headLen ≤ content.length ∧ p.headLen ≤ kHeadLen ∧
    (0 < p.headLen → crc32 0 (content.take p.headLen) = p.headCrc)

instance (p : Progress) (content : List UInt8) : Decidable (p.Fits content) :=
  inferInstanceAs (Decidable (_ ∧ _))

-- The file is there, and its record is of another one.
def Replaced (path : Path) (p : Progress) (card : Card) : Prop :=
  ∃ content ∈ card.lookup path, ¬p.Fits content

instance (path : Path) (p : Progress) (card : Card) : Decidable (Replaced path p card) :=
  inferInstanceAs (Decidable (∃ _ ∈ _, _))

section View

variable {view : Card} {c : Call} {m : Met} {s : Site} {C : Call → Met → Site → Prop}

-- For as long as nothing has changed, the card is as the pass found it.
structure OnView (view : Card) (s : Site) : Prop where
  le : s.gen0 ≤ s.gen
  card : s.gen = s.gen0 → s.card = view

theorem OnView.meet (h : OnView view s) (m : Met) : OnView view (s.meet m) := by
  unfold Site.meet
  cases m.host with
  | none => exact h
  | some card =>
    have hle := h.le
    refine ⟨Nat.le_succ_of_le hle, ?_⟩
    intro hgen
    exact absurd hgen (Nat.ne_of_gt (Nat.lt_succ_of_le hle))

-- What an operation leaves besides what it is there for.
theorem act_site (c : Call) (m : Met) (s : Site) :
    (act c m s).2.gen = (s.meet m).gen ∧ (act c m s).2.gen0 = (s.meet m).gen0 ∧
      (act c m s).2.card = (s.meet m).card := by
  cases c with
  | unchanged | load name | paths => exact ⟨rfl, rfl, rfl⟩
  | save name p =>
    by_cases hok : (m.ok || m.kept) = true
    · simp only [act, if_pos hok, and_self]
    · simp only [act, if_neg hok, and_self]
  | _ =>
    by_cases hok : m.ok = true
    · simp only [act, if_pos hok, and_self]
    · simp only [act, if_neg hok, and_self]

theorem OnView.act (h : OnView view s) (c : Call) (m : Met) :
    OnView view (act c m s).2 := by
  obtain ⟨hgen, hgen0, hcard⟩ := act_site c m s
  have hmeet := h.meet m
  refine ⟨?_, ?_⟩
  · rw [hgen, hgen0]
    exact hmeet.le
  · rw [hgen, hgen0, hcard]
    exact hmeet.card

theorem meet_store (m : Met) : (s.meet m).store = s.store := by
  unfold Site.meet
  cases m.host with
  | none => rfl
  | some card => rfl

-- Where nothing has changed now, nothing had before.
theorem gen_of_unchanged (h : OnView view s) (hun : (act .unchanged m s).1 = true) :
    s.gen = s.gen0 := by
  have hend : (s.meet m).gen = (s.meet m).gen0 := eq_of_beq hun
  unfold Site.meet at hend
  cases hhost : m.host with
  | none =>
    rw [hhost] at hend
    exact hend
  | some card =>
    rw [hhost] at hend
    exact absurd hend (Nat.ne_of_gt (Nat.lt_succ_of_le h.le))

-- The read is of the view where the host has not written by the end of it.
theorem wp_readUnchanged (path : Path) (offset len : Nat) (h : OnView view s) :
    wp act C (fun _ => True) (readUnchanged path offset len) (fun reply s' => OnView view s' ∧
      s'.store = s.store ∧ s'.accepted = s.accepted ∧ ∀ data ∈ reply, s'.gen = s'.gen0 ∧
        ∃ content ∈ view.lookup path, offset + len ≤ content.length ∧
          data = (content.drop offset).take len) s := by
  refine (wp_bind _ _).mpr ⟨trivial, fun m _ => ?_⟩
  have hsite : (act (.read path offset len) m s).2 = s.meet m := act_read_site offset len m
  have hview := h.meet m
  cases hread : (act (.read path offset len) m s).1 with
  | none =>
    rw [hsite]
    exact ⟨hview, meet_store m, meet_accepted m, nofun⟩
  | some data =>
    rw [hsite]
    refine (wp_bind _ _).mpr ⟨trivial, fun m' _ => ?_⟩
    have hsite' : (act .unchanged m' (s.meet m)).2 = (s.meet m).meet m' := rfl
    have hview' := hview.meet m'
    have hstore : ((s.meet m).meet m').store = s.store :=
      (meet_store m').trans (meet_store m)
    have haccepted : ((s.meet m).meet m').accepted = s.accepted :=
      (meet_accepted m').trans (meet_accepted m)
    cases hun : (act .unchanged m' (s.meet m)).1 with
    | false =>
      rw [hsite']
      exact ⟨hview', hstore, haccepted, nofun⟩
    | true =>
      rw [hsite']
      refine ⟨hview', hstore, haccepted, ?_⟩
      intro data' hdata'
      obtain rfl := Option.some.inj hdata'
      have hend : ((s.meet m).meet m').gen = ((s.meet m).meet m').gen0 := eq_of_beq hun
      have hbegin := gen_of_unchanged hview hun
      obtain ⟨content, hcontent, hfits, hdata⟩ := act_read_some hread hbegin
      rw [hview.card hbegin] at hcontent
      exact ⟨hend, content, hcontent, hfits, hdata⟩

-- What a pass goes on from. Where `strict`, the store gives back what it holds.
theorem wp_resume (strict : Prop) {e : FileEntry} {content : List UInt8}
    (hC : ∀ m s, C (.load e.path) m s → strict → m.ok = true) (h : OnView view s)
    (hcontent : content ∈ view.lookup e.path) (hlen : content.length = e.size) :
    wp act C (fun _ => True) (resume e) (fun reply s' => OnView view s' ∧ s'.store = s.store ∧
      s'.accepted = s.accepted ∧ ∀ p restarted, reply = some (p, restarted) →
        (restarted = true → p = {} ∧ ∃ record ∈ s.store.lookup e.path, ¬record.Fits content) ∧
        (restarted = false → strict →
          ∀ record ∈ s.store.lookup e.path, record.Fits content)) s := by
  refine (wp_bind _ _).mpr ⟨trivial, fun m hm => ?_⟩
  have hview := h.meet m
  have hsite : (act (.load e.path) m s).2 = s.meet m := rfl
  have hreply : (act (.load e.path) m s).1 = if m.ok then s.store.lookup e.path else none := by
    rw [← meet_store m]
    rfl
  cases hload : (act (.load e.path) m s).1 with
  | none =>
    rw [hsite]
    refine ⟨hview, meet_store m, meet_accepted m, ?_⟩
    intro p restarted hreply'
    cases hreply'
    refine ⟨nofun, ?_⟩
    intro _ hstrict record hrecord
    rw [hreply, if_pos (hC m s hm hstrict), Option.mem_def.mp hrecord] at hload
    cases hload
  | some record =>
    have hstored : s.store.lookup e.path = some record := by
      rw [hreply] at hload
      by_cases hok : m.ok = true
      · rwa [if_pos hok] at hload
      · rw [if_neg hok] at hload
        cases hload
    have hsame {record' : Progress} (h' : record' ∈ s.store.lookup e.path) :
        record' = record := (Option.some.inj (hstored.symm.trans h')).symm
    rw [hsite]
    refine wp_ite _ (fun hsize => ?_) fun hsize => ?_
    · rw [← hlen] at hsize
      refine wp_ite _ (fun hhead => ?_) fun hhead => ?_
      · refine (wp_bind _ _).mpr (wp_mono ?_ (wp_readUnchanged e.path 0 _ hview))
        rintro reply s' ⟨hview', hstore, haccepted, hread⟩
        have hstore' := hstore.trans (meet_store m)
        have haccepted' := haccepted.trans (meet_accepted m)
        cases reply with
        | none => exact ⟨hview', hstore', haccepted', nofun⟩
        | some head =>
          obtain ⟨-, content', hcontent', -, hdata⟩ := hread head rfl
          obtain rfl := Option.some.inj (hcontent.symm.trans hcontent')
          rw [List.drop_zero] at hdata
          refine ⟨hview', hstore', haccepted', ?_⟩
          intro p restarted hresult
          by_cases hcrc : crc32 0 head = record.headCrc
          · rw [if_pos hcrc] at hresult
            cases hresult
            refine ⟨nofun, ?_⟩
            intro _ _ record' hrecord'
            rw [hsame hrecord']
            exact ⟨hsize.1, hsize.2.1, hsize.2.2, fun _ => hdata ▸ hcrc⟩
          · rw [if_neg hcrc] at hresult
            cases hresult
            refine ⟨fun _ => ⟨rfl, record, hstored, ?_⟩, nofun⟩
            intro hfits
            exact hcrc (hdata ▸ hfits.2.2.2 hhead)
      · refine ⟨hview, meet_store m, meet_accepted m, ?_⟩
        intro p restarted hresult
        cases hresult
        refine ⟨nofun, ?_⟩
        intro _ _ record' hrecord'
        rw [hsame hrecord']
        exact ⟨hsize.1, hsize.2.1, hsize.2.2, fun hpos => absurd hpos hhead⟩
    · rw [← hlen] at hsize
      refine ⟨hview, meet_store m, meet_accepted m, ?_⟩
      intro p restarted hresult
      cases hresult
      refine ⟨fun _ => ⟨rfl, record, hstored, ?_⟩, nofun⟩
      intro hfits
      exact hsize ⟨hfits.1, hfits.2.1, hfits.2.2.1⟩

end View

section Justified

variable {cfg : FollowerConfig} {view : Card} {s : Site}

-- A call that does not say a file was replaced.
def Call.goesOn (c : Call) : Prop :=
  ∀ chunk, c = .sink chunk → chunk.restarted = false

-- Where a call says so, at offset 0, the store's record is of another file.
def Justified (c : Call) (s : Site) : Prop :=
  ∀ chunk, c = .sink chunk → chunk.restarted = true →
    chunk.offset = 0 ∧ ∃ record ∈ s.store.lookup chunk.path, Replaced chunk.path record s.card

theorem Call.goesOn.justified {c : Call} (h : c.goesOn) (s : Site) : Justified c s := by
  intro chunk hc hrestarted
  rw [h chunk hc] at hrestarted
  cases hrestarted

theorem along_goesOn {α : Type} {p : Script α} (hp : p.Uses Call.goesOn) (es : List Met)
    (s : Site) : AlongOps act (fun c _ => Justified c) p es s :=
  alongOps_of_uses (C := fun _ _ _ => True) (I := fun _ => True) (fun _ _ _ _ _ _ => trivial)
    (fun _ _ _ hc _ => hc.justified _) hp trivial (alongOps_true _ _ _)

theorem goesOn_flush (o : Offer) (path : Path) : (o.flush path).Uses Call.goesOn :=
  uses_flush nofun

theorem goesOn_stop (o : Offer) (path : Path) : (o.stop path).Uses Call.goesOn :=
  uses_bind (goesOn_flush o path) fun _ => trivial

theorem goesOn_done (o : Offer) (path : Path) :
    (do
      let (ok, o) ← o.flush path
      pure (ok, o.r) : Script (Bool × PassResult)).Uses Call.goesOn :=
  uses_bind (goesOn_flush o path) fun _ => trivial

theorem goesOn_readUnchanged (path : Path) (offset len : Nat) :
    (readUnchanged path offset len).Uses Call.goesOn :=
  uses_readUnchanged nofun nofun

theorem ends_flush_restarted (o : Offer) (path : Path) :
    (o.flush path).Ends fun a => a.2.restarted = o.restarted := by
  unfold Offer.flush
  cases o.dirty with
  | false => exact rfl
  | true =>
    intro reply
    cases reply with
    | false => exact rfl
    | true => exact rfl

theorem goesOn_answered {e : FileEntry} {o : Offer} {data : List UInt8} {stop : Nat}
    {go : Offer → Script (Bool × PassResult)}
    (hgo : ∀ o, o.restarted = false → (go o).Uses Call.goesOn) (ok : Bool) :
    (if ok then do
      match ← headOf o e.path data stop with
      | none => o.interrupted.stop e.path
      | some next =>
        let o := o.advance next (stop - o.p.offset)
        if cfg.saveEvery ≤ o.p.offset - o.saved then
          let (ok, o) ← o.flush e.path
          if ok then go o else pure (false, o.r)
        else go o
    else o.refused.stop e.path : Script (Bool × PassResult)).Uses Call.goesOn := by
  refine uses_ite _ ?_ (goesOn_stop _ _)
  refine uses_bind (uses_headOf (fun _ => nofun) nofun) fun head => ?_
  cases head with
  | none => exact goesOn_stop _ _
  | some next =>
    refine uses_ite _ ?_ (hgo _ rfl)
    refine (goesOn_flush _ _).bind_of_ends (ends_flush_restarted _ _) fun a ha => ?_
    exact uses_ite _ (hgo _ ha) trivial

theorem goesOn_handOff (e : FileEntry) (recordSize limit fuel : Nat) {o : Offer}
    (ho : o.restarted = false) : (handOff cfg e recordSize limit fuel o).Uses Call.goesOn := by
  induction fuel generalizing o with
  | zero => exact goesOn_done o _
  | succ fuel ih =>
    refine uses_ite _ (goesOn_done o _) ?_
    refine uses_bind (goesOn_readUnchanged _ _ _) fun reply => ?_
    cases reply with
    | none => exact goesOn_stop _ _
    | some data =>
      have hsink : Call.goesOn (.sink ⟨e.path, o.p.offset, data, o.restarted⟩) := by
        intro chunk hchunk
        cases hchunk
        exact ho
      exact uses_bind (uses_perform hsink) fun ok => goesOn_answered (fun o => ih) ok

theorem along_handOff {e : FileEntry} {o : Offer} {content : List UInt8} {record : Progress}
    (h : OnView view s) (hcontent : content ∈ view.lookup e.path)
    (hrecord : record ∈ s.store.lookup e.path) (hnot : ¬record.Fits content)
    (hzero : o.p.offset = 0) (recordSize limit fuel : Nat) (es : List Met) :
    AlongOps act (fun c _ => Justified c) (handOff cfg e recordSize limit fuel o) es s := by
  cases fuel with
  | zero => exact along_goesOn (goesOn_done o _) es s
  | succ fuel =>
    simp only [handOff]
    by_cases hend : chunkEnd o.p.offset limit recordSize cfg.maxChunk ≤ o.p.offset
    · rw [if_pos hend]
      exact along_goesOn (goesOn_done o _) es s
    · rw [if_neg hend]
      refine AlongOps.bind (along_goesOn (goesOn_readUnchanged _ _ _) es s) ?_
      intro reply es' s' hrun
      obtain ⟨hview, hstore, -, hdata⟩ := post_of_exec (wp_readUnchanged e.path _ _ h) hrun
      cases reply with
      | none => exact along_goesOn (goesOn_stop _ _) es' s'
      | some data =>
        obtain ⟨hgen, -⟩ := hdata data rfl
        cases es' with
        | nil => trivial
        | cons m es' =>
          refine ⟨?_, ?_⟩
          · intro chunk hchunk _
            cases hchunk
            refine ⟨hzero, record, ?_, content, ?_, hnot⟩
            · rw [hstore]
              exact hrecord
            · rw [hview.card hgen]
              exact hcontent
          · exact along_goesOn (goesOn_answered (fun _ => goesOn_handOff _ _ _ _) _) es' _

theorem uses_true {α : Type} (p : Script α) : p.Uses fun _ => True := by
  induction p with
  | done a => trivial
  | op o k ih => exact ⟨trivial, ih⟩

theorem onView_exec {α : Type} {p : Script α} {a : α} {es es' : List Met} {s' : Site}
    (h : OnView view s) (hrun : p.exec act es s = (some a, es', s')) : OnView view s' := by
  have hwp : wp act (fun _ _ _ => True) (OnView view) p (fun _ => OnView view) s :=
    wp_of_uses (fun c m s _ _ h => h.act c m) (uses_true p) h
  exact post_of_exec (Q := fun _ s => OnView view s) hwp hrun

theorem along_followFile {e : FileEntry} {content : List UInt8} (h : OnView view s)
    (hcontent : content ∈ view.lookup e.path) (hlen : content.length = e.size)
    (recordSize : Nat) (nowMs : Int) (writeGen : Nat) (b : Pass) (es : List Met) :
    AlongOps act (fun c _ => Justified c) (followFile cfg e recordSize nowMs writeGen b) es s := by
  refine AlongOps.bind (along_goesOn (uses_resume nofun (fun _ => nofun) nofun) es s) ?_
  intro reply es' s' hrun
  have hresume : wp act (fun _ _ _ => True) (fun _ => True) (resume e) _ s :=
    wp_resume False (fun _ _ _ => False.elim) h hcontent hlen
  obtain ⟨hview, hstore, -, hfacts⟩ := post_of_exec hresume hrun
  cases reply with
  | none => trivial
  | some reply =>
    obtain ⟨p, restarted⟩ := reply
    refine AlongOps.bind ?_ fun _ _ _ _ => trivial
    cases restarted with
    | false => exact along_goesOn (goesOn_handOff _ _ _ _ rfl) es' s'
    | true =>
      obtain ⟨rfl, record, hrecord, hnot⟩ := (hfacts p true rfl).1 rfl
      exact along_handOff hview hcontent (hstore ▸ hrecord) hnot rfl _ _ _ es'

theorem along_followAll {w : Watch} {nowMs : Int} {writeGen : Nat} {entries : List FileEntry}
    {b : Pass} (h : OnView view s) (hentries : ∀ e ∈ entries, e ∈ view.list w.dir)
    (es : List Met) :
    AlongOps act (fun c _ => Justified c) (followAll cfg w nowMs writeGen entries b) es s := by
  induction entries generalizing b es s with
  | nil => trivial
  | cons e entries ih =>
    have hrest := fun e' he' => hentries e' (List.mem_cons_of_mem _ he')
    obtain ⟨-, content, hcontent, hlen⟩ := mem_list.mp (hentries e List.mem_cons_self)
    simp only [followAll]
    by_cases hsuf : suffixMatches e.path w.suffix = true
    · rw [if_pos hsuf]
      refine AlongOps.bind (along_followFile h hcontent hlen _ _ _ _ es) ?_
      rintro ⟨ok, b'⟩ es' s' hrun
      cases ok with
      | false => trivial
      | true => exact ih (onView_exec h hrun) hrest es'
    · rw [if_neg hsuf]
      exact ih h hrest es

-- A listing the host has not written during is of the view.
theorem wp_listUnchanged {C : Call → Met → Site → Prop} (h : OnView view s) (dir : CStr) :
    wp act C (fun _ => True) (listUnchanged dir)
      (fun reply s' => OnView view s' ∧ ∀ entries ∈ reply, entries = view.list dir) s := by
  refine (wp_bind _ _).mpr ⟨trivial, fun m _ => ?_⟩
  have hview := h.act (.list dir) m
  cases hlist : (act (.list dir) m s).1 with
  | none => exact ⟨hview, nofun⟩
  | some entries =>
    refine (wp_bind _ _).mpr ⟨trivial, fun m' _ => ?_⟩
    have hview' := hview.act .unchanged m'
    cases hun : (act .unchanged m' (act (.list dir) m s).2).1 with
    | false => exact ⟨hview', nofun⟩
    | true =>
      refine ⟨hview', ?_⟩
      intro entries' hentries'
      obtain rfl := Option.some.inj hentries'
      obtain ⟨hgen, hgen0, -⟩ := act_site (.list dir) m s
      have hbegin := gen_of_unchanged hview hun
      rw [hgen, hgen0] at hbegin
      by_cases hok : m.ok = true
      · simp only [act, if_pos hok, if_pos hbegin] at hlist
        rw [← Option.some.inj hlist, (h.meet m).card hbegin]
      · simp only [act, if_neg hok] at hlist
        cases hlist

theorem goesOn_listUnchanged (dir : CStr) : (listUnchanged dir).Uses Call.goesOn := by
  refine uses_bind (uses_perform nofun) fun reply => ?_
  cases reply with
  | none => trivial
  | some entries => exact uses_bind (uses_perform nofun) fun b => uses_ite _ trivial trivial

theorem along_watchAll {nowMs : Int} {writeGen : Nat} {ws : List Watch} {b : Pass}
    (h : OnView view s) (es : List Met) :
    AlongOps act (fun c _ => Justified c) (watchAll cfg nowMs writeGen ws b) es s := by
  induction ws generalizing b es s with
  | nil => trivial
  | cons w ws ih =>
    refine AlongOps.bind (along_goesOn (goesOn_listUnchanged w.dir) es s) ?_
    intro reply es' s' hrun
    obtain ⟨hview, hentries⟩ := post_of_exec (wp_listUnchanged h w.dir) hrun
    cases reply with
    | none => trivial
    | some entries =>
      obtain rfl := hentries entries rfl
      have hmem : ∀ e ∈ (view.list w.dir).insertionSort (byPath · ·), e ∈ view.list w.dir :=
        fun e he => (List.perm_insertionSort _ _).mem_iff.mp he
      refine AlongOps.bind (along_followAll hview hmem es') ?_
      rintro ⟨ok, b'⟩ es'' s'' hrun'
      cases ok with
      | false => trivial
      | true => exact ih (onView_exec hview hrun') es''

theorem goesOn_prune (present : List Path) : (prune present).Uses Call.goesOn :=
  uses_prune nofun fun _ _ herase => by cases herase

theorem along_pass (n : Node) (nowMs : Int) (es : List Met) :
    AlongOps act (fun c _ => Justified c) (n.pass cfg nowMs) es n.site.view := by
  have hview : OnView n.site.card n.site.view := ⟨Nat.le_refl _, fun _ => rfl⟩
  refine AlongOps.bind (along_watchAll hview es) ?_
  rintro ⟨ok, b⟩ es' s' -
  cases ok with
  | false => trivial
  | true =>
    have hrest : ∀ same : Bool, (if same then do
        prune b.present
        pure ({ b.r with complete := !b.pending },
          fun path => if b.present.contains path then b.seen path else none)
        else pure ({ b.r with interrupted := true }, b.seen) :
          Script (PassResult × SeenMap)).Uses Call.goesOn :=
      fun same => uses_ite _ (uses_bind (goesOn_prune _) fun _ => trivial) trivial
    exact along_goesOn (uses_bind (uses_perform (o := .unchanged) nofun) hrest) es' s'

end Justified

section Waits

variable {cfg : FollowerConfig} {path : Path} {record : Progress} {before : List Handed}
  {view : Card} {s : Site}

-- The first chunk of the file that was accepted since, at its start.
def Begun (path : Path) (before : List Handed) (s : Site) : Prop :=
  ∃ news, s.accepted = news ++ before ∧
    ∃ h, (news.filter fun h => h.chunk.path = path).getLast? = some h ∧
      h.chunk.offset = 0 ∧ h.chunk.restarted = true

-- No chunk of the file was accepted since, and the store's record is the old one.
structure Waits (cfg : FollowerConfig) (path : Path) (record : Progress) (before : List Handed)
    (s : Site) : Prop where
  card : Replaced path record s.card
  store : (∃ w ∈ cfg.watches, w.covers path) → s.store.lookup path = some record
  fresh : ∃ news, s.accepted = news ++ before ∧ ∀ h ∈ news, h.chunk.path ≠ path

def StartsOver (cfg : FollowerConfig) (path : Path) (record : Progress) (before : List Handed)
    (s : Site) : Prop :=
  Waits cfg path record before s ∨ Begun path before s

-- The host leaves a file that is not the record's, and the store gives the record back.
def StaysReplaced (path : Path) (record : Progress) (c : Call) (m : Met) (_ : Site) : Prop :=
  (∀ card ∈ m.host, Replaced path record card) ∧ (c = .load path → m.ok = true)

instance (path : Path) (record : Progress) (c : Call) (m : Met) (s : Site) :
    Decidable (StaysReplaced path record c m s) :=
  have : Decidable (c = .load path) := by
    cases c with
    | load name => exact decidable_of_iff (name = path) (by simp)
    | _ => exact .isFalse nofun
  inferInstanceAs (Decidable (_ ∧ _))

-- A call that has nothing to do with the file, as long as a watch covers it.
def Call.apart (cfg : FollowerConfig) (path : Path) : Call → Prop
  | .sink chunk => chunk.path ≠ path
  | .save name _ => name ≠ path
  | .erase name => (∃ w ∈ cfg.watches, w.covers path) → name ≠ path
  | _ => True

theorem act_accepted (c : Call) (m : Met) (s : Site) :
    (act c m s).2.accepted = s.accepted ∨
      ∃ chunk, c = .sink chunk ∧ m.ok = true ∧
        (act c m s).2.accepted = ⟨chunk, (s.meet m).card.lookup chunk.path⟩ :: s.accepted := by
  have hmeet := meet_accepted m (s := s)
  cases c with
  | unchanged | load name | paths => exact .inl hmeet
  | save name p =>
    by_cases hok : (m.ok || m.kept) = true
    · simp only [act, if_pos hok]
      exact .inl hmeet
    · simp only [act, if_neg hok]
      exact .inl hmeet
  | sink chunk =>
    by_cases hok : m.ok = true
    · simp only [act, if_pos hok]
      exact .inr ⟨chunk, rfl, hok, by rw [hmeet]⟩
    · simp only [act, if_neg hok]
      exact .inl hmeet
  | _ =>
    by_cases hok : m.ok = true
    · simp only [act, if_pos hok]
      exact .inl hmeet
    · simp only [act, if_neg hok]
      exact .inl hmeet

theorem begun_act (h : Begun path before s) (c : Call) (m : Met) :
    Begun path before (act c m s).2 := by
  obtain ⟨news, hnews, first, hfirst, hstart⟩ := h
  rcases act_accepted c m s with hsame | ⟨chunk, -, -, hmore⟩
  · exact ⟨news, hsame.trans hnews, first, hfirst, hstart⟩
  · refine ⟨_ :: news, by rw [hmore, hnews, List.cons_append], first, ?_, hstart⟩
    rw [List.filter_cons]
    by_cases hpath : chunk.path = path
    · rw [if_pos (by simpa using hpath), List.getLast?_cons, hfirst]
      rfl
    · rw [if_neg (by simpa using hpath)]
      exact hfirst

theorem meet_card_replaced {c : Call} {m : Met} (hm : StaysReplaced path record c m s)
    (h : Replaced path record s.card) : Replaced path record (s.meet m).card := by
  unfold Site.meet
  cases hhost : m.host with
  | none => exact h
  | some card => exact hm.1 card hhost

theorem waits_act {c : Call} {m : Met} (hc : c.apart cfg path)
    (hm : StaysReplaced path record c m s) (h : Waits cfg path record before s) :
    Waits cfg path record before (act c m s).2 := by
  refine ⟨?_, ?_, ?_⟩
  · rw [(act_site c m s).2.2]
    exact meet_card_replaced hm h.card
  · intro hcov
    have hstore := h.store hcov
    rw [← meet_store m] at hstore
    cases c with
    | save name p =>
      by_cases hok : (m.ok || m.kept) = true
      · simp only [act, if_pos hok]
        rw [AList.lookup_insert_ne (Ne.symm hc)]
        exact hstore
      · simp only [act, if_neg hok]
        exact hstore
    | erase name =>
      by_cases hok : m.ok = true
      · simp only [act, if_pos hok]
        rw [AList.lookup_erase_ne (Ne.symm (hc hcov))]
        exact hstore
      · simp only [act, if_neg hok]
        exact hstore
    | unchanged | load name | paths => exact hstore
    | _ =>
      by_cases hok : m.ok = true
      · simp only [act, if_pos hok]
        exact hstore
      · simp only [act, if_neg hok]
        exact hstore
  · obtain ⟨news, hnews, hother⟩ := h.fresh
    rcases act_accepted c m s with hsame | ⟨chunk, rfl, -, hmore⟩
    · exact ⟨news, hsame.trans hnews, hother⟩
    · refine ⟨_ :: news, by rw [hmore, hnews, List.cons_append], ?_⟩
      intro h' hh'
      rcases List.mem_cons.mp hh' with rfl | hold
      · exact hc
      · exact hother h' hold

theorem begun_sink {chunk : Chunk} {m : Met} (h : Waits cfg path record before s)
    (hpath : chunk.path = path) (hzero : chunk.offset = 0) (hrestarted : chunk.restarted = true)
    (hok : m.ok = true) : Begun path before (act (.sink chunk) m s).2 := by
  obtain ⟨news, hnews, hother⟩ := h.fresh
  let first : Handed := ⟨chunk, (s.meet m).card.lookup chunk.path⟩
  refine ⟨first :: news, ?_, first, ?_, hzero, hrestarted⟩
  · simp only [act, if_pos hok, meet_accepted, hnews, List.cons_append, first]
  · have hnone : news.filter (fun h => h.chunk.path = path) = [] := by
      apply List.filter_eq_nil_iff.mpr
      intro h' hh'
      simpa using hother h' hh'
    rw [List.filter_cons, if_pos (by simpa using hpath), hnone]
    rfl

-- A script of the pass where the file stays replaced, with what holds at every cut.
abbrev throughout (cfg : FollowerConfig) (path : Path) (record : Progress) (before : List Handed)
    {α : Type} (p : Script α) (Q : α → Site → Prop) (s : Site) : Prop :=
  wp act (StaysReplaced path record) (StartsOver cfg path record before) p Q s

theorem over_of_begun {α : Type} {p : Script α} (h : Begun path before s) :
    throughout cfg path record before p (fun _ => Begun path before) s :=
  wp_crash_mono (fun _ h => .inr h)
    (wp_of_uses (fun c m _ _ _ h => begun_act h c m) (uses_true p) h)

theorem over_of_apart {α : Type} {p : Script α} (hp : p.Uses (Call.apart cfg path))
    (h : Waits cfg path record before s) (hview : OnView view s) :
    throughout cfg path record before p
      (fun _ s' => Waits cfg path record before s' ∧ OnView view s') s := by
  refine wp_crash_mono (fun _ h => .inl h.1) (wp_of_uses ?_ hp ⟨h, hview⟩)
  intro c m _ hc hm h
  exact ⟨waits_act hc hm h.1, h.2.act c m⟩

-- What the parts of a pass lead to.
def Onwards (cfg : FollowerConfig) (path : Path) (record : Progress) (before : List Handed)
    (view : Card) (s : Site) : Prop :=
  Waits cfg path record before s ∧ OnView view s ∨ Begun path before s

theorem Onwards.startsOver (h : Onwards cfg path record before view s) :
    StartsOver cfg path record before s :=
  h.imp And.left id

-- Nothing is saved before a chunk is accepted.
theorem over_done {o : Offer} {name : Path} (hclean : o.dirty = false)
    (h : Onwards cfg path record before view s) :
    throughout cfg path record before
      (do
        let (ok, o) ← o.flush name
        pure (ok, o.r) : Script (Bool × PassResult))
      (fun _ => Onwards cfg path record before view) s := by
  simp only [Offer.flush, hclean]
  exact h

theorem over_stop {o : Offer} {name : Path} (hclean : o.dirty = false)
    (h : Onwards cfg path record before view s) :
    throughout cfg path record before (o.stop name)
      (fun _ => Onwards cfg path record before view) s := by
  simp only [Offer.stop, Offer.flush, hclean]
  exact h

theorem apart_readUnchanged (name : Path) (offset len : Nat) :
    (readUnchanged name offset len).Uses (Call.apart cfg path) :=
  uses_readUnchanged trivial trivial

theorem over_handOff {e : FileEntry} {o : Offer} (he : e.path = path)
    (h : Waits cfg path record before s) (hview : OnView view s) (hzero : o.p.offset = 0)
    (hrestarted : o.restarted = true) (hclean : o.dirty = false) (recordSize limit fuel : Nat) :
    throughout cfg path record before (handOff cfg e recordSize limit fuel o)
      (fun _ => Onwards cfg path record before view) s := by
  cases fuel with
  | zero => exact over_done hclean (.inl ⟨h, hview⟩)
  | succ fuel =>
    refine wp_ite _ (fun _ => over_done hclean (.inl ⟨h, hview⟩)) fun _ => ?_
    refine (wp_bind _ _).mpr (wp_mono ?_ (over_of_apart (apart_readUnchanged _ _ _) h hview))
    rintro reply s' ⟨h', hview'⟩
    cases reply with
    | none => exact over_stop hclean (.inl ⟨h', hview'⟩)
    | some data =>
      refine (wp_bind _ _).mpr ⟨.inl h', fun m hm => ?_⟩
      by_cases hok : m.ok = true
      · have hbegun : Begun path before
            (act (.sink ⟨e.path, o.p.offset, data, o.restarted⟩) m s').2 :=
          begun_sink h' he hzero hrestarted hok
        change throughout cfg path record before (ite _ _ _) _ _
        exact wp_mono (fun _ _ h => .inr h) (over_of_begun hbegun)
      · have hsite : (act (.sink ⟨e.path, o.p.offset, data, o.restarted⟩) m s').2 =
            (act .unchanged m s').2 := by
          simp only [act, if_neg hok]
        have hreply : (act (.sink ⟨e.path, o.p.offset, data, o.restarted⟩) m s').1 =
            false := Bool.eq_false_iff.mpr hok
        rw [hsite, hreply]
        have hstill := waits_act (c := .unchanged) trivial ⟨hm.1, nofun⟩ h'
        exact over_stop hclean (.inl ⟨hstill, hview'.act .unchanged m⟩)

theorem over_followFile {e : FileEntry} {content : List UInt8}
    (hcontent : content ∈ view.lookup path) (hnot : ¬record.Fits content)
    (hlisted : e.path = path → content.length = e.size ∧ ∃ w ∈ cfg.watches, w.covers path)
    (h : Onwards cfg path record before view s) (recordSize : Nat) (nowMs : Int) (writeGen : Nat)
    (b : Pass) :
    throughout cfg path record before (followFile cfg e recordSize nowMs writeGen b)
      (fun _ => Onwards cfg path record before view) s := by
  rcases h with ⟨h, hview⟩ | hbegun
  · by_cases he : e.path = path
    · obtain ⟨hlen, hcov⟩ := hlisted he
      have hapart : (resume e).Uses (Call.apart cfg path) :=
        uses_resume trivial (fun _ => trivial) trivial
      have hresume := wp_resume (C := StaysReplaced path record) True
        (fun m s hm _ => hm.2 (congrArg _ he)) hview (he ▸ hcontent) hlen
      refine (wp_bind _ _).mpr (wp_crash_mono (fun _ h => h.1)
        (wp_mono ?_ (wp_and (over_of_apart hapart h hview) hresume)))
      rintro reply s' ⟨⟨h', hview'⟩, -, -, -, hfacts⟩
      cases reply with
      | none => exact .inl ⟨h', hview'⟩
      | some reply =>
        obtain ⟨p, restarted⟩ := reply
        cases restarted with
        | false =>
          have hfits := (hfacts p false rfl).2 rfl trivial record (by
            rw [he]
            exact h.store hcov)
          exact absurd hfits hnot
        | true =>
          obtain ⟨rfl, -⟩ := (hfacts p true rfl).1 rfl
          refine (wp_bind _ _).mpr (wp_mono ?_
            (over_handOff he h' hview' rfl rfl rfl recordSize _ _))
          exact fun _ _ h => h
    · have hapart : (followFile cfg e recordSize nowMs writeGen b).Uses (Call.apart cfg path) :=
        uses_followFile trivial (fun _ => he) (fun _ _ _ => he) (fun _ _ => trivial) trivial
          _ _ _ _
      exact wp_mono (fun _ _ h => .inl h) (over_of_apart hapart h hview)
  · exact wp_mono (fun _ _ h => .inr h) (over_of_begun hbegun)

theorem over_followAll {w : Watch} {nowMs : Int} {writeGen : Nat} {entries : List FileEntry}
    {b : Pass} {content : List UInt8} (hw : w ∈ cfg.watches)
    (hcontent : content ∈ view.lookup path) (hnot : ¬record.Fits content)
    (hentries : ∀ e ∈ entries, e ∈ view.list w.dir)
    (h : Onwards cfg path record before view s) :
    throughout cfg path record before (followAll cfg w nowMs writeGen entries b)
      (fun _ => Onwards cfg path record before view) s := by
  induction entries generalizing b s with
  | nil => exact h
  | cons e entries ih =>
    have hrest := fun e' he' => hentries e' (List.mem_cons_of_mem _ he')
    obtain ⟨hdir, content', hcontent', hlen⟩ := mem_list.mp (hentries e List.mem_cons_self)
    refine wp_ite _ (fun hsuf => ?_) fun _ => ih hrest h
    have hlisted : e.path = path → content.length = e.size ∧
        ∃ w ∈ cfg.watches, w.covers path := by
      rintro rfl
      obtain rfl := Option.some.inj (hcontent.symm.trans hcontent')
      exact ⟨hlen, w, hw, Bool.and_eq_true_iff.mpr ⟨hdir, hsuf⟩⟩
    refine (wp_bind _ _).mpr
      (wp_mono ?_ (over_followFile hcontent hnot hlisted h _ _ _ _))
    rintro ⟨ok, b'⟩ s' h'
    cases ok with
    | false => exact h'
    | true => exact ih hrest h'

end Waits

section Present

variable {cfg : FollowerConfig}

theorem ends_followFile_present (e : FileEntry) (recordSize : Nat) (nowMs : Int) (writeGen : Nat)
    (b : Pass) :
    (followFile cfg e recordSize nowMs writeGen b).Ends fun a => a.2.present = b.present := by
  refine ends_bind fun reply => ?_
  cases reply with
  | none => exact rfl
  | some reply => exact ends_bind fun _ => rfl

theorem ends_followAll_present (w : Watch) (nowMs : Int) (writeGen : Nat)
    (entries : List FileEntry) (b : Pass) :
    (followAll cfg w nowMs writeGen entries b).Ends fun a => b.present ⊆ a.2.present ∧
      (a.1 = true → ∀ e ∈ entries, suffixMatches e.path w.suffix = true →
        e.path ∈ a.2.present) := by
  induction entries generalizing b with
  | nil => exact ⟨List.Subset.refl _, fun _ => nofun⟩
  | cons e entries ih =>
    simp only [followAll]
    by_cases hsuf : suffixMatches e.path w.suffix = true
    · rw [if_pos hsuf]
      refine (ends_followFile_present _ _ _ _ _).bind ?_
      rintro ⟨ok, b'⟩ (hpresent : b'.present = e.path :: b.present)
      cases ok with
      | false =>
        refine ⟨?_, nofun⟩
        rw [hpresent]
        exact List.subset_cons_self _ _
      | true =>
        refine (ih b').imp ?_
        rintro a ⟨hsub, hall⟩
        rw [hpresent] at hsub
        refine ⟨fun p hp => hsub (List.mem_cons_of_mem _ hp), ?_⟩
        intro hok e' he' hsuf'
        rcases List.mem_cons.mp he' with rfl | he'
        · exact hsub List.mem_cons_self
        · exact hall hok e' he' hsuf'
    · rw [if_neg hsuf]
      refine (ih b).imp ?_
      rintro a ⟨hsub, hall⟩
      refine ⟨hsub, ?_⟩
      intro hok e' he' hsuf'
      rcases List.mem_cons.mp he' with rfl | he'
      · exact absurd hsuf' hsuf
      · exact hall hok e' he' hsuf'

theorem ends_watchAll_present (nowMs : Int) (writeGen : Nat) (ws : List Watch) (b : Pass) :
    (watchAll cfg nowMs writeGen ws b).Ends fun a => b.present ⊆ a.2.present := by
  induction ws generalizing b with
  | nil => exact List.Subset.refl _
  | cons w ws ih =>
    refine ends_bind fun reply => ?_
    cases reply with
    | none => exact List.Subset.refl _
    | some entries =>
      refine (ends_followAll_present _ _ _ _ _).bind ?_
      rintro ⟨ok, b'⟩ ⟨hsub, -⟩
      cases ok with
      | false => exact hsub
      | true =>
        refine (ih b').imp ?_
        exact fun a h => List.Subset.trans hsub h

end Present

section Passes

variable {cfg : FollowerConfig} {path : Path} {record : Progress} {before : List Handed}
  {view : Card} {s : Site} {content : List UInt8}

-- A pass over the watches goes on with the file noted, if one of them covers it.
theorem over_watchAll {nowMs : Int} {writeGen : Nat} {ws : List Watch} {b : Pass}
    (hws : ∀ w ∈ ws, w ∈ cfg.watches) (hcontent : content ∈ view.lookup path)
    (hnot : ¬record.Fits content) (h : Onwards cfg path record before view s) :
    throughout cfg path record before (watchAll cfg nowMs writeGen ws b) (fun a s' =>
      Onwards cfg path record before view s' ∧ (Begun path before s' ∨
        (a.1 = true → ∀ w ∈ ws, w.covers path → path ∈ a.2.present))) s := by
  induction ws generalizing b s with
  | nil => exact ⟨h, .inr fun _ => nofun⟩
  | cons w ws ih =>
    rcases h with ⟨h, hview⟩ | hbegun
    · have hapart : (listUnchanged w.dir).Uses (Call.apart cfg path) := by
        refine uses_bind (uses_perform trivial) fun reply => ?_
        cases reply with
        | none => trivial
        | some entries =>
          exact uses_bind (uses_perform trivial) fun b => uses_ite _ trivial trivial
      refine (wp_bind _ _).mpr (wp_crash_mono (fun _ h => h.1)
        (wp_mono ?_ (wp_and (over_of_apart hapart h hview) (wp_listUnchanged hview w.dir))))
      rintro reply s₁ ⟨⟨h₁, hview₁⟩, -, hentries⟩
      cases reply with
      | none => exact ⟨.inl ⟨h₁, hview₁⟩, .inr nofun⟩
      | some entries =>
        obtain rfl := hentries entries rfl
        have hmem {e : FileEntry} : e ∈ (view.list w.dir).insertionSort (byPath · ·) ↔
            e ∈ view.list w.dir := (List.perm_insertionSort _ _).mem_iff
        refine (wp_bind _ _).mpr (wp_mono ?_ (wp_and_ends (ends_followAll_present _ _ _ _ _)
          (over_followAll (hws w List.mem_cons_self) hcontent hnot
            (fun e he => hmem.mp he) (.inl ⟨h₁, hview₁⟩))))
        rintro ⟨ok, b₁⟩ s₂ ⟨h₂, -, hall⟩
        cases ok with
        | false => exact ⟨h₂, .inr nofun⟩
        | true =>
          refine wp_mono ?_ (wp_and_ends (ends_watchAll_present nowMs writeGen ws b₁)
            (ih (fun w hw => hws w (List.mem_cons_of_mem _ hw)) h₂))
          rintro a s₃ ⟨⟨h₃, hnoted⟩, hsub⟩
          refine ⟨h₃, hnoted.imp id fun hrest => ?_⟩
          intro hok w' hw' hcov
          rcases List.mem_cons.mp hw' with rfl | hw'
          · obtain ⟨hdir, hsuf⟩ := Bool.and_eq_true_iff.mp hcov
            have hentry : (⟨path, content.length⟩ : FileEntry) ∈ view.list w'.dir :=
              mem_list.mpr ⟨hdir, content, hcontent, rfl⟩
            exact hsub (hall rfl _ (hmem.mpr hentry) hsuf)
          · exact hrest hok w' hw' hcov
    · refine wp_mono ?_ (over_of_begun hbegun)
      exact fun _ _ h => ⟨.inr h, .inl h⟩

theorem apart_prune {present : List Path}
    (hpresent : (∃ w ∈ cfg.watches, w.covers path) → path ∈ present) :
    (prune present).Uses (Call.apart cfg path) := by
  refine uses_bind (uses_perform trivial) fun paths => uses_foldlM ?_ () paths
  intro _ name
  by_cases hname : present.contains name = true
  · rw [if_pos hname]
    trivial
  · rw [if_neg hname]
    refine uses_perform fun hcov => ?_
    rintro rfl
    exact hname (List.contains_iff_mem.mpr (hpresent hcov))

theorem over_pass (n : Node) (nowMs : Int) (hstart : StartsOver cfg path record before n.site) :
    throughout cfg path record before (n.pass cfg nowMs)
      (fun _ => StartsOver cfg path record before) n.site.view := by
  have hview : OnView n.site.card n.site.view := ⟨Nat.le_refl _, fun _ => rfl⟩
  rcases hstart with hwaits | hbegun
  · obtain ⟨content, hcontent, hnot⟩ := hwaits.card
    have hwaits' : Waits cfg path record before n.site.view :=
      ⟨hwaits.card, hwaits.store, hwaits.fresh⟩
    refine (wp_bind _ _).mpr (wp_mono ?_
      (over_watchAll (fun _ hw => hw) hcontent hnot (.inl ⟨hwaits', hview⟩)))
    rintro ⟨ok, b⟩ s' ⟨hon, hnoted⟩
    cases ok with
    | false => exact hon.startsOver
    | true =>
      rcases hon with ⟨h', hview'⟩ | hbegun
      · rcases hnoted with hbegun | hnoted
        · exact wp_mono (fun _ _ h => .inr h) (over_of_begun hbegun)
        · have hpresent : (∃ w ∈ cfg.watches, w.covers path) → path ∈ b.present := by
            rintro ⟨w, hw, hcov⟩
            exact hnoted rfl w hw hcov
          refine (wp_bind _ _).mpr ⟨.inl h', fun m hm => ?_⟩
          have h'' := waits_act (c := .unchanged) trivial hm h'
          refine wp_ite _ (fun _ => ?_) fun _ => .inl h''
          refine (wp_bind _ _).mpr (wp_mono ?_
            (over_of_apart (apart_prune hpresent) h'' (hview'.act .unchanged m)))
          exact fun _ _ h => .inl h.1
      · exact wp_mono (fun _ _ h => .inr h) (over_of_begun hbegun)
  · exact wp_mono (fun _ _ h => .inr h) (over_of_begun (s := n.site.view) hbegun)

-- The host's writes leave a file that is not the record's.
def KeepsReplaced (cfg : FollowerConfig) (path : Path) (record : Progress) (n : Node) :
    Event → Prop
  | .pass nowMs mets =>
    Prog.AlongOps act (StaysReplaced path record) (n.pass cfg nowMs) mets n.site.view
  | .host card => Replaced path record card
  | .reboot => True

instance (cfg : FollowerConfig) (path : Path) (record : Progress) (n : Node) :
    (e : Event) → Decidable (KeepsReplaced cfg path record n e)
  | .pass _ _ => inferInstanceAs (Decidable (Prog.AlongOps _ _ _ _ _))
  | .host _ => inferInstanceAs (Decidable (Replaced _ _ _))
  | .reboot => .isTrue trivial

theorem startsOver_step {n : Node} {e : Event} (h : StartsOver cfg path record before n.site)
    (he : KeepsReplaced cfg path record n e) :
    StartsOver cfg path record before (step cfg n e).site := by
  cases e with
  | pass nowMs mets =>
    obtain ⟨hdone, hcut⟩ := exec_of_wp (over_pass n nowMs h) he
    simp only [step]
    rcases hexec : (n.pass cfg nowMs).exec act mets n.site.view with ⟨_ | ⟨r, seen⟩, left, s⟩
    · rw [hexec] at hcut
      exact hcut rfl
    · rw [hexec] at hdone
      exact hdone _ rfl
  | host card =>
    rcases h with hwaits | hbegun
    · exact .inl ⟨he, hwaits.store, hwaits.fresh⟩
    · exact .inr hbegun
  | reboot => exact h

end Passes

theorem replaced_starts_over (cfg : FollowerConfig) (n : Node) :
    (∀ (path : Path) (record : Progress) (es : List Event), Replaced path record n.site.card →
      n.site.store.lookup path = some record →
      Along (step cfg) (KeepsReplaced cfg path record) n es →
      ∃ news, (run (step cfg) n es).site.accepted = news ++ n.site.accepted ∧
        ∀ h, (news.filter fun h => h.chunk.path = path).getLast? = some h →
          h.chunk.offset = 0 ∧ h.chunk.restarted = true) ∧
    ∀ (nowMs : Int) (mets : List Met), Prog.AlongOps act (fun c _ s => ∀ chunk, c = .sink chunk →
      chunk.restarted = true → chunk.offset = 0 ∧
        ∃ record ∈ s.store.lookup chunk.path, Replaced chunk.path record s.card)
      (n.pass cfg nowMs) mets n.site.view := by
  refine ⟨?_, along_pass n⟩
  intro path record es hreplaced hstored hes
  have hinit : StartsOver cfg path record n.site.accepted n.site :=
    .inl ⟨hreplaced, fun _ => hstored, [], rfl, nofun⟩
  have hend := run_invariant_of_along (P := fun n' => StartsOver cfg path record n.site.accepted
    n'.site) (fun _ _ => startsOver_step) hinit hes
  rcases hend with hwaits | ⟨news, hnews, first, hfirst, hstart⟩
  · obtain ⟨news, hnews, hother⟩ := hwaits.fresh
    refine ⟨news, hnews, ?_⟩
    intro h hh
    have hmem := List.mem_of_getLast? hh
    rw [List.mem_filter] at hmem
    exact absurd (of_decide_eq_true hmem.2) (hother h hmem.1)
  · refine ⟨news, hnews, ?_⟩
    intro h hh
    obtain rfl := Option.some.inj (hfirst.symm.trans hh)
    exact hstart

def logNode (content : List UInt8) (record : Progress) : Node :=
  { site := { card := logCard content, store := AList.insert logFile record ∅ } }

def nine : List UInt8 := [1, 2, 3, 4, 5, 6, 7, 8, 9]

-- The sink refuses, the power goes while the chunk is offered again, the host rewrites the
-- file, and the chunk is accepted.
def refusedRun : List Event :=
  [.pass 0 (fine 9), .pass 20 (fine 6 ++ [{ ok := false }]), .pass 30 (fine 6), .reboot,
    .host (logCard [9, 2, 3, 4, 5, 6, 7, 8, 9]), .pass 0 (fine 9), .pass 20 (fine 30)]

theorem replaced_starts_over_log :
    ∃ news,
      (run (step logConfig) (logNode nine ⟨3, 3, 7⟩) refusedRun).site.accepted = news ++ [] ∧
      ∀ h, (news.filter fun h => h.chunk.path = logFile).getLast? = some h →
        h.chunk.offset = 0 ∧ h.chunk.restarted = true :=
  (replaced_starts_over logConfig (logNode nine ⟨3, 3, 7⟩)).1 logFile ⟨3, 3, 7⟩ refusedRun
    (by decide +kernel) (by decide +kernel) (by decide +kernel)

def settledRun : List Event :=
  [.pass 0 (fine 9), .pass 20 (fine 30)]

-- A record without a head is of any file, and one with a longer head than `kHeadLen` of none.
theorem headless_goes_on :
    (crc32 0 (nine.take 0) ≠ 5 ∧
      (run (step logConfig) (logNode nine ⟨3, 0, 5⟩) settledRun).site.accepted.map Handed.chunk =
        [⟨logFile, 6, [7, 8, 9], false⟩, ⟨logFile, 3, [4, 5, 6], false⟩]) ∧
    ∃ (content : List UInt8) (record : Progress) (chunk : Chunk),
      content.length = 40 ∧ record.offset ≤ 40 ∧ record.headLen ≤ 40 ∧
        crc32 0 (content.take record.headLen) = record.headCrc ∧
        (run (step logConfig) (logNode content record) settledRun).site.accepted.getLast?.map
          Handed.chunk = some chunk ∧ chunk.restarted = true := by
  refine ⟨⟨by decide, by decide +kernel⟩, ?_⟩
  refine ⟨List.replicate 40 0, ⟨3, 33, crc32 0 (List.replicate 33 0)⟩,
    ⟨logFile, 0, [0, 0, 0], true⟩, rfl, ?_⟩
  decide +kernel

end Espos.UsbStorage
