import Espos.UsbStorage.NoGap

-- What a pass keeps, call by call, for a file the host only appends to.

namespace Espos.UsbStorage

open Espos.Text Espos.Crash Espos.Crash.Prog Espos.Run

section Later

variable {path : Path}

theorem Appended.refl (card : Card) : Appended path card card :=
  fun content hcontent => ⟨content, hcontent, List.prefix_refl content⟩

theorem Appended.trans {card card' card'' : Card} (h : Appended path card card')
    (h' : Appended path card' card'') : Appended path card card'' := by
  intro content hcontent
  obtain ⟨content', hcontent', hpre⟩ := h content hcontent
  obtain ⟨content'', hcontent'', hpre'⟩ := h' content' hcontent'
  exact ⟨content'', hcontent'', hpre.trans hpre'⟩

-- What no call undoes.
structure Later (path : Path) (s s' : Site) : Prop where
  accepted : s.accepted <:+ s'.accepted
  gen0 : s'.gen0 = s.gen0
  gen : s.gen ≤ s'.gen
  same : s'.gen = s.gen → s'.card = s.card
  appended : Appended path s.card s'.card

theorem Later.refl (s : Site) : Later path s s :=
  ⟨List.suffix_refl _, rfl, Nat.le_refl _, fun _ => rfl, .refl _⟩

theorem Later.trans {s s' s'' : Site} (h : Later path s s') (h' : Later path s' s'') :
    Later path s s'' where
  accepted := h.accepted.trans h'.accepted
  gen0 := h'.gen0.trans h.gen0
  gen := h.gen.trans h'.gen
  same := by
    intro hgen
    have hle := h.gen
    have hle' := h'.gen
    have hsame' := h'.same (by omega)
    exact hsame'.trans (h.same (by omega))
  appended := h.appended.trans h'.appended

theorem later_meet {c : Call} {m : Met} {s : Site} (hm : MetAppends path c m s) :
    Later path s (s.meet m) := by
  unfold Site.meet
  cases hhost : m.host with
  | none => exact .refl s
  | some card =>
    refine ⟨List.suffix_refl _, rfl, Nat.le_succ _, ?_, hm card hhost⟩
    intro hgen
    exact absurd hgen (Nat.succ_ne_self _)

theorem later_act {c : Call} {m : Met} {s : Site} (hm : MetAppends path c m s) :
    Later path s (act c m s).2 := by
  have hmeet := later_meet hm
  cases c with
  | list dir =>
    by_cases hok : m.ok = true
    · simp only [act, if_pos hok]
      exact ⟨hmeet.accepted, hmeet.gen0, hmeet.gen, hmeet.same, hmeet.appended⟩
    · simp only [act, if_neg hok]
      exact hmeet
  | read name offset len =>
    by_cases hok : m.ok = true
    · simp only [act, if_pos hok]
      exact hmeet
    · simp only [act, if_neg hok]
      exact hmeet
  | unchanged => exact hmeet
  | sink chunk =>
    by_cases hok : m.ok = true
    · simp only [act, if_pos hok]
      exact ⟨hmeet.accepted.trans (List.suffix_cons _ _), hmeet.gen0, hmeet.gen, hmeet.same,
        hmeet.appended⟩
    · simp only [act, if_neg hok]
      exact hmeet
  | load name => exact hmeet
  | save name p =>
    by_cases hok : (m.ok || m.kept) = true
    · simp only [act, if_pos hok]
      exact ⟨hmeet.accepted, hmeet.gen0, hmeet.gen, hmeet.same, hmeet.appended⟩
    · simp only [act, if_neg hok]
      exact hmeet
  | erase name =>
    by_cases hok : m.ok = true
    · simp only [act, if_pos hok]
      exact ⟨hmeet.accepted, hmeet.gen0, hmeet.gen, hmeet.same, hmeet.appended⟩
    · simp only [act, if_neg hok]
      exact hmeet
  | paths => exact hmeet

end Later

section Keeps

variable {cfg : FollowerConfig} {path : Path}

-- A place to go on from: what is in front of it was accepted.
structure Resumes (cfg : FollowerConfig) (path : Path) (p : Progress) (accepted : List Handed) :
    Prop where
  accepted : p.offset ≤ acceptedEnd path accepted
  boundary : ∀ unit, Agree cfg path unit → unit ∣ p.offset

structure Keeps (cfg : FollowerConfig) (path : Path) (s : Site) : Prop where
  sound : ∀ h earlier, h :: earlier <:+ s.accepted → h.chunk.path = path →
    Sound cfg path h earlier
  progress : ∀ p ∈ s.store.lookup path, Resumes cfg path p s.accepted
  view : s.gen0 ≤ s.gen
  listed : s.gen = s.gen0 → ∀ e ∈ s.listed, e.path = path →
    ∃ content ∈ s.card.lookup path, content.length = e.size

theorem resumes_zero (accepted : List Handed) : Resumes cfg path {} accepted :=
  ⟨Nat.zero_le _, fun unit _ => Nat.dvd_zero unit⟩

theorem Resumes.mono {p : Progress} {earlier later : List Handed}
    (h : Resumes cfg path p earlier) (hsuf : earlier <:+ later) : Resumes cfg path p later :=
  ⟨h.accepted.trans (acceptedEnd_mono hsuf), h.boundary⟩

-- A call that leaves alone what is known of the file.
def Call.spares (path : Path) : Call → Prop
  | .list _ => False
  | .sink chunk => chunk.path ≠ path
  | .save name _ => name ≠ path
  | _ => True

theorem Keeps.meet {s : Site} (hs : Keeps cfg path s) (m : Met) :
    Keeps cfg path (s.meet m) := by
  unfold Site.meet
  cases hhost : m.host with
  | none => exact hs
  | some card =>
    refine ⟨hs.sound, hs.progress, Nat.le_succ_of_le hs.view, ?_⟩
    intro hgen
    exact absurd hgen (Nat.ne_of_gt (Nat.lt_succ_of_le hs.view))

theorem keeps_act {c : Call} {m : Met} {s : Site} (hc : c.spares path)
    (hm : MetAppends path c m s) (hs : Keeps cfg path s) : Keeps cfg path (act c m s).2 := by
  have hmeet := hs.meet m
  cases c with
  | list dir => exact absurd hc id
  | read name offset len =>
    by_cases hok : m.ok = true
    · simp only [act, if_pos hok]
      exact hmeet
    · simp only [act, if_neg hok]
      exact hmeet
  | unchanged => exact hmeet
  | sink chunk =>
    by_cases hok : m.ok = true
    · simp only [act, if_pos hok]
      refine ⟨?_, ?_, hmeet.view, hmeet.listed⟩
      · intro h earlier hsuf hpath
        rcases List.suffix_cons_iff.mp hsuf with heq | hsuf
        · cases heq
          exact absurd hpath hc
        · exact hmeet.sound h earlier hsuf hpath
      · intro p hp
        exact (hmeet.progress p hp).mono (List.suffix_cons _ _)
    · simp only [act, if_neg hok]
      exact hmeet
  | load name => exact hmeet
  | save name p =>
    by_cases hok : (m.ok || m.kept) = true
    · simp only [act, if_pos hok]
      refine ⟨hmeet.sound, ?_, hmeet.view, hmeet.listed⟩
      intro p' hp'
      rw [AList.lookup_insert_ne (Ne.symm hc)] at hp'
      exact hmeet.progress p' hp'
    · simp only [act, if_neg hok]
      exact hmeet
  | erase name =>
    by_cases hok : m.ok = true
    · simp only [act, if_pos hok]
      refine ⟨hmeet.sound, ?_, hmeet.view, hmeet.listed⟩
      intro p hp
      by_cases hname : path = name
      · subst hname
        rw [AList.lookup_erase] at hp
        cases hp
      · rw [AList.lookup_erase_ne hname] at hp
        exact hmeet.progress p hp
    · simp only [act, if_neg hok]
      exact hmeet
  | paths => exact hmeet

-- What holds behind every call of a pass.
structure Since (cfg : FollowerConfig) (path : Path) (s s' : Site) : Prop where
  keeps : Keeps cfg path s'
  later : Later path s s'

theorem Since.trans {s s' s'' : Site} (h : Since cfg path s s') (h' : Since cfg path s' s'') :
    Since cfg path s s'' :=
  ⟨h'.keeps, h.later.trans h'.later⟩

-- Running a script where the host only appends to the file, with what is promised at
-- every cut.
abbrev spec (cfg : FollowerConfig) (path : Path) {α : Type} (p : Script α)
    (Q : α → Site → Prop) (s : Site) : Prop :=
  wp act (MetAppends path) (Keeps cfg path) p Q s

theorem since_act {c : Call} {m : Met} {s : Site} (hc : c.spares path)
    (hm : MetAppends path c m s) (hs : Keeps cfg path s) : Since cfg path s (act c m s).2 :=
  ⟨keeps_act hc hm hs, later_act hm⟩

theorem spec_of_uses {α : Type} {p : Script α} (hp : p.Uses (Call.spares path)) {s : Site}
    (hs : Keeps cfg path s) : spec cfg path p (fun _ => Since cfg path s) s := by
  have hstep : ∀ c m s', Call.spares path c → MetAppends path c m s' → Since cfg path s s' →
      Since cfg path s (act c m s').2 :=
    fun c m s' hc hm hs' => hs'.trans (since_act hc hm hs'.keeps)
  exact wp_crash_mono (fun _ h => Since.keeps h) (wp_of_uses hstep hp ⟨hs, .refl s⟩)

end Keeps

section Uses

variable {R : Call → Prop} {path : Path}

theorem uses_readUnchanged {offset len : Nat} (hread : R (.read path offset len))
    (hunch : R .unchanged) : (readUnchanged path offset len).Uses R := by
  refine uses_bind (uses_perform hread) fun reply => ?_
  cases reply with
  | none => exact trivial
  | some data =>
    exact uses_bind (uses_perform hunch) fun b => uses_ite _ trivial trivial

theorem uses_flush {o : Offer} (hsave : R (.save path o.p)) : (o.flush path).Uses R := by
  refine uses_ite _ trivial ?_
  exact uses_bind (uses_perform hsave) fun b => uses_ite _ trivial trivial

theorem uses_headOf {o : Offer} {data : List UInt8} {stop : Nat}
    (hread : ∀ len, R (.read path 0 len)) (hunch : R .unchanged) :
    (headOf o path data stop).Uses R := by
  refine uses_ite _ (uses_bind ?_ fun head => ?_) (uses_pure _)
  · exact uses_ite _ (uses_pure _) (uses_readUnchanged (hread _) hunch)
  · cases head with
    | none => exact trivial
    | some head => exact trivial

theorem uses_resume {e : FileEntry} (hload : R (.load e.path))
    (hread : ∀ len, R (.read e.path 0 len)) (hunch : R .unchanged) : (resume e).Uses R := by
  refine uses_bind (uses_perform hload) fun reply => ?_
  cases reply with
  | none => exact trivial
  | some p =>
    refine uses_ite _ (uses_ite _ (uses_bind (uses_readUnchanged (hread _) hunch) ?_) trivial)
      trivial
    intro head
    cases head with
    | none => exact trivial
    | some head => exact trivial

theorem uses_prune {present : List Path} (hpaths : R .paths) (herase : ∀ path, R (.erase path)) :
    (prune present).Uses R := by
  refine uses_bind (uses_perform hpaths) fun paths => uses_foldlM ?_ () paths
  intro _ path
  exact uses_ite _ (uses_pure _) (uses_perform (herase path))

theorem uses_handOff {cfg : FollowerConfig} {e : FileEntry} (hsave : ∀ p, R (.save e.path p))
    (hsink : ∀ offset data restarted, R (.sink ⟨e.path, offset, data, restarted⟩))
    (hread : ∀ offset len, R (.read e.path offset len)) (hunch : R .unchanged)
    (recordSize limit fuel : Nat) (o : Offer) :
    (handOff cfg e recordSize limit fuel o).Uses R := by
  have hflush (o : Offer) : (o.flush e.path).Uses R := uses_flush (hsave _)
  have hstop (o : Offer) : (o.stop e.path).Uses R := uses_bind (hflush o) fun _ => trivial
  induction fuel generalizing o with
  | zero => exact uses_bind (hflush o) fun _ => trivial
  | succ fuel ih =>
    refine uses_ite _ (uses_bind (hflush o) fun _ => trivial) ?_
    refine uses_bind (uses_readUnchanged (hread _ _) hunch) fun reply => ?_
    cases reply with
    | none => exact hstop _
    | some data =>
      refine uses_bind (uses_perform (hsink _ _ _)) fun b => uses_ite _ ?_ (hstop _)
      refine uses_bind (uses_headOf (fun _ => hread _ _) hunch) fun head => ?_
      cases head with
      | none => exact hstop _
      | some next =>
        refine uses_ite _ (uses_bind (hflush _) fun r => ?_) (ih _)
        exact uses_ite _ (ih _) trivial

theorem uses_followFile {cfg : FollowerConfig} {e : FileEntry} (hload : R (.load e.path))
    (hsave : ∀ p, R (.save e.path p))
    (hsink : ∀ offset data restarted, R (.sink ⟨e.path, offset, data, restarted⟩))
    (hread : ∀ offset len, R (.read e.path offset len)) (hunch : R .unchanged)
    (recordSize : Nat) (nowMs : Int) (writeGen : Nat) (b : Pass) :
    (followFile cfg e recordSize nowMs writeGen b).Uses R := by
  refine uses_bind (uses_resume hload (fun _ => hread _ _) hunch) fun reply => ?_
  cases reply with
  | none => exact trivial
  | some reply => exact uses_bind (uses_handOff hsave hsink hread hunch _ _ _ _) fun _ => trivial

end Uses

section OtherFiles

variable {cfg : FollowerConfig} {path : Path}

theorem spares_readUnchanged (name : Path) (offset len : Nat) :
    (readUnchanged name offset len).Uses (Call.spares path) :=
  uses_readUnchanged trivial trivial

theorem spares_followFile {e : FileEntry} (he : e.path ≠ path) (recordSize : Nat) (nowMs : Int)
    (writeGen : Nat) (b : Pass) :
    (followFile cfg e recordSize nowMs writeGen b).Uses (Call.spares path) :=
  uses_followFile trivial (fun _ => he) (fun _ _ _ => he) (fun _ _ => trivial) trivial _ _ _ _

end OtherFiles

section TheFile

variable {cfg : FollowerConfig} {path : Path} {s : Site}

theorem act_read_some {offset len : Nat} {m : Met} {data : List UInt8}
    (hread : (act (.read path offset len) m s).1 = some data)
    (hgen : (s.meet m).gen = (s.meet m).gen0) :
    ∃ content ∈ (s.meet m).card.lookup path, offset + len ≤ content.length ∧
      data = (content.drop offset).take len := by
  by_cases hok : m.ok = true
  · simp only [act, if_pos hok, if_pos hgen, Card.read] at hread
    cases hlook : (s.meet m).card.lookup path with
    | none =>
      rw [hlook] at hread
      cases hread
    | some content =>
      rw [hlook] at hread
      by_cases hle : offset + len ≤ content.length
      · simp only [if_pos hle] at hread
        exact ⟨content, rfl, hle, (Option.some.inj hread).symm⟩
      · simp only [if_neg hle] at hread
        cases hread
  · simp only [act, if_neg hok] at hread
    cases hread

theorem act_read_site (offset len : Nat) (m : Met) :
    (act (.read path offset len) m s).2 = s.meet m := by
  by_cases hok : m.ok = true
  · simp only [act, if_pos hok]
  · simp only [act, if_neg hok]

-- Where nothing has changed, nothing had before.
theorem of_unchanged {m : Met} (hs : Keeps cfg path s) (hm : MetAppends path .unchanged m s)
    (hun : (act .unchanged m s).1 = true) :
    s.gen = s.gen0 ∧ (act .unchanged m s).2.gen = s.gen0 ∧
      (act .unchanged m s).2.card = s.card := by
  have hgen : (s.meet m).gen = (s.meet m).gen0 := eq_of_beq hun
  have hlater := later_meet hm
  have hview := hs.view
  have hle := hlater.gen
  have hgen0 := hlater.gen0
  exact ⟨by omega, hgen.trans hgen0, hlater.same (by omega)⟩

-- What was read while the host did not write is what the file holds.
theorem spec_readUnchanged (hs : Keeps cfg path s) (offset len : Nat) :
    spec cfg path (readUnchanged path offset len) (fun reply s' => Since cfg path s s' ∧
      ∀ data ∈ reply, ∃ content ∈ s'.card.lookup path, offset + len ≤ content.length ∧
        data = (content.drop offset).take len) s := by
  rw [readUnchanged, spec, wp_bind]
  refine ⟨hs, fun m hm => ?_⟩
  have hsince := since_act (c := .read path offset len) trivial hm hs
  cases hread : (act (.read path offset len) m s).1 with
  | none => exact ⟨hsince, nofun⟩
  | some data =>
    refine (wp_bind _ _).mpr ⟨hsince.keeps, fun m' hm' => ?_⟩
    have hsince' := since_act (c := .unchanged) trivial hm' hsince.keeps
    cases hun : (act .unchanged m' (act (.read path offset len) m s).2).1 with
    | false => exact ⟨hsince.trans hsince', nofun⟩
    | true =>
      refine ⟨hsince.trans hsince', ?_⟩
      intro data' hdata'
      obtain rfl := Option.some.inj hdata'
      obtain ⟨hgen, -, hcard⟩ := of_unchanged hsince.keeps hm' hun
      rw [hcard]
      rw [act_read_site] at hgen ⊢
      exact act_read_some hread hgen

theorem meet_accepted (m : Met) : (s.meet m).accepted = s.accepted := by
  unfold Site.meet
  cases m.host with
  | none => rfl
  | some card => rfl

theorem keeps_save {p : Progress} {m : Met} (hs : Keeps cfg path s)
    (hp : Resumes cfg path p s.accepted) : Keeps cfg path (act (.save path p) m s).2 := by
  have hmeet := hs.meet m
  by_cases hok : (m.ok || m.kept) = true
  · simp only [act, if_pos hok]
    refine ⟨hmeet.sound, ?_, hmeet.view, hmeet.listed⟩
    intro p' hp'
    rw [AList.lookup_insert] at hp'
    obtain rfl := Option.some.inj hp'
    rwa [meet_accepted]
  · simp only [act, if_neg hok]
    exact hmeet

theorem spec_flush {o : Offer} (hs : Keeps cfg path s) (ho : Resumes cfg path o.p s.accepted) :
    spec cfg path (o.flush path) (fun a s' => Since cfg path s s' ∧ a.2.p = o.p) s := by
  unfold Offer.flush
  cases hdirty : o.dirty with
  | false => exact ⟨⟨hs, .refl s⟩, rfl⟩
  | true =>
    refine (wp_bind _ _).mpr ⟨hs, fun m hm => ?_⟩
    have hsince : Since cfg path s (act (.save path o.p) m s).2 :=
      ⟨keeps_save hs ho, later_act hm⟩
    cases hsave : (act (.save path o.p) m s).1 with
    | false => exact ⟨hsince, rfl⟩
    | true => exact ⟨hsince, rfl⟩

theorem spec_stop {o : Offer} (hs : Keeps cfg path s) (ho : Resumes cfg path o.p s.accepted) :
    spec cfg path (o.stop path) (fun a s' => Since cfg path s s' ∧ a.1 = false) s :=
  (wp_bind _ _).mpr (wp_mono (fun _ _ h => ⟨h.1, rfl⟩) (spec_flush hs ho))

theorem spec_headOf (hs : Keeps cfg path s) (o : Offer) (data : List UInt8) (stop : Nat) :
    spec cfg path (headOf o path data stop) (fun reply s' => Since cfg path s s' ∧
      ∀ next ∈ reply, next.offset = stop) s := by
  have hread : spec cfg path (readHead o.p.offset path data (min kHeadLen stop))
      (fun _ => Since cfg path s) s := by
    refine spec_of_uses ?_ hs
    exact uses_ite _ (uses_pure _) (spares_readUnchanged _ _ _)
  unfold headOf
  by_cases hlen : o.p.headLen < kHeadLen
  · refine (if_pos hlen).symm ▸ (wp_bind _ _).mpr (wp_mono ?_ hread)
    intro reply s' hsince
    cases reply with
    | none => exact ⟨hsince, nofun⟩
    | some head =>
      refine ⟨hsince, ?_⟩
      intro next hnext
      obtain rfl := Option.some.inj hnext
      rfl
  · refine (if_neg hlen).symm ▸ ⟨⟨hs, .refl s⟩, ?_⟩
    intro next hnext
    obtain rfl := Option.some.inj hnext
    rfl

theorem spec_resume {e : FileEntry} (hs : Keeps cfg e.path s) :
    spec cfg e.path (resume e) (fun reply s' => Since cfg e.path s s' ∧
      ∀ x ∈ reply, Resumes cfg e.path x.1 s'.accepted) s := by
  refine (wp_bind _ _).mpr ⟨hs, fun m hm => ?_⟩
  have hsince := since_act (c := .load e.path) trivial hm hs
  have hzero : ∀ x ∈ some (({} : Progress), true), Resumes cfg e.path x.1
      (act (.load e.path) m s).2.accepted := by
    intro x hx
    obtain rfl := Option.some.inj hx
    exact resumes_zero _
  cases hload : (act (.load e.path) m s).1 with
  | none =>
    refine ⟨hsince, ?_⟩
    intro x hx
    obtain rfl := Option.some.inj hx
    exact resumes_zero _
  | some p =>
    have hp : Resumes cfg e.path p (act (.load e.path) m s).2.accepted := by
      by_cases hok : m.ok = true
      · simp only [act, if_pos hok] at hload
        exact (hs.meet m).progress p hload
      · simp only [act, if_neg hok] at hload
        cases hload
    have hsome : ∀ x ∈ some (p, false), Resumes cfg e.path x.1
        (act (.load e.path) m s).2.accepted := by
      intro x hx
      obtain rfl := Option.some.inj hx
      exact hp
    refine wp_ite _ (fun _ => wp_ite _ (fun _ => ?_) fun _ => ⟨hsince, hsome⟩)
      fun _ => ⟨hsince, hzero⟩
    have hread := spec_of_uses (spares_readUnchanged e.path 0 p.headLen) hsince.keeps
    refine (wp_bind _ _).mpr (wp_mono ?_ hread)
    intro reply s' hsince'
    cases reply with
    | none => exact ⟨hsince.trans hsince', nofun⟩
    | some head =>
      refine ⟨hsince.trans hsince', ?_⟩
      intro x hx
      obtain rfl := Option.some.inj hx
      by_cases hcrc : crc32 0 head = p.headCrc
      · rw [if_pos hcrc]
        exact hp.mono hsince'.later.accepted
      · rw [if_neg hcrc]
        exact resumes_zero _

theorem keeps_sink {chunk : Chunk} {m : Met} (hs : Keeps cfg path s)
    (hsound : Sound cfg path ⟨chunk, (s.meet m).card.lookup chunk.path⟩ s.accepted) :
    Keeps cfg path (act (.sink chunk) m s).2 := by
  have hmeet := hs.meet m
  by_cases hok : m.ok = true
  · simp only [act, if_pos hok]
    refine ⟨?_, ?_, hmeet.view, hmeet.listed⟩
    · intro h earlier hsuf hpath
      rcases List.suffix_cons_iff.mp hsuf with heq | hsuf
      · cases heq
        rwa [meet_accepted]
      · exact hmeet.sound h earlier hsuf hpath
    · intro p hp
      exact (hmeet.progress p hp).mono (List.suffix_cons _ _)
  · simp only [act, if_neg hok]
    exact hmeet

-- What the sink accepts counts from then on.
theorem le_acceptedEnd_sink {chunk : Chunk} {m : Met}
    (hok : (act (.sink chunk) m s).1 = true) :
    chunk.offset + chunk.data.length ≤
      acceptedEnd chunk.path (act (.sink chunk) m s).2.accepted := by
  have hm : m.ok = true := hok
  simp only [act, if_pos hm]
  exact end_le_acceptedEnd (h := ⟨chunk, _⟩) List.mem_cons_self rfl

theorem Exact.of_appended {card card' : Card} (ha : Appended path card card')
    {content data : List UInt8} (hcontent : content ∈ card.lookup path) {offset len : Nat}
    (hle : offset + len ≤ content.length) (hdata : data = (content.drop offset).take len) :
    ∃ content' ∈ card'.lookup path, Exact content' offset data := by
  obtain ⟨content', hcontent', hpre⟩ := ha content hcontent
  have hlen : data.length = len := by
    rw [hdata, List.length_take, List.length_drop]
    omega
  refine ⟨content', hcontent', ?_, ?_⟩
  · have := hpre.length_le
    omega
  · obtain ⟨more, rfl⟩ := hpre
    rw [hlen, List.drop_append_of_le_length (by omega), List.take_append_of_le_length, ← hdata]
    rw [List.length_drop]
    omega

variable {w : Watch} {e : FileEntry} {limit : Nat}

-- The whole records up to the limit are handed off.
def HandsOff (cfg : FollowerConfig) (path : Path) (limit : Nat) (s : Site)
    (a : Bool × PassResult) (s' : Site) : Prop :=
  Since cfg path s s' ∧ (a.1 = true → ∀ unit, Agree cfg path unit →
    limit / unit * unit ≤ acceptedEnd path s'.accepted)

-- The end of the loop: less than a record is left in front of the limit.
theorem spec_last {o : Offer} (hw : w ∈ cfg.watches) (hcov : w.covers path)
    (hs : Keeps cfg path s) (ho : Resumes cfg path o.p s.accepted)
    (hlast : limit - o.p.offset < w.unit) :
    spec cfg path (o.flush path >>= fun a => pure (a.1, a.2.r)) (HandsOff cfg path limit s) s := by
  refine (wp_bind _ _).mpr (wp_mono ?_ (spec_flush hs ho))
  intro a s' h
  refine ⟨h.1, ?_⟩
  intro _ unit hunit
  have hlt : limit - o.p.offset < unit := by rwa [← hunit w hw hcov]
  exact (whole_le_of_lt (ho.boundary unit hunit) hlt).trans
    (ho.accepted.trans (acceptedEnd_mono h.1.later.accepted))

theorem spec_handOff (hw : w ∈ cfg.watches) (hcov : w.covers e.path) (fuel : Nat) {o : Offer}
    (hfuel : limit - o.p.offset ≤ fuel) (hs : Keeps cfg e.path s)
    (ho : Resumes cfg e.path o.p s.accepted) :
    spec cfg e.path (handOff cfg e w.recordSize limit fuel o) (HandsOff cfg e.path limit s) s := by
  induction fuel generalizing o s with
  | zero =>
    have hlast : limit - o.p.offset < w.unit := by
      have := recordUnit_pos w.recordSize
      unfold Watch.unit
      omega
    exact spec_last hw hcov hs ho hlast
  | succ fuel ih =>
    have hstop {s' : Site} {o' : Offer} (hsince : Since cfg e.path s s') (hp : o'.p = o.p) :
        spec cfg e.path (o'.stop e.path) (HandsOff cfg e.path limit s) s' := by
      have ho' := hp.symm ▸ ho.mono hsince.later.accepted
      refine wp_mono ?_ (spec_stop hsince.keeps ho')
      intro a s'' h
      exact ⟨hsince.trans h.1, fun htrue => absurd htrue (by simp [h.2])⟩
    rw [handOff]
    by_cases hle : chunkEnd o.p.offset limit w.recordSize cfg.maxChunk ≤ o.p.offset
    · have hlast := lt_unit_of_chunkEnd_le _ _ _ _ hle
      simp only [if_pos hle]
      exact spec_last hw hcov hs ho hlast
    · simp only [if_neg hle]
      have hdvd := unit_dvd_chunkEnd_sub o.p.offset limit w.recordSize cfg.maxChunk
      generalize chunkEnd o.p.offset limit w.recordSize cfg.maxChunk = stop at hle hdvd ⊢
      refine (wp_bind _ _).mpr (wp_mono ?_ (spec_readUnchanged hs _ _))
      rintro reply s₁ ⟨hsince₁, hread⟩
      cases reply with
      | none => exact hstop hsince₁ rfl
      | some data =>
        obtain ⟨content, hcontent, hsize, hdata⟩ := hread data rfl
        have hlen : data.length = stop - o.p.offset := by
          rw [hdata, List.length_take, List.length_drop]
          omega
        refine (wp_bind _ _).mpr ⟨hsince₁.keeps, fun m hm => ?_⟩
        have hlater₂ : Later e.path s₁
            (act (.sink ⟨e.path, o.p.offset, data, o.restarted⟩) m s₁).2 := later_act hm
        have hsound : Sound cfg e.path
            ⟨⟨e.path, o.p.offset, data, o.restarted⟩, (s₁.meet m).card.lookup e.path⟩
            s₁.accepted := by
          refine ⟨?_, ?_, ⟨w, hw, hcov, ?_⟩, ho.boundary⟩
          · exact Exact.of_appended (later_meet hm).appended hcontent hsize hdata
          · exact (ho.mono hsince₁.later.accepted).accepted
          · rwa [hlen]
        have hsince₂ : Since cfg e.path s
            (act (.sink ⟨e.path, o.p.offset, data, o.restarted⟩) m s₁).2 :=
          hsince₁.trans ⟨keeps_sink hsince₁.keeps hsound, hlater₂⟩
        refine wp_ite _ (fun hok => ?_) fun hok => hstop hsince₂ rfl
        refine (wp_bind _ _).mpr (wp_mono ?_ (spec_headOf hsince₂.keeps o data stop))
        rintro head s₃ ⟨hsince₃, hnext⟩
        cases head with
        | none => exact hstop (hsince₂.trans hsince₃) rfl
        | some next =>
          have hoffset := hnext next rfl
          have hsince := hsince₂.trans hsince₃
          have hresumes : Resumes cfg e.path next s₃.accepted := by
            refine ⟨?_, ?_⟩
            · have hend := le_acceptedEnd_sink hok
              have hmono := @acceptedEnd_mono e.path _ _ hsince₃.later.accepted
              simp only [hlen] at hend
              omega
            · intro unit hunit
              have hunit' : w.unit = unit := hunit w hw hcov
              rw [hoffset, ← Nat.sub_add_cancel (Nat.le_of_not_le hle), ← hunit']
              exact Nat.dvd_add hdvd (hunit' ▸ ho.boundary unit hunit)
          have hon {s' : Site} {o' : Offer} (hsince' : Since cfg e.path s₃ s')
              (hp : o'.p = next) :
              spec cfg e.path (handOff cfg e w.recordSize limit fuel o')
                (HandsOff cfg e.path limit s) s' := by
            have hfuel' : limit - o'.p.offset ≤ fuel := by
              rw [hp, hoffset]
              omega
            have hresumes' := hp.symm ▸ hresumes.mono hsince'.later.accepted
            refine wp_mono ?_ (ih hfuel' hsince'.keeps hresumes')
            intro a s'' h
            exact ⟨(hsince.trans hsince').trans h.1, h.2⟩
          refine wp_ite _ (fun _ => ?_) fun _ => hon ⟨hsince₃.keeps, .refl s₃⟩ rfl
          refine (wp_bind _ _).mpr (wp_mono ?_ (spec_flush hsince₃.keeps hresumes))
          rintro a s₄ ⟨hsince₄, hp⟩
          refine wp_ite _ (fun _ => hon hsince₄ hp) fun _ => ?_
          exact ⟨hsince.trans hsince₄, fun htrue => absurd htrue (by simp)⟩

end TheFile

end Espos.UsbStorage
