import Espos.UsbStorage.Handoff

-- Whole passes, and what any sequence of them hands off of a file the host only
-- appends to.

namespace Espos.UsbStorage

open Espos.Text Espos.Crash Espos.Crash.Prog Espos.Run

section Ends

variable {cfg : FollowerConfig}

theorem ends_flush (o : Offer) (path : Path) :
    (o.flush path).Ends fun a => a.2.r.complete = o.r.complete := by
  unfold Offer.flush
  cases o.dirty with
  | false => exact rfl
  | true =>
    intro reply
    cases reply with
    | false => exact rfl
    | true => exact rfl

theorem ends_handOff (e : FileEntry) (recordSize limit fuel : Nat) (o : Offer) :
    (handOff cfg e recordSize limit fuel o).Ends fun a => a.2.complete = o.r.complete := by
  have hstop (o : Offer) : (o.stop e.path).Ends fun a => a.2.complete = o.r.complete :=
    (ends_flush o e.path).bind fun _ h => h
  induction fuel generalizing o with
  | zero => exact (ends_flush o e.path).bind fun _ h => h
  | succ fuel ih =>
    refine ends_ite _ ((ends_flush o e.path).bind fun _ h => h) (ends_bind fun reply => ?_)
    cases reply with
    | none => exact hstop o.interrupted
    | some data =>
      refine ends_bind fun ok => ends_ite _ (ends_bind fun head => ?_) (hstop o.refused)
      cases head with
      | none => exact hstop o.interrupted
      | some next =>
        refine ends_ite _ ((ends_flush (o.advance next _) e.path).bind fun a h => ?_)
          (ih (o.advance next _))
        exact ends_ite _ ((ih a.2).imp fun _ h' => h'.trans h) h

-- A pass in hand: `complete` is decided at its end, and what is pending stays so.
def Onward (b : Pass) (a : Bool × Pass) : Prop :=
  a.2.r.complete = b.r.complete ∧ (b.pending = true → a.2.pending = true)

theorem Onward.trans {b : Pass} {a a' : Bool × Pass} (h : Onward b a) (h' : Onward a.2 a') :
    Onward b a' :=
  ⟨h'.1.trans h.1, fun hb => h'.2 (h.2 hb)⟩

theorem ends_followFile (e : FileEntry) (recordSize : Nat) (nowMs : Int) (writeGen : Nat)
    (b : Pass) : (followFile cfg e recordSize nowMs writeGen b).Ends (Onward b) := by
  refine ends_bind fun reply => ?_
  cases reply with
  | none => exact ⟨rfl, id⟩
  | some reply =>
    refine (ends_handOff _ _ _ _ _).bind fun a h => ⟨h, ?_⟩
    intro hpending
    exact (congrArg (· || _) hpending).trans (Bool.true_or _)

theorem ends_followAll (w : Watch) (nowMs : Int) (writeGen : Nat) (es : List FileEntry)
    (b : Pass) : (followAll cfg w nowMs writeGen es b).Ends (Onward b) := by
  induction es generalizing b with
  | nil => exact ⟨rfl, id⟩
  | cons e es ih =>
    refine ends_ite _ ((ends_followFile _ _ _ _ _).bind fun a h => ?_) (ih b)
    exact ends_ite _ ((ih a.2).imp fun a' h' => h.trans h') h

theorem ends_watchAll (nowMs : Int) (writeGen : Nat) (ws : List Watch) (b : Pass) :
    (watchAll cfg nowMs writeGen ws b).Ends (Onward b) := by
  induction ws generalizing b with
  | nil => exact ⟨rfl, id⟩
  | cons w ws ih =>
    refine ends_bind fun reply => ?_
    cases reply with
    | none => exact ⟨rfl, id⟩
    | some entries =>
      refine (ends_followAll _ _ _ _ _).bind fun a h => ?_
      exact ends_ite _ ((ih a.2).imp fun a' h' => h.trans h') h

end Ends

section Listing

variable {cfg : FollowerConfig} {path : Path} {s : Site} {w : Watch} {nowMs : Int} {writeGen : Nat}

-- What was listed of the file is handed off, unless something is left for later.
def CaughtUp (cfg : FollowerConfig) (path : Path) (size : Nat) (a : Bool × Pass) (s' : Site) :
    Prop :=
  a.1 = true → a.2.pending = false → ∀ unit, Agree cfg path unit →
    size / unit * unit ≤ acceptedEnd path s'.accepted

theorem spec_followFile {e : FileEntry} {b : Pass} (hw : w ∈ cfg.watches)
    (hcov : e.path = path → w.covers path) (hs : Keeps cfg path s) :
    spec cfg path (followFile cfg e w.recordSize nowMs writeGen b) (fun a s' =>
      Since cfg path s s' ∧ (e.path = path → CaughtUp cfg path e.size a s')) s := by
  by_cases hpath : e.path = path
  · subst hpath
    refine (wp_bind _ _).mpr (wp_mono ?_ (spec_resume hs))
    rintro reply s₁ ⟨hsince₁, hresumes⟩
    cases reply with
    | none => exact ⟨hsince₁, fun _ htrue => absurd htrue (by simp)⟩
    | some x =>
      have hrun {limit : Nat} {o : Offer} (ho : o.p = x.1) :
          spec cfg e.path (handOff cfg e w.recordSize limit limit o)
            (HandsOff cfg e.path limit s₁) s₁ :=
        spec_handOff hw (hcov rfl) limit (Nat.sub_le _ _) hsince₁.keeps
          (ho.symm ▸ hresumes x rfl)
      refine (wp_bind _ _).mpr (wp_mono ?_ (hrun rfl))
      rintro a s₂ ⟨hsince₂, hlimit⟩
      refine ⟨hsince₁.trans hsince₂, ?_⟩
      intro _ hok hpending
      have hall := hlimit hok
      have hwhole := (Bool.or_eq_false_iff.mp hpending).2
      rw [Bool.not_eq_false'] at hwhole
      rw [if_pos hwhole, eq_of_beq hwhole] at hall
      exact hall
  · have hother := @spares_followFile cfg path e hpath w.recordSize nowMs writeGen b
    exact wp_mono (fun _ _ h => ⟨h, fun heq => absurd heq hpath⟩) (spec_of_uses hother hs)

theorem CaughtUp.onward {size : Nat} {a a' : Bool × Pass} {s' : Site}
    (h : CaughtUp cfg path size a s) (hok : a.1 = true) (ho : Onward a.2 a')
    (hl : Later path s s') : CaughtUp cfg path size a' s' := by
  intro _ hpending unit hunit
  have hpending₁ : a.2.pending = false := by
    cases hp : a.2.pending with
    | false => rfl
    | true => exact absurd (ho.2 hp) (by simp [hpending])
  exact (h hok hpending₁ unit hunit).trans (acceptedEnd_mono hl.accepted)

theorem spec_followAll {es : List FileEntry} {b : Pass} (hw : w ∈ cfg.watches)
    (hdir : ∀ e ∈ es, inDir w.dir e.path) (hs : Keeps cfg path s) :
    spec cfg path (followAll cfg w nowMs writeGen es b) (fun a s' => Since cfg path s s' ∧
      ∀ e ∈ es, e.path = path → w.covers path → CaughtUp cfg path e.size a s') s := by
  induction es generalizing b s with
  | nil => exact ⟨⟨hs, .refl s⟩, nofun⟩
  | cons e es ih =>
    have hrest {b : Pass} {s : Site} (hs : Keeps cfg path s) :=
      wp_and_ends (ends_followAll w nowMs writeGen es b)
        (ih (b := b) (fun e he => hdir e (List.mem_cons_of_mem _ he)) hs)
    refine wp_ite _ (fun hsuf => ?_) fun hsuf => ?_
    · have hcov : e.path = path → w.covers path := by
        rintro rfl
        exact Bool.and_eq_true_iff.mpr ⟨hdir e List.mem_cons_self, hsuf⟩
      refine (wp_bind _ _).mpr (wp_mono ?_ (spec_followFile hw hcov hs))
      rintro a s₁ ⟨hsince₁, hfile⟩
      refine wp_ite _ (fun hok => ?_) fun hok => ?_
      · refine wp_mono ?_ (hrest hsince₁.keeps)
        rintro a' s₂ ⟨⟨hsince₂, hfiles⟩, honward⟩
        refine ⟨hsince₁.trans hsince₂, ?_⟩
        intro e' he' hpath hcov'
        rcases List.mem_cons.mp he' with rfl | he'
        · exact (hfile hpath).onward hok honward hsince₂.later
        · exact hfiles e' he' hpath hcov'
      · exact ⟨hsince₁, fun _ _ _ _ htrue => absurd htrue (by simp)⟩
    · refine wp_mono ?_ (hrest hs)
      rintro a s' ⟨⟨hsince, hfiles⟩, -⟩
      refine ⟨hsince, ?_⟩
      intro e' he' hpath hcov
      rcases List.mem_cons.mp he' with rfl | he'
      · rw [← hpath] at hcov
        exact absurd (Bool.and_eq_true_iff.mp hcov).2 hsuf
      · exact hfiles e' he' hpath hcov

theorem mem_list {card : Card} {dir : CStr} {e : FileEntry} :
    e ∈ card.list dir ↔ inDir dir e.path ∧
      ∃ content ∈ card.lookup e.path, content.length = e.size := by
  simp only [Card.list, List.mem_map, List.mem_filter]
  constructor
  · rintro ⟨⟨name, content⟩, ⟨hmem, hdir⟩, rfl⟩
    exact ⟨hdir, content, AList.mem_lookup_iff.mpr hmem, rfl⟩
  · rintro ⟨hdir, content, hlook, hlen⟩
    refine ⟨⟨e.path, content⟩, ⟨AList.mem_lookup_iff.mp hlook, hdir⟩, ?_⟩
    rw [hlen]

theorem keeps_list {dir : CStr} {m : Met} (hs : Keeps cfg path s) :
    Keeps cfg path (act (.list dir) m s).2 := by
  have hmeet := hs.meet m
  by_cases hok : m.ok = true
  · simp only [act, if_pos hok]
    refine ⟨hmeet.sound, hmeet.progress, hmeet.view, ?_⟩
    intro hgen e he hpath
    rw [if_pos hgen] at he
    rcases List.mem_append.mp he with he | he
    · exact hmeet.listed hgen e he hpath
    · rw [← hpath]
      exact (mem_list.mp he).2
  · simp only [act, if_neg hok]
    exact hmeet

-- A listing the host did not write during is what the card holds.
theorem spec_listUnchanged (hs : Keeps cfg path s) (dir : CStr) :
    spec cfg path (listUnchanged dir) (fun reply s' => Since cfg path s s' ∧
      ∀ entries ∈ reply, s'.gen = s'.gen0 ∧ entries = s'.card.list dir) s := by
  refine (wp_bind _ _).mpr ⟨hs, fun m hm => ?_⟩
  have hsince : Since cfg path s (act (.list dir) m s).2 := ⟨keeps_list hs, later_act hm⟩
  cases hlist : (act (.list dir) m s).1 with
  | none => exact ⟨hsince, nofun⟩
  | some entries =>
    refine (wp_bind _ _).mpr ⟨hsince.keeps, fun m' hm' => ?_⟩
    have hsince' := since_act (c := .unchanged) trivial hm' hsince.keeps
    cases hun : (act .unchanged m' (act (.list dir) m s).2).1 with
    | false => exact ⟨hsince.trans hsince', nofun⟩
    | true =>
      refine ⟨hsince.trans hsince', ?_⟩
      intro entries' hentries'
      obtain rfl := Option.some.inj hentries'
      obtain ⟨hgen, hgen', hcard⟩ := of_unchanged hsince.keeps hm' hun
      refine ⟨hgen'.trans hsince'.later.gen0.symm, ?_⟩
      rw [hcard]
      by_cases hok : m.ok = true
      · simp only [act, if_pos hok] at hlist hgen ⊢
        rw [if_pos hgen] at hlist
        exact (Option.some.inj hlist).symm
      · simp only [act, if_neg hok] at hlist
        cases hlist

theorem spec_watchAll {ws : List Watch} {b : Pass} (hws : ∀ w ∈ ws, w ∈ cfg.watches)
    (hs : Keeps cfg path s) :
    spec cfg path (watchAll cfg nowMs writeGen ws b) (fun a s' => Since cfg path s s' ∧
      ∀ w ∈ ws, w.covers path → s'.gen = s'.gen0 → ∀ content ∈ s'.card.lookup path,
        CaughtUp cfg path content.length a s') s := by
  induction ws generalizing b s with
  | nil => exact ⟨⟨hs, .refl s⟩, nofun⟩
  | cons w ws ih =>
    refine (wp_bind _ _).mpr (wp_mono ?_ (spec_listUnchanged hs w.dir))
    rintro reply s₁ ⟨hsince₁, hlist⟩
    cases reply with
    | none => exact ⟨hsince₁, fun _ _ _ _ _ _ htrue => absurd htrue (by simp)⟩
    | some entries =>
      obtain ⟨hgen, hentries⟩ := hlist entries rfl
      have hmem {e : FileEntry} :
          e ∈ entries.insertionSort (byPath · ·) ↔ e ∈ s₁.card.list w.dir := by
        rw [(List.perm_insertionSort _ entries).mem_iff, hentries]
      have hall : spec cfg path (followAll cfg w nowMs writeGen
          (entries.insertionSort (byPath · ·)) b) _ s₁ :=
        spec_followAll (hws w List.mem_cons_self) (fun e he => (mem_list.mp (hmem.mp he)).1)
          hsince₁.keeps
      refine (wp_bind _ _).mpr (wp_mono ?_ hall)
      rintro a s₂ ⟨hsince₂, hfiles⟩
      refine wp_ite _ (fun hok => ?_) fun hok => ?_
      · have hrest := ih (b := a.2) (fun w hw => hws w (List.mem_cons_of_mem _ hw))
          hsince₂.keeps
        refine wp_mono ?_ (wp_and_ends (ends_watchAll nowMs writeGen ws a.2) hrest)
        rintro a' s₃ ⟨⟨hsince₃, hwatches⟩, honward⟩
        refine ⟨hsince₁.trans (hsince₂.trans hsince₃), ?_⟩
        intro w' hw' hcov hsame content hcontent
        rcases List.mem_cons.mp hw' with rfl | hw'
        · have hlater := hsince₂.later.trans hsince₃.later
          have hsame₁ : s₃.gen = s₁.gen := by rw [hsame, hlater.gen0, hgen]
          rw [hlater.same hsame₁] at hcontent
          have hentry : (⟨path, content.length⟩ : FileEntry) ∈ s₁.card.list w'.dir :=
            mem_list.mpr ⟨(Bool.and_eq_true_iff.mp hcov).1, content, hcontent, rfl⟩
          exact (hfiles _ (hmem.mpr hentry) rfl hcov).onward hok honward hsince₃.later
        · exact hwatches w' hw' hcov hsame content hcontent
      · exact ⟨hsince₁.trans hsince₂, fun _ _ _ _ _ _ htrue => absurd htrue (by simp)⟩

-- The whole records of what the pass has listed of the file are accepted.
def AllHanded (cfg : FollowerConfig) (path : Path) (s : Site) : Prop :=
  (∃ w ∈ cfg.watches, w.covers path) → ∀ e ∈ s.listed, e.path = path →
    ∀ unit, Agree cfg path unit → e.size / unit * unit ≤ acceptedEnd path s.accepted

theorem AllHanded.of_eq {s' : Site} (h : AllHanded cfg path s) (hlisted : s'.listed = s.listed)
    (haccepted : s'.accepted = s.accepted) : AllHanded cfg path s' := by
  unfold AllHanded at h ⊢
  rwa [hlisted, haccepted]

theorem AllHanded.meet (h : AllHanded cfg path s) (m : Met) : AllHanded cfg path (s.meet m) := by
  unfold Site.meet
  cases m.host with
  | none => exact h
  | some card => exact h.of_eq rfl rfl

theorem spec_prune {present : List Path} (hs : Keeps cfg path s) (hall : AllHanded cfg path s) :
    spec cfg path (prune present) (fun _ s' => Keeps cfg path s' ∧ AllHanded cfg path s') s := by
  have hstep : ∀ c m s', (c = .paths ∨ ∃ name, c = .erase name) → MetAppends path c m s' →
      Keeps cfg path s' ∧ AllHanded cfg path s' →
      Keeps cfg path (act c m s').2 ∧ AllHanded cfg path (act c m s').2 := by
    rintro c m s' (rfl | ⟨name, rfl⟩) hm ⟨hs, hall⟩
    · exact ⟨keeps_act trivial hm hs, hall.meet m⟩
    · refine ⟨keeps_act trivial hm hs, (hall.meet m).of_eq ?_ ?_⟩ <;>
      · simp only [act]
        by_cases hok : m.ok = true
        · rw [if_pos hok]
        · rw [if_neg hok]
  refine wp_crash_mono (fun _ h => And.left h) (wp_of_uses hstep ?_ ⟨hs, hall⟩)
  exact uses_prune (.inl rfl) fun name => .inr ⟨name, rfl⟩

theorem spec_runPass {seen : SeenMap} (hs : Keeps cfg path s) :
    spec cfg path (runPass cfg seen nowMs writeGen) (fun a s' => Keeps cfg path s' ∧
      (a.1.complete = true → AllHanded cfg path s')) s := by
  refine (wp_bind _ _).mpr (wp_mono ?_ (wp_and_ends (ends_watchAll _ _ _ _)
    (spec_watchAll (fun _ hw => hw) hs)))
  rintro a s₁ ⟨⟨hsince₁, hwatches⟩, honward⟩
  have hnot : a.2.r.complete = false := honward.1
  refine wp_ite _ (fun _ => ⟨hsince₁.keeps, fun hc => absurd hc (by simp [hnot])⟩) fun hok => ?_
  rw [Bool.not_eq_true', Bool.not_eq_false] at hok
  refine (wp_bind _ _).mpr ⟨hsince₁.keeps, fun m hm => ?_⟩
  have hsince₂ := since_act (c := .unchanged) trivial hm hsince₁.keeps
  refine wp_ite _ (fun hun => ?_) fun _ => ⟨hsince₂.keeps, fun hc => absurd hc (by simp [hnot])⟩
  obtain ⟨hgen, hgen', hcard⟩ := of_unchanged hsince₁.keeps hm hun
  cases hpending : a.2.pending with
  | true =>
    have huses : (prune a.2.present).Uses (Call.spares path) :=
      uses_prune trivial fun _ => trivial
    have hprune := spec_of_uses huses hsince₂.keeps
    refine (wp_bind _ _).mpr (wp_mono ?_ hprune)
    intro _ s₃ hsince₃
    exact ⟨hsince₃.keeps, fun hc => absurd hc (by simp)⟩
  | false =>
    have hall : AllHanded cfg path (act .unchanged m s₁).2 := by
      rintro ⟨w, hw, hcov⟩ e he hpath unit hunit
      have hsame := hgen'.trans hsince₂.later.gen0.symm
      obtain ⟨content, hcontent, hlen⟩ := hsince₂.keeps.listed hsame e he hpath
      rw [hcard] at hcontent
      rw [← hlen]
      exact (hwatches w hw hcov hgen content hcontent hok hpending unit hunit).trans
        (acceptedEnd_mono hsince₂.later.accepted)
    refine (wp_bind _ _).mpr (wp_mono ?_ (spec_prune hsince₂.keeps hall))
    exact fun _ _ h => ⟨h.1, fun _ => h.2⟩

end Listing

section Runs

variable {cfg : FollowerConfig} {path : Path}

structure NodeKeeps (cfg : FollowerConfig) (path : Path) (n : Node) : Prop where
  site : Keeps cfg path n.site
  complete : ∀ r ∈ n.last, r.complete = true → AllHanded cfg path n.site

theorem Keeps.write {s : Site} (hs : Keeps cfg path s) (card : Card) :
    Keeps cfg path (s.write card) :=
  hs.meet { host := some card }

theorem nodeKeeps_step {n : Node} {e : Event} (hn : NodeKeeps cfg path n)
    (he : AppendsOnly cfg path n e) : NodeKeeps cfg path (step cfg n e) := by
  cases e with
  | pass nowMs mets =>
    have hview : Keeps cfg path n.site.view :=
      ⟨hn.site.sound, hn.site.progress, Nat.le_refl _, fun _ => nofun⟩
    have hwp : spec cfg path (n.pass cfg nowMs) _ n.site.view := spec_runPass hview
    obtain ⟨hdone, hcut⟩ := exec_of_wp hwp he
    simp only [step]
    rcases hexec : (n.pass cfg nowMs).exec act mets n.site.view with ⟨_ | ⟨r, seen⟩, left, s⟩
    · rw [hexec] at hcut
      exact ⟨hcut rfl, nofun⟩
    · rw [hexec] at hdone
      obtain ⟨hs, hcomplete⟩ := hdone _ rfl
      refine ⟨hs, ?_⟩
      intro r' hr'
      obtain rfl := Option.some.inj hr'
      exact hcomplete
  | host card =>
    exact ⟨hn.site.write card, fun r hr hc => (hn.complete r hr hc).of_eq rfl rfl⟩
  | reboot => exact ⟨hn.site, nofun⟩

theorem nodeKeeps_run {es : List Event} (h : Along (step cfg) (AppendsOnly cfg path) {} es) :
    NodeKeeps cfg path (run (step cfg) {} es) := by
  have hinit : NodeKeeps cfg path {} :=
    ⟨⟨fun h earlier hsuf => absurd (List.suffix_nil.mp hsuf) (by simp), nofun, Nat.le_refl _,
      fun _ => nofun⟩, nofun⟩
  exact run_invariant_of_along (fun _ _ => nodeKeeps_step) hinit h

-- Where the records of a file have one size, a record in front of the accepted end is
-- part of one accepted chunk.
theorem exists_handed_record {accepted : List Handed} {unit : Nat}
    (hs : ∀ h earlier, h :: earlier <:+ accepted → h.chunk.path = path → Sound cfg path h earlier)
    (hagree : Agree cfg path unit) (hpos : 0 < unit) {k : Nat}
    (hk : (k + 1) * unit ≤ acceptedEnd path accepted) :
    ∃ h ∈ accepted, h.chunk.path = path ∧ h.chunk.offset ≤ k * unit ∧
      (k + 1) * unit ≤ h.chunk.offset + h.chunk.data.length := by
  rw [Nat.succ_mul] at hk
  obtain ⟨h, earlier, hsuf, hpath, hle, hlt⟩ := exists_handed hs (i := k * unit) (by omega)
  refine ⟨h, hsuf.subset List.mem_cons_self, hpath, hle, ?_⟩
  have hsound := hs h earlier hsuf hpath
  obtain ⟨w, hw, hcov, hwhole⟩ := hsound.whole
  rw [hagree w hw hcov] at hwhole
  obtain ⟨m, hm⟩ := Nat.dvd_add (hsound.boundary unit hagree) hwhole
  rw [hm, Nat.mul_comm unit] at hlt ⊢
  exact Nat.mul_le_mul_right unit (Nat.lt_of_mul_lt_mul_right hlt)

-- For any sequence of passes, whatever their calls meet, and any file the host only
-- appends to: every accepted chunk is whole records and exactly what the file holds there
-- and leaves no gap behind what was accepted before. Where the watches that cover the file
-- agree on its records, it starts at one, and a complete pass leaves none of the listed
-- ones behind.
theorem nothing_lost_or_torn (cfg : FollowerConfig) (path : Path) (es : List Event)
    (h : Along (step cfg) (AppendsOnly cfg path) {} es) :
    (∀ h earlier, h :: earlier <:+ (run (step cfg) {} es).site.accepted → h.chunk.path = path →
      Sound cfg path h earlier) ∧
    ∀ r ∈ (run (step cfg) {} es).last, r.complete = true →
      (∃ w ∈ cfg.watches, w.covers path) → ∀ unit, Agree cfg path unit →
      ∀ e ∈ (run (step cfg) {} es).site.listed, e.path = path → ∀ k, (k + 1) * unit ≤ e.size →
      ∃ h ∈ (run (step cfg) {} es).site.accepted, h.chunk.path = path ∧
        h.chunk.offset ≤ k * unit ∧ (k + 1) * unit ≤ h.chunk.offset + h.chunk.data.length := by
  have hkeeps := nodeKeeps_run h
  refine ⟨hkeeps.site.sound, ?_⟩
  rintro r hr hc ⟨w, hw, hcov⟩ unit hunit e he hpath k hk
  have hpos : 0 < unit := by
    rw [← hunit w hw hcov]
    exact recordUnit_pos _
  have hall := hkeeps.complete r hr hc ⟨w, hw, hcov⟩ e he hpath unit hunit
  have hdiv : k + 1 ≤ e.size / unit := (Nat.le_div_iff_mul_le hpos).mpr hk
  exact exists_handed_record hkeeps.site.sound hunit hpos
    ((Nat.mul_le_mul_right unit hdiv).trans hall)

end Runs

def logFile : Path := lit "d/a.trl"

def logConfig : FollowerConfig :=
  { watches := [⟨lit "d", lit ".TRL", 3⟩], settleMs := 10, maxChunk := 5, saveEvery := 3 }

def logCard (bytes : List UInt8) : Card :=
  AList.insert logFile bytes ∅

def fine (calls : Nat) : List Met :=
  List.replicate calls {}

-- The sink refuses a chunk, a chunk is accepted whose head cannot be read, a save fails,
-- the host appends while a pass reads, the power goes behind a hand-off, and the last
-- pass is complete.
def logRun : List Event :=
  [.host (logCard [1, 2, 3, 4, 5, 6, 7]),
    .pass 0 (fine 9),
    .pass 20 (fine 9 ++ [{ ok := false }]),
    .pass 30 (fine 8 ++ [{ ok := false }]),
    .pass 40 (fine 10 ++ [{ ok := false }]),
    .pass 40 (fine 5 ++ { host := some (logCard [1, 2, 3, 4, 5, 6, 7, 8]) } :: fine 9),
    .host (logCard [1, 2, 3, 4, 5, 6, 7, 8, 9]),
    .pass 40 (fine 20),
    .pass 50 (fine 8),
    .pass 50 (fine 20),
    .pass 60 (fine 30)]

theorem nothing_lost_or_torn_log :
    ∃ h ∈ (run (step logConfig) {} logRun).site.accepted, h.chunk.path = logFile ∧
      h.chunk.offset ≤ 2 * 3 ∧ (2 + 1) * 3 ≤ h.chunk.offset + h.chunk.data.length := by
  have hall := (nothing_lost_or_torn logConfig logFile logRun (by decide +kernel)).2
    { complete := true, chunks := 1, bytes := 3 } (by decide +kernel) rfl
    ⟨⟨lit "d", lit ".TRL", 3⟩, by decide, by decide⟩ 3 (by unfold Agree; decide)
    ⟨logFile, 9⟩ (by decide +kernel) rfl
  exact hall 2 (by decide)

-- Two watches on one file, with records of four bytes and of three.
def mixedConfig : FollowerConfig :=
  { watches := [⟨lit "d", lit ".trl", 4⟩, ⟨lit "d", lit "l", 3⟩], settleMs := 0 }

def mixedRun : List Event :=
  [.host (logCard [1, 2, 3, 4, 5, 6, 7]), .pass 0 (fine 40)]

-- The second watch goes on where the first one stopped, inside one of its own records.
theorem starts_inside_record :
    ¬ ∀ (cfg : FollowerConfig) (path : Path) (es : List Event),
      Along (step cfg) (AppendsOnly cfg path) {} es →
      ∀ h earlier, h :: earlier <:+ (run (step cfg) {} es).site.accepted → h.chunk.path = path →
        ∃ w ∈ cfg.watches, w.covers path ∧ w.unit ∣ h.chunk.data.length ∧
          w.unit ∣ h.chunk.offset := by
  intro hall
  have haccepted : (run (step mixedConfig) {} mixedRun).site.accepted =
      [⟨⟨logFile, 4, [5, 6, 7], false⟩, some [1, 2, 3, 4, 5, 6, 7]⟩,
        ⟨⟨logFile, 0, [1, 2, 3, 4], false⟩, some [1, 2, 3, 4, 5, 6, 7]⟩] := by decide +kernel
  have hsuf := List.suffix_refl (run (step mixedConfig) {} mixedRun).site.accepted
  nth_rewrite 1 [haccepted] at hsuf
  have hnone := hall mixedConfig logFile mixedRun (by decide +kernel) _ _ hsuf rfl
  revert hnone
  decide

end Espos.UsbStorage
