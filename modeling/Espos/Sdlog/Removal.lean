import Espos.Sdlog.Writes

-- A directory whose files are unlinked one by one, and that is removed at last.

namespace Espos.Sdlog

open Espos.Crash Espos.Crash.Prog Card

variable {C : Op → Env → Card → Prop} {c c' : Card} {seq k : Nat}

-- What removal has left of the card so far.
structure Thinned (seq : Nat) (c c' : Card) : Prop where
  files : ∀ p, c'.files p = c.files p ∨ (∃ name, p = .file seq name) ∧ c'.files p = none
  names : c'.names = c.names ∨
    c'.names = c.names.filter (· ≠ seq) ∧ ∀ name, c'.files (.file seq name) = none
  streams : c'.streams = c.streams ∧ c'.files (.file seq .rows) = c.files (.file seq .rows) ∨
    c'.streams = c.detach (.file seq .rows) ∧ c'.files (.file seq .rows) = none
  passed : c'.passed = c.passed
  durable : c'.durable = c.durable
  completed : c'.completed = c.completed

namespace Thinned

theorem refl (seq : Nat) (c : Card) : Thinned seq c c :=
  ⟨fun _ => .inl rfl, .inl rfl, .inl ⟨rfl, rfl⟩, rfl, rfl, rfl⟩

theorem files_none (h : Thinned seq c c') {p : Path} (hp : c.files p = none) :
    c'.files p = none := by
  rcases h.files p with heq | ⟨_, hnone⟩
  · exact heq.trans hp
  · exact hnone

theorem file_cases (h : Thinned seq c c') (p : Path) :
    c'.files p = c.files p ∨ c'.files p = none :=
  (h.files p).imp id And.right

theorem dir_of_ne (h : Thinned seq c c') (hk : k ≠ seq) : c'.dir k = c.dir k := by
  have hfile : ∀ name, c'.files (.file k name) = c.files (.file k name) := by
    intro name
    refine (h.files _).resolve_right ?_
    rintro ⟨⟨name', heq⟩, -⟩
    cases heq
    exact hk rfl
  simp only [dir, hfile, h.passed, h.durable, h.completed]

theorem names_subset (h : Thinned seq c c') : c'.names ⊆ c.names := by
  rcases h.names with heq | ⟨heq, -⟩
  · rw [heq]
    exact List.Subset.refl _
  · rw [heq]
    exact List.filter_sublist.subset

theorem mem_names (h : Thinned seq c c') (hk : k ≠ seq) : k ∈ c'.names ↔ k ∈ c.names := by
  rcases h.names with heq | ⟨heq, -⟩
  · rw [heq]
  · rw [heq, List.mem_filter]
    simp [hk]

theorem sound (h : Thinned seq c c') (hc : c.Sound) : c'.Sound := by
  refine ⟨?_, ?_⟩
  · intro k
    refine (hc.dirs k).thin ?_ ?_ ?_ ?_ ?_
    · exact h.file_cases _
    · exact h.file_cases _
    · exact congrFun h.passed k
    · exact congrFun h.durable k
    · exact congrFun h.completed k
  · intro p hp
    cases p with
    | lastSeq => exact absurd trivial hp
    | lastSeqTmp => exact absurd trivial hp
    | file k name =>
      by_cases hk : k = seq
      · rcases h.names with heq | ⟨_, hnone⟩
        · apply h.files_none
          apply hc.within
          rw [Holds, ← heq]
          exact hp
        · rw [hk]
          exact hnone name
      · apply h.files_none
        apply hc.within
        exact fun hmem => hp ((h.mem_names hk).mpr hmem)

-- Where the directory is gone, the others are as they were.
theorem shape_of_gone (h : Thinned seq c c') (hc : c'.Sound) (hshape : c.Shape)
    (hgone : seq ∉ c'.names) : c'.Shape := by
  intro k
  by_cases hk : k = seq
  · have hnone : ∀ name, c'.files (.file k name) = none := fun name =>
      hc.within (.file k name) (hk ▸ hgone)
    refine ⟨?_, ?_⟩
    · intro hclose
      exact absurd (hnone .close) hclose
    · intro hhead
      simp [dir, hnone] at hhead
  · rw [h.dir_of_ne hk]
    exact hshape k

-- A directory without a header has no close record that could be left behind.
theorem shape_of_headless (h : Thinned seq c c') (hshape : c.Shape)
    (hhead : c.files (.file seq .head) = none) : c'.Shape := by
  intro k
  by_cases hk : k = seq
  · subst hk
    have hhead' : (c'.dir k).head = false := by
      simp only [dir, h.files_none hhead, Option.isSome_none]
    have hclose : c.files (.file k .close) = none := by
      by_contra hthere
      have hheld := ((hshape k).closed hthere).1
      simp [dir, hhead] at hheld
    refine ⟨?_, ?_⟩
    · intro hthere
      exact absurd (h.files_none hclose) hthere
    · intro hheld
      rw [hhead'] at hheld
      cases hheld
  · rw [h.dir_of_ne hk]
    exact hshape k

end Thinned

-- The operations of a removal.
def Removes (seq : Nat) (o : Op) : Prop :=
  (∃ name, o = .unlink (.file seq name)) ∨ o = .rmdir seq ∨ o = .readDir seq

theorem mem_present {name : Name} (h : c.files (.file seq name) ≠ none) :
    name ∈ c.present seq :=
  List.mem_filter.mpr ⟨by cases name <;> decide, Option.isSome_iff_ne_none.mpr h⟩

theorem Thinned.unlink (h : Thinned seq c c') {name : Name}
    (hthere : c'.files (.file seq name) ≠ none) :
    Thinned seq c { c'.setFile (.file seq name) none with
      streams := c'.detach (.file seq name) } := by
  have hfiles : ∀ p, p ≠ .file seq name →
      (c'.setFile (.file seq name) none).files p = c'.files p := fun p hp => setFile_of_ne hp _
  have hgone : (c'.setFile (.file seq name) none).files (.file seq name) = none :=
    setFile_self _ _ _
  refine ⟨?_, ?_, ?_, h.passed, h.durable, h.completed⟩
  · intro p
    by_cases hp : p = .file seq name
    · exact .inr ⟨⟨name, hp⟩, hp ▸ hgone⟩
    · rcases h.files p with heq | hnone
      · exact .inl ((hfiles p hp).trans heq)
      · exact .inr ⟨hnone.1, (hfiles p hp).trans hnone.2⟩
  · rcases h.names with heq | ⟨_, hnone⟩
    · exact .inl heq
    · exact absurd (hnone name) hthere
  · by_cases hname : name = .rows
    · subst hname
      rcases h.streams with ⟨heq, _⟩ | ⟨_, hnone⟩
      · exact .inr ⟨by simp only [detach, heq], hgone⟩
      · exact absurd hnone hthere
    · have hdetach : c'.detach (.file seq name) = c'.streams := by
        cases name with
        | rows => exact absurd rfl hname
        | _ => rfl
      have hrows : (c'.setFile (.file seq name) none).files (.file seq .rows) =
          c'.files (.file seq .rows) := hfiles _ fun heq => by
        cases heq
        exact hname rfl
      rcases h.streams with ⟨hstreams, hfile⟩ | ⟨hstreams, hfile⟩
      · exact .inl ⟨hdetach.trans hstreams, hrows.trans hfile⟩
      · exact .inr ⟨hdetach.trans hstreams, hrows.trans hfile⟩

theorem Thinned.rmdir (h : Thinned seq c c') (hempty : c'.present seq = []) :
    Thinned seq c { c' with names := c'.names.filter (· ≠ seq) } := by
  have hnone : ∀ name, c'.files (.file seq name) = none := by
    intro name
    by_contra hthere
    have hmem := mem_present hthere
    rw [hempty] at hmem
    cases hmem
  refine ⟨h.files, .inr ⟨?_, hnone⟩, h.streams, h.passed, h.durable, h.completed⟩
  rcases h.names with heq | ⟨heq, -⟩
  · exact congrArg _ heq
  · show c'.names.filter _ = _
    rw [heq, List.filter_filter]
    simp

theorem thinned_act {o : Op} (ho : Removes seq o) (e : Env) (h : Thinned seq c c') :
    Thinned seq c (act o e c').2 := by
  rcases ho with ⟨name, rfl⟩ | rfl | rfl
  · rcases act_unlink e c' (.file seq name) with ⟨_, hact⟩ | ⟨_, hthere, hact⟩
    · rw [hact]
      exact h
    · rw [hact]
      exact h.unlink hthere
  · rcases act_rmdir e c' seq with hact | ⟨_, _, hempty, hact⟩
    · rw [hact]
      exact h
    · rw [hact]
      exact h.rmdir hempty
  · simp only [act]
    split_ifs <;> exact h

theorem sdlogRemove_removes (seq : Nat) : (sdlogRemove seq).Uses (Removes seq) := by
  apply uses_bind (uses_perform (.inr (.inr rfl)))
  intro entries
  cases entries with
  | absent => exact trivial
  | failed => exact trivial
  | got names =>
    have hall : (unlinkAll seq names).Uses (Removes seq) := by
      refine uses_foldlM ?_ () names
      intro _ name
      refine uses_bind (uses_perform (.inl ⟨name, rfl⟩)) ?_
      intro _
      exact trivial
    apply uses_bind hall
    intro _
    exact uses_bind (uses_perform (.inr (.inl rfl))) fun _ => trivial

theorem wp_thinned (seq : Nat) (c : Card) :
    wp act C (Thinned seq c) (sdlogRemove seq) (fun _ => Thinned seq c) c :=
  wp_of_uses (fun _ e _ ho _ h => thinned_act ho e h) (sdlogRemove_removes seq) (.refl seq c)

-- Where it says so, the directory is gone.
theorem wp_sdlogRemove (seq : Nat) (c : Card) :
    wp act C (fun _ => True) (sdlogRemove seq) (fun err c' => err = .ok → seq ∉ c'.names) c := by
  rw [sdlogRemove, wp_bind, wp_perform]
  refine ⟨trivial, ?_⟩
  intro e _
  cases (act (.readDir seq) e c).1 with
  | absent => nofun
  | failed => nofun
  | got names =>
    refine (wp_bind _ _).mpr (wp_mono ?_ (wp_trivial _ _))
    intro _ c _
    rw [wp_bind, wp_perform]
    refine ⟨trivial, ?_⟩
    intro e _
    rcases act_rmdir e c seq with hact | ⟨_, _, _, hact⟩
    · rw [hact]
      nofun
    · rw [hact]
      intro _ hmem
      simpa using List.mem_filter.mp hmem

-- What is in the directory is still to be unlinked.
def Remains (seq : Nat) (names : List Name) (c : Card) : Prop :=
  seq ∈ c.names ∧ ∀ name, c.files (.file seq name) ≠ none → name ∈ names

theorem sure_unlinkOne {name : Name} {names : List Name} (h : Remains seq (name :: names) c) :
    wp act Sure (fun _ => True)
      (do
        let _ ← Io.unlink (.file seq name)
        pure ()) (fun _ => Remains seq names) c := by
  rw [wp_bind, wp_perform]
  refine ⟨trivial, ?_⟩
  intro e he
  rcases act_unlink e c (.file seq name) with ⟨hfails | hnone, hact⟩ | ⟨_, _, hact⟩
  · exact absurd (he.1.symm.trans hfails) Bool.false_ne_true
  · rw [hact]
    refine ⟨h.1, ?_⟩
    intro name' hthere
    rcases List.mem_cons.mp (h.2 name' hthere) with rfl | hmem
    · exact absurd hnone hthere
    · exact hmem
  · rw [hact]
    refine ⟨h.1, ?_⟩
    intro name' hthere
    by_cases heq : name' = name
    · subst heq
      exact absurd (setFile_self c _ none) hthere
    · have hsame : (c.setFile (.file seq name) none).files (.file seq name') =
          c.files (.file seq name') := setFile_of_ne (by simpa using heq) _
      rcases List.mem_cons.mp (h.2 name' (hsame ▸ hthere)) with hfirst | hmem
      · exact absurd hfirst heq
      · exact hmem

theorem sure_unlinkAll {names : List Name} (h : Remains seq names c) :
    wp act Sure (fun _ => True) (unlinkAll seq names) (fun _ => Remains seq []) c :=
  wp_foldlM (I := fun names _ => Remains seq names) (fun _ _ _ _ h => sure_unlinkOne h) h

theorem remains_listing {e : Env} (he : e.short = none) (hseq : seq ∈ c.names) :
    Remains seq (c.listing seq e) c := by
  refine ⟨hseq, ?_⟩
  intro name hthere
  rw [listing, he]
  show name ∈ if e.order.Perm (c.present seq) then e.order else c.present seq
  by_cases horder : e.order.Perm (c.present seq)
  · rw [if_pos horder]
    exact horder.mem_iff.mpr (mem_present hthere)
  · rw [if_neg horder]
    exact mem_present hthere

-- Where nothing fails, the directory is gone, or there was none.
theorem sure_sdlogRemove (seq : Nat) (c : Card) :
    wp act Sure (fun _ => True) (sdlogRemove seq) (fun err c' => err = .ok ∨ c' = c) c := by
  rw [sdlogRemove, wp_bind, wp_perform]
  refine ⟨trivial, ?_⟩
  intro e he
  by_cases hseq : seq ∈ c.names
  · have hact : act (.readDir seq) e c = (.got (c.listing seq e), c) := by
      simp only [act, he.1, hseq, Bool.false_eq_true, if_false, not_true_eq_false]
    rw [hact]
    refine (wp_bind _ _).mpr (wp_mono ?_ (sure_unlinkAll (remains_listing he.2 hseq)))
    intro _ c1 hc1
    rw [wp_bind, wp_perform]
    refine ⟨trivial, ?_⟩
    intro e he
    have hempty : c1.present seq = [] := by
      apply List.filter_eq_nil_iff.mpr
      intro name _ hthere
      exact List.not_mem_nil (hc1.2 name (Option.isSome_iff_ne_none.mp hthere))
    have hgo : ¬(e.fails = true ∨ seq ∉ c1.names ∨ c1.present seq ≠ []) := by
      simp [he.1, hc1.1, hempty]
    have hrmdir : act (.rmdir seq) e c1 =
        (true, { c1 with names := c1.names.filter (· ≠ seq) }) := if_neg hgo
    rw [hrmdir]
    exact .inl rfl
  · have hact : act (.readDir seq) e c = (.absent, c) := by
      simp only [act, he.1, hseq, Bool.false_eq_true, if_false, not_false_eq_true, if_true]
    rw [hact]
    exact .inr rfl

end Espos.Sdlog
