import Espos.Sdlog.Logger
import Espos.Sdlog.Writes

-- A session whose rows are whole is given its close record.

namespace Espos.Sdlog

open Espos.Text Espos.Crash Espos.Crash.Prog Card

variable {C : Op → Env → Card → Prop} {crash : Card → Prop} {Q : EspErr → Card → Prop}
  {c : Card} {seq n : Nat} {clean : Bool}

-- The rows are the first `n` lines, and are there for good.
structure Closable (seq n : Nat) (c : Card) : Prop where
  mem : seq ∈ c.names
  sound : c.Sound
  shape : c.Shape
  head : (c.dir seq).head = true
  rows : ∃ f, (c.dir seq).rows = some f ∧ f.synced = (c.dir seq).first n ∧
    f.data = (c.dir seq).first n
  durable_le : (c.dir seq).durable ≤ n
  le_passed : n ≤ (c.dir seq).passed.length

-- A card that is like another but for the close record under way.
def Closing (seq : Nat) (c c' : Card) : Prop :=
  (∃ f, c' = c.setFile (.file seq .closeTmp) f) ∨
    ∃ f, c' = (c.setFile (.file seq .closeTmp) f).setFile (.file seq .close) none

theorem Dir.Shape.putClose {d : Dir} (h : d.head = true) (hrows : d.rows ≠ none)
    (f : Option File) : (d.put .close f).Shape :=
  ⟨fun _ => ⟨h, hrows⟩, fun _ _ hnone => absurd hnone hrows⟩

namespace Closable

theorem rows_ne (h : Closable seq n c) : (c.dir seq).rows ≠ none := by
  obtain ⟨f, hf, -⟩ := h.rows
  rw [hf]
  nofun

theorem setTmp (h : Closable seq n c) (f : Option File) :
    Closable seq n (c.setFile (.file seq .closeTmp) f) := by
  have hdir : (c.setFile (.file seq .closeTmp) f).dir seq = c.dir seq := dir_setFile _ _ _ _
  refine ⟨h.mem, h.sound.setFile h.mem ?_, h.shape.setFile ?_, ?_, ?_, ?_, ?_⟩
  · exact h.sound.dirs seq
  · exact h.shape seq
  · rw [hdir]
    exact h.head
  · rw [hdir]
    exact h.rows
  · rw [hdir]
    exact h.durable_le
  · rw [hdir]
    exact h.le_passed

theorem closing {c' : Card} (h : Closable seq n c) (hc : Closing seq c c') :
    c'.Sound ∧ c'.Shape := by
  rcases hc with ⟨f, rfl⟩ | ⟨f, rfl⟩
  · exact ⟨(h.setTmp f).sound, (h.setTmp f).shape⟩
  · have htmp := h.setTmp f
    exact ⟨htmp.sound.setFile htmp.mem ((htmp.sound.dirs seq).putClose nofun),
      htmp.shape.setFile (.putClose htmp.head htmp.rows_ne none)⟩

end Closable

theorem Closing.only {c' : Card} (h : Closing seq c c') : c.Only seq c' := by
  rcases h with ⟨f, rfl⟩ | ⟨f, rfl⟩
  · exact only_setFile _ _ _ _
  · exact (only_setFile _ _ _ _).trans (only_setFile _ _ _ _)

theorem Closing.rows {c' : Card} (h : Closing seq c c') (k : Nat) :
    c'.files (.file k .rows) = c.files (.file k .rows) := by
  rcases h with ⟨f, rfl⟩ | ⟨f, rfl⟩
  · exact setFile_of_ne (by simp) _
  · rw [setFile_of_ne (by simp), setFile_of_ne (by simp)]

-- What `writeClose` leaves when it comes to its end.
structure Closed (clean : Bool) (seq n : Nat) (c c' : Card) : Prop where
  only : c.Only seq c'
  dir : ∃ f, c'.dir seq = (c.dir seq).put .close (some f) ∧ f.synced = f.data ∧
    describes clean n ((c.dir seq).first n) <+: f.data
  rows : ∀ k, c'.files (.file k .rows) = c.files (.file k .rows)
  within : ∀ p, ¬c'.Holds p → c'.files p = none

theorem wp_writeClose {jsonMeta : Option CStr} (h : Closable seq n c) (hnow : crash c ∧ Q .fail c)
    (hclosing : ∀ c', Closing seq c c' → crash c' ∧ Q .fail c')
    (hdone : ∀ c', Closed clean seq n c c' → Q .ok c') :
    wp act C crash
      (writeClose seq clean (.ofNat n) (.ofNat ((c.dir seq).first n).length)
        (hashOf ((c.dir seq).first n)) jsonMeta) Q c := by
  have hshort := @length_closeHead clean (.ofNat n) (.ofNat ((c.dir seq).first n).length)
    (hashOf ((c.dir seq).first n)) (Sha256.length_hex _)
  rw [writeClose, if_neg (Nat.not_le.mpr hshort)]
  refine wp_writeFileAtomic (by simp) rfl rfl hnow fun _ => ⟨?_, ?_, ?_⟩
  · intro f
    exact hclosing _ (.inl ⟨f, rfl⟩)
  · intro f
    exact hclosing _ (.inr ⟨f, rfl⟩)
  · intro f hdata hsynced
    apply hdone
    refine ⟨?_, ⟨f, ?_, hsynced, ?_⟩, ?_, ?_⟩
    · exact (only_setFile _ _ _ _).trans (only_setFile _ _ _ _)
    · rw [dir_setFile, dir_setFile]
      rfl
    · rw [hdata]
      exact List.prefix_append _ _
    · intro k
      rw [setFile_of_ne (by simp), setFile_of_ne (by simp)]
    · have htmp := h.setTmp none
      intro p hp
      have hne : p ≠ .file seq .close := by
        rintro rfl
        exact hp h.mem
      rw [setFile_of_ne hne]
      exact htmp.sound.within p hp

-- The directory with its close record, once the history says that it is closed.
theorem Closable.sound_put (h : Closable seq n c) {f : File} (hsynced : f.synced = f.data)
    (hrecord : describes clean n ((c.dir seq).first n) <+: f.data) {completed : Bool}
    (hclean : clean = true → completed = true) :
    { (c.dir seq).put .close (some f) with completed := completed }.Sound := by
  have hsound := h.sound.dirs seq
  refine ⟨hsound.lines, hsound.durable_le, hsound.rows, ?_⟩
  intro g hg
  obtain rfl := Option.some.inj hg
  refine ⟨n, clean, hsynced, h.durable_le, h.le_passed, hclean, hrecord, ?_⟩
  intro rows hrows
  obtain ⟨f', hf', hwhole⟩ := h.rows
  obtain rfl := Option.some.inj (hf'.symm.trans hrows)
  exact hwhole

namespace Closed

variable {c' : Card}

theorem sound (h : Closable seq n c) (hc : Closed false seq n c c') : c'.Sound := by
  refine ⟨?_, hc.within⟩
  intro k
  by_cases hk : k = seq
  · obtain ⟨f, hdir, hsynced, hrecord⟩ := hc.dir
    rw [hk, hdir]
    exact h.sound_put hsynced hrecord nofun
  · rw [hc.only.dirs k hk]
    exact h.sound.dirs k

theorem sound_complete (h : Closable seq n c) (hc : Closed true seq n c c') :
    (c'.complete (some seq)).Sound := by
  refine ⟨?_, hc.within⟩
  intro k
  by_cases hk : k = seq
  · obtain ⟨f, hdir, hsynced, hrecord⟩ := hc.dir
    have hdir' : (c'.complete (some seq)).dir seq = { c'.dir seq with completed := true } := by
      simp [Card.complete, Card.dir]
    rw [hk, hdir', hdir]
    exact h.sound_put hsynced hrecord fun _ => rfl
  · have hdir : (c'.complete (some seq)).dir k = c'.dir k := by
      simp [Card.complete, Card.dir, hk]
    rw [hdir, hc.only.dirs k hk]
    exact h.sound.dirs k

theorem shape (h : Closable seq n c) (hc : Closed clean seq n c c') : c'.Shape := by
  intro k
  by_cases hk : k = seq
  · obtain ⟨f, hdir, -⟩ := hc.dir
    rw [hk, hdir]
    exact .putClose h.head h.rows_ne _
  · rw [hc.only.dirs k hk]
    exact h.shape k

end Closed

end Espos.Sdlog
