import Espos.Sk.Meta.Legs

-- What is so about the text of a path without meta on the server, until its first
-- mark.

namespace Espos.Sk.Meta

open Espos.Text

-- The leg whose text the server took.
def Pc.posted : Pc → Option Leg
  | .sent _ leg => some leg
  | .close _ leg true .done => some leg
  | _ => none

theorem Pc.leg_of_posted {pc : Pc} {leg : Leg} (h : pc.posted = some leg) : pc.leg = some leg := by
  cases pc with
  | sent k leg' => exact h
  | close k leg' handed step =>
    cases handed with
    | true =>
      cases step with
      | done => exact h
      | put => cases h
      | later => cases h
      | unauthorized => cases h
      | backOff => cases h
    | false => cases h
  | idle => cases h
  | scan k => cases h
  | get k leg' => cases h
  | check k leg' => cases h
  | put k leg' => cases h
  | finish stop => cases h

-- Nothing about an entry is under way.
structure Pc.Quiet (pc : Pc) : Prop where
  get : ∀ k leg, pc ≠ .get k leg
  own : ∀ k leg, pc ≠ .close k leg false .done
  posted : pc.posted = none

namespace World

-- The server has nothing of the entry, or a text the device knows it has there.
def Safe (w : World) (e : Entry) : Prop :=
  w.server e.path = none ∨ w.server e.path = e.stale

-- What is so about entry `j` until its first mark, if the server had no meta for
-- it.
structure Owes (w : World) (j : Nat) (e : Entry) : Prop where
  asked : ∀ k leg, w.client.pc = .get k leg → leg.i = j → leg.replaced = e.stale
  own : ∀ k leg, w.client.pc = .close k leg false .done → leg.i ≠ j
  posted : ∀ leg, w.client.pc.posted = some leg → leg.i = j → w.server e.path = some leg.text
  recorded : ∀ k leg, w.client.pc = .close k leg true .done → leg.i = j →
    e.stale = some leg.text ∨ (e.stale = none ∧ e.gen = leg.gen)
  safe : (∀ leg, w.client.pc.posted = some leg → leg.i ≠ j) → w.Safe e

structure Tracks (before : Buf PATH_MAX → Option CStr) (w : World) : Prop where
  nodup : w.client.table.paths.Nodup
  leg : ∀ leg, w.client.pc.leg = some leg →
    w.client.table.paths[leg.i]? = some leg.path ∧ leg.text ∈ w.since
  conn : w.client.pc = .idle ∨ w.client.conn = w.client.table.conn
  undeclared : ∀ path, before path = none → path ∉ w.client.table.paths → w.server path = none
  kept : ∀ j e, w.client.table.entries[j]? = some e → before e.path = none →
    e.path ∉ w.marked → w.Owes j e

variable {V : Type} {J : Cjson V} {cap : Nat} {before : Buf PATH_MAX → Option CStr} {w : World}

theorem Owes.of_quiet {j : Nat} {e : Entry} (hquiet : w.client.pc.Quiet) (hsafe : w.Safe e) :
    w.Owes j e where
  asked := fun k leg hpc => absurd hpc (hquiet.get k leg)
  own := fun k leg hpc => absurd hpc (hquiet.own k leg)
  posted := by
    intro leg hpc
    rw [hquiet.posted] at hpc
    cases hpc
  recorded := by
    intro k leg hpc
    have hposted := hquiet.posted
    rw [hpc] at hposted
    cases hposted
  safe := fun _ => hsafe

-- The leg is about another entry.
theorem Owes.of_apart {j : Nat} {e : Entry}
    (hne : ∀ leg, w.client.pc.leg = some leg → leg.i ≠ j) (hsafe : w.Safe e) : w.Owes j e where
  asked := by
    intro k leg hpc hi
    exact absurd hi (hne leg (by rw [hpc]; rfl))
  own := by
    intro k leg hpc
    exact hne leg (by rw [hpc]; rfl)
  posted := fun leg hpc hi => absurd hi (hne leg (Pc.leg_of_posted hpc))
  recorded := by
    intro k leg hpc hi
    exact absurd hi (hne leg (by rw [hpc]; rfl))
  safe := fun _ => hsafe

theorem tracks_connect {c : Client} (hidle : c.pc = .idle) (hnodup : c.table.paths.Nodup)
    (server : Buf PATH_MAX → Option CStr) : Tracks server (connect c server) where
  nodup := by
    change c.table.connected.paths.Nodup
    rw [Table.paths_connected]
    exact hnodup
  leg := by
    intro leg hleg
    change c.pc.leg = some leg at hleg
    rw [hidle] at hleg
    cases hleg
  conn := Or.inl hidle
  undeclared := fun _ h _ => h
  kept := by
    intro j e _ hnone _
    apply Owes.of_quiet
    · change c.pc.Quiet
      rw [hidle]
      exact ⟨by simp, by simp, rfl⟩
    · exact Or.inl hnone

-- Declarations

theorem leg_declare (h : Tracks before w) (path : Buf PATH_MAX) (metaJson : CStr)
    (periodMs : UInt32) {leg : Leg} (hleg : w.client.pc.leg = some leg) :
    (w.client.table.declare cap path metaJson periodMs).1.paths[leg.i]? = some leg.path ∧
      leg.text ∈ (w.declare J cap path metaJson periodMs).since := by
  obtain ⟨hpath, htext⟩ := h.leg leg hleg
  constructor
  · rcases w.client.table.paths_declare cap path metaJson periodMs with hsame | ⟨_, hadd⟩
    · rw [hsame]
      exact hpath
    · obtain ⟨hi, _⟩ := List.getElem?_eq_some_iff.mp hpath
      rw [hadd, List.getElem?_append_left hi]
      exact hpath
  · simp only [declare]
    split
    · exact List.mem_cons_of_mem _ htext
    · exact htext

-- Only the generation of an entry that was declared again matters, and only
-- between the record of a PUT and its close.
theorem Owes.redeclared {metaJson : CStr} {periodMs : UInt32} {j : Nat} {e : Entry} {w' : World}
    (h : w.Owes j e) (hpc : w'.client.pc = w.client.pc) (hserver : w'.server = w.server)
    (hcareful : ∀ k leg, w.client.pc = .close k leg true .done → leg.i = j → e.gen ≠ leg.gen) :
    w'.Owes j (Table.redeclared metaJson periodMs e) where
  asked := by
    rw [hpc]
    exact h.asked
  own := by
    rw [hpc]
    exact h.own
  posted := by
    rw [hpc, hserver]
    exact h.posted
  recorded := by
    intro k leg hclose hi
    rw [hpc] at hclose
    rcases h.recorded k leg hclose hi with hstale | ⟨_, hgen⟩
    · exact Or.inl hstale
    · exact absurd hgen (hcareful k leg hclose hi)
  safe := by
    rw [hpc, Safe, hserver]
    exact h.safe

theorem Owes.congr {j : Nat} {e : Entry} {w' : World} (h : w.Owes j e)
    (hpc : w'.client.pc = w.client.pc) (hserver : w'.server = w.server) : w'.Owes j e where
  asked := by
    rw [hpc]
    exact h.asked
  own := by
    rw [hpc]
    exact h.own
  posted := by
    rw [hpc, hserver]
    exact h.posted
  recorded := by
    rw [hpc]
    exact h.recorded
  safe := by
    rw [hpc, Safe, hserver]
    exact h.safe

theorem kept_declare (h : Tracks before w) (path : Buf PATH_MAX) (metaJson : CStr)
    (periodMs : UInt32) (hcareful : w.Careful cap (.declare path metaJson periodMs)) {j : Nat}
    {e : Entry}
    (he : (w.client.table.declare cap path metaJson periodMs).1.entries[j]? = some e)
    (hnone : before e.path = none) (hunmarked : e.path ∉ w.marked) :
    (w.declare J cap path metaJson periodMs).Owes j e := by
  rcases w.client.table.declare_cases cap path metaJson periodMs with hsame | ⟨i, hat, hmod⟩ |
    ⟨hnot, hadd⟩
  · rw [hsame] at he
    exact (h.kept j e he hnone hunmarked).congr rfl rfl
  · rw [hmod] at he
    simp only [Table.touch] at he
    rcases of_getElem?_modify he with ⟨hij, y, hy, rfl⟩ | ⟨_, hold⟩
    · refine (h.kept j y hy hnone hunmarked).redeclared ?_ ?_ ?_
      · rfl
      · rfl
      intro k leg hclose hi hgen
      have hleg := (h.leg leg (by rw [hclose]; rfl)).1
      rw [hi, ← hij, hat] at hleg
      simp only [Careful, hclose] at hcareful
      have hout : w.client.outdated leg = false := by
        simp [Client.outdated, hi, hy, hgen]
      have hsame := hcareful (Option.some.inj hleg).symm hout
      rw [hmod] at hsame
      have hepoch : w.client.table.epoch + 1 = w.client.table.epoch :=
        congrArg Table.epoch hsame
      simp at hepoch
    · exact (h.kept j e hold hnone hunmarked).congr rfl rfl
  · rw [hadd] at he
    simp only [Table.touch] at he
    by_cases hj : j < w.client.table.entries.length
    · rw [List.getElem?_append_left hj] at he
      exact (h.kept j e he hnone hunmarked).congr rfl rfl
    · have hnew : e.path = path := by
        rw [List.getElem?_append_right (by omega)] at he
        have hmem := List.mem_of_getElem? he
        rw [List.mem_singleton.mp hmem]
      apply Owes.of_apart
      · intro leg hleg hi
        obtain ⟨hlt, _⟩ := List.getElem?_eq_some_iff.mp (h.leg leg hleg).1
        rw [Table.paths, List.length_map] at hlt
        omega
      · left
        change w.server e.path = none
        rw [hnew] at hnone ⊢
        exact h.undeclared path hnone hnot

theorem tracks_declare (h : Tracks before w) (path : Buf PATH_MAX) (metaJson : CStr)
    (periodMs : UInt32) (hcareful : w.Careful cap (.declare path metaJson periodMs)) :
    Tracks before (w.declare J cap path metaJson periodMs) where
  nodup := Table.nodup_declare h.nodup cap path metaJson periodMs
  leg := fun _ hleg => leg_declare h path metaJson periodMs hleg
  conn := by
    change w.client.pc = .idle ∨
      w.client.conn = (w.client.table.declare cap path metaJson periodMs).1.conn
    rcases w.client.table.declare_cases cap path metaJson periodMs with hsame | ⟨i, _, hmod⟩ |
      ⟨_, hadd⟩
    · rw [hsame]
      exact h.conn
    · rw [hmod]
      exact h.conn
    · rw [hadd]
      exact h.conn
  undeclared := by
    intro path' hnone hnot
    apply h.undeclared path' hnone
    intro hmem
    apply hnot
    change path' ∈ (w.client.table.declare cap path metaJson periodMs).1.paths
    rcases w.client.table.paths_declare cap path metaJson periodMs with hsame | ⟨_, hadd⟩
    · rw [hsame]
      exact hmem
    · rw [hadd]
      exact List.mem_append_left _ hmem
  kept := fun _ _ he hnone hunmarked =>
    kept_declare h path metaJson periodMs hcareful he hnone hunmarked

end World

end Espos.Sk.Meta
