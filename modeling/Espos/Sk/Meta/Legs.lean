import Espos.Sk.Meta.Round

-- What each step does to the table, and to the leg under way.

namespace Espos.Sk.Meta

open Espos.Text

-- An entry of a modified list is the modified one or an old one.
theorem of_getElem?_modify {α : Type*} {l : List α} {i j : Nat} {f : α → α} {x : α}
    (h : (l.modify i f)[j]? = some x) :
    (i = j ∧ ∃ y, l[j]? = some y ∧ f y = x) ∨ (i ≠ j ∧ l[j]? = some x) := by
  rw [List.getElem?_modify, Option.map_eq_map, Option.map_eq_some_iff] at h
  obtain ⟨y, hy, hx⟩ := h
  by_cases hij : i = j
  · exact .inl ⟨hij, y, hy, by simpa [hij] using hx⟩
  · have hyx : y = x := by simpa [hij] using hx
    exact .inr ⟨hij, by rw [hy, hyx]⟩

namespace Table

variable {t : Table}

@[simp] theorem length_sent (t : Table) (i : Nat) (gen conn : UInt32) (text : CStr) :
    (t.sent i gen conn text).entries.length = t.entries.length := by
  simp [sent]

@[simp] theorem length_legDone (t : Table) (i : Nat) (gen : UInt32) (step : Step) :
    (t.legDone i gen step).entries.length = t.entries.length := by
  simp only [legDone]
  split
  · simp
  · split <;> rfl

@[simp] theorem entries_roundEnd (t : Table) (nowMs delayMs : UInt32) :
    (t.roundEnd nowMs delayMs).1.entries = t.entries := by
  simp only [roundEnd]
  split <;> rfl

@[simp] theorem next_roundEnd (t : Table) (nowMs delayMs : UInt32) :
    (t.roundEnd nowMs delayMs).1.next = t.next := by
  simp only [roundEnd]
  split <;> rfl

theorem next_legDone (t : Table) (i : Nat) (gen : UInt32) (step : Step) :
    (t.legDone i gen step).next =
      if step = .unauthorized ∨ step = .backOff then i + 1 else t.next := by
  simp only [legDone]
  split
  · rename_i hdone
    rw [if_neg (by simp [hdone])]
  · split <;> rfl

@[simp] theorem next_sent (t : Table) (i : Nat) (gen conn : UInt32) (text : CStr) :
    (t.sent i gen conn text).next = t.next := rfl

def paths (t : Table) : List (Buf PATH_MAX) :=
  t.entries.map Entry.path

theorem paths_modify (entries : List Entry) (i : Nat) {f : Entry → Entry}
    (hf : ∀ e, (f e).path = e.path) :
    (entries.modify i f).map Entry.path = entries.map Entry.path := by
  apply List.ext_getElem?
  intro j
  rw [List.getElem?_map, List.getElem?_modify, List.getElem?_map]
  cases entries[j]? with
  | none => simp
  | some e =>
    by_cases hij : i = j
    · simp [hij, hf]
    · simp [hij]

@[simp] theorem paths_connected (t : Table) : t.connected.paths = t.paths := by
  simp [paths, connected, Function.comp_def]

@[simp] theorem paths_legDone (t : Table) (i : Nat) (gen : UInt32) (step : Step) :
    (t.legDone i gen step).paths = t.paths := by
  simp only [legDone]
  split
  · apply paths_modify
    intro e
    split <;> rfl
  · split <;> rfl

@[simp] theorem paths_sent (t : Table) (i : Nat) (gen conn : UInt32) (text : CStr) :
    (t.sent i gen conn text).paths = t.paths := by
  apply paths_modify
  exact fun _ => rfl

@[simp] theorem paths_roundEnd (t : Table) (nowMs delayMs : UInt32) :
    (t.roundEnd nowMs delayMs).1.paths = t.paths := by
  rw [paths, entries_roundEnd, paths]

-- What a declaration does to an entry that was there.
def redeclared (metaJson : CStr) (periodMs : UInt32) (e : Entry) : Entry :=
  { e with metaJson := metaJson, periodMs := periodMs, gen := e.gen + 1, reconciled := false }

theorem declare_cases (t : Table) (cap : Nat) (path : Buf PATH_MAX) (metaJson : CStr)
    (periodMs : UInt32) :
    (t.declare cap path metaJson periodMs).1 = t ∨
    (∃ i, t.paths[i]? = some path ∧ (t.declare cap path metaJson periodMs).1 =
      t.touch (t.entries.modify i (redeclared metaJson periodMs))) ∨
    (path ∉ t.paths ∧ (t.declare cap path metaJson periodMs).1 =
      t.touch (t.entries ++ [⟨path, metaJson, periodMs, 1, false, none⟩])) := by
  cases hfind : t.entries.findIdx? (fun e => e.path = path) with
  | some i =>
    obtain ⟨hi, hpath, _⟩ := List.findIdx?_eq_some_iff_getElem.mp hfind
    have hat : t.paths[i]? = some path := by
      rw [paths, List.getElem?_map, List.getElem?_eq_getElem hi]
      simpa using hpath
    simp only [declare, hfind]
    split
    · exact Or.inl rfl
    · exact Or.inr (Or.inl ⟨i, hat, rfl⟩)
  | none =>
    have hnot : path ∉ t.paths := by
      intro hmem
      obtain ⟨e, he, rfl⟩ := List.mem_map.mp hmem
      simpa using List.findIdx?_eq_none_iff.mp hfind e he
    simp only [declare, hfind]
    split
    · exact Or.inl rfl
    · exact Or.inr (Or.inr ⟨hnot, rfl⟩)

theorem paths_declare (t : Table) (cap : Nat) (path : Buf PATH_MAX) (metaJson : CStr)
    (periodMs : UInt32) :
    (t.declare cap path metaJson periodMs).1.paths = t.paths ∨
      (path ∉ t.paths ∧ (t.declare cap path metaJson periodMs).1.paths = t.paths ++ [path]) := by
  rcases t.declare_cases cap path metaJson periodMs with hsame | ⟨i, _, hmod⟩ | ⟨hnot, hadd⟩
  · exact Or.inl (by rw [hsame])
  · left
    rw [hmod]
    exact paths_modify t.entries i fun _ => rfl
  · right
    refine ⟨hnot, ?_⟩
    rw [hadd]
    simp [paths, touch]

theorem nodup_declare (h : t.paths.Nodup) (cap : Nat) (path : Buf PATH_MAX) (metaJson : CStr)
    (periodMs : UInt32) : (t.declare cap path metaJson periodMs).1.paths.Nodup := by
  rcases t.paths_declare cap path metaJson periodMs with hsame | ⟨hnot, hadd⟩
  · rw [hsame]
    exact h
  · rw [hadd]
    apply List.nodup_append.mpr
    refine ⟨h, by simp, ?_⟩
    intro x hx y hy hxy
    rw [hxy, List.mem_singleton.mp hy] at hx
    exact hnot hx

end Table

namespace Client

variable {V : Type} {J : Cjson V} {cap : Nat} {c : Client}

theorem table_proceed (c : Client) (a : Input) :
    (c.proceed J a).table = c.table ∨
    (∃ k leg, c.pc = .sent k leg ∧
      (c.proceed J a).table = c.table.sent leg.i leg.gen c.conn leg.text) ∨
    (∃ k leg handed step, c.pc = .close k leg handed step ∧
      (c.proceed J a).table = c.table.legDone leg.i leg.gen step) ∨
    ∃ stop, c.pc = .finish stop ∧
      (c.proceed J a).table = (c.table.roundEnd a.nowMs a.delayMs).1 := by
  cases hpc : c.pc with
  | idle =>
    left
    simp [proceed, hpc, start]
  | scan k =>
    left
    simp only [proceed, hpc]
    split
    · simp only [look]
      split
      · rfl
      · split <;> rfl
    · rfl
  | get k leg =>
    left
    simp [proceed, hpc]
  | check k leg =>
    left
    simp [proceed, hpc]
  | put k leg =>
    left
    simp [proceed, hpc]
  | sent k leg =>
    right
    left
    exact ⟨k, leg, rfl, by simp [proceed, hpc]⟩
  | close k leg handed step =>
    right
    right
    left
    exact ⟨k, leg, handed, step, rfl, by simp [proceed, hpc, close]⟩
  | finish stop =>
    by_cases hepoch : c.table.epoch = c.epoch
    · right
      right
      right
      exact ⟨stop, rfl, by simp [proceed, hpc, finish, hepoch]⟩
    · left
      simp [proceed, hpc, finish, hepoch]

theorem paths_proceed (c : Client) (a : Input) : (c.proceed J a).table.paths = c.table.paths := by
  rcases c.table_proceed a with hsame | ⟨k, leg, _, hsent⟩ | ⟨k, leg, handed, step, _, hdone⟩ |
    ⟨stop, _, hend⟩
  · rw [hsame]
  · rw [hsent, Table.paths_sent]
  · rw [hdone, Table.paths_legDone]
  · rw [hend, Table.paths_roundEnd]

theorem nodup_step (h : c.table.paths.Nodup) (e : Event) : (c.step J cap e).table.paths.Nodup := by
  cases e with
  | declare path metaJson periodMs => exact Table.nodup_declare h cap path metaJson periodMs
  | connected =>
    change c.table.connected.paths.Nodup
    rw [Table.paths_connected]
    exact h
  | proceed a =>
    change (c.proceed J a).table.paths.Nodup
    rw [paths_proceed]
    exact h

-- Only the end of a leg changes an entry.
theorem entries_proceed (a : Input) (hsent : ∀ k leg, c.pc ≠ .sent k leg)
    (hclose : ∀ k leg handed step, c.pc ≠ .close k leg handed step) :
    (c.proceed J a).table.entries = c.table.entries := by
  rcases c.table_proceed a with hsame | ⟨k, leg, hpc, _⟩ | ⟨k, leg, handed, step, hpc, _⟩ |
    ⟨stop, _, hend⟩
  · rw [hsame]
  · exact absurd hpc (hsent k leg)
  · exact absurd hpc (hclose k leg handed step)
  · rw [hend, Table.entries_roundEnd]

theorem conn_proceed (a : Input) (h : c.pc = .idle ∨ c.conn = c.table.conn) :
    (c.proceed J a).pc = .idle ∨ (c.proceed J a).conn = (c.proceed J a).table.conn := by
  cases hpc : c.pc with
  | idle =>
    right
    simp [proceed, hpc, start]
  | finish stop =>
    left
    simp [proceed, hpc, finish]
  | scan k =>
    have hconn : c.conn = c.table.conn := by simpa [hpc] using h
    right
    simp only [proceed, hpc]
    split
    · simp only [look]
      split
      · exact hconn
      · split <;> exact hconn
    · exact hconn
  | get k leg => exact Or.inr (by simpa [proceed, hpc] using h)
  | check k leg => exact Or.inr (by simpa [proceed, hpc] using h)
  | put k leg => exact Or.inr (by simpa [proceed, hpc] using h)
  | sent k leg => exact Or.inr (by simpa [proceed, hpc, Table.sent] using h)
  | close k leg handed step =>
    have hconn : c.conn = c.table.conn := by simpa [hpc] using h
    right
    simp only [proceed, hpc, close, Table.legDone]
    split
    · exact hconn
    · split <;> exact hconn

-- A leg goes on, or it begins with what its entry has.
theorem leg_proceed (a : Input) {leg : Leg} (h : (c.proceed J a).pc.leg = some leg) :
    (c.pc.leg = some leg ∧ ∀ k, c.pc ≠ .scan k) ∨
      ∃ k e, c.pc = .scan k ∧ c.table.entries[leg.i]? = some e ∧ leg.path = e.path := by
  cases hpc : c.pc with
  | scan k =>
    right
    simp only [proceed, hpc] at h
    split at h
    · simp only [look] at h
      split at h
      · simp [hpc, Pc.leg] at h
      · rename_i e he
        split at h
        · cases h
        · refine ⟨k, e, rfl, ?_⟩
          split at h
          · obtain rfl := Option.some.inj h
            exact ⟨he, rfl⟩
          · obtain rfl := Option.some.inj h
            exact ⟨he, rfl⟩
    · cases h
  | idle =>
    simp only [proceed, hpc, start] at h
    split at h <;> cases h
  | get k leg' =>
    left
    simp only [proceed, hpc, ofGet] at h
    split at h <;> exact ⟨h, fun k hk => by cases hk⟩
  | check k leg' =>
    left
    simp only [proceed, hpc] at h
    split at h <;> exact ⟨h, fun k hk => by cases hk⟩
  | put k leg' =>
    left
    simp only [proceed, hpc, ofPut] at h
    split at h <;> exact ⟨h, fun k hk => by cases hk⟩
  | sent k leg' =>
    left
    simp only [proceed, hpc] at h
    exact ⟨h, fun k hk => by cases hk⟩
  | close k leg' handed step =>
    simp only [proceed, hpc, close] at h
    split at h <;> cases h
  | finish stop =>
    simp only [proceed, hpc, finish] at h
    cases h

end Client

end Espos.Sk.Meta
