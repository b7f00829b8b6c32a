import Mathlib.Data.List.Nodup
import Espos.Sk.Select.Election

namespace Espos.Sk.Select

open Espos.Text

-- The list has one entry for an address and none without.
structure Listed (l : List Discovered) : Prop where
  host : ∀ d ∈ l, d.host.chars ≠ []
  addr : (l.map Discovered.addr).Nodup

variable {a b d f : Discovered} {l : List Discovered}

theorem sameAddr_eq (h : b.host.chars ≠ []) :
    sameAddr a b.host.chars b.port = decide (a.addr = b.addr) := by
  rw [Bool.eq_iff_iff, sameAddr_iff, decide_eq_true_iff]
  exact ⟨fun h => h.2, fun heq => ⟨h, heq⟩⟩

theorem Listed.eq_of_addr (h : Listed l) (ha : a ∈ l) (hb : b ∈ l) (heq : a.addr = b.addr) :
    a = b :=
  List.inj_on_of_nodup_map h.addr ha hb heq

theorem Listed.sublist (h : Listed l) {l' : List Discovered} (hsub : l'.Sublist l) : Listed l' where
  host := fun d hd => h.host d (hsub.subset hd)
  addr := h.addr.sublist (hsub.map Discovered.addr)

theorem length_filter_addr_ne (h : Listed l) (hf : f ∈ l) :
    (l.filter fun d => decide (d.addr ≠ f.addr)).length + 1 = l.length := by
  have hmap : ((l.map Discovered.addr).erase f.addr).length =
      (l.filter fun d => decide (d.addr ≠ f.addr)).length := by
    rw [h.addr.erase_eq_filter, List.filter_map, List.length_map]
    congr 1
    apply List.filter_congr
    intro d _
    rw [Bool.eq_iff_iff]
    simp
  have hmem : f.addr ∈ l.map Discovered.addr := List.mem_map_of_mem hf
  have hpos := List.length_pos_of_mem hf
  rw [List.length_erase_of_mem hmem, List.length_map] at hmap
  omega

namespace MergeIn

variable (m : MergeIn)

-- Nobody answered for the address this round.
def unanswered (t : Discovered) : Bool :=
  !m.found.any (sameAddr · t.host.chars t.port)

-- The table entry gets a slot if there is one left.
def contends (t : Discovered) : Bool :=
  m.unanswered t && m.carried t

-- The entry the table would be asked for gets no answer and is carried over.
def PickWaits : Prop :=
  ∃ i t, findAnchored m.servers m.keep = some (i, t) ∧ m.contends t = true

-- The merge without its cap.
def answered : List (Discovered × UInt32) :=
  m.reserved.toList ++
    (m.found.filter fun f => !m.reserved.any fun r => sameAddr f r.1.host.chars r.1.port).map
      fun f => (m.stamped f, m.carryAvoid f)

def merged : List (Discovered × UInt32) :=
  m.answered ++ m.table.filter fun t =>
    !m.answered.any (fun o => sameAddr o.1 t.1.host.chars t.1.port) && m.carried t.1

variable {m} {cap : Nat}

theorem addFound_eq {kept : Option (Discovered × UInt32)} {out : List (Discovered × UInt32)}
    {found : List Discovered} (hlen : out.length ≤ cap) :
    m.addFound cap kept out found =
      (out ++ (found.filter fun f => !kept.any fun r => sameAddr f r.1.host.chars r.1.port).map
        fun f => (m.stamped f, m.carryAvoid f)).take cap := by
  induction found generalizing out with
  | nil => simp [addFound, List.take_of_length_le hlen]
  | cons f found ih =>
    rw [addFound]
    split
    · rw [List.take_append_of_le_length (by assumption), List.take_of_length_le hlen]
    · rename_i hroom
      split
      · rename_i hkept
        rw [ih hlen, List.filter_cons_of_neg (by simp [hkept])]
      · rename_i hkept
        rw [ih (by simp only [List.length_append, List.length_singleton]; omega),
          List.filter_cons_of_pos (by simp [hkept])]
        simp

theorem addTable_eq {out table : List (Discovered × UInt32)} (hlen : out.length ≤ cap)
    (hlisted : Listed (table.map Prod.fst)) :
    m.addTable cap out table =
      (out ++ table.filter fun t =>
        !out.any (fun o => sameAddr o.1 t.1.host.chars t.1.port) && m.carried t.1).take cap := by
  induction table generalizing out with
  | nil => simp [addTable, List.take_of_length_le hlen]
  | cons t table ih =>
    have hrest : Listed (table.map Prod.fst) := hlisted.sublist (List.sublist_cons_self _ _)
    rw [addTable]
    split
    · rw [List.take_append_of_le_length (by assumption), List.take_of_length_le hlen]
    · rename_i hroom
      split
      · rename_i hpass
        rw [ih (by simp only [List.length_append, List.length_singleton]; omega) hrest,
          List.filter_cons, if_pos hpass, List.append_assoc, List.singleton_append]
        congr 3
        -- the entries behind it are at other addresses
        apply List.filter_congr
        intro u hu
        have hne : t.1.addr ≠ u.1.addr := by
          intro heq
          apply (List.nodup_cons.mp hlisted.addr).1
          rw [heq]
          exact List.mem_map_of_mem (List.mem_map_of_mem hu)
        have hsame := sameAddr_eq (a := t.1) (hlisted.host u.1 (by simp; exact Or.inr ⟨_, hu⟩))
        simp [List.any_append, hsame, hne]
      · rename_i hpass
        rw [ih hlen hrest, List.filter_cons, if_neg hpass]

theorem mergeServers_eq (hlisted : Listed m.servers) :
    m.mergeServers cap = m.merged.take cap := by
  rw [mergeServers]
  split
  · rename_i hcap
    simp [hcap]
  · have hone : m.reserved.toList.length ≤ cap := by
      cases m.reserved <;> simp
      omega
    have hfound : m.addFound cap m.reserved m.reserved.toList m.found = m.answered.take cap :=
      addFound_eq hone
    rw [hfound, addTable_eq (List.length_take_le _ _) hlisted, merged]
    by_cases hfull : m.answered.length ≤ cap
    · rw [List.take_of_length_le hfull]
    · rw [List.take_append_of_le_length (by rw [List.length_take]; omega),
        List.take_append_of_le_length (by omega), List.take_take, min_self]

theorem length_answered_le : m.answered.length ≤ m.found.length + 1 := by
  have hone : m.reserved.toList.length ≤ 1 := by cases m.reserved <;> simp
  have hle := List.length_filter_le
    (fun f => !m.reserved.any fun r => sameAddr f r.1.host.chars r.1.port) m.found
  rw [answered, List.length_append, List.length_map]
  omega

-- The stamps

theorem foldl_avoid_none {table : List (Discovered × UInt32)} {host : CStr} {port : UInt16}
    {avoid : UInt32} (h : ∀ t ∈ table, sameAddr t.1 host port = false) :
    table.foldl (fun avoid t => if sameAddr t.1 host port then t.2 else avoid) avoid = avoid := by
  induction table generalizing avoid with
  | nil => rfl
  | cons t table ih =>
    rw [List.foldl_cons, if_neg (by simp [h t (by simp)])]
    exact ih fun u hu => h u (List.mem_cons_of_mem _ hu)

theorem foldl_avoid_eq {table : List (Discovered × UInt32)} {t : Discovered × UInt32}
    {avoid : UInt32} (hnodup : (table.map fun t => t.1.addr).Nodup) (ht : t ∈ table)
    (haddr : t.1.addr = d.addr) (hhost : d.host.chars ≠ []) :
    table.foldl (fun avoid t => if sameAddr t.1 d.host.chars d.port then t.2 else avoid) avoid =
      t.2 := by
  induction table generalizing avoid with
  | nil => cases ht
  | cons u table ih =>
    obtain ⟨hu, hrest⟩ := List.nodup_cons.mp hnodup
    rw [List.foldl_cons]
    rcases List.mem_cons.mp ht with rfl | ht
    · rw [if_pos (by simp [sameAddr_eq hhost, haddr])]
      apply foldl_avoid_none
      intro v hv
      rw [sameAddr_eq hhost, decide_eq_false_iff_not]
      intro heq
      exact hu (List.mem_map.mpr ⟨v, hv, heq.trans haddr.symm⟩)
    · exact ih hrest ht

theorem nodup_table (h : Listed m.servers) : (m.table.map fun t => t.1.addr).Nodup := by
  simpa [servers, List.map_map, Function.comp_def] using h.addr

theorem carryAvoid_eq (h : Listed m.servers) {t : Discovered × UInt32} (ht : t ∈ m.table)
    (haddr : t.1.addr = d.addr) : m.carryAvoid d = t.2 := by
  have hhost : d.host.chars ≠ [] := by
    rw [← (Prod.mk.inj haddr).1]
    exact h.host t.1 (List.mem_map_of_mem ht)
  exact foldl_avoid_eq (nodup_table h) ht haddr hhost

theorem carryAvoid_eq_zero (h : ∀ t ∈ m.table, t.1.addr ≠ d.addr) : m.carryAvoid d = 0 := by
  apply foldl_avoid_none
  intro t ht
  rw [← Bool.not_eq_true, sameAddr_iff]
  exact fun hsame => h t ht hsame.2

-- The reserved slot

theorem unanswered_iff (h : d.host.chars ≠ []) :
    m.unanswered d = true ↔ ∀ f ∈ m.found, f.addr ≠ d.addr := by
  simp [unanswered, sameAddr_eq h]

variable (htable : Listed m.servers) (hfound : Listed m.found)

include htable

theorem host_of_mem {t : Discovered × UInt32} (ht : t ∈ m.table) : t.1.host.chars ≠ [] :=
  htable.host t.1 (List.mem_map_of_mem ht)

theorem eq_of_addr {t u : Discovered × UInt32} (ht : t ∈ m.table) (hu : u ∈ m.table)
    (heq : t.1.addr = u.1.addr) : t = u :=
  List.inj_on_of_nodup_map (nodup_table htable) ht hu heq

theorem reservedOfTable_cases :
    (m.reservedOfTable = none ∧ ¬ m.PickWaits) ∨
    (∃ f ∈ m.found, m.reservedOfTable = some (m.stamped f, m.carryAvoid f) ∧ ¬ m.PickWaits) ∨
    ∃ i t, findAnchored m.servers m.keep = some (i, t.1) ∧ m.table[i]? = some t ∧
      m.contends t.1 = true ∧ m.reservedOfTable = some t := by
  simp only [reservedOfTable]
  cases hfind : findAnchored m.servers m.keep with
  | none => exact Or.inl ⟨rfl, by simp [PickWaits, hfind]⟩
  | some p =>
    obtain ⟨i, d⟩ := p
    have hget : m.servers[i]? = some d := (findAnchored_eq_some hfind).1
    obtain ⟨t, ht, rfl⟩ : ∃ t, m.table[i]? = some t ∧ t.1 = d := by
      simpa [servers, List.getElem?_map, Option.map_eq_some_iff] using hget
    have hmem := List.mem_of_getElem? ht
    have havoid : (m.table.map Prod.snd).getD i 0 = t.2 := by simp [List.getD, ht]
    have hwaits : m.PickWaits ↔ m.contends t.1 = true := by simp [PickWaits, hfind]
    simp only [hwaits, havoid]
    cases hanswer : m.found.find? (sameAddr · t.1.host.chars t.1.port) with
    | some f =>
      have hsame := List.find?_some hanswer
      have hf := List.mem_of_find?_eq_some hanswer
      have hstamp : m.carryAvoid f = t.2 :=
        carryAvoid_eq htable hmem (sameAddr_iff.mp hsame).2.symm
      refine Or.inr (Or.inl ⟨f, hf, by rw [hstamp], ?_⟩)
      simp only [contends, unanswered, Bool.and_eq_true, Bool.not_eq_true', not_and,
        Bool.not_eq_true]
      intro hun
      rw [List.any_eq_true.mpr ⟨f, hf, hsame⟩] at hun
      cases hun
    | none =>
      have hun : m.unanswered t.1 = true := by
        simpa [unanswered] using hanswer
      cases hcarried : m.carried t.1 with
      | true =>
        exact Or.inr (Or.inr ⟨i, t, rfl, ht, by simp [contends, hun, hcarried], rfl⟩)
      | false => exact Or.inl ⟨rfl, by simp [contends, hcarried]⟩

-- The first slot goes to an answer, or to the table entry that is picked.
theorem reserved_cases :
    (¬ m.PickWaits ∧
      (m.reserved = none ∨ ∃ f ∈ m.found, m.reserved = some (m.stamped f, m.carryAvoid f))) ∨
    ∃ i t, findAnchored m.servers m.keep = some (i, t.1) ∧ m.table[i]? = some t ∧
      m.contends t.1 = true ∧ m.reserved = some t := by
  simp only [reserved]
  rcases reservedOfTable_cases htable with ⟨hnone, hwaits⟩ | ⟨f, hf, hsome, hwaits⟩ | hpick
  · refine Or.inl ⟨hwaits, ?_⟩
    rw [hnone]
    cases hfind : findAnchored m.found m.keep with
    | none => exact Or.inl rfl
    | some k => exact Or.inr ⟨k.2, (findAnchored_eq_some (i := k.1) (d := k.2) hfind).2.mem, rfl⟩
  · refine Or.inl ⟨hwaits, Or.inr ⟨f, hf, ?_⟩⟩
    rw [hsome]
  · obtain ⟨i, t, hfind, hget, hcontends, hsome⟩ := hpick
    exact Or.inr ⟨i, t, hfind, hget, hcontends, by rw [hsome]⟩

-- What the merge holds

-- An entry of the table that has a slot as the table has it.
theorem mem_answered {o : Discovered × UInt32} (h : o ∈ m.answered) :
    (∃ f ∈ m.found, o = (m.stamped f, m.carryAvoid f)) ∨
      (o ∈ m.table ∧ m.contends o.1 = true ∧ m.reserved = some o) := by
  rcases List.mem_append.mp h with h | h
  · have hsome : m.reserved = some o := by simpa using h
    rcases reserved_cases htable with ⟨_, hnone | ⟨f, hf, hres⟩⟩ | ⟨i, t, _, hget, hcontends, hres⟩
    · rw [hnone] at hsome
      cases hsome
    · rw [hres] at hsome
      exact Or.inl ⟨f, hf, (Option.some.inj hsome).symm⟩
    · rw [hres] at hsome
      obtain rfl := Option.some.inj hsome
      exact Or.inr ⟨List.mem_of_getElem? hget, hcontends, hres⟩
  · obtain ⟨f, hf, rfl⟩ := List.mem_map.mp h
    exact Or.inl ⟨f, (List.mem_filter.mp hf).1, rfl⟩

theorem length_answered_of_reserved {t : Discovered × UInt32} (ht : t ∈ m.table)
    (hcontends : m.contends t.1 = true) (hres : m.reserved = some t) :
    m.answered.length = m.found.length + 1 := by
  have hhost := host_of_mem htable ht
  have hall : (m.found.filter fun g => !m.reserved.any fun r => sameAddr g r.1.host.chars r.1.port) =
      m.found := by
    apply List.filter_eq_self.mpr
    intro g hg
    simp only [contends, Bool.and_eq_true, unanswered_iff hhost] at hcontends
    simp [hres, sameAddr_eq hhost, hcontends.1 g hg]
  rw [answered, hall, hres]
  simp only [Option.toList_some, List.length_append, List.length_map, List.length_singleton]
  omega

include hfound

theorem found_mem_answered (hf : f ∈ m.found) : (m.stamped f, m.carryAvoid f) ∈ m.answered := by
  have hrest (h : (m.reserved.any fun r => sameAddr f r.1.host.chars r.1.port) = false) :
      (m.stamped f, m.carryAvoid f) ∈ m.answered := by
    apply List.mem_append_right
    exact List.mem_map.mpr ⟨f, List.mem_filter.mpr ⟨hf, by simp [h]⟩, rfl⟩
  rcases reserved_cases htable with ⟨_, hnone | ⟨g, hg, hres⟩⟩ | ⟨i, t, _, hget, hcontends, hres⟩
  · exact hrest (by simp [hnone])
  · by_cases heq : f.addr = g.addr
    · obtain rfl := hfound.eq_of_addr hf hg heq
      simp [answered, hres]
    · apply hrest
      have hsame : sameAddr f g.host.chars g.port = decide (f.addr = g.addr) :=
        sameAddr_eq (hfound.host g hg)
      simpa [hres, stamped, heq] using hsame
  · apply hrest
    have ht := List.mem_of_getElem? hget
    have hhost := host_of_mem htable ht
    simp only [contends, Bool.and_eq_true, unanswered_iff hhost] at hcontends
    simp [hres, sameAddr_eq hhost, hcontends.1 f hf]

-- The table entry is behind the answers if it waits for a slot and did not get
-- the first one.
theorem joins_iff {t : Discovered × UInt32} (ht : t ∈ m.table) :
    (!m.answered.any (fun o => sameAddr o.1 t.1.host.chars t.1.port) && m.carried t.1) = true ↔
      m.contends t.1 = true ∧ m.reserved ≠ some t := by
  have hhost := host_of_mem htable ht
  simp only [contends, Bool.and_eq_true, Bool.not_eq_true', unanswered_iff hhost,
    List.any_eq_false, sameAddr_eq hhost, decide_eq_true_iff]
  constructor
  · rintro ⟨hany, hcarried⟩
    refine ⟨⟨?_, hcarried⟩, ?_⟩
    · intro f hf
      exact hany _ (found_mem_answered htable hfound hf)
    · intro hres
      apply hany t _ rfl
      simp [answered, hres]
  · rintro ⟨⟨hun, hcarried⟩, hres⟩
    refine ⟨?_, hcarried⟩
    intro o ho heq
    rcases mem_answered htable ho with ⟨f, hf, rfl⟩ | ⟨hmem, _, hres'⟩
    · exact hun f hf heq
    · obtain rfl := eq_of_addr htable hmem ht heq
      exact hres hres'

theorem merged_eq :
    m.merged = m.answered ++
      m.table.filter fun t => m.contends t.1 && decide (m.reserved ≠ some t) := by
  rw [merged]
  congr 1
  apply List.filter_congr
  intro t ht
  rw [Bool.eq_iff_iff, joins_iff htable hfound ht, Bool.and_eq_true, decide_eq_true_iff]

-- The answers have a slot each, and so has the picked entry that waits.
theorem length_answered (h : ¬ m.PickWaits) : m.answered.length = m.found.length := by
  rcases reserved_cases htable with ⟨_, hnone | ⟨f, hf, hres⟩⟩ | ⟨i, t, hfind, _, hcontends, _⟩
  · simp [answered, hnone]
  · have hne : (m.found.filter fun g => !m.reserved.any fun r => sameAddr g r.1.host.chars r.1.port) =
        m.found.filter fun g => decide (g.addr ≠ f.addr) := by
      apply List.filter_congr
      intro g _
      have hsame : sameAddr g f.host.chars f.port = decide (g.addr = f.addr) :=
        sameAddr_eq (hfound.host f hf)
      simp [hres, stamped, hsame]
    have hlen := length_filter_addr_ne hfound hf
    rw [answered, hne, hres]
    simp only [Option.toList_some, List.length_append, List.length_map, List.length_singleton]
    omega
  · exact absurd ⟨i, t.1, hfind, hcontends⟩ h

omit htable in
theorem nodup_answered : (m.answered.map fun o => o.1.addr).Nodup := by
  rw [answered, List.map_append, List.map_map, List.nodup_append]
  refine ⟨?_, ?_, ?_⟩
  · cases m.reserved <;> simp
  · have hsub := (List.filter_sublist (p := fun f =>
      !m.reserved.any fun r => sameAddr f r.1.host.chars r.1.port) (l := m.found)).map Discovered.addr
    exact hfound.addr.sublist hsub
  · intro x hx y hy heq
    obtain ⟨f, hf, rfl⟩ := List.mem_map.mp hy
    obtain ⟨hmem, hkept⟩ := List.mem_filter.mp hf
    obtain ⟨r, hr, rfl⟩ := List.mem_map.mp hx
    have hres : m.reserved = some r := by simpa using hr
    have haddr : r.1.addr = f.addr := heq
    have hhost : r.1.host.chars ≠ [] := by
      rw [(Prod.mk.inj haddr).1]
      exact hfound.host f hmem
    simp [hres, sameAddr_eq hhost, haddr] at hkept

theorem nodup_merged : (m.merged.map fun o => o.1.addr).Nodup := by
  rw [merged_eq htable hfound, List.map_append, List.nodup_append]
  refine ⟨nodup_answered hfound, ?_, ?_⟩
  · have hsub := (List.filter_sublist (p := fun t : Discovered × UInt32 =>
      m.contends t.1 && decide (m.reserved ≠ some t)) (l := m.table)).map fun t => t.1.addr
    exact (nodup_table htable).sublist hsub
  · intro x hx y hy heq
    obtain ⟨o, ho, rfl⟩ := List.mem_map.mp hx
    obtain ⟨t, ht, rfl⟩ := List.mem_map.mp hy
    obtain ⟨hmem, hjoins⟩ := List.mem_filter.mp ht
    rw [Bool.and_eq_true, decide_eq_true_iff] at hjoins
    rcases mem_answered htable ho with ⟨f, hf, rfl⟩ | ⟨hmem', _, hres⟩
    · have hun := hjoins.1
      simp only [contends, Bool.and_eq_true, unanswered_iff (host_of_mem htable hmem)] at hun
      exact hun.1 f hf heq
    · obtain rfl := eq_of_addr htable hmem' hmem heq
      exact hjoins.2 hres

end MergeIn

end Espos.Sk.Select
