import Espos.Sk.Select.Merge

namespace Espos.Sk.Select

open Espos.Text

namespace MergeIn

variable (m : MergeIn)

-- How old the entry is.
def age (d : Discovered) : UInt32 :=
  m.nowMs - d.seenMs

-- How many slots are given out before table entry `i` has its turn, by the
-- answers and by the entries of the table that nobody answered for. The one
-- that is picked comes first.
def slotsBefore (i : Nat) : Nat :=
  match findAnchored m.servers m.keep with
  | none => m.found.length + (m.table.take i).countP fun t => m.contends t.1
  | some (k, d) =>
    if k = i then 0
    else
      m.found.length + ((m.table.take i).countP fun t => m.contends t.1) +
        if i < k ∧ m.contends d then 1 else 0

-- What the merge promises.
structure Sound (cap : Nat) (out : List (Discovered × UInt32)) : Prop where
  size : out.length ≤ cap
  listed : Listed (out.map Prod.fst)
  origin : ∀ o ∈ out, (∃ f ∈ m.found, o.1 = m.stamped f) ∨
    ∃ t ∈ m.table, t.1 = o.1 ∧ m.age o.1 < m.carryMs
  stamp : ∀ o ∈ out, (∀ t ∈ m.table, t.1.addr = o.1.addr → o.2 = t.2) ∧
    ((∀ t ∈ m.table, t.1.addr ≠ o.1.addr) → o.2 = 0)
  complete : m.found.length + 1 ≤ cap → ∀ f ∈ m.found, ∃ o ∈ out, o.1 = m.stamped f
  anchored : ∀ (s : Servers) (a : Anchor),
    m = (s.anchorNoteAnswers a m.found).mergeInOf a m.found m.nowMs → 0 < cap →
      ∀ f ∈ m.found, isAnchor f a = true → ∃ o ∈ out, o.1 = m.stamped f

variable {m} {cap : Nat}

theorem toInt_toInt32 (x : UInt32) :
    x.toInt32.toInt = if x.toNat < 2 ^ 31 then (x.toNat : Int) else x.toNat - 2 ^ 32 := by
  have h : x.toInt32.toInt = x.toBitVec.toInt := rfl
  rw [h, BitVec.toInt_eq_toNat_cond, UInt32.toNat_toBitVec]
  split <;> split <;> omega

-- The signed comparison takes an age from 2^31 on for a negative one.
theorem carried_iff (d : Discovered) :
    m.carried d = true ↔
      if m.carryMs.toNat < 2 ^ 31 then m.age d < m.carryMs ∨ 2 ^ 31 ≤ (m.age d).toNat
      else 2 ^ 31 ≤ (m.age d).toNat ∧ m.age d < m.carryMs := by
  have hcarried : m.carried d = true ↔ (m.age d).toInt32.toInt < m.carryMs.toInt32.toInt := by
    simp only [carried, age, decide_eq_true_iff, Int32.lt_iff_toInt_lt]
  have hage := (m.age d).toNat_lt
  have hmax := m.carryMs.toNat_lt
  rw [hcarried, toInt_toInt32, toInt_toInt32, UInt32.lt_iff_toNat_lt]
  by_cases hcarry : m.carryMs.toNat < 2 ^ 31
  · rw [if_pos hcarry, if_pos hcarry]
    by_cases hyoung : (m.age d).toNat < 2 ^ 31
    · rw [if_pos hyoung]
      omega
    · rw [if_neg hyoung]
      omega
  · rw [if_neg hcarry, if_neg hcarry]
    by_cases hyoung : (m.age d).toNat < 2 ^ 31
    · rw [if_pos hyoung]
      omega
    · rw [if_neg hyoung]
      omega

-- Slots

-- What is carried over is young, or so old that the age is negative.
theorem young_of_contends {d : Discovered} (h : m.contends d = true)
    (hnot : m.carryMs.toNat < 2 ^ 31 → 2 ^ 31 ≤ (m.age d).toNat → m.unanswered d = true → False) :
    m.age d < m.carryMs := by
  obtain ⟨hun, hcarried⟩ := Bool.and_eq_true_iff.mp h
  rw [carried_iff] at hcarried
  by_cases hcarry : m.carryMs.toNat < 2 ^ 31
  · rw [if_pos hcarry] at hcarried
    rcases hcarried with hyoung | hold
    · exact hyoung
    · exact absurd hun (hnot hcarry hold)
  · rw [if_neg hcarry] at hcarried
    exact hcarried.2

theorem mem_take_iff {α β : Type} {key : α → β} {x y : List α} {t : α}
    (h : ((x ++ t :: y).map key).Nodup) : t ∈ (x ++ t :: y).take cap ↔ x.length < cap := by
  by_cases hlt : x.length < cap
  · simp only [hlt, iff_true]
    rw [List.take_append, List.mem_append]
    right
    obtain ⟨n, hn⟩ : ∃ n, cap - x.length = n + 1 := ⟨cap - x.length - 1, by omega⟩
    simp [hn]
  · simp only [hlt, iff_false]
    rw [List.take_append_of_le_length (by omega)]
    intro hin
    rw [List.map_append, List.nodup_append] at h
    exact h.2.2 (key t) (List.mem_map_of_mem (List.mem_of_mem_take hin)) (key t) (by simp) rfl

theorem length_filter_ne {α : Type} [DecidableEq α] {p : α → Bool} {l : List α} {u : α}
    (h : l.Nodup) (hu : p u = true) :
    (l.filter fun t => p t && decide (u ≠ t)).length + (if u ∈ l then 1 else 0) = l.countP p := by
  induction l with
  | nil => simp
  | cons x l ih =>
    obtain ⟨hx, hl⟩ := List.nodup_cons.mp h
    have ih := ih hl
    by_cases heq : u = x
    · subst heq
      rw [if_neg hx] at ih
      rw [List.filter_cons_of_neg (by simp), List.countP_cons_of_pos hu]
      simp only [List.mem_cons, true_or, if_true]
      omega
    · have hmem : u ∈ x :: l ↔ u ∈ l := by simp [heq]
      simp only [hmem]
      cases hp : p x with
      | true =>
        rw [List.filter_cons_of_pos (by simp [hp, heq]), List.countP_cons_of_pos hp,
          List.length_cons]
        omega
      | false =>
        rw [List.filter_cons_of_neg (by simp [hp]), List.countP_cons_of_neg (by simp [hp])]
        exact ih

theorem mem_take_iff_lt {α : Type} {l : List α} (h : l.Nodup) {k i : Nat} {u : α}
    (hk : l[k]? = some u) : u ∈ l.take i ↔ k < i := by
  obtain ⟨hlt, rfl⟩ := List.getElem?_eq_some_iff.mp hk
  rw [List.mem_take_iff_getElem]
  constructor
  · rintro ⟨j, hj, heq⟩
    have : j = k := (List.Nodup.getElem_inj_iff h).mp heq
    omega
  · intro hki
    exact ⟨k, by omega, rfl⟩

variable (htable : Listed m.servers) (hfound : Listed m.found)

include htable

theorem addr_ne_of_contends {t : Discovered × UInt32} {f : Discovered} (ht : t ∈ m.table)
    (hcontends : m.contends t.1 = true) (hf : f ∈ m.found) : f.addr ≠ t.1.addr := by
  simp only [contends, Bool.and_eq_true, unanswered_iff (host_of_mem htable ht)] at hcontends
  exact hcontends.1 f hf

-- A table entry that has the first slot without an answer is the one picked.
theorem pick_of_reserved {t : Discovered × UInt32} (ht : t ∈ m.table)
    (hcontends : m.contends t.1 = true) (hres : m.reserved = some t) :
    ∃ k, findAnchored m.servers m.keep = some (k, t.1) ∧ m.table[k]? = some t := by
  rcases reserved_cases htable with ⟨_, hnone | ⟨f, hf, hstamped⟩⟩ | ⟨k, u, hfind, hget, _, hu⟩
  · rw [hnone] at hres
    cases hres
  · rw [hstamped] at hres
    obtain rfl := Option.some.inj hres
    have hne : f.addr ≠ (m.stamped f).addr := addr_ne_of_contends htable ht hcontends hf
    exact absurd rfl hne
  · rw [hu] at hres
    obtain rfl := Option.some.inj hres
    exact ⟨k, hfind, hget⟩

include hfound

-- What has a slot before table entry `i`.
theorem length_before {i : Nat} {t : Discovered × UInt32} (hget : m.table[i]? = some t)
    (hcontends : m.contends t.1 = true) (hres : m.reserved ≠ some t) :
    (m.answered ++ (m.table.take i).filter fun t =>
      m.contends t.1 && decide (m.reserved ≠ some t)).length = m.slotsBefore i := by
  rw [List.length_append, slotsBefore]
  rcases reserved_cases htable with ⟨hwaits, hanswer⟩ | ⟨k, u, hfind, hku, hu, hreserved⟩
  · have hfilter : ((m.table.take i).filter fun t =>
        m.contends t.1 && decide (m.reserved ≠ some t)).length =
        (m.table.take i).countP fun t => m.contends t.1 := by
      rw [List.countP_eq_length_filter]
      congr 1
      apply List.filter_congr
      intro v hv
      cases hv' : m.contends v.1 with
      | false => rfl
      | true =>
        have hne : m.reserved ≠ some v := by
          intro hv''
          obtain ⟨k, hfind, _⟩ := pick_of_reserved htable (List.mem_of_mem_take hv) hv' hv''
          exact hwaits ⟨k, v.1, hfind, hv'⟩
        simp [hne]
    rw [length_answered htable hfound hwaits, hfilter]
    split
    · rfl
    · rename_i k d hfind
      have hd : m.contends d = false := by
        rw [← Bool.not_eq_true]
        exact fun hd => hwaits ⟨k, d, hfind, hd⟩
      rw [if_neg]
      · simp [hd]
      · rintro rfl
        have hd' : m.servers[k]? = some d := (findAnchored_eq_some hfind).1
        simp only [servers, List.getElem?_map, hget, Option.map_some, Option.some.injEq] at hd'
        rw [hd', hd] at hcontends
        cases hcontends
  · have hmem := List.mem_of_getElem? hku
    have hnodup : m.table.Nodup := (nodup_table htable).of_map _
    have hcount := length_filter_ne (p := fun t => m.contends t.1)
      (hnodup.sublist (List.take_sublist i m.table)) hu
    have hne : k ≠ i := by
      rintro rfl
      rw [hku] at hget
      exact hres (hreserved.trans hget)
    simp only [mem_take_iff_lt hnodup hku] at hcount
    rw [length_answered_of_reserved htable hmem hu hreserved, hfind]
    simp only [hreserved, ne_eq, Option.some.injEq, hne, if_false, hu, and_true]
    simp only [ne_eq] at hcount
    by_cases hki : k < i
    · rw [if_pos hki] at hcount
      rw [if_neg (by omega)]
      omega
    · rw [if_neg hki] at hcount
      rw [if_pos (by omega)]
      omega

theorem mem_mergeServers_iff {i : Nat} {t : Discovered × UInt32} (hget : m.table[i]? = some t)
    (hcontends : m.contends t.1 = true) : t ∈ m.mergeServers cap ↔ m.slotsBefore i < cap := by
  rw [mergeServers_eq htable]
  by_cases hres : m.reserved = some t
  · obtain ⟨k, hfind, hk⟩ := pick_of_reserved htable (List.mem_of_getElem? hget) hcontends hres
    have hnodup : m.table.Nodup := (nodup_table htable).of_map _
    obtain ⟨hi, hti⟩ := List.getElem?_eq_some_iff.mp hget
    obtain ⟨hklt, htk⟩ := List.getElem?_eq_some_iff.mp hk
    obtain rfl : k = i := (List.Nodup.getElem_inj_iff hnodup).mp (htk.trans hti.symm)
    have hfirst : m.slotsBefore k = 0 := by simp [slotsBefore, hfind]
    have hkeys := nodup_merged htable hfound
    simp only [merged, answered, hres, Option.toList_some, List.singleton_append] at hkeys ⊢
    rw [hfirst]
    exact mem_take_iff (x := []) hkeys
  · have hsplit : m.table = m.table.take i ++ t :: m.table.drop (i + 1) := by
      obtain ⟨hi, rfl⟩ := List.getElem?_eq_some_iff.mp hget
      rw [← List.drop_eq_getElem_cons hi, List.take_append_drop]
    have hmerged : m.merged =
        (m.answered ++ (m.table.take i).filter fun t =>
          m.contends t.1 && decide (m.reserved ≠ some t)) ++
        t :: (m.table.drop (i + 1)).filter fun t =>
          m.contends t.1 && decide (m.reserved ≠ some t) := by
      rw [merged_eq htable hfound]
      nth_rewrite 1 [hsplit]
      rw [List.filter_append, List.filter_cons_of_pos (by simp [hcontends, hres]),
        List.append_assoc]
    have hnodup := nodup_merged htable hfound
    rw [hmerged] at hnodup
    rw [hmerged, mem_take_iff hnodup, length_before htable hfound hget hcontends hres]

theorem mem_merged {o : Discovered × UInt32} (h : o ∈ m.merged) :
    (∃ f ∈ m.found, o = (m.stamped f, m.carryAvoid f)) ∨
      (o ∈ m.table ∧ m.contends o.1 = true) := by
  rw [merged_eq htable hfound] at h
  rcases List.mem_append.mp h with h | h
  · rcases mem_answered htable h with hanswer | ⟨ho, hcontends, _⟩
    · exact Or.inl hanswer
    · exact Or.inr ⟨ho, hcontends⟩
  · obtain ⟨ho, hjoins⟩ := List.mem_filter.mp h
    exact Or.inr ⟨ho, (Bool.and_eq_true_iff.mp hjoins).1⟩

theorem listed_merged : Listed (m.merged.map Prod.fst) where
  host := by
    intro d hd
    obtain ⟨o, ho, rfl⟩ := List.mem_map.mp hd
    rcases mem_merged htable hfound ho with ⟨f, hf, rfl⟩ | ⟨ho, _⟩
    · exact hfound.host f hf
    · exact host_of_mem htable ho
  addr := by
    simpa [List.map_map, Function.comp_def] using nodup_merged htable hfound

theorem stamp_merged {o : Discovered × UInt32} (h : o ∈ m.merged) :
    (∀ t ∈ m.table, t.1.addr = o.1.addr → o.2 = t.2) ∧
      ((∀ t ∈ m.table, t.1.addr ≠ o.1.addr) → o.2 = 0) := by
  rcases mem_merged htable hfound h with ⟨f, hf, rfl⟩ | ⟨ho, _⟩
  · exact ⟨fun t ht haddr => carryAvoid_eq htable ht haddr, fun hnone => carryAvoid_eq_zero hnone⟩
  · refine ⟨?_, fun hnone => absurd rfl (hnone o ho)⟩
    intro t ht haddr
    rw [eq_of_addr htable ht ho haddr]

-- The answers have a slot each if there is one to spare.
theorem found_mem_mergeServers (hroom : m.found.length + 1 ≤ cap) {f : Discovered}
    (hf : f ∈ m.found) : (m.stamped f, m.carryAvoid f) ∈ m.mergeServers cap := by
  have hin := found_mem_answered htable hfound hf
  have hlen : m.answered.length ≤ m.found.length + 1 := length_answered_le
  rw [mergeServers_eq htable, merged, List.take_append, List.take_of_length_le (by omega)]
  exact List.mem_append_left _ hin

end MergeIn

theorem MergeIn.reserved_mem_mergeServers {m : MergeIn} {cap : Nat} (htable : Listed m.servers)
    (hcap : 0 < cap) {r : Discovered × UInt32} (hres : m.reserved = some r) :
    r ∈ m.mergeServers cap := by
  obtain ⟨n, rfl⟩ : ∃ n, cap = n + 1 := ⟨cap - 1, by omega⟩
  rw [mergeServers_eq htable, merged, answered, hres]
  simp

-- As `run_discovery` calls it

namespace Servers

variable {s : Servers} {a : Anchor} {found : List Discovered} {f : Discovered} {t : UInt32}

-- An answer from the anchored address starts the count over.
theorem rounds_anchorNoteAnswers (hf : f ∈ found) (hanchor : isAnchor f a = true)
    (hhost : a.host ≠ []) : (s.anchorNoteAnswers a found).anchorUnheardRounds = 0 := by
  have hsome : found.isEmpty = false := by
    cases found with
    | nil => cases hf
    | cons => rfl
  have hany : found.any (isAnchor · a) = true := List.any_eq_true.mpr ⟨f, hf, hanchor⟩
  simp [anchorNoteAnswers, hhost, hsome, hany]

-- The self URN is not asked for while the anchored address answers.
theorem bySelf_keepOf (hf : f ∈ found) (hanchor : isAnchor f a = true) :
    ((s.anchorNoteAnswers a found).keepOf a).bySelf = false := by
  have hhost : a.host ≠ [] := by
    simp only [isAnchor, Bool.and_eq_true] at hanchor
    exact (sameAddr_iff.mp hanchor.2).1
  have hrounds := rounds_anchorNoteAnswers (s := s) hf hanchor hhost
  have hfallback : (s.anchorNoteAnswers a found).anchorSelfFallback a = false := by
    simp [anchorSelfFallback, hhost, hrounds, ANCHOR_UNHEARD_ROUNDS]
  simp [Keep.bySelf, keepOf, hfallback, hhost]

-- The anchored server gets the first slot if it answers.
theorem reserved_of_anchor {m : MergeIn}
    (hm : m = (s.anchorNoteAnswers a m.found).mergeInOf a m.found m.nowMs)
    (hfound : Listed m.found) (hf : f ∈ m.found) (hanchor : isAnchor f a = true) :
    ∃ r, m.reserved = some r ∧ r.1 = m.stamped f := by
  have hkeep : m.keep = (s.anchorNoteAnswers a m.found).keepOf a := by
    conv_lhs => rw [hm]
    rfl
  have ha : m.keep.anchor = a := by rw [hkeep]; rfl
  have hself : m.keep.bySelf = false := by rw [hkeep]; exact bySelf_keepOf hf hanchor
  -- whatever is picked is at the address that answers
  have haddr {d : Discovered} (hd : m.keep.Hit d) : d.addr = f.addr := by
    rcases hd with hd | ⟨hby, _⟩
    · rw [← ha] at hanchor
      rw [Keep.addr_of_isAnchor hd, Keep.addr_of_isAnchor hanchor]
    · rw [hself] at hby
      cases hby
  simp only [MergeIn.reserved, MergeIn.reservedOfTable]
  cases hpick : findAnchored m.servers m.keep with
  | some p =>
    obtain ⟨i, d⟩ := p
    have hd := haddr (findAnchored_eq_some hpick).2.qualifies
    have hhost : d.host.chars ≠ [] := by
      rw [(Prod.mk.inj hd).1]
      exact hfound.host f hf
    cases hfind : m.found.find? (sameAddr · d.host.chars d.port) with
    | some g =>
      have hsame := List.find?_some hfind
      have hg : g.addr = f.addr := (sameAddr_iff.mp hsame).2.trans hd
      obtain rfl := hfound.eq_of_addr (List.mem_of_find?_eq_some hfind) hf hg
      exact ⟨(m.stamped g, (m.table.map Prod.snd).getD i 0), by simp only [hfind], rfl⟩
    | none =>
      have hmiss := List.find?_eq_none.mp hfind f hf
      rw [sameAddr_eq hhost, hd, decide_eq_true rfl] at hmiss
      exact absurd rfl hmiss
  | none =>
    cases hfind : findAnchored m.found m.keep with
    | some k =>
      have hleast := (findAnchored_eq_some (i := k.1) (d := k.2) hfind).2
      obtain rfl := hfound.eq_of_addr hleast.mem hf (haddr hleast.qualifies)
      exact ⟨_, rfl, rfl⟩
    | none =>
      have hmiss := findAnchored_eq_none hfind f hf
      exact absurd (Or.inl (by rw [ha]; exact hanchor)) hmiss

end Servers

-- The merge is sound but for entries of the table that are so old that their
-- age counts as negative, where these get a slot.
theorem merge_sound_iff (m : MergeIn) (cap : Nat) (htable : Listed m.servers)
    (hfound : Listed m.found) :
    m.Sound cap (m.mergeServers cap) ↔
      (m.carryMs.toNat < 2 ^ 31 → ∀ i t, m.table[i]? = some t → 2 ^ 31 ≤ (m.age t.1).toNat →
        m.unanswered t.1 = true → cap ≤ m.slotsBefore i) := by
  constructor
  · intro hsound hcarry i t hget hold hun
    have hmem := List.mem_of_getElem? hget
    have hcarried : m.carried t.1 = true := by
      rw [MergeIn.carried_iff, if_pos hcarry]
      exact Or.inr hold
    have hcontends : m.contends t.1 = true := by simp [MergeIn.contends, hun, hcarried]
    by_contra hslot
    have hin : t ∈ m.mergeServers cap :=
      (MergeIn.mem_mergeServers_iff htable hfound hget hcontends).mpr (by omega)
    rcases hsound.origin t hin with ⟨f, hf, heq⟩ | ⟨u, _, _, hyoung⟩
    · have hne := MergeIn.addr_ne_of_contends htable hmem hcontends hf
      rw [heq] at hne
      exact hne rfl
    · rw [UInt32.lt_iff_toNat_lt] at hyoung
      omega
  · intro hcond
    have hout : m.mergeServers cap = m.merged.take cap := MergeIn.mergeServers_eq htable
    have hsub : m.mergeServers cap ⊆ m.merged := by
      rw [hout]
      exact List.take_subset cap _
    refine ⟨?_, ?_, ?_, fun o ho => MergeIn.stamp_merged htable hfound (hsub ho), ?_, ?_⟩
    · rw [hout]
      exact List.length_take_le _ _
    · rw [hout, List.map_take]
      exact (MergeIn.listed_merged htable hfound).sublist (List.take_sublist cap _)
    · intro o ho
      rcases MergeIn.mem_merged htable hfound (hsub ho) with ⟨f, hf, rfl⟩ | ⟨hmem, hcontends⟩
      · exact Or.inl ⟨f, hf, rfl⟩
      · obtain ⟨i, hget⟩ := List.mem_iff_getElem?.mp hmem
        have hslot := (MergeIn.mem_mergeServers_iff htable hfound hget hcontends).mp ho
        refine Or.inr ⟨o, hmem, rfl, MergeIn.young_of_contends hcontends ?_⟩
        intro hcarry hold hun
        have hfull := hcond hcarry i o hget hold hun
        omega
    · intro hroom f hf
      exact ⟨_, MergeIn.found_mem_mergeServers htable hfound hroom hf, rfl⟩
    · intro s a hm hcap f hf hanchor
      obtain ⟨r, hres, hr⟩ := Servers.reserved_of_anchor hm hfound hf hanchor
      exact ⟨r, MergeIn.reserved_mem_mergeServers htable hcap hres, hr⟩

-- A table with one server that nobody has heard for 25 days.
def forgotten : MergeIn where
  table := [(.answer "10.0.0.1" 3000 "urn:a" 0, 0)]
  found := []
  keep := ⟨⟨[], 0, []⟩, [], 0, true⟩
  nowMs := 0x80000000
  carryMs := 125000

theorem forgotten_not_sound :
    Listed forgotten.servers ∧ Listed forgotten.found ∧
      ¬ forgotten.Sound 8 (forgotten.mergeServers 8) := by
  refine ⟨⟨by decide, by decide⟩, ⟨by decide, by decide⟩, ?_⟩
  intro hsound
  have hin : (Discovered.answer "10.0.0.1" 3000 "urn:a" 0, 0) ∈ forgotten.mergeServers 8 := by decide
  rcases hsound.origin _ hin with ⟨f, hf, _⟩ | ⟨_, _, _, hyoung⟩
  · cases hf
  · exact absurd hyoung (by decide)

-- The same server behind the one the token belongs to, in a table that a third one's
-- answer fills.
def crowded : MergeIn where
  table := [(.answer "10.0.0.2" 3000 "urn:b" 0x7fffff00, 7), (.answer "10.0.0.1" 3000 "urn:a" 0, 0)]
  found := [.answer "10.0.0.3" 3000 "urn:c" 0]
  keep := ⟨⟨lit "10.0.0.2", 3000, lit "urn:b"⟩, lit "10.0.0.2", 3000, false⟩
  nowMs := 0x80000000
  carryMs := 125000

theorem merge_sound_iff_recent :
    crowded.mergeServers 2 =
        [(.answer "10.0.0.2" 3000 "urn:b" 0x7fffff00, 7),
          (.answer "10.0.0.3" 3000 "urn:c" 0x80000000, 0)] ∧
      crowded.Sound 2 (crowded.mergeServers 2) := by
  refine ⟨by decide, ?_⟩
  refine (merge_sound_iff crowded 2 ⟨by decide, by decide⟩ ⟨by decide, by decide⟩).mpr ?_
  intro _ i t hget hold _
  have hi : i < 2 := (List.getElem?_eq_some_iff.mp hget).1
  have hfull : ∀ j < 2, ∀ u ∈ crowded.table[j]?,
      2 ^ 31 ≤ (crowded.age u.1).toNat → 2 ≤ crowded.slotsBefore j := by
    decide
  exact hfull i hi t hget hold

end Espos.Sk.Select
