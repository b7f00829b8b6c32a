import Mathlib.Data.List.Basic

-- A stream of records, each of which ends with a separator.

namespace Espos.Lines

variable {α : Type*} [DecidableEq α] (sep : α)

def IsRecord (r : List α) : Prop :=
  ∃ body, sep ∉ body ∧ r = body ++ [sep]

-- The records of a stream, and what follows the last of them.
def split : List α → List (List α) × List α
  | [] => ([], [])
  | c :: s =>
    if c = sep then ([c] :: (split s).1, (split s).2)
    else
      match (split s).1 with
      | [] => ([], c :: (split s).2)
      | r :: rs => ((c :: r) :: rs, (split s).2)

def records (s : List α) : List (List α) :=
  (split sep s).1

def unfinished (s : List α) : List α :=
  (split sep s).2

variable {sep} {s t : List α}

theorem split_of_not_mem (h : sep ∉ s) : split sep s = ([], s) := by
  induction s with
  | nil => rfl
  | cons c s ih =>
    have hc : c ≠ sep := fun hc => h (hc ▸ List.mem_cons_self)
    rw [split, if_neg hc, ih fun hs => h (List.mem_cons_of_mem c hs)]

theorem split_record_append {r : List α} (hr : IsRecord sep r) (s : List α) :
    split sep (r ++ s) = (r :: records sep s, unfinished sep s) := by
  obtain ⟨body, hbody, rfl⟩ := hr
  induction body with
  | nil =>
    show split sep (sep :: s) = _
    rw [split, if_pos rfl]
    rfl
  | cons c body ih =>
    have hc : c ≠ sep := fun hc => hbody (hc ▸ List.mem_cons_self)
    show split sep (c :: (body ++ [sep] ++ s)) = _
    rw [split, if_neg hc, ih fun hs => hbody (List.mem_cons_of_mem c hs)]
    rfl

-- There is one way only to read a stream as records and a rest.
theorem split_flatten_append {rs : List (List α)} (hrs : ∀ r ∈ rs, IsRecord sep r)
    (ht : sep ∉ t) : split sep (rs.flatten ++ t) = (rs, t) := by
  induction rs with
  | nil => exact split_of_not_mem ht
  | cons r rs ih =>
    have hrest := ih fun r' hr' => hrs r' (List.mem_cons_of_mem r hr')
    rw [List.flatten_cons, List.append_assoc, split_record_append (hrs r List.mem_cons_self),
      records, unfinished, hrest]

theorem split_spec (sep : α) (s : List α) :
    (∀ r ∈ records sep s, IsRecord sep r) ∧ sep ∉ unfinished sep s ∧
      (records sep s).flatten ++ unfinished sep s = s := by
  induction s with
  | nil => simp [records, unfinished, split]
  | cons c s ih =>
    obtain ⟨hrecords, hrest, hwhole⟩ := ih
    rw [records] at hrecords hwhole
    rw [unfinished] at hrest hwhole
    rw [records, unfinished, split]
    by_cases hc : c = sep
    · rw [if_pos hc]
      refine ⟨?_, hrest, ?_⟩
      · intro r hr
        rcases List.mem_cons.mp hr with rfl | hr
        · exact ⟨[], List.not_mem_nil, by rw [hc, List.nil_append]⟩
        · exact hrecords r hr
      · rw [List.flatten_cons, List.append_assoc, hwhole, List.singleton_append]
    · rw [if_neg hc]
      cases hfirst : (split sep s).1 with
      | nil =>
        rw [hfirst, List.flatten_nil, List.nil_append] at hwhole
        refine ⟨nofun, ?_, ?_⟩
        · intro hmem
          rcases List.mem_cons.mp hmem with heq | hmem
          · exact hc heq.symm
          · exact hrest hmem
        · rw [List.flatten_nil, List.nil_append, hwhole]
      | cons r rs =>
        rw [hfirst] at hrecords hwhole
        refine ⟨?_, hrest, ?_⟩
        · intro r' hr'
          rcases List.mem_cons.mp hr' with rfl | hr'
          · obtain ⟨body, hbody, heq⟩ := hrecords r List.mem_cons_self
            refine ⟨c :: body, ?_, by rw [heq, List.cons_append]⟩
            intro hmem
            rcases List.mem_cons.mp hmem with heq | hmem
            · exact hc heq.symm
            · exact hbody hmem
          · exact hrecords r' (List.mem_cons_of_mem r hr')
        · rw [List.flatten_cons, List.append_assoc] at hwhole
          rw [List.flatten_cons, List.append_assoc, List.cons_append, hwhole]

theorem isRecord_of_mem {r : List α} (hr : r ∈ records sep s) : IsRecord sep r :=
  (split_spec sep s).1 r hr

theorem not_mem_unfinished (sep : α) (s : List α) : sep ∉ unfinished sep s :=
  (split_spec sep s).2.1

theorem flatten_records (sep : α) (s : List α) :
    (records sep s).flatten ++ unfinished sep s = s :=
  (split_spec sep s).2.2

theorem split_append (sep : α) (s t : List α) :
    split sep (s ++ t) = (records sep s ++ records sep (unfinished sep s ++ t),
      unfinished sep (unfinished sep s ++ t)) := by
  have hwhole := flatten_records sep (unfinished sep s ++ t)
  calc split sep (s ++ t)
      = split sep ((records sep s ++ records sep (unfinished sep s ++ t)).flatten ++
          unfinished sep (unfinished sep s ++ t)) := by
        rw [List.flatten_append, List.append_assoc, hwhole, ← List.append_assoc,
          flatten_records]
    _ = _ := by
        apply split_flatten_append
        · intro r hr
          rcases List.mem_append.mp hr with hr | hr
          · exact isRecord_of_mem hr
          · exact isRecord_of_mem hr
        · exact not_mem_unfinished sep _

-- What follows a rest only completes its record.
theorem records_append (sep : α) (s t : List α) :
    records sep (s ++ t) = records sep s ++ records sep (unfinished sep s ++ t) := by
  rw [records, split_append]

theorem unfinished_append (sep : α) (s t : List α) :
    unfinished sep (s ++ t) = unfinished sep (unfinished sep s ++ t) := by
  rw [unfinished, split_append]

theorem records_of_not_mem (h : sep ∉ s) : records sep s = [] := by
  rw [records, split_of_not_mem h]

theorem unfinished_of_not_mem (h : sep ∉ s) : unfinished sep s = s := by
  rw [unfinished, split_of_not_mem h]

theorem records_record_append {r : List α} (hr : IsRecord sep r) (s : List α) :
    records sep (r ++ s) = r :: records sep s := by
  rw [records, split_record_append hr]

theorem unfinished_record_append {r : List α} (hr : IsRecord sep r) (s : List α) :
    unfinished sep (r ++ s) = unfinished sep s := by
  rw [unfinished, split_record_append hr]

omit [DecidableEq α] in
theorem isRecord_concat (h : sep ∉ s) : IsRecord sep (s ++ [sep]) :=
  ⟨s, h, rfl⟩

theorem unfinished_concat (sep : α) (s : List α) : unfinished sep (s ++ [sep]) = [] := by
  have hrecord := isRecord_concat (not_mem_unfinished sep s)
  rw [unfinished_append, ← List.append_nil (unfinished sep s ++ [sep]),
    unfinished_record_append hrecord]
  rfl

theorem records_ne_nil (h : sep ∈ s) : records sep s ≠ [] := by
  intro hnone
  have hwhole := flatten_records sep s
  have hclean := not_mem_unfinished sep s
  rw [hnone, List.flatten_nil, List.nil_append] at hwhole
  rw [hwhole] at hclean
  exact hclean h

-- The first record that ends completes what was there.
theorem records_unfinished_append (hs : sep ∉ s) {r : List α} {rs : List (List α)}
    (ht : records sep t = r :: rs) : records sep (s ++ t) = (s ++ r) :: rs := by
  have hr : IsRecord sep r := isRecord_of_mem (ht ▸ List.mem_cons_self)
  have hrs : ∀ r' ∈ rs, IsRecord sep r' := fun r' hr' =>
    isRecord_of_mem (ht ▸ List.mem_cons_of_mem r hr')
  obtain ⟨body, hbody, rfl⟩ := hr
  have hfirst : IsRecord sep (s ++ (body ++ [sep])) := by
    rw [← List.append_assoc]
    apply isRecord_concat
    intro hmem
    rcases List.mem_append.mp hmem with hmem | hmem
    · exact hs hmem
    · exact hbody hmem
  have hwhole := flatten_records sep t
  rw [ht, List.flatten_cons, List.append_assoc] at hwhole
  rw [← hwhole, ← List.append_assoc, records_record_append hfirst, records,
    split_flatten_append hrs (not_mem_unfinished sep t)]

-- Where a stream ends with a record, each of its beginnings is the beginning of one.
theorem exists_record_of_unfinished (hs : sep ∉ s) (hne : s ≠ [])
    (h : unfinished sep (s ++ t) = []) : ∃ r ∈ records sep (s ++ t), s <+: r := by
  have hwhole := flatten_records sep (s ++ t)
  rw [h, List.append_nil] at hwhole
  cases hrecords : records sep (s ++ t) with
  | nil =>
    rw [hrecords, List.flatten_nil] at hwhole
    exact absurd (List.append_eq_nil_iff.mp hwhole.symm).1 hne
  | cons r rs =>
    refine ⟨r, List.mem_cons_self, ?_⟩
    have hr : IsRecord sep r := isRecord_of_mem (hrecords ▸ List.mem_cons_self)
    rw [hrecords, List.flatten_cons] at hwhole
    have hpre : r <+: s ++ t := ⟨rs.flatten, hwhole⟩
    rcases List.prefix_or_prefix_of_prefix (List.prefix_append s t) hpre with hle | hle
    · exact hle
    · obtain ⟨body, -, rfl⟩ := hr
      exact absurd (hle.subset (by simp)) hs

theorem records_flatten_append {rs : List (List α)} (hrs : ∀ r ∈ rs, IsRecord sep r)
    (t : List α) : records sep (rs.flatten ++ t) = rs ++ records sep t := by
  have hsplit := split_flatten_append hrs (List.not_mem_nil : sep ∉ [])
  rw [List.append_nil] at hsplit
  have hrecords : records sep rs.flatten = rs := congrArg Prod.fst hsplit
  have hrest : unfinished sep rs.flatten = [] := congrArg Prod.snd hsplit
  rw [records_append, hrecords, hrest, List.nil_append]

theorem records_flatten {rs : List (List α)} (hrs : ∀ r ∈ rs, IsRecord sep r) :
    records sep rs.flatten = rs := by
  have hwhole := records_flatten_append hrs []
  rw [List.append_nil] at hwhole
  rw [hwhole]
  exact List.append_nil rs

-- A stream that goes no further than some records, and as far as the first `k` of
-- them, has whole a number of them between.
theorem records_between {rs : List (List α)} {k : Nat} (hrs : ∀ r ∈ rs, IsRecord sep r)
    (hk : k ≤ rs.length) (hlow : (rs.take k).flatten <+: s) (hhigh : s <+: rs.flatten) :
    ∃ n, k ≤ n ∧ n ≤ rs.length ∧ records sep s = rs.take n := by
  obtain ⟨t, ht⟩ := hhigh
  obtain ⟨u, hu⟩ := hlow
  have hall : records sep s ++ records sep (unfinished sep s ++ t) = rs := by
    have hwhole := records_flatten hrs
    rw [← ht, records_append] at hwhole
    exact hwhole
  have hfirst : rs.take k ++ records sep u = records sep s := by
    have htake : ∀ r ∈ rs.take k, IsRecord sep r := fun r hr => hrs r (List.mem_of_mem_take hr)
    rw [← hu, records_flatten_append htake]
  refine ⟨(records sep s).length, ?_, ?_, ?_⟩
  · rw [← hfirst, List.length_append, List.length_take]
    omega
  · rw [← hall, List.length_append]
    omega
  · rw [← hall, List.take_left]

theorem count_eq_length_records (sep : α) (s : List α) : s.count sep = (records sep s).length := by
  have hrs := fun r (hr : r ∈ records sep s) => isRecord_of_mem hr
  have hcount : (records sep s).flatten.count sep = (records sep s).length := by
    generalize records sep s = rs at hrs
    induction rs with
    | nil => rfl
    | cons r rs ih =>
      obtain ⟨body, hbody, rfl⟩ := hrs r List.mem_cons_self
      have hrest := ih fun r' hr' => hrs r' (List.mem_cons_of_mem _ hr')
      rw [List.flatten_cons, List.count_append, List.count_append, hrest,
        List.count_eq_zero_of_not_mem hbody, List.count_singleton_self, List.length_cons]
      omega
  calc s.count sep = ((records sep s).flatten ++ unfinished sep s).count sep := by
        rw [flatten_records]
    _ = (records sep s).length := by
        rw [List.count_append, hcount,
          List.count_eq_zero_of_not_mem (not_mem_unfinished sep s), Nat.add_zero]

-- What follows the last separator, found from the end.
theorem takeWhile_reverse (sep : α) (s : List α) :
    s.reverse.takeWhile (fun c => decide (c ≠ sep)) = (unfinished sep s).reverse := by
  have hrest : ∀ c ∈ (unfinished sep s).reverse, decide (c ≠ sep) = true := by
    intro c hc
    apply decide_eq_true
    rintro rfl
    exact not_mem_unfinished c s (List.mem_reverse.mp hc)
  have hrecords : (records sep s).flatten.reverse.takeWhile (fun c => decide (c ≠ sep)) = [] := by
    rcases List.eq_nil_or_concat' (records sep s) with hnil | ⟨front, last, hlast⟩
    · rw [hnil]
      rfl
    · obtain ⟨body, -, rfl⟩ := isRecord_of_mem (hlast ▸ List.mem_append_right front List.mem_cons_self)
      rw [hlast, List.flatten_append, List.flatten_singleton, List.reverse_append,
        List.reverse_append]
      simp
  calc s.reverse.takeWhile (fun c => decide (c ≠ sep))
      = ((records sep s).flatten ++ unfinished sep s).reverse.takeWhile
          (fun c => decide (c ≠ sep)) := by rw [flatten_records]
    _ = (unfinished sep s).reverse := by
        rw [List.reverse_append, List.takeWhile_append_of_pos hrest, hrecords, List.append_nil]

end Espos.Lines
