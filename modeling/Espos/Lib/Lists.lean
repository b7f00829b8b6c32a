import Mathlib.Algebra.Order.Ring.Nat
import Mathlib.Data.List.Basic
import Mathlib.Data.List.ReduceOption
import Mathlib.Logic.Function.Basic

-- A table of slots, some of them empty.

namespace Espos.Slots

variable {α : Type*}

-- The first empty slot is taken, if there is one.
def place (a : α) : List (Option α) → Option (List (Option α))
  | [] => none
  | none :: slots => some (some a :: slots)
  | some b :: slots => (place a slots).map (some b :: ·)

-- The first entry that meets `p` leaves its slot empty.
def clear (p : α → Bool) : List (Option α) → List (Option α)
  | [] => []
  | none :: slots => none :: clear p slots
  | some b :: slots => if p b then none :: slots else some b :: clear p slots

variable {a : α} {p : α → Bool} {slots slots' : List (Option α)}

theorem perm_of_place (h : place a slots = some slots') :
    slots'.reduceOption.Perm (a :: slots.reduceOption) := by
  induction slots generalizing slots' with
  | nil => exact absurd h nofun
  | cons slot slots ih =>
    cases slot with
    | none =>
      obtain rfl := Option.some.inj h
      simp
    | some b =>
      obtain ⟨rest, hrest, rfl⟩ := Option.map_eq_some_iff.mp h
      simp only [List.reduceOption_cons_of_some]
      exact ((ih hrest).cons b).trans (List.Perm.swap a b _)

theorem clear_sublist : (clear p slots).reduceOption.Sublist slots.reduceOption := by
  induction slots with
  | nil => exact List.Sublist.refl _
  | cons slot slots ih =>
    cases slot with
    | none => simpa [clear] using ih
    | some b =>
      by_cases hp : p b = true
      · simp [clear, hp]
      · simp [clear, hp, ih]

theorem mem_clear (ha : p a = false) (h : a ∈ slots.reduceOption) :
    a ∈ (clear p slots).reduceOption := by
  induction slots with
  | nil => exact h
  | cons slot slots ih =>
    cases slot with
    | none => exact ih h
    | some b =>
      rw [List.reduceOption_cons_of_some, List.mem_cons] at h
      rw [clear]
      split
      next hb =>
        refine h.resolve_left ?_
        rintro rfl
        rw [ha] at hb
        cases hb
      next =>
        rw [List.reduceOption_cons_of_some, List.mem_cons]
        exact h.imp_right ih

theorem length_clear : (clear p slots).length = slots.length := by
  induction slots with
  | nil => rfl
  | cons slot slots ih =>
    cases slot with
    | none => simp [clear, ih]
    | some b =>
      rw [clear]
      split
      · rfl
      · simp [ih]

theorem length_of_place (h : place a slots = some slots') : slots'.length = slots.length := by
  induction slots generalizing slots' with
  | nil => exact absurd h nofun
  | cons slot slots ih =>
    cases slot with
    | none =>
      obtain rfl := Option.some.inj h
      rfl
    | some b =>
      obtain ⟨rest, hrest, rfl⟩ := Option.map_eq_some_iff.mp h
      simp [ih hrest]

theorem place_isSome : (place a slots).isSome = true ↔ slots.reduceOption.length < slots.length := by
  induction slots with
  | nil => simp [place]
  | cons slot slots ih =>
    cases slot with
    | none =>
      have hle := List.reduceOption_length_le slots
      rw [place, List.reduceOption_cons_of_none, List.length_cons]
      simp only [Option.isSome_some, true_iff]
      omega
    | some b =>
      rw [place, Option.isSome_map, ih, List.reduceOption_cons_of_some, List.length_cons,
        List.length_cons]
      omega

theorem perm_set_none {i : Nat} (h : slots[i]? = some (some a)) :
    slots.reduceOption.Perm (a :: (slots.set i none).reduceOption) := by
  induction slots generalizing i with
  | nil => cases h
  | cons slot slots ih =>
    cases i with
    | zero =>
      obtain rfl := Option.some.inj h
      simp
    | succ i =>
      have hrest := ih (i := i) h
      cases slot with
      | none => simpa using hrest
      | some b =>
        simp only [List.set_cons_succ, List.reduceOption_cons_of_some]
        exact (hrest.cons b).trans (List.Perm.swap a b _)

theorem perm_set_some {i : Nat} (h : slots[i]? = some none) :
    (slots.set i (some a)).reduceOption.Perm (a :: slots.reduceOption) := by
  induction slots generalizing i with
  | nil => cases h
  | cons slot slots ih =>
    cases i with
    | zero =>
      obtain rfl := Option.some.inj h
      simp
    | succ i =>
      have hrest := ih (i := i) h
      cases slot with
      | none => simpa using hrest
      | some b =>
        simp only [List.set_cons_succ, List.reduceOption_cons_of_some]
        exact (hrest.cons b).trans (List.Perm.swap a b _)

theorem eq_of_nodup {β : Type*} {key : α → β} (h : (slots.reduceOption.map key).Nodup) {i j : Nat}
    {b : α} (hi : slots[i]? = some (some a)) (hj : slots[j]? = some (some b))
    (hkey : key a = key b) : i = j := by
  by_contra hne
  have hb : b ∈ (slots.set i none).reduceOption := by
    rw [List.reduceOption_mem_iff]
    apply List.mem_of_getElem?
    rw [List.getElem?_set_ne hne]
    exact hj
  have hnodup := ((perm_set_none hi).map key).nodup_iff.mp h
  rw [List.map_cons, List.nodup_cons, hkey] at hnodup
  exact hnodup.1 (List.mem_map_of_mem hb)

end Espos.Slots

-- A search that stops at the first match.

namespace Espos.Search

variable {α : Type*} {p : α → Bool} {xs : List α}

theorem findIdx?_eq_some {i : Nat} : xs.findIdx? p = some i ↔
    ∃ x, xs[i]? = some x ∧ p x = true ∧ ∀ j < i, ∀ y, xs[j]? = some y → p y = false := by
  rw [List.findIdx?_eq_some_iff_getElem]
  constructor
  · rintro ⟨hi, hp, hbefore⟩
    refine ⟨xs[i], List.getElem?_eq_getElem hi, hp, ?_⟩
    intro j hj y hy
    obtain ⟨_, rfl⟩ := List.getElem?_eq_some_iff.mp hy
    simpa using hbefore j hj
  · rintro ⟨x, hx, hp, hbefore⟩
    obtain ⟨hi, rfl⟩ := List.getElem?_eq_some_iff.mp hx
    refine ⟨hi, hp, ?_⟩
    intro j hj
    simpa using hbefore j hj _ (List.getElem?_eq_getElem (by omega))

-- An entry changes and is as good a match as before.
theorem findIdx?_set_of_eq {j : Nat} {x y : α} (hold : xs[j]? = some y) (h : p x = p y) :
    (xs.set j x).findIdx? p = xs.findIdx? p := by
  obtain ⟨hj, rfl⟩ := List.getElem?_eq_some_iff.mp hold
  have hmap (zs : List α) : zs.findIdx? p = (zs.map p).findIdx? id := by
    rw [List.findIdx?_map, Function.id_comp]
  rw [hmap, hmap xs, List.map_set, h, ← List.getElem_map p (h := by simpa using hj),
    List.set_getElem_self]

end Espos.Search

-- The newest element of a kind in a history, and the newest part of it.

namespace Espos.Recent

variable {α : Type*} (p : α → Bool)

def newest (l : List α) : Option α :=
  (l.filter p).getLast?

-- The last `n` elements.
def window (n : Nat) (l : List α) : List α :=
  l.drop (l.length - n)

theorem newest_append (l m : List α) : newest p (l ++ m) = (newest p m).or (newest p l) := by
  rw [newest, List.filter_append, List.getLast?_append]
  rfl

theorem newest_append_congr {l l' : List α} (h : newest p l = newest p l') (m : List α) :
    newest p (l ++ m) = newest p (l' ++ m) := by
  rw [newest_append, newest_append, h]

theorem newest_append_singleton (l : List α) (x : α) :
    newest p (l ++ [x]) = if p x then some x else newest p l := by
  rw [newest_append]
  by_cases hx : p x = true
  · simp [newest, hx]
  · simp [newest, hx]

theorem length_window (n : Nat) (l : List α) : (window n l).length = min n l.length := by
  rw [window, List.length_drop]
  omega

theorem window_of_length_le {n : Nat} {l : List α} (h : l.length ≤ n) : window n l = l := by
  rw [window, Nat.sub_eq_zero_of_le h, List.drop_zero]

-- What was cut off before is not needed to tell the last `n` elements.
theorem window_window_append (n : Nat) (l m : List α) :
    window n (window n l ++ m) = window n (l ++ m) := by
  have hdrop : window n l ++ m = (l ++ m).drop (l.length - n) := by
    rw [window, List.drop_append_of_le_length (by omega)]
  have hlen := length_window n l
  rw [hdrop, window, window, List.drop_drop]
  congr 1
  rw [List.length_drop, List.length_append]
  omega

-- How many elements at the end meet `p`, with none between them that does not.
def streak (l : List α) : Nat :=
  (l.reverse.takeWhile p).length

@[simp] theorem streak_nil : streak p [] = 0 := rfl

theorem streak_append_singleton (l : List α) (x : α) :
    streak p (l ++ [x]) = if p x then streak p l + 1 else 0 := by
  rw [streak, List.reverse_append, List.reverse_singleton, List.singleton_append,
    List.takeWhile_cons]
  split
  · rfl
  · rfl

end Espos.Recent

namespace Espos.Buckets

variable {α : Type*} (key : α → Nat)

theorem filter_lt_succ {l : List α} (h : l.Pairwise fun x y => key x ≤ key y) (n : Nat) :
    l.filter (fun x => decide (key x < n + 1)) =
      l.filter (fun x => decide (key x < n)) ++ l.filter (fun x => key x == n) := by
  induction l with
  | nil => rfl
  | cons x l ih =>
    obtain ⟨hx, hl⟩ := List.pairwise_cons.mp h
    have hrest := ih hl
    by_cases hlt : key x < n
    · have hsucc : key x < n + 1 := by omega
      have hne : key x ≠ n := by omega
      simp only [List.filter_cons, hlt, hsucc, beq_eq_false_iff_ne.mpr hne, decide_true, if_true,
        Bool.false_eq_true, if_false, List.cons_append]
      rw [hrest]
    · -- everything behind `x` is at least as large
      have hnone : l.filter (fun y => decide (key y < n)) = [] := by
        rw [List.filter_eq_nil_iff]
        intro y hy
        have := hx y hy
        rw [decide_eq_true_eq]
        omega
      rw [hnone, List.nil_append] at hrest
      by_cases heq : key x = n
      · have hsucc : key x < n + 1 := by omega
        simp only [List.filter_cons, hlt, hsucc, beq_iff_eq.mpr heq, decide_true, if_true,
          decide_false, Bool.false_eq_true, if_false]
        rw [hrest, hnone, List.nil_append]
      · have hsucc : ¬ key x < n + 1 := by omega
        simp only [List.filter_cons, hlt, hsucc, beq_eq_false_iff_ne.mpr heq, decide_false,
          Bool.false_eq_true, if_false]
        rw [hrest, hnone, List.nil_append]

theorem flatMap_range {l : List α} (h : l.Pairwise fun x y => key x ≤ key y) (n : Nat) :
    (List.range n).flatMap (fun k => l.filter fun x => key x == k) =
      l.filter (fun x => decide (key x < n)) := by
  induction n with
  | zero => simp
  | succ n ih =>
    rw [List.range_succ, List.flatMap_append, ih, filter_lt_succ key h]
    simp

-- A list sorted by a key is what its buckets are in turn.
theorem flatMap_range_eq {l : List α} (h : l.Pairwise fun x y => key x ≤ key y) {n : Nat}
    (hn : ∀ x ∈ l, key x < n) :
    (List.range n).flatMap (fun k => l.filter fun x => key x == k) = l := by
  rw [flatMap_range key h, List.filter_eq_self]
  intro x hx
  exact decide_eq_true (hn x hx)

theorem sum_filter_lt_succ (w : α → Nat) (l : List α) (n : Nat) :
    ((l.filter fun x => decide (key x < n + 1)).map w).sum =
      ((l.filter fun x => decide (key x < n)).map w).sum +
        ((l.filter fun x => key x == n).map w).sum := by
  induction l with
  | nil => rfl
  | cons x l ih =>
    by_cases hlt : key x < n
    · have hsucc : key x < n + 1 := by omega
      have hne : key x ≠ n := by omega
      simp only [List.filter_cons, hlt, hsucc, beq_eq_false_iff_ne.mpr hne, decide_true, if_true,
        Bool.false_eq_true, if_false, List.map_cons, List.sum_cons, ih]
      omega
    · by_cases heq : key x = n
      · have hsucc : key x < n + 1 := by omega
        simp only [List.filter_cons, hlt, hsucc, beq_iff_eq.mpr heq, decide_true, if_true,
          decide_false, Bool.false_eq_true, if_false, List.map_cons, List.sum_cons, ih]
        omega
      · have hsucc : ¬ key x < n + 1 := by omega
        simp only [List.filter_cons, hlt, hsucc, beq_eq_false_iff_ne.mpr heq, decide_false,
          Bool.false_eq_true, if_false, ih]

-- What is counted bucket by bucket is counted once.
theorem sum_range (w : α → Nat) {l : List α} {n : Nat} (hn : ∀ x ∈ l, key x < n) :
    ((List.range n).map fun k => ((l.filter fun x => key x == k).map w).sum).sum =
      (l.map w).sum := by
  have hbelow : ∀ m, ((List.range m).map fun k => ((l.filter fun x => key x == k).map w).sum).sum =
      ((l.filter fun x => decide (key x < m)).map w).sum := by
    intro m
    induction m with
    | zero => simp
    | succ m ih =>
      rw [List.range_succ, List.map_append, List.sum_append, ih, sum_filter_lt_succ]
      simp
  rw [hbelow, List.filter_eq_self.mpr]
  intro x hx
  exact decide_eq_true (hn x hx)

end Espos.Buckets

-- Tasks, each at a place of its program, and what one of them leaves of the rest
-- when it goes on.

namespace Espos.Tasks

variable {ι α : Type*} [DecidableEq ι] {place : ι → α} {i j : ι} {p : α} {P : α → Prop}

theorem of_moved (h : P (Function.update place i p j)) : (j = i ∧ P p) ∨ (j ≠ i ∧ P (place j)) := by
  by_cases hj : j = i
  · subst hj
    rw [Function.update_self] at h
    exact .inl ⟨rfl, h⟩
  · rw [Function.update_of_ne hj] at h
    exact .inr ⟨hj, h⟩

theorem moved_self (h : P p) : P (Function.update place i p i) := by
  rwa [Function.update_self]

theorem moved_of_ne (h : P (place j)) (hj : j ≠ i) : P (Function.update place i p j) := by
  rwa [Function.update_of_ne hj]

-- A task that is somewhere else than the one that moved is still there.
theorem moved_other (h : P (place j)) (hi : ¬ P (place i)) : P (Function.update place i p j) := by
  apply moved_of_ne h
  rintro rfl
  exact hi h

theorem exists_moved (h : ∃ j, P (place j)) (hi : ¬ P (place i)) :
    ∃ j, P (Function.update place i p j) :=
  h.imp fun _ hj => moved_other hj hi

end Espos.Tasks
