import Mathlib.Data.List.Basic
import Mathlib.Logic.Function.Basic

namespace Espos

-- A circular buffer: `count` elements, the oldest at `head`, in an array that
-- wraps around.
structure Ring (α : Type*) (cap : Nat) where
  slots : Fin cap → α
  head : Fin cap
  count : Nat
  count_le : count ≤ cap

namespace Ring

variable {α : Type*} {cap : Nat} (r : Ring α cap)

def empty (x : α) (hcap : 0 < cap) : Ring α cap :=
  ⟨fun _ => x, ⟨0, hcap⟩, 0, Nat.zero_le _⟩

-- The array index of the `i`-th oldest element.
def slot (i : Nat) : Fin cap :=
  ⟨(r.head + i) % cap, Nat.mod_lt _ r.head.pos⟩

-- The elements, the oldest first.
def toList : List α :=
  (List.range r.count).map fun i => r.slots (r.slot i)

-- Store a newest element, in a buffer that has room for it.
def pushBack (x : α) : Ring α cap :=
  if h : r.count < cap then
    ⟨Function.update r.slots (r.slot r.count) x, r.head, r.count + 1, h⟩
  else r

-- The index in front of the head, where a new oldest element goes.
def before : Fin cap :=
  ⟨(r.head + cap - 1) % cap, Nat.mod_lt _ r.head.pos⟩

def pushFront (x : α) : Ring α cap :=
  if h : r.count < cap then ⟨Function.update r.slots r.before x, r.before, r.count + 1, h⟩ else r

def dropFront : Ring α cap :=
  ⟨r.slots, r.slot 1, r.count - 1, by have := r.count_le; omega⟩

-- Without its `n` oldest elements.
def skip (n : Nat) : Ring α cap :=
  ⟨r.slots, r.slot n, r.count - n, by have := r.count_le; omega⟩

def popFront : Option (α × Ring α cap) :=
  if r.count = 0 then none else some (r.slots r.head, r.dropFront)

@[simp] theorem length_toList : r.toList.length = r.count := by
  simp [toList]

@[simp] theorem toList_empty (x : α) (hcap : 0 < cap) : (empty x hcap).toList = [] := rfl

theorem toList_eq_nil_iff : r.toList = [] ↔ r.count = 0 := by
  rw [← List.length_eq_zero_iff, length_toList]

theorem count_pushBack (x : α) (hroom : r.count < cap) : (r.pushBack x).count = r.count + 1 := by
  simp [pushBack, hroom]

theorem count_pushFront (x : α) (hroom : r.count < cap) :
    (r.pushFront x).count = r.count + 1 := by
  simp [pushFront, hroom]

theorem slot_zero : r.slot 0 = r.head := by
  have hhead := r.head.isLt
  apply Fin.ext
  simp only [slot, Nat.add_zero]
  exact Nat.mod_eq_of_lt hhead

theorem wrap {h i : Nat} (hh : h < cap) (hi : i ≤ cap) :
    (h + i) % cap = if h + i < cap then h + i else h + i - cap := by
  split
  · rename_i hlt
    exact Nat.mod_eq_of_lt hlt
  · rename_i hge
    rw [Nat.mod_eq_sub_mod (by omega)]
    exact Nat.mod_eq_of_lt (by omega)

theorem slot_inj {i j : Nat} (hi : i < cap) (hj : j < cap) (h : r.slot i = r.slot j) : i = j := by
  have hhead := r.head.isLt
  have hmod : (r.head + i) % cap = (r.head + j) % cap := congrArg Fin.val h
  rw [wrap hhead (by omega), wrap hhead (by omega)] at hmod
  split at hmod <;> split at hmod <;> omega

theorem toList_pushBack (x : α) (hroom : r.count < cap) :
    (r.pushBack x).toList = r.toList ++ [x] := by
  have hold (i : Nat) (hi : i < r.count) :
      (r.pushBack x).slots ((r.pushBack x).slot i) = r.slots (r.slot i) := by
    have hne : r.slot i ≠ r.slot r.count := by
      intro heq
      have := r.slot_inj (by omega) hroom heq
      omega
    simp only [pushBack, hroom, dite_true]
    exact Function.update_of_ne hne _ _
  have hnew : (r.pushBack x).slots ((r.pushBack x).slot r.count) = x := by
    simp only [pushBack, hroom, dite_true]
    exact Function.update_self _ _ _
  unfold toList
  rw [r.count_pushBack x hroom, List.range_succ, List.map_append, List.map_singleton, hnew]
  congr 1
  apply List.map_congr_left
  intro i hi
  exact hold i (List.mem_range.mp hi)

theorem slot_dropFront (i : Nat) : r.dropFront.slot i = r.slot (i + 1) := by
  apply Fin.ext
  change ((r.head + 1) % cap + i) % cap = (r.head + (i + 1)) % cap
  rw [Nat.mod_add_mod]
  congr 1
  omega

theorem toList_dropFront (hcount : r.count ≠ 0) :
    r.toList = r.slots r.head :: r.dropFront.toList := by
  have hle := r.count_le
  obtain ⟨n, hn⟩ : ∃ n, r.count = n + 1 := ⟨r.count - 1, by omega⟩
  have hdrop : r.dropFront.count = n := by simp [dropFront, hn]
  unfold toList
  rw [hn, hdrop, List.range_succ_eq_map, List.map_cons, List.map_map, slot_zero]
  congr 1
  apply List.map_congr_left
  intro i hi
  have hi := List.mem_range.mp hi
  simp only [Function.comp_apply]
  rw [r.slot_dropFront i]
  rfl

@[simp] theorem getElem_toList (i : Nat) (hi : i < r.toList.length) :
    r.toList[i] = r.slots (r.slot i) := by
  simp [toList]

theorem toList_skip (n : Nat) : (r.skip n).toList = r.toList.drop n := by
  apply List.ext_getElem
  · simp [skip]
  · intro i hi hi'
    have hslot : (r.skip n).slot i = r.slot (n + i) := by
      apply Fin.ext
      change ((r.head + n) % cap + i) % cap = (r.head + (n + i)) % cap
      rw [Nat.mod_add_mod]
      congr 1
      omega
    rw [getElem_toList, hslot, List.getElem_drop, getElem_toList]
    rfl

-- A ring with something else in the slot of its oldest element.
def overwrite (x : α) : Ring α cap :=
  ⟨Function.update r.slots r.head x, r.head, r.count, r.count_le⟩

-- What was in that slot does not matter once the element is dropped.
theorem toList_dropFront_overwrite (x : α) :
    (r.overwrite x).dropFront.toList = r.dropFront.toList := by
  unfold toList
  apply List.map_congr_left
  intro i hi
  have hlt : i < r.count - 1 := List.mem_range.mp hi
  have hle := r.count_le
  have hne : r.slot (i + 1) ≠ r.head := by
    intro heq
    rw [← r.slot_zero] at heq
    have := r.slot_inj (by omega) (by omega) heq
    omega
  rw [slot_dropFront, slot_dropFront]
  exact Function.update_of_ne hne _ _

theorem slot_before (i : Nat) (hi : i + 1 ≤ cap) :
    (r.before + (i + 1)) % cap = (r.head + i) % cap := by
  have hhead := r.head.isLt
  have hbefore : (r.before : Nat) = if (r.head : Nat) = 0 then cap - 1 else r.head - 1 := by
    simp only [before]
    split
    · rename_i hzero
      rw [hzero, Nat.zero_add]
      exact Nat.mod_eq_of_lt (by omega)
    · rw [Nat.mod_eq_sub_mod (by omega)]
      rw [Nat.mod_eq_of_lt (by omega)]
      omega
  rw [hbefore]
  split
  · rename_i hzero
    rw [hzero, show cap - 1 + (i + 1) = cap + i by omega, Nat.add_mod_left, Nat.zero_add]
  · congr 1
    omega

theorem toList_pushFront (x : α) (hroom : r.count < cap) :
    (r.pushFront x).toList = x :: r.toList := by
  have hcount := r.count_pushFront x hroom
  have hhead : (r.pushFront x).slot 0 = r.before := by
    rw [slot_zero]
    simp [pushFront, hroom]
  have hshift (i : Nat) (hi : i < r.count) : (r.pushFront x).slot (i + 1) = r.slot i := by
    apply Fin.ext
    simp only [slot, pushFront, hroom, dite_true]
    exact r.slot_before i (by omega)
  have hold (i : Nat) (hi : i < r.count) :
      (r.pushFront x).slots ((r.pushFront x).slot (i + 1)) = r.slots (r.slot i) := by
    have hne : (r.pushFront x).slot (i + 1) ≠ r.before := by
      intro heq
      rw [← hhead] at heq
      have := (r.pushFront x).slot_inj (by omega) (by omega) heq
      omega
    rw [← hshift i hi]
    generalize (r.pushFront x).slot (i + 1) = k at hne
    simp only [pushFront, hroom, dite_true]
    exact Function.update_of_ne hne _ _
  have hnew : (r.pushFront x).slots ((r.pushFront x).slot 0) = x := by
    rw [hhead]
    simp only [pushFront, hroom, dite_true]
    exact Function.update_self _ _ _
  unfold toList
  rw [hcount, List.range_succ_eq_map, List.map_cons, List.map_map, hnew]
  congr 1
  apply List.map_congr_left
  intro i hi
  exact hold i (List.mem_range.mp hi)

end Ring

end Espos
