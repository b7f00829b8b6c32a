import Mathlib.Algebra.GroupWithZero.Nat
import Mathlib.Data.List.Basic
import Mathlib.Data.List.Range

-- A block of memory that is written and read across its end.

namespace Espos.Wrapped

variable {α : Type*} {size : Nat}

-- What is at each place; only those below the size count.
abbrev Memory (α : Type*) := Nat → α

def copy (mem : Memory α) (place : Nat) (xs : List α) : Memory α :=
  fun j => if h : place ≤ j ∧ j < place + xs.length then xs[j - place] else mem j

def block (mem : Memory α) (place n : Nat) : List α :=
  (List.range n).map fun i => mem (place + i)

-- In two parts where it goes over the end.
def write (size off : Nat) (xs : List α) (mem : Memory α) : Memory α :=
  if xs.length ≤ size - off then copy mem off xs
  else copy (copy mem off (xs.take (size - off))) 0 (xs.drop (size - off))

def read (size : Nat) (mem : Memory α) (off n : Nat) : List α :=
  if n ≤ size - off then block mem off n
  else block mem off (size - off) ++ block mem 0 (n - (size - off))

variable {mem : Memory α} {off n m : Nat} {xs : List α}

-- A place is at most one turn away.
theorem turn (hoff : off < size) {i : Nat} (hi : i < size) :
    (off + i) % size = if off + i < size then off + i else off + i - size := by
  by_cases h : off + i < size
  · rw [if_pos h, Nat.mod_eq_of_lt h]
  · rw [if_neg h, Nat.mod_eq_sub_mod (by omega), Nat.mod_eq_of_lt (by omega)]

theorem length_read : (read size mem off n).length = n := by
  unfold read block
  by_cases hfits : n ≤ size - off
  · simp only [if_pos hfits, List.length_map, List.length_range]
  · simp only [if_neg hfits, List.length_append, List.length_map, List.length_range]
    omega

theorem getElem_read (hoff : off < size) (hn : n ≤ size) {i : Nat}
    (hi : i < (read size mem off n).length) :
    (read size mem off n)[i] = mem ((off + i) % size) := by
  have hlen : i < n := by rwa [length_read] at hi
  rw [turn hoff (by omega)]
  unfold read block
  by_cases hfits : n ≤ size - off
  · simp only [if_pos hfits, List.getElem_map, List.getElem_range]
    rw [if_pos (by omega)]
  · simp only [if_neg hfits, List.getElem_append, List.length_map, List.length_range,
      List.getElem_map, List.getElem_range]
    by_cases hfirst : i < size - off
    · rw [dif_pos hfirst, if_pos (by omega)]
    · rw [dif_neg hfirst, if_neg (by omega)]
      congr 1
      omega

-- What is written is at the places from `off` on, and nothing else is touched.
theorem write_of_lt (hoff : off < size) (hlen : xs.length ≤ size) {i : Nat} (hi : i < xs.length) :
    write size off xs mem ((off + i) % size) = xs[i] := by
  rw [turn hoff (by omega)]
  unfold write copy
  by_cases hfits : xs.length ≤ size - off
  · rw [if_pos hfits, if_pos (by omega), dif_pos (by omega)]
    congr 1
    omega
  · rw [if_neg hfits]
    by_cases hfirst : off + i < size
    · rw [if_pos hfirst, dif_neg (by simp only [List.length_drop]; omega),
        dif_pos (by simp only [List.length_take]; omega), List.getElem_take]
      congr 1
      omega
    · rw [if_neg hfirst, dif_pos (by simp only [List.length_drop]; omega), List.getElem_drop]
      congr 1
      omega

theorem write_of_ge (hoff : off < size) {i : Nat} (hi : xs.length ≤ i) (hi' : i < size) :
    write size off xs mem ((off + i) % size) = mem ((off + i) % size) := by
  rw [turn hoff hi']
  unfold write copy
  by_cases hfits : xs.length ≤ size - off
  · rw [if_pos hfits, dif_neg]
    split_ifs
    all_goals omega
  · rw [if_neg hfits, dif_neg, dif_neg]
    all_goals
      simp only [List.length_take, List.length_drop]
      split_ifs
      all_goals omega

theorem read_write (hoff : off < size) (hlen : xs.length ≤ size) :
    read size (write size off xs mem) off xs.length = xs := by
  apply List.ext_getElem
  · exact length_read
  · intro i hi hi'
    rw [getElem_read hoff hlen, write_of_lt hoff hlen hi']

-- A write behind what is read, which does not come around to it.
theorem read_write_behind (hoff : off < size) (hn : n ≤ m) (hroom : m + xs.length ≤ size) :
    read size (write size ((off + m) % size) xs mem) off n = read size mem off n := by
  apply List.ext_getElem
  · rw [length_read, length_read]
  · intro i hi hi'
    have hlt : i < n := by rwa [length_read] at hi
    rw [getElem_read hoff (by omega), getElem_read hoff (by omega)]
    have hplace : (off + i) % size = ((off + m) % size + (size - m + i)) % size := by
      rw [Nat.mod_add_mod, show off + m + (size - m + i) = off + i + size by omega,
        Nat.add_mod_right]
    rw [hplace]
    exact write_of_ge (Nat.mod_lt _ (by omega)) (by omega) (by omega)

theorem read_add (hoff : off < size) (hn : m + n ≤ size) :
    read size mem off (m + n) = read size mem off m ++ read size mem ((off + m) % size) n := by
  apply List.ext_getElem
  · rw [List.length_append, length_read, length_read, length_read]
  · intro i hi hi'
    have hlt : i < m + n := by rwa [length_read] at hi
    rw [getElem_read hoff hn, List.getElem_append]
    by_cases hfirst : i < m
    · rw [dif_pos (by rwa [length_read]), getElem_read hoff (by omega)]
    · rw [dif_neg (by rwa [length_read]), getElem_read (Nat.mod_lt _ (by omega)) (by omega),
        Nat.mod_add_mod, length_read]
      congr 2
      omega

-- What is written behind the rest is read behind it.
theorem read_write_add (hoff : off < size) (hroom : m + xs.length ≤ size) :
    read size (write size ((off + m) % size) xs mem) off (m + xs.length) =
      read size mem off m ++ xs := by
  rw [read_add hoff hroom, read_write_behind hoff le_rfl hroom,
    read_write (Nat.mod_lt _ (by omega)) (by omega)]

-- Where two things lie one behind the other, each can be read by itself.
theorem read_append {ys : List α} (hoff : off < size) (hn : n ≤ size)
    (h : read size mem off n = xs ++ ys) :
    read size mem off xs.length = xs ∧
      read size mem ((off + xs.length) % size) ys.length = ys := by
  have hlen : n = xs.length + ys.length := by
    rw [← List.length_append, ← h, length_read]
  subst hlen
  rw [read_add hoff hn] at h
  exact List.append_inj h length_read

end Espos.Wrapped
