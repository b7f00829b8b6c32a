import Mathlib.Data.List.Nodup
import Mathlib.Logic.Function.Basic
import Espos.Lib.Text

-- A store of keys and values that is written one key at a time. The power may
-- fail between any two writes.

namespace Espos.Nvs

open Espos.Text

variable {κ ν : Type*}

abbrev Store (κ ν : Type*) := κ → Option ν

-- A set, or an erase where there is no value.
structure Write (κ ν : Type*) where
  key : κ
  value : Option ν

section Writes

variable [DecidableEq κ]

def apply (st : Store κ ν) (w : Write κ ν) : Store κ ν :=
  Function.update st w.key w.value

def after (st : Store κ ν) (ws : List (Write κ ν)) : Store κ ν :=
  ws.foldl apply st

variable {st : Store κ ν} {ws : List (Write κ ν)} {k : κ}

theorem after_of_notMem (h : k ∉ ws.map Write.key) : after st ws k = st k := by
  induction ws generalizing st with
  | nil => rfl
  | cons w ws ih =>
    simp only [List.map_cons, List.mem_cons, not_or] at h
    have hrest : after st (w :: ws) k = after (apply st w) ws k := rfl
    rw [hrest, ih h.2, apply, Function.update_of_ne h.1]

theorem after_of_mem (hnodup : (ws.map Write.key).Nodup) {w : Write κ ν} (h : w ∈ ws) :
    after st ws w.key = w.value := by
  induction ws generalizing st with
  | nil => cases h
  | cons u ws ih =>
    obtain ⟨hu, hrest⟩ := List.nodup_cons.mp hnodup
    have hcons : after st (u :: ws) w.key = after (apply st u) ws w.key := rfl
    rw [hcons]
    rcases List.mem_cons.mp h with rfl | h
    · rw [after_of_notMem hu, apply, Function.update_self]
    · exact ih hrest h

-- After a cut, the keys written before it have their new values and the others
-- their old ones.
theorem after_take (hnodup : (ws.map Write.key).Nodup) {i n : Nat} {w : Write κ ν}
    (h : ws[i]? = some w) : after st (ws.take n) w.key = if i < n then w.value else st w.key := by
  obtain ⟨hi, rfl⟩ := List.getElem?_eq_some_iff.mp h
  have hsub : ((ws.take n).map Write.key).Nodup :=
    hnodup.sublist ((List.take_sublist n ws).map Write.key)
  split
  · rename_i hlt
    exact after_of_mem hsub (List.mem_take_iff_getElem.mpr ⟨i, by omega, rfl⟩)
  · rename_i hge
    apply after_of_notMem
    intro hmem
    obtain ⟨u, hu, hkey⟩ := List.mem_map.mp hmem
    obtain ⟨j, hj, rfl⟩ := List.mem_take_iff_getElem.mp hu
    have hkeys : (ws.map Write.key)[j]? = (ws.map Write.key)[i]? := by
      simp only [List.getElem?_map, List.getElem?_eq_getElem (show j < ws.length by omega),
        List.getElem?_eq_getElem hi, Option.map_some, hkey]
    have hij : j = i := (List.getElem?_inj (by simp; omega) hnodup).mp hkeys
    omega

end Writes

inductive Value where
  | u8 (n : UInt8)
  | u16 (n : UInt16)
  | u32 (n : UInt32)
  | i64 (n : Int)
  | str (text : CStr)
deriving DecidableEq

section Read

variable (st : Store κ Value) (k : κ)

-- The values that are there, and of this type.
def getU8 : Option UInt8 :=
  match st k with
  | some (.u8 n) => some n
  | _ => none

def getU16 : Option UInt16 :=
  match st k with
  | some (.u16 n) => some n
  | _ => none

def getU32 : Option UInt32 :=
  match st k with
  | some (.u32 n) => some n
  | _ => none

def getI64 : Option Int :=
  match st k with
  | some (.i64 n) => some n
  | _ => none

-- A string that is not there or too long for the buffer is read as empty.
def getStr (size : Nat) : Buf size :=
  match st k with
  | some (.str text) => if text.length + 1 ≤ size then .print text else .empty
  | _ => .empty

end Read

section Lemmas

variable {st : Store κ Value} {k : κ}

theorem getU16_of_u16 {n : UInt16} (h : st k = some (.u16 n)) : getU16 st k = some n := by
  simp [getU16, h]

theorem getU32_of_u32 {n : UInt32} (h : st k = some (.u32 n)) : getU32 st k = some n := by
  simp [getU32, h]

theorem getStr_of_none {size : Nat} (h : st k = none) : getStr st k size = .empty := by
  simp [getStr, h]

theorem getStr_of_str {size : Nat} {text : Buf size} (hsize : 0 < size)
    (h : st k = some (.str text.chars)) : getStr st k size = text := by
  have hfits := text.fits
  simp only [getStr, h]
  rw [if_pos (by omega), Buf.print_chars]

end Lemmas

end Espos.Nvs
