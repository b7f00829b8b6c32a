import Espos.Platform
import Espos.Lib.Text

-- The condition table of `espos_health.c`, as it is read and changed under the
-- lock.

namespace Espos.Health

open Espos.Text

inductive State where
  | normal
  | warn
  | alarm
deriving DecidableEq

def State.ofInt? : Int → Option State
  | 0 => some .normal
  | 1 => some .warn
  | 2 => some .alarm
  | _ => none

def keyMax : Nat := 24
def msgMax : Nat := 96

def rebootOnAlarm : UInt32 := 1

structure Condition where
  key : Buf keyMax
  state : State
  message : Buf msgMax
  flags : UInt32
deriving DecidableEq

-- What a sink is told of a condition.
abbrev Shown := State × Buf msgMax

def Condition.shown (c : Condition) : Shown :=
  (c.state, c.message)

variable {K : Kconfig}

-- Slots are never freed, and no two have the same key.
structure Table (K : Kconfig) where
  conds : List Condition
  nodup : (conds.map Condition.key).Nodup
  fits : conds.length ≤ K.healthMaxConditions

namespace Table

def empty : Table K :=
  ⟨[], List.nodup_nil, Nat.zero_le _⟩

def find (T : Table K) (key : Buf keyMax) : Option Condition :=
  T.conds.find? (·.key = key)

def withFlags (key : Buf keyMax) (flags : UInt32) (c : Condition) : Condition :=
  if c.key = key then { c with flags := flags } else c

def withReport (key : Buf keyMax) (shown : Shown) (flags : UInt32) (c : Condition) : Condition :=
  if c.key = key then ⟨c.key, shown.1, shown.2, flags⟩ else c

-- The slot of a key is changed in place.
def change (T : Table K) (f : Condition → Condition) (hf : ∀ c, (f c).key = c.key) : Table K where
  conds := T.conds.map f
  nodup := by
    have hkeys : (T.conds.map f).map Condition.key = T.conds.map Condition.key := by
      simp [List.map_map, Function.comp_def, hf]
    rw [hkeys]
    exact T.nodup
  fits := by
    rw [List.length_map]
    exact T.fits

theorem withFlags_key (key : Buf keyMax) (flags : UInt32) (c : Condition) :
    (withFlags key flags c).key = c.key := by
  rw [withFlags]
  split <;> rfl

theorem withReport_key (key : Buf keyMax) (shown : Shown) (flags : UInt32) (c : Condition) :
    (withReport key shown flags c).key = c.key := by
  rw [withReport]
  split <;> rfl

theorem find_some {T : Table K} {key : Buf keyMax} {c : Condition} (h : T.find key = some c) :
    c ∈ T.conds ∧ c.key = key := by
  refine ⟨List.mem_of_find?_eq_some h, ?_⟩
  simpa using List.find?_some h

theorem find_eq_none {T : Table K} {key : Buf keyMax} (h : T.find key = none) :
    key ∉ T.conds.map Condition.key := by
  simp only [find, List.find?_eq_none, decide_eq_true_eq] at h
  simpa using h

def push (T : Table K) (c : Condition) (hnew : T.find c.key = none)
    (hroom : T.conds.length < K.healthMaxConditions) : Table K where
  conds := T.conds ++ [c]
  nodup := by
    rw [List.map_append, List.map_singleton, List.nodup_append]
    refine ⟨T.nodup, by simp, ?_⟩
    intro a ha b hb hab
    rw [List.mem_singleton] at hb
    exact find_eq_none hnew (hab.trans hb ▸ ha)
  fits := by
    rw [List.length_append, List.length_singleton]
    exact hroom

end Table

-- What a report did under the lock.
inductive Reported (K : Kconfig) where
  | refused (err : EspErr)
  -- Unchanged for the sinks; the flags follow the latest report.
  | quiet (T : Table K)
  | stored (T : Table K)

def reportLocked (T : Table K) (key : Buf keyMax) (shown : Shown) (flags : UInt32) : Reported K :=
  match hfound : T.find key with
  | none =>
    if hroom : T.conds.length < K.healthMaxConditions then
      .stored (T.push ⟨key, shown.1, shown.2, flags⟩ hfound hroom)
    else .refused .noMem
  | some c =>
    if c.shown = shown then
      .quiet (T.change (Table.withFlags key flags) (Table.withFlags_key key flags))
    else
      .stored (T.change (Table.withReport key shown flags) (Table.withReport_key key shown flags))

-- The checks a report makes before it takes the lock. A missing string is NULL.
def checkReport (key : Option CStr) (state : Int) (message : Option CStr) (flags : UInt32) :
    Except EspErr (Buf keyMax × Shown) :=
  let key := key.getD []
  let message := message.getD []
  if key.isEmpty then .error .invalidArg
  else if flags &&& ~~~rebootOnAlarm ≠ 0 then .error .invalidArg
  else if key.length ≥ keyMax then .error .invalidSize
  else if message.length ≥ msgMax then .error .invalidSize
  else
    match State.ofInt? state with
    | none => .error .invalidArg
    | some state => .ok (.print key, state, .print message)

variable {T : Table K} {key : Buf keyMax} {shown : Shown} {flags : UInt32}

theorem Table.index_unique {i j : Nat} {c d : Condition} (hi : T.conds[i]? = some c)
    (hj : T.conds[j]? = some d) (hkey : c.key = d.key) : i = j := by
  have hkeys : (T.conds.map Condition.key)[i]? = (T.conds.map Condition.key)[j]? := by
    rw [List.getElem?_map, List.getElem?_map, hi, hj, Option.map_some, Option.map_some, hkey]
  have hlt : i < (T.conds.map Condition.key).length := by
    rw [List.length_map]
    exact (List.getElem?_eq_some_iff.mp hi).1
  exact (List.getElem?_inj hlt T.nodup).mp hkeys

theorem Table.withFlags_shown (key : Buf keyMax) (flags : UInt32) (c : Condition) :
    (withFlags key flags c).shown = c.shown := by
  rw [withFlags]
  split <;> rfl

theorem Table.getElem?_change {f : Condition → Condition} {hf : ∀ c, (f c).key = c.key} {j : Nat}
    {c : Condition} (hj : (T.change f hf).conds[j]? = some c) :
    ∃ d, T.conds[j]? = some d ∧ f d = c := by
  rw [change, List.getElem?_map, Option.map_eq_some_iff] at hj
  exact hj

-- A quiet report changes nothing a sink is told.
theorem quiet_conds {T' : Table K} (h : reportLocked T key shown flags = .quiet T') {j : Nat}
    {c : Condition} (hj : T'.conds[j]? = some c) :
    ∃ d, T.conds[j]? = some d ∧ d.key = c.key ∧ d.shown = c.shown := by
  rw [reportLocked] at h
  split at h
  next => split at h <;> exact absurd h nofun
  next =>
    split at h
    next =>
      obtain ⟨rfl⟩ := h
      obtain ⟨d, hd, rfl⟩ := Table.getElem?_change hj
      exact ⟨d, hd, (Table.withFlags_key ..).symm, (Table.withFlags_shown ..).symm⟩
    next => exact absurd h nofun

-- A stored report is in the table afterwards, and no other entry has changed.
theorem stored_conds {T' : Table K} (h : reportLocked T key shown flags = .stored T') {j : Nat}
    {c : Condition} (hj : T'.conds[j]? = some c) :
    c.key = key ∧ c.shown = shown ∨ c.key ≠ key ∧ T.conds[j]? = some c := by
  rw [reportLocked] at h
  split at h
  next hfound =>
    split at h
    next =>
      obtain ⟨rfl⟩ := h
      rw [Table.push] at hj
      by_cases hlt : j < T.conds.length
      · rw [List.getElem?_append_left hlt] at hj
        refine .inr ⟨?_, hj⟩
        rintro rfl
        exact Table.find_eq_none hfound (List.mem_map_of_mem (List.mem_of_getElem? hj))
      · rw [List.getElem?_append_right (by omega), List.getElem?_singleton] at hj
        split at hj
        next =>
          obtain rfl := Option.some.inj hj
          exact .inl ⟨rfl, rfl⟩
        next => exact absurd hj nofun
    next => exact absurd h nofun
  next =>
    split at h
    next => exact absurd h nofun
    next =>
      obtain ⟨rfl⟩ := h
      obtain ⟨d, hd, rfl⟩ := Table.getElem?_change hj
      rw [Table.withReport]
      split
      next hkey => exact .inl ⟨hkey, rfl⟩
      next hkey => exact .inr ⟨hkey, hd⟩

theorem Table.key_change {f : Condition → Condition} (hf : ∀ c, (f c).key = c.key) {i : Nat}
    {c : Condition} (hi : T.conds[i]? = some c) :
    ∃ c', (T.change f hf).conds[i]? = some c' ∧ c'.key = c.key := by
  refine ⟨f c, ?_, hf c⟩
  rw [change, List.getElem?_map, hi, Option.map_some]

def Reported.table (T : Table K) : Reported K → Table K
  | .refused _ => T
  | .quiet T' | .stored T' => T'

theorem key_kept {i : Nat} {c : Condition} (hi : T.conds[i]? = some c) :
    ∃ c', ((reportLocked T key shown flags).table T).conds[i]? = some c' ∧ c'.key = c.key := by
  rw [reportLocked]
  split
  next =>
    split
    next =>
      refine ⟨c, ?_, rfl⟩
      rw [Reported.table, Table.push,
        List.getElem?_append_left (List.getElem?_eq_some_iff.mp hi).1]
      exact hi
    next => exact ⟨c, hi, rfl⟩
  next =>
    split
    next => exact Table.key_change (Table.withFlags_key key flags) hi
    next => exact Table.key_change (Table.withReport_key key shown flags) hi

end Espos.Health
