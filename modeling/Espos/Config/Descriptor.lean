import Espos.Platform
import Espos.Lib.Json
import Espos.Lib.Nvs

-- The descriptors of `espos_config_desc.h` and what the store holds for them.

namespace Espos.Config

open Espos.Text

-- A key's type with its default and its bounds.
inductive Kind where
  | bool (dflt : Bool)
  | int (dflt min max : Int32)
  | float (dflt : Number) (min max : Option Number)
  | string (dflt : CStr) (maxLen : Nat) (enum : Option (List CStr))
  | blob (maxLen : Nat)
deriving DecidableEq

inductive Value where
  | bool (b : Bool)
  | int (i : Int32)
  | float (x : Number)
  | string (s : CStr)
  | blob (bytes : List UInt8)
deriving DecidableEq

structure KeyDesc where
  name : CStr
  kind : Kind
  secret : Bool
  restartRequired : Bool
  readOnly : Bool
deriving DecidableEq

structure NsDesc where
  name : CStr
  keys : List KeyDesc
  nodup : (keys.map KeyDesc.name).Nodup
deriving DecidableEq

-- The compiled and the registered namespaces, one flat list.
structure Schema where
  nss : List NsDesc
  nodup : (nss.map NsDesc.name).Nodup

def Schema.findNs (S : Schema) (ns : CStr) : Option NsDesc :=
  S.nss.find? (·.name = ns)

def NsDesc.findKey (nd : NsDesc) (key : CStr) : Option KeyDesc :=
  nd.keys.find? (·.name = key)

-- A name has the one that has it, and finds it.
theorem filter_of_mem {α β : Type*} [DecidableEq β] {f : α → β} {l : List α}
    (h : (l.map f).Nodup) {a : α} (ha : a ∈ l) : l.filter (fun x => f x = f a) = [a] := by
  induction l with
  | nil => exact absurd ha List.not_mem_nil
  | cons b l ih =>
    obtain ⟨hnew, hrest⟩ := List.nodup_cons.mp h
    rcases List.mem_cons.mp ha with rfl | ha
    · have hnone : l.filter (fun x => f x = f a) = [] := by
        rw [List.filter_eq_nil_iff]
        intro x hx heq
        exact hnew (of_decide_eq_true heq ▸ List.mem_map_of_mem hx)
      rw [List.filter_cons_of_pos (by simp), hnone]
    · have hne : f b ≠ f a := fun heq => hnew (heq ▸ List.mem_map_of_mem ha)
      rw [List.filter_cons_of_neg (by simpa using hne)]
      exact ih hrest ha

theorem find?_of_mem {α β : Type*} [DecidableEq β] {f : α → β} {l : List α}
    (h : (l.map f).Nodup) {a : α} (ha : a ∈ l) : l.find? (fun x => f x = f a) = some a := by
  rw [← List.head?_filter, filter_of_mem h ha, List.head?_cons]

theorem Schema.findNs_of_mem {S : Schema} {nd : NsDesc} (h : nd ∈ S.nss) :
    S.findNs nd.name = some nd :=
  find?_of_mem S.nodup h

theorem NsDesc.findKey_of_mem {nd : NsDesc} {k : KeyDesc} (h : k ∈ nd.keys) :
    nd.findKey k.name = some k :=
  find?_of_mem nd.nodup h

-- No two namespaces and no two keys of one share a name.
theorem Schema.eq_of_names {S : Schema} {nd nd' : NsDesc} {k k' : KeyDesc} (hnd : nd ∈ S.nss)
    (hnd' : nd' ∈ S.nss) (hk : k ∈ nd.keys) (hk' : k' ∈ nd'.keys)
    (h : (nd.name, k.name) = (nd'.name, k'.name)) : nd = nd' ∧ k = k' := by
  obtain ⟨hname, hkey⟩ := Prod.mk.inj h
  have hns : nd = nd' := by
    have hfind := findNs_of_mem hnd
    rw [hname, findNs_of_mem hnd'] at hfind
    exact (Option.some.inj hfind).symm
  subst hns
  have hfind := NsDesc.findKey_of_mem hk
  rw [hkey, NsDesc.findKey_of_mem hk'] at hfind
  exact ⟨rfl, (Option.some.inj hfind).symm⟩

theorem Schema.findNs_eq_some {S : Schema} {ns : CStr} {nd : NsDesc} (h : S.findNs ns = some nd) :
    nd ∈ S.nss ∧ nd.name = ns :=
  ⟨List.mem_of_find?_eq_some h, by simpa using List.find?_some h⟩

theorem NsDesc.findKey_eq_some {nd : NsDesc} {key : CStr} {k : KeyDesc}
    (h : nd.findKey key = some k) : k ∈ nd.keys ∧ k.name = key :=
  ⟨List.mem_of_find?_eq_some h, by simpa using List.find?_some h⟩

-- What the backend holds, each value with its type.
inductive Stored where
  | u8 (n : UInt8)
  | i32 (i : Int32)
  | f32 (x : Number)
  | str (s : CStr)
  | blob (bytes : List UInt8)
deriving DecidableEq

abbrev KeyId := CStr × CStr

abbrev Store := Nvs.Store KeyId Stored

-- The library the component is built with: `%.*g`, the conversion of a `double`
-- to a `float`, `strtof` and `strtod`, the document cJSON reads from a text with
-- the place it ends, and the text it prints for a document.
structure Lib where
  printG : Nat → Number → CStr
  toFloat : Number → Number
  strtof : CStr → Number
  strtod : CStr → Number
  parse : List Char → Option (Json × Nat)
  print : Json → List Char

section Validate

variable (lib : Lib)

-- The reason why a value is refused.
def validate : Kind → Value → Option CStr
  | .bool _, .bool _ => none
  | .int _ min max, .int i =>
    if i < min ∨ max < i then
      some (lit "out of range [" ++ decimalInt min.toInt ++ [','] ++ decimalInt max.toInt ++ [']'])
    else none
  | .float _ min max, .float x =>
    if x.isFinite = false then some (lit "not a finite number")
    else if min.any x.lt then some (lit "below minimum " ++ lib.printG 6 (min.getD .nan))
    else if max.any fun max => max.lt x then
      some (lit "above maximum " ++ lib.printG 6 (max.getD .nan))
    else none
  | .string _ maxLen enum, .string s =>
    if maxLen < s.length then some (lit "longer than " ++ decimal maxLen ++ lit " bytes")
    else
      match enum with
      | none => none
      | some allowed => if s ∈ allowed then none else some (lit "not an allowed value")
  | .blob maxLen, .blob bytes =>
    if maxLen < bytes.length then some (lit "longer than " ++ decimal maxLen ++ lit " bytes")
    else none
  | .bool _, _ => some (lit "expected boolean")
  | .int _ _ _, _ => some (lit "expected integer")
  | .float _ _ _, _ => some (lit "expected number")
  | .string _ _ _, _ => some (lit "expected string")
  | .blob _, _ => some (lit "expected blob(base64)")

-- The default as the descriptor spells it, and as it is read: a string is cut
-- to the buffer.
def Kind.rawDefault : Kind → Value
  | .bool dflt => .bool dflt
  | .int dflt _ _ => .int dflt
  | .float dflt _ _ => .float dflt
  | .string dflt _ _ => .string dflt
  | .blob _ => .blob []

def Kind.default : Kind → Value
  | .string dflt maxLen _ => .string (dflt.take maxLen)
  | kind => kind.rawDefault

-- The stored value of a key, where it is one: of the right type, not too long
-- for the buffer and valid.
def readStored (kind : Kind) (stored : Option Stored) : Option Value :=
  match kind, stored with
  | .bool _, some (.u8 n) => if n ≤ 1 then some (.bool (n ≠ 0)) else none
  | .int _ min max, some (.i32 i) => if min ≤ i ∧ i ≤ max then some (.int i) else none
  | .float _ _ _, some (.f32 x) =>
    if validate lib kind (.float x) = none then some (.float x) else none
  | .string _ maxLen _, some (.str s) =>
    if s.length ≤ maxLen ∧ validate lib kind (.string s) = none then some (.string s) else none
  | .blob maxLen, some (.blob bytes) => if bytes.length ≤ maxLen then some (.blob bytes) else none
  | _, _ => none

def readEffective (kind : Kind) (stored : Option Stored) : Value :=
  (readStored lib kind stored).getD kind.default

end Validate

-- `value_equals_effective`, with the comparisons of C.
def valueEquals : Value → Value → Bool
  | .bool a, .bool b => a = b
  | .int a, .int b => a = b
  | .float a, .float b => a.feq b
  | .string a, .string b => a = b
  | .blob a, .blob b => a = b
  | _, _ => false

-- An empty blob is stored as no value.
def Value.stored : Value → Option Stored
  | .bool b => some (.u8 (if b then 1 else 0))
  | .int i => some (.i32 i)
  | .float x => some (.f32 x)
  | .string s => some (.str s)
  | .blob [] => none
  | .blob bytes => some (.blob bytes)

def effective (lib : Lib) (st : Store) (nd : NsDesc) (k : KeyDesc) : Value :=
  readEffective lib k.kind (st (nd.name, k.name))

variable {lib : Lib} {kind : Kind} {v : Value} {stored : Option Stored}

-- The type a value is read with, which is the key's.
def Value.Fits : Kind → Value → Prop
  | .bool _, .bool _ => True
  | .int _ _ _, .int _ => True
  | .float _ _ _, .float _ => True
  | .string _ maxLen _, .string s => s.length ≤ maxLen
  | .blob maxLen, .blob bytes => bytes.length ≤ maxLen
  | _, _ => False

theorem fits_of_valid (h : validate lib kind v = none) : v.Fits kind := by
  cases kind with
  | bool dflt =>
    cases v with
    | bool b => trivial
    | int | float | string | blob => exact absurd h nofun
  | int dflt min max =>
    cases v with
    | int i => trivial
    | bool | float | string | blob => exact absurd h nofun
  | float dflt min max =>
    cases v with
    | float x => trivial
    | bool | int | string | blob => exact absurd h nofun
  | string dflt maxLen enum =>
    cases v with
    | string s =>
      refine Nat.not_lt.mp fun hlong => ?_
      simp only [validate, if_pos hlong] at h
      exact absurd h nofun
    | bool | int | float | blob => exact absurd h nofun
  | blob maxLen =>
    cases v with
    | blob bytes =>
      refine Nat.not_lt.mp fun hlong => ?_
      rw [validate, if_pos hlong] at h
      exact absurd h nofun
    | bool | int | float | string => exact absurd h nofun

-- A value that passes its check is read back as it was written.
theorem readEffective_stored (h : validate lib kind v = none) :
    readEffective lib kind v.stored = v := by
  have hfits := fits_of_valid h
  cases kind with
  | bool dflt =>
    cases v with
    | bool b => cases b <;> rfl
    | int | float | string | blob => exact hfits.elim
  | int dflt min max =>
    cases v with
    | int i =>
      have hrange : min ≤ i ∧ i ≤ max := by
        simp only [validate] at h
        split at h
        next => exact absurd h nofun
        next hin => simpa [not_or, Int32.not_lt] using hin
      simp [readEffective, readStored, Value.stored, hrange]
    | bool | float | string | blob => exact hfits.elim
  | float dflt min max =>
    cases v with
    | float x => simp [readEffective, readStored, Value.stored, h]
    | bool | int | string | blob => exact hfits.elim
  | string dflt maxLen enum =>
    cases v with
    | string s =>
      have hlen : s.length ≤ maxLen := hfits
      simp [readEffective, readStored, Value.stored, h, hlen]
    | bool | int | float | blob => exact hfits.elim
  | blob maxLen =>
    cases v with
    | blob bytes =>
      have hlen : bytes.length ≤ maxLen := hfits
      cases bytes with
      | nil => rfl
      | cons byte bytes => simp_all [readEffective, readStored, Value.stored]
    | bool | int | float | string => exact hfits.elim

theorem readEffective_none : readEffective lib kind none = kind.default := by
  cases kind <;> rfl

theorem valid_readStored (h : readStored lib kind stored = some v) :
    validate lib kind v = none := by
  cases stored with
  | none => cases kind <;> exact absurd h nofun
  | some s =>
    cases kind with
    | bool dflt =>
      cases s with
      | u8 n =>
        rw [readStored, Option.ite_none_right_eq_some, Option.some.injEq] at h
        obtain ⟨_, rfl⟩ := h
        rfl
      | i32 | f32 | str | blob => exact absurd h nofun
    | int dflt min max =>
      cases s with
      | i32 i =>
        rw [readStored, Option.ite_none_right_eq_some, Option.some.injEq] at h
        obtain ⟨hrange, rfl⟩ := h
        simp [validate, Int32.not_lt, hrange]
      | u8 | f32 | str | blob => exact absurd h nofun
    | float dflt min max =>
      cases s with
      | f32 x =>
        rw [readStored, Option.ite_none_right_eq_some, Option.some.injEq] at h
        obtain ⟨hvalid, rfl⟩ := h
        exact hvalid
      | u8 | i32 | str | blob => exact absurd h nofun
    | string dflt maxLen enum =>
      cases s with
      | str s =>
        rw [readStored, Option.ite_none_right_eq_some, Option.some.injEq] at h
        obtain ⟨⟨_, hvalid⟩, rfl⟩ := h
        exact hvalid
      | u8 | i32 | f32 | blob => exact absurd h nofun
    | blob maxLen =>
      cases s with
      | blob bytes =>
        rw [readStored, Option.ite_none_right_eq_some, Option.some.injEq] at h
        obtain ⟨hlen, rfl⟩ := h
        simp [validate, hlen]
      | u8 | i32 | f32 | str => exact absurd h nofun

theorem fits_default : kind.default.Fits kind := by
  cases kind with
  | string dflt maxLen enum => exact List.length_take_le _ _
  | blob maxLen => exact Nat.zero_le _
  | bool | int | float => trivial

theorem fits_readEffective : (readEffective lib kind stored).Fits kind := by
  rw [readEffective]
  cases h : readStored lib kind stored with
  | none => exact fits_default
  | some v => exact fits_of_valid (valid_readStored h)

-- What is read passes its check, where the default does.
theorem valid_readEffective
    (h : readEffective lib kind stored = kind.default → validate lib kind kind.default = none) :
    validate lib kind (readEffective lib kind stored) = none := by
  rw [readEffective] at h ⊢
  cases hread : readStored lib kind stored with
  | none =>
    rw [hread] at h
    exact h rfl
  | some v => exact valid_readStored hread

-- The comparison of C is equality, but for a number that is not one.
theorem valueEquals_iff {cur : Value} (hv : v ≠ .float .nan) :
    valueEquals cur v = true ↔ cur = v := by
  cases v with
  | float x =>
    have hx : x ≠ .nan := fun hx => hv (by rw [hx])
    cases cur with
    | float y => simpa [valueEquals] using Number.feq_iff hx
    | bool | int | string | blob => simp [valueEquals]
  | bool | int | string | blob => cases cur <;> simp [valueEquals]

theorem ne_nan_of_valid (h : validate lib kind v = none) : v ≠ .float .nan := by
  rintro rfl
  cases kind with
  | float dflt min max => simp [validate, Number.isFinite] at h
  | bool | int | string | blob => exact absurd h nofun

-- Reading the default gives the default the descriptor spells.
def Kind.keepsDefault (kind : Kind) : Bool :=
  valueEquals kind.default kind.rawDefault

-- The comparison a reset makes, with what it should tell.
theorem valueEquals_rawDefault {cur : Value} (hcur : cur.Fits kind) :
    valueEquals cur kind.rawDefault = true ↔ kind.keepsDefault = true ∧ cur = kind.default := by
  cases kind with
  | bool dflt => simp [Kind.keepsDefault, Kind.default, Kind.rawDefault, valueEquals_iff]
  | int dflt min max => simp [Kind.keepsDefault, Kind.default, Kind.rawDefault, valueEquals_iff]
  | blob maxLen => simp [Kind.keepsDefault, Kind.default, Kind.rawDefault, valueEquals_iff]
  | float dflt min max =>
    by_cases hnan : dflt = .nan
    · subst hnan
      cases cur with
      | float y => simp [Kind.keepsDefault, Kind.default, Kind.rawDefault, valueEquals,
          Number.feq_nan]
      | bool | int | string | blob => exact hcur.elim
    · have hne : Value.float dflt ≠ .float .nan := by simpa using hnan
      simp [Kind.keepsDefault, Kind.default, Kind.rawDefault, valueEquals_iff hne]
  | string dflt maxLen enum =>
    have hne : Value.string dflt ≠ .float .nan := nofun
    simp only [Kind.keepsDefault, Kind.default, Kind.rawDefault, valueEquals_iff hne]
    constructor
    · rintro rfl
      have hcut : dflt.take maxLen = dflt := List.take_of_length_le hcur
      simp [hcut]
    · rintro ⟨hcut, rfl⟩
      exact hcut

end Espos.Config
