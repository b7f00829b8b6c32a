import Espos.Lib.Nvs
import Espos.Sk.Tls.Verify

-- The trust anchor in NVS, key by key, and a device that may lose its power
-- between any two of the writes.

namespace Espos.Sk.Tls

open Espos.Text
open Espos.Nvs
open Espos.Run

-- The keys `tls_kind`, `tls_fp`, `tls_ca`, `tls_san`, `tls_cn`, `tls_self` and
-- `tls_at`.
inductive AnchorKey where
  | kind
  | leafFp
  | caFp
  | san
  | cn
  | serverSelf
  | pinnedUnix
deriving DecidableEq

-- The order they are written and erased in.
def AnchorKey.all : List AnchorKey :=
  [.kind, .leafFp, .caFp, .san, .cn, .serverSelf, .pinnedUnix]

abbrev AnchorNvs := Store AnchorKey Value

def Kind.number : Kind → UInt8
  | .none => 0
  | .ca => 1
  | .leaf => 2

def hex (bytes : List UInt8) : CStr :=
  bytes.flatMap hexByte

-- The value of a digit, without the upper case ones.
def hexDigit (c : Char) : Option Nat :=
  if '0'.toNat ≤ c.toNat ∧ c.toNat ≤ '9'.toNat then some (c.toNat - '0'.toNat)
  else if 'a'.toNat ≤ c.toNat ∧ c.toNat ≤ 'f'.toNat then some (c.toNat - 'a'.toNat + 10)
  else none

-- The bytes written until the text is at fault, and whether it never was.
def unhex : Nat → CStr → List UInt8 × Bool
  | 0, _ => ([], true)
  | n + 1, a :: b :: rest =>
    match hexDigit a, hexDigit b with
    | some hi, some lo =>
      let (out, ok) := unhex n rest
      (UInt8.ofNat (16 * hi + lo) :: out, ok)
    | _, _ => ([], false)
  | _ + 1, _ => ([], false)

-- Bytes written over zeros.
def Fp.over (bytes : List UInt8) : Fp where
  bytes := (bytes ++ List.replicate FP_LEN 0).take FP_LEN
  size := by simp

-- A fingerprint that `anchor_load` reads, and whether the kind may stay.
def getFp (st : AnchorNvs) (k : AnchorKey) : Fp × Bool :=
  let text := getStr st k (FP_LEN * 2 + 1)
  if text.isEmpty then (.zero, true)
  else
    let (out, ok) := unhex FP_LEN text.chars
    (.over out, ok)

-- `anchor_load`
def load (st : AnchorNvs) : Anchor :=
  let (leafFp, leafOk) := getFp st .leafFp
  let (caFp, caOk) := getFp st .caFp
  let kind := if leafOk && caOk then (getU8 st .kind).getD 0 else 0
  { kind := if kind = 1 then .ca else if kind = 2 then .leaf else .none
    leafFp := leafFp
    caFp := caFp
    san := getStr st .san SAN_MAX
    cn := getStr st .cn CN_MAX
    serverSelf := getStr st .serverSelf 128
    pinnedUnix := (getI64 st .pinnedUnix).getD 0 }

-- What `anchor_store` has for a key.
def Anchor.value (a : Anchor) : AnchorKey → Value
  | .kind => .u8 a.kind.number
  | .leafFp => .str (hex a.leafFp.bytes)
  | .caFp => .str (hex a.caFp.bytes)
  | .san => .str a.san.chars
  | .cn => .str a.cn.chars
  | .serverSelf => .str a.serverSelf.chars
  | .pinnedUnix => .i64 a.pinnedUnix

-- `anchor_store`
def storeWrites (a : Anchor) : List (Write AnchorKey Value) :=
  AnchorKey.all.map fun k => ⟨k, some (a.value k)⟩

-- `anchor_erase`
def eraseWrites : List (Write AnchorKey Value) :=
  AnchorKey.all.map fun k => ⟨k, none⟩

namespace World

-- The anchor an event writes. A write that does not succeed could not be
-- started.
def stores (w : World) : Event → Option Anchor
  | .commit i self now stored =>
    if w.holder = some i ∧ w.tls.commitWrites self now = true ∧ stored = true then
      some (w.tls.merged self now)
    else none
  | .setTrust (some ca) now true => some (State.suppliedAnchor ca now)
  | _ => none

def writes (w : World) (e : Event) : List (Write AnchorKey Value) :=
  if e = .reset then eraseWrites
  else
    match w.stores e with
    | some a => storeWrites a
    | none => []

end World

structure Device where
  world : World
  nvs : AnchorNvs

namespace Device

-- `cut` is the power that fails in the course of an event, behind the first `n`
-- of its writes, and the boot that follows.
inductive Event where
  | ran (e : World.Event)
  | cut (e : World.Event) (n : Nat)

def fresh : Device :=
  ⟨.start .blank, fun _ => none⟩

variable (d : Device)

-- What NVS is left with behind the first `n` writes.
def cutNvs (e : World.Event) (n : Nat) : AnchorNvs :=
  after d.nvs ((d.world.writes e).take n)

def step : Event → Device
  | .ran e => ⟨d.world.step e, after d.nvs (d.world.writes e)⟩
  | .cut e n => ⟨.start (load (d.cutNvs e n)), d.cutNvs e n⟩

def Undisturbed : Event → Prop
  | .ran e => d.world.Undisturbed e
  | .cut _ _ => True

-- Handshake `i`'s chain is pinned with this commit.
def Pins (i : Nat) (leaf : Crt) : Prop :=
  d.world.holder = some i ∧ d.world.tls.cap.valid = true ∧ d.world.tls.anchor.kind = .none ∧
    (d.world.own i).leaf = some leaf

-- A leaf below this CA is let through.
def Admits (ca : Option Fp) (leaf : Crt) (d : Device) : Event → Prop
  | .ran (.callback j crt depth _) =>
    depth = 0 → crt = leaf → (d.world.own j).ca = ca → (d.world.tls.decision crt).verdict ≠ .reject
  | _ => True

end Device

def Device.Event.Replaces : Device.Event → Prop
  | .ran e => e.Replaces
  | .cut e _ => e.Replaces

namespace Device

variable (d : Device)

-- The chain is let through from its commit on, until the anchor is replaced.
def PinLasts (i : Nat) (self : Option CStr) (now : Int) (leaf : Crt) : Prop :=
  ∀ es, Along step (fun d ev => d.Undisturbed ev ∧ ¬ ev.Replaces)
      (d.step (.ran (.commit i self now true))) es →
    Along step (Admits (d.world.own i).ca leaf) (d.step (.ran (.commit i self now true))) es

-- Wherever the power fails, the anchor is the old one, the new one or none.
def CutSafe (e : World.Event) : Prop :=
  ∀ n, let a := load (d.cutNvs e n)
    a = load d.nvs ∨ a = load (after d.nvs (d.world.writes e)) ∨ a.kind = .none

end Device

end Espos.Sk.Tls

-- What `anchor_load` makes of a store that was cut.

namespace Espos.Sk.Tls

open Espos.Text
open Espos.Nvs

theorem hexDigit_digitChar {n : Nat} (h : n < 16) : hexDigit (Nat.digitChar n) = some n := by
  have hall : ∀ m : Fin 16, hexDigit (Nat.digitChar m) = some m.val := by decide
  exact hall ⟨n, h⟩

theorem unhex_hex (bytes : List UInt8) : unhex bytes.length (hex bytes) = (bytes, true) := by
  induction bytes with
  | nil => rfl
  | cons b bytes ih =>
    have hb := b.toNat_lt
    have hhi : hexDigit (Nat.digitChar (b.toNat / 16)) = some (b.toNat / 16) :=
      hexDigit_digitChar (by omega)
    have hlo : hexDigit (Nat.digitChar (b.toNat % 16)) = some (b.toNat % 16) :=
      hexDigit_digitChar (by omega)
    have hbyte : 16 * (b.toNat / 16) + b.toNat % 16 = b.toNat := by omega
    have hcons : hex (b :: bytes) = Nat.digitChar (b.toNat / 16) ::
        Nat.digitChar (b.toNat % 16) :: hex bytes := rfl
    rw [List.length_cons, hcons]
    simp only [unhex, hhi, hlo, ih, hbyte, UInt8.ofNat_toNat]

theorem length_hex (bytes : List UInt8) : (hex bytes).length = 2 * bytes.length := by
  induction bytes with
  | nil => rfl
  | cons b bytes ih =>
    have hcons : hex (b :: bytes) = hexByte b ++ hex bytes := rfl
    rw [hcons, List.length_append, ih, List.length_cons]
    simp only [hexByte, List.length_cons, List.length_nil]
    omega

theorem Fp.over_bytes (fp : Fp) : Fp.over fp.bytes = fp := by
  obtain ⟨bytes, hsize⟩ := fp
  simp only [Fp.over, Fp.mk.injEq]
  rw [List.take_append_of_le_length (by omega), List.take_of_length_le (by omega)]

-- The value a key is read as, that is the blank anchor's where there is none.
def view (st : AnchorNvs) (k : AnchorKey) : Value :=
  (st k).getD (Anchor.blank.value k)

def Represents (st : AnchorNvs) (a : Anchor) : Prop :=
  ∀ k, view st k = a.value k

section Load

variable {st : AnchorNvs} {k : AnchorKey}

theorem getU8_of_view {n : UInt8} (hblank : Anchor.blank.value k = .u8 0)
    (h : view st k = .u8 n) : (getU8 st k).getD 0 = n := by
  rw [view, hblank] at h
  cases hst : st k with
  | none =>
    rw [hst] at h
    simp only [getU8, hst]
    exact Value.u8.inj h
  | some v =>
    rw [hst] at h
    have hv : v = .u8 n := h
    simp only [getU8, hst, hv, Option.getD_some]

theorem getI64_of_view {n : Int} (hblank : Anchor.blank.value k = .i64 0)
    (h : view st k = .i64 n) : (getI64 st k).getD 0 = n := by
  rw [view, hblank] at h
  cases hst : st k with
  | none =>
    rw [hst] at h
    simp only [getI64, hst]
    exact Value.i64.inj h
  | some v =>
    rw [hst] at h
    have hv : v = .i64 n := h
    simp only [getI64, hst, hv, Option.getD_some]

theorem getStr_of_view {size : Nat} {text : Buf size} (hsize : 0 < size)
    (hblank : Anchor.blank.value k = .str []) (h : view st k = .str text.chars) :
    getStr st k size = text := by
  rw [view, hblank] at h
  cases hst : st k with
  | none =>
    rw [hst] at h
    have hchars : [] = text.chars := Value.str.inj h
    rw [getStr_of_none hst]
    ext1
    exact hchars
  | some v =>
    rw [hst] at h
    have hv : v = .str text.chars := h
    rw [hv] at hst
    exact getStr_of_str hsize hst

theorem getFp_of_view {fp : Fp} (hblank : Anchor.blank.value k = .str (hex Fp.zero.bytes))
    (h : view st k = .str (hex fp.bytes)) : getFp st k = (fp, true) := by
  rw [view, hblank] at h
  have hlen : (hex fp.bytes).length = FP_LEN * 2 := by rw [length_hex, fp.size]; omega
  cases hst : st k with
  | none =>
    rw [hst] at h
    have hhex : hex Fp.zero.bytes = hex fp.bytes := Value.str.inj h
    have hzero : (Fp.zero.bytes, true) = (fp.bytes, true) := by
      rw [← unhex_hex, ← unhex_hex, hhex, Fp.zero.size, fp.size]
    have hfp : Fp.zero = fp := by
      rw [← Fp.over_bytes Fp.zero, ← Fp.over_bytes fp, (Prod.mk.inj hzero).1]
    simp [getFp, getStr_of_none hst, hfp]
  | some v =>
    rw [hst] at h
    have hv : v = .str (hex fp.bytes) := h
    have hchars : (Buf.print (hex fp.bytes) : Buf (FP_LEN * 2 + 1)).chars = hex fp.bytes := by
      simp only [Buf.print]
      exact List.take_of_length_le (by omega)
    have htext : getStr st k (FP_LEN * 2 + 1) = .print (hex fp.bytes) := by
      apply getStr_of_str (by omega)
      rw [hchars, hst, hv]
    have hunhex : unhex FP_LEN (hex fp.bytes) = (fp.bytes, true) := by
      rw [← fp.size]
      exact unhex_hex fp.bytes
    have hnonempty : (Buf.print (hex fp.bytes) : Buf (FP_LEN * 2 + 1)).isEmpty = false := by
      rw [Buf.isEmpty, hchars, List.isEmpty_eq_false_iff, ← List.length_pos_iff, hlen]
      decide
    simp [getFp, htext, hnonempty, hchars, hunhex, Fp.over_bytes]

-- `anchor_load` reads back every field.
theorem Represents.load_eq {a : Anchor} (h : Represents st a) : load st = a := by
  have hkind : view st .kind = .u8 a.kind.number := h .kind
  have hat : view st .pinnedUnix = .i64 a.pinnedUnix := h .pinnedUnix
  have hleaf : getFp st .leafFp = (a.leafFp, true) := getFp_of_view rfl (h .leafFp)
  have hca : getFp st .caFp = (a.caFp, true) := getFp_of_view rfl (h .caFp)
  have hsan : getStr st .san SAN_MAX = a.san := getStr_of_view (by decide) rfl (h .san)
  have hcn : getStr st .cn CN_MAX = a.cn := getStr_of_view (by decide) rfl (h .cn)
  have hself : getStr st .serverSelf 128 = a.serverSelf :=
    getStr_of_view (by decide) rfl (h .serverSelf)
  have hnumber : (getU8 st .kind).getD 0 = a.kind.number := getU8_of_view rfl hkind
  have hunix : (getI64 st .pinnedUnix).getD 0 = a.pinnedUnix := getI64_of_view rfl hat
  have hback : (if a.kind.number = 1 then Kind.ca
      else if a.kind.number = 2 then .leaf else .none) = a.kind := by
    cases a.kind <;> rfl
  simp only [load, hleaf, hca, hsan, hcn, hself, hnumber, hunix, Bool.and_self, if_true, hback]

end Load

-- The place of a key in the order of the writes.
def AnchorKey.index : AnchorKey → Nat
  | .kind => 0
  | .leafFp => 1
  | .caFp => 2
  | .san => 3
  | .cn => 4
  | .serverSelf => 5
  | .pinnedUnix => 6

theorem AnchorKey.all_index (k : AnchorKey) : AnchorKey.all[k.index]? = some k := by
  cases k <;> rfl

-- The anchor `a` with the first `n` of its values from `b`.
def Anchor.mix (a b : Anchor) (n : Nat) : Anchor where
  kind := if 0 < n then b.kind else a.kind
  leafFp := if 1 < n then b.leafFp else a.leafFp
  caFp := if 2 < n then b.caFp else a.caFp
  san := if 3 < n then b.san else a.san
  cn := if 4 < n then b.cn else a.cn
  serverSelf := if 5 < n then b.serverSelf else a.serverSelf
  pinnedUnix := if 6 < n then b.pinnedUnix else a.pinnedUnix

theorem Anchor.value_mix (a b : Anchor) (n : Nat) (k : AnchorKey) :
    (a.mix b n).value k = if k.index < n then b.value k else a.value k := by
  cases k
  all_goals
    simp only [Anchor.value, Anchor.mix, AnchorKey.index]
    split <;> simp only [*, if_true, if_false]

theorem Anchor.ext_value {a b : Anchor} (h : ∀ k, a.value k = b.value k) : a = b := by
  have ha : Represents (fun k => some (a.value k)) a := fun _ => rfl
  have hb : Represents (fun k => some (a.value k)) b := h
  exact ha.load_eq.symm.trans hb.load_eq

section Cuts

variable {st : AnchorNvs} {a : Anchor}

-- Some of the seven writes are made, and the others not.
theorem view_after_take (f : AnchorKey → Option Value) (n : Nat) (k : AnchorKey) :
    view (after st ((AnchorKey.all.map fun k => Write.mk k (f k)).take n)) k =
      if k.index < n then (f k).getD (Anchor.blank.value k) else view st k := by
  have hkeys : (AnchorKey.all.map fun k => Write.mk k (f k)).map Write.key = AnchorKey.all := rfl
  have hnodup : ((AnchorKey.all.map fun k => Write.mk k (f k)).map Write.key).Nodup := by
    rw [hkeys]
    decide
  have hwrite : (AnchorKey.all.map fun k => Write.mk k (f k))[k.index]? = some ⟨k, f k⟩ := by
    rw [List.getElem?_map, AnchorKey.all_index]
    rfl
  have hafter : after st ((AnchorKey.all.map fun k => Write.mk k (f k)).take n) k =
      if k.index < n then f k else st k := after_take hnodup hwrite
  rw [view, hafter]
  split <;> rfl

theorem Represents.storeWrites (h : Represents st a) (b : Anchor) (n : Nat) :
    Represents (after st ((storeWrites b).take n)) (a.mix b n) := by
  intro k
  rw [Espos.Sk.Tls.storeWrites, view_after_take, Anchor.value_mix, h k]
  rfl

-- To erase the anchor is to store the blank one.
theorem Represents.eraseWrites (h : Represents st a) (n : Nat) :
    Represents (after st (eraseWrites.take n)) (a.mix .blank n) := by
  intro k
  rw [Espos.Sk.Tls.eraseWrites, view_after_take, Anchor.value_mix, h k]
  rfl

theorem load_storeWrites (st : AnchorNvs) (b : Anchor) : load (after st (storeWrites b)) = b := by
  apply Represents.load_eq
  intro k
  have htake : (storeWrites b).take 7 = storeWrites b := rfl
  have hindex : k.index < 7 := by cases k <;> decide
  rw [← htake, storeWrites, view_after_take, if_pos hindex]
  rfl

end Cuts

-- At most one of the stored values is another one.
def Anchor.OneChange (a b : Anchor) : Prop :=
  ∀ j k, a.value j ≠ b.value j → a.value k ≠ b.value k → j = k

theorem Anchor.mix_iff {a b : Anchor} (hkind : b.kind ≠ .none) :
    (∀ n, a.mix b n = a ∨ a.mix b n = b ∨ (a.mix b n).kind = .none) ↔ a.OneChange b := by
  constructor
  · -- Behind the first of two changes and before the second, it is neither.
    intro h
    have hlt : ∀ j k, a.value j ≠ b.value j → a.value k ≠ b.value k → ¬ j.index < k.index := by
      intro j k hj hk hlt
      rcases h k.index with hold | hnew | hnone
      · have hvalue := Anchor.value_mix a b k.index j
        rw [hold, if_pos hlt] at hvalue
        exact hj hvalue
      · have hvalue := Anchor.value_mix a b k.index k
        rw [hnew, if_neg (by omega)] at hvalue
        exact hk hvalue.symm
      · have hpos : 0 < k.index := by omega
        simp only [Anchor.mix, hpos, if_true] at hnone
        exact hkind hnone
    intro j k hj hk
    have hindex : j.index = k.index := by
      have hjk := hlt j k hj hk
      have hkj := hlt k j hk hj
      omega
    have hj' := j.all_index
    rw [hindex, k.all_index] at hj'
    exact (Option.some.inj hj').symm
  · intro h n
    by_cases hdone : ∃ j, a.value j ≠ b.value j ∧ j.index < n
    · obtain ⟨j, hj, hjn⟩ := hdone
      right
      left
      apply Anchor.ext_value
      intro k
      rw [Anchor.value_mix]
      split
      · rfl
      · rename_i hkn
        by_contra hk
        obtain rfl := h j k hj hk
        exact hkn hjn
    · left
      apply Anchor.ext_value
      intro k
      rw [Anchor.value_mix]
      split
      · rename_i hkn
        by_contra hk
        exact hdone ⟨k, Ne.symm hk, hkn⟩
      · rfl

end Espos.Sk.Tls
