import Mathlib.Data.List.TakeWhile
import Espos.Sk.Tls.Policy

-- The hosts a certificate names, and the text `crtSanSet` has for each.

namespace Espos.Sk.Tls

open Espos.Text

inductive Host where
  | dns (name : CStr)
  | ip (bytes : List UInt8)
deriving DecidableEq

-- The host an entry names. The case of a letter does not matter.
def SanEntry.host (e : SanEntry) : Option Host :=
  if e.isDns then some (.dns ((ofBytes e.bytes).map lower))
  else if e.isIp then some (.ip e.bytes)
  else none

def hosts (sans : List SanEntry) : List Host :=
  sans.filterMap SanEntry.host

namespace Host

def text : Host → CStr
  | .dns name => (name.take (SAN_NAME_MAX - 1)).takeWhile (· != '\x00')
  | .ip bytes =>
    if bytes.length = 4 then ip4Text bytes
    else if bytes.length = 16 then ip6Text bytes
    else []

-- Nothing of the host is lost in its text.
def Exact : Host → Prop
  | .dns name => name ≠ [] ∧ name.length < SAN_NAME_MAX ∧ '\x00' ∉ name ∧ ',' ∉ name ∧
      ∀ bytes, (Host.ip bytes).text ≠ name
  | .ip bytes => bytes.length = 4 ∨ bytes.length = 16

end Host

-- Texts of addresses

def addressChars : CStr :=
  lit "0123456789abcdef.:"

theorem mem_addressChars_of_digit {c : Char} (h : c.isDigit = true) : c ∈ addressChars := by
  have hlo : '0'.toNat ≤ c.toNat ∧ c.toNat ≤ '9'.toNat := by
    simpa [Char.isDigit, UInt32.le_iff_toNat_le] using h
  have hall : ∀ n, '0'.toNat ≤ n → n ≤ '9'.toNat → Char.ofNat n ∈ addressChars := by decide
  have hc := hall c.toNat hlo.1 hlo.2
  rwa [Char.ofNat_toNat] at hc

theorem digitChar_mem {n : Nat} (h : n < 16) : Nat.digitChar n ∈ addressChars := by
  have hall : ∀ n < 16, Nat.digitChar n ∈ addressChars := by decide
  exact hall n h

theorem mem_decimal {n : Nat} {c : Char} (h : c ∈ decimal n) : c ∈ addressChars :=
  mem_addressChars_of_digit (Nat.isDigit_of_mem_toDigits (by decide) (by decide) h)

theorem mem_hexByte {b : UInt8} {c : Char} (h : c ∈ hexByte b) : c ∈ addressChars := by
  have hb := b.toNat_lt
  simp only [hexByte, List.mem_cons, List.not_mem_nil, or_false] at h
  rcases h with rfl | rfl
  · exact digitChar_mem (by omega)
  · exact digitChar_mem (by omega)

theorem mem_ip4Text {bytes : List UInt8} {c : Char} (h : c ∈ ip4Text bytes) : c ∈ addressChars := by
  induction bytes using ip4Text.induct with
  | case1 => cases h
  | case2 a => exact mem_decimal h
  | case3 a rest hrest ih =>
    rw [ip4Text.eq_3 a rest hrest] at h
    rcases List.mem_append.mp h with h | h
    · exact mem_decimal h
    · rcases List.mem_cons.mp h with rfl | h
      · decide
      · exact ih h

theorem mem_ip6Text {bytes : List UInt8} {c : Char} (h : c ∈ ip6Text bytes) : c ∈ addressChars := by
  induction bytes using ip6Text.induct with
  | case1 a b =>
    rw [ip6Text] at h
    rcases List.mem_append.mp h with h | h
    · exact mem_hexByte h
    · exact mem_hexByte h
  | case2 a b rest hrest ih =>
    rw [ip6Text.eq_2 a b rest hrest] at h
    rcases List.mem_append.mp h with h | h
    · rcases List.mem_append.mp h with h | h
      · exact mem_hexByte h
      · exact mem_hexByte h
    · rcases List.mem_cons.mp h with rfl | h
      · decide
      · exact ih h
  | case3 bytes hone htwo =>
    rw [ip6Text.eq_3 bytes hone htwo] at h
    cases h

theorem Host.mem_text_ip {bytes : List UInt8} {c : Char} (h : c ∈ (Host.ip bytes).text) :
    c ∈ addressChars := by
  simp only [Host.text] at h
  split at h
  · exact mem_ip4Text h
  · split at h
    · exact mem_ip6Text h
    · cases h

theorem decimal_injective : Function.Injective decimal := by
  intro a b h
  have := congrArg (fun digits => Nat.ofDigitChars 10 digits 0) h
  simpa [decimal, Nat.ofDigitChars_ten_toDigits] using this

theorem dot_notMem_decimal (n : Nat) : '.' ∉ decimal n := by
  intro h
  have := Nat.isDigit_of_mem_toDigits (by decide) (by decide) h
  cases this

theorem hexByte_injective : Function.Injective hexByte := by
  intro a b h
  have hdigit : ∀ m < 16, ∀ n < 16, Nat.digitChar m = Nat.digitChar n → m = n := by decide
  have ha := a.toNat_lt
  have hb := b.toNat_lt
  simp only [hexByte, List.cons.injEq, and_true] at h
  have hhigh := hdigit _ (by omega) _ (by omega) h.1
  have hlow := hdigit _ (by omega) _ (by omega) h.2
  apply UInt8.toNat_inj.mp
  omega

theorem ip4Text_inj {x y : List UInt8} (hlen : x.length = y.length) (h : ip4Text x = ip4Text y) :
    x = y := by
  induction x generalizing y with
  | nil => exact (List.length_eq_zero_iff.mp hlen.symm).symm
  | cons a x ih =>
    obtain ⟨b, z, rfl⟩ := List.exists_of_length_succ y hlen.symm
    simp only [List.length_cons, Nat.add_right_cancel_iff] at hlen
    cases x with
    | nil =>
      obtain rfl := List.length_eq_zero_iff.mp hlen.symm
      have hab := UInt8.toNat_inj.mp (decimal_injective h)
      rw [hab]
    | cons a' x =>
      obtain ⟨b', w, rfl⟩ := List.exists_of_length_succ z hlen.symm
      simp only [ip4Text] at h
      obtain ⟨hhead, hrest⟩ := append_cons_inj (dot_notMem_decimal _) (dot_notMem_decimal _) h
      have hab := UInt8.toNat_inj.mp (decimal_injective hhead)
      rw [hab, ih hlen hrest]

theorem hexByte_append_inj {a b : UInt8} {x y : CStr} (h : hexByte a ++ x = hexByte b ++ y) :
    a = b ∧ x = y := by
  obtain ⟨hab, hxy⟩ := List.append_inj h rfl
  exact ⟨hexByte_injective hab, hxy⟩

theorem ip6Text_inj {x y : List UInt8} (hlen : x.length = y.length) (heven : x.length % 2 = 0)
    (h : ip6Text x = ip6Text y) : x = y := by
  induction x using ip6Text.induct generalizing y with
  | case1 a b =>
    obtain ⟨c, z, rfl⟩ := List.exists_of_length_succ y hlen.symm
    obtain ⟨d, w, rfl⟩ := List.exists_of_length_succ z (Nat.succ.inj hlen.symm)
    obtain rfl : w = [] := by simpa using hlen
    obtain ⟨rfl, hrest⟩ := hexByte_append_inj h
    rw [hexByte_injective hrest]
  | case2 a b rest hrest ih =>
    obtain ⟨c, z, rfl⟩ := List.exists_of_length_succ y hlen.symm
    obtain ⟨d, w, rfl⟩ := List.exists_of_length_succ z (Nat.succ.inj hlen.symm)
    have hlen' : rest.length = w.length := by simpa using hlen
    have hw : w = [] → False := by
      rintro rfl
      exact hrest (List.length_eq_zero_iff.mp hlen')
    rw [ip6Text.eq_2 a b rest hrest, ip6Text.eq_2 c d w hw, List.append_assoc,
      List.append_assoc] at h
    obtain ⟨hac, htail⟩ := hexByte_append_inj h
    obtain ⟨hbd, htail⟩ := hexByte_append_inj htail
    have heven' : rest.length % 2 = 0 := by
      simp only [List.length_cons] at heven
      omega
    rw [hac, hbd, ih hlen' heven' (List.cons.inj htail).2]
  | case3 bytes hone htwo =>
    -- nothing is left, since one byte alone is odd
    rcases bytes with _ | ⟨a, _ | ⟨b, rest⟩⟩
    · exact (List.length_eq_zero_iff.mp hlen.symm).symm
    · simp at heven
    · exact absurd rfl (htwo a b rest)

theorem colon_mem_ip6Text {bytes : List UInt8} (h : 2 < bytes.length) : ':' ∈ ip6Text bytes := by
  rcases bytes with _ | ⟨a, _ | ⟨b, _ | ⟨c, rest⟩⟩⟩
  · simp at h
  · simp at h
  · simp at h
  · simp [ip6Text]

theorem colon_notMem_ip4Text (bytes : List UInt8) : ':' ∉ ip4Text bytes := by
  induction bytes using ip4Text.induct with
  | case1 => simp [ip4Text]
  | case2 a =>
    intro h
    cases Nat.isDigit_of_mem_toDigits (by decide) (by decide) h
  | case3 a rest hrest ih =>
    rw [ip4Text.eq_3 a rest hrest]
    intro h
    rcases List.mem_append.mp h with h | h
    · cases Nat.isDigit_of_mem_toDigits (by decide) (by decide) h
    · exact ih (by simpa using h)

namespace Host

theorem text_ip4_ne_ip6 {x y : List UInt8} (hx : x.length = 4) (hy : y.length = 16) :
    (Host.ip x).text ≠ (Host.ip y).text := by
  intro h
  have hcolon : ':' ∈ ip6Text y := colon_mem_ip6Text (by omega)
  simp only [text, hx, hy, if_true] at h
  rw [if_neg (by decide)] at h
  rw [← h] at hcolon
  exact colon_notMem_ip4Text x hcolon

theorem text_ip_inj {x y : List UInt8} (hx : (Host.ip x).Exact) (hy : (Host.ip y).Exact)
    (h : (Host.ip x).text = (Host.ip y).text) : x = y := by
  rcases hx with hx | hx
  · rcases hy with hy | hy
    · simp only [text, hx, hy, if_true] at h
      exact ip4Text_inj (by omega) h
    · exact absurd h (text_ip4_ne_ip6 hx hy)
  · rcases hy with hy | hy
    · exact absurd h.symm (text_ip4_ne_ip6 hy hx)
    · simp only [text, hx, hy, if_true] at h
      exact ip6Text_inj (by omega) (by omega) (by simpa using h)

theorem text_dns {name : CStr} (h : (Host.dns name).Exact) : (Host.dns name).text = name := by
  obtain ⟨_, hlen, hnul, _⟩ := h
  have htake : name.take (SAN_NAME_MAX - 1) = name := List.take_of_length_le (by omega)
  rw [text, htake, List.takeWhile_eq_self_iff]
  intro c hc
  rw [bne_iff_ne]
  rintro rfl
  exact hnul hc

-- The text of a host that is recorded exactly is that of no other.
theorem text_inj {h k : Host} (hh : h.Exact) (hk : k.Exact) (heq : h.text = k.text) : h = k := by
  cases h with
  | dns name =>
    rw [text_dns hh] at heq
    cases k with
    | dns other => rw [heq, text_dns hk]
    | ip bytes => exact absurd heq.symm (hh.2.2.2.2 bytes)
  | ip bytes =>
    cases k with
    | dns name =>
      rw [text_dns hk] at heq
      exact absurd heq (hk.2.2.2.2 bytes)
    | ip other => rw [text_ip_inj hh hk heq]

theorem text_ne_nil {h : Host} (hh : h.Exact) : h.text ≠ [] := by
  cases h with
  | dns name =>
    rw [text_dns hh]
    exact hh.1
  | ip bytes =>
    intro hnil
    rcases hh with hh | hh
    · obtain ⟨a, rest, rfl⟩ := List.exists_of_length_succ bytes hh
      obtain ⟨b, rest, rfl⟩ := List.exists_of_length_succ rest (Nat.succ.inj hh)
      simp only [text, hh, if_true, ip4Text] at hnil
      simp at hnil
    · have hcolon : ':' ∈ ip6Text bytes := colon_mem_ip6Text (by omega)
      simp only [text, hh, if_true] at hnil
      rw [if_neg (by decide)] at hnil
      rw [hnil] at hcolon
      cases hcolon

theorem comma_notMem_text {h : Host} (hh : h.Exact) : ',' ∉ h.text := by
  cases h with
  | dns name =>
    rw [text_dns hh]
    exact hh.2.2.2.1
  | ip bytes =>
    intro hmem
    have := mem_text_ip hmem
    revert this
    decide

end Host

end Espos.Sk.Tls
