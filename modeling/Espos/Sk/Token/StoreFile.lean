import Espos.Lib.Nvs
import Espos.Sk.Token.Machine

-- The pairing in NVS, as `sk_store.c` saves and loads it.

namespace Espos.Sk.Token

open Espos.Text
open Espos.Nvs (Write Value after getStr getU16 getU32)

-- The keys `token`, `tok_self`, `tok_host`, `tok_port`, `tok_sum`, `pend_href`,
-- `pend_host`, `pend_self` and `pend_port`.
inductive StoreKey where
  | token
  | tokenSelf
  | tokenHost
  | tokenPort
  | tokenSum
  | pendingHref
  | pendingHost
  | pendingSelf
  | pendingPort
deriving DecidableEq

-- The order they are written in.
def StoreKey.all : List StoreKey :=
  [.token, .tokenSelf, .tokenHost, .tokenPort, .tokenSum,
    .pendingHref, .pendingHost, .pendingSelf, .pendingPort]

abbrev PairingNvs := Espos.Nvs.Store StoreKey Value

-- `token_sum`, an FNV-1a
def tokenSum (tok : CStr) : UInt32 :=
  tok.foldl (fun h c => (h ^^^ (UInt8.ofNat c.toNat).toUInt32) * 16777619) 2166136261

namespace Store

-- `set_or_erase`
def setOrErase {size : Nat} (text : Buf size) : Option Value :=
  if text.isEmpty then none else some (.str text.chars)

-- What `espos_sk_store_save` has for a key.
def value (s : Store) : StoreKey → Option Value
  | .token => setOrErase s.token
  | .tokenSelf => setOrErase s.tokenSelf
  | .tokenHost => setOrErase s.tokenHost
  | .tokenPort => some (.u16 s.tokenPort)
  | .tokenSum => some (.u32 (tokenSum s.token.chars))
  | .pendingHref => setOrErase s.pendingHref
  | .pendingHost => setOrErase s.pendingHost
  | .pendingSelf => setOrErase s.pendingSelf
  | .pendingPort => some (.u16 s.pendingPort)

-- `espos_sk_store_save`
def save (s : Store) : List (Write StoreKey Value) :=
  StoreKey.all.map fun k => ⟨k, s.value k⟩

-- `espos_sk_store_load`, less the client id.
def load (st : PairingNvs) : Store :=
  let token := getStr st .token 1024
  let known := !token.isEmpty && getU32 st .tokenSum == some (tokenSum token.chars)
  { token := token
    tokenSelf := getStr st .tokenSelf 128
    tokenHost := if known then getStr st .tokenHost 64 else .empty
    tokenPort := if known then (getU16 st .tokenPort).getD 0 else 0
    pendingHref := getStr st .pendingHref 128
    pendingHost := getStr st .pendingHost 64
    pendingPort := (getU16 st .pendingPort).getD 0
    pendingSelf := getStr st .pendingSelf 128 }

def NoAddress (s : Store) : Prop :=
  s.tokenHost.isEmpty = true ∧ s.tokenPort = 0

-- What the loaded token may come with.
def TokenOk (A B s : Store) : Prop :=
  (s.token, s.tokenSelf, s.tokenHost, s.tokenPort) =
      (A.token, A.tokenSelf, A.tokenHost, A.tokenPort) ∨
    (s.token, s.tokenSelf, s.tokenHost, s.tokenPort) =
      (B.token, B.tokenSelf, B.tokenHost, B.tokenPort) ∨
    ((s.token = A.token ∨ s.token = B.token) ∧ s.tokenSelf.isEmpty = true ∧ s.NoAddress)

def PendingOk (A B s : Store) : Prop :=
  (s.pendingHref, s.pendingHost, s.pendingPort, s.pendingSelf) =
      (A.pendingHref, A.pendingHost, A.pendingPort, A.pendingSelf) ∨
    (s.pendingHref, s.pendingHost, s.pendingPort, s.pendingSelf) =
      (B.pendingHref, B.pendingHost, B.pendingPort, B.pendingSelf) ∨
    s.pendingHref.isEmpty = true

-- `A` is saved, and the save of `B` is cut between two of its nine writes.
def cutLoad (st : PairingNvs) (A B : Store) (n : Nat) : Store :=
  load (after (after st A.save) (B.save.take n))

def CrashAtomic (A B : Store) : Prop :=
  ∀ st, (∀ n, 0 < n → n < 9 → TokenOk A B (cutLoad st A B n) ∧ PendingOk A B (cutLoad st A B n)) ∧
    load (after (after st A.save) B.save) = B

end Store

-- The place of a key in the order of the writes.
def StoreKey.index : StoreKey → Nat
  | .token => 0
  | .tokenSelf => 1
  | .tokenHost => 2
  | .tokenPort => 3
  | .tokenSum => 4
  | .pendingHref => 5
  | .pendingHost => 6
  | .pendingSelf => 7
  | .pendingPort => 8

theorem StoreKey.all_index (k : StoreKey) : StoreKey.all[k.index]? = some k := by
  cases k <;> rfl

namespace Store

variable {A B : Store} {st : PairingNvs}

theorem after_save_take (s : Store) (n : Nat) (k : StoreKey) :
    after st (s.save.take n) k = if k.index < n then s.value k else st k := by
  have hkeys : s.save.map Write.key = StoreKey.all := rfl
  have hnodup : (s.save.map Write.key).Nodup := by
    rw [hkeys]
    decide
  have hwrite : s.save[k.index]? = some ⟨k, s.value k⟩ := by
    rw [save, List.getElem?_map, StoreKey.all_index]
    rfl
  exact Espos.Nvs.after_take hnodup hwrite

theorem after_save (s : Store) (k : StoreKey) : after st s.save k = s.value k := by
  have htake : s.save.take 9 = s.save := rfl
  have hindex : k.index < 9 := by cases k <;> decide
  rw [← htake, after_save_take, if_pos hindex]

theorem after_cut (n : Nat) (k : StoreKey) :
    after (after st A.save) (B.save.take n) k = if k.index < n then B.value k else A.value k := by
  rw [after_save_take, after_save]

theorem getStr_setOrErase {size : Nat} {text : Buf size} {k : StoreKey} (hsize : 0 < size)
    (h : st k = setOrErase text) : getStr st k size = text := by
  by_cases hempty : text.isEmpty = true
  · rw [setOrErase, if_pos hempty] at h
    rw [Espos.Nvs.getStr_of_none h]
    ext1
    simpa [Buf.isEmpty, Buf.empty] using hempty
  · rw [setOrErase, if_neg hempty] at h
    exact Espos.Nvs.getStr_of_str hsize h

-- What is loaded behind `n` of the writes.
def torn (A B : Store) (n : Nat) : Store :=
  let token := if 0 < n then B.token else A.token
  let sum := tokenSum (if 4 < n then B.token.chars else A.token.chars)
  let known := !token.isEmpty && sum == tokenSum token.chars
  { token := token
    tokenSelf := if 1 < n then B.tokenSelf else A.tokenSelf
    tokenHost := if known then (if 2 < n then B.tokenHost else A.tokenHost) else .empty
    tokenPort := if known then (if 3 < n then B.tokenPort else A.tokenPort) else 0
    pendingHref := if 5 < n then B.pendingHref else A.pendingHref
    pendingHost := if 6 < n then B.pendingHost else A.pendingHost
    pendingPort := if 8 < n then B.pendingPort else A.pendingPort
    pendingSelf := if 7 < n then B.pendingSelf else A.pendingSelf }

theorem getStr_cut {size : Nat} (k : StoreKey) (f : Store → Buf size) (hsize : 0 < size)
    (hvalue : ∀ s : Store, s.value k = setOrErase (f s)) (n : Nat) :
    getStr (after (after st A.save) (B.save.take n)) k size =
      if k.index < n then f B else f A := by
  apply getStr_setOrErase hsize
  rw [after_cut, hvalue, hvalue]
  split <;> rfl

theorem getU16_cut (k : StoreKey) (f : Store → UInt16)
    (hvalue : ∀ s : Store, s.value k = some (.u16 (f s))) (n : Nat) :
    getU16 (after (after st A.save) (B.save.take n)) k =
      some (if k.index < n then f B else f A) := by
  apply Espos.Nvs.getU16_of_u16
  rw [after_cut, hvalue, hvalue]
  split <;> rfl

theorem getU32_cut (n : Nat) :
    getU32 (after (after st A.save) (B.save.take n)) .tokenSum =
      some (tokenSum (if 4 < n then B.token.chars else A.token.chars)) := by
  apply Espos.Nvs.getU32_of_u32
  rw [after_cut]
  by_cases h : 4 < n
  · rw [if_pos h]
    simp [StoreKey.index, value, h]
  · rw [if_neg h]
    simp [StoreKey.index, value, h]

theorem cutLoad_eq (st : PairingNvs) (A B : Store) (n : Nat) : cutLoad st A B n = torn A B n := by
  simp only [cutLoad, load, getU32_cut, getStr_cut .token token (by decide) fun _ => rfl,
    getStr_cut .tokenSelf tokenSelf (by decide) fun _ => rfl,
    getStr_cut .tokenHost tokenHost (by decide) fun _ => rfl,
    getStr_cut .pendingHref pendingHref (by decide) fun _ => rfl,
    getStr_cut .pendingHost pendingHost (by decide) fun _ => rfl,
    getStr_cut .pendingSelf pendingSelf (by decide) fun _ => rfl,
    getU16_cut .tokenPort tokenPort fun _ => rfl,
    getU16_cut .pendingPort pendingPort fun _ => rfl, Option.getD_some, Option.some_beq_some]
  rfl

-- The condition

-- At the cuts behind `token` and `tok_self`, and behind `tok_host`, the loaded
-- address and self belong together.
def TokenSafe (A B : Store) : Prop :=
  if B.token.isEmpty then
    A.tokenSelf.isEmpty = true ∨ A.tokenSelf = B.tokenSelf ∨ (A.token.isEmpty = true ∧ A.NoAddress)
  else if A.token = B.token then
    (A.tokenSelf = B.tokenSelf ∨ (A.tokenHost = B.tokenHost ∧ A.tokenPort = B.tokenPort) ∨
        (B.tokenSelf.isEmpty = true ∧ A.NoAddress)) ∧
      ((A.tokenSelf = B.tokenSelf ∧ A.tokenHost = B.tokenHost) ∨ A.tokenPort = B.tokenPort ∨
        (B.tokenSelf.isEmpty = true ∧ B.tokenHost.isEmpty = true ∧ A.tokenPort = 0))
  else
    (A.tokenSelf.isEmpty = true ∨ (A.tokenSelf = B.tokenSelf ∧ B.NoAddress)) ∧
      (B.tokenSelf.isEmpty = true ∨ B.NoAddress)

-- No request is pending, or no more than one of its parts is another one.
def PendingSafe (A B : Store) : Prop :=
  B.pendingHref.isEmpty = true ∨
    [decide (A.pendingHref ≠ B.pendingHref), decide (A.pendingHost ≠ B.pendingHost),
      decide (A.pendingSelf ≠ B.pendingSelf), decide (A.pendingPort ≠ B.pendingPort)].count true ≤ 1

-- No more than one of four parts changes: behind each of them either those
-- before or those after are the same.
theorem count_changes (p q r t : Prop) [Decidable p] [Decidable q] [Decidable r] [Decidable t] :
    [decide ¬p, decide ¬q, decide ¬r, decide ¬t].count true ≤ 1 ↔
      (p ∨ (q ∧ r ∧ t)) ∧ ((p ∧ q) ∨ (r ∧ t)) ∧ ((p ∧ q ∧ r) ∨ t) := by
  by_cases hp : p <;> by_cases hq : q <;> by_cases hr : r <;> by_cases ht : t <;>
    simp [hp, hq, hr, ht]

theorem pendingOk_iff (A B : Store) :
    (∀ n, 0 < n → n < 9 → PendingOk A B (torn A B n)) ↔ PendingSafe A B := by
  have h5 : ∀ n ≤ 5, PendingOk A B (torn A B n) := by
    intro n hn
    left
    simp only [torn, if_neg (show ¬ 5 < n by omega), if_neg (show ¬ 6 < n by omega),
      if_neg (show ¬ 7 < n by omega), if_neg (show ¬ 8 < n by omega)]
  have h6 : PendingOk A B (torn A B 6) ↔ B.pendingHref.isEmpty = true ∨ A.pendingHref = B.pendingHref ∨
      (A.pendingHost = B.pendingHost ∧ A.pendingSelf = B.pendingSelf ∧
        A.pendingPort = B.pendingPort) := by
    simp only [PendingOk, torn, Prod.mk.injEq]
    grind
  have h7 : PendingOk A B (torn A B 7) ↔ B.pendingHref.isEmpty = true ∨
      (A.pendingHref = B.pendingHref ∧ A.pendingHost = B.pendingHost) ∨
      (A.pendingSelf = B.pendingSelf ∧ A.pendingPort = B.pendingPort) := by
    simp only [PendingOk, torn, Prod.mk.injEq]
    grind
  have h8 : PendingOk A B (torn A B 8) ↔ B.pendingHref.isEmpty = true ∨
      (A.pendingHref = B.pendingHref ∧ A.pendingHost = B.pendingHost ∧
        A.pendingSelf = B.pendingSelf) ∨ A.pendingPort = B.pendingPort := by
    simp only [PendingOk, torn, Prod.mk.injEq]
    grind
  have hall : (∀ n, 0 < n → n < 9 → PendingOk A B (torn A B n)) ↔
      PendingOk A B (torn A B 6) ∧ PendingOk A B (torn A B 7) ∧ PendingOk A B (torn A B 8) := by
    constructor
    · intro h
      exact ⟨h 6 (by omega) (by omega), h 7 (by omega) (by omega), h 8 (by omega) (by omega)⟩
    · rintro ⟨hat6, hat7, hat8⟩ n _ hn
      by_cases hle : n ≤ 5
      · exact h5 n hle
      · obtain rfl | rfl | rfl : n = 6 ∨ n = 7 ∨ n = 8 := by omega
        · exact hat6
        · exact hat7
        · exact hat8
  rw [hall, h6, h7, h8, PendingSafe, count_changes]
  simp only [or_and_left]

section Tokens

variable (hsum : A.token ≠ B.token → tokenSum A.token.chars ≠ tokenSum B.token.chars) {n : Nat}

-- The address behind a cut is believed.
def known (A B : Store) (n : Nat) : Bool :=
  !B.token.isEmpty && (decide (A.token = B.token) || decide (4 < n))

include hsum

theorem known_iff (h : 0 < n) :
    (!(if 0 < n then B.token else A.token).isEmpty &&
      tokenSum (if 4 < n then B.token.chars else A.token.chars) ==
        tokenSum (if 0 < n then B.token else A.token).chars) = known A B n := by
  rw [if_pos h, known]
  congr 1
  by_cases h4 : 4 < n
  · simp [h4]
  · by_cases htok : A.token = B.token
    · simp [htok]
    · simp [h4, htok, hsum htok]

-- Without an address, the token stands alone or with its self.
theorem tokenOk_of_unknown (hpos : 0 < n) (hknown : known A B n = false) :
    TokenOk A B (torn A B n) ↔
      (A.token = B.token ∧ (torn A B n).tokenSelf = A.tokenSelf ∧ A.NoAddress) ∨
      ((torn A B n).tokenSelf = B.tokenSelf ∧ B.NoAddress) ∨
      (torn A B n).tokenSelf.isEmpty = true := by
  have htoken : (torn A B n).token = B.token := if_pos hpos
  have hhost : (torn A B n).tokenHost = .empty := by
    simp only [torn, known_iff hsum hpos, hknown, Bool.false_eq_true, if_false]
  have hport : (torn A B n).tokenPort = 0 := by
    simp only [torn, known_iff hsum hpos, hknown, Bool.false_eq_true, if_false]
  simp only [TokenOk, NoAddress, htoken, hhost, hport, Prod.mk.injEq, Buf.isEmpty_empty,
    Buf.isEmpty_iff, eq_comm (a := A.token), or_true, true_and, and_true]
  grind

theorem tokenOk_of_known (hpos : 0 < n) (hknown : known A B n = true) :
    TokenOk A B (torn A B n) ↔
      (A.token = B.token ∧ (torn A B n).tokenSelf = A.tokenSelf ∧
        (if 2 < n then B.tokenHost else A.tokenHost) = A.tokenHost ∧
        (if 3 < n then B.tokenPort else A.tokenPort) = A.tokenPort) ∨
      ((torn A B n).tokenSelf = B.tokenSelf ∧
        (if 2 < n then B.tokenHost else A.tokenHost) = B.tokenHost ∧
        (if 3 < n then B.tokenPort else A.tokenPort) = B.tokenPort) ∨
      ((torn A B n).tokenSelf.isEmpty = true ∧
        (if 2 < n then B.tokenHost else A.tokenHost).isEmpty = true ∧
        (if 3 < n then B.tokenPort else A.tokenPort) = 0) := by
  have htoken : (torn A B n).token = B.token := if_pos hpos
  have hhost : (torn A B n).tokenHost = if 2 < n then B.tokenHost else A.tokenHost := by
    simp only [torn, known_iff hsum hpos, hknown, if_true]
  have hport : (torn A B n).tokenPort = if 3 < n then B.tokenPort else A.tokenPort := by
    simp only [torn, known_iff hsum hpos, hknown, if_true]
  simp only [TokenOk, NoAddress, htoken, hhost, hport, Prod.mk.injEq, or_true, true_and]
  rw [eq_comm (a := B.token)]

-- The self is written second.
omit hsum in
theorem torn_self (A B : Store) (n : Nat) :
    (torn A B n).tokenSelf = if 1 < n then B.tokenSelf else A.tokenSelf := rfl

-- Behind `tok_port` all of the new token is there.
theorem tokenOk_of_written (h4 : 4 ≤ n) (hknown : known A B n = true) :
    TokenOk A B (torn A B n) := by
  rw [tokenOk_of_known hsum (by omega) hknown, torn_self, if_pos (by omega), if_pos (by omega),
    if_pos (by omega)]
  exact Or.inr (Or.inl ⟨rfl, rfl, rfl⟩)

-- No token is left, and none of the cuts shows an address.
theorem tokenOk_of_none (htidy : B.NoAddress) (hnone : B.token.isEmpty = true) :
    (∀ n, 0 < n → n < 9 → TokenOk A B (torn A B n)) ↔
      A.tokenSelf.isEmpty = true ∨ A.tokenSelf = B.tokenSelf ∨
        (A.token.isEmpty = true ∧ A.NoAddress) := by
  have hunknown : ∀ n, known A B n = false := by simp [known, hnone]
  have htoken : A.token = B.token ↔ A.token.isEmpty = true := by
    rw [Buf.isEmpty_iff] at hnone ⊢
    rw [hnone]
  constructor
  · intro h
    have h1 := (tokenOk_of_unknown hsum (by omega) (hunknown 1)).mp (h 1 (by omega) (by omega))
    rw [torn_self, if_neg (by omega), htoken] at h1
    grind
  · intro h n hpos _
    rw [tokenOk_of_unknown hsum hpos (hunknown n), torn_self, htoken]
    by_cases h1 : 1 < n
    · simp [h1, htidy]
    · rw [if_neg h1]
      grind

-- The address stays believed from one cut to the next.
theorem tokenOk_of_same (hsame : A.token = B.token) (hsome : B.token.isEmpty = false) :
    (∀ n, 0 < n → n < 9 → TokenOk A B (torn A B n)) ↔
      (A.tokenSelf = B.tokenSelf ∨ (A.tokenHost = B.tokenHost ∧ A.tokenPort = B.tokenPort) ∨
          (B.tokenSelf.isEmpty = true ∧ A.NoAddress)) ∧
        ((A.tokenSelf = B.tokenSelf ∧ A.tokenHost = B.tokenHost) ∨ A.tokenPort = B.tokenPort ∨
          (B.tokenSelf.isEmpty = true ∧ B.tokenHost.isEmpty = true ∧ A.tokenPort = 0)) := by
  have hknown : ∀ n, known A B n = true := by simp [known, hsame, hsome]
  have h1 : TokenOk A B (torn A B 1) := by
    rw [tokenOk_of_known hsum (by omega) (hknown 1)]
    exact Or.inl ⟨hsame, rfl, rfl, rfl⟩
  have h2 : TokenOk A B (torn A B 2) ↔ (A.tokenSelf = B.tokenSelf ∨
      (A.tokenHost = B.tokenHost ∧ A.tokenPort = B.tokenPort) ∨
      (B.tokenSelf.isEmpty = true ∧ A.NoAddress)) := by
    rw [tokenOk_of_known hsum (by omega) (hknown 2)]
    simp [torn_self, hsame, NoAddress, eq_comm (a := B.tokenSelf)]
  have h3 : TokenOk A B (torn A B 3) ↔ ((A.tokenSelf = B.tokenSelf ∧ A.tokenHost = B.tokenHost) ∨
      A.tokenPort = B.tokenPort ∨
      (B.tokenSelf.isEmpty = true ∧ B.tokenHost.isEmpty = true ∧ A.tokenPort = 0)) := by
    rw [tokenOk_of_known hsum (by omega) (hknown 3)]
    simp [torn_self, hsame, eq_comm (a := B.tokenSelf), eq_comm (a := B.tokenHost)]
  rw [← h2, ← h3]
  constructor
  · intro h
    exact ⟨h 2 (by omega) (by omega), h 3 (by omega) (by omega)⟩
  · rintro ⟨hat2, hat3⟩ n hpos _
    by_cases h4 : 4 ≤ n
    · exact tokenOk_of_written hsum h4 (hknown n)
    · obtain rfl | rfl | rfl : n = 1 ∨ n = 2 ∨ n = 3 := by omega
      · exact h1
      · exact hat2
      · exact hat3

-- The sum disowns the old address before the new one is there.
theorem tokenOk_of_other (hother : A.token ≠ B.token) (hsome : B.token.isEmpty = false) :
    (∀ n, 0 < n → n < 9 → TokenOk A B (torn A B n)) ↔
      (A.tokenSelf.isEmpty = true ∨ (A.tokenSelf = B.tokenSelf ∧ B.NoAddress)) ∧
        (B.tokenSelf.isEmpty = true ∨ B.NoAddress) := by
  have hunknown : ∀ n ≤ 4, known A B n = false := by
    intro n hn
    simp only [known, hother, decide_false, Bool.false_or, Bool.and_eq_false_iff,
      decide_eq_false_iff_not]
    exact Or.inr (by omega)
  have h1 : TokenOk A B (torn A B 1) ↔
      A.tokenSelf.isEmpty = true ∨ (A.tokenSelf = B.tokenSelf ∧ B.NoAddress) := by
    rw [tokenOk_of_unknown hsum (by omega) (hunknown 1 (by omega)), torn_self,
      if_neg (by omega), or_comm (a := A.tokenSelf.isEmpty = true)]
    simp only [hother, false_and, false_or]
  have h24 : ∀ n, 1 < n → n ≤ 4 →
      (TokenOk A B (torn A B n) ↔ B.tokenSelf.isEmpty = true ∨ B.NoAddress) := by
    intro n h1 h4
    rw [tokenOk_of_unknown hsum (by omega) (hunknown n h4), torn_self, if_pos h1,
      or_comm (a := B.tokenSelf.isEmpty = true)]
    simp only [hother, false_and, false_or, true_and]
  constructor
  · intro h
    exact ⟨h1.mp (h 1 (by omega) (by omega)),
      (h24 2 (by omega) (by omega)).mp (h 2 (by omega) (by omega))⟩
  · rintro ⟨hold, hnew⟩ n hpos _
    by_cases h4 : n ≤ 4
    · by_cases hone : n = 1
      · subst hone
        exact h1.mpr hold
      · exact (h24 n (by omega) h4).mpr hnew
    · apply tokenOk_of_written hsum (by omega)
      simp [known, hsome]
      omega

theorem tokenOk_iff (htidy : B.token.isEmpty = true → B.NoAddress) :
    (∀ n, 0 < n → n < 9 → TokenOk A B (torn A B n)) ↔ TokenSafe A B := by
  rw [TokenSafe]
  by_cases hnone : B.token.isEmpty = true
  · rw [if_pos hnone]
    exact tokenOk_of_none hsum (htidy hnone) hnone
  · rw [if_neg hnone]
    have hsome : B.token.isEmpty = false := by simpa using hnone
    split
    · exact tokenOk_of_same hsum ‹_› hsome
    · exact tokenOk_of_other hsum ‹_› hsome

end Tokens

-- Without a cut, an address is only lost where there is no token.
theorem load_save_iff (st : PairingNvs) (A B : Store) :
    load (after (after st A.save) B.save) = B ↔ (B.token.isEmpty = true → B.NoAddress) := by
  have hload : load (after (after st A.save) B.save) = torn A B 9 := cutLoad_eq st A B 9
  rw [hload]
  by_cases hnone : B.token.isEmpty = true
  · have htorn : torn A B 9 = { B with tokenHost := .empty, tokenPort := 0 } := by
      simp [torn, hnone]
    rw [htorn]
    constructor
    · intro h _
      exact ⟨Buf.isEmpty_iff.mpr (congrArg tokenHost h).symm, (congrArg tokenPort h).symm⟩
    · intro h
      obtain ⟨hhost, hport⟩ := h hnone
      rw [← Buf.isEmpty_iff.mp hhost, ← hport]
  · have htorn : torn A B 9 = B := by
      simp [torn, hnone]
    simp [htorn, hnone]

end Store

-- The pairing is saved as one exactly where no cut shows a self or an address
-- that is not the token's, and no cut a request that is half of another one.
theorem save_atomic_iff (A B : Store)
    (hsum : A.token ≠ B.token → tokenSum A.token.chars ≠ tokenSum B.token.chars) :
    A.CrashAtomic B ↔
      A.TokenSafe B ∧ A.PendingSafe B ∧ (B.token.isEmpty = true → B.NoAddress) := by
  simp only [Store.CrashAtomic, Store.cutLoad_eq, Store.load_save_iff]
  constructor
  · intro h
    obtain ⟨hcuts, htidy⟩ := h fun _ => none
    have htokens := fun n hpos hn => (hcuts n hpos hn).1
    have hpending := fun n hpos hn => (hcuts n hpos hn).2
    exact ⟨(Store.tokenOk_iff hsum htidy).mp htokens, (Store.pendingOk_iff A B).mp hpending, htidy⟩
  · rintro ⟨htokens, hpending, htidy⟩ _
    refine ⟨?_, htidy⟩
    intro n hpos hn
    exact ⟨(Store.tokenOk_iff hsum htidy).mpr htokens n hpos hn,
      (Store.pendingOk_iff A B).mpr hpending n hpos hn⟩

-- A pairing with the boat, and one with the marina that takes its place.
def boatPairing : Store :=
  { Store.blank with
    token := .print (lit "boat-token")
    tokenSelf := .print (lit "urn:mrn:signalk:uuid:boat")
    tokenHost := .print (lit "10.0.0.1")
    tokenPort := 3000 }

def marinaPairing : Store :=
  { Store.blank with
    token := .print (lit "marina-token")
    tokenSelf := .print (lit "urn:mrn:signalk:uuid:marina")
    tokenHost := .print (lit "192.168.1.1")
    tokenPort := 3000 }

-- The power fails behind `token`: the marina's token is kept for the boat.
theorem new_token_for_old_self :
    tokenSum boatPairing.token.chars ≠ tokenSum marinaPairing.token.chars ∧
      ¬ boatPairing.CrashAtomic marinaPairing := by
  refine ⟨by decide +kernel, ?_⟩
  intro h
  have hcut := ((h fun _ => none).1 1 (by omega) (by omega)).1
  rw [Store.cutLoad_eq, Store.TokenOk, Store.NoAddress] at hcut
  revert hcut
  decide +kernel

-- The boat's server has moved to another address, and only that is saved.
def movedPairing : Store :=
  { boatPairing with tokenHost := .print (lit "10.0.0.2") }

-- Two tokens of a server that has not told its self URN.
def unnamedPairing (token : CStr) : Store :=
  { Store.blank with
    token := .print token
    tokenHost := .print (lit "10.0.0.1")
    tokenPort := 3000 }

theorem save_atomic_iff_moved :
    boatPairing.CrashAtomic movedPairing ∧
      (unnamedPairing (lit "first")).token ≠ (unnamedPairing (lit "second")).token ∧
      (unnamedPairing (lit "first")).CrashAtomic (unnamedPairing (lit "second")) := by
  refine ⟨?_, by decide +kernel, ?_⟩
  · have hsame : boatPairing.token = movedPairing.token := rfl
    refine (save_atomic_iff boatPairing movedPairing fun h => absurd hsame h).mpr ⟨?_, ?_, ?_⟩
    · rw [Store.TokenSafe, if_neg (by decide +kernel), if_pos hsame]
      exact ⟨Or.inl rfl, Or.inr (Or.inl rfl)⟩
    · rw [Store.PendingSafe]
      decide +kernel
    · rw [Store.NoAddress]
      decide +kernel
  · have hsum : tokenSum (unnamedPairing (lit "first")).token.chars ≠
        tokenSum (unnamedPairing (lit "second")).token.chars := by
      decide +kernel
    refine (save_atomic_iff _ _ fun _ => hsum).mpr ⟨?_, ?_, ?_⟩
    · rw [Store.TokenSafe, if_neg (by decide +kernel), if_neg (by decide +kernel)]
      exact ⟨Or.inl rfl, Or.inl rfl⟩
    · rw [Store.PendingSafe]
      decide +kernel
    · rw [Store.NoAddress]
      decide +kernel

end Espos.Sk.Token
