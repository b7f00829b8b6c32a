import Espos.Ble.InitWrites

-- UUID texts read and written, with the width they are written in.

namespace Espos.Ble

open Espos.Text

-- `espos_ble_uuid_parse` with what it leaves in `out_bits`.
def uuidParseBits (str : Option CStr) : Option (Uuid × Nat) :=
  match str with
  | none => none
  | some str =>
    if str.length = 4 ∨ str.length = 8 then do
      let bytes ← hexBytes str
      let bits := if str.length = 4 then 16 else 32
      return (kBaseUuid.take (4 - bytes.length) ++ bytes ++ kBaseUuid.drop 4, bits)
    else if str.length = 36 ∧ [8, 13, 18, 23].all fun i => str[i]? == some '-' then
      (dashedBytes str 16).map (·, 128)
    else none

-- What a text is to look like.

def isHexDigit (c : Char) : Prop :=
  '0' ≤ c ∧ c ≤ '9' ∨ 'a' ≤ c ∧ c ≤ 'f' ∨ 'A' ≤ c ∧ c ≤ 'F'

structure Hex (n : Nat) (text : CStr) : Prop where
  length_eq : text.length = n
  digits : ∀ c ∈ text, isHexDigit c

def dashed (a b c d e : CStr) : CStr :=
  a ++ '-' :: (b ++ '-' :: (c ++ '-' :: (d ++ '-' :: e)))

def UuidText (text : CStr) : Prop :=
  Hex 4 text ∨ Hex 8 text ∨
    ∃ a b c d e, Hex 8 a ∧ Hex 4 b ∧ Hex 4 c ∧ Hex 4 d ∧ Hex 12 e ∧ text = dashed a b c d e

theorem uuidParse_eq (str : CStr) :
    uuidParse str = (uuidParseBits (some str)).map Prod.fst := by
  unfold uuidParse uuidParseBits
  by_cases hshort : str.length = 4 ∨ str.length = 8
  · simp only [if_pos hshort]
    cases hexBytes str with
    | none => rfl
    | some bytes => rfl
  · simp only [if_neg hshort]
    by_cases hdashes : str.length = 36 ∧ [8, 13, 18, 23].all fun i => str[i]? == some '-'
    · rw [if_pos hdashes, if_pos hdashes, Option.map_map]
      exact Option.map_id'.symm
    · rw [if_neg hdashes, if_neg hdashes]
      rfl

instance (c : Char) : Decidable (isHexDigit c) :=
  inferInstanceAs (Decidable (_ ∨ _))

theorem hexVal_iff (c : Char) : (hexVal c).isSome = true ↔ isHexDigit c := by
  unfold hexVal isHexDigit
  by_cases hdigit : '0' ≤ c ∧ c ≤ '9'
  · rw [if_pos hdigit]
    exact iff_of_true rfl (Or.inl hdigit)
  · rw [if_neg hdigit, or_iff_right hdigit]
    by_cases hlower : 'a' ≤ c ∧ c ≤ 'f'
    · rw [if_pos hlower]
      exact iff_of_true rfl (Or.inl hlower)
    · rw [if_neg hlower, or_iff_right hlower]
      by_cases hupper : 'A' ≤ c ∧ c ≤ 'F'
      · rw [if_pos hupper]
        exact iff_of_true rfl hupper
      · rw [if_neg hupper]
        exact iff_of_false Bool.false_ne_true hupper

theorem hexByte_iff (hi lo : Char) :
    (Ble.hexByte hi lo).isSome = true ↔ isHexDigit hi ∧ isHexDigit lo := by
  rw [← hexVal_iff, ← hexVal_iff]
  unfold Ble.hexByte
  cases hexVal hi with
  | none => simp
  | some v =>
    cases hexVal lo with
    | none => simp
    | some w => simp

theorem not_dash_of_hex {c : Char} (h : isHexDigit c) : c ≠ '-' := by
  intro hdash
  subst hdash
  exact absurd h (by decide)

theorem hexByte_digitChar (b : UInt8) :
    Ble.hexByte (Nat.digitChar (b.toNat / 16)) (Nat.digitChar (b.toNat % 16)) = some b := by
  have hdigit : ∀ d < 16, hexVal (Nat.digitChar d) = some d := by decide
  have hlt := b.toNat_lt
  unfold Ble.hexByte
  rw [hdigit _ (by omega), hdigit _ (by omega)]
  dsimp only
  rw [Nat.div_add_mod', UInt8.ofNat_toNat]

theorem dashedBytes_pair {hi : Char} (h : hi ≠ '-') (lo : Char) (rest : CStr) (missing : Nat) :
    dashedBytes (hi :: lo :: rest) (missing + 1) =
      (Ble.hexByte hi lo).bind fun byte => (dashedBytes rest missing).map (byte :: ·) := by
  rw [dashedBytes.eq_3 hi lo rest missing h]
  cases Ble.hexByte hi lo with
  | none => rfl
  | some byte => cases dashedBytes rest missing with
    | none => rfl
    | some bytes => rfl

-- Two digits a byte.
inductive Pairs : CStr → List UInt8 → Prop
  | nil : Pairs [] []
  | cons {hi lo b text bytes} (h : Ble.hexByte hi lo = some b) (more : Pairs text bytes) :
      Pairs (hi :: lo :: text) (b :: bytes)

namespace Pairs

variable {text : CStr} {bytes : List UInt8}

theorem length_eq (h : Pairs text bytes) : text.length = 2 * bytes.length := by
  induction h with
  | nil => rfl
  | cons _ _ ih =>
    simp only [List.length_cons]
    omega

theorem hexBytes_eq (h : Pairs text bytes) : hexBytes text = some bytes := by
  induction h with
  | nil => rfl
  | cons hb _ ih => simp only [hexBytes, hb, ih, Option.bind_eq_bind, Option.bind_some,
      Option.pure_def]

theorem digits (h : Pairs text bytes) : ∀ c ∈ text, isHexDigit c := by
  induction h with
  | nil => simp
  | @cons hi lo b text bytes hb _ ih =>
    obtain ⟨hhi, hlo⟩ := (hexByte_iff hi lo).1 (by rw [hb]; rfl)
    intro c hc
    simp only [List.mem_cons] at hc
    rcases hc with rfl | rfl | hc
    · exact hhi
    · exact hlo
    · exact ih c hc

theorem hex {n : Nat} (h : Pairs text bytes) (hlen : bytes.length = n) : Hex (2 * n) text :=
  ⟨hlen ▸ h.length_eq, h.digits⟩

theorem dashedBytes_append (h : Pairs text bytes) (rest : CStr) (m : Nat) :
    dashedBytes (text ++ rest) (bytes.length + m) = (dashedBytes rest m).map (bytes ++ ·) := by
  induction h with
  | nil =>
    rw [List.nil_append, List.length_nil, Nat.zero_add]
    exact Option.map_id'.symm
  | @cons hi lo b text bytes hb _ ih =>
    obtain ⟨hhi, -⟩ := (hexByte_iff hi lo).1 (by rw [hb]; rfl)
    rw [List.length_cons, Nat.add_right_comm, List.cons_append, List.cons_append,
      dashedBytes_pair (not_dash_of_hex hhi), hb, ih]
    cases dashedBytes rest m with
    | none => rfl
    | some more => rfl

theorem of_hexLower (bytes : List UInt8) : Pairs (hexLower bytes) bytes := by
  induction bytes with
  | nil => exact nil
  | cons b bytes ih =>
    exact cons (hexByte_digitChar b) ih

theorem of_hex {n : Nat} : ∀ {text : CStr}, Hex (2 * n) text →
    ∃ bytes, Pairs text bytes ∧ bytes.length = n := by
  induction n with
  | zero =>
    intro text h
    rw [List.eq_nil_of_length_eq_zero h.length_eq]
    exact ⟨[], nil, rfl⟩
  | succ n ih =>
    intro text h
    obtain ⟨hlen, hdigits⟩ := h
    cases text with
    | nil => rw [List.length_nil] at hlen; omega
    | cons hi text =>
      cases text with
      | nil => rw [List.length_singleton] at hlen; omega
      | cons lo text =>
        simp only [List.length_cons, List.mem_cons, forall_eq_or_imp] at hlen hdigits
        obtain ⟨hhi, hlo, hdigits⟩ := hdigits
        obtain ⟨bytes, hbytes, hn⟩ := ih ⟨by omega, hdigits⟩
        obtain ⟨b, hb⟩ := Option.isSome_iff_exists.1 ((hexByte_iff hi lo).2 ⟨hhi, hlo⟩)
        exact ⟨b :: bytes, cons hb hbytes, by rw [List.length_cons, hn]⟩

theorem of_hexBytes {n : Nat} :
    ∀ {text bytes}, text.length = 2 * n → hexBytes text = some bytes → Pairs text bytes := by
  induction n with
  | zero =>
    intro text bytes hlen h
    rw [List.eq_nil_of_length_eq_zero hlen] at h ⊢
    obtain rfl := Option.some.inj h
    exact nil
  | succ n ih =>
    intro text bytes hlen h
    cases text with
    | nil => rw [List.length_nil] at hlen; omega
    | cons hi text =>
      cases text with
      | nil => rw [List.length_singleton] at hlen; omega
      | cons lo text =>
        simp only [List.length_cons] at hlen
        obtain ⟨b, hb, hrest⟩ := Option.bind_eq_some_iff.1 h
        obtain ⟨more, hmore, hbytes⟩ := Option.bind_eq_some_iff.1 hrest
        obtain rfl := Option.some.inj hbytes
        exact cons hb (ih (by omega) hmore)

end Pairs

-- There is room for two characters a byte beside the dashes. Where there is no more, all that
-- are no dashes are digits.
theorem dashedBytes_room {bytes : List UInt8} {m : Nat} {text : CStr}
    (h : dashedBytes text m = some bytes) :
    2 * m + text.count '-' ≤ text.length ∧
      (2 * m + text.count '-' = text.length → ∀ c ∈ text, c ≠ '-' → isHexDigit c) := by
  induction text, m using dashedBytes.induct generalizing bytes with
  | case1 text =>
    rw [Nat.mul_zero, Nat.zero_add]
    refine ⟨List.count_le_length, fun hall c hc hne => ?_⟩
    exact absurd (List.count_eq_length.1 hall c hc).symm hne
  | case2 rest missing ih =>
    rw [dashedBytes.eq_2] at h
    obtain ⟨hroom, hfull⟩ := ih h
    rw [List.count_cons_self, List.length_cons]
    refine ⟨by omega, fun hlen c hc hne => ?_⟩
    cases List.mem_cons.1 hc with
    | inl hdash => exact absurd hdash hne
    | inr hc => exact hfull (by omega) c hc hne
  | case3 hi lo rest missing hdash ih =>
    rw [dashedBytes_pair hdash] at h
    obtain ⟨byte, hbyte, hrest⟩ := Option.bind_eq_some_iff.1 h
    obtain ⟨more, hmore, -⟩ := Option.map_eq_some_iff.1 hrest
    obtain ⟨hhi, hlo⟩ := (hexByte_iff hi lo).1 (by rw [hbyte]; rfl)
    obtain ⟨hroom, hfull⟩ := ih hmore
    rw [List.count_cons_of_ne (not_dash_of_hex hhi), List.count_cons_of_ne (not_dash_of_hex hlo),
      List.length_cons, List.length_cons]
    refine ⟨by omega, fun hlen c hc hne => ?_⟩
    simp only [List.mem_cons] at hc
    rcases hc with rfl | rfl | hc
    · exact hhi
    · exact hlo
    · exact hfull (by omega) c hc hne
  | case4 text missing hdash hpair =>
    rw [dashedBytes.eq_4 text missing hdash hpair] at h
    exact absurd h (Option.some_ne_none _).symm

-- A dashed text and its value.
inductive Dashed : CStr → Uuid → Prop
  | mk {a b c d e as bs cs ds es} (ha : Pairs a as) (hb : Pairs b bs) (hc : Pairs c cs)
      (hd : Pairs d ds) (he : Pairs e es) (la : as.length = 4) (lb : bs.length = 2)
      (lc : cs.length = 2) (ld : ds.length = 2) (le : es.length = 6) :
      Dashed (dashed a b c d e) (as ++ (bs ++ (cs ++ (ds ++ es))))

-- A text that is accepted, its value and its width.
inductive Reads : CStr → Uuid × Nat → Prop
  | short {text bytes} (h : Pairs text bytes) (hlen : bytes.length = 2 ∨ bytes.length = 4) :
      Reads text
        (kBaseUuid.take (4 - bytes.length) ++ bytes ++ kBaseUuid.drop 4, 8 * bytes.length)
  | dashed {text uuid} (h : Dashed text uuid) : Reads text (uuid, 128)

section Parse

variable {text group : CStr} {uuid : Uuid} {r : Uuid × Nat}

theorem dashedBytes_dash (rest : CStr) (m : Nat) :
    dashedBytes ('-' :: rest) (m + 1) = dashedBytes rest (m + 1) := rfl

theorem Dashed.parse (h : Dashed text uuid) : uuidParseBits (some text) = some (uuid, 128) := by
  cases h with
  | @mk a b c d e as bs cs ds es ha hb hc hd he la lb lc ld le =>
    have hla := ha.length_eq
    have hlb := hb.length_eq
    have hlc := hc.length_eq
    have hld := hd.length_eq
    have hle := he.length_eq
    have hread : dashedBytes (dashed a b c d e) 16 = some (as ++ (bs ++ (cs ++ (ds ++ es)))) := by
      have h₁ := ha.dashedBytes_append ('-' :: (b ++ '-' :: (c ++ '-' :: (d ++ '-' :: e)))) 12
      have h₂ := hb.dashedBytes_append ('-' :: (c ++ '-' :: (d ++ '-' :: e))) 10
      have h₃ := hc.dashedBytes_append ('-' :: (d ++ '-' :: e)) 8
      have h₄ := hd.dashedBytes_append ('-' :: e) 6
      have h₅ := he.dashedBytes_append [] 0
      rw [la] at h₁
      rw [lb] at h₂
      rw [lc] at h₃
      rw [ld] at h₄
      rw [le, List.append_nil] at h₅
      rw [dashed, h₁, dashedBytes_dash, h₂, dashedBytes_dash, h₃, dashedBytes_dash, h₄,
        dashedBytes_dash, h₅]
      simp [dashedBytes]
    have hdashes : [8, 13, 18, 23].all (fun i => (dashed a b c d e)[i]? == some '-') = true := by
      simp [dashed, List.getElem?_append, hla, hlb, hlc, hld, la, lb, lc, ld]
    have hall : (dashed a b c d e).length = 36 := by
      simp only [dashed, List.length_append, List.length_cons]
      omega
    unfold uuidParseBits
    dsimp only
    rw [if_neg (by omega), if_pos ⟨hall, hdashes⟩, hread]
    rfl

theorem split_at (text : CStr) (i : Nat) {c : Char} (h : text[i]? = some c) :
    text = text.take i ++ c :: text.drop (i + 1) := by
  obtain ⟨hi, hc⟩ := List.getElem?_eq_some_iff.1 h
  rw [← hc, ← List.drop_eq_getElem_cons hi, List.take_append_drop]

theorem dashed_of_dashes (h : ∀ i ∈ [8, 13, 18, 23], text[i]? = some '-') :
    text = dashed (text.take 8) ((text.drop 9).take 4) ((text.drop 14).take 4)
      ((text.drop 19).take 4) (text.drop 24) := by
  have h₁ := split_at text 8 (h 8 (by decide))
  have h₂ := split_at (text.drop 9) 4 (by rw [List.getElem?_drop]; exact h 13 (by decide))
  have h₃ := split_at (text.drop 14) 4 (by rw [List.getElem?_drop]; exact h 18 (by decide))
  have h₄ := split_at (text.drop 19) 4 (by rw [List.getElem?_drop]; exact h 23 (by decide))
  rw [List.drop_drop] at h₂ h₃ h₄
  rw [dashed, ← h₄, ← h₃, ← h₂, ← h₁]

theorem Pairs.of_group {n : Nat} (hdigits : ∀ c ∈ text, c ≠ '-' → isHexDigit c)
    (hmem : ∀ c ∈ group, c ∈ text) (hcount : group.count '-' = 0)
    (hlen : group.length = 2 * n) : ∃ bytes, Pairs group bytes ∧ bytes.length = n := by
  refine Pairs.of_hex ⟨hlen, fun c hc => hdigits c (hmem c hc) ?_⟩
  intro hdash
  subst hdash
  exact List.count_eq_zero.1 hcount hc

-- Sixteen bytes and four dashes leave no room for another dash.
theorem Dashed.of_parse {bytes : List UInt8} (hlen : text.length = 36)
    (hdashes : ∀ i ∈ [8, 13, 18, 23], text[i]? = some '-')
    (h : dashedBytes text 16 = some bytes) : ∃ uuid, Dashed text uuid := by
  obtain ⟨hroom, hfull⟩ := dashedBytes_room h
  obtain ⟨a, b, c, d, e, rfl, la, lb, lc, ld, le⟩ : ∃ a b c d e, text = dashed a b c d e ∧
      a.length = 2 * 4 ∧ b.length = 2 * 2 ∧ c.length = 2 * 2 ∧ d.length = 2 * 2 ∧
        e.length = 2 * 6 := by
    refine ⟨_, _, _, _, _, dashed_of_dashes hdashes, ?_, ?_, ?_, ?_, ?_⟩
    all_goals
      simp only [List.length_take, List.length_drop]
      omega
  have hcount : (dashed a b c d e).count '-' =
      a.count '-' + (b.count '-' + (c.count '-' + (d.count '-' + (e.count '-' + 4)))) := by
    simp only [dashed, List.count_append, List.count_cons_self]
    omega
  have hdigits := hfull (by omega)
  obtain ⟨as, ha, hna⟩ := Pairs.of_group hdigits (by simp +contextual [dashed]) (by omega) la
  obtain ⟨bs, hb, hnb⟩ := Pairs.of_group hdigits (by simp +contextual [dashed]) (by omega) lb
  obtain ⟨cs, hc, hnc⟩ := Pairs.of_group hdigits (by simp +contextual [dashed]) (by omega) lc
  obtain ⟨ds, hd, hnd⟩ := Pairs.of_group hdigits (by simp +contextual [dashed]) (by omega) ld
  obtain ⟨es, he, hne⟩ := Pairs.of_group hdigits (by simp +contextual [dashed]) (by omega) le
  exact ⟨_, .mk ha hb hc hd he hna hnb hnc hnd hne⟩

theorem Reads.parse (h : Reads text r) : uuidParseBits (some text) = some r := by
  cases h with
  | short h hlen =>
    have htext := h.length_eq
    unfold uuidParseBits
    simp only [h.hexBytes_eq, Option.bind_eq_bind, Option.bind_some, Option.pure_def]
    rw [if_pos (by omega)]
    congr 2
    split_ifs
    all_goals omega
  | dashed h => exact h.parse

-- What is accepted can be read in one way only.
theorem Reads.of_reads {r' : Uuid × Nat} (h : uuidParseBits (some text) = some r)
    (h' : Reads text r') : Reads text r := by
  have hsame := h'.parse
  rw [h] at hsame
  rwa [Option.some.inj hsame]

theorem Reads.of_parse (h : uuidParseBits (some text) = some r) : Reads text r := by
  have hread := h
  unfold uuidParseBits at hread
  by_cases hshort : text.length = 4 ∨ text.length = 8
  · simp only [if_pos hshort] at hread
    obtain ⟨bytes, hbytes, -⟩ := Option.bind_eq_some_iff.1 hread
    have hpairs : Pairs text bytes := by
      cases hshort with
      | inl hlen => exact Pairs.of_hexBytes (n := 2) hlen hbytes
      | inr hlen => exact Pairs.of_hexBytes (n := 4) hlen hbytes
    have hlen := hpairs.length_eq
    exact Reads.of_reads h (.short hpairs (by omega))
  · simp only [if_neg hshort] at hread
    by_cases hdashes : text.length = 36 ∧ [8, 13, 18, 23].all fun i => text[i]? == some '-'
    · rw [if_pos hdashes] at hread
      obtain ⟨bytes, hbytes, -⟩ := Option.map_eq_some_iff.1 hread
      obtain ⟨uuid, huuid⟩ := Dashed.of_parse hdashes.1
        (fun i hi => beq_iff_eq.1 (List.all_eq_true.1 hdashes.2 i hi)) hbytes
      exact Reads.of_reads h (.dashed huuid)
    · rw [if_neg hdashes] at hread
      exact absurd hread (Option.some_ne_none _).symm

theorem uuidText_iff : UuidText text ↔ ∃ r, Reads text r := by
  constructor
  · intro h
    rcases h with h | h | ⟨a, b, c, d, e, ha, hb, hc, hd, he, rfl⟩
    · obtain ⟨bytes, hbytes, hlen⟩ := Pairs.of_hex (n := 2) h
      exact ⟨_, .short hbytes (Or.inl hlen)⟩
    · obtain ⟨bytes, hbytes, hlen⟩ := Pairs.of_hex (n := 4) h
      exact ⟨_, .short hbytes (Or.inr hlen)⟩
    · obtain ⟨as, ha, la⟩ := Pairs.of_hex (n := 4) ha
      obtain ⟨bs, hb, lb⟩ := Pairs.of_hex (n := 2) hb
      obtain ⟨cs, hc, lc⟩ := Pairs.of_hex (n := 2) hc
      obtain ⟨ds, hd, ld⟩ := Pairs.of_hex (n := 2) hd
      obtain ⟨es, he, le⟩ := Pairs.of_hex (n := 6) he
      exact ⟨_, .dashed (.mk ha hb hc hd he la lb lc ld le)⟩
  · rintro ⟨r, h⟩
    cases h with
    | short h hlen =>
      cases hlen with
      | inl hlen => exact Or.inl (h.hex hlen)
      | inr hlen => exact Or.inr (Or.inl (h.hex hlen))
    | dashed h =>
      cases h with
      | mk ha hb hc hd he la lb lc ld le =>
        exact Or.inr (Or.inr ⟨_, _, _, _, _, ha.hex la, hb.hex lb, hc.hex lc, hd.hex ld,
          he.hex le, rfl⟩)

theorem Reads.length_eq (h : Reads text r) : r.1.length = 16 := by
  cases h with
  | short h hlen =>
    simp only [List.length_append, List.length_take, List.length_drop, kBaseUuid,
      List.length_cons, List.length_nil]
    omega
  | dashed h =>
    cases h with
    | mk _ _ _ _ _ la lb lc ld le =>
      simp only [List.length_append]
      omega

def longText (bytes : Uuid) : CStr :=
  dashed (hexLower (bytes.take 4)) (hexLower ((bytes.drop 4).take 2))
    (hexLower ((bytes.drop 6).take 2)) (hexLower ((bytes.drop 8).take 2))
    (hexLower (bytes.drop 10))

theorem reads_longText {bytes : Uuid} (h : bytes.length = 16) :
    Reads (longText bytes) (bytes, 128) := by
  have hparts : bytes = bytes.take 4 ++ ((bytes.drop 4).take 2 ++ ((bytes.drop 6).take 2 ++
      ((bytes.drop 8).take 2 ++ bytes.drop 10))) := by
    have h₈ := List.take_append_drop 2 (bytes.drop 8)
    have h₆ := List.take_append_drop 2 (bytes.drop 6)
    have h₄ := List.take_append_drop 2 (bytes.drop 4)
    rw [List.drop_drop] at h₄ h₆ h₈
    rw [h₈, h₆, h₄, List.take_append_drop]
  have hdashed : Dashed (longText bytes) (bytes.take 4 ++ ((bytes.drop 4).take 2 ++
      ((bytes.drop 6).take 2 ++ ((bytes.drop 8).take 2 ++ bytes.drop 10)))) := by
    refine .mk (.of_hexLower _) (.of_hexLower _) (.of_hexLower _) (.of_hexLower _)
      (.of_hexLower _) ?_ ?_ ?_ ?_ ?_
    all_goals
      simp only [List.length_take, List.length_drop]
      omega
  rw [← hparts] at hdashed
  exact .dashed hdashed

theorem uuidFormat_of_base {bytes : Uuid} (h : bytes.drop 4 = kBaseUuid.drop 4) (bits : Nat) :
    uuidFormat bytes bits =
      if bits = 16 ∧ bytes.take 2 = [0, 0] then hexLower ((bytes.drop 2).take 2)
      else if bits = 32 then hexLower (bytes.take 4)
      else longText bytes := by
  simp [uuidFormat, h, longText, dashed]

theorem uuidFormat_of_not_base {bytes : Uuid} (h : bytes.drop 4 ≠ kBaseUuid.drop 4) (bits : Nat) :
    uuidFormat bytes bits = longText bytes := by
  simp [uuidFormat, h, longText, dashed]

theorem reads_hexLower {bytes : List UInt8} {n : Nat} (hlen : bytes.length = n)
    (hn : n = 2 ∨ n = 4) :
    Reads (hexLower bytes) (kBaseUuid.take (4 - n) ++ bytes ++ kBaseUuid.drop 4, 8 * n) := by
  subst hlen
  exact .short (.of_hexLower bytes) hn

-- What is written of sixteen bytes is read as these.
theorem reads_format {bytes : Uuid} (h : bytes.length = 16) (bits : Nat) :
    ∃ width, Reads (uuidFormat bytes bits) (bytes, width) := by
  by_cases hbase : bytes.drop 4 = kBaseUuid.drop 4
  · rw [uuidFormat_of_base hbase]
    by_cases hshort : bits = 16 ∧ bytes.take 2 = [0, 0]
    · rw [if_pos hshort]
      have hlen : ((bytes.drop 2).take 2).length = 2 := by
        rw [List.length_take, List.length_drop]
        omega
      have hread := reads_hexLower hlen (Or.inl rfl)
      have hparts : kBaseUuid.take 2 ++ (bytes.drop 2).take 2 ++ kBaseUuid.drop 4 = bytes := by
        have h₂ := List.take_append_drop 2 (bytes.drop 2)
        rw [List.drop_drop] at h₂
        have hzeros : kBaseUuid.take 2 = bytes.take 2 := hshort.2.symm
        rw [← hbase, List.append_assoc, h₂, hzeros, List.take_append_drop]
      rw [hparts] at hread
      exact ⟨16, hread⟩
    · rw [if_neg hshort]
      by_cases hlong : bits = 32
      · rw [if_pos hlong]
        have hlen : (bytes.take 4).length = 4 := by
          rw [List.length_take]
          omega
        have hread := reads_hexLower hlen (Or.inr rfl)
        have hparts : kBaseUuid.take 0 ++ bytes.take 4 ++ kBaseUuid.drop 4 = bytes := by
          rw [← hbase, List.take_zero, List.nil_append, List.take_append_drop]
        rw [hparts] at hread
        exact ⟨32, hread⟩
      · rw [if_neg hlong]
        exact ⟨128, reads_longText h⟩
  · rw [uuidFormat_of_not_base hbase]
    exact ⟨128, reads_longText h⟩

-- What was read in some width is written in that width.
theorem Reads.format (h : Reads text r) : Reads (uuidFormat r.1 r.2) r := by
  have hlen := h.length_eq
  cases h with
  | @short bytes h hn =>
    have hformat : uuidFormat (kBaseUuid.take (4 - bytes.length) ++ bytes ++ kBaseUuid.drop 4)
        (8 * bytes.length) = hexLower bytes := by
      cases hn with
      | inl hn =>
        obtain ⟨x, y, rfl⟩ := List.length_eq_two.1 hn
        rfl
      | inr hn =>
        rw [hn, Nat.sub_self, List.take_zero, List.nil_append,
          uuidFormat_of_base (List.drop_left' hn), if_neg (fun hbits => absurd hbits.1 (by decide)),
          if_pos rfl, List.take_left' hn]
    dsimp only
    rw [hformat]
    exact reads_hexLower rfl hn
  | @dashed uuid h =>
    have hlong : uuidFormat uuid 128 = longText uuid := by
      by_cases hbase : uuid.drop 4 = kBaseUuid.drop 4
      · rw [uuidFormat_of_base hbase]
        rfl
      · exact uuidFormat_of_not_base hbase 128
    rw [hlong]
    exact reads_longText hlen

-- UUID texts and values correspond: which texts have a value, that each value is written as one
-- of its texts, and that a text's value and width stay the same when it is written again.
theorem uuid_text_value :
    (∀ str, (∃ r, uuidParseBits (some str) = some r) ↔ UuidText str) ∧
      (∀ (uuid : Vector UInt8 16) (bits : Nat), ∃ width,
        uuidParseBits (some (uuidFormat uuid.toList bits)) = some (uuid.toList, width)) ∧
      ∀ str, ((uuidParseBits str).bind fun r => uuidParseBits (some (uuidFormat r.1 r.2))) =
        uuidParseBits str := by
  refine ⟨fun str => ?_, fun uuid bits => ?_, fun str => ?_⟩
  · rw [uuidText_iff]
    exact exists_congr fun r => ⟨Reads.of_parse, Reads.parse⟩
  · obtain ⟨width, hread⟩ := reads_format uuid.length_toList bits
    exact ⟨width, hread.parse⟩
  · cases hstr : uuidParseBits str with
    | none => rfl
    | some r =>
      cases str with
      | none => exact absurd hstr (Option.some_ne_none _).symm
      | some text => exact (Reads.of_parse hstr).format.parse

end Parse

end Espos.Ble
