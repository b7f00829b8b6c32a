import Espos.Httpd.AuthPolicy
import Mathlib.Tactic.SplitIfs

-- The session table beside the ids that were handed out.

namespace Espos.Httpd

open Espos.Clock Espos.Text

section Compare

theorem or_fold_eq_zero (f : Nat → UInt32) (l : List Nat) (diff : UInt32) :
    l.foldl (fun diff i => diff ||| f i) diff = 0 ↔ diff = 0 ∧ ∀ i ∈ l, f i = 0 := by
  induction l generalizing diff with
  | nil => simp
  | cons i l ih =>
    rw [List.foldl_cons, ih]
    simp only [UInt32.or_eq_zero_iff, List.forall_mem_cons, and_assoc]

theorem byteAt_of_lt {s : CStr} {len i : Nat} (hi : i < len) :
    byteAt s len i = (s[i]?.map Char.val).getD 0 :=
  if_pos hi

-- The comparison is equality of strings, where the width leaves room for a
-- byte more than the secret has.
theorem ctEqual_iff {a b : CStr} {width : Nat} (ha : a.length < width) (hwidth : width < 2 ^ 32) :
    ctEqual a a.length b (strnlen b width) width = true ↔ a = b := by
  have hroom : a.length < UInt32.size := by
    rw [UInt32.size]
    omega
  have hmin : strnlen b width < UInt32.size := by
    rw [strnlen, UInt32.size]
    omega
  have hlen : UInt32.ofNat (a.length ^^^ strnlen b width) = 0 ↔ a.length = strnlen b width := by
    rw [UInt32.ofNat_xor, UInt32.xor_eq_zero_iff, ← UInt32.toNat_inj,
      UInt32.toNat_ofNat_of_lt' hroom, UInt32.toNat_ofNat_of_lt' hmin]
  rw [ctEqual, decide_eq_true_eq, or_fold_eq_zero, hlen]
  constructor
  · rintro ⟨hsame, hbytes⟩
    have hb : b.length = a.length := by
      rw [strnlen] at hsame
      omega
    apply List.ext_getElem hb.symm
    intro i hia hib
    have hbyte := hbytes i (List.mem_range.mpr (by omega))
    rw [UInt32.xor_eq_zero_iff, byteAt_of_lt hia, byteAt_of_lt (by omega),
      List.getElem?_eq_getElem hia, List.getElem?_eq_getElem hib] at hbyte
    exact Char.ext hbyte
  · rintro rfl
    have hsame : strnlen a width = a.length := by
      rw [strnlen]
      omega
    simp [hsame]

end Compare

section Time

-- Two times of the run, and a deadline less than half a turn behind the first.
theorem reached_clock {a d t : Nat} (ha : a ≤ t) (ht : t < a + 2 ^ 31) (hd : d < 2 ^ 31) :
    reached (clock t) (clock (a + d)) ↔ a + d ≤ t := by
  rw [reached, ahead, toNat_sub_of]
  simp only [clock, UInt32.toNat_ofNat']
  split_ifs <;> omega

theorem clock_add (t : Nat) (d : UInt32) : clock t + d = clock (t + d.toNat) := by
  apply UInt32.toNat_inj.mp
  simp only [clock, UInt32.toNat_add, UInt32.toNat_ofNat']
  omega

end Time

section Table

variable {sessions : List Session} {id : CStr}

-- The slot is taken by the id.
def Holds (id : Buf (sidLen + 1)) (s : Session) : Prop :=
  s.used = true ∧ s.id = id

instance (id : Buf (sidLen + 1)) (s : Session) : Decidable (Holds id s) :=
  inferInstanceAs (Decidable (_ ∧ _))

def Matches (id : CStr) (s : Session) : Prop :=
  (s.used && ctEqual s.id.chars sidLen id (strnlen id (sidLen + 1)) (sidLen + 1)) = true

theorem matches_iff {s : Session} (hlen : s.used = true → s.id.chars.length = sidLen) :
    Matches id s ↔ s.used = true ∧ s.id.chars = id := by
  rw [Matches, Bool.and_eq_true]
  refine and_congr_right fun hused => ?_
  have hiff := @ctEqual_iff s.id.chars id (sidLen + 1) (by rw [hlen hused]; omega) (by decide)
  rwa [hlen hused] at hiff

theorem hitFrom_cases (hit : Option Nat) (k : Nat) (l : List Session) :
    Policy.hitFrom id hit k l = hit ∧ (∀ s ∈ l, ¬Matches id s) ∨
      ∃ j s, l[j]? = some s ∧ Matches id s ∧ Policy.hitFrom id hit k l = some (k + j) := by
  induction l generalizing hit k with
  | nil => exact .inl ⟨rfl, by simp⟩
  | cons s l ih =>
    rw [Policy.hitFrom]
    by_cases hmatch : Matches id s
    · rw [Matches] at hmatch
      simp only [hmatch, if_true]
      rcases ih (some k) (k + 1) with ⟨hkept, -⟩ | ⟨j, t, hj, ht, hfound⟩
      · exact .inr ⟨0, s, rfl, hmatch, hkept⟩
      · exact .inr ⟨j + 1, t, hj, ht, by rw [hfound, Nat.add_right_comm, Nat.add_assoc]⟩
    · have hoff := hmatch
      rw [Matches, Bool.not_eq_true] at hoff
      simp only [hoff, Bool.false_eq_true, if_false]
      rcases ih hit (k + 1) with ⟨hkept, hnone⟩ | ⟨j, t, hj, ht, hfound⟩
      · exact .inl ⟨hkept, by simpa [hmatch] using hnone⟩
      · exact .inr ⟨j + 1, t, hj, ht, by rw [hfound, Nat.add_right_comm, Nat.add_assoc]⟩

theorem pickSlot_lt {slot : Option (Nat × Session)} {k i : Nat} {l : List Session}
    (hslot : ∀ p, slot = some p → p.1 < k) (h : Policy.pickSlot slot k l = some i) :
    i < k + l.length := by
  induction l generalizing slot k with
  | nil =>
    rw [Policy.pickSlot, Option.map_eq_some_iff] at h
    obtain ⟨p, hp, rfl⟩ := h
    exact Nat.lt_add_right _ (hslot p hp)
  | cons s l ih =>
    have hhere : ∀ p, some (k, s) = some p → p.1 < k + 1 := by
      rintro p ⟨rfl⟩
      exact Nat.lt_succ_self k
    rw [List.length_cons]
    rw [Policy.pickSlot.eq_def] at h
    dsimp only at h
    split_ifs at h with hused
    · cases slot with
      | none =>
        have := ih hhere h
        omega
      | some p =>
        have hold : ∀ q, some p = some q → q.1 < k + 1 :=
          fun q hq => Nat.lt_succ_of_lt (hslot q hq)
        dsimp only at h
        split_ifs at h
        · have := ih hhere h
          omega
        · have := ih hold h
          omega
    · have := Option.some.inj h
      omega

theorem mem_modify {α : Type*} {f : α → α} {l : List α} {i : Nat} {a : α}
    (h : a ∈ l.modify i f) : a ∈ l ∨ ∃ b ∈ l, a = f b := by
  obtain ⟨j, hj⟩ := List.mem_iff_getElem?.mp h
  rw [List.getElem?_modify, Option.map_eq_map, Option.map_eq_some_iff] at hj
  obtain ⟨b, hb, rfl⟩ := hj
  have hmem := List.mem_of_getElem? hb
  split_ifs
  · exact .inr ⟨b, hmem, rfl⟩
  · exact .inl hmem

theorem countP_modify {α : Type*} {f : α → α} {p : α → Bool} (hf : ∀ a, p (f a) = p a)
    (l : List α) (i : Nat) : (l.modify i f).countP p = l.countP p := by
  induction l generalizing i with
  | nil => simp
  | cons a l ih => cases i <;> simp [List.countP_cons, hf, ih]

-- What the table holds has been handed out.
structure Backed (t₀ t : Nat) (openings : List Opening) (sessions : List Session) : Prop where
  backed : ∀ s ∈ sessions, s.used = true → ∃ o ∈ openings, o.id = s.id ∧
    t₀ ≤ o.openedAt ∧ o.openedAt ≤ t ∧ o.ttlS.toNat < 2 ^ 31 ∧
    s.expiresS = clock (o.openedAt + o.ttlS.toNat) ∧
    (o.closed = false ∨ 2 ≤ openings.countP (·.id = o.id))
  counted : ∀ id, sessions.countP (Holds id) ≤ openings.countP (·.id = id)
  sized : ∀ s ∈ sessions, s.used = true → s.id.chars.length = sidLen

variable {t₀ t : Nat} {openings : List Opening} {sessions' : List Session}

theorem Backed.mono {t' : Nat} (h : Backed t₀ t openings sessions) (htime : t ≤ t') :
    Backed t₀ t' openings sessions := by
  refine ⟨?_, h.counted, h.sized⟩
  intro s hs hused
  obtain ⟨o, ho, hid, hfrom, hto, hrest⟩ := h.backed s hs hused
  exact ⟨o, ho, hid, hfrom, hto.trans htime, hrest⟩

-- Slots are freed, or changed in what does not matter here.
theorem Backed.shrink (h : Backed t₀ t openings sessions)
    (hfrom : ∀ s' ∈ sessions', s'.used = true →
      ∃ s ∈ sessions, s.used = true ∧ s.id = s'.id ∧ s.expiresS = s'.expiresS)
    (hcount : ∀ id, sessions'.countP (Holds id) ≤ sessions.countP (Holds id)) :
    Backed t₀ t openings sessions' := by
  constructor
  case backed =>
    intro s' hs' hused
    obtain ⟨s, hs, hold, hid, hexpires⟩ := hfrom s' hs' hused
    rw [← hid, ← hexpires]
    exact h.backed s hs hold
  case counted =>
    intro id
    exact (hcount id).trans (h.counted id)
  case sized =>
    intro s' hs' hused
    obtain ⟨s, hs, hold, hid, -⟩ := hfrom s' hs' hused
    rw [← hid]
    exact h.sized s hs hold

theorem used_expire {now : UInt32} {s : Session} (h : (Policy.expire now s).used = true) :
    Policy.expire now s = s ∧ s.used = true ∧ ¬reached now s.expiresS := by
  rw [Policy.expire] at h ⊢
  split_ifs at h ⊢ with hgone
  · cases h
  · exact ⟨rfl, h, fun hreached => hgone ⟨h, hreached⟩⟩

theorem Backed.sweep (h : Backed t₀ t openings sessions) (now : UInt32) :
    Backed t₀ t openings (sessions.map (Policy.expire now)) := by
  apply h.shrink
  · intro s' hs' hused
    obtain ⟨s, hs, rfl⟩ := List.mem_map.mp hs'
    obtain ⟨hsame, hold, -⟩ := used_expire hused
    exact ⟨s, hs, hold, by rw [hsame], by rw [hsame]⟩
  · intro id
    rw [List.countP_map]
    apply List.countP_mono_left
    intro s _ hholds
    rw [Function.comp_apply] at hholds
    obtain ⟨hsame, -, -⟩ := used_expire (of_decide_eq_true hholds).1
    rwa [hsame] at hholds

theorem Backed.touch (h : Backed t₀ t openings sessions) (i : Nat) (now : UInt32) :
    Backed t₀ t openings (sessions.modify i fun s => { s with lastSeenS := now }) := by
  apply h.shrink
  · intro s' hs' hused
    rcases mem_modify hs' with hs | ⟨s, hs, rfl⟩
    · exact ⟨s', hs, hused, rfl, rfl⟩
    · exact ⟨s, hs, hused, rfl, rfl⟩
  · intro id
    apply le_of_eq
    apply countP_modify
    intro s
    rfl

theorem Backed.cleared (t₀ t : Nat) (sessions : List Session) :
    Backed t₀ t [] (sessions.map fun _ => .zero) := by
  constructor
  case backed =>
    intro s hs hused
    obtain ⟨_, -, rfl⟩ := List.mem_map.mp hs
    cases hused
  case counted =>
    intro id
    rw [List.countP_map]
    simp [Function.comp_def, Holds, Session.zero]
  case sized =>
    intro s hs hused
    obtain ⟨_, -, rfl⟩ := List.mem_map.mp hs
    cases hused

theorem Backed.opened (h : Backed t₀ t openings sessions) (htime : t₀ ≤ t) {i : Nat}
    (hi : i < sessions.length) {id : Buf (sidLen + 1)} (hid : id.chars.length = sidLen)
    {ttlS : UInt32} (httl : ttlS.toNat < 2 ^ 31) :
    Backed t₀ t (openings ++ [⟨id, t, ttlS, false⟩])
      (sessions.set i ⟨id, clock t + ttlS, clock t, true⟩) := by
  have hslot : ∀ s ∈ sessions.set i ⟨id, clock t + ttlS, clock t, true⟩,
      s ∈ sessions ∨ s = ⟨id, clock t + ttlS, clock t, true⟩ :=
    fun s hs => List.mem_or_eq_of_mem_set hs
  constructor
  case backed =>
    intro s hs hused
    rcases hslot s hs with hold | rfl
    · obtain ⟨o, ho, hoid, hfrom, hto, hottl, hexpires, hopen⟩ := h.backed s hold hused
      refine ⟨o, List.mem_append_left _ ho, hoid, hfrom, hto, hottl, hexpires, ?_⟩
      refine hopen.imp_right fun hagain => ?_
      rw [List.countP_append]
      omega
    · exact ⟨_, List.mem_append_right _ (List.mem_singleton_self _), rfl, htime, le_refl t, httl,
        clock_add t ttlS, .inl rfl⟩
  case counted =>
    intro k
    have hold := h.counted k
    rw [List.countP_set hi, List.countP_append, List.countP_singleton]
    simp only [Holds, true_and, decide_eq_true_eq] at hold ⊢
    split_ifs <;> omega
  case sized =>
    intro s hs hused
    rcases hslot s hs with hold | rfl
    · exact h.sized s hold hused
    · exact hid

theorem close_eq (id : Option CStr) (o : Opening) :
    Trail.close id o = { o with closed := o.closed || (id = some o.id.chars : Bool) } := by
  rw [Trail.close]
  split_ifs with h <;> simp [h]

theorem countP_close (id : Option CStr) (k : Buf (sidLen + 1)) :
    (openings.map (Trail.close id)).countP (·.id = k) = openings.countP (·.id = k) := by
  rw [List.countP_map]
  congr 1
  funext o
  simp [close_eq]

-- A slot that still has the id of a closed session is one of two.
theorem Backed.closed (h : Backed t₀ t openings sessions) (id : CStr)
    (hsessions' : Policy.hitFrom id none 0 sessions = none ∧ sessions' = sessions ∨
      ∃ i, Policy.hitFrom id none 0 sessions = some i ∧ sessions' = sessions.set i .zero) :
    Backed t₀ t (openings.map (Trail.close (some id))) sessions' := by
  have hmem : ∀ s ∈ sessions', s.used = true → s ∈ sessions := by
    intro s hs hused
    rcases hsessions' with ⟨-, rfl⟩ | ⟨i, -, rfl⟩
    · exact hs
    · rcases List.mem_or_eq_of_mem_set hs with hs | rfl
      · exact hs
      · cases hused
  -- The slot that was freed had the id as well.
  have htwo : ∀ s ∈ sessions', s.used = true → s.id.chars = id →
      2 ≤ sessions.countP (Holds s.id) := by
    intro s hs hused hid
    have hin := hmem s hs hused
    have hmatch := (matches_iff (h.sized s hin)).mpr ⟨hused, hid⟩
    rcases hitFrom_cases none 0 sessions with ⟨-, hnone⟩ | ⟨j, r, hj, hr, hfound⟩
    · exact absurd hmatch (hnone s hin)
    · rw [Nat.zero_add] at hfound
      rcases hsessions' with ⟨hmiss, -⟩ | ⟨i, hhit, rfl⟩
      · rw [hfound] at hmiss
        cases hmiss
      · obtain rfl : j = i := Option.some.inj (hfound.symm.trans hhit)
        obtain ⟨hlt, hget⟩ := List.getElem?_eq_some_iff.mp hj
        obtain ⟨hrused, hrid⟩ := (matches_iff (h.sized r (List.mem_of_getElem? hj))).mp hr
        have hrest : 0 < (sessions.set j .zero).countP (Holds s.id) := by
          rw [List.countP_pos_iff]
          exact ⟨s, hs, decide_eq_true ⟨hused, rfl⟩⟩
        have hsame : Holds s.id sessions[j] := by
          rw [hget]
          exact ⟨hrused, Buf.ext (hrid.trans hid.symm)⟩
        have hzero : ¬Holds s.id .zero := by
          rintro ⟨hoff, -⟩
          cases hoff
        rw [List.countP_set hlt] at hrest
        simp only [hsame, hzero, decide_true, decide_false, Bool.false_eq_true, if_true,
          if_false] at hrest
        omega
  constructor
  case backed =>
    intro s hs hused
    obtain ⟨o, ho, hid, hfrom, hto, hottl, hexpires, hopen⟩ :=
      h.backed s (hmem s hs hused) hused
    refine ⟨Trail.close (some id) o, List.mem_map_of_mem ho, ?_⟩
    rw [countP_close, close_eq]
    refine ⟨hid, hfrom, hto, hottl, hexpires, ?_⟩
    by_cases hclosed : id = o.id.chars
    · right
      dsimp only
      rw [hid]
      have hcount := htwo s hs hused (by rw [← hid, hclosed])
      exact hcount.trans (h.counted s.id)
    · simpa [hclosed] using hopen
  case counted =>
    intro k
    rw [countP_close]
    refine le_trans ?_ (h.counted k)
    rcases hsessions' with ⟨-, rfl⟩ | ⟨i, -, rfl⟩
    · exact le_refl _
    · by_cases hi : i < sessions.length
      · rw [List.countP_set hi]
        simp [Holds, Session.zero]
      · rw [List.set_eq_of_length_le (by omega)]
  case sized =>
    intro s hs hused
    exact h.sized s (hmem s hs hused) hused

end Table

end Espos.Httpd
