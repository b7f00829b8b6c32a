import Mathlib.Data.List.Basic
import Mathlib.Order.Lattice

-- Electing one entry of a list by a key, and lists that keep only some of the
-- entries and elect the same.

namespace Espos.Best

section Loop

variable {α : Type*} (hit : α → Bool) (before : α → α → Bool)

-- The entry displaces the one picked so far.
def displaces (a : α) : Option (Nat × α) → Bool
  | none => true
  | some (_, b) => before a b

-- The loop over the list from index `i` on.
def electFrom (picked : Option (Nat × α)) : Nat → List α → Option (Nat × α)
  | _, [] => picked
  | i, a :: l =>
    electFrom (if hit a && displaces before a picked then some (i, a) else picked) (i + 1) l

def elect (l : List α) : Option (Nat × α) :=
  electFrom hit before none 0 l

-- The entry comes behind the one emitted last.
def follows (after : α → α → Bool) (last : Option α) (a : α) : Bool :=
  match last with
  | none => true
  | some b => after a b

-- What `n` passes emit that each elect one entry behind the last.
def drain (after : α → α → Bool) (l : List α) : Nat → Option α → List α
  | 0, _ => []
  | n + 1, last =>
    match elect (fun a => hit a && follows after last a) before l with
    | none => []
    | some (_, a) => a :: drain after l n (some a)

end Loop

variable {α κ : Type*} [LinearOrder κ] (hit : α → Prop) (key : α → κ)

-- The entry is one of those that qualify, and none that does has a lower key.
structure Least (l : List α) (a : α) : Prop where
  mem : a ∈ l
  qualifies : hit a
  le : ∀ b ∈ l, hit b → key a ≤ key b

-- Whatever qualifies on the long list is matched by something on the short one.
def Covers (short long : List α) : Prop :=
  ∀ u ∈ long, hit u → ∃ c ∈ short, hit c ∧ key c ≤ key u

variable {hit key} {short long l : List α} {a b d : α}

theorem covers_append_both (h : Covers hit key short long) (d : α) :
    Covers hit key (short ++ [d]) (long ++ [d]) := by
  intro u hu hhit
  rcases List.mem_append.mp hu with hu | hu
  · obtain ⟨c, hc, hhit', hle⟩ := h u hu hhit
    exact ⟨c, List.mem_append_left _ hc, hhit', hle⟩
  · obtain rfl := List.mem_singleton.mp hu
    exact ⟨u, by simp, hhit, le_refl _⟩

theorem covers_append (h : Covers hit key short long)
    (hd : hit d → ∃ c ∈ short, hit c ∧ key c ≤ key d) :
    Covers hit key short (long ++ [d]) := by
  intro u hu hhit
  rcases List.mem_append.mp hu with hu | hu
  · exact h u hu hhit
  · obtain rfl := List.mem_singleton.mp hu
    exact hd hhit

-- The newcomer takes the place of an entry that is no better.
theorem covers_set (h : Covers hit key short long) {i : Nat} (hi : short[i]? = some a)
    (ha : hit a → hit d ∧ key d ≤ key a) :
    Covers hit key (short.set i d) (long ++ [d]) := by
  have hin : d ∈ short.set i d :=
    List.mem_set (List.getElem?_eq_some_iff.mp hi).1 d
  intro u hu hhit
  rcases List.mem_append.mp hu with hu | hu
  · obtain ⟨c, hc, hhit', hle⟩ := h u hu hhit
    obtain ⟨j, hj⟩ := List.mem_iff_getElem?.mp hc
    by_cases hij : i = j
    · subst hij
      obtain rfl : a = c := Option.some.inj (hi.symm.trans hj)
      obtain ⟨hd, hle'⟩ := ha hhit'
      exact ⟨d, hin, hd, le_trans hle' hle⟩
    · have hj' : (short.set i d)[j]? = some c := by
        rw [List.getElem?_set_ne hij]
        exact hj
      exact ⟨c, List.mem_of_getElem? hj', hhit', hle⟩
  · obtain rfl := List.mem_singleton.mp hu
    exact ⟨u, hin, hhit, le_refl _⟩

theorem key_eq_of_covers (h : Covers hit key short long) (hsub : short ⊆ long)
    (ha : Least hit key short a) (hb : Least hit key long b) : key a = key b := by
  obtain ⟨c, hc, hhit, hle⟩ := h b hb.mem hb.qualifies
  have hab : key a ≤ key b := le_trans (ha.le c hc hhit) hle
  exact le_antisymm hab (hb.le a (hsub ha.mem) ha.qualifies)

-- Which entry is least does not depend on the order of the list.
theorem Least.perm {l' : List α} (h : Least hit key l a) (hperm : l.Perm l') :
    Least hit key l' a where
  mem := hperm.mem_iff.mp h.mem
  qualifies := h.qualifies
  le := fun b hb hhit => h.le b (hperm.mem_iff.mpr hb) hhit

theorem Least.key_eq (ha : Least hit key l a) (hb : Least hit key l b) : key a = key b :=
  le_antisymm (ha.le b hb.mem hb.qualifies) (hb.le a ha.mem ha.qualifies)

theorem covers_none (h : Covers hit key short long) (hnone : ∀ c ∈ short, ¬ hit c) :
    ∀ u ∈ long, ¬ hit u := by
  intro u hu hhit
  obtain ⟨c, hc, hhit', _⟩ := h u hu hhit
  exact hnone c hc hhit'

section Loop

variable {hit : α → Bool} {before : α → α → Bool}

theorem electFrom_eq_none {picked : Option (Nat × α)} {i : Nat}
    (h : electFrom hit before picked i l = none) : picked = none ∧ ∀ b ∈ l, hit b = false := by
  induction l generalizing picked i with
  | nil => exact ⟨h, by simp⟩
  | cons x l ih =>
    rw [electFrom] at h
    split at h
    · cases (ih h).1
    · rename_i hx
      obtain ⟨hpicked, hl⟩ := ih h
      subst hpicked
      refine ⟨rfl, ?_⟩
      intro b hb
      rcases List.mem_cons.mp hb with rfl | hb
      · simpa [displaces] using hx
      · exact hl b hb

theorem electFrom_append (picked : Option (Nat × α)) (i : Nat) (l l' : List α) :
    electFrom hit before picked i (l ++ l') =
      electFrom hit before (electFrom hit before picked i l) (i + l.length) l' := by
  induction l generalizing picked i with
  | nil => rfl
  | cons x l ih =>
    rw [List.cons_append, electFrom, electFrom, ih, List.length_cons]
    congr 1
    omega

theorem electFrom_none_mem {i j : Nat}
    (h : electFrom hit before none i l = some (j, a)) : i ≤ j ∧ l[j - i]? = some a ∧ hit a := by
  have hfrom : ∀ picked i, electFrom hit before picked i l = some (j, a) →
      picked = some (j, a) ∨ i ≤ j ∧ l[j - i]? = some a ∧ hit a := by
    clear h
    induction l with
    | nil => exact fun picked i h => .inl h
    | cons x l ih =>
      intro picked i h
      rw [electFrom] at h
      rcases ih _ _ h with hpicked | ⟨hij, hget, hhit⟩
      · split at hpicked
        next hx =>
          obtain ⟨rfl, rfl⟩ : i = j ∧ x = a := by simpa using hpicked
          exact .inr ⟨Nat.le_refl i, by simp, (Bool.and_eq_true_iff.mp hx).1⟩
        next => exact .inl hpicked
      · have hsub : j - i = (j - (i + 1)) + 1 := by omega
        exact .inr ⟨by omega, by rw [hsub]; simpa using hget, hhit⟩
  simpa using hfrom none i h

theorem electFrom_keep {i j : Nat} (hkeep : ∀ b ∈ l, hit b = true → before b a = false) :
    electFrom hit before (some (j, a)) i l = some (j, a) := by
  induction l generalizing i with
  | nil => rfl
  | cons x l ih =>
    have hstay : (hit x && displaces before x (some (j, a))) = false := by
      cases hx : hit x with
      | false => rfl
      | true => exact hkeep x (by simp) hx
    rw [electFrom, hstay]
    exact ih fun b hb => hkeep b (List.mem_cons_of_mem _ hb)

-- The entry displaces whatever stands in front of it, and nothing behind it
-- displaces it. No order of the entries is asked for.
theorem elect_eq_of_first {i : Nat} (hi : l[i]? = some a) (hhit : hit a = true)
    (hfirst : ∀ j b, j < i → l[j]? = some b → hit b = true → before a b = true)
    (hrest : ∀ j b, i < j → l[j]? = some b → hit b = true → before b a = false) :
    elect hit before l = some (i, a) := by
  obtain ⟨hlt, hget⟩ := List.getElem?_eq_some_iff.mp hi
  have hsplit : l = l.take i ++ a :: l.drop (i + 1) := by
    rw [← hget, List.getElem_cons_drop, List.take_append_drop]
  have hlen : (l.take i).length = i := List.length_take_of_le (by omega)
  rw [elect, hsplit, electFrom_append, electFrom, hlen, Nat.zero_add]
  have htaken : (hit a && displaces before a (electFrom hit before none 0 (l.take i))) = true := by
    rw [hhit, Bool.true_and]
    cases hpicked : electFrom hit before none 0 (l.take i) with
    | none => rfl
    | some p =>
      obtain ⟨j, b⟩ := p
      obtain ⟨-, hj, hb⟩ := electFrom_none_mem hpicked
      rw [Nat.sub_zero, List.getElem?_take] at hj
      split at hj
      next hji => exact hfirst j b hji hj hb
      next => cases hj
  rw [htaken, if_pos rfl]
  apply electFrom_keep
  intro b hb hbhit
  obtain ⟨k, hk⟩ := List.mem_iff_getElem?.mp hb
  rw [List.getElem?_drop] at hk
  exact hrest _ b (by omega) hk hbhit

variable (hbefore : ∀ a b, before a b = true ↔ key a < key b)

include hbefore

theorem electFrom_eq_some {picked : Option (Nat × α)} {i j : Nat}
    (h : electFrom hit before picked i l = some (j, a)) :
    (picked = some (j, a) ∨ i ≤ j ∧ l[j - i]? = some a ∧ hit a = true) ∧
      (∀ k b, picked = some (k, b) → key a ≤ key b) ∧ ∀ b ∈ l, hit b = true → key a ≤ key b := by
  induction l generalizing picked i with
  | nil =>
    obtain rfl : picked = some (j, a) := h
    refine ⟨Or.inl rfl, ?_, by simp⟩
    intro k b hb
    cases hb
    exact le_refl _
  | cons x l ih =>
    rw [electFrom] at h
    split at h
    · rename_i hx
      obtain ⟨hxhit, hxdisp⟩ := Bool.and_eq_true_iff.mp hx
      obtain ⟨hfrom, hpicked, hl⟩ := ih h
      have hax : key a ≤ key x := hpicked i x rfl
      refine ⟨Or.inr ?_, ?_, ?_⟩
      · rcases hfrom with hfrom | ⟨hij, hget, hhit⟩
        · obtain ⟨rfl, rfl⟩ : i = j ∧ x = a := by simpa using hfrom
          exact ⟨Nat.le_refl i, by simp, hxhit⟩
        · have hsub : j - i = (j - (i + 1)) + 1 := by omega
          exact ⟨by omega, by rw [hsub]; simpa using hget, hhit⟩
      · rintro k b rfl
        exact le_trans hax (le_of_lt ((hbefore x b).mp hxdisp))
      · intro b hb hhit
        rcases List.mem_cons.mp hb with rfl | hb
        · exact hax
        · exact hl b hb hhit
    · rename_i hx
      obtain ⟨hfrom, hpicked, hl⟩ := ih h
      refine ⟨?_, hpicked, ?_⟩
      · rcases hfrom with hfrom | ⟨hij, hget, hhit⟩
        · exact Or.inl hfrom
        · have hsub : j - i = (j - (i + 1)) + 1 := by omega
          exact Or.inr ⟨by omega, by rw [hsub]; simpa using hget, hhit⟩
      · intro b hb hhit
        rcases List.mem_cons.mp hb with rfl | hb
        -- a qualifying entry is passed over for the one picked so far
        · cases hp : picked with
          | none => simp [hhit, hp, displaces] at hx
          | some p =>
            obtain ⟨k, c⟩ := p
            simp only [hhit, hp, displaces, Bool.true_and, hbefore, not_lt] at hx
            exact le_trans (hpicked k c hp) hx
        · exact hl b hb hhit

theorem elect_eq_some {j : Nat} (h : elect hit before l = some (j, a)) :
    l[j]? = some a ∧ hit a = true ∧ ∀ b ∈ l, hit b = true → key a ≤ key b := by
  obtain ⟨hfrom, _, hl⟩ := electFrom_eq_some hbefore h
  rcases hfrom with hfrom | ⟨_, hget, hhit⟩
  · cases hfrom
  · exact ⟨hget, hhit, hl⟩

variable {after : α → α → Bool} (hafter : ∀ a b, after a b = true ↔ key b < key a)

include hafter

omit hbefore in
theorem follows_trans {last : Option α} (hb : follows after last b = true)
    (ha : follows after (some b) a = true) : follows after last a = true := by
  cases last with
  | none => rfl
  | some c =>
    have hcb : key c < key b := (hafter b c).mp hb
    have hba : key b < key a := (hafter a b).mp ha
    exact (hafter a c).mpr (lt_trans hcb hba)

theorem mem_drain {n : Nat} {last : Option α} (h : a ∈ drain hit before after l n last) :
    a ∈ l ∧ hit a = true ∧ follows after last a = true := by
  induction n generalizing last with
  | zero => cases h
  | succ n ih =>
    rw [drain] at h
    split at h
    · cases h
    · rename_i i b helect
      obtain ⟨hget, hb, _⟩ := elect_eq_some hbefore helect
      obtain ⟨hhit, hfollows⟩ := Bool.and_eq_true_iff.mp hb
      rcases List.mem_cons.mp h with rfl | h
      · exact ⟨List.mem_of_getElem? hget, hhit, hfollows⟩
      · obtain ⟨hmem, hhit', hfollows'⟩ := ih h
        exact ⟨hmem, hhit', follows_trans hafter hfollows hfollows'⟩

theorem pairwise_drain {n : Nat} {last : Option α} :
    (drain hit before after l n last).Pairwise fun a b => key a < key b := by
  induction n generalizing last with
  | zero => exact List.Pairwise.nil
  | succ n ih =>
    rw [drain]
    split
    · exact List.Pairwise.nil
    · rename_i i b _
      refine List.Pairwise.cons ?_ ih
      intro c hc
      exact (hafter c b).mp (mem_drain hbefore hafter hc).2.2

-- As many passes as there are entries left are enough.
theorem exists_mem_drain {n : Nat} {last : Option α}
    (hn : (l.filter fun a => hit a && follows after last a).length ≤ n) (ha : a ∈ l)
    (hhit : hit a = true) (hlast : follows after last a = true) :
    ∃ b ∈ drain hit before after l n last, key b = key a := by
  induction n generalizing last with
  | zero =>
    have hmem : a ∈ l.filter fun a => hit a && follows after last a :=
      List.mem_filter.mpr ⟨ha, by simp [hhit, hlast]⟩
    have := List.length_pos_of_mem hmem
    omega
  | succ n ih =>
    rw [drain]
    split
    · rename_i helect
      have hmiss := (electFrom_eq_none helect).2 a ha
      simp [hhit, hlast] at hmiss
    · rename_i i b helect
      obtain ⟨hget, hb, hle⟩ := elect_eq_some hbefore helect
      obtain ⟨hbhit, hbfollows⟩ := Bool.and_eq_true_iff.mp hb
      rcases lt_or_eq_of_le (hle a ha (by simp [hhit, hlast])) with hlt | heq
      · have hnext : follows after (some b) a = true := (hafter a b).mpr hlt
        -- the entry emitted is not among those left
        have hfewer : (l.filter fun a => hit a && follows after (some b) a).length <
            (l.filter fun a => hit a && follows after last a).length := by
          have hsub : (l.filter fun a => hit a && follows after (some b) a) =
              (l.filter fun a => hit a && follows after last a).filter
                fun a => follows after (some b) a := by
            rw [List.filter_filter]
            apply List.filter_congr
            intro c _
            cases hc : follows after (some b) c with
            | false => simp
            | true => simp [follows_trans hafter hbfollows hc]
          rw [hsub, List.length_filter_lt_length_iff_exists]
          refine ⟨b, List.mem_filter.mpr ⟨List.mem_of_getElem? hget, hb⟩, ?_⟩
          intro hself
          exact lt_irrefl _ ((hafter b b).mp hself)
        obtain ⟨c, hc, hkey⟩ := ih (by omega) hnext
        exact ⟨c, List.mem_cons_of_mem _ hc, hkey⟩
      · exact ⟨b, by simp, heq⟩

end Loop

end Espos.Best
