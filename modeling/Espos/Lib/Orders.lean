import Espos.Lib.Best
import Mathlib.Data.Set.Basic

-- Comparisons that are an order only on some of the values, and what an election by one
-- of them gives.

namespace Espos.Orders

variable {α : Type*}

-- Transitive between the values of a set.
def TransOn (cmp : α → α → Ordering) (V : Set α) : Prop :=
  ∀ a ∈ V, ∀ b ∈ V, ∀ c ∈ V, (cmp a b).isLE → (cmp b c).isLE → (cmp a c).isLE

section Mixed

variable {p : α → Bool} {inner outer : α → α → Ordering} {V : Set α} {a b c : α}

-- One comparison between two values of a kind, another one in all other cases.
def mixed (p : α → Bool) (inner outer : α → α → Ordering) (a b : α) : Ordering :=
  if p a && p b then inner a b else outer a b

-- Where a value of another kind lies between two of the kind, they are in the same order
-- among themselves.
def Agrees (p : α → Bool) (inner outer : α → α → Ordering) (V : Set α) : Prop :=
  ∀ a ∈ V, ∀ b ∈ V, ∀ x ∈ V, p a = true → p b = true → p x = false →
    outer a x = .lt → outer x b = .lt → inner a b = .lt

theorem mixed_of_both (ha : p a = true) (hb : p b = true) :
    mixed p inner outer a b = inner a b := by
  rw [mixed, ha, hb]
  rfl

theorem mixed_of_left (ha : p a = false) : mixed p inner outer a b = outer a b := by
  rw [mixed, ha]
  rfl

theorem mixed_of_right (hb : p b = false) : mixed p inner outer a b = outer a b := by
  rw [mixed, hb, Bool.and_false]
  rfl

instance [Std.OrientedCmp inner] [Std.OrientedCmp outer] :
    Std.OrientedCmp (mixed p inner outer) where
  eq_swap {a b} := by
    unfold mixed
    rw [Bool.and_comm (p b)]
    by_cases h : (p a && p b) = true
    · rw [if_pos h, if_pos h]
      exact Std.OrientedCmp.eq_swap
    · rw [if_neg h, if_neg h]
      exact Std.OrientedCmp.eq_swap

-- Two values that are not of one kind do not tie.
theorem lt_of_isLE [Std.LawfulEqCmp outer] (h : (outer a b).isLE) (hne : p a ≠ p b) :
    outer a b = .lt := by
  rcases Ordering.isLE_iff_eq_lt_or_eq_eq.mp h with hlt | heq
  · exact hlt
  · exact absurd (congrArg p (Std.LawfulEqCmp.eq_of_compare heq)) hne

variable [Std.TransCmp inner] [Std.TransCmp outer]

theorem agrees_of_transOn (h : TransOn (mixed p inner outer) V) : Agrees p inner outer V := by
  intro a ha b hb x hx hpa hpb hpx hax hxb
  have hle := h a ha x hx b hb
  rw [mixed_of_right hpx, mixed_of_left hpx, hax, hxb, mixed_of_both hpa hpb] at hle
  rcases Ordering.isLE_iff_eq_lt_or_eq_eq.mp (hle rfl rfl) with hlt | heq
  · exact hlt
  · -- a tie between the two would put the value between them on both sides
    have hback := h b hb a ha x hx
    rw [mixed_of_both hpb hpa, mixed_of_right hpx, mixed_of_right hpx, hax,
      Std.OrientedCmp.eq_symm heq, Std.OrientedCmp.gt_of_lt hxb] at hback
    cases hback rfl rfl

theorem transOn_of_agrees [Std.LawfulEqCmp outer] (h : Agrees p inner outer V) :
    TransOn (mixed p inner outer) V := by
  intro a ha b hb c hc hab hbc
  cases hpa : p a with
  | false =>
    rw [mixed_of_left hpa] at hab ⊢
    cases hpb : p b with
    | false =>
      rw [mixed_of_left hpb] at hbc
      exact Std.TransCmp.isLE_trans hab hbc
    | true =>
      cases hpc : p c with
      | false =>
        rw [mixed_of_right hpc] at hbc
        exact Std.TransCmp.isLE_trans hab hbc
      | true =>
        rw [mixed_of_both hpb hpc] at hbc
        have hlt : outer a b = .lt := lt_of_isLE (p := p) hab (by simp [hpa, hpb])
        by_contra hac
        have hca := Std.OrientedCmp.lt_of_not_isLE hac
        have hcb := h c hc b hb a ha hpc hpb hpa hca hlt
        exact Std.OrientedCmp.not_lt_of_isLE hbc hcb
  | true =>
    cases hpb : p b with
    | false =>
      rw [mixed_of_right hpb] at hab
      rw [mixed_of_left hpb] at hbc
      cases hpc : p c with
      | false =>
        rw [mixed_of_right hpc]
        exact Std.TransCmp.isLE_trans hab hbc
      | true =>
        have hlt : outer a b = .lt := lt_of_isLE (p := p) hab (by simp [hpa, hpb])
        have hlt' : outer b c = .lt := lt_of_isLE (p := p) hbc (by simp [hpb, hpc])
        rw [mixed_of_both hpa hpc, h a ha c hc b hb hpa hpc hpb hlt hlt']
        rfl
    | true =>
      rw [mixed_of_both hpa hpb] at hab
      cases hpc : p c with
      | false =>
        rw [mixed_of_right hpc] at hbc ⊢
        have hlt : outer b c = .lt := lt_of_isLE (p := p) hbc (by simp [hpb, hpc])
        by_contra hac
        have hca := Std.OrientedCmp.lt_of_not_isLE hac
        have hba := h b hb a ha c hc hpb hpa hpc hlt hca
        exact Std.OrientedCmp.not_lt_of_isLE hab hba
      | true =>
        rw [mixed_of_both hpb hpc] at hbc
        rw [mixed_of_both hpa hpc]
        exact Std.TransCmp.isLE_trans hab hbc

theorem transOn_mixed_iff [Std.LawfulEqCmp outer] :
    TransOn (mixed p inner outer) V ↔ Agrees p inner outer V :=
  ⟨agrees_of_transOn, transOn_of_agrees⟩

end Mixed

section Election

variable {hit : α → Bool} {cmp : α → α → Ordering} {V : Set α} {a b : α} {l l' : List α}

-- The loop that takes every entry above the one picked so far ends with one that no entry
-- is above.
theorem electFrom_isLE [Std.OrientedCmp cmp] (h : TransOn cmp V)
    (hl : ∀ b ∈ l, hit b = true → b ∈ V) {picked : Option (Nat × α)} {i j : Nat}
    (hpicked : ∀ k b, picked = some (k, b) → b ∈ V)
    (hpick : Best.electFrom hit (fun a b => cmp a b == .gt) picked i l = some (j, a)) :
    a ∈ V ∧ (∀ k b, picked = some (k, b) → (cmp b a).isLE) ∧
      ∀ b ∈ l, hit b = true → (cmp b a).isLE := by
  induction l generalizing picked i with
  | nil =>
    obtain rfl : picked = some (j, a) := hpick
    refine ⟨hpicked j a rfl, ?_, by simp⟩
    intro k b hb
    cases hb
    exact Std.ReflCmp.isLE_rfl
  | cons x l ih =>
    have hrest := fun b hb => hl b (List.mem_cons_of_mem _ hb)
    rw [Best.electFrom] at hpick
    by_cases hx : (hit x && Best.displaces (fun a b => cmp a b == .gt) x picked) = true
    · rw [if_pos hx] at hpick
      obtain ⟨hhit, habove⟩ := Bool.and_eq_true_iff.mp hx
      have hxV := hl x List.mem_cons_self hhit
      obtain ⟨ha, hxa, hla⟩ := ih hrest (by rintro k b ⟨rfl⟩; exact hxV) hpick
      have hxa := hxa i x rfl
      refine ⟨ha, ?_, ?_⟩
      · rintro k b rfl
        have hgt : cmp x b = .gt := eq_of_beq habove
        have hbx : (cmp b x).isLE := by
          rw [Std.OrientedCmp.lt_of_gt hgt]
          rfl
        exact h b (hpicked k b rfl) x hxV a ha hbx hxa
      · intro b hb hbhit
        rcases List.mem_cons.mp hb with rfl | hb
        · exact hxa
        · exact hla b hb hbhit
    · rw [if_neg hx] at hpick
      obtain ⟨ha, hold, hla⟩ := ih hrest hpicked hpick
      refine ⟨ha, hold, ?_⟩
      intro b hb hbhit
      rcases List.mem_cons.mp hb with rfl | hb
      · -- passed over for the one picked so far
        cases hpicked' : picked with
        | none => simp [hbhit, hpicked', Best.displaces] at hx
        | some q =>
          obtain ⟨k, c⟩ := q
          have hle : (cmp b c).isLE := by
            simpa [hbhit, hpicked', Best.displaces, Ordering.isLE_iff_ne_gt] using hx
          have hca := hold k c hpicked'
          exact h b (hl b List.mem_cons_self hbhit) c (hpicked k c hpicked') a ha hle hca
      · exact hla b hb hbhit

theorem elect_isLE [Std.OrientedCmp cmp] (h : TransOn cmp {b | b ∈ l ∧ hit b = true}) {j : Nat}
    (hpick : Best.elect hit (fun a b => cmp a b == .gt) l = some (j, a)) :
    (a ∈ l ∧ hit a = true) ∧ ∀ b ∈ l, hit b = true → (cmp b a).isLE := by
  obtain ⟨ha, -, hle⟩ := electFrom_isLE h (fun b hb hhit => ⟨hb, hhit⟩) (by simp) hpick
  exact ⟨ha, hle⟩

-- Two lists of the same entries elect ones that tie.
theorem elect_perm [Std.OrientedCmp cmp] (h : TransOn cmp {b | b ∈ l ∧ hit b = true})
    (hperm : l.Perm l') {i j : Nat}
    (ha : Best.elect hit (fun a b => cmp a b == .gt) l = some (i, a))
    (hb : Best.elect hit (fun a b => cmp a b == .gt) l' = some (j, b)) : cmp a b = .eq := by
  have h' : TransOn cmp {b | b ∈ l' ∧ hit b = true} := by
    have hset : {b | b ∈ l' ∧ hit b = true} = {b | b ∈ l ∧ hit b = true} := by
      ext b
      exact and_congr_left fun _ => hperm.mem_iff.symm
    rwa [hset]
  obtain ⟨⟨hal, hahit⟩, hlea⟩ := elect_isLE h ha
  obtain ⟨⟨hbl, hbhit⟩, hleb⟩ := elect_isLE h' hb
  have hba := hlea b (hperm.mem_iff.mpr hbl) hbhit
  have hab := hleb a (hperm.mem_iff.mp hal) hahit
  exact Std.OrientedCmp.isLE_antisymm hab hba

end Election

end Espos.Orders
