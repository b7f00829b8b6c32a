import Mathlib.Order.Lattice

-- Times of a millisecond counter of 32 bits. The counter wraps around, so two
-- times are compared through their difference.

namespace Espos.Clock

-- `(int32_t)(a - b)`: how far `a` is ahead of `b`.
def ahead (a b : UInt32) : Int :=
  if (a - b).toNat < 2147483648 then (a - b).toNat else (a - b).toNat - 4294967296

-- The value 0 stands for "no due time", so a due time that lands on it is moved
-- by a millisecond.
def moved (t : UInt32) : UInt32 :=
  if t = 0 then 1 else t

-- The time `ms` from now.
def due (now ms : UInt32) : UInt32 :=
  moved (now + ms)

-- The time left until `t`, at least a millisecond.
def remaining (now t : UInt32) : UInt32 :=
  if 0 < ahead t now then t - now else 1

-- `a` does not lie behind `b`.
def NotLater (a b : UInt32) : Prop :=
  ahead a b ≤ 0

instance (a b : UInt32) : Decidable (NotLater a b) :=
  inferInstanceAs (Decidable (_ ≤ _))

theorem moved_ne_zero (t : UInt32) : moved t ≠ 0 := by
  unfold moved
  split
  · decide
  · assumption

theorem due_ne_zero (now ms : UInt32) : due now ms ≠ 0 :=
  moved_ne_zero _

-- A due time that was in the future when it was written down.
def Future (now due : UInt32) : Prop :=
  ∃ d, due = moved d ∧ ahead now d < 0

theorem toNat_sub_of (a b : UInt32) : (a - b).toNat =
    if b.toNat ≤ a.toNat then a.toNat - b.toNat else a.toNat + 4294967296 - b.toNat := by
  have ha := a.toNat_lt
  have hb := b.toNat_lt
  rw [UInt32.toNat_sub]
  split_ifs <;> omega

-- Times that are counted without end are told apart within half a turn.
theorem toNat_sub_ofNat {a b : Nat} (hlow : b < a + 2147483648) (hhigh : a < b + 2147483648) :
    (UInt32.ofNat a - UInt32.ofNat b).toNat = if b ≤ a then a - b else 4294967296 - (b - a) := by
  rw [toNat_sub_of, UInt32.toNat_ofNat', UInt32.toNat_ofNat']
  split_ifs <;> omega

theorem ahead_ofNat {a b : Nat} (hlow : b < a + 2147483648) (hhigh : a < b + 2147483648) :
    ahead (UInt32.ofNat a) (UInt32.ofNat b) = (a : Int) - b := by
  rw [ahead, toNat_sub_ofNat hlow hhigh]
  split_ifs <;> omega

theorem future_due {now ms : UInt32} (hpos : ms ≠ 0) (hms : ms.toNat ≤ 2147483648) :
    Future now (due now ms) := by
  refine ⟨now + ms, rfl, ?_⟩
  have hn := now.toNat_lt
  have hpos : ms.toNat ≠ 0 := fun h => hpos (UInt32.toNat_inj.mp h)
  have hback : (now - (now + ms)).toNat = 4294967296 - ms.toNat := by
    rw [toNat_sub_of, UInt32.toNat_add]
    split_ifs <;> omega
  unfold ahead
  rw [hback]
  split_ifs <;> omega

-- A wait that does not reach beyond the due time, which is at most half a turn
-- of the clock away.
theorem notLater_add {now p wait : UInt32} (hgap : (p - now).toNat ≤ 2147483648)
    (hwait : wait.toNat ≤ (p - now).toNat) : NotLater (now + wait) p := by
  have hn := now.toNat_lt
  have hp := p.toNat_lt
  have hw := wait.toNat_lt
  have hback : (now + wait - p).toNat = if wait.toNat = (p - now).toNat then 0
      else wait.toNat + 4294967296 - (p - now).toNat := by
    simp only [toNat_sub_of, UInt32.toNat_add, Nat.reducePow] at hgap hwait ⊢
    split_ifs at hgap hwait ⊢ <;> omega
  unfold NotLater ahead
  rw [hback]
  split_ifs <;> omega

theorem remaining_le {now p : UInt32} (h : p ≠ now) :
    (remaining now p).toNat ≤ (p - now).toNat := by
  have hne : p.toNat ≠ now.toNat := fun h' => h (UInt32.toNat_inj.mp h')
  unfold remaining
  split
  · exact le_refl _
  · have hn := now.toNat_lt
    rw [toNat_sub_of]
    simp only [UInt32.toNat_one]
    split_ifs <;> omega

-- The one case that goes wrong is a wait of no length at the very moment a due
-- time of 0 is half a turn away: moving it makes it look passed.
theorem notLater_due {now p wait : UInt32} (hf : Future now p) (hle : wait ≤ remaining now p)
    (h : wait ≠ 0 ∨ now ≠ 0x80000000) : NotLater (due now wait) p := by
  obtain ⟨d, rfl, hd⟩ := hf
  by_cases hedge : now = 0x80000000 ∧ d = 0
  · obtain ⟨rfl, rfl⟩ := hedge
    have hone : wait = 1 := by
      have hpos : wait.toNat ≠ 0 := by simpa [← UInt32.toNat_inj] using h
      have hle : wait.toNat ≤ 1 := hle
      apply UInt32.toNat_inj.mp
      simp only [UInt32.toNat_one]
      omega
    rw [hone]
    decide
  have hgap : (moved d - now).toNat ≤ 2147483648 ∧ moved d ≠ now := by
    have hn := now.toNat_lt
    have hdlt := d.toNat_lt
    have hfar : 2147483648 ≤ (now - d).toNat := by
      unfold ahead at hd
      split at hd <;> omega
    rw [toNat_sub_of] at hfar
    rw [toNat_sub_of, ne_eq, ← UInt32.toNat_inj]
    have hedge : ¬(now.toNat = 2147483648 ∧ d.toNat = 0) := by
      simpa [← UInt32.toNat_inj] using hedge
    by_cases hd : d = 0
    · have hd0 : d.toNat = 0 := by rw [hd]; rfl
      rw [moved, if_pos hd]
      simp only [UInt32.toNat_one]
      split_ifs at hfar ⊢ <;> omega
    · rw [moved, if_neg hd]
      split_ifs at hfar ⊢ <;> omega
  have hle : wait.toNat ≤ (moved d - now).toNat := le_trans hle (remaining_le hgap.2)
  by_cases hzero : now + wait = 0
  · have hnext : now + (wait + 1) = 1 := by rw [← UInt32.add_assoc, hzero]; rfl
    rw [due, moved, if_pos hzero, ← hnext]
    have hne : wait.toNat ≠ (moved d - now).toNat := by
      intro heq
      have hsame : now + (moved d - now) = 0 := by rw [← UInt32.toNat_inj.mp heq, hzero]
      rw [UInt32.add_comm, UInt32.sub_add_cancel] at hsame
      exact moved_ne_zero d hsame
    refine notLater_add hgap.1 ?_
    have := (moved d - now).toNat_lt
    rw [UInt32.toNat_add]
    simp only [UInt32.toNat_one]
    omega
  · rw [due, moved, if_neg hzero]
    exact notLater_add hgap.1 hle

-- A wait until `p` that is counted from a later reading than it was measured at ends
-- after `p`.
theorem later_due {t now p : UInt32} (hahead : 0 < ahead p t) (htick : 0 < (now - t).toNat)
    (hsmall : (now - t).toNat < 2147483647) : ¬NotLater (due now (remaining t p)) p := by
  have hsum : now + (p - t) = p + (now - t) := by grind
  rw [remaining, if_pos hahead, due, hsum]
  generalize now - t = tick at htick hsmall
  have hp := p.toNat_lt
  unfold NotLater ahead
  rw [toNat_sub_of]
  by_cases hzero : p + tick = 0
  · have hnat := congrArg UInt32.toNat hzero
    rw [UInt32.toNat_add, UInt32.toNat_zero] at hnat
    rw [moved, if_pos hzero, UInt32.toNat_one]
    split_ifs <;> omega
  · rw [moved, if_neg hzero, UInt32.toNat_add]
    split_ifs <;> omega

theorem remaining_ne_zero (now t : UInt32) : remaining now t ≠ 0 := by
  unfold remaining
  split
  · rename_i h
    intro hzero
    simp [ahead, hzero] at h
  · decide

-- A time that has been reached is not ahead any more.
theorem not_ahead_of_reached {now t : UInt32} (h : 0 ≤ ahead now (moved t)) :
    ¬0 < ahead t now := by
  have hn := now.toNat_lt
  have ht := t.toNat_lt
  have hreached : (now - moved t).toNat < 2147483648 := by
    have hlt := (now - moved t).toNat_lt
    unfold ahead at h
    split at h <;> omega
  rw [toNat_sub_of] at hreached
  unfold ahead
  rw [toNat_sub_of]
  by_cases hzero : t = 0
  · have hzero' : t.toNat = 0 := by rw [hzero]; rfl
    rw [moved, if_pos hzero] at hreached
    simp only [UInt32.toNat_one] at hreached
    split_ifs at hreached ⊢ <;> omega
  · rw [moved, if_neg hzero] at hreached
    split_ifs at hreached ⊢ <;> omega

theorem moved_of_ne_zero {t : UInt32} (h : t ≠ 0) : moved t = t :=
  if_neg h

theorem remaining_of_reached {now t : UInt32} (ht : t ≠ 0) (h : 0 ≤ ahead now t) :
    remaining now t = 1 := by
  rw [← moved_of_ne_zero ht] at h
  exact if_neg (not_ahead_of_reached h)

theorem ahead_moved {now t : UInt32} (h : ahead now t < 0) (hnow : now ≠ 0x80000000) :
    ahead now (moved t) < 0 := by
  by_cases hzero : t = 0
  · have hn := now.toNat_lt
    have hne : now.toNat ≠ 2147483648 := fun h' => hnow (UInt32.toNat_inj.mp h')
    rw [hzero] at h ⊢
    unfold ahead at h ⊢
    rw [toNat_sub_of] at h ⊢
    simp only [moved, if_true, UInt32.toNat_one, UInt32.toNat_zero] at h ⊢
    split_ifs at h ⊢ <;> omega
  · rw [moved_of_ne_zero hzero]
    exact h

end Espos.Clock
