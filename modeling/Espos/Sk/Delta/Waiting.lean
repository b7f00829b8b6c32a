import Espos.Sk.Delta.Queue

-- How long the sender may wait, and that there is something to do when it may not.

namespace Espos.Sk.Delta

open Espos.Text
open Espos.Run

-- What is left of the time until `due`; `(int32_t)(due - now)` where that is positive.
def leftUntil (due now : UInt32) : UInt32 :=
  if (due - now).toNat < 2 ^ 31 then due - now else 0

-- Half the range of the counter after `due`: neither before it nor past it.
def halfPast (now due : UInt32) : Prop :=
  (now - due).toNat = 2 ^ 31

instance (now due : UInt32) : Decidable (halfPast now due) :=
  inferInstanceAs (Decidable (_ = _))

theorem not_reached_of_halfPast {now due : UInt32} (h : halfPast now due) :
    reached now due = false := by
  unfold halfPast at h
  simp [reached, h]

theorem leftUntil_eq_zero_iff {due now : UInt32} :
    leftUntil due now = 0 ↔ reached now due = true ∨ halfPast now due := by
  have hsub : (due - now).toNat = (2 ^ 32 - now.toNat + due.toNat) % 2 ^ 32 :=
    UInt32.toNat_sub due now
  have hback : (now - due).toNat = (2 ^ 32 - due.toNat + now.toNat) % 2 ^ 32 :=
    UInt32.toNat_sub now due
  have hnow := now.toNat_lt
  have hdue := due.toNat_lt
  simp only [reached, halfPast, decide_eq_true_iff]
  unfold leftUntil
  by_cases hleft : (due - now).toNat < 2 ^ 31
  · rw [if_pos hleft, ← UInt32.toNat_inj, hsub, hback]
    rw [hsub] at hleft
    simp only [UInt32.toNat_zero]
    omega
  · rw [if_neg hleft, hback]
    rw [hsub] at hleft
    simp only [true_iff]
    omega

namespace Engine

variable {maxMsgs : Nat} (d : Engine maxMsgs)

-- The ring is at one of its limits, whatever the window would need.
def ringFull : Bool :=
  decide (maxMsgs ≤ d.ring.count) || decide (d.maxBytes ≠ 0) && decide (d.maxBytes ≤ d.bytes)

-- A window that a full ring cannot take yet is not due on every tick.
def windowWait (now : UInt32) : UInt32 :=
  let left := leftUntil (d.pendingSinceMs + d.batchMs) now
  if left = 0 ∧ (d.noDrop && d.ringFull) = true then (if d.batchMs ≠ 0 then d.batchMs else 100)
  else left

def drainWait (now : UInt32) : UInt32 :=
  if d.backlog && decide (d.st.taken ≠ 0) then leftUntil (d.lastTakeMs + 1000 / d.drainPerS) now
  else 0

def nextDueMs (now : UInt32) (connected : Bool) : UInt32 :=
  let due := if d.pending ≠ [] then d.windowWait now else 0xFFFFFFFF
  if connected && decide (0 < d.ring.count) && decide (d.drainWait now < due) then d.drainWait now
  else due

def Progresses (env : Env) (connected : Bool) : Prop :=
  (d.take env connected).2.isSome ∨ (d.pending ≠ [] ∧ (d.take env connected).1.pending = [])

instance (env : Env) (connected : Bool) : Decidable (d.Progresses env connected) :=
  inferInstanceAs (Decidable (_ ∨ _))

-- The window's messages fit the ring, but not now.
def held (env : Env) : Bool :=
  d.noDrop && d.fitsEmpty (d.messages env) &&
    d.exceeds (d.messages env).length (totalBytes (d.messages env))

-- The link and the drain rate let a message go now.
def sends (now : UInt32) (connected : Bool) : Bool :=
  connected && decide (0 < d.ring.count) && !(d.backlog && d.tooSoon now)

-- Nothing can be sent, and the window that is due does not fit a ring that still is under
-- both limits; or one of the two times is half the counter's range ago.
def Spins (env : Env) (connected : Bool) : Prop :=
  d.sends env.now connected = false ∧ d.pending ≠ [] ∧ (d.noDrop && d.ringFull) = false ∧
      (d.batchDue env.now = true ∧ d.held env = true ∨
        halfPast env.now (d.pendingSinceMs + d.batchMs)) ∨
    (d.batchDue env.now && !d.held env) = false ∧ connected = true ∧ 0 < d.ring.count ∧
      d.backlog = true ∧ d.st.taken ≠ 0 ∧
        halfPast env.now (d.lastTakeMs + 1000 / d.drainPerS)

instance (env : Env) (connected : Bool) : Decidable (d.Spins env connected) :=
  inferInstanceAs (Decidable (_ ∨ _))

variable {d}

theorem windowWait_eq_zero_iff {now : UInt32} :
    d.windowWait now = 0 ↔ leftUntil (d.pendingSinceMs + d.batchMs) now = 0 ∧
      (d.noDrop && d.ringFull) = false := by
  unfold windowWait
  cases hfull : d.noDrop && d.ringFull with
  | false => simp
  | true =>
    simp only [and_true, Bool.true_eq_false, and_false, iff_false]
    by_cases hleft : leftUntil (d.pendingSinceMs + d.batchMs) now = 0
    · rw [if_pos hleft]
      by_cases hbatch : d.batchMs ≠ 0
      · rwa [if_pos hbatch]
      · rw [if_neg hbatch]
        decide
    · rwa [if_neg hleft]

theorem drainWait_eq_zero_iff {now : UInt32} :
    d.drainWait now = 0 ↔ (d.backlog && d.tooSoon now) = false ∨
      d.backlog = true ∧ d.st.taken ≠ 0 ∧ halfPast now (d.lastTakeMs + 1000 / d.drainPerS) := by
  unfold drainWait tooSoon
  cases hbacklog : d.backlog with
  | false => simp
  | true =>
    by_cases htaken : d.st.taken = 0
    · simp [htaken]
    · simp [htaken, leftUntil_eq_zero_iff]

theorem nextDueMs_eq_zero_iff {now : UInt32} {connected : Bool} :
    d.nextDueMs now connected = 0 ↔ d.pending ≠ [] ∧ d.windowWait now = 0 ∨
      connected = true ∧ 0 < d.ring.count ∧ d.drainWait now = 0 := by
  have hlt : ∀ x y : UInt32, x = 0 → y ≠ 0 → x < y := by
    rintro x y rfl hy
    exact UInt32.pos_iff_ne_zero.mpr hy
  unfold nextDueMs
  generalize hdue : (if d.pending ≠ [] then d.windowWait now else 0xFFFFFFFF) = due
  have hzero : due = 0 ↔ d.pending ≠ [] ∧ d.windowWait now = 0 := by
    rw [← hdue]
    by_cases hopen : d.pending ≠ []
    · rw [if_pos hopen]
      exact ⟨fun h => ⟨hopen, h⟩, And.right⟩
    · rw [if_neg hopen]
      exact ⟨fun h => absurd h (by decide), fun h => absurd h.1 hopen⟩
  rw [← hzero]
  by_cases hready : connected = true ∧ 0 < d.ring.count
  · simp only [hready.1, hready.2, decide_true, Bool.and_self, Bool.true_and, decide_eq_true_iff,
      true_and]
    by_cases hless : d.drainWait now < due
    · rw [if_pos hless]
      refine ⟨.inr, fun h => h.elim (fun hd => ?_) id⟩
      rw [hd] at hless
      exact absurd hless (UInt32.not_lt_zero)
    · rw [if_neg hless]
      refine ⟨.inl, fun h => h.elim id fun hw => ?_⟩
      by_contra hne
      exact hless (hlt _ _ hw hne)
  · have hoff : (connected && decide (0 < d.ring.count)) = false := by
      cases hconnected : connected with
      | false => rfl
      | true => simpa [hconnected] using hready
    simp only [hoff, Bool.false_and]
    exact ⟨.inl, fun h => h.elim id fun hw => absurd ⟨hw.1, hw.2.1⟩ hready⟩

theorem handOut_open (d : Engine maxMsgs) (env : Env) (h : 0 < d.ring.count) :
    (d.handOut env).2.isSome = true ∧ (d.handOut env).1.pending = d.pending := by
  simp only [handOut, ringPop_of_count_ne_zero h.ne']
  by_cases hdated : (d.ring.slots d.ring.head).stampAt = 0
  · rw [if_pos hdated]
    exact ⟨rfl, rfl⟩
  · rw [if_neg hdated]
    generalize stamp _ env _ _ _ = stamped
    cases stamped <;> exact ⟨rfl, rfl⟩

theorem send_spec (env : Env) (connected : Bool) :
    (d.send env connected).2.isSome = d.sends env.now connected ∧
      (d.send env connected).1.pending = d.pending := by
  unfold send sends
  by_cases hcount : d.ring.count = 0
  · simp [hcount, setDraining]
  · have hready : 0 < d.ring.count := Nat.pos_of_ne_zero hcount
    cases connected with
    | false => simp [setDraining]
    | true =>
      cases hsoon : d.backlog && d.tooSoon env.now with
      | true => simp [hcount]
      | false =>
        obtain ⟨hsome, hpending⟩ :=
          (d.setDraining (d.backlog && decide (1 < d.ring.count))).handOut_open env hready
        simp only [Bool.not_true, hcount, decide_false, Bool.or_self, Bool.false_eq_true,
          if_false, Bool.and_self, hready, decide_true, Bool.not_false]
        exact ⟨hsome, hpending⟩

theorem closeDue_cases (env : Env) :
    (d.batchDue env.now && !d.held env) = true ∧ (d.closeDue env).pending = [] ∨
      (d.batchDue env.now && !d.held env) = false ∧ d.closeDue env = d := by
  unfold closeDue
  cases hdue : d.batchDue env.now with
  | false => exact .inr ⟨rfl, rfl⟩
  | true =>
    have hopen : d.pending ≠ [] := by
      intro hnil
      simp [batchDue, hnil] at hdue
    simp only [if_true, Bool.true_and]
    cases hheld : d.held env with
    | true =>
      right
      refine ⟨rfl, ?_⟩
      unfold held at hheld
      simp [flushWindow, hopen, hheld]
    | false =>
      left
      refine ⟨rfl, ?_⟩
      unfold held at hheld
      simp [flushWindow, hopen, hheld, clearWindow]

theorem progresses_iff {env : Env} {connected : Bool} :
    d.Progresses env connected ↔
      (d.batchDue env.now && !d.held env) = true ∨ d.sends env.now connected = true := by
  unfold Progresses take
  obtain ⟨hsome, hpending⟩ := send_spec (d := d.closeDue env) env connected
  rw [hpending]
  rcases d.closeDue_cases env with ⟨hcloses, hclosed⟩ | ⟨hcloses, hsame⟩
  · have hopen : d.pending ≠ [] := by
      intro hnil
      simp [batchDue, hnil] at hcloses
    simp [hcloses, hclosed, hopen]
  · rw [hsome, hsame, hcloses]
    simp

-- What the wait says is what taking does, but where the engine spins.
theorem due_progresses_iff (d : Engine maxMsgs) (env : Env) (connected : Bool) :
    (d.nextDueMs env.now connected = 0 → d.Progresses env connected) ↔
      ¬ d.Spins env connected := by
  rw [nextDueMs_eq_zero_iff, windowWait_eq_zero_iff, drainWait_eq_zero_iff, leftUntil_eq_zero_iff,
    progresses_iff]
  constructor
  · rintro hgoes (⟨hsends, hopen, hfull, hway⟩ | ⟨hcloses, hlink, hcount, hbacklog, htaken, hhalf⟩)
    · rcases hway with ⟨hdue, hheld⟩ | hhalf
      · have hpast : reached env.now (d.pendingSinceMs + d.batchMs) = true := by
          simp only [batchDue, Bool.and_eq_true] at hdue
          exact hdue.2
        have hnext := hgoes (.inl ⟨hopen, .inl hpast, hfull⟩)
        simp [hdue, hheld, hsends] at hnext
      · have hnot : d.batchDue env.now = false := by
          simp [batchDue, not_reached_of_halfPast hhalf]
        have hnext := hgoes (.inl ⟨hopen, .inr hhalf, hfull⟩)
        simp [hnot, hsends] at hnext
    · have hsoon : d.tooSoon env.now = true := by
        simp [tooSoon, htaken, not_reached_of_halfPast hhalf]
      have hnext := hgoes (.inr ⟨hlink, hcount, .inr ⟨hbacklog, htaken, hhalf⟩⟩)
      simp [hcloses, sends, hbacklog, hsoon] at hnext
  · intro hspins hzero
    by_contra hstuck
    simp only [not_or, Bool.not_eq_true] at hstuck
    obtain ⟨hcloses, hsends⟩ := hstuck
    apply hspins
    rcases hzero with ⟨hopen, hleft, hfull⟩ | ⟨hlink, hcount, hrate⟩
    · refine .inl ⟨hsends, hopen, hfull, hleft.imp_left fun hpast => ?_⟩
      have hdue : d.batchDue env.now = true := by simp [batchDue, hopen, hpast]
      refine ⟨hdue, ?_⟩
      simpa [hdue] using hcloses
    · rcases hrate with hfree | ⟨hbacklog, htaken, hhalf⟩
      · simp [sends, hlink, hcount, hfree] at hsends
      · exact .inr ⟨hcloses, hlink, hcount, hbacklog, htaken, hhalf⟩

-- A window of two contexts beside a ring that has room for one message, and no link.
def heldWindow : List (Env × Op) :=
  let env := Env.clockless 0
  [(env, .publishAt none (lit "a") (lit "1") 0), (env, .flush),
    (env, .publishAt (some (lit "b")) (lit "a") (lit "1") 0),
    (env, .publishAt (some (lit "c")) (lit "a") (lit "1") 0)]

theorem spins_on_held_window :
    ¬ ∀ (K : Kconfig) (cfg : Cfg) (calls : List (Env × Op)) (env : Env) (connected : Bool),
      (run (step K) (create cfg) calls).nextDueMs env.now connected = 0 →
        (run (step K) (create cfg) calls).Progresses env connected := by
  intro h
  have hnext := h .default (Cfg.ofRing 2 0 true) heldWindow (Env.clockless 100) false
    (by decide +kernel)
  exact absurd hnext (by decide +kernel)

end Engine

end Espos.Sk.Delta
