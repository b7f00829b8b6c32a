import Espos.Sk.Delta.Queue

namespace Espos.Sk.Delta

open Espos.Text
open Espos.Run

namespace Engine

variable {maxMsgs : Nat} {d d' : Engine maxMsgs} {q : Queued}

-- The byte counter is the sum of the lengths of the messages in the ring.
def Counted (d : Engine maxMsgs) : Prop :=
  d.bytes = totalBytes d.ring.toList

def Bounded (d : Engine maxMsgs) : Prop :=
  d.ring.count ≤ maxMsgs ∧ d.bytes ≤ d.maxBytes ∧ d.Counted

instance (d : Engine maxMsgs) : Decidable d.Bounded :=
  inferInstanceAs (Decidable (_ ∧ _ ∧ _ = _))

theorem Counted.congr (h : d.Counted) (hqueue : d.queue = d'.queue) : d'.Counted := by
  obtain ⟨hring, hbytes, _⟩ := queue_eq_iff.mp hqueue
  unfold Counted at h ⊢
  rw [← hring, ← hbytes]
  exact h

theorem Counted.bytes_of_ne_zero (h : d.Counted) (hcount : d.ring.count ≠ 0) :
    d.bytes = (d.ring.slots d.ring.head).msg.text.length + totalBytes d.ring.dropFront.toList := by
  unfold Counted at h
  rw [h, d.ring.toList_dropFront hcount, totalBytes_cons]

theorem Counted.dropOldest (h : d.Counted) (hcount : d.ring.count ≠ 0) :
    d.dropOldest.Counted := by
  have hbytes := h.bytes_of_ne_zero hcount
  simp only [Counted, Engine.dropOldest]
  omega

theorem Counted.popped (h : d.Counted) (hcount : d.ring.count ≠ 0) :
    (d.popped (d.ring.slots d.ring.head)).Counted := by
  have hbytes := h.bytes_of_ne_zero hcount
  simp only [Counted, Engine.popped]
  omega

theorem Counted.store (h : d.Counted) (hroom : d.ring.count < maxMsgs) : (d.store q).Counted := by
  simp only [Counted, Engine.store] at h ⊢
  rw [d.ring.toList_pushBack q hroom, totalBytes_append, h]
  simp [totalBytes]

theorem Counted.makeRoom (h : d.Counted) (len turns : Nat) :
    (Engine.makeRoom len turns d).Counted := by
  apply makeRoom_invariant len _ turns h
  intro e he hcount
  exact he.dropOldest hcount

theorem Counted.pushBuilt (h : d.Counted) : (Engine.pushBuilt false d q).Counted := by
  have hbuilt : d.countBuilt.Counted := h
  have hroom := hbuilt.makeRoom q.msg.text.length d.ring.count
  have hlt := d.countBuilt.makeRoom_count_lt q.msg.text.length (le_refl d.countBuilt.ring.count)
  rw [pushBuilt_false]
  simp only [pushDropping]
  split
  · exact hroom
  · exact hroom.store hlt

theorem Counted.requeue (h : d.Counted) (msg : Msg) : (d.requeue msg).Counted := by
  unfold Engine.requeue
  split
  · exact h
  · rename_i hroom
    simp only [Counted] at h ⊢
    rw [d.ring.toList_pushFront _ (by omega), totalBytes_cons, h, Nat.add_comm]

-- A message stored after the evictions fits the bytes that are left.
theorem bytes_pushBuilt_le (hcounted : d.Counted) (hmax : d.maxBytes ≠ 0)
    (h : d.bytes ≤ d.maxBytes) :
    (Engine.pushBuilt false d q).bytes ≤ (Engine.pushBuilt false d q).maxBytes := by
  have hbuilt : d.countBuilt.Counted := hcounted
  have hroom := hbuilt.makeRoom q.msg.text.length d.countBuilt.ring.count
  have hdone := d.countBuilt.makeRoom_done q.msg.text.length (le_refl d.countBuilt.ring.count)
  have hmax :
      (Engine.makeRoom q.msg.text.length d.countBuilt.ring.count d.countBuilt).maxBytes ≠ 0 := by
    rw [makeRoom_maxBytes]
    exact hmax
  have hle : (Engine.makeRoom q.msg.text.length d.countBuilt.ring.count d.countBuilt).bytes ≤
      (Engine.makeRoom q.msg.text.length d.countBuilt.ring.count d.countBuilt).maxBytes := by
    apply makeRoom_invariant (P := fun e => e.bytes ≤ e.maxBytes)
    · intro e he _
      simp only [Engine.dropOldest]
      omega
    · exact h
  rw [pushBuilt_false]
  simp only [pushDropping]
  generalize Engine.makeRoom q.msg.text.length d.countBuilt.ring.count d.countBuilt = e at *
  split
  · exact hle
  · rename_i hsmall
    simp only [Engine.store]
    rcases hdone with hzero | hfits
    · -- an emptied ring holds no bytes, and the message is no larger than it
      have hbytes : e.bytes = 0 := by
        unfold Counted at hroom
        rw [hroom, e.ring.toList_eq_nil_iff.mpr hzero]
        rfl
      omega
    · have := (exceeds_eq_false_iff.mp hfits).2
      omega

theorem maxBytes_pushBuilt : (Engine.pushBuilt false d q).maxBytes = d.maxBytes := by
  have hroom := makeRoom_maxBytes q.msg.text.length d.countBuilt.ring.count d.countBuilt
  rw [pushBuilt_false]
  simp only [pushDropping]
  split <;> exact hroom

-- What holds of an engine whatever is put back: the counter is exact, and the
-- limit is the one it was made with.
def Measured (limit : Nat) (d : Engine maxMsgs) : Prop :=
  d.Counted ∧ d.maxBytes = limit

variable {limit : Nat}

theorem Measured.congr (h : d.Measured limit) (hqueue : d.queue = d'.queue) :
    d'.Measured limit := by
  obtain ⟨_, _, _, hmax⟩ := queue_eq_iff.mp hqueue
  exact ⟨h.1.congr hqueue, hmax ▸ h.2⟩

theorem Measured.pushBuilt (h : d.Measured limit) : (Engine.pushBuilt false d q).Measured limit :=
  ⟨h.1.pushBuilt, maxBytes_pushBuilt.trans h.2⟩

theorem Measured.popped (h : d.Measured limit) (hcount : d.ring.count ≠ 0) :
    (d.popped (d.ring.slots d.ring.head)).Measured limit :=
  ⟨h.1.popped hcount, h.2⟩

theorem Measured.requeue (h : d.Measured limit) (msg : Msg) :
    (d.requeue msg).Measured limit := by
  refine ⟨h.1.requeue msg, ?_⟩
  unfold Engine.requeue
  split <;> exact h.2

end Engine

open Engine

-- A message put back into the ring fits the bytes that are left in it.
def RequeueFits {maxMsgs : Nat} (d : Engine maxMsgs) (call : Env × Op) : Prop :=
  match call.2 with
  | .requeue msg => d.ring.count < maxMsgs → d.bytes + msg.text.length ≤ d.maxBytes
  | _ => True

theorem measured_step (K : Kconfig) {maxMsgs limit : Nat} {d : Engine maxMsgs} (call : Env × Op)
    (h : d.Measured limit) : (step K d call).Measured limit := by
  apply step_invariant (P := Measured limit) _ _ _ K call _ h
  · intro e e' he hqueue
    exact he.congr hqueue
  · intro e q he
    exact he.pushBuilt
  · intro e he hcount
    exact he.popped hcount
  · intro msg _
    exact h.requeue msg

-- Every call keeps the bytes within the limit but a requeue that brings more
-- than is left.
theorem bounded_step_iff (K : Kconfig) {maxMsgs limit : Nat} (hlimit : limit ≠ 0)
    {d : Engine maxMsgs} (call : Env × Op) (hm : d.Measured limit) (h : d.Bounded) :
    (step K d call).Bounded ↔ RequeueFits d call := by
  have hnext := measured_step K call hm
  constructor
  · rintro ⟨_, hbytes, _⟩
    unfold RequeueFits
    split
    · rename_i msg hop
      intro hroom
      have hstep : step K d call = d.requeue msg := by simp only [step, hop]
      rw [hstep] at hbytes
      simpa only [requeue, show ¬ maxMsgs ≤ d.ring.count by omega, if_false] using hbytes
    · trivial
  · intro hfits
    refine ⟨Ring.count_le _, ?_, hnext.1⟩
    have hkeep : (step K d call).Measured limit ∧
        (step K d call).bytes ≤ (step K d call).maxBytes := by
      apply step_invariant (P := fun e => e.Measured limit ∧ e.bytes ≤ e.maxBytes) _ _ _ K call _
        ⟨hm, h.2.1⟩
      · intro e e' he hqueue
        obtain ⟨_, hbytes, _, hmax⟩ := queue_eq_iff.mp hqueue
        exact ⟨he.1.congr hqueue, hbytes ▸ hmax ▸ he.2⟩
      · intro e q he
        have hmax : e.maxBytes ≠ 0 := by
          rw [he.1.2]
          exact hlimit
        exact ⟨he.1.pushBuilt, bytes_pushBuilt_le he.1.1 hmax he.2⟩
      · intro e he hcount
        refine ⟨he.1.popped hcount, ?_⟩
        have hle := he.2
        simp only [popped]
        omega
      · intro msg hop
        refine ⟨hm.requeue msg, ?_⟩
        have hroom : d.ring.count < maxMsgs → d.bytes + msg.text.length ≤ d.maxBytes := by
          simpa only [RequeueFits, hop] using hfits
        unfold requeue
        split
        · exact h.2.1
        · exact hroom (by omega)
    exact hkeep.2

-- The ring keeps its bounds along a run exactly when every message put back
-- into it fits.
theorem ring_bounded_iff (K : Kconfig) (cfg : Cfg) (hlimit : 0 < cfg.maxBytes)
    (calls : List (Env × Op)) :
    Always (step K) Bounded (create cfg) calls ↔ Along (step K) RequeueFits (create cfg) calls := by
  apply always_iff_along (I := Measured cfg.maxBytes)
  · intro d call hm _
    exact measured_step K call hm
  · intro d call hm hbounded
    exact bounded_step_iff K (by omega) call hm hbounded
  · exact ⟨rfl, rfl⟩
  · exact ⟨Nat.zero_le _, Nat.zero_le _, rfl⟩

theorem ring_bounded_iff_on_failed_send :
    Always (step .default) Bounded (create (Cfg.ofRing 4 512 false))
        (failedSend (Cfg.ofRing 4 512 false)) ↔
      Along (step .default) RequeueFits (create (Cfg.ofRing 4 512 false))
        (failedSend (Cfg.ofRing 4 512 false)) :=
  ring_bounded_iff .default (Cfg.ofRing 4 512 false) (by decide) _

theorem requeue_overruns_byte_limit :
    ¬ ∀ (K : Kconfig) (cfg : Cfg), 0 < cfg.maxBytes → ∀ calls : List (Env × Op),
      Always (step K) Bounded (create cfg) calls := by
  intro h
  have hlast := (h .default (Cfg.ofRing 4 150 false) (by decide)
    (failedSend (Cfg.ofRing 4 150 false))).last
  exact absurd hlast (by decide +kernel)

end Espos.Sk.Delta
