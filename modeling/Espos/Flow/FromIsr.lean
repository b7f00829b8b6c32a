import Espos.Flow.Posted

-- A post from an interrupt. What it has interrupted does not go on before it ends.

namespace Espos.Flow

open Espos.Run

variable {T : Type*} {K : Kconfig} {d : Depth} {m : Mailbox T} {v : T} {spurious : Nat → Bool}

-- Where the interrupt is. `i` is its post among those under way.
inductive Isr where
  | load
  | exchange (c : UInt32)
  | write (i : Nat) (seq : UInt32)
  | commit (i : Nat) (seq : UInt32)
  | flowPost (i : Nat)
  | done (err : EspErr)
deriving DecidableEq

-- A weak exchange may also fail for no reason.
def isrStep (K : Kconfig) (v : T) (spurious : Bool) : Mailbox T × Isr → Mailbox T × Isr
  | (m, .load) => (m, .exchange m.claimed)
  | (m, .exchange c) =>
    if m.depth ≤ (c - m.read).toNat then ({ m with dropped := m.dropped + 1 }, .done .noMem)
    else if m.claimed = c ∧ spurious = false then (m.claim v, .write m.posts.length c)
    else (m, .exchange m.claimed)
  | (m, .write i seq) => (m.write i, .commit i seq)
  | (m, .commit i seq) =>
    if m.ready = seq ∧ spurious = false then (m.commit i, .flowPost i) else (m, .commit i seq)
  | (m, .flowPost i) => (m.flowPost K i, .done (m.box.post K (some .deliver)).1)
  | (m, .done err) => (m, .done err)

-- The interrupt alone, after `n` of its steps.
def isrRun (K : Kconfig) (v : T) (spurious : Nat → Bool) (m : Mailbox T) : Nat → Mailbox T × Isr
  | 0 => (m, .load)
  | n + 1 => isrStep K v (spurious n) (isrRun K v spurious m n)

namespace Mailbox

-- Where only a spurious failure holds the interrupt up, it goes on.
theorem isrRun_waits (hfair : ∀ n, ∃ k, n ≤ k ∧ spurious k = false) {x : Mailbox T × Isr}
    (hstay : isrStep K v true x = x) {n : Nat} (hn : isrRun K v spurious m n = x) :
    ∃ k, isrRun K v spurious m (k + 1) = isrStep K v false x := by
  have hfirst := Nat.find_spec (hfair n)
  have hleast := fun k => Nat.find_min (hfair n) (m := k)
  refine ⟨Nat.find (hfair n), ?_⟩
  generalize Nat.find (hfair n) = k at hfirst hleast
  have hsame : ∀ j, n ≤ j → j ≤ k → isrRun K v spurious m j = x := by
    intro j hj
    induction j, hj using Nat.le_induction with
    | base => exact fun _ => hn
    | succ j hj ih =>
      intro hle
      have hspurious : spurious j = true := by
        cases hcase : spurious j with
        | true => rfl
        | false => exact absurd ⟨hj, hcase⟩ (hleast j hle)
      rw [isrRun, ih (Nat.le_of_succ_le hle), hspurious, hstay]
  rw [isrRun, hsame k hfirst.1 (Nat.le_refl k), hfirst.2]

theorem claim_of_room (hroom : ¬ m.depth ≤ (m.claimed - m.read).toNat) :
    m.claim v = { m with
      claimed := m.claimed + 1
      posts := m.posts ++ [⟨v, m.claimed, .claimed, m.claims.length⟩]
      claims := m.claims ++ [v] } :=
  if_neg hroom

@[simp] theorem write_ready (m : Mailbox T) (i : Nat) : (m.write i).ready = m.ready := by
  rw [write]
  cases m.posts[i]? with
  | none => rfl
  | some p =>
    dsimp only
    split_ifs <;> rfl

theorem isr_ends_of_full (hfull : m.depth ≤ (m.claimed - m.read).toNat) :
    (isrRun K v spurious m 2).2 = .done .noMem := by
  rw [isrRun, isrRun, isrRun, isrStep, isrStep, if_pos hfull]

theorem isr_ends_of_ready (hfair : ∀ n, ∃ k, n ≤ k ∧ spurious k = false)
    (hroom : ¬ m.depth ≤ (m.claimed - m.read).toNat) (hready : m.ready = m.claimed) :
    ∃ n err, (isrRun K v spurious m n).2 = .done err := by
  have hload : isrRun K v spurious m 1 = (m, .exchange m.claimed) := rfl
  have hstay : isrStep K v true (m, .exchange m.claimed) = (m, .exchange m.claimed) := by
    rw [isrStep, if_neg hroom, if_neg (by simp)]
  obtain ⟨k, hclaim⟩ := isrRun_waits hfair hstay hload
  rw [isrStep, if_neg hroom, if_pos ⟨rfl, rfl⟩] at hclaim
  have hready' : ((m.claim v).write m.posts.length).ready = m.claimed := by
    rw [write_ready, claim_of_room hroom]
    exact hready
  have hwrite : isrRun K v spurious m (k + 2) =
      ((m.claim v).write m.posts.length, .commit m.posts.length m.claimed) := by
    rw [isrRun, hclaim, isrStep]
  have hstay' : isrStep K v true
      ((m.claim v).write m.posts.length, .commit m.posts.length m.claimed) =
      ((m.claim v).write m.posts.length, .commit m.posts.length m.claimed) := by
    rw [isrStep, if_neg (by simp)]
  obtain ⟨l, hcommit⟩ := isrRun_waits hfair hstay' hwrite
  rw [isrStep, if_pos ⟨hready', rfl⟩] at hcommit
  exact ⟨l + 2, _, by rw [isrRun, hcommit, isrStep]⟩

-- A predecessor that does not commit is waited for without end.
theorem isr_spins (hroom : ¬ m.depth ≤ (m.claimed - m.read).toNat) (hready : m.ready ≠ m.claimed)
    (n : Nat) :
    let x := isrRun K v spurious m n
    x.1 = m ∧ (x.2 = .load ∨ x.2 = .exchange m.claimed) ∨ x.1.ready = m.ready ∧
      ∃ i, x.2 = .write i m.claimed ∨ x.2 = .commit i m.claimed := by
  induction n with
  | zero => exact .inl ⟨rfl, .inl rfl⟩
  | succ n ih =>
    rw [isrRun]
    generalize isrRun K v spurious m n = x at ih
    obtain ⟨m', at'⟩ := x
    dsimp only at ih
    rcases ih with ⟨rfl, rfl | rfl⟩ | ⟨hsame, i, rfl | rfl⟩
    · exact .inl ⟨rfl, .inr rfl⟩
    · rw [isrStep, if_neg hroom]
      by_cases hclaim : m'.claimed = m'.claimed ∧ spurious n = false
      · rw [if_pos hclaim, claim_of_room hroom]
        exact .inr ⟨rfl, _, .inl rfl⟩
      · rw [if_neg hclaim]
        exact .inl ⟨rfl, .inr rfl⟩
    · exact .inr ⟨(write_ready m' i).trans hsame, i, .inr rfl⟩
    · rw [isrStep, if_neg (by rw [hsame]; exact fun h => hready h.1)]
      exact .inr ⟨hsame, i, .inr rfl⟩

theorem isr_ends_iff (hfair : ∀ n, ∃ k, n ≤ k ∧ spurious k = false) :
    (∃ n err, (isrRun K v spurious m n).2 = .done err) ↔
      m.depth ≤ (m.claimed - m.read).toNat ∨ m.ready = m.claimed := by
  constructor
  · rintro ⟨n, err, hdone⟩
    by_contra hnot
    obtain ⟨hroom, hready⟩ := not_or.mp hnot
    rcases @isr_spins T K m v spurious hroom hready n with ⟨-, h | h⟩ | ⟨-, i, h | h⟩ <;>
      rw [h] at hdone <;> cases hdone
  · intro h
    by_cases hfull : m.depth ≤ (m.claimed - m.read).toNat
    · exact ⟨2, .noMem, isr_ends_of_full hfull⟩
    · exact isr_ends_of_ready hfair hfull (h.resolve_left hfull)

-- All claims are committed exactly when no post stands between the two.
theorem Kept.ready_eq_iff {R : Nat} (h : m.Kept d R) :
    m.ready = m.claimed ↔ ∀ p ∈ m.posts, p.phase = .committed := by
  have hnear := h.near
  have hle := h.emitted_le
  have hready := h.ready_le
  constructor
  · intro heq p hp
    obtain ⟨-, hclaim, hphase⟩ := h.posts p hp
    rw [h.ready, h.claimed] at heq
    have hall : R = m.claims.length := ofNat_inj_of_near (by omega) (by omega) heq
    have hlt := (List.getElem?_eq_some_iff.mp hclaim).1
    exact hphase.mpr (by omega)
  · intro hall
    have hR : R = m.claims.length := by
      by_contra hne
      obtain ⟨p, hp, hpn⟩ := List.mem_map.mp (h.owned R (Nat.le_refl R) (by omega))
      have hlt := (h.posts p hp).2.2.mp (hall p hp)
      omega
    rw [h.ready, h.claimed, hR]

end Mailbox

open Mailbox

-- The interrupt comes to its end where its claim is refused, or where it has
-- interrupted no post between claim and commit.
theorem post_from_isr_ends_iff [Inhabited T] (K : Kconfig) (d : Depth)
    (steps : List (MailboxStep T)) (v : T) (spurious : Nat → Bool)
    (hfair : ∀ n, ∃ k, n ≤ k ∧ spurious k = false) :
    let m := run (Mailbox.step K) (init d.size) steps
    (∃ n err, (isrRun K v spurious m n).2 = .done err) ↔
      m.depth ≤ (m.claimed - m.read).toNat ∨ ∀ p ∈ m.posts, p.phase = .committed := by
  intro m
  obtain ⟨R, hkept⟩ : ∃ R, m.Kept d R :=
    run_invariant (P := fun m : Mailbox T => ∃ R, m.Kept d R) (fun _ s ⟨_, h⟩ => h.step s)
      ⟨0, init_kept d⟩ steps
  rw [isr_ends_iff hfair, hkept.ready_eq_iff]

def twoSlots : Depth :=
  ⟨2, by decide, by decide⟩

-- A task is interrupted behind its commit, or with two claims that fill the ring; or
-- behind a first claim.
theorem post_from_isr_ends_committed :
    let spurious := fun n => decide (n % 3 = 1)
    let ends := fun steps : List (MailboxStep Nat) =>
      ∃ n err, (isrRun .default 7 spurious (run (Mailbox.step .default) (init 2) steps) n).2 =
        .done err
    ends [.start, .claim 1, .write 0, .commit 0] ∧ ends [.start, .claim 1, .claim 2] ∧
      ¬ ends [.start, .claim 1, .write 0] := by
  intro spurious ends
  have hfair : ∀ n, ∃ k, n ≤ k ∧ spurious k = false := by
    intro n
    exact ⟨3 * n, by omega, by simp [spurious]⟩
  refine ⟨?_, ?_, fun hends => ?_⟩
  · exact (post_from_isr_ends_iff .default twoSlots _ 7 spurious hfair).mpr (.inr (by decide))
  · exact (post_from_isr_ends_iff .default twoSlots _ 7 spurious hfair).mpr (.inl (by decide))
  · have hstate := (post_from_isr_ends_iff .default twoSlots _ 7 spurious hfair).mp hends
    exact absurd hstate (by decide)

-- A task is interrupted right behind its claim.
theorem isr_never_ends :
    ¬ ∃ n err, (isrRun .default 7 (fun _ => false)
      (run (Mailbox.step .default) (init 2) [.start, .claim 1]) n).2 = .done err := by
  rintro ⟨n, err, hdone⟩
  have hspins := @isr_spins Nat .default (run (Mailbox.step .default) (init 2) [.start, .claim 1]) 7
    (fun _ => false) (by decide) (by decide) n
  rcases hspins with ⟨-, h | h⟩ | ⟨-, i, h | h⟩ <;> rw [h] at hdone <;> cases hdone

end Espos.Flow
