import Espos.Flow.Delivery
import Mathlib.Order.Interval.Finset.Nat

-- Every accepted post is emitted, as long as nothing of the flow is refused or dropped.

namespace Espos.Flow

open Espos.Run

variable {T : Type*} {K : Kconfig} {d : Depth} {m : Mailbox T} {R : Nat}

namespace Mailbox

-- What a mailbox is for, in one state of a run.
structure Emits (m : Mailbox T) : Prop where
  order : m.emitted <+: m.claims
  answered : m.queued = 0 → m.pending = 0 → ∀ n ∈ m.oks, n < m.emitted.length
  empty : m.queued = 0 → m.posts = [] → m.emitted.length = m.claims.length ∧
    m.read = m.ready ∧ m.read = m.claimed ∧ ∀ v, (m.claim v).dropped = m.dropped

-- The posts make their flow posts in the order of their commits.
def InOrder (m : Mailbox T) : MailboxStep T → Prop
  | .flowPost i => ∀ p, m.posts[i]? = some p → ∀ q ∈ m.posts, q.phase = .committed → p.n ≤ q.n
  | _ => True

instance (m : Mailbox T) : (s : MailboxStep T) → Decidable (m.InOrder s)
  | .flowPost i =>
    inferInstanceAs (Decidable (∀ p ∈ m.posts[i]?, ∀ q ∈ m.posts, q.phase = .committed → p.n ≤ q.n))
  | .claim _ | .write _ | .commit _ | .runOne | .otherPost | .start | .stop => .isTrue trivial

-- The slots of the unread entries can only meet where the counters turn over
-- and the depth does not divide a turn.
theorem slotFree_of_dvd (h : m.Kept d R) (hroom : (m.claimed - m.read).toNat < m.depth)
    (hturn : d.size ∣ 2 ^ 32 ∨ m.claims.length < 2 ^ 32) : m.SlotFree := by
  have hrefused := h.claim_refused
  have hmod : ∀ n, n ≤ m.claims.length → m.slotOf n = n % d.size := by
    intro n hn
    rw [slotOf, slot, h.size, UInt32.toNat_ofNat']
    rcases hturn with hdvd | hlt
    · exact Nat.mod_mod_of_dvd n hdvd
    · rw [Nat.mod_eq_of_lt (Nat.lt_of_le_of_lt hn hlt)]
  intro n hn hlt hsame
  rw [hmod n (by omega), hmod _ (Nat.le_refl _)] at hsame
  have hzero := Nat.sub_mod_eq_zero_of_mod_eq hsame.symm
  rw [Nat.mod_eq_of_lt (by omega)] at hzero
  omega

theorem Kept.committed_of_posts_nil (h : m.Kept d R) (hposts : m.posts = []) :
    R = m.claims.length := by
  apply Nat.le_antisymm h.ready_le
  apply Nat.le_of_not_lt
  intro hlt
  have howned := h.owned R (Nat.le_refl _) hlt
  rw [hposts] at howned
  cases howned

-- The ring is left with one entry for each delivery that was lost.
theorem Kept.left (h : m.Kept d R) (hqueued : m.queued = 0) (hposts : m.posts = []) :
    m.claims.length = m.emitted.length + m.lost := by
  have hbalance := h.balance
  rw [h.committed_of_posts_nil hposts, hqueued, pending, hposts, List.countP_nil] at hbalance
  omega

theorem emits_of_kept (h : m.Kept d R) (hfilled : m.Filled) (hlost : m.lost = 0) : m.Emits := by
  constructor
  case order => exact hfilled.order
  case answered =>
    intro hqueued hpending n hn
    have hlt := h.oks n hn
    have hbalance := h.balance
    omega
  case empty =>
    intro hqueued hposts
    have hleft := h.left hqueued hposts
    rw [hlost, Nat.add_zero] at hleft
    refine ⟨hleft.symm, ?_, ?_, ?_⟩
    · rw [h.read, h.ready, h.committed_of_posts_nil hposts, hleft]
    · rw [h.read, h.claimed, hleft]
    · intro v
      have hrefused := h.claim_refused
      have hpos := d.pos
      rw [Mailbox.claim, if_neg]
      rw [hrefused]
      omega

-- A post that has answered was committed before those still to make theirs.
def Orderly (m : Mailbox T) : Prop :=
  ∀ n ∈ m.oks, ∀ p ∈ m.posts, p.phase = .committed → n < p.n

theorem orderly_set {posts : List (Post T)} {i : Nat} {p' : Post T} {oks : List Nat}
    (h : ∀ n ∈ oks, ∀ q ∈ posts, q.phase = .committed → n < q.n)
    (hnew : ∀ n ∈ oks, p'.phase = .committed → n < p'.n) :
    ∀ n ∈ oks, ∀ q ∈ posts.set i p', q.phase = .committed → n < q.n := by
  intro n hn q hq hphase
  rcases List.mem_or_eq_of_mem_set hq with hq | rfl
  · exact h n hn q hq hphase
  · exact hnew n hn hphase

theorem Orderly.step [Inhabited T] (ho : m.Orderly) (h : m.Kept d R) (s : MailboxStep T)
    (horder : m.InOrder s) : (m.step K s).Orderly := by
  cases s with
  | claim v =>
    show (m.claim v).Orderly
    rw [claim]
    split_ifs with hfull
    · exact ho
    · intro n hn p hp hphase
      rcases List.mem_append.mp hp with hp | hp
      · exact ho n hn p hp hphase
      · rw [List.mem_singleton.mp hp] at hphase
        cases hphase
  | write i =>
    show (m.write i).Orderly
    rw [write]
    cases hp : m.posts[i]? with
    | none => exact ho
    | some p =>
      dsimp only
      split_ifs with hphase
      · apply orderly_set ho
        intro n _ hcommitted
        cases hcommitted
      · exact ho
  | commit i =>
    show (m.commit i).Orderly
    rw [commit]
    cases hp : m.posts[i]? with
    | none => exact ho
    | some p =>
      dsimp only
      split_ifs with hgo
      · apply orderly_set ho
        intro n hn _
        show n < p.n
        rw [h.commit_next (List.mem_of_getElem? hp) hgo.1 hgo.2]
        exact h.oks n hn
      · exact ho
  | flowPost i =>
    show (m.flowPost K i).Orderly
    rw [flowPost]
    cases hp : m.posts[i]? with
    | none => exact ho
    | some p =>
      dsimp only
      split_ifs with hphase
      · obtain ⟨hsub, -⟩ := h.erase hp hphase
        have hrest : ∀ n ∈ m.oks, ∀ q ∈ m.posts.eraseIdx i, q.phase = .committed → n < q.n :=
          fun n hn q hq => ho n hn q (hsub q hq)
        have hperm := ((erase_perm hp).map Post.n).nodup_iff.mpr h.nodup
        have hnew : ∀ q ∈ m.posts.eraseIdx i, q.phase = .committed → p.n < q.n := by
          intro q hq hcommitted
          apply Nat.lt_of_le_of_ne (horder p hp q (hsub q hq) hcommitted)
          intro hsame
          exact (List.nodup_cons.mp hperm).1 (hsame ▸ List.mem_map_of_mem hq)
        rcases m.box_post K .deliver with
          ⟨-, queue, box, -, -, hpost⟩ | ⟨-, err, box, herr, -, hpost⟩
        · rw [hpost]
          intro n hn q hq hcommitted
          rcases List.mem_append.mp hn with hn | hn
          · exact hrest n hn q hq hcommitted
          · rw [List.mem_singleton.mp hn]
            exact hnew q hq hcommitted
        · rw [hpost]
          cases err with
          | ok => exact absurd rfl herr
          | _ => exact hrest
      · exact ho
  | runOne =>
    show m.runOne.Orderly
    rcases m.runOne_cases with ⟨box, hrun, -⟩ | ⟨queue, -, hrun⟩
    · rw [hrun]
      exact ho
    · rw [hrun, deliver]
      split_ifs <;> exact ho
  | otherPost => exact ho
  | start => exact ho
  | stop => exact ho

-- The posts still to make their flow post have numbers of their own, all above
-- that of a post that has answered.
theorem Kept.pending_le (h : m.Kept d R) (ho : m.Orderly) {n : Nat} (hn : n ∈ m.oks) :
    m.pending ≤ R - n - 1 := by
  have hnodup : ((m.posts.filter (·.phase = .committed)).map Post.n).Nodup :=
    h.nodup.sublist (List.filter_sublist.map Post.n)
  have hsub : ((m.posts.filter (·.phase = .committed)).map Post.n).toFinset ⊆ Finset.Ioo n R := by
    intro k hk
    obtain ⟨p, hp, rfl⟩ := List.mem_map.mp (List.mem_toFinset.mp hk)
    obtain ⟨hmem, hphase⟩ := List.mem_filter.mp hp
    have hphase := of_decide_eq_true hphase
    exact Finset.mem_Ioo.mpr ⟨ho n hn p hmem hphase, ((h.posts p hmem).2.2).mp hphase⟩
  have hcard := Finset.card_le_card hsub
  rwa [List.toFinset_card_of_nodup hnodup, Nat.card_Ioo, List.length_map,
    ← List.countP_eq_length_filter] at hcard

theorem emitted_of_orderly (h : m.Kept d R) (ho : m.Orderly) (hlost : m.lost = 0)
    (hqueued : m.queued = 0) : ∀ n ∈ m.oks, n < m.emitted.length := by
  intro n hn
  have hle := h.pending_le ho hn
  have hlt := h.oks n hn
  have hbalance := h.balance
  omega

end Mailbox

open Mailbox

theorem accepted_posts_emitted [Inhabited T] (K : Kconfig) (d : Depth)
    (steps : List (MailboxStep T)) :
    (Along (Mailbox.step K) (Fits K) (init d.size) steps →
      Always (Mailbox.step K) Emits (init d.size) steps) ∧
    (Along (Mailbox.step K) (Fits K) (init d.size) steps →
      Along (Mailbox.step K) InOrder (init d.size) steps →
      Always (Mailbox.step K) (fun m => m.queued = 0 → ∀ n ∈ m.oks, n < m.emitted.length)
        (init d.size) steps) ∧
    Always (Mailbox.step K)
      (fun m => m.queued = 0 → m.posts = [] → m.claims.length = m.emitted.length + m.lost)
      (init d.size) steps := by
  refine ⟨?_, ?_, ?_⟩
  · intro hfits
    have halways : Always (Mailbox.step K) (fun m => (∃ R, m.Kept d R) ∧ m.Filled ∧ m.lost = 0)
        (init d.size) steps :=
      always_of_along
        (fun m s hm hs => by
          obtain ⟨⟨R, hkept⟩, hfilled, hlost⟩ := hm
          exact ⟨hkept.step s, hfilled.step hkept s hs, (lost_step s hs).trans hlost⟩)
        ⟨⟨0, init_kept d⟩, init_filled d, rfl⟩ hfits
    apply halways.imp
    intro m hm
    obtain ⟨⟨R, hkept⟩, hfilled, hlost⟩ := hm
    exact emits_of_kept hkept hfilled hlost
  · intro hfits horder
    have halways : Always (Mailbox.step K) (fun m => (∃ R, m.Kept d R) ∧ m.Orderly ∧ m.lost = 0)
        (init d.size) steps :=
      always_of_along
        (fun m s hm hs => by
          obtain ⟨⟨R, hkept⟩, ho, hlost⟩ := hm
          exact ⟨hkept.step s, ho.step hkept s hs.2, (lost_step s hs.1).trans hlost⟩)
        ⟨⟨0, init_kept d⟩, nofun, rfl⟩ (along_and hfits horder)
    apply halways.imp
    intro m hm
    obtain ⟨⟨R, hkept⟩, ho, hlost⟩ := hm
    exact emitted_of_orderly hkept ho hlost
  · have halways : Always (Mailbox.step K) (fun m => ∃ R, m.Kept d R) (init d.size) steps :=
      always_of_along (C := fun _ _ => True)
        (fun m s hm _ => by
          obtain ⟨R, hkept⟩ := hm
          exact hkept.step s)
        ⟨0, init_kept d⟩ (along_of_forall fun s _ => trivial)
    apply halways.imp
    intro m hm hqueued hposts
    obtain ⟨R, hkept⟩ := hm
    exact hkept.left hqueued hposts

-- Three posts at a time, with the loop up: the second one is written before the
-- first, and the third is claimed while both wait for their deliveries.
def threePosts : List (MailboxStep Nat) :=
  [.start, .claim 7, .claim 8, .write 1, .write 0, .commit 0, .commit 1, .claim 9, .flowPost 0,
    .write 1, .flowPost 0, .commit 0, .runOne, .flowPost 0, .runOne, .runOne]

def fourSlots : Depth :=
  ⟨4, by decide, by decide⟩

theorem accepted_posts_emitted_threePosts :
    (run (Mailbox.step .default) (init 4) threePosts).emitted = [7, 8, 9] ∧
      Always (Mailbox.step .default) Emits (init 4) threePosts ∧
      Always (Mailbox.step .default) (fun m => m.queued = 0 → ∀ n ∈ m.oks, n < m.emitted.length)
        (init 4) threePosts := by
  have hfits : Along (Mailbox.step .default) (Fits .default) (init 4) threePosts := by
    decide
  have horder : Along (Mailbox.step .default) InOrder (init 4) threePosts := by
    decide
  obtain ⟨hemits, hstrict, -⟩ := accepted_posts_emitted .default fourSlots threePosts
  exact ⟨by decide, hemits hfits, hstrict hfits horder⟩

-- A value is posted before the loop is started: it stays in the ring, and from
-- then on each delivery emits the value before its own.
def postBeforeStart : List (MailboxStep Nat) :=
  [.claim 6, .write 0, .commit 0, .flowPost 0, .start,
    .claim 7, .write 0, .commit 0, .flowPost 0, .runOne]

theorem answered_post_not_emitted :
    let m := run (Mailbox.step .default) (init 1) (postBeforeStart.take 5)
    let m' := run (Mailbox.step .default) (init 2) postBeforeStart
    (m.queued = 0 ∧ m.posts = [] ∧ (m.claim 7).dropped = m.dropped + 1) ∧
      m'.queued = 0 ∧ m'.posts = [] ∧ m'.oks = [1] ∧ m'.emitted = [6] ∧
      ¬∀ steps : List (MailboxStep Nat),
        Always (Mailbox.step .default) Emits (init 2) steps := by
  refine ⟨by decide, by decide, by decide, by decide, by decide, ?_⟩
  intro h
  have hlast := (h postBeforeStart).last
  exact absurd (hlast.answered (by decide) (by decide) 1 (by decide)) (by decide)

end Espos.Flow
