import Mathlib.Algebra.Order.Ring.Nat
import Mathlib.Data.List.Nodup
import Mathlib.Data.List.Perm.Basic
import Mathlib.Tactic.SplitIfs
import Espos.Flow.Loop
import Espos.Lib.Run

-- `Mailbox` of `nodes.hpp`: a ring under three sequence numbers that any number
-- of tasks and interrupts post into. A post is four steps; a delivery, which
-- runs on the loop task, is one.

namespace Espos.Flow

-- What waits in the flow's own mailbox: a delivery of this ring, or somebody
-- else's work.
inductive Work where
  | deliver
  | other
deriving DecidableEq

inductive Phase where
  | claimed
  | written
  | committed
deriving DecidableEq

-- A post that is under way. `n` is the number of its claim (history only).
structure Post (T : Type*) where
  value : T
  seq : UInt32
  phase : Phase
  n : Nat
deriving DecidableEq

-- Below the counters of the class: the posts under way, the flow's mailbox, and
-- history only: the values claimed for, the claims whose post has answered
-- ESP_OK, the values emitted, and how many deliveries were refused or dropped.
structure Mailbox (T : Type*) where
  ring : List T
  claimed : UInt32
  ready : UInt32
  read : UInt32
  dropped : UInt32
  posts : List (Post T)
  box : Box Work
  claims : List T
  oks : List Nat
  emitted : List T
  lost : Nat
deriving DecidableEq

variable {T : Type*}

namespace Mailbox

def init [Inhabited T] (depth : Nat) : Mailbox T where
  ring := List.replicate depth default
  claimed := 0
  ready := 0
  read := 0
  dropped := 0
  posts := []
  box := ⟨none, 0, 0⟩
  claims := []
  oks := []
  emitted := []
  lost := 0

def depth (m : Mailbox T) : Nat :=
  m.ring.length

def slot (m : Mailbox T) (seq : UInt32) : Nat :=
  seq.toNat % m.depth

-- A refused claim ends the post with ESP_ERR_NO_MEM.
def claim (m : Mailbox T) (v : T) : Mailbox T :=
  if m.depth ≤ (m.claimed - m.read).toNat then { m with dropped := m.dropped + 1 }
  else
    { m with
      claimed := m.claimed + 1
      posts := m.posts ++ [⟨v, m.claimed, .claimed, m.claims.length⟩]
      claims := m.claims ++ [v] }

def write (m : Mailbox T) (i : Nat) : Mailbox T :=
  match m.posts[i]? with
  | some p =>
    if p.phase = .claimed then
      { m with
        ring := m.ring.set (m.slot p.seq) p.value
        posts := m.posts.set i { p with phase := .written } }
    else m
  | none => m

-- The exchange succeeds once every predecessor has committed.
def commit (m : Mailbox T) (i : Nat) : Mailbox T :=
  match m.posts[i]? with
  | some p =>
    if p.phase = .written ∧ m.ready = p.seq then
      { m with ready := p.seq + 1, posts := m.posts.set i { p with phase := .committed } }
    else m
  | none => m

def flowPost (K : Kconfig) (m : Mailbox T) (i : Nat) : Mailbox T :=
  match m.posts[i]? with
  | some p =>
    if p.phase = .committed then
      match m.box.post K (some .deliver) with
      | (.ok, box) => { m with box := box, posts := m.posts.eraseIdx i, oks := m.oks ++ [p.n] }
      | (_, box) => { m with box := box, posts := m.posts.eraseIdx i, lost := m.lost + 1 }
    else m
  | none => m

def deliver [Inhabited T] (m : Mailbox T) : Mailbox T :=
  if m.read = m.ready then m
  else
    { m with
      read := m.read + 1
      emitted := m.emitted ++ [m.ring.getD (m.slot m.read) default] }

-- The loop task takes one message out of its mailbox and runs it.
def runOne [Inhabited T] (m : Mailbox T) : Mailbox T :=
  match m.box.mailbox with
  | some (some .deliver :: queue) =>
    deliver { m with box := { m.box with mailbox := some queue } }
  | some (_ :: queue) => { m with box := { m.box with mailbox := some queue } }
  | _ => m

def queued (m : Mailbox T) : Nat :=
  (m.box.mailbox.getD []).count (some .deliver)

-- A post whose delivery is still to be queued.
def pending (m : Mailbox T) : Nat :=
  m.posts.countP (·.phase = .committed)

end Mailbox

inductive MailboxStep (T : Type*) where
  | claim (v : T)
  | write (i : Nat)
  | commit (i : Nat)
  | flowPost (i : Nat)
  | runOne
  | otherPost
  | start
  | stop

namespace Mailbox

def step [Inhabited T] (K : Kconfig) (m : Mailbox T) : MailboxStep T → Mailbox T
  | .claim v => m.claim v
  | .write i => m.write i
  | .commit i => m.commit i
  | .flowPost i => m.flowPost K i
  | .runOne => m.runOne
  | .otherPost => { m with box := (m.box.post K (some .other)).2 }
  | .start => { m with box := m.box.start }
  | .stop => { m with box := m.box.stop, lost := m.lost + m.queued }

end Mailbox

end Espos.Flow

-- What becomes of the values that are posted into a mailbox.

namespace Espos.Flow

open Espos.Run

-- `Depth`: at least one slot, and a `size_t` of 32 bits.
structure Depth where
  size : Nat
  pos : 1 ≤ size
  fits : size < 2 ^ 32

variable {T : Type*} {K : Kconfig} {d : Depth} {m : Mailbox T}

namespace Mailbox

-- What holds whatever is refused or dropped. `R` is the number of claims
-- that are committed.
structure Kept (d : Depth) (m : Mailbox T) (R : Nat) : Prop where
  size : m.depth = d.size
  claimed : m.claimed = UInt32.ofNat m.claims.length
  ready : m.ready = UInt32.ofNat R
  read : m.read = UInt32.ofNat m.emitted.length
  emitted_le : m.emitted.length ≤ R
  ready_le : R ≤ m.claims.length
  room : m.claims.length ≤ m.emitted.length + d.size
  posts : ∀ p ∈ m.posts, p.seq = UInt32.ofNat p.n ∧ m.claims[p.n]? = some p.value ∧
    (p.phase = .committed ↔ p.n < R)
  nodup : (m.posts.map Post.n).Nodup
  owned : ∀ n, R ≤ n → n < m.claims.length → n ∈ m.posts.map Post.n
  balance : R = m.emitted.length + m.queued + m.pending + m.lost
  oks : ∀ n ∈ m.oks, n < R

-- Where in the ring the claim with number `n` goes.
def slotOf (m : Mailbox T) (n : Nat) : Nat :=
  m.slot (UInt32.ofNat n)

-- The unread entries have slots of their own, and what is written stays.
structure Filled (m : Mailbox T) : Prop where
  order : m.emitted <+: m.claims
  apart : ∀ n n', m.emitted.length ≤ n → n < m.claims.length → m.emitted.length ≤ n' →
    n' < m.claims.length → m.slotOf n = m.slotOf n' → n = n'
  filled : ∀ n, m.emitted.length ≤ n → n < m.claims.length →
    (∀ p ∈ m.posts, p.n = n → p.phase ≠ .claimed) → m.ring[m.slotOf n]? = m.claims[n]?

-- Numbers less than a turn of the counters apart are told by their remainders.
theorem ofNat_inj_of_near {a b : Nat} (hnear : a < b + 2 ^ 32) (hnear' : b < a + 2 ^ 32)
    (h : UInt32.ofNat a = UInt32.ofNat b) : a = b := by
  rw [← UInt32.toNat_inj, UInt32.toNat_ofNat', UInt32.toNat_ofNat'] at h
  omega

theorem ofNat_sub_toNat {a b : Nat} (hle : b ≤ a) (hnear : a < b + 2 ^ 32) :
    (UInt32.ofNat a - UInt32.ofNat b).toNat = a - b := by
  rw [UInt32.toNat_sub, UInt32.toNat_ofNat', UInt32.toNat_ofNat']
  omega

theorem ofNat_succ (a : Nat) : UInt32.ofNat a + 1 = UInt32.ofNat (a + 1) := by
  simp [UInt32.ofNat_add]

theorem init_kept [Inhabited T] (d : Depth) : (init d.size : Mailbox T).Kept d 0 := by
  refine ⟨?_, rfl, rfl, rfl, ?_, ?_, ?_, ?_, ?_, ?_, rfl, ?_⟩
  · simp [init, depth]
  all_goals simp [init]

theorem init_filled [Inhabited T] (d : Depth) : (init d.size : Mailbox T).Filled := by
  refine ⟨List.prefix_refl _, ?_, ?_⟩
  · intro n n' _ hn
    simp [init] at hn
  · intro n _ hn
    simp [init] at hn

variable {R : Nat}

theorem Kept.near (h : m.Kept d R) : m.claims.length < m.emitted.length + 2 ^ 32 := by
  have hroom := h.room
  have hfits := d.fits
  omega

-- The check of `claim` compares the numbers themselves.
theorem Kept.claim_refused (h : m.Kept d R) :
    m.depth ≤ (m.claimed - m.read).toNat ↔
      m.emitted.length + d.size ≤ m.claims.length := by
  have hle := h.emitted_le.trans h.ready_le
  rw [h.size, h.claimed, h.read, ofNat_sub_toNat hle h.near]
  omega

-- A post that goes on to another phase keeps its number.
theorem map_n_set {posts : List (Post T)} {i : Nat} {p : Post T} (hp : posts[i]? = some p)
    (phase : Phase) : (posts.set i { p with phase := phase }).map Post.n = posts.map Post.n := by
  obtain ⟨hlt, hget⟩ := List.getElem?_eq_some_iff.mp hp
  apply List.ext_getElem?
  intro j
  rw [List.getElem?_map, List.getElem?_map, List.getElem?_set, if_pos hlt]
  split_ifs with hij
  · rw [← hij, hp]
    rfl
  · rfl

theorem countP_set_phase {posts : List (Post T)} {i : Nat} {p : Post T} (hp : posts[i]? = some p)
    (phase : Phase) :
    (posts.set i { p with phase := phase }).countP (·.phase = .committed) +
        (if p.phase = .committed then 1 else 0) =
      posts.countP (·.phase = .committed) + if phase = .committed then 1 else 0 := by
  obtain ⟨hlt, hget⟩ := List.getElem?_eq_some_iff.mp hp
  have hle := List.boole_getElem_le_countP (p := fun p : Post T => p.phase = .committed) hlt
  rw [List.countP_set hlt]
  simp only [hget, decide_eq_true_eq] at hle ⊢
  omega

theorem erase_perm {posts : List (Post T)} {i : Nat} {p : Post T} (hp : posts[i]? = some p) :
    (p :: posts.eraseIdx i).Perm posts := by
  obtain ⟨hlt, hget⟩ := List.getElem?_eq_some_iff.mp hp
  rw [← hget]
  exact List.getElem_cons_eraseIdx_perm hlt

theorem Kept.claim (h : m.Kept d R) (v : T) : (m.claim v).Kept d R := by
  have hrefused := h.claim_refused
  rw [Mailbox.claim]
  split_ifs with hfull
  · exact ⟨h.size, h.claimed, h.ready, h.read, h.emitted_le, h.ready_le, h.room, h.posts, h.nodup,
      h.owned, h.balance, h.oks⟩
  · rw [hrefused] at hfull
    have hle := h.ready_le
    have hnew : ∀ p ∈ m.posts, p.n < m.claims.length := by
      intro p hp
      exact (List.getElem?_eq_some_iff.mp (h.posts p hp).2.1).1
    constructor
    case size => exact h.size
    case claimed => simp only [h.claimed, ofNat_succ, List.length_append, List.length_singleton]
    case ready => exact h.ready
    case read => exact h.read
    case emitted_le => exact h.emitted_le
    case ready_le =>
      rw [List.length_append]
      omega
    case room =>
      simp only [List.length_append, List.length_singleton]
      omega
    case posts =>
      intro p hp
      rcases List.mem_append.mp hp with hold | hp
      · obtain ⟨hseq, hvalue, hphase⟩ := h.posts p hold
        exact ⟨hseq, by rw [List.getElem?_append_left (hnew p hold), hvalue], hphase⟩
      · obtain rfl := List.mem_singleton.mp hp
        exact ⟨h.claimed, by simp, iff_of_false nofun (by simp only; omega)⟩
    case nodup =>
      rw [List.map_append, List.map_singleton, List.nodup_append]
      refine ⟨h.nodup, by simp, ?_⟩
      intro a ha b hb
      obtain ⟨p, hp, rfl⟩ := List.mem_map.mp ha
      rw [List.mem_singleton.mp hb]
      exact Nat.ne_of_lt (hnew p hp)
    case owned =>
      intro n hn hlt
      rw [List.map_append, List.mem_append]
      rw [List.length_append, List.length_singleton] at hlt
      by_cases hlast : n < m.claims.length
      · exact .inl (h.owned n hn hlast)
      · right
        simp only [List.map_cons, List.map_nil, List.mem_singleton]
        omega
    case balance =>
      have hpending : pending { m with
          claimed := m.claimed + 1
          posts := m.posts ++ [⟨v, m.claimed, .claimed, m.claims.length⟩]
          claims := m.claims ++ [v] } = m.pending := by
        simp [pending]
      rw [hpending]
      exact h.balance
    case oks => exact h.oks

theorem Kept.write (h : m.Kept d R) (i : Nat) : (m.write i).Kept d R := by
  rw [Mailbox.write]
  cases hp : m.posts[i]? with
  | none => exact h
  | some p =>
    dsimp only
    split_ifs with hphase
    · obtain ⟨hseq, hvalue, hcommitted⟩ := h.posts p (List.mem_of_getElem? hp)
      have hcount := countP_set_phase hp .written
      simp only [hphase, reduceCtorEq, if_false, Nat.add_zero] at hcount
      constructor
      case size =>
        rw [depth, List.length_set]
        exact h.size
      case claimed => exact h.claimed
      case ready => exact h.ready
      case read => exact h.read
      case emitted_le => exact h.emitted_le
      case ready_le => exact h.ready_le
      case room => exact h.room
      case posts =>
        intro q hq
        rcases List.mem_or_eq_of_mem_set hq with hq | rfl
        · exact h.posts q hq
        · refine ⟨hseq, hvalue, iff_of_false nofun ?_⟩
          rw [← hcommitted, hphase]
          nofun
      case nodup => rw [map_n_set hp]; exact h.nodup
      case owned => rw [map_n_set hp]; exact h.owned
      case balance =>
        have hbalance := h.balance
        rw [pending] at hbalance
        rw [pending, hcount]
        exact hbalance
      case oks => exact h.oks
    · exact h

-- A commit that goes through is the one of the first claim not yet committed.
theorem Kept.commit_next (h : m.Kept d R) {p : Post T} (hp : p ∈ m.posts)
    (hphase : p.phase = .written) (hready : m.ready = p.seq) : p.n = R := by
  obtain ⟨hseq, hvalue, hcommitted⟩ := h.posts p hp
  have hlt := (List.getElem?_eq_some_iff.mp hvalue).1
  have hge : ¬p.n < R := by
    rw [← hcommitted, hphase]
    nofun
  have hnear := h.near
  have hle := h.emitted_le
  rw [h.ready, hseq] at hready
  exact (ofNat_inj_of_near (by omega) (by omega) hready).symm

theorem Kept.commit (h : m.Kept d R) (i : Nat) : ∃ R', (m.commit i).Kept d R' := by
  rw [Mailbox.commit]
  cases hp : m.posts[i]? with
  | none => exact ⟨R, h⟩
  | some p =>
    dsimp only
    split_ifs with hgo
    · obtain ⟨hphase, hready⟩ := hgo
      have hmem := List.mem_of_getElem? hp
      have hi := (List.getElem?_eq_some_iff.mp hp).1
      have hn := h.commit_next hmem hphase hready
      obtain ⟨hseq, hvalue, hcommitted⟩ := h.posts p hmem
      have hlt := (List.getElem?_eq_some_iff.mp hvalue).1
      have hcount := countP_set_phase hp .committed
      simp only [hphase, reduceCtorEq, if_false, if_true, Nat.add_zero] at hcount
      refine ⟨R + 1, ?_⟩
      constructor
      case size => exact h.size
      case claimed => exact h.claimed
      case ready => rw [hseq, ofNat_succ, hn]
      case read => exact h.read
      case emitted_le => exact Nat.le_succ_of_le h.emitted_le
      case ready_le => simp only; omega
      case room => exact h.room
      case posts =>
        intro q hq
        by_cases hsame : q.n = R
        · have hnodup := h.nodup
          rw [← map_n_set hp .committed] at hnodup
          obtain rfl : q = { p with phase := .committed } :=
            List.inj_on_of_nodup_map hnodup hq (List.mem_set hi _) (hsame.trans hn.symm)
          exact ⟨hseq, hvalue, iff_of_true rfl (by simp only; omega)⟩
        · rcases List.mem_or_eq_of_mem_set hq with hold | rfl
          · obtain ⟨hqseq, hqvalue, hqphase⟩ := h.posts q hold
            refine ⟨hqseq, hqvalue, ?_⟩
            rw [hqphase]
            omega
          · exact absurd hn hsame
      case nodup => rw [map_n_set hp]; exact h.nodup
      case owned =>
        rw [map_n_set hp]
        intro n hge
        exact h.owned n (by omega)
      case balance =>
        have hbalance := h.balance
        rw [pending] at hbalance
        rw [pending, hcount]
        simp only [queued] at hbalance ⊢
        omega
      case oks =>
        intro n hn'
        exact Nat.lt_succ_of_lt (h.oks n hn')
    · exact ⟨R, h⟩

-- Whether the flow's own mailbox takes another message.
def Accepts (K : Kconfig) (m : Mailbox T) : Prop :=
  ∃ queue, m.box.mailbox = some queue ∧ queue.length < K.flowMailboxDepth

instance (K : Kconfig) (m : Mailbox T) : Decidable (m.Accepts K) :=
  inferInstanceAs (Decidable (∃ queue ∈ m.box.mailbox, queue.length < K.flowMailboxDepth))

theorem box_post (K : Kconfig) (m : Mailbox T) (work : Work) :
    (m.Accepts K ∧ ∃ queue box, m.box.mailbox = some queue ∧
      box.mailbox = some (queue ++ [some work]) ∧ m.box.post K (some work) = (.ok, box)) ∨
    ¬m.Accepts K ∧ ∃ err box, err ≠ .ok ∧ box.mailbox = m.box.mailbox ∧
      m.box.post K (some work) = (err, box) := by
  cases hqueue : m.box.mailbox with
  | none =>
    refine .inr ⟨?_, .invalidState, m.box, by decide, hqueue, by simp [Box.post, hqueue]⟩
    rintro ⟨queue, hsome, -⟩
    rw [hqueue] at hsome
    cases hsome
  | some queue =>
    by_cases hfull : K.flowMailboxDepth ≤ queue.length
    · refine .inr ⟨?_, .noMem, { m.box with dropped := m.box.dropped + 1 }, by decide, hqueue, ?_⟩
      · rintro ⟨queue', hsome, hlt⟩
        rw [hqueue] at hsome
        cases hsome
        omega
      · simp [Box.post, hqueue, hfull]
    · refine .inl ⟨⟨queue, hqueue, by omega⟩, queue,
        { m.box with mailbox := some (queue ++ [some work]), posts := m.box.posts + 1 },
        rfl, rfl, ?_⟩
      simp [Box.post, hqueue, hfull]

-- The posts that are left after one has come to its end.
theorem Kept.erase (h : m.Kept d R) {i : Nat} {p : Post T} (hp : m.posts[i]? = some p)
    (hphase : p.phase = .committed) :
    (∀ q ∈ m.posts.eraseIdx i, q ∈ m.posts) ∧ ((m.posts.eraseIdx i).map Post.n).Nodup ∧
      (∀ n, R ≤ n → n < m.claims.length → n ∈ (m.posts.eraseIdx i).map Post.n) ∧
      (m.posts.eraseIdx i).countP (·.phase = .committed) + 1 = m.pending := by
  have hperm := erase_perm hp
  have hn : p.n < R := ((h.posts p (List.mem_of_getElem? hp)).2.2).mp hphase
  refine ⟨?_, ?_, ?_, ?_⟩
  · intro q hq
    exact hperm.subset (List.mem_cons_of_mem p hq)
  · have hnodup := (hperm.map Post.n).nodup_iff.mpr h.nodup
    exact (List.nodup_cons.mp hnodup).2
  · intro n hge hlt
    have hmem := (hperm.map Post.n).mem_iff.mpr (h.owned n hge hlt)
    rcases List.mem_cons.mp hmem with heq | hrest
    · omega
    · exact hrest
  · rw [pending, ← hperm.countP_eq, List.countP_cons]
    simp [hphase]

theorem Kept.flowPost (h : m.Kept d R) (i : Nat) : (m.flowPost K i).Kept d R := by
  rw [Mailbox.flowPost]
  cases hp : m.posts[i]? with
  | none => exact h
  | some p =>
    dsimp only
    split_ifs with hphase
    · obtain ⟨hsub, hnodup, howned, hcount⟩ := h.erase hp hphase
      have hbalance := h.balance
      have hn : p.n < R := ((h.posts p (List.mem_of_getElem? hp)).2.2).mp hphase
      rcases m.box_post K .deliver with
        ⟨-, queue, box, hqueue, hbox, hpost⟩ | ⟨-, err, box, herr, hbox, hpost⟩
      · rw [hpost]
        refine ⟨h.size, h.claimed, h.ready, h.read, h.emitted_le, h.ready_le, h.room,
          fun q hq => h.posts q (hsub q hq), hnodup, howned, ?_, ?_⟩
        · simp only [queued, hqueue, Option.getD_some] at hbalance
          simp only [queued, pending, hbox, Option.getD_some, List.count_append,
            List.count_singleton_self]
          omega
        · intro n hmem
          rcases List.mem_append.mp hmem with hmem | hmem
          · exact h.oks n hmem
          · rwa [List.mem_singleton.mp hmem]
      · rw [hpost]
        have hkept : Kept d { m with
            box := box
            posts := m.posts.eraseIdx i
            lost := m.lost + 1 } R := by
          refine ⟨h.size, h.claimed, h.ready, h.read, h.emitted_le, h.ready_le, h.room,
            fun q hq => h.posts q (hsub q hq), hnodup, howned, ?_, h.oks⟩
          simp only [queued] at hbalance
          simp only [queued, pending, hbox]
          omega
        cases err with
        | ok => exact absurd rfl herr
        | _ => exact hkept
    · exact h

theorem Kept.setBox (h : m.Kept d R) {box : Box Work} (lost : Nat)
    (hsame : ((box.mailbox.getD []).count (some .deliver)) + lost = m.queued + m.lost) :
    Kept d { m with box := box, lost := lost } R := by
  refine ⟨h.size, h.claimed, h.ready, h.read, h.emitted_le, h.ready_le, h.room, h.posts, h.nodup,
    h.owned, ?_, h.oks⟩
  have hbalance := h.balance
  simp only [queued, pending] at hbalance hsame ⊢
  omega

theorem deliver_box [Inhabited T] (m : Mailbox T) (box : Box Work) :
    deliver { m with box := box } = { m.deliver with box := box } := by
  rw [deliver, deliver]
  split_ifs <;> rfl

-- The loop task runs somebody else's work, if any, or a delivery of this ring.
theorem runOne_cases [Inhabited T] (m : Mailbox T) :
    (∃ box, m.runOne = { m with box := box } ∧
      (box.mailbox.getD []).count (some .deliver) = m.queued) ∨
    ∃ queue, m.box.mailbox = some (some .deliver :: queue) ∧
      m.runOne = { m.deliver with box := { m.box with mailbox := some queue } } := by
  cases hqueue : m.box.mailbox with
  | none => exact .inl ⟨m.box, by simp only [runOne, hqueue], rfl⟩
  | some queue =>
    cases queue with
    | nil => exact .inl ⟨m.box, by simp only [runOne, hqueue], rfl⟩
    | cons work queue =>
      by_cases hwork : work = some .deliver
      · subst hwork
        refine .inr ⟨queue, rfl, ?_⟩
        simp only [runOne, hqueue]
        exact deliver_box m _
      · refine .inl ⟨{ m.box with mailbox := some queue }, ?_, ?_⟩
        · cases work with
          | none => simp only [runOne, hqueue]
          | some w =>
            cases w with
            | deliver => exact absurd rfl hwork
            | other => simp only [runOne, hqueue]
        · simp [queued, hqueue, List.count_cons_of_ne hwork]

-- A delivery finds an entry, for it was queued after the commit of one.
theorem Kept.runOne [Inhabited T] (h : m.Kept d R) : m.runOne.Kept d R := by
  rcases m.runOne_cases with ⟨box, hrun, hcount⟩ | ⟨queue, hqueue, hrun⟩
  · rw [hrun]
    apply h.setBox m.lost
    rw [hcount]
  · have hbalance := h.balance
    simp only [queued, hqueue, Option.getD_some, List.count_cons_self] at hbalance
    have hlt : m.emitted.length < R := by omega
    have hnear := h.near
    have hle := h.ready_le
    have hne : m.read ≠ m.ready := by
      rw [h.read, h.ready]
      intro hsame
      have := ofNat_inj_of_near (by omega) (by omega) hsame
      omega
    rw [hrun, Mailbox.deliver, if_neg hne]
    refine ⟨h.size, h.claimed, h.ready, ?_, ?_, h.ready_le, ?_, h.posts, h.nodup, h.owned,
      ?_, h.oks⟩
    · simp only [h.read, ofNat_succ, List.length_append, List.length_singleton]
    · rw [List.length_append, List.length_singleton]
      exact hlt
    · have hroom := h.room
      simp only [List.length_append, List.length_singleton]
      omega
    · simp only [queued, pending, Option.getD_some, List.length_append,
        List.length_singleton] at hbalance ⊢
      omega

theorem Kept.step [Inhabited T] (h : m.Kept d R) (s : MailboxStep T) :
    ∃ R', (m.step K s).Kept d R' := by
  cases s with
  | claim v => exact ⟨R, h.claim v⟩
  | write i => exact ⟨R, h.write i⟩
  | commit i => exact h.commit i
  | flowPost i => exact ⟨R, h.flowPost i⟩
  | runOne => exact ⟨R, h.runOne⟩
  | otherPost =>
    refine ⟨R, h.setBox m.lost ?_⟩
    rcases m.box_post K .other with
      ⟨-, queue, box, hqueue, hbox, hpost⟩ | ⟨-, err, box, -, hbox, hpost⟩
    · simp [hpost, hbox, queued, hqueue]
    · simp [hpost, hbox, queued]
  | start =>
    refine ⟨R, h.setBox m.lost ?_⟩
    simp [Box.start, queued]
  | stop =>
    refine ⟨R, h.setBox (m.lost + m.queued) ?_⟩
    rw [Nat.add_comm m.lost, ← Nat.add_assoc, Nat.add_comm m.queued]
    cases hqueue : m.box.mailbox <;> simp [Box.stop, hqueue, Nat.add_comm]

-- The slot the next claim gets is not that of an entry still to be read.
def SlotFree (m : Mailbox T) : Prop :=
  ∀ n, m.emitted.length ≤ n → n < m.claims.length → m.slotOf n ≠ m.slotOf m.claims.length

-- Nothing that was accepted into the ring is forgotten by the flow.
def Fits (K : Kconfig) (m : Mailbox T) : MailboxStep T → Prop
  | .claim _ => (m.claimed - m.read).toNat < m.depth → m.SlotFree
  | .flowPost i => ∀ p, m.posts[i]? = some p → p.phase = .committed → m.Accepts K
  | .stop => m.queued = 0
  | _ => True

instance (m : Mailbox T) : Decidable m.SlotFree :=
  inferInstanceAs (Decidable (∀ n, _ → n < m.claims.length → _))

instance (K : Kconfig) (m : Mailbox T) : (s : MailboxStep T) → Decidable (m.Fits K s)
  | .claim _ => inferInstanceAs (Decidable (_ → m.SlotFree))
  | .flowPost i =>
    inferInstanceAs (Decidable (∀ p ∈ m.posts[i]?, p.phase = .committed → m.Accepts K))
  | .stop => inferInstanceAs (Decidable (m.queued = 0))
  | .write _ | .commit _ | .runOne | .otherPost | .start => .isTrue trivial

theorem mem_set_of_ne {posts : List (Post T)} {i : Nat} {p q : Post T} (p' : Post T)
    (hp : posts[i]? = some p) (hq : q ∈ posts) (hne : q ≠ p) : q ∈ posts.set i p' := by
  obtain ⟨j, hj⟩ := List.mem_iff_getElem?.mp hq
  apply List.mem_iff_getElem?.mpr
  refine ⟨j, ?_⟩
  rw [List.getElem?_set_ne, hj]
  rintro rfl
  rw [hp] at hj
  exact hne (Option.some.inj hj).symm

theorem Filled.claim (h : m.Filled) (v : T)
    (hfree : (m.claimed - m.read).toNat < m.depth → m.SlotFree) : (m.claim v).Filled := by
  rw [Mailbox.claim]
  split_ifs with hfull
  · exact ⟨h.order, h.apart, h.filled⟩
  · have hslot := hfree (Nat.lt_of_not_le hfull)
    constructor
    case order => exact h.order.trans (List.prefix_append _ _)
    case apart =>
      intro n n' hn hlt hn' hlt' hsame
      simp only [List.length_append, List.length_singleton] at hn hlt hn' hlt'
      by_cases hlast : n = m.claims.length
      · by_cases hlast' : n' = m.claims.length
        · exact hlast.trans hlast'.symm
        · subst hlast
          exact absurd hsame.symm (hslot n' hn' (by omega))
      · by_cases hlast' : n' = m.claims.length
        · subst hlast'
          exact absurd hsame (hslot n hn (by omega))
        · exact h.apart n n' hn (by omega) hn' (by omega) hsame
    case filled =>
      intro n hn hlt hwritten
      simp only [List.length_append, List.length_singleton] at hn hlt
      by_cases hlast : n = m.claims.length
      · exact absurd rfl (hwritten _ (List.mem_append_right _ (List.mem_singleton_self _)) hlast.symm)
      · rw [List.getElem?_append_left (by omega)]
        exact h.filled n hn (by omega) fun p hp => hwritten p (List.mem_append_left _ hp)

theorem Filled.write (h : m.Filled) (hkept : m.Kept d R) (i : Nat) : (m.write i).Filled := by
  rw [Mailbox.write]
  cases hp : m.posts[i]? with
  | none => exact h
  | some p =>
    dsimp only
    split_ifs with hphase
    · obtain ⟨hseq, hvalue, hcommitted⟩ := hkept.posts p (List.mem_of_getElem? hp)
      have hlt := (List.getElem?_eq_some_iff.mp hvalue).1
      have hge : ¬p.n < R := by
        rw [← hcommitted, hphase]
        nofun
      have hle := hkept.emitted_le
      have hin : m.slotOf p.n < m.ring.length := by
        have hsize := hkept.size
        have hpos := d.pos
        rw [depth] at hsize
        exact Nat.mod_lt _ (by rw [depth]; omega)
      have hslot : ∀ n, slotOf { m with
          ring := m.ring.set (m.slot p.seq) p.value
          posts := m.posts.set i { p with phase := .written } } n = m.slotOf n := by
        intro n
        simp [slotOf, slot, depth]
      constructor
      case order => exact h.order
      case apart =>
        intro n n'
        rw [hslot, hslot]
        exact h.apart n n'
      case filled =>
        intro n hn hlt' hwritten
        rw [hslot, hseq]
        show (m.ring.set (m.slotOf p.n) p.value)[m.slotOf n]? = m.claims[n]?
        by_cases hsame : n = p.n
        · rw [hsame, hvalue]
          exact List.getElem?_set_self hin
        · rw [List.getElem?_set_ne fun hclash => hsame
            (h.apart p.n n (by omega) hlt hn hlt' hclash).symm]
          apply h.filled n hn hlt'
          intro q hq hqn
          apply hwritten q (mem_set_of_ne _ hp hq ?_) hqn
          rintro rfl
          exact hsame hqn.symm
    · exact h

theorem Filled.commit (h : m.Filled) (i : Nat) : (m.commit i).Filled := by
  rw [Mailbox.commit]
  cases hp : m.posts[i]? with
  | none => exact h
  | some p =>
    dsimp only
    split_ifs with hgo
    · refine ⟨h.order, h.apart, ?_⟩
      intro n hn hlt hwritten
      apply h.filled n hn hlt
      intro q hq hqn
      by_cases hsame : q = p
      · rw [hsame, hgo.1]
        nofun
      · exact hwritten q (mem_set_of_ne _ hp hq hsame) hqn
    · exact h

theorem Filled.flowPost (h : m.Filled) (i : Nat) : (m.flowPost K i).Filled := by
  rw [Mailbox.flowPost]
  cases hp : m.posts[i]? with
  | none => exact h
  | some p =>
    dsimp only
    split_ifs with hphase
    · have hfilled : ∀ n, m.emitted.length ≤ n → n < m.claims.length →
          (∀ q ∈ m.posts.eraseIdx i, q.n = n → q.phase ≠ .claimed) →
          m.ring[m.slotOf n]? = m.claims[n]? := by
        intro n hn hlt hwritten
        apply h.filled n hn hlt
        intro q hq hqn
        rcases List.mem_cons.mp ((erase_perm hp).symm.subset hq) with rfl | hq
        · rw [hphase]
          nofun
        · exact hwritten q hq hqn
      obtain ⟨err, box⟩ := m.box.post K (some .deliver)
      cases err <;> exact ⟨h.order, h.apart, hfilled⟩
    · exact h

theorem Filled.deliver [Inhabited T] (h : m.Filled) (hkept : m.Kept d R) : m.deliver.Filled := by
  rw [Mailbox.deliver]
  split_ifs with hempty
  · exact h
  · have hlt : m.emitted.length < R := by
      have hle := hkept.emitted_le
      apply Nat.lt_of_le_of_ne hle
      intro hsame
      rw [hkept.read, hkept.ready, hsame] at hempty
      exact hempty rfl
    have hle := hkept.ready_le
    have hhere : m.ring[m.slot m.read]? = m.claims[m.emitted.length]? := by
      rw [hkept.read]
      apply h.filled _ (Nat.le_refl _) (by omega)
      intro p hp hpn
      rw [((hkept.posts p hp).2.2).mpr (by omega)]
      nofun
    constructor
    case order =>
      obtain ⟨rest, hrest⟩ := h.order
      rw [← hrest, List.getElem?_append_right (Nat.le_refl _), Nat.sub_self] at hhere
      cases rest with
      | nil =>
        rw [← hrest, List.append_nil] at hle
        omega
      | cons v rest =>
        refine ⟨rest, ?_⟩
        simp only [List.getD_eq_getElem?_getD, hhere, List.getElem?_cons_zero, Option.getD_some]
        rw [List.append_assoc, List.singleton_append, hrest]
    case apart =>
      intro n n' hn hlt' hn'
      simp only [List.length_append, List.length_singleton] at hn hn'
      exact h.apart n n' (by omega) hlt' (by omega)
    case filled =>
      intro n hn
      simp only [List.length_append, List.length_singleton] at hn
      exact h.filled n (by omega)

theorem Filled.setBox (h : m.Filled) (box : Box Work) (lost : Nat) :
    Filled { m with box := box, lost := lost } :=
  ⟨h.order, h.apart, h.filled⟩

theorem Filled.runOne [Inhabited T] (h : m.Filled) (hkept : m.Kept d R) : m.runOne.Filled := by
  rcases m.runOne_cases with ⟨box, hrun, -⟩ | ⟨queue, -, hrun⟩
  · rw [hrun]
    exact h.setBox box m.lost
  · rw [hrun]
    exact (h.deliver hkept).setBox _ _

theorem Filled.step [Inhabited T] (h : m.Filled) (hkept : m.Kept d R) (s : MailboxStep T)
    (hfits : m.Fits K s) : (m.step K s).Filled := by
  cases s with
  | claim v => exact h.claim v hfits
  | write i => exact h.write hkept i
  | commit i => exact h.commit i
  | flowPost i => exact h.flowPost i
  | runOne => exact h.runOne hkept
  | otherPost => exact h.setBox _ _
  | start => exact h.setBox _ _
  | stop => exact h.setBox _ _

-- Deliveries are lost in no other way than those that `Fits` names.
theorem lost_step [Inhabited T] (s : MailboxStep T) (hfits : m.Fits K s) :
    (m.step K s).lost = m.lost := by
  cases s with
  | claim v =>
    show (m.claim v).lost = m.lost
    rw [claim]
    split_ifs <;> rfl
  | write i =>
    show (m.write i).lost = m.lost
    rw [write]
    cases m.posts[i]? with
    | none => rfl
    | some p =>
      dsimp only
      split_ifs <;> rfl
  | commit i =>
    show (m.commit i).lost = m.lost
    rw [commit]
    cases m.posts[i]? with
    | none => rfl
    | some p =>
      dsimp only
      split_ifs <;> rfl
  | flowPost i =>
    show (m.flowPost K i).lost = m.lost
    rw [flowPost]
    cases hp : m.posts[i]? with
    | none => rfl
    | some p =>
      dsimp only
      split_ifs with hphase
      · rcases m.box_post K .deliver with ⟨-, queue, box, -, -, hpost⟩ | ⟨hnot, -⟩
        · rw [hpost]
        · exact absurd (hfits p hp hphase) hnot
      · rfl
  | runOne =>
    show m.runOne.lost = m.lost
    rcases m.runOne_cases with ⟨box, hrun, -⟩ | ⟨queue, -, hrun⟩
    · rw [hrun]
    · rw [hrun, deliver]
      split_ifs <;> rfl
  | otherPost => rfl
  | start => rfl
  | stop =>
    show m.lost + m.queued = m.lost
    rw [show m.queued = 0 from hfits, Nat.add_zero]

end Mailbox

end Espos.Flow
