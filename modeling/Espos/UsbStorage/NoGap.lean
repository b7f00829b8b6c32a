import Mathlib.Data.List.AList
import Mathlib.Logic.Function.Basic
import Espos.Lib.Run
import Espos.UsbStorage.Follower

-- The follower beside the host that owns the card: passes one after another, what
-- each of their calls meets, the host's writes and the reboots.

namespace Espos.UsbStorage

open Espos.Text Espos.Crash

abbrev Card := AList fun _ : Path => List UInt8

def inDir (dir : CStr) (path : Path) : Bool :=
  path.take (dir.length + 1) == dir ++ ['/'] && !(path.drop (dir.length + 1)).contains '/'

def Card.list (card : Card) (dir : CStr) : List FileEntry :=
  (card.entries.filter fun f => inDir dir f.1).map fun f => ⟨f.1, f.2.length⟩

def Card.read (card : Card) (path : Path) (offset len : Nat) : Option (List UInt8) :=
  match card.lookup path with
  | some content =>
    if offset + len ≤ content.length then some ((content.drop offset).take len) else none
  | none => none

-- A chunk the sink accepted, with what the card held of its file at that moment.
structure Handed where
  chunk : Chunk
  was : Option (List UInt8)
deriving DecidableEq

-- `gen0` is the generation the pass's view of the card was made at. History only:
-- the chunks accepted, the latest first, and what the pass has been given as listings.
structure Site where
  card : Card := ∅
  gen : Nat := 0
  gen0 : Nat := 0
  store : AList fun _ : Path => Progress := ∅
  accepted : List Handed := []
  listed : List FileEntry := []

-- What a call meets: whether the host writes in front of it or while it goes on, and
-- what the card holds then; whether the call succeeds; whether a save that fails is
-- on flash all the same; what a read or a listing gives that the host wrote during.
structure Met where
  host : Option Card := none
  ok : Bool := true
  kept : Bool := false
  junk : List UInt8 := []
  junkEntries : List FileEntry := []

def Site.write (s : Site) (card : Card) : Site :=
  { s with card, gen := s.gen + 1 }

def Site.meet (s : Site) (m : Met) : Site :=
  match m.host with
  | some card => s.write card
  | none => s

def act : (c : Call) → Met → Site → c.Reply × Site
  | .list dir, m, s =>
    let s := s.meet m
    if m.ok then
      let entries := if s.gen = s.gen0 then s.card.list dir else m.junkEntries
      (some entries, { s with listed := s.listed ++ entries })
    else (none, s)
  | .read path offset len, m, s =>
    let s := s.meet m
    if m.ok then (if s.gen = s.gen0 then s.card.read path offset len else some m.junk, s)
    else (none, s)
  | .unchanged, m, s =>
    let s := s.meet m
    (s.gen == s.gen0, s)
  | .sink chunk, m, s =>
    let s := s.meet m
    (m.ok, if m.ok then
      { s with accepted := ⟨chunk, s.card.lookup chunk.path⟩ :: s.accepted } else s)
  | .load path, m, s =>
    let s := s.meet m
    (if m.ok then s.store.lookup path else none, s)
  | .save path p, m, s =>
    let s := s.meet m
    (m.ok, if m.ok || m.kept then { s with store := s.store.insert path p } else s)
  | .erase path, m, s =>
    let s := s.meet m
    ((), if m.ok then { s with store := s.store.erase path } else s)
  | .paths, m, s =>
    let s := s.meet m
    (if m.ok then s.store.keys else [], s)

-- The device: `last` is the result of the last pass, where it came to its end.
structure Node where
  site : Site := {}
  seen : SeenMap := fun _ => none
  last : Option PassResult := none

inductive Event where
  | pass (nowMs : Int) (mets : List Met)
  | host (card : Card)
  | reboot

def Site.view (s : Site) : Site :=
  { s with gen0 := s.gen, listed := [] }

def Node.pass (n : Node) (cfg : FollowerConfig) (nowMs : Int) : Script (PassResult × SeenMap) :=
  runPass cfg n.seen nowMs (n.site.gen % 2 ^ 32)

-- Where there is nothing left for a pass to meet, the power goes.
def step (cfg : FollowerConfig) (n : Node) : Event → Node
  | .pass nowMs mets =>
    match (n.pass cfg nowMs).exec act mets n.site.view with
    | (some (r, seen), _, site) => { site, seen, last := some r }
    | (none, _, site) => { site }
  | .host card => { n with site := n.site.write card }
  | .reboot => { site := n.site }

-- The host has done nothing to this file but append to it.
def Appended (path : Path) (was now : Card) : Prop :=
  ∀ content ∈ was.lookup path, ∃ content' ∈ now.lookup path, content <+: content'

instance (path : Path) (was now : Card) : Decidable (Appended path was now) :=
  inferInstanceAs (Decidable (∀ _ ∈ _, ∃ _ ∈ _, _))

def MetAppends (path : Path) (_ : Call) (m : Met) (s : Site) : Prop :=
  ∀ card ∈ m.host, Appended path s.card card

instance (path : Path) (c : Call) (m : Met) (s : Site) : Decidable (MetAppends path c m s) :=
  inferInstanceAs (Decidable (∀ _ ∈ _, _))

def AppendsOnly (cfg : FollowerConfig) (path : Path) (n : Node) : Event → Prop
  | .pass nowMs mets =>
    Prog.AlongOps act (MetAppends path) (n.pass cfg nowMs) mets n.site.view
  | .host card => Appended path n.site.card card
  | .reboot => True

instance (cfg : FollowerConfig) (path : Path) (n : Node) :
    (e : Event) → Decidable (AppendsOnly cfg path n e)
  | .pass _ _ => inferInstanceAs (Decidable (Prog.AlongOps _ _ _ _ _))
  | .host _ => inferInstanceAs (Decidable (Appended _ _ _))
  | .reboot => .isTrue trivial

end Espos.UsbStorage

-- What the sink is handed of a file the host only appends to.

namespace Espos.UsbStorage

open Espos.Text Espos.Crash Espos.Crash.Prog Espos.Run

def Watch.covers (w : Watch) (path : Path) : Bool :=
  inDir w.dir path && suffixMatches path w.suffix

def Watch.unit (w : Watch) : Nat :=
  recordUnit w.recordSize

-- The watches that cover the file have records of one size.
def Agree (cfg : FollowerConfig) (path : Path) (unit : Nat) : Prop :=
  ∀ w ∈ cfg.watches, w.covers path → w.unit = unit

-- The end of what the sink has accepted of a file.
def acceptedEnd (path : Path) : List Handed → Nat
  | [] => 0
  | h :: earlier =>
    if h.chunk.path = path then
      max (h.chunk.offset + h.chunk.data.length) (acceptedEnd path earlier)
    else acceptedEnd path earlier

-- The bytes of a content from an offset on.
def Exact (content : List UInt8) (offset : Nat) (data : List UInt8) : Prop :=
  offset + data.length ≤ content.length ∧ data = (content.drop offset).take data.length

-- A chunk against those accepted before it.
structure Sound (cfg : FollowerConfig) (path : Path) (h : Handed) (earlier : List Handed) :
    Prop where
  exact : ∃ content ∈ h.was, Exact content h.chunk.offset h.chunk.data
  noGap : h.chunk.offset ≤ acceptedEnd path earlier
  whole : ∃ w ∈ cfg.watches, w.covers path ∧ w.unit ∣ h.chunk.data.length
  boundary : ∀ unit, Agree cfg path unit → unit ∣ h.chunk.offset

theorem recordUnit_pos (recordSize : Nat) : 0 < recordUnit recordSize := by
  unfold recordUnit
  by_cases h : recordSize = 0
  · simp [h]
  · rw [if_neg h]
    omega

section ChunkEnd

variable (offset limit recordSize maxChunk : Nat)

theorem unit_dvd_chunkEnd_sub :
    recordUnit recordSize ∣ chunkEnd offset limit recordSize maxChunk - offset := by
  simp only [chunkEnd]
  by_cases hle : limit ≤ offset
  · simp [hle]
  · rw [if_neg hle, Nat.add_sub_cancel_left]
    generalize recordUnit recordSize = unit
    have havail : unit ∣ (limit - offset) / unit * unit := Nat.dvd_mul_left _ _
    have hcap : unit ∣ maxChunk / unit * unit := Nat.dvd_mul_left _ _
    by_cases hzero : maxChunk / unit * unit = 0
    · rw [if_pos hzero]
      rcases Nat.le_total ((limit - offset) / unit * unit) unit with h | h
      · rwa [Nat.min_eq_left h]
      · rw [Nat.min_eq_right h]
    · rw [if_neg hzero]
      rcases Nat.le_total ((limit - offset) / unit * unit) (maxChunk / unit * unit) with h | h
      · rwa [Nat.min_eq_left h]
      · rwa [Nat.min_eq_right h]

-- Where there is no next chunk, less than a record is left.
theorem lt_unit_of_chunkEnd_le (h : chunkEnd offset limit recordSize maxChunk ≤ offset) :
    limit - offset < recordUnit recordSize := by
  have hpos := recordUnit_pos recordSize
  simp only [chunkEnd] at h
  generalize recordUnit recordSize = unit at h hpos ⊢
  by_cases hle : limit ≤ offset
  · omega
  · rw [if_neg hle] at h
    have hcap : 0 < if maxChunk / unit * unit = 0 then unit else maxChunk / unit * unit := by
      by_cases hzero : maxChunk / unit * unit = 0
      · rwa [if_pos hzero]
      · rw [if_neg hzero]
        omega
    have havail : (limit - offset) / unit * unit = 0 := by omega
    rcases Nat.mul_eq_zero.mp havail with hdiv | hunit
    · exact (Nat.div_eq_zero_iff_lt hpos).mp hdiv
    · omega

end ChunkEnd

-- What whole records there are up to the limit end where the offset is.
theorem whole_le_of_lt {unit offset limit : Nat} (hdvd : unit ∣ offset)
    (hlt : limit - offset < unit) : limit / unit * unit ≤ offset := by
  obtain ⟨k, rfl⟩ := hdvd
  have hpos : 0 < unit := by omega
  have hk : limit / unit < k + 1 := by
    apply (Nat.div_lt_iff_lt_mul hpos).mpr
    rw [Nat.mul_comm, Nat.mul_succ]
    omega
  rw [Nat.mul_comm unit]
  exact Nat.mul_le_mul_right unit (by omega)

section AcceptedEnd

variable {path : Path}

theorem acceptedEnd_le_cons (h : Handed) (earlier : List Handed) :
    acceptedEnd path earlier ≤ acceptedEnd path (h :: earlier) := by
  rw [acceptedEnd]
  by_cases hp : h.chunk.path = path
  · rw [if_pos hp]
    exact Nat.le_max_right _ _
  · rw [if_neg hp]

theorem acceptedEnd_mono {earlier later : List Handed} (h : earlier <:+ later) :
    acceptedEnd path earlier ≤ acceptedEnd path later := by
  obtain ⟨more, rfl⟩ := h
  induction more with
  | nil => exact Nat.le_refl _
  | cons c more ih => exact ih.trans (acceptedEnd_le_cons c _)

theorem end_le_acceptedEnd {h : Handed} {accepted : List Handed} (hmem : h ∈ accepted)
    (hp : h.chunk.path = path) :
    h.chunk.offset + h.chunk.data.length ≤ acceptedEnd path accepted := by
  obtain ⟨later, earlier, rfl⟩ := List.append_of_mem hmem
  have hend : h.chunk.offset + h.chunk.data.length ≤ acceptedEnd path (h :: earlier) := by
    rw [acceptedEnd, if_pos hp]
    exact Nat.le_max_left _ _
  exact hend.trans (acceptedEnd_mono (List.suffix_append _ _))

-- Without a gap, everything up to the end was accepted.
theorem exists_handed {cfg : FollowerConfig} {accepted : List Handed}
    (hs : ∀ h earlier, h :: earlier <:+ accepted → h.chunk.path = path →
      Sound cfg path h earlier) {i : Nat} (hi : i < acceptedEnd path accepted) :
    ∃ h earlier, h :: earlier <:+ accepted ∧ h.chunk.path = path ∧ h.chunk.offset ≤ i ∧
      i < h.chunk.offset + h.chunk.data.length := by
  induction accepted with
  | nil => exact absurd hi (Nat.not_lt_zero i)
  | cons h earlier ih =>
    by_cases hp : h.chunk.path = path ∧ h.chunk.offset ≤ i ∧
        i < h.chunk.offset + h.chunk.data.length
    · exact ⟨h, earlier, List.suffix_refl _, hp⟩
    · have hearlier : i < acceptedEnd path earlier := by
        rw [acceptedEnd] at hi
        by_cases hpath : h.chunk.path = path
        · rw [if_pos hpath] at hi
          have hgap := (hs h earlier (List.suffix_refl _) hpath).noGap
          by_contra hle
          apply hp
          exact ⟨hpath, by omega, by omega⟩
        · rwa [if_neg hpath] at hi
      obtain ⟨h', earlier', hsuf, hrest⟩ :=
        ih (fun h' earlier' hsuf => hs h' earlier' (hsuf.trans (List.suffix_cons h earlier)))
          hearlier
      exact ⟨h', earlier', hsuf.trans (List.suffix_cons h earlier), hrest⟩

end AcceptedEnd

end Espos.UsbStorage

-- `card_lock.cpp`: what a host writes to the exported card, and what a view of it reads
-- (`fs_view.cpp`). Both take the same lock, and a write counts itself before it touches
-- the card.

namespace Espos.UsbStorage

open Espos.Run

-- Where a task is in `__wrap_sdmmc_write_sectors`.
inductive WritePc where
  | out
  | waits
  | counts
  | programs
  | gives
deriving DecidableEq

-- Where the follower is in `card_lock::read`.
inductive ReadPc where
  | out
  | waits
  | reads
deriving DecidableEq

inductive Holder (τ : Type*) where
  | write (task : τ)
  | read

-- `gen0` is the generation a view was made at. Not in the code: the sectors it has
-- read, and how many writes have counted themselves since it was made.
structure CardLock (τ σ : Type*) where
  card : Nat → σ
  gen : UInt32
  mutex : Option (Holder τ)
  writes : τ → WritePc
  reads : ReadPc
  gen0 : UInt32
  seen : List (Nat × σ)
  begun : Nat

-- A write is of any sectors, one after the other, and may fail behind any of them.
inductive CardStep (τ σ : Type*) where
  | write (task : τ)
  | turn (task : τ)
  | program (task : τ) (sector : Nat) (content : σ)
  | make
  | read
  | turnRead
  | fetch (sector : Nat)

variable {τ σ : Type*} [DecidableEq τ]

namespace CardLock

def start (card : Nat → σ) : CardLock τ σ :=
  ⟨card, 0, none, fun _ => .out, .out, 0, [], 0⟩

def go (s : CardLock τ σ) (task : τ) (pc : WritePc) : CardLock τ σ :=
  { s with writes := Function.update s.writes task pc }

def turn (s : CardLock τ σ) (task : τ) : CardLock τ σ :=
  match s.writes task with
  | .out => s
  | .waits => if s.mutex.isNone then { s with mutex := some (.write task) }.go task .counts else s
  | .counts => { s with gen := s.gen + 1, begun := s.begun + 1 }.go task .programs
  | .programs => s.go task .gives
  | .gives => { s with mutex := none }.go task .out

def turnRead (s : CardLock τ σ) : CardLock τ σ :=
  match s.reads with
  | .out => s
  | .waits => if s.mutex.isNone then { s with mutex := some .read, reads := .reads } else s
  | .reads => { s with mutex := none, reads := .out }

def step (s : CardLock τ σ) : CardStep τ σ → CardLock τ σ
  | .write task => if s.writes task = .out then s.go task .waits else s
  | .turn task => s.turn task
  | .program task sector content =>
    if s.writes task = .programs then { s with card := Function.update s.card sector content }
    else s
  | .make => if s.reads = .out then { s with gen0 := s.gen, seen := [], begun := 0 } else s
  | .read => if s.reads = .out then { s with reads := .waits } else s
  | .turnRead => s.turnRead
  | .fetch sector =>
    if s.reads = .reads then { s with seen := s.seen ++ [(sector, s.card sector)] } else s

-- `SnapshotFs::unchanged`
def unchanged (s : CardLock τ σ) : Bool :=
  s.gen = s.gen0

end CardLock

def WritePc.Inside (pc : WritePc) : Prop :=
  pc = .counts ∨ pc = .programs ∨ pc = .gives

namespace CardLock

-- Who is behind the lock holds it. A view has read nothing while a write from before it
-- was made goes on, and what it has read is on the card until another begins.
structure Tracked (s : CardLock τ σ) : Prop where
  write : ∀ t, (s.writes t).Inside → s.mutex = some (.write t)
  read : s.reads = .reads → s.mutex = some .read
  gen : s.gen = s.gen0 + UInt32.ofNat s.begun
  unseen : s.begun = 0 → ∀ t, s.writes t = .programs → s.seen = []
  held : s.begun = 0 → ∀ r ∈ s.seen, s.card r.1 = r.2

variable {s : CardLock τ σ} {task : τ}

omit [DecidableEq τ] in
theorem tracked_start (card : Nat → σ) : (start card : CardLock τ σ).Tracked := by
  constructor
  case write =>
    intro t ht
    rcases ht with ht | ht | ht <;> cases ht
  case read =>
    intro hreads
    cases hreads
  case gen => rfl
  case unseen =>
    intro _ t ht
    cases ht
  case held =>
    intro _ r hr
    cases hr

-- Who is behind the lock once a task has gone on.
theorem inside_go {t : τ} {pc : WritePc} (h : ((s.go task pc).writes t).Inside) :
    t = task ∧ pc.Inside ∨ t ≠ task ∧ (s.writes t).Inside := by
  rw [CardLock.go] at h
  by_cases heq : t = task
  · subst heq
    exact .inl ⟨rfl, by simpa using h⟩
  · exact .inr ⟨heq, by simpa [heq] using h⟩

theorem programs_go {t : τ} {pc : WritePc} (hpc : pc ≠ .programs)
    (h : (s.go task pc).writes t = .programs) : s.writes t = .programs := by
  rw [CardLock.go] at h
  by_cases heq : t = task
  · subst heq
    exact absurd (by simpa using h) hpc
  · simpa [heq] using h

-- A read never lands in the midst of a write.
omit [DecidableEq τ] in
theorem Tracked.programs_ne (h : s.Tracked) (hreads : s.reads = .reads) (t : τ) :
    s.writes t ≠ .programs := by
  intro ht
  have htheirs := (h.write t (.inr (.inl ht))).symm.trans (h.read hreads)
  cases htheirs

theorem Tracked.go (h : s.Tracked) {pc : WritePc} (hinside : pc.Inside → (s.writes task).Inside)
    (hpc : pc ≠ .programs) : (s.go task pc).Tracked := by
  constructor
  case write =>
    intro t ht
    rcases inside_go ht with ⟨rfl, hmine⟩ | ⟨-, htheirs⟩
    · exact h.write t (hinside hmine)
    · exact h.write t htheirs
  case read => exact h.read
  case gen => exact h.gen
  case unseen => exact fun hbegun t ht => h.unseen hbegun t (programs_go hpc ht)
  case held => exact h.held

theorem Tracked.take (h : s.Tracked) (hfree : s.mutex = none) :
    Tracked ({ s with mutex := some (.write task) }.go task .counts) := by
  constructor
  case write =>
    intro t ht
    rcases inside_go ht with ⟨rfl, -⟩ | ⟨-, ht⟩
    · rfl
    · exact absurd ((h.write t ht).symm.trans hfree) (Option.some_ne_none _)
  case read =>
    intro hreads
    exact absurd ((h.read hreads).symm.trans hfree) (Option.some_ne_none _)
  case gen => exact h.gen
  case unseen => exact fun hbegun t ht => h.unseen hbegun t (programs_go (by decide) ht)
  case held => exact h.held

-- From now on the view is told of a write, whatever it reads.
theorem Tracked.count (h : s.Tracked) (hpc : s.writes task = .counts) :
    Tracked ({ s with gen := s.gen + 1, begun := s.begun + 1 }.go task .programs) := by
  constructor
  case write =>
    intro t ht
    rcases inside_go ht with ⟨rfl, -⟩ | ⟨-, ht⟩
    · exact h.write t (.inl hpc)
    · exact h.write t ht
  case read => exact h.read
  case gen =>
    change s.gen + 1 = s.gen0 + UInt32.ofNat (s.begun + 1)
    rw [h.gen, UInt32.ofNat_add, UInt32.add_assoc]
    rfl
  case unseen => exact fun hbegun => absurd hbegun (Nat.succ_ne_zero _)
  case held => exact fun hbegun => absurd hbegun (Nat.succ_ne_zero _)

theorem Tracked.give (h : s.Tracked) (hpc : s.writes task = .gives) :
    Tracked ({ s with mutex := none }.go task .out) := by
  have hmine : s.mutex = some (.write task) := h.write task (.inr (.inr hpc))
  constructor
  case write =>
    intro t ht
    rcases inside_go ht with ⟨-, ht⟩ | ⟨hne, ht⟩
    · rcases ht with ht | ht | ht <;> cases ht
    · have htheirs := (h.write t ht).symm.trans hmine
      cases htheirs
      exact absurd rfl hne
  case read =>
    intro hreads
    have htheirs := (h.read hreads).symm.trans hmine
    cases htheirs
  case gen => exact h.gen
  case unseen => exact fun hbegun t ht => h.unseen hbegun t (programs_go (by decide) ht)
  case held => exact h.held

theorem Tracked.turn (h : s.Tracked) (task : τ) : (s.turn task).Tracked := by
  rw [CardLock.turn]
  split
  next => exact h
  next =>
    split
    next hfree => exact h.take (Option.isNone_iff_eq_none.mp hfree)
    next => exact h
  next hpc => exact h.count hpc
  next hpc => exact h.go (fun _ => .inr (.inl hpc)) (by decide)
  next hpc => exact h.give hpc

omit [DecidableEq τ] in
theorem Tracked.turnRead (h : s.Tracked) : s.turnRead.Tracked := by
  rw [CardLock.turnRead]
  split
  next => exact h
  next =>
    split
    next hfree =>
      rw [Option.isNone_iff_eq_none] at hfree
      refine ⟨?_, fun _ => rfl, h.gen, h.unseen, h.held⟩
      intro t ht
      rw [h.write t ht] at hfree
      cases hfree
    next => exact h
  next hreads =>
    refine ⟨?_, ?_, h.gen, h.unseen, h.held⟩
    · intro t ht
      have htheirs := (h.write t ht).symm.trans (h.read hreads)
      cases htheirs
    · intro hagain
      cases hagain

theorem Tracked.step (h : s.Tracked) (e : CardStep τ σ) : (s.step e).Tracked := by
  cases e with
  | write task =>
    rw [CardLock.step]
    split
    next =>
      refine h.go ?_ (by decide)
      intro ht
      rcases ht with ht | ht | ht <;> cases ht
    next => exact h
  | turn task => exact h.turn task
  | program task sector content =>
    rw [CardLock.step]
    split
    next hpc =>
      refine ⟨h.write, h.read, h.gen, h.unseen, ?_⟩
      intro hbegun r hr
      change r ∈ s.seen at hr
      rw [h.unseen hbegun task hpc] at hr
      cases hr
    next => exact h
  | make =>
    rw [CardLock.step]
    split
    next =>
      refine ⟨h.write, h.read, (UInt32.add_zero s.gen).symm, fun _ _ _ => rfl, ?_⟩
      intro _ r hr
      cases hr
    next => exact h
  | read =>
    rw [CardLock.step]
    split
    next =>
      refine ⟨h.write, ?_, h.gen, h.unseen, h.held⟩
      intro hreads
      cases hreads
    next => exact h
  | turnRead => exact h.turnRead
  | fetch sector =>
    rw [CardLock.step]
    split
    next hreads =>
      refine ⟨h.write, h.read, h.gen, ?_, ?_⟩
      · exact fun _ t ht => absurd ht (h.programs_ne hreads t)
      · intro hbegun r hr
        rcases List.mem_append.mp hr with hr | hr
        · exact h.held hbegun r hr
        · rw [List.mem_singleton.mp hr]
    next => exact h

omit [DecidableEq τ] in
theorem Tracked.unchanged_iff (h : s.Tracked) (hbegun : s.begun < 4294967296) :
    s.unchanged = true ↔ s.begun = 0 := by
  rw [unchanged, decide_eq_true_eq, h.gen, UInt32.add_eq_left, ← UInt32.toNat_inj,
    UInt32.toNat_ofNat', Nat.mod_eq_of_lt hbegun]
  rfl

-- However the writes of a host and the reads of a view fall, and whatever part of a write
-- gets through: no read lands in the midst of a write, the view finds the card unchanged
-- exactly when no write has begun since it was made, and then all that it has read is what
-- the card holds.
theorem unchanged_holds (card : Nat → σ) (steps : List (CardStep τ σ))
    (hbegun : (run step (start card) steps).begun < 4294967296) :
    let s := run step (start card) steps
    (s.reads = .reads → ∀ t, s.writes t ≠ .programs) ∧
      (s.unchanged = true ↔ s.begun = 0) ∧
      (s.unchanged = true → ∀ r ∈ s.seen, s.card r.1 = r.2) := by
  intro s
  have hstep : ∀ (s : CardLock τ σ) e, s.Tracked → (s.step e).Tracked := fun _ e h => h.step e
  have h : s.Tracked := run_invariant hstep (tracked_start card) steps
  have hiff : s.unchanged = true ↔ s.begun = 0 := h.unchanged_iff hbegun
  exact ⟨h.programs_ne, hiff, fun hunchanged => h.held (hiff.mp hunchanged)⟩

-- The view is made in the midst of a write, and has to wait for its end.
def midWrite : List (CardStep Unit Nat) :=
  [.write (), .turn (), .turn (), .make, .read, .turnRead, .program () 1 7, .turn (), .turn (),
    .turnRead, .fetch 1, .turnRead]

theorem midWrite_holds :
    let s := run step (start fun _ => 0) midWrite
    (s.reads = .reads → ∀ t, s.writes t ≠ .programs) ∧
      (s.unchanged = true ↔ s.begun = 0) ∧
      (s.unchanged = true → ∀ r ∈ s.seen, s.card r.1 = r.2) :=
  unchanged_holds (fun _ => 0) midWrite (by decide)

example : (run step (start fun _ => 0) midWrite).unchanged = true ∧
    (run step (start fun _ => 0) midWrite).seen = [(1, 7)] := by
  decide

end CardLock

end Espos.UsbStorage
