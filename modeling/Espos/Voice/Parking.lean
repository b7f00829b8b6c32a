import Mathlib.Logic.Function.Basic
import Espos.Lib.Run

-- `pause`, `resume` and the feed loop of `wake_engine.cpp`, for a running engine. A step is
-- one access to what the tasks share.

namespace Espos.Voice

-- Who pauses: `start_wake_pipeline`, `ota_quiesce` and `ota_resume`, `probe_mic_levels`.
inductive User where
  | detection
  | ota
  | probe
deriving DecidableEq

-- Where a user is in `pause` and `resume`; `held` is between the two.
inductive Phase where
  | idle
  | drains
  | waits
  | releases
  | stops
  | held
  | rearms
  | drops
  | yields
  | awaits
  | starts
  | lists
  | opens
deriving DecidableEq

-- Where the feed loop is; `parking` has what it read of `paused_`.
inductive Feed where
  | top
  | looks
  | asks
  | parking (pausing : Bool)
  | publishes
  | leaves
  | records
  | feeds
deriving DecidableEq

-- `feedPaused` is whether the semaphore holds its token, `captures` how many
-- `capture_start` are outstanding, `parkedForPause` the feed loop's local.
structure WakeEngine where
  paused : Bool := false
  listening : Bool := true
  rearming : Bool := false
  feedParked : Bool := false
  feedPaused : Bool := false
  captures : Int := 1
  feed : Feed := .top
  parkedForPause : Bool := false
  phase : User → Phase := fun _ => .idle

namespace WakeEngine

inductive Step where
  | user (u : User) (gaveUp : Bool)
  | feed (muted : Bool) (whole : Bool)

def setPhase (s : WakeEngine) (u : User) (p : Phase) : WakeEngine :=
  { s with phase := Function.update s.phase u p }

-- `gaveUp`: the bounded wait for `feed_parked_` is over.
def userStep (s : WakeEngine) (u : User) (gaveUp : Bool) : WakeEngine :=
  match s.phase u with
  -- `pause`
  | .idle => if s.paused then s.setPhase u .held else { s with paused := true }.setPhase u .drains
  | .drains => { s with feedPaused := false }.setPhase u .waits
  | .waits => if s.feedPaused then { s with feedPaused := false }.setPhase u .releases else s
  | .releases =>
    if s.listening then { s with listening := false }.setPhase u .stops else s.setPhase u .held
  | .stops => { s with captures := s.captures - 1 }.setPhase u .held
  -- `resume`
  | .held => s.setPhase u (if s.paused then .rearms else .idle)
  | .rearms => { s with rearming := true }.setPhase u .drops
  | .drops =>
    if s.paused then { s with paused := false }.setPhase u .awaits else s.setPhase u .yields
  | .yields => { s with rearming := false }.setPhase u .idle
  | .awaits => if s.feedParked || gaveUp then s.setPhase u .starts else s
  | .starts => { s with captures := s.captures + 1 }.setPhase u .lists
  | .lists => { s with listening := true }.setPhase u .opens
  | .opens => { s with rearming := false }.setPhase u .idle

-- `muted` is what `muted_fn_` says, `whole` whether the read has completed a chunk.
def feedStep (s : WakeEngine) (muted whole : Bool) : WakeEngine :=
  match s.feed with
  | .top => { s with feed := if s.paused then .parking true else .looks }
  | .looks => { s with feed := if s.rearming then .parking false else .asks }
  | .asks => { s with feed := if muted then .parking false else .leaves }
  | .parking pausing =>
    { s with
      feedPaused := s.feedPaused || (pausing && !s.parkedForPause), parkedForPause := pausing,
      feed := .publishes }
  | .publishes => { s with feedParked := true, feed := .top }
  | .leaves => { s with feedParked := false, parkedForPause := false, feed := .records }
  | .records => { s with feed := if whole then .feeds else .top }
  | .feeds => { s with feed := .top }

def step (s : WakeEngine) : Step → WakeEngine
  | .user u gaveUp => s.userStep u gaveUp
  | .feed muted whole => s.feedStep muted whole

end WakeEngine

end Espos.Voice

-- Who has the microphone between a `pause` and its `resume`.

namespace Espos.Voice

open Espos.Run

-- From the exchange that set `paused_` to the one that clears it.
def Phase.owns : Phase → Bool
  | .drains | .waits | .releases | .stops | .held | .rearms | .drops => true
  | _ => false

def Phase.waiting : Phase → Bool
  | .drains | .waits => true
  | _ => false

-- The feed loop has parked for this user.
def Phase.parked : Phase → Bool
  | .releases | .stops | .held | .rearms | .drops => true
  | _ => false

-- `resume` from the end of the pause on, up to `listening_`.
def Phase.resuming : Phase → Bool
  | .awaits | .starts | .lists => true
  | _ => false

-- `listening_` is down for this user.
def Phase.off : Phase → Bool
  | .stops | .held | .rearms | .drops | .awaits | .starts | .lists => true
  | _ => false

def Phase.captures : Phase → Int
  | .stops | .lists => 1
  | _ => 0

-- `rearming_` may be up for this user.
def Phase.arming : Phase → Bool
  | .drops | .yields | .awaits | .starts | .lists | .opens => true
  | _ => false

def AtMostOne (f : Phase → Bool) (g : User → Phase) : Prop :=
  ∀ u v, f (g u) = true → f (g v) = true → u = v

section

variable {f : Phase → Bool} {g : User → Phase} {u : User} {p : Phase}

theorem AtMostOne.keep (h : AtMostOne f g) (hp : f p = true → f (g u) = true) :
    AtMostOne f (Function.update g u p) := by
  have hback : ∀ v, f (Function.update g u p v) = true → f (g v) = true := by
    intro v hv
    by_cases hvu : v = u
    · subst hvu
      exact hp (by simpa using hv)
    · simpa [hvu] using hv
  intro v w hv hw
  exact h v w (hback v hv) (hback w hw)

theorem AtMostOne.join (h : ∀ v, f (g v) = false) : AtMostOne f (Function.update g u p) := by
  have hback : ∀ v, f (Function.update g u p v) = true → v = u := by
    intro v hv
    by_contra hvu
    simp [hvu, h v] at hv
  intro v w hv hw
  exact (hback v hv).trans (hback w hw).symm

theorem exists_update_of_eq (hp : f p = f (g u)) :
    (∃ v, f (Function.update g u p v) = true) ↔ ∃ v, f (g v) = true := by
  have hsame : ∀ v, f (Function.update g u p v) = f (g v) := by
    intro v
    by_cases hvu : v = u
    · subst hvu
      simpa using hp
    · simp [hvu]
  simp only [hsame]

theorem exists_update (hp : f p = true) : ∃ v, f (Function.update g u p v) = true :=
  ⟨u, by simpa using hp⟩

theorem AtMostOne.leave (h : AtMostOne f g) (hu : f (g u) = true) (hp : f p = false) (v : User) :
    f (Function.update g u p v) = false := by
  by_cases hvu : v = u
  · subst hvu
    simpa using hp
  · by_contra hv
    have hv' : f (g v) = true := by simpa [hvu] using hv
    exact hvu (h v u hv' hu)

end

namespace WakeEngine

variable {s s' : WakeEngine} {u : User} {p : Phase}

-- `paused_` is up exactly while one user owns the pause.
structure Turns (s : WakeEngine) : Prop where
  one : AtMostOne Phase.owns s.phase
  paused : s.paused = true ↔ ∃ u, Phase.owns (s.phase u) = true

-- `listening_` and the captures, by the one user they are down for.
structure Captured (s : WakeEngine) : Prop where
  one : AtMostOne Phase.off s.phase
  off : ∀ u, Phase.off (s.phase u) = true →
    s.listening = false ∧ s.captures = Phase.captures (s.phase u)
  on : (∀ u, Phase.off (s.phase u) = false) → s.listening = true ∧ s.captures = 1

-- The feed loop goes round its park branch, and has given its token.
structure Quiet (s : WakeEngine) : Prop where
  feed : s.feed = .top ∨ s.feed = .parking true ∨ s.feed = .publishes
  given : s.parkedForPause = true

structure Handshake (s : WakeEngine) : Prop where
  parked : ∀ u, Phase.parked (s.phase u) = true → s.feedPaused = false ∧ Quiet s
  token : s.feedPaused = true → (∃ u, Phase.waiting (s.phase u) = true) ∧ Quiet s
  late : s.feed = .parking true → s.parkedForPause = false → s.paused = true

-- Users pause one at a time, and none takes the microphone from a `resume` that is still
-- on its way to start the capture.
def Apart (s : WakeEngine) : Step → Prop
  | .user u _ =>
    (s.phase u = .idle → s.paused = false) ∧
      (s.phase u = .releases → ∀ v, Phase.resuming (s.phase v) = false)
  | .feed _ _ => True

instance (f : User → Prop) [DecidablePred f] : Decidable (∀ u, f u) :=
  decidable_of_iff (f .detection ∧ f .ota ∧ f .probe)
    ⟨fun h u => by cases u <;> simp [h], fun h => ⟨h .detection, h .ota, h .probe⟩⟩

instance (s : WakeEngine) : (e : Step) → Decidable (Apart s e)
  | .user _ _ => inferInstanceAs (Decidable (_ ∧ _))
  | .feed _ _ => .isTrue trivial

theorem Turns.move (h : Turns s) (hphase : s'.phase = Function.update s.phase u p)
    (hpaused : s'.paused = s.paused) (hp : Phase.owns p = Phase.owns (s.phase u)) : Turns s' := by
  refine ⟨?_, ?_⟩
  · rw [hphase]
    exact h.one.keep fun hown => hp ▸ hown
  · rw [hpaused, h.paused, hphase]
    exact (exists_update_of_eq hp).symm

theorem turns_userStep (h : Turns s) (gaveUp : Bool) (ha : Apart s (.user u gaveUp)) :
    Turns (s.userStep u gaveUp) := by
  unfold userStep
  cases hp : s.phase u with
  | idle =>
    have hfree := ha.1 hp
    have hnone : ∀ v, Phase.owns (s.phase v) = false := by
      intro v
      by_contra hv
      have hpaused := h.paused.mpr ⟨v, by simpa using hv⟩
      simp [hfree] at hpaused
    simp only [hfree]
    exact ⟨.join hnone, iff_of_true rfl (exists_update rfl)⟩
  | drains | stops | rearms | yields | starts | lists | opens =>
    exact h.move rfl rfl (by rw [hp]; rfl)
  | waits =>
    simp only
    by_cases htoken : s.feedPaused = true
    · rw [if_pos htoken]
      exact h.move rfl rfl (by rw [hp]; rfl)
    · rw [if_neg htoken]
      exact h
  | releases =>
    simp only
    by_cases hlistening : s.listening = true
    · rw [if_pos hlistening]
      exact h.move rfl rfl (by rw [hp]; rfl)
    · rw [if_neg hlistening]
      exact h.move rfl rfl (by rw [hp]; rfl)
  | held =>
    have hpaused := h.paused.mpr ⟨u, by rw [hp]; rfl⟩
    simp only [hpaused]
    exact h.move rfl rfl (by rw [hp]; rfl)
  | drops =>
    have hown : Phase.owns (s.phase u) = true := by rw [hp]; rfl
    have hnone := fun v => h.one.leave (p := .awaits) hown rfl v
    simp only [h.paused.mpr ⟨u, hown⟩]
    refine ⟨h.one.keep nofun, ?_⟩
    simp [setPhase, hnone]
  | awaits =>
    simp only
    by_cases hend : (s.feedParked || gaveUp) = true
    · rw [if_pos hend]
      exact h.move rfl rfl (by rw [hp]; rfl)
    · rw [if_neg hend]
      exact h

theorem Captured.move (h : Captured s) (hphase : s'.phase = Function.update s.phase u p)
    (hlistening : s'.listening = s.listening) (hcaptures : s'.captures = s.captures)
    (hu : Phase.off (s.phase u) = false) (hp : Phase.off p = false) : Captured s' := by
  have hsame : ∀ v, Phase.off (s'.phase v) = true → s'.phase v = s.phase v := by
    intro v hv
    rw [hphase] at hv ⊢
    by_cases hvu : v = u
    · subst hvu
      simp [hp] at hv
    · simp [hvu]
  refine ⟨?_, ?_, ?_⟩
  · rw [hphase]
    exact h.one.keep fun hoff => absurd hoff (by simp [hp])
  · intro v hv
    have hback := hsame v hv
    obtain ⟨hdown, hcount⟩ := h.off v (hback ▸ hv)
    exact ⟨hlistening.trans hdown, hcaptures.trans (hcount.trans (congrArg _ hback.symm))⟩
  · intro hnone
    rw [hlistening, hcaptures]
    refine h.on fun v => ?_
    by_cases hvu : v = u
    · exact hvu ▸ hu
    · simpa [hphase, hvu] using hnone v

-- The user `listening_` is down for goes on, and the captures with it.
theorem Captured.count (h : Captured s) (hphase : s'.phase = Function.update s.phase u p)
    (hu : Phase.off (s.phase u) = true) (hp : Phase.off p = true)
    (hlistening : s'.listening = s.listening)
    (hcaptures : s'.captures = s.captures + (Phase.captures p - Phase.captures (s.phase u))) :
    Captured s' := by
  obtain ⟨hdown, hcount⟩ := h.off u hu
  have hone : AtMostOne Phase.off s'.phase := hphase ▸ h.one.keep fun _ => hu
  have hself : s'.phase u = p := by rw [hphase, Function.update_self]
  refine ⟨hone, ?_, fun hnone => ?_⟩
  · intro v hv
    obtain rfl : v = u := hone v u hv (hself ▸ hp)
    refine ⟨hlistening.trans hdown, ?_⟩
    rw [hself, hcaptures, hcount]
    omega
  · have hu' := hnone u
    rw [hself, hp] at hu'
    exact absurd hu' (by simp)

-- The owner of a pause that has not yet released the microphone, and no `resume` under way.
theorem none_off (h : Turns s) (hown : Phase.owns (s.phase u) = true)
    (hu : Phase.off (s.phase u) = false) (hr : ∀ v, Phase.resuming (s.phase v) = false) (v : User) :
    Phase.off (s.phase v) = false := by
  by_contra hoff
  have hv : Phase.owns (s.phase v) = true := by
    have hresuming := hr v
    cases hp : s.phase v <;> simp_all [Phase.owns, Phase.off, Phase.resuming]
  obtain rfl := h.one v u hv hown
  exact hoff hu

theorem captured_userStep (h : Captured s) (ht : Turns s) (gaveUp : Bool)
    (ha : Apart s (.user u gaveUp)) : Captured (s.userStep u gaveUp) := by
  unfold userStep
  cases hp : s.phase u with
  | idle =>
    simp only [ha.1 hp]
    exact h.move rfl rfl rfl (by rw [hp]; rfl) rfl
  | drains | yields | opens => exact h.move rfl rfl rfl (by rw [hp]; rfl) rfl
  | waits =>
    simp only
    by_cases htoken : s.feedPaused = true
    · rw [if_pos htoken]
      exact h.move rfl rfl rfl (by rw [hp]; rfl) rfl
    · rw [if_neg htoken]
      exact h
  | releases =>
    have hnone := none_off ht (by rw [hp]; rfl) (by rw [hp]; rfl) (ha.2 hp)
    obtain ⟨hlistening, hcaptures⟩ := h.on hnone
    simp only [hlistening]
    have hone : AtMostOne Phase.off (Function.update s.phase u .stops) := .join hnone
    refine ⟨hone, ?_, fun hoff => ?_⟩
    · intro v hv
      obtain rfl : v = u := hone v u hv (by simp [Phase.off])
      simpa [setPhase, Phase.captures] using hcaptures
    · have hu := hoff u
      simp [setPhase, Phase.off] at hu
  | stops =>
    exact h.count rfl (by rw [hp]; rfl) rfl rfl (by rw [hp]; rfl)
  | held =>
    simp only [ht.paused.mpr ⟨u, by rw [hp]; rfl⟩]
    exact h.count rfl (by rw [hp]; rfl) rfl rfl (by rw [hp]; exact (Int.add_zero _).symm)
  | rearms =>
    exact h.count rfl (by rw [hp]; rfl) rfl rfl (by rw [hp]; exact (Int.add_zero _).symm)
  | drops =>
    simp only [ht.paused.mpr ⟨u, by rw [hp]; rfl⟩]
    exact h.count rfl (by rw [hp]; rfl) rfl rfl (by rw [hp]; exact (Int.add_zero _).symm)
  | awaits =>
    simp only
    by_cases hend : (s.feedParked || gaveUp) = true
    · rw [if_pos hend]
      exact h.count rfl (by rw [hp]; rfl) rfl rfl (by rw [hp]; exact (Int.add_zero _).symm)
    · rw [if_neg hend]
      exact h
  | starts =>
    exact h.count rfl (by rw [hp]; rfl) rfl rfl (by rw [hp]; rfl)
  | lists =>
    obtain ⟨_, hcount⟩ := h.off u (by rw [hp]; rfl)
    have hnone := fun v => h.one.leave (p := .opens) (by rw [hp]; rfl) rfl v
    refine ⟨h.one.keep nofun, fun v hv => ?_, fun _ => ⟨rfl, ?_⟩⟩
    · simp [setPhase, hnone v] at hv
    · rw [hp] at hcount
      exact hcount

theorem Quiet.of_eq (h : Quiet s) (hfeed : s'.feed = s.feed)
    (hgiven : s'.parkedForPause = s.parkedForPause) : Quiet s' :=
  ⟨hfeed ▸ h.feed, hgiven.trans h.given⟩

theorem owns_of_parked (h : Phase.parked p = true) : Phase.owns p = true := by
  cases p <;> simp_all [Phase.parked, Phase.owns]

theorem owns_of_waiting (h : Phase.waiting p = true) : Phase.owns p = true := by
  cases p <;> simp_all [Phase.waiting, Phase.owns]

theorem waiting_or_parked (h : Phase.owns p = true) :
    Phase.waiting p = true ∨ Phase.parked p = true := by
  cases p <;> simp_all [Phase.waiting, Phase.parked, Phase.owns]

theorem Handshake.move (h : Handshake s) (hphase : s'.phase = Function.update s.phase u p)
    (hfeed : s'.feed = s.feed) (hgiven : s'.parkedForPause = s.parkedForPause)
    (htoken : s'.feedPaused = s.feedPaused) (hpaused : s'.paused = s.paused)
    (hp : Phase.parked p = true → Phase.parked (s.phase u) = true)
    (hw : Phase.waiting (s.phase u) = true → Phase.waiting p = true) : Handshake s' := by
  refine ⟨?_, ?_, ?_⟩
  · intro v hv
    have hold : Phase.parked (s.phase v) = true := by
      rw [hphase] at hv
      by_cases hvu : v = u
      · subst hvu
        exact hp (by simpa using hv)
      · simpa [hvu] using hv
    obtain ⟨hnone, hquiet⟩ := h.parked v hold
    exact ⟨htoken.trans hnone, hquiet.of_eq hfeed hgiven⟩
  · intro hgive
    obtain ⟨⟨v, hv⟩, hquiet⟩ := h.token (htoken ▸ hgive)
    refine ⟨⟨v, ?_⟩, hquiet.of_eq hfeed hgiven⟩
    rw [hphase]
    by_cases hvu : v = u
    · subst hvu
      simpa using hw hv
    · simpa [hvu] using hv
  · rw [hfeed, hgiven, hpaused]
    exact h.late

theorem handshake_userStep (h : Handshake s) (ht : Turns s) (gaveUp : Bool)
    (ha : Apart s (.user u gaveUp)) : Handshake (s.userStep u gaveUp) := by
  unfold userStep
  cases hp : s.phase u with
  | idle =>
    have hfree := ha.1 hp
    have hnone : ∀ v, Phase.owns (s.phase v) = true → False := by
      intro v hv
      have hpaused := ht.paused.mpr ⟨v, hv⟩
      simp [hfree] at hpaused
    simp only [hfree]
    refine ⟨fun v hv => ?_, fun htoken => ?_, fun _ _ => rfl⟩
    · have hold : Phase.parked (s.phase v) = true := by
        by_cases hvu : v = u
        · simp [setPhase, hvu, Phase.parked] at hv
        · simpa [setPhase, hvu] using hv
      exact (hnone v (owns_of_parked hold)).elim
    · obtain ⟨⟨v, hv⟩, _⟩ := h.token htoken
      exact (hnone v (owns_of_waiting hv)).elim
  | drains =>
    refine ⟨fun v hv => ?_, nofun, h.late⟩
    have hold : v ≠ u ∧ Phase.parked (s.phase v) = true := by
      by_cases hvu : v = u
      · simp [setPhase, hvu, Phase.parked] at hv
      · exact ⟨hvu, by simpa [setPhase, hvu] using hv⟩
    exact absurd (ht.one v u (owns_of_parked hold.2) (by rw [hp]; rfl)) hold.1
  | waits =>
    simp only
    by_cases htoken : s.feedPaused = true
    · rw [if_pos htoken]
      have hquiet := (h.token htoken).2
      exact ⟨fun _ _ => ⟨rfl, hquiet.of_eq rfl rfl⟩, nofun, h.late⟩
    · rw [if_neg htoken]
      exact h
  | releases =>
    simp only
    by_cases hlistening : s.listening = true
    · rw [if_pos hlistening]
      exact h.move rfl rfl rfl rfl rfl (by simp [hp, Phase.parked]) (by simp [hp, Phase.waiting])
    · rw [if_neg hlistening]
      exact h.move rfl rfl rfl rfl rfl (by simp [hp, Phase.parked]) (by simp [hp, Phase.waiting])
  | held =>
    simp only [ht.paused.mpr ⟨u, by rw [hp]; rfl⟩]
    exact h.move rfl rfl rfl rfl rfl (by simp [hp, Phase.parked]) (by simp [hp, Phase.waiting])
  | drops =>
    have hown : Phase.owns (s.phase u) = true := by rw [hp]; rfl
    obtain ⟨hnone, hquiet⟩ := h.parked u (by rw [hp]; rfl)
    simp only [ht.paused.mpr ⟨u, hown⟩]
    refine ⟨fun v hv => ?_, fun htoken => ?_, fun _ hgiven => ?_⟩
    · exact ⟨hnone, hquiet.of_eq rfl rfl⟩
    · exact absurd (hnone.symm.trans htoken) (by simp)
    · exact absurd (hquiet.given.symm.trans hgiven) (by simp)
  | stops | rearms | yields | starts | lists | opens =>
    exact h.move rfl rfl rfl rfl rfl (by simp [hp, Phase.parked]) (by simp [hp, Phase.waiting])
  | awaits =>
    simp only
    by_cases hend : (s.feedParked || gaveUp) = true
    · rw [if_pos hend]
      exact h.move rfl rfl rfl rfl rfl (by simp [Phase.parked]) (by simp [hp, Phase.waiting])
    · rw [if_neg hend]
      exact h

-- Nobody is parked for, and no token is out.
theorem Handshake.of_free (h : Handshake s) (hfree : ¬ Quiet s ∨ ∀ v, Phase.owns (s.phase v) = false)
    (hphase : s'.phase = s.phase) (htoken : s'.feedPaused = s.feedPaused)
    (hfeed : s'.feed ≠ .parking true) : Handshake s' := by
  refine ⟨fun v hv => ?_, fun hgive => ?_, fun hlate => absurd hlate hfeed⟩
  · rw [hphase] at hv
    rcases hfree with hnot | hnone
    · exact absurd (h.parked v hv).2 hnot
    · exact absurd (owns_of_parked hv) (by simp [hnone v])
  · obtain ⟨⟨v, hv⟩, hquiet⟩ := h.token (htoken ▸ hgive)
    rcases hfree with hnot | hnone
    · exact absurd hquiet hnot
    · exact absurd (owns_of_waiting hv) (by simp [hnone v])

theorem Handshake.of_quiet (h : Handshake s) (hquiet : Quiet s → Quiet s')
    (hphase : s'.phase = s.phase) (htoken : s'.feedPaused = s.feedPaused)
    (hlate : s'.feed = .parking true → s'.parkedForPause = false → s'.paused = true) :
    Handshake s' := by
  refine ⟨fun v hv => ?_, fun hgive => ?_, hlate⟩
  · obtain ⟨hnone, hold⟩ := h.parked v (hphase ▸ hv)
    exact ⟨htoken.trans hnone, hquiet hold⟩
  · obtain ⟨hwaiting, hold⟩ := h.token (htoken ▸ hgive)
    exact ⟨hphase ▸ hwaiting, hquiet hold⟩

theorem not_quiet (h : s.feed ≠ .top ∧ s.feed ≠ .parking true ∧ s.feed ≠ .publishes) :
    ¬ Quiet s := by
  rintro ⟨htop | hparking | hpublishes, _⟩
  · exact h.1 htop
  · exact h.2.1 hparking
  · exact h.2.2 hpublishes

-- The token goes to an owner that still waits: for one that does not, it has been given.
theorem Handshake.gives (h : Handshake s) (ht : Turns s) (hfeed : s.feed = .parking true)
    (hgiven : s.parkedForPause = false) :
    (∃ v, Phase.waiting (s.phase v) = true) ∧ ∀ v, Phase.parked (s.phase v) = false := by
  have hnone : ∀ v, Phase.parked (s.phase v) = false := by
    intro v
    by_contra hv
    have hquiet := (h.parked v (by simpa using hv)).2
    simp [hquiet.given] at hgiven
  obtain ⟨v, hv⟩ := ht.paused.mp (h.late hfeed hgiven)
  refine ⟨⟨v, (waiting_or_parked hv).resolve_right ?_⟩, hnone⟩
  simp [hnone v]

theorem handshake_feedStep (h : Handshake s) (ht : Turns s) (muted whole : Bool) :
    Handshake (s.feedStep muted whole) := by
  unfold feedStep
  cases hpc : s.feed with
  | top =>
    by_cases hpaused : s.paused = true
    · simp only [hpaused]
      exact h.of_quiet (fun hq => ⟨.inr (.inl rfl), hq.given⟩) rfl rfl fun _ _ => rfl
    · have hnone : ∀ v, Phase.owns (s.phase v) = false := by
        intro v
        by_contra hv
        exact hpaused (ht.paused.mpr ⟨v, by simpa using hv⟩)
      simp only [hpaused]
      exact h.of_free (.inr hnone) rfl rfl nofun
  | looks =>
    refine h.of_free (.inl (not_quiet (by simp [hpc]))) rfl rfl ?_
    cases s.rearming <;> simp
  | asks =>
    refine h.of_free (.inl (not_quiet (by simp [hpc]))) rfl rfl ?_
    cases muted <;> simp
  | parking pausing =>
    cases pausing with
    | false =>
      refine h.of_free (.inl (not_quiet (by simp [hpc]))) rfl ?_ nofun
      simp
    | true =>
      cases hgiven : s.parkedForPause with
      | true =>
        refine h.of_quiet (fun _ => ⟨.inr (.inr rfl), rfl⟩) rfl ?_ nofun
        simp
      | false =>
        obtain ⟨hwaiting, hnone⟩ := h.gives ht hpc hgiven
        refine ⟨fun v hv => ?_, fun _ => ⟨hwaiting, .inr (.inr rfl), rfl⟩, nofun⟩
        exact absurd hv (by simp [hnone v])
  | publishes =>
    exact h.of_quiet (fun hq => ⟨.inl rfl, hq.given⟩) rfl rfl nofun
  | leaves => exact h.of_free (.inl (not_quiet (by simp [hpc]))) rfl rfl nofun
  | records =>
    refine h.of_free (.inl (not_quiet (by simp [hpc]))) rfl rfl ?_
    cases whole <;> simp
  | feeds => exact h.of_free (.inl (not_quiet (by simp [hpc]))) rfl rfl nofun

-- `rearming_` is up only for a user on its way out of `resume`.
def Armed (s : WakeEngine) : Prop :=
  s.rearming = true → ∃ u, Phase.arming (s.phase u) = true

theorem Armed.move (h : Armed s) (hphase : s'.phase = Function.update s.phase u p)
    (hrearming : s'.rearming = true → s.rearming = true)
    (hp : Phase.arming (s.phase u) = true → Phase.arming p = true) : Armed s' := by
  intro hup
  obtain ⟨v, hv⟩ := h (hrearming hup)
  refine ⟨v, ?_⟩
  rw [hphase]
  by_cases hvu : v = u
  · subst hvu
    simpa using hp hv
  · simpa [hvu] using hv

theorem armed_userStep (h : Armed s) (gaveUp : Bool) : Armed (s.userStep u gaveUp) := by
  unfold userStep
  cases hp : s.phase u with
  | idle =>
    simp only
    by_cases hpaused : s.paused = true
    · rw [if_pos hpaused]
      exact h.move rfl id (by simp [hp, Phase.arming])
    · rw [if_neg hpaused]
      exact h.move rfl id (by simp [hp, Phase.arming])
  | drains | stops | starts | lists => exact h.move rfl id (by simp [hp, Phase.arming])
  | waits =>
    simp only
    by_cases htoken : s.feedPaused = true
    · rw [if_pos htoken]
      exact h.move rfl id (by simp [hp, Phase.arming])
    · rw [if_neg htoken]
      exact h
  | releases =>
    simp only
    by_cases hlistening : s.listening = true
    · rw [if_pos hlistening]
      exact h.move rfl id (by simp [hp, Phase.arming])
    · rw [if_neg hlistening]
      exact h.move rfl id (by simp [hp, Phase.arming])
  | held => exact h.move rfl id (by simp [hp, Phase.arming])
  | rearms => exact fun _ => exists_update rfl
  | drops =>
    simp only
    by_cases hpaused : s.paused = true
    · rw [if_pos hpaused]
      exact h.move rfl id (by simp [Phase.arming])
    · rw [if_neg hpaused]
      exact h.move rfl id (by simp [Phase.arming])
  | yields | opens => exact nofun
  | awaits =>
    simp only
    by_cases hend : (s.feedParked || gaveUp) = true
    · rw [if_pos hend]
      exact h.move rfl id (by simp [Phase.arming])
    · rw [if_neg hend]
      exact h

structure ParkInv (s : WakeEngine) : Prop where
  turns : Turns s
  captured : Captured s
  handshake : Handshake s
  armed : Armed s

theorem parkInv_step (s : WakeEngine) (e : Step) (h : ParkInv s) (ha : Apart s e) :
    ParkInv (s.step e) := by
  obtain ⟨hturns, hcaptured, hhandshake, harmed⟩ := h
  cases e with
  | user u gaveUp =>
    exact ⟨turns_userStep hturns gaveUp ha, captured_userStep hcaptured hturns gaveUp ha,
      handshake_userStep hhandshake hturns gaveUp ha, armed_userStep harmed gaveUp⟩
  | feed muted whole =>
    have hframe : (s.feedStep muted whole).phase = s.phase ∧
        (s.feedStep muted whole).paused = s.paused ∧
        (s.feedStep muted whole).listening = s.listening ∧
        (s.feedStep muted whole).captures = s.captures ∧
        (s.feedStep muted whole).rearming = s.rearming := by
      cases hpc : s.feed <;> simp [feedStep, hpc]
    obtain ⟨hphase, hpaused, hlistening, hcaptures, hrearming⟩ := hframe
    refine ⟨?_, ?_, handshake_feedStep hhandshake hturns muted whole, ?_⟩
    · refine ⟨?_, ?_⟩
      · simpa only [step, hphase] using hturns.one
      · simpa only [step, hphase, hpaused] using hturns.paused
    · refine ⟨?_, ?_, ?_⟩
      · simpa only [step, hphase] using hcaptured.one
      · simpa only [step, hphase, hlistening, hcaptures] using hcaptured.off
      · simpa only [step, hphase, hlistening, hcaptures] using hcaptured.on
    · simpa only [Armed, step, hphase, hrearming] using harmed

theorem parkInv_started : ParkInv {} := by
  refine ⟨⟨nofun, ?_⟩, ⟨nofun, nofun, fun _ => ⟨rfl, rfl⟩⟩, ⟨nofun, nofun, nofun⟩, nofun⟩
  simp [Phase.owns]

-- A user that has paused has the microphone to itself, and when all are done the engine is
-- back at it.
structure Parked (s : WakeEngine) : Prop where
  held : ∀ u, s.phase u = .held → s.feed ≠ .records ∧ s.feed ≠ .feeds ∧ s.captures = 0
  resumed : (∀ u, s.phase u = .idle) →
    s.paused = false ∧ s.rearming = false ∧ s.listening = true ∧ s.captures = 1

theorem ParkInv.parked (h : ParkInv s) : Parked s := by
  refine ⟨fun u hu => ?_, fun hidle => ?_⟩
  · obtain ⟨_, hcaptures⟩ := h.captured.off u (by rw [hu]; rfl)
    have hquiet := (h.handshake.parked u (by rw [hu]; rfl)).2
    rw [hu] at hcaptures
    refine ⟨fun hpc => ?_, fun hpc => ?_, hcaptures⟩
    · exact not_quiet (by simp [hpc]) hquiet
    · exact not_quiet (by simp [hpc]) hquiet
  · have hon := h.captured.on fun u => by rw [hidle u]; rfl
    refine ⟨?_, ?_, hon⟩
    · by_contra hpaused
      obtain ⟨u, hu⟩ := h.turns.paused.mp (by simpa using hpaused)
      simp [hidle u, Phase.owns] at hu
    · by_contra hrearming
      obtain ⟨u, hu⟩ := h.armed (by simpa using hrearming)
      simp [hidle u, Phase.arming] at hu

theorem parked_of_apart (es : List Step) (h : Along step Apart {} es) :
    Always step Parked {} es :=
  (always_of_along parkInv_step parkInv_started h).imp fun _ hs => hs.parked

def users (u : User) (n : Nat) : List Step := List.replicate n (.user u false)

def feeds (n : Nat) : List Step := List.replicate n (.feed false true)

-- From the top of the feed loop: a pause, and a resume with the feed loop still parking.
def pauses (u : User) : List Step := users u 2 ++ feeds 2 ++ users u 3

def resumes (u : User) : List Step := users u 3 ++ feeds 5 ++ users u 4

theorem parked_of_apart_in_turn :
    Always step Parked {} (pauses .detection ++ resumes .detection ++ feeds 6 ++ pauses .ota ++
        resumes .ota) ∧
      (run step {} (pauses .detection ++ resumes .detection ++ feeds 6 ++ pauses .ota)).phase .ota =
        .held ∧
      ∀ u, (run step {} (pauses .detection ++ resumes .detection ++ feeds 6 ++ pauses .ota ++
        resumes .ota)).phase u = .idle :=
  ⟨parked_of_apart _ (by decide), by decide, by decide⟩

-- A second pause comes back at once, and its user still holds it when the first resumes.
def overlapping : List Step :=
  pauses .detection ++ users .ota 1 ++ resumes .detection ++ feeds 4

-- A pause overtakes a resume that is about to start the capture.
def overtaking : List Step :=
  pauses .detection ++ users .detection 3 ++ feeds 5 ++ users .ota 2 ++ feeds 2 ++ users .ota 2 ++
    users .detection 4 ++ resumes .ota

theorem recording_while_parked :
    (run step {} overlapping).phase .ota = .held ∧ (run step {} overlapping).feed = .records ∧
      (run step {} overlapping).captures = 1 ∧
      (∀ u, (run step {} overtaking).phase u = .idle) ∧ (run step {} overtaking).captures = 2 := by
  decide

end WakeEngine

end Espos.Voice
