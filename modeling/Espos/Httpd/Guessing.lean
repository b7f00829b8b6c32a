import Espos.Httpd.Justified

-- How fast keys can be guessed: the keys that were compared, beside the counters
-- of the throttle.

namespace Espos.Httpd

open Espos.Clock Espos.Text Espos.Run

-- A key that was compared, and whether the miss starts a lockout.
structure Attempt where
  time : Nat
  hit : Bool
  locks : Bool
deriving DecidableEq

-- The key a call hands to `check_key`.
def Call.presents (p : Policy) (now : UInt32) : Call → Option (Option CStr)
  | .checkKey presented => some presented
  | .decide rq =>
    if rq.fromPortal && p.portalExempt now then none
    else if ¬p.configured then none
    else rq.bearer.map some
  | _ => none

-- `check_key` comes to the comparison.
def Policy.compares (p : Policy) (now : UInt32) : Bool :=
  !p.throttled now && p.configured

def Call.attempt (p : Policy) (t : Nat) (call : Call) : Option Attempt :=
  match call.presents p (clock t) with
  | none => none
  | some presented =>
    if p.compares (clock t) then
      let r := p.checkKey (clock t) presented
      some ⟨t, r.1 = .allow, r.2.locked⟩
    else none

-- Not in the code: `attempts`.
structure Guesses where
  trail : Trail
  attempts : List Attempt

-- What the throttle remembers.
structure Throttle where
  failCount : UInt32
  failFirstS : UInt32
  lockoutUntilS : UInt32
  locked : Bool

def Policy.throttle (p : Policy) : Throttle :=
  ⟨p.failCount, p.failFirstS, p.lockoutUntilS, p.locked⟩

namespace Throttle

-- A hit, and a miss, in a throttle that is not locked.
def hit (c : Throttle) : Throttle :=
  { c with failCount := 0, locked := false }

-- The window of the misses counted so far is over, or there are none.
def fresh (c : Throttle) (now : UInt32) : Bool :=
  decide (c.failCount = 0 ∨ failWindowS ≤ now - c.failFirstS)

def miss (c : Throttle) (now : UInt32) : Throttle :=
  let failCount := (if c.fresh now then 0 else c.failCount) + 1
  let failFirstS := if c.fresh now then now else c.failFirstS
  if failMax ≤ failCount then ⟨0, failFirstS, now + lockoutS, true⟩
  else ⟨failCount, failFirstS, c.lockoutUntilS, false⟩

-- Nothing but a lockout that is over may be gone.
def Eased (now : UInt32) (c c' : Throttle) : Prop :=
  c' = c ∨ reached now c.lockoutUntilS ∧ c' = { c with locked := false }

end Throttle

namespace Guesses

def start (sessionCount : Nat) (ttlS : UInt32) (requireKey : Bool) : Guesses :=
  ⟨.start sessionCount ttlS requireKey, []⟩

def step (g : Guesses) (input : Nat × Call) : Guesses :=
  ⟨g.trail.step input, g.attempts ++ (input.2.attempt g.trail.policy input.1).toList⟩

end Guesses

section Step

variable {p : Policy} {now : UInt32}

theorem checkKey_idle (h : p.compares now = false) (presented : Option CStr) :
    Throttle.Eased now p.throttle (p.checkKey now presented).2.throttle := by
  rw [Policy.checkKey]
  by_cases hrunning : p.locked = true ∧ ¬reached now p.lockoutUntilS
  · rw [if_pos hrunning]
    exact Or.inl rfl
  · rw [if_neg hrunning]
    have hconfigured : p.configured = false := by
      have hidle : p.throttled now = false := decide_eq_false hrunning
      simpa [Policy.compares, hidle] using h
    by_cases hlocked : p.locked = true
    · have hover : reached now p.lockoutUntilS := by
        by_contra hnot
        exact hrunning ⟨hlocked, hnot⟩
      have hopen : Policy.configured { p with locked := false } = false := hconfigured
      simp only [if_pos hlocked, hopen]
      exact Or.inr ⟨hover, rfl⟩
    · simp only [if_neg hlocked, hconfigured]
      exact Or.inl rfl

theorem checkKey_compares (h : p.compares now = true) (presented : Option CStr) :
    (p.checkKey now presented).1 = .allow ∧
        (p.checkKey now presented).2.throttle = p.throttle.hit ∨
      (p.checkKey now presented).1 = .unauthorized ∧
        (p.checkKey now presented).2.throttle = p.throttle.miss now := by
  rw [Policy.compares, Bool.and_eq_true, Bool.not_eq_true'] at h
  have hrunning : ¬(p.locked = true ∧ ¬reached now p.lockoutUntilS) :=
    of_decide_eq_false h.1
  have hunlock : (if p.locked = true then { p with locked := false } else p) =
      { p with locked := false } := by
    by_cases hlocked : p.locked = true
    · rw [if_pos hlocked]
    · rw [if_neg hlocked]
      rw [Bool.not_eq_true] at hlocked
      rw [← hlocked]
  have hopen : Policy.configured { p with locked := false } = true := h.2
  rw [Policy.checkKey, if_neg hrunning]
  simp only [hunlock, hopen, not_true_eq_false, if_false]
  by_cases hequal : ctEqual p.key.chars p.key.chars.length (presented.getD [])
      (strnlen (presented.getD []) (keyMax + 1)) (keyMax + 1) = true
  · rw [if_pos hequal]
    exact Or.inl ⟨rfl, rfl⟩
  · rw [if_neg hequal]
    refine Or.inr ⟨rfl, ?_⟩
    by_cases hfresh : p.failCount = 0 ∨ failWindowS ≤ now - p.failFirstS
    · have hfresh' : p.throttle.fresh now = true := decide_eq_true hfresh
      simp only [Policy.strike, if_pos hfresh, Throttle.miss, hfresh', if_true]
      by_cases hmax : failMax ≤ 0 + 1
      · simp only [if_pos hmax, Policy.throttle]
      · simp only [if_neg hmax, Policy.throttle]
    · have hfresh' : p.throttle.fresh now = false := decide_eq_false hfresh
      simp only [Policy.strike, if_neg hfresh, Throttle.miss, hfresh', Bool.false_eq_true, if_false]
      by_cases hmax : failMax ≤ p.failCount + 1
      · rw [if_pos hmax, if_pos (show failMax ≤ p.throttle.failCount + 1 from hmax)]
        rfl
      · rw [if_neg hmax, if_neg (show ¬failMax ≤ p.throttle.failCount + 1 from hmax)]
        rfl

theorem sessionOpen_throttle (p : Policy) (now : UInt32) (random : Fin 4 → UInt32)
    (idSize : Option Nat) : (p.sessionOpen now random idSize).2.throttle = p.throttle := by
  rw [Policy.sessionOpen]
  by_cases hrefused : p.sessions.length = 0 ∨ idSize.all (· < sidLen + 1)
  · rw [if_pos hrefused]
  · rw [if_neg hrefused]
    dsimp only
    cases Policy.pickSlot none 0 (p.sweep now).sessions with
    | none => rfl
    | some i => rfl

theorem sessionValid_throttle (p : Policy) (now : UInt32) (id : Option CStr) :
    (p.sessionValid now id).2.throttle = p.throttle := by
  cases id with
  | none => rfl
  | some id =>
    obtain ⟨i, hi⟩ := Trail.sessionValid_eq p now id
    rw [hi]
    rfl

theorem sessionClose_throttle (p : Policy) (now : UInt32) (id : Option CStr) :
    (p.sessionClose now id).throttle = p.throttle := by
  cases id with
  | none => rfl
  | some id =>
    simp only [Policy.sessionClose, Policy.find]
    cases Policy.hitFrom id none 0 (p.sweep now).sessions with
    | none => rfl
    | some i => rfl

theorem recoveryOpen_throttle (p : Policy) (now seconds : UInt32) :
    (p.recoveryOpen now seconds).throttle = p.throttle := by
  rw [Policy.recoveryOpen]
  by_cases hzero : seconds = 0
  · rw [if_pos hzero]
    rfl
  · rw [if_neg hzero]
    rfl

-- What `decide` does with the throttle is `check_key`'s work.
theorem decide_throttle (p : Policy) (now : UInt32) (rq : Request) :
    (p.decide now rq).2.2.throttle =
      match (Call.decide rq).presents p now with
      | none => p.throttle
      | some presented => (p.checkKey now presented).2.throttle := by
  simp only [Policy.decide, Call.presents]
  by_cases hportal : (rq.fromPortal && p.portalExempt now) = true
  · rw [if_pos hportal, if_pos hportal]
  · rw [if_neg hportal, if_neg hportal]
    by_cases hopen : ¬p.configured = true
    · rw [if_pos hopen, if_pos hopen]
    · rw [if_neg hopen, if_neg hopen]
      cases rq.bearer with
      | some bearer => rfl
      | none =>
        cases rq.cookieSid with
        | none => rfl
        | some sid =>
          have hsame := sessionValid_throttle p now (some sid)
          simp only [Option.map_none]
          generalize p.sessionValid now (some sid) = r at hsame
          obtain ⟨valid, p'⟩ := r
          cases valid with
          | false => exact hsame
          | true => exact hsame

-- What one call does to the throttle, beside the key it compares.
def Notes (p p' : Policy) (t : Nat) (attempt : Option Attempt) : Prop :=
  attempt = none ∧ Throttle.Eased (clock t) p.throttle p'.throttle ∨
    p.throttled (clock t) = false ∧
      (attempt = some ⟨t, true, false⟩ ∧ p'.throttle = p.throttle.hit ∨
        attempt = some ⟨t, false, (p.throttle.miss (clock t)).locked⟩ ∧
          p'.throttle = p.throttle.miss (clock t))

theorem notes_silent {p p' : Policy} {t : Nat} {call : Call}
    (hnone : call.presents p (clock t) = none) (hsame : p'.throttle = p.throttle) :
    Notes p p' t (call.attempt p t) := by
  rw [Call.attempt, hnone]
  exact Or.inl ⟨rfl, Or.inl hsame⟩

theorem notes_checked {p p' : Policy} {t : Nat} {call : Call} {presented : Option CStr}
    (hsome : call.presents p (clock t) = some presented)
    (hsame : p'.throttle = (p.checkKey (clock t) presented).2.throttle) :
    Notes p p' t (call.attempt p t) := by
  have hlocked : (p.checkKey (clock t) presented).2.locked = p'.throttle.locked := by
    rw [hsame]
    rfl
  simp only [Call.attempt, hsome]
  cases hcompares : p.compares (clock t) with
  | false =>
    refine Or.inl ⟨rfl, ?_⟩
    rw [hsame]
    exact checkKey_idle hcompares presented
  | true =>
    have hidle : p.throttled (clock t) = false := by
      rw [Policy.compares, Bool.and_eq_true, Bool.not_eq_true'] at hcompares
      exact hcompares.1
    simp only [if_true, hlocked]
    refine Or.inr ⟨hidle, ?_⟩
    rcases checkKey_compares hcompares presented with ⟨hv, hhit⟩ | ⟨hv, hmiss⟩
    · rw [hsame, hhit, hv]
      exact Or.inl ⟨rfl, rfl⟩
    · rw [hsame, hmiss, hv]
      exact Or.inr ⟨rfl, rfl⟩

theorem notes_step (w : Trail) (t : Nat) (call : Call) :
    Notes w.policy (w.step (t, call)).policy t (call.attempt w.policy t) := by
  cases call with
  | setKey key => exact notes_silent rfl rfl
  | setTtl ttlS => exact notes_silent rfl rfl
  | sessionOpen random idSize =>
    exact notes_silent rfl (sessionOpen_throttle w.policy (clock t) random idSize)
  | sessionValid id => exact notes_silent rfl (sessionValid_throttle w.policy (clock t) id)
  | sessionClose id => exact notes_silent rfl (sessionClose_throttle w.policy (clock t) id)
  | sessionsClear => exact notes_silent rfl rfl
  | sessionsLive => exact notes_silent rfl rfl
  | recoveryOpen seconds =>
    exact notes_silent rfl (recoveryOpen_throttle w.policy (clock t) seconds)
  | checkKey presented => exact notes_checked rfl rfl
  | decide rq =>
    have hthrottle := decide_throttle w.policy (clock t) rq
    cases hpresents : (Call.decide rq).presents w.policy (clock t) with
    | none =>
      rw [hpresents] at hthrottle
      exact notes_silent hpresents hthrottle
    | some presented =>
      rw [hpresents] at hthrottle
      exact notes_checked hpresents hthrottle

end Step

section Runs

-- The last attempt of these ended a count: a hit, or a miss that locked.
def Ended (older : List Attempt) : Prop :=
  ∀ a, older.getLast? = some a → a.hit = true ∨ a.locks = true

-- `streak` are the misses the throttle counts, and `prev` those it counted before
-- their window was over.
structure Counts (c : Throttle) (older prev streak : List Attempt) : Prop where
  count : streak.length = c.failCount.toNat
  below : c.failCount < failMax
  before : prev.length < failMax.toNat
  since : ∀ a, streak.head? = some a → c.failFirstS = clock a.time
  window : ∀ a, prev.head? = some a →
    ∃ b, streak.head? = some b ∧ a.time + failWindowS.toNat ≤ b.time
  ended : prev = [] → Ended older

-- Ten misses without a hit in between: one of the first nine locked, or they are
-- spread over the window.
def Spread (ms : List Attempt) : Prop :=
  (∃ m ∈ ms.dropLast, m.locks = true) ∨ ∃ first last, ms.head? = some first ∧
    ms.getLast? = some last ∧ first.time + failWindowS.toNat ≤ last.time

-- What holds of a run up to the time `t`.
structure Guesses.Sound (t₀ t : Nat) (g : Guesses) : Prop where
  timely : ∀ a ∈ g.attempts, t₀ ≤ a.time ∧ a.time ≤ t
  ordered : g.attempts.Pairwise fun a b => a.time ≤ b.time
  counts : ∃ older prev streak, g.attempts = older ++ (prev ++ streak) ∧
    Counts g.trail.policy.throttle older prev streak
  running : ∀ a ∈ g.attempts, a.locks = true → a.time + lockoutS.toNat ≤ t ∨
    g.trail.policy.locked = true ∧ g.trail.policy.lockoutUntilS = clock (a.time + lockoutS.toNat)
  locked : g.attempts.Pairwise fun a b => a.locks = true → a.time + lockoutS.toNat ≤ b.time
  spread : ∀ before ms after, g.attempts = before ++ ms ++ after →
    ms.length = 2 * failMax.toNat → (∀ m ∈ ms, m.hit = false) → Spread ms

variable {t₀ t : Nat} {c : Throttle} {older prev streak : List Attempt}

theorem clock_sub {f t : Nat} (hf : f ≤ t) (ht : t < f + 2 ^ 31) :
    (clock t - clock f).toNat = t - f := by
  rw [UInt32.toNat_sub]
  simp only [clock, UInt32.toNat_ofNat']
  omega

-- Another miss behind those the throttle has seen, be it the last of ten.
theorem Counts.spread {attempts ms : List Attempt} {a : Attempt}
    (h : Counts c older prev streak) (hattempts : attempts = older ++ (prev ++ streak))
    (hordered : (attempts ++ [a]).Pairwise fun a b => a.time ≤ b.time)
    (hms : ms <:+ attempts) (hlen : ms.length + 1 = 2 * failMax.toNat)
    (hmiss : ∀ m ∈ ms, m.hit = false) : Spread (ms ++ [a]) := by
  have hcount := h.count
  have hbelow := h.below
  have hbefore := h.before
  rw [UInt32.lt_iff_toNat_lt] at hbelow
  have hshort : (prev ++ streak).length ≤ ms.length := by
    rw [List.length_append]
    omega
  obtain ⟨x, rfl⟩ := List.suffix_of_suffix_length_le ⟨older, hattempts.symm⟩ hms hshort
  have hsub := hms.sublist
  obtain ⟨z, hz⟩ := hms
  have hmax : failMax.toNat = 5 := rfl
  have hx : x ≠ [] := by
    rintro rfl
    rw [List.nil_append, List.length_append] at hlen
    omega
  cases prev with
  | nil =>
    have holder : z ++ x = older := by
      rw [hattempts, ← List.append_assoc] at hz
      exact List.append_cancel_right hz
    obtain ⟨m, hm⟩ : ∃ m, x.getLast? = some m := ⟨_, List.getLast?_eq_some_getLast hx⟩
    have hmem := List.mem_append_left ([] ++ streak) (List.mem_of_getLast? hm)
    have hended := h.ended rfl m (by rw [← holder, List.getLast?_append, hm]; rfl)
    rw [hmiss m hmem, Bool.false_eq_true, false_or] at hended
    exact Or.inl ⟨m, by rwa [List.dropLast_concat], hended⟩
  | cons p prev =>
    obtain ⟨b, hb, hwindow⟩ := h.window p rfl
    obtain ⟨rest, rfl⟩ : ∃ rest, streak = b :: rest := by
      cases streak with
      | nil => cases hb
      | cons b' rest =>
        obtain rfl := Option.some.inj hb
        exact ⟨rest, rfl⟩
    obtain ⟨first, x, rfl⟩ := List.exists_cons_of_ne_nil hx
    have hsorted : (first :: x ++ (p :: prev ++ b :: rest) ++ [a]).Pairwise
        fun a b => a.time ≤ b.time :=
      hordered.sublist (hsub.append_right [a])
    have hfirst : first.time ≤ p.time := by
      rw [List.append_assoc, List.cons_append, List.pairwise_cons] at hsorted
      exact hsorted.1 p (by simp)
    have hlast : b.time ≤ a.time := by
      rw [List.pairwise_append] at hsorted
      exact hsorted.2.2 b (by simp) a (by simp)
    exact Or.inr ⟨first, a, rfl, List.getLast?_concat, by omega⟩

theorem counts_ended {attempts : List Attempt} (hcount : c.failCount = 0)
    (hended : Ended attempts) : Counts c attempts [] [] where
  count := by rw [hcount]; rfl
  below := by rw [hcount]; decide
  before := by decide
  since := nofun
  window := nofun
  ended := fun _ => hended

theorem miss_locked {now : UInt32} (h : (c.miss now).locked = true) :
    (c.miss now).lockoutUntilS = now + lockoutS := by
  simp only [Throttle.miss] at h ⊢
  by_cases hlast : failMax ≤ (if c.fresh now = true then 0 else c.failCount) + 1
  · rw [if_pos hlast]
  · rw [if_neg hlast] at h
    cases h

theorem Counts.miss (h : Counts c older prev streak) (hspan : t < t₀ + 2 ^ 31)
    (htimely : ∀ a ∈ streak, t₀ ≤ a.time ∧ a.time ≤ t) :
    ∃ older' prev' streak',
      older ++ (prev ++ streak) ++ [⟨t, false, (c.miss (clock t)).locked⟩] =
        older' ++ (prev' ++ streak') ∧ Counts (c.miss (clock t)) older' prev' streak' := by
  have hcount := h.count
  have hbelow := h.below
  rw [UInt32.lt_iff_toNat_lt] at hbelow
  have hmax : failMax.toNat = 5 := rfl
  have hone : (1 : UInt32) < failMax := by decide
  cases streak with
  | nil =>
    have hzero : c.failCount = 0 := UInt32.toNat_inj.mp hcount.symm
    have hprev : prev = [] := by
      cases prev with
      | nil => rfl
      | cons p prev =>
        obtain ⟨b, hb, -⟩ := h.window p rfl
        cases hb
    have hfresh : c.fresh (clock t) = true := decide_eq_true (Or.inl hzero)
    have hmiss : c.miss (clock t) = ⟨1, clock t, c.lockoutUntilS, false⟩ := by
      simp only [Throttle.miss, hfresh, if_true]
      rfl
    rw [hmiss]
    subst hprev
    refine ⟨older, [], [⟨t, false, false⟩], by simp, rfl, hone, by decide, ?_, nofun,
      fun _ => h.ended rfl⟩
    intro a ha
    rw [← Option.some.inj ha]
  | cons b rest =>
    have hfirst := h.since b rfl
    obtain ⟨hfrom, hto⟩ := htimely b List.mem_cons_self
    have hne : c.failCount ≠ 0 := by
      intro hzero
      rw [hzero] at hcount
      cases hcount
    have hage : (clock t - c.failFirstS).toNat = t - b.time := by
      rw [hfirst]
      exact clock_sub hto (by omega)
    by_cases hexpired : failWindowS ≤ clock t - c.failFirstS
    · have hfresh : c.fresh (clock t) = true := decide_eq_true (Or.inr hexpired)
      have hmiss : c.miss (clock t) = ⟨1, clock t, c.lockoutUntilS, false⟩ := by
        simp only [Throttle.miss, hfresh, if_true]
        rfl
      have hlong : b.time + failWindowS.toNat ≤ t := by
        rw [UInt32.le_iff_toNat_le, hage] at hexpired
        omega
      rw [hmiss]
      refine ⟨older ++ prev, b :: rest, [⟨t, false, false⟩], by simp, rfl, hone, by omega,
        ?_, ?_, nofun⟩
      · intro a ha
        rw [← Option.some.inj ha]
      · intro a ha
        rw [← Option.some.inj ha]
        exact ⟨_, rfl, hlong⟩
    · have hfresh : c.fresh (clock t) = false := by
        simp only [Throttle.fresh, hne, hexpired, or_self, decide_false]
      have hnext : (c.failCount + 1).toNat = c.failCount.toNat + 1 := by
        rw [UInt32.toNat_add]
        simp only [UInt32.toNat_one]
        omega
      by_cases hlast : failMax ≤ c.failCount + 1
      · have hmiss : c.miss (clock t) = ⟨0, c.failFirstS, clock t + lockoutS, true⟩ := by
          simp only [Throttle.miss, hfresh, Bool.false_eq_true, if_false, if_pos hlast]
        rw [hmiss]
        refine ⟨_, [], [], (List.append_nil _).symm, counts_ended rfl ?_⟩
        intro a ha
        rw [List.getLast?_concat] at ha
        rw [← Option.some.inj ha]
        exact Or.inr rfl
      · have hmiss : c.miss (clock t) =
            ⟨c.failCount + 1, c.failFirstS, c.lockoutUntilS, false⟩ := by
          simp only [Throttle.miss, hfresh, Bool.false_eq_true, if_false, if_neg hlast]
        rw [hmiss]
        refine ⟨older, prev, b :: rest ++ [⟨t, false, false⟩], by simp, ?_, ?_, h.before, ?_, ?_,
          h.ended⟩
        · rw [hnext, List.length_append, hcount, List.length_singleton]
        · rw [UInt32.not_le] at hlast
          exact hlast
        · exact fun a ha => h.since a ha
        · exact fun a ha => h.window a ha

namespace Guesses

variable {g : Guesses}

-- A lockout that is not running any more is over.
theorem Sound.over (h : g.Sound t₀ t) {t' : Nat} (hnext : t ≤ t') (hspan : t' < t₀ + 2 ^ 31)
    (hidle : g.trail.policy.throttled (clock t') = false) :
    ∀ a ∈ g.attempts, a.locks = true → a.time + lockoutS.toNat ≤ t' := by
  intro a ha hlocks
  obtain ⟨hfrom, hto⟩ := h.timely a ha
  rcases h.running a ha hlocks with hdone | ⟨hlocked, huntil⟩
  · omega
  · rw [Policy.throttled, decide_eq_false_iff_not, not_and, not_not] at hidle
    have hreached := hidle hlocked
    rwa [huntil, reached_clock (by omega) (by omega) (by decide)] at hreached

theorem Sound.silent (h : g.Sound t₀ t) {t' : Nat} (hnext : t ≤ t') (hspan : t' < t₀ + 2 ^ 31)
    {w : Trail} (heased : Throttle.Eased (clock t') g.trail.policy.throttle w.policy.throttle) :
    Sound t₀ t' ⟨w, g.attempts⟩ := by
  obtain ⟨older, prev, streak, hattempts, hcounts⟩ := h.counts
  refine ⟨?_, h.ordered, ⟨older, prev, streak, hattempts, ?_⟩, ?_, h.locked, h.spread⟩
  · intro a ha
    obtain ⟨hfrom, hto⟩ := h.timely a ha
    exact ⟨hfrom, hto.trans hnext⟩
  · rcases heased with hsame | ⟨-, hsame⟩
    · rw [hsame]
      exact hcounts
    · rw [hsame]
      exact ⟨hcounts.count, hcounts.below, hcounts.before, hcounts.since, hcounts.window,
        hcounts.ended⟩
  · intro a ha hlocks
    obtain ⟨hfrom, hto⟩ := h.timely a ha
    rcases h.running a ha hlocks with hdone | ⟨hlocked, huntil⟩
    · exact Or.inl (hdone.trans hnext)
    · rcases heased with hsame | ⟨hreached, -⟩
      · have hlocked' := congrArg Throttle.locked hsame
        have huntil' := congrArg Throttle.lockoutUntilS hsame
        exact Or.inr ⟨hlocked'.trans hlocked, huntil'.trans huntil⟩
      · have hreached' : reached (clock t') g.trail.policy.lockoutUntilS := hreached
        rw [huntil, reached_clock (by omega) (by omega) (by decide)] at hreached'
        exact Or.inl hreached'

theorem Sound.push (h : g.Sound t₀ t) {a : Attempt} (htime : t₀ ≤ a.time) (hnext : t ≤ a.time)
    (hover : ∀ b ∈ g.attempts, b.locks = true → b.time + lockoutS.toNat ≤ a.time) {w : Trail}
    (hcounts : ∃ older prev streak, g.attempts ++ [a] = older ++ (prev ++ streak) ∧
      Counts w.policy.throttle older prev streak)
    (hlocks : a.locks = true → w.policy.locked = true ∧
      w.policy.lockoutUntilS = clock (a.time + lockoutS.toNat)) :
    Sound t₀ a.time ⟨w, g.attempts ++ [a]⟩ := by
  have hlatest : ∀ b ∈ g.attempts, b.time ≤ a.time :=
    fun b hb => (h.timely b hb).2.trans hnext
  have hordered : (g.attempts ++ [a]).Pairwise fun a b => a.time ≤ b.time := by
    rw [List.pairwise_append]
    refine ⟨h.ordered, List.pairwise_singleton _ a, ?_⟩
    intro b hb c hc
    rw [List.mem_singleton.mp hc]
    exact hlatest b hb
  refine ⟨?_, hordered, hcounts, ?_, ?_, ?_⟩
  · intro b hb
    rcases List.mem_append.mp hb with hb | hb
    · exact ⟨(h.timely b hb).1, hlatest b hb⟩
    · rw [List.mem_singleton.mp hb]
      exact ⟨htime, le_refl _⟩
  · intro b hb hblocks
    rcases List.mem_append.mp hb with hb | hb
    · exact Or.inl (hover b hb hblocks)
    · rw [List.mem_singleton.mp hb] at hblocks ⊢
      exact Or.inr (hlocks hblocks)
  · rw [List.pairwise_append]
    refine ⟨h.locked, List.pairwise_singleton _ a, ?_⟩
    intro b hb c hc hblocks
    rw [List.mem_singleton.mp hc]
    exact hover b hb hblocks
  · intro before ms after hsplit hlen hmiss
    rcases List.eq_nil_or_concat after with rfl | ⟨after, z, rfl⟩
    · rcases List.eq_nil_or_concat ms with rfl | ⟨ms, z, rfl⟩
      · cases hlen
      · rw [List.append_nil, List.concat_eq_append, ← List.append_assoc] at hsplit
        obtain ⟨hattempts, hz⟩ := List.append_inj' hsplit rfl
        obtain rfl := (List.cons.inj hz).1
        obtain ⟨older, prev, streak, hold, hcounts⟩ := h.counts
        rw [List.concat_eq_append] at hlen hmiss ⊢
        refine hcounts.spread hold hordered ⟨before, hattempts.symm⟩ ?_ ?_
        · rwa [List.length_append, List.length_singleton] at hlen
        · exact fun m hm => hmiss m (List.mem_append_left _ hm)
    · rw [List.concat_eq_append, ← List.append_assoc] at hsplit
      exact h.spread before ms after (List.append_inj' hsplit rfl).1 hlen hmiss

theorem sound_start (sessionCount : Nat) (ttlS : UInt32) (requireKey : Bool) :
    (start sessionCount ttlS requireKey).Sound t₀ t where
  timely := nofun
  ordered := List.Pairwise.nil
  counts := ⟨[], [], [], rfl, counts_ended rfl nofun⟩
  running := nofun
  locked := List.Pairwise.nil
  spread := by
    intro before ms after hsplit hlen
    obtain ⟨h, -⟩ := List.append_eq_nil_iff.mp hsplit.symm
    rw [(List.append_eq_nil_iff.mp h).2] at hlen
    cases hlen

theorem sound_step (h : g.Sound t₀ t) {input : Nat × Call} (htime : t₀ ≤ input.1)
    (hnext : t ≤ input.1) (hspan : input.1 < t₀ + 2 ^ 31) : (g.step input).Sound t₀ input.1 := by
  obtain ⟨t', call⟩ := input
  rw [step]
  rcases notes_step g.trail t' call with ⟨hnone, heased⟩ | ⟨hidle, ⟨hsome, hhit⟩ | ⟨hsome, hmiss⟩⟩
  · rw [hnone, Option.toList_none, List.append_nil]
    exact h.silent hnext hspan heased
  · rw [hsome, Option.toList_some]
    refine h.push (a := ⟨t', true, false⟩) htime hnext (h.over hnext hspan hidle) ?_ nofun
    have hzero : (g.trail.step (t', call)).policy.throttle.failCount = 0 := by
      rw [hhit]
      rfl
    refine ⟨_, [], [], (List.append_nil _).symm, counts_ended hzero ?_⟩
    intro a ha
    rw [List.getLast?_concat] at ha
    rw [← Option.some.inj ha]
    exact Or.inl rfl
  · rw [hsome, Option.toList_some]
    obtain ⟨older, prev, streak, hattempts, hcounts⟩ := h.counts
    refine h.push (a := ⟨t', false, _⟩) htime hnext (h.over hnext hspan hidle) ?_ ?_
    · have htimely : ∀ a ∈ streak, t₀ ≤ a.time ∧ a.time ≤ t' := by
        intro a ha
        have hmem : a ∈ g.attempts := by
          rw [hattempts]
          exact List.mem_append_right _ (List.mem_append_right _ ha)
        obtain ⟨hfrom, hto⟩ := h.timely a hmem
        exact ⟨hfrom, hto.trans hnext⟩
      obtain ⟨older', prev', streak', hsplit, hcounts'⟩ := hcounts.miss hspan htimely
      rw [hmiss, hattempts]
      exact ⟨older', prev', streak', hsplit, hcounts'⟩
    · intro hlocks
      have hlocked := congrArg Throttle.locked hmiss
      have huntil := congrArg Throttle.lockoutUntilS hmiss
      rw [miss_locked hlocks, clock_add] at huntil
      exact ⟨hlocked.trans hlocks, huntil⟩

theorem sound_run (h : g.Sound t₀ t) {calls : List (Nat × Call)} {t' : Nat} (hlast : t ≤ t')
    (hordered : (calls.map Prod.fst).Pairwise (· ≤ ·))
    (hwithin : ∀ input ∈ calls, t₀ ≤ input.1 ∧ t ≤ input.1 ∧ input.1 ≤ t')
    (hspan : t' < t₀ + 2 ^ 31) : ∃ t'', (run step g calls).Sound t₀ t'' := by
  induction calls generalizing g t with
  | nil => exact ⟨t, h⟩
  | cons input calls ih =>
    rw [List.map_cons, List.pairwise_cons] at hordered
    obtain ⟨hfrom, hnext, hto⟩ := hwithin input List.mem_cons_self
    have hsound := sound_step h hfrom hnext (by omega)
    refine ih hsound hto hordered.2 ?_
    intro later hlater
    obtain ⟨hfrom', -, hto'⟩ := hwithin later (List.mem_cons_of_mem _ hlater)
    exact ⟨hfrom', hordered.1 later.1 (List.mem_map_of_mem hlater), hto'⟩

end Guesses

-- However the keys are spaced: of ten misses in a row, two neighbours are the
-- length of a lockout apart or the ten are spread over the window; and behind a
-- miss that starts a lockout no key is compared for as long as it lasts.
theorem guessing_throttled (sessionCount : Nat) (ttlS : UInt32) (requireKey : Bool)
    (calls : List (Nat × Call)) (t₀ : Nat) (hordered : (calls.map Prod.fst).Pairwise (· ≤ ·))
    (hwithin : ∀ input ∈ calls, t₀ ≤ input.1 ∧ input.1 < t₀ + 2 ^ 31) :
    let attempts := (run Guesses.step (.start sessionCount ttlS requireKey) calls).attempts
    (∀ before ms after, attempts = before ++ ms ++ after → ms.length = 2 * failMax.toNat →
      (∀ m ∈ ms, m.hit = false) →
      (∃ first last, ms.head? = some first ∧ ms.getLast? = some last ∧
        first.time + failWindowS.toNat ≤ last.time) ∨
      ∃ l a b r, ms = l ++ a :: b :: r ∧ a.time + lockoutS.toNat ≤ b.time) ∧
      attempts.Pairwise fun m n => m.locks = true → m.time + lockoutS.toNat ≤ n.time := by
  intro attempts
  obtain ⟨t, hsound⟩ : ∃ t,
      (run Guesses.step (.start sessionCount ttlS requireKey) calls).Sound t₀ t := by
    refine Guesses.sound_run (Guesses.sound_start sessionCount ttlS requireKey)
      (show t₀ ≤ t₀ + 2 ^ 31 - 1 by omega) hordered ?_ (by omega)
    intro input hinput
    obtain ⟨hfrom, hto⟩ := hwithin input hinput
    exact ⟨hfrom, hfrom, by omega⟩
  refine ⟨?_, hsound.locked⟩
  intro before ms after hsplit hlen hmiss
  rcases hsound.spread before ms after hsplit hlen hmiss with ⟨m, hm, hlocks⟩ | hspread
  · right
    obtain ⟨l, r, hl⟩ := List.append_of_mem hm
    obtain ⟨last, hlast⟩ : ∃ last, ms = ms.dropLast ++ [last] := by
      have hne : ms ≠ [] := by
        rintro rfl
        cases hlen
      exact ⟨_, (List.dropLast_append_getLast hne).symm⟩
    have hms : ∃ b r', ms = l ++ m :: b :: r' := by
      rw [hl] at hlast
      cases r with
      | nil => exact ⟨last, [], by simpa using hlast⟩
      | cons b r => exact ⟨b, r ++ [last], by simpa using hlast⟩
    obtain ⟨b, r', hms⟩ := hms
    refine ⟨l, m, b, r', hms, ?_⟩
    have hlocked : attempts.Pairwise fun a b => a.locks = true →
        a.time + lockoutS.toNat ≤ b.time := hsound.locked
    rw [hsplit, hms, List.pairwise_append, List.pairwise_append] at hlocked
    obtain ⟨⟨-, hlocked, -⟩, -⟩ := hlocked
    rw [List.pairwise_append] at hlocked
    exact List.rel_of_pairwise_cons hlocked.2.1 List.mem_cons_self hlocks
  · exact Or.inl hspread

end Runs

-- Ten wrong keys, the sixth as soon as the lockout is over.
def tenGuesses : List (Nat × Call) :=
  (10, .setKey (some (lit "a long key"))) ::
    (List.replicate 5 (20, .checkKey (some (lit "guess"))) ++
      List.replicate 5 (50, .checkKey (some (lit "guess"))))

theorem guessing_throttled_ten :
    let attempts := (run Guesses.step (.start 4 3600 false) tenGuesses).attempts
    attempts.map Attempt.time = [20, 20, 20, 20, 20, 50, 50, 50, 50, 50] ∧
      ((∃ first last, attempts.head? = some first ∧ attempts.getLast? = some last ∧
        first.time + failWindowS.toNat ≤ last.time) ∨
      ∃ l a b r, attempts = l ++ a :: b :: r ∧ a.time + lockoutS.toNat ≤ b.time) := by
  intro attempts
  have hthrottled := guessing_throttled 4 3600 false tenGuesses 10 (by decide) (by decide)
  exact ⟨by decide +kernel, hthrottled.1 [] attempts [] (by simp [attempts]) (by decide +kernel)
    (by decide +kernel)⟩

end Espos.Httpd
