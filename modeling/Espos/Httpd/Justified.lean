import Espos.Httpd.Sessions

-- Whatever the policy lets in is justified by what it has been told.

namespace Espos.Httpd

open Espos.Clock Espos.Text Espos.Run

section Checks

variable {p : Policy} {now : UInt32}

-- A key check changes the throttle alone. One that is answered finds no
-- lockout running and leaves none but its own.
theorem checkKey_cases (p : Policy) (now : UInt32) (presented : Option CStr) :
    p.throttled now = true ∧ p.checkKey now presented = (.throttled, p) ∨
      p.throttled now = false ∧ ∃ v failCount failFirstS lockoutUntilS locked,
        p.checkKey now presented =
          (v, { p with
            failCount := failCount
            failFirstS := failFirstS
            lockoutUntilS := lockoutUntilS
            locked := locked }) ∧
        (locked = true → lockoutUntilS = now + lockoutS) ∧
        (v = .allow → presented.getD [] = p.key.chars) := by
  rw [Policy.checkKey, Policy.throttled]
  by_cases hrunning : p.locked = true ∧ ¬reached now p.lockoutUntilS
  · exact .inl ⟨decide_eq_true hrunning, if_pos hrunning⟩
  · refine .inr ⟨decide_eq_false hrunning, ?_⟩
    rw [if_neg hrunning]
    have hunlock : (if p.locked = true then { p with locked := false } else p) =
        { p with locked := false } := by
      split_ifs with hlocked
      · rfl
      · rw [Bool.not_eq_true] at hlocked
        rw [← hlocked]
    simp only [hunlock]
    split_ifs with hopen hequal
    · refine ⟨_, _, _, _, _, rfl, nofun, fun _ => ?_⟩
      have hfits := p.key.fits
      simp only [keyMax] at hfits hequal
      exact ((ctEqual_iff (by omega) (by decide)).mp hequal).symm
    · rw [Policy.strike]
      dsimp only
      split_ifs
      · exact ⟨_, _, _, _, _, rfl, fun _ => rfl, nofun⟩
      · exact ⟨_, _, _, _, _, rfl, nofun, nofun⟩
      · exact ⟨_, _, _, _, _, rfl, fun _ => rfl, nofun⟩
      · exact ⟨_, _, _, _, _, rfl, nofun, nofun⟩
    · exact ⟨_, _, _, _, _, rfl, nofun, nofun⟩

end Checks

-- What the policy remembers is what it has been told.
structure Trail.Sound (t₀ t : Nat) (w : Trail) : Prop where
  ttl : w.policy.ttlS.toNat < 2 ^ 31
  key : w.policy.key = .print w.given
  lockouts : ∀ start ∈ w.lockouts, t₀ ≤ start ∧ start ≤ t ∧
    (start + lockoutS.toNat ≤ t ∨
      w.policy.locked = true ∧ w.policy.lockoutUntilS = clock (start + lockoutS.toNat))
  recovery : w.policy.recovery = true → ∃ openedAt seconds,
    w.recovery = some (openedAt, seconds) ∧ 0 < seconds ∧ t₀ ≤ openedAt ∧ openedAt ≤ t ∧
    w.policy.recoveryUntilS = clock (openedAt + min seconds.toNat recoveryMaxS.toNat)
  table : Backed t₀ t w.openings w.policy.sessions

namespace Trail

variable {t₀ t : Nat} {w : Trail}

theorem Sound.mono {t' : Nat} (h : w.Sound t₀ t) (htime : t ≤ t') : w.Sound t₀ t' := by
  refine ⟨h.ttl, h.key, ?_, ?_, h.table.mono htime⟩
  · intro start hstart
    obtain ⟨hfrom, hto, hend⟩ := h.lockouts start hstart
    exact ⟨hfrom, hto.trans htime, hend.imp_left fun hdone => hdone.trans htime⟩
  · intro hrecovery
    obtain ⟨openedAt, seconds, hlatest, hpos, hfrom, hto, huntil⟩ := h.recovery hrecovery
    exact ⟨openedAt, seconds, hlatest, hpos, hfrom, hto.trans htime, huntil⟩

theorem start_sound (sessionCount : Nat) {ttlS : UInt32} (requireKey : Bool)
    (httl : ttlS.toNat < 2 ^ 31) : (start sessionCount ttlS requireKey).Sound t₀ t := by
  refine ⟨httl, rfl, nofun, nofun, ?_⟩
  have hzero : List.replicate sessionCount Session.zero =
      (List.replicate sessionCount Session.zero).map fun _ => .zero := by simp
  rw [start, Policy.init, hzero]
  exact Backed.cleared t₀ t _

theorem Sound.sessions (h : w.Sound t₀ t) {sessions : List Session} {openings : List Opening}
    (htable : Backed t₀ t openings sessions) :
    Sound t₀ t
      { w with policy := { w.policy with sessions := sessions }, openings := openings } :=
  ⟨h.ttl, h.key, h.lockouts, h.recovery, htable⟩

-- A lockout that is not running any more is over.
theorem Sound.over (h : w.Sound t₀ t) (hspan : t < t₀ + 2 ^ 31)
    (hidle : w.policy.throttled (clock t) = false) :
    ∀ start ∈ w.lockouts, start + lockoutS.toNat ≤ t := by
  intro start hstart
  obtain ⟨hfrom, hto, hdone | ⟨hlocked, huntil⟩⟩ := h.lockouts start hstart
  · exact hdone
  · rw [Policy.throttled, decide_eq_false_iff_not, not_and, not_not] at hidle
    have hreached := hidle hlocked
    rw [huntil, reached_clock hto (by omega) (by decide)] at hreached
    exact hreached

theorem Sound.checkKey (h : w.Sound t₀ t) (htime : t₀ ≤ t) (hspan : t < t₀ + 2 ^ 31)
    (presented : Option CStr) :
    (w.lockout t (w.policy.checkKey (clock t) presented).2).Sound t₀ t := by
  rcases checkKey_cases w.policy (clock t) presented with
    ⟨hrunning, hcheck⟩ | ⟨hidle, v, failCount, failFirstS, lockoutUntilS, locked, hcheck, huntil, -⟩
  · rw [hcheck, lockout, if_neg (by simp [hrunning])]
    exact h
  · rw [hcheck]
    have hover := h.over hspan hidle
    refine ⟨h.ttl, h.key, ?_, h.recovery, h.table⟩
    intro start hstart
    rw [lockout] at hstart
    dsimp only at hstart
    have hold : ∀ start ∈ w.lockouts, t₀ ≤ start ∧ start ≤ t ∧ (start + lockoutS.toNat ≤ t ∨
        locked = true ∧ lockoutUntilS = clock (start + lockoutS.toNat)) := by
      intro start hstart
      obtain ⟨hfrom, hto, -⟩ := h.lockouts start hstart
      exact ⟨hfrom, hto, .inl (hover start hstart)⟩
    split_ifs at hstart with hnew
    · rcases List.mem_append.mp hstart with hstart | hstart
      · exact hold start hstart
      · obtain rfl := List.mem_singleton.mp hstart
        have hlocked : locked = true := by
          have hthrottled := hnew.2
          rw [Policy.throttled, decide_eq_true_eq] at hthrottled
          exact hthrottled.1
        have hend : lockoutUntilS = clock (start + lockoutS.toNat) := by
          rw [huntil hlocked, clock_add]
        exact ⟨htime, le_refl _, .inr ⟨hlocked, hend⟩⟩
    · exact hold start hstart

-- A call that leaves the throttle alone starts no lockout.
theorem lockout_sessions (w : Trail) (t : Nat) (sessions : List Session) :
    w.lockout t { w.policy with sessions := sessions } =
      { w with policy := { w.policy with sessions := sessions } } := by
  have hsame : Policy.throttled { w.policy with sessions := sessions } (clock t) =
      w.policy.throttled (clock t) := rfl
  rw [lockout, if_neg]
  rw [hsame]
  exact fun h => h.1 h.2

theorem sessionValid_eq (p : Policy) (now : UInt32) (id : CStr) :
    ∃ i, (p.sessionValid now (some id)).2 =
      { p with
        sessions := (p.sessions.map (Policy.expire now)).modify i fun s =>
          { s with lastSeenS := now } } := by
  rw [Policy.sessionValid, Policy.find]
  cases Policy.hitFrom id none 0 (p.sweep now).sessions with
  | none => exact ⟨p.sessions.length, by simp [Policy.sweep, List.modify_eq_self]⟩
  | some i => exact ⟨i, rfl⟩

theorem Sound.sessionValid (h : w.Sound t₀ t) (id : Option CStr) :
    Sound t₀ t { w with policy := (w.policy.sessionValid (clock t) id).2 } := by
  cases id with
  | none => exact h
  | some id =>
    obtain ⟨i, hi⟩ := sessionValid_eq w.policy (clock t) id
    rw [hi]
    exact h.sessions ((h.table.sweep (clock t)).touch i (clock t))

theorem Sound.decide (h : w.Sound t₀ t) (htime : t₀ ≤ t) (hspan : t < t₀ + 2 ^ 31)
    (rq : Request) : (w.lockout t (w.policy.decide (clock t) rq).2.2).Sound t₀ t := by
  have hidle : (w.lockout t w.policy).Sound t₀ t := by
    rw [lockout_sessions w t w.policy.sessions]
    exact h
  rw [Policy.decide]
  by_cases hportal : (rq.fromPortal && w.policy.portalExempt (clock t)) = true
  · rw [if_pos hportal]
    exact hidle
  · rw [if_neg hportal]
    by_cases hopen : ¬w.policy.configured = true
    · rw [if_pos hopen]
      exact hidle
    · rw [if_neg hopen]
      cases rq.bearer with
      | some bearer => exact h.checkKey htime hspan (some bearer)
      | none =>
        cases rq.cookieSid with
        | none => exact hidle
        | some sid =>
          have hvalid := h.sessionValid (some sid)
          obtain ⟨i, hi⟩ := sessionValid_eq w.policy (clock t) sid
          rw [hi, ← lockout_sessions, ← hi] at hvalid
          dsimp only
          generalize w.policy.sessionValid (clock t) (some sid) = r at hvalid
          obtain ⟨valid, p⟩ := r
          cases valid with
          | false => exact hvalid
          | true => exact hvalid

theorem Sound.sessionOpen (h : w.Sound t₀ t) (htime : t₀ ≤ t) (random : Fin 4 → UInt32)
    (idSize : Option Nat) : (w.step (t, .sessionOpen random idSize)).Sound t₀ t := by
  rw [step, Policy.sessionOpen]
  split_ifs with hrefused
  · simpa using h
  · have hswept := h.table.sweep (clock t)
    dsimp only
    cases hpick : Policy.pickSlot none 0 (w.policy.sweep (clock t)).sessions with
    | none =>
      simp only [Option.map_none, Option.toList_none, List.append_nil]
      exact h.sessions hswept
    | some i =>
      have hlt := pickSlot_lt (by simp) hpick
      rw [Nat.zero_add] at hlt
      have hid : (Policy.sessionId random).chars.length = sidLen := by
        simp [Policy.sessionId, List.length_flatMap, sidLen]
      exact h.sessions (hswept.opened htime hlt hid h.ttl)

theorem Sound.sessionClose (h : w.Sound t₀ t) (id : Option CStr) :
    (w.step (t, .sessionClose id)).Sound t₀ t := by
  rw [step, Policy.sessionClose, Policy.find.eq_def]
  cases id with
  | none =>
    have hsame : w.openings.map (close none) = w.openings := by
      rw [show close none = id from funext fun o => if_neg nofun, List.map_id]
    rw [hsame]
    exact h
  | some id =>
    have hswept := h.table.sweep (clock t)
    dsimp only
    cases hhit : Policy.hitFrom id none 0 (w.policy.sweep (clock t)).sessions with
    | none => exact h.sessions (hswept.closed id (.inl ⟨hhit, rfl⟩))
    | some i => exact h.sessions (hswept.closed id (.inr ⟨i, hhit, rfl⟩))

theorem Sound.recoveryOpen (h : w.Sound t₀ t) (htime : t₀ ≤ t) (seconds : UInt32) :
    (w.step (t, .recoveryOpen seconds)).Sound t₀ t := by
  rw [step, Policy.recoveryOpen]
  by_cases hzero : seconds = 0
  · rw [if_pos hzero]
    exact ⟨h.ttl, h.key, h.lockouts, nofun, h.table⟩
  · rw [if_neg hzero]
    have hclamp : (if recoveryMaxS < seconds then recoveryMaxS else seconds).toNat =
        min seconds.toNat recoveryMaxS.toNat := by
      split_ifs with hlong
      all_goals
        rw [UInt32.lt_iff_toNat_lt] at hlong
        omega
    refine ⟨h.ttl, h.key, h.lockouts, fun _ => ?_, h.table⟩
    refine ⟨t, seconds, rfl, UInt32.pos_iff_ne_zero.mpr hzero, htime, le_refl t, ?_⟩
    dsimp only
    rw [clock_add, hclamp]

-- What a call is promised: times do not run backwards, and the lifetimes are
-- less than half a turn of the clock.
def TtlFits : Call → Prop
  | .setTtl ttlS => ttlS.toNat < 2 ^ 31
  | _ => True

theorem sound_step (h : w.Sound t₀ t) {input : Nat × Call} (htime : t₀ ≤ input.1)
    (hnext : t ≤ input.1) (hspan : input.1 < t₀ + 2 ^ 31) (httl : TtlFits input.2) :
    (w.step input).Sound t₀ input.1 := by
  obtain ⟨t', call⟩ := input
  have h' := h.mono hnext
  cases call with
  | setKey key =>
    exact ⟨h'.ttl, rfl, h'.lockouts, h'.recovery, Backed.cleared t₀ t' _⟩
  | setTtl ttlS => exact ⟨httl, h'.key, h'.lockouts, h'.recovery, h'.table⟩
  | sessionOpen random idSize => exact h'.sessionOpen htime random idSize
  | sessionValid id => exact h'.sessionValid id
  | sessionClose id => exact h'.sessionClose id
  | sessionsClear => exact h'.sessions (Backed.cleared t₀ t' _)
  | sessionsLive => exact h'.sessions (h'.table.sweep (clock t'))
  | recoveryOpen seconds => exact h'.recoveryOpen htime seconds
  | decide rq => exact h'.decide htime hspan rq
  | checkKey presented => exact h'.checkKey htime hspan presented

-- The calls come in order, and the last one less than half a turn of the clock
-- after the first.
structure Timely (t₀ : Nat) (calls : List (Nat × Call)) (t : Nat) : Prop where
  ordered : (calls.map Prod.fst).Pairwise (· ≤ ·)
  within : ∀ input ∈ calls, t₀ ≤ input.1 ∧ input.1 ≤ t
  ttlFits : ∀ input ∈ calls, TtlFits input.2

theorem Timely.cons {input : Nat × Call} {calls : List (Nat × Call)}
    (h : Timely t₀ (input :: calls) t) :
    (t₀ ≤ input.1 ∧ input.1 ≤ t) ∧ TtlFits input.2 ∧ (∀ later ∈ calls, input.1 ≤ later.1) ∧
      Timely t₀ calls t := by
  obtain ⟨hordered, hwithin, httl⟩ := h
  rw [List.map_cons, List.pairwise_cons] at hordered
  refine ⟨hwithin input List.mem_cons_self, httl input List.mem_cons_self, ?_, hordered.2, ?_, ?_⟩
  · intro later hlater
    exact hordered.1 later.1 (List.mem_map_of_mem hlater)
  · intro later hlater
    exact hwithin later (List.mem_cons_of_mem _ hlater)
  · intro later hlater
    exact httl later (List.mem_cons_of_mem _ hlater)

theorem sound_run {calls : List (Nat × Call)} {t₁ : Nat} (h : w.Sound t₀ t₁) (hlast : t₁ ≤ t)
    (hfrom : ∀ input ∈ calls, t₁ ≤ input.1) (htimely : Timely t₀ calls t)
    (hspan : t < t₀ + 2 ^ 31) : (run step w calls).Sound t₀ t := by
  induction calls generalizing w t₁ with
  | nil => exact h.mono hlast
  | cons input calls ih =>
    obtain ⟨⟨hstart, hend⟩, httl, hlater, hrest⟩ := htimely.cons
    have hnext := sound_step h hstart (hfrom input List.mem_cons_self) (by omega) httl
    exact ih hnext hend hlater hrest

theorem Sound.fromOpenPortal (h : w.Sound t₀ t) (hspan : t < t₀ + 2 ^ 31) {rq : Request}
    (hportal : rq.fromPortal = true) (hopen : w.policy.inRecovery (clock t) = true) :
    w.FromOpenPortal t rq := by
  rw [Policy.inRecovery, decide_eq_true_eq] at hopen
  obtain ⟨hrecovery, hreached⟩ := hopen
  obtain ⟨openedAt, seconds, hlatest, hpos, hfrom, hto, huntil⟩ := h.recovery hrecovery
  have hmax : recoveryMaxS.toNat < 2 ^ 31 := by decide
  refine ⟨hportal, openedAt, seconds, hlatest, hpos, ?_⟩
  rw [huntil, reached_clock hto (by omega) (by omega)] at hreached
  omega

theorem Sound.showsKey (h : w.Sound t₀ t) (hspan : t < t₀ + 2 ^ 31) {rq : Request}
    {bearer : CStr} (hbearer : rq.bearer = some bearer)
    (hallow : (w.policy.checkKey (clock t) (some bearer)).1 = .allow) : w.ShowsKey t rq := by
  rcases checkKey_cases w.policy (clock t) (some bearer) with
    ⟨-, hcheck⟩ | ⟨hidle, v, _, _, _, _, hcheck, -, hequal⟩
  · rw [hcheck] at hallow
    cases hallow
  · rw [hcheck] at hallow
    have hkey : bearer = w.policy.key.chars := hequal hallow
    rw [h.key] at hkey
    exact ⟨by rw [hbearer, hkey]; rfl, h.over hspan hidle⟩

theorem Sound.showsSession (h : w.Sound t₀ t) (hspan : t < t₀ + 2 ^ 31) {rq : Request} {sid : CStr}
    (hcookie : rq.cookieSid = some sid)
    (hvalid : (w.policy.sessionValid (clock t) (some sid)).1 = true) : w.ShowsSession t rq := by
  rw [Policy.sessionValid, Policy.find] at hvalid
  rcases @hitFrom_cases sid none 0 (w.policy.sweep (clock t)).sessions with
    ⟨hmiss, -⟩ | ⟨j, s, hj, hmatch, -⟩
  · rw [hmiss] at hvalid
    cases hvalid
  · have hmem := List.mem_of_getElem? hj
    have hswept := h.table.sweep (clock t)
    obtain ⟨hused, hid⟩ := (matches_iff (hswept.sized s hmem)).mp hmatch
    obtain ⟨r, hr, rfl⟩ := List.mem_map.mp hmem
    obtain ⟨hsame, -, hlive⟩ := used_expire hused
    obtain ⟨o, ho, hoid, hfrom, hto, hottl, hexpires, hopen⟩ := hswept.backed _ hmem hused
    rw [← hsame, hexpires, reached_clock hto (by omega) hottl] at hlive
    exact ⟨o, ho, by rw [hcookie, hoid, hid], by omega, hopen⟩

end Trail

theorem sameOrigin_of_matches {rq : Request} (h : originMatches rq.origin rq.host = true) :
    SameOrigin rq := by
  cases horigin : rq.origin with
  | none => simp [originMatches, horigin] at h
  | some origin =>
    cases hhost : rq.host with
    | none => simp [originMatches, hhost] at h
    | some host =>
      simp only [originMatches, horigin, hhost] at h
      split_ifs at h with hempty hlen
      rw [not_or] at hlen
      refine ⟨origin, host, horigin, hhost, ?_, by simpa using h⟩
      intro hnil
      exact hlen.1 (by rw [hnil]; rfl)

-- Whatever is let in while a key is configured is justified by the history.
theorem allow_justified (sessionCount : Nat) (ttlS : UInt32) (requireKey : Bool)
    (calls : List (Nat × Call)) (t₀ t : Nat) (rq : Request)
    (httl : ttlS.toNat < 2 ^ 31) (htimely : Trail.Timely t₀ calls t)
    (htime : t₀ ≤ t) (hspan : t < t₀ + 2 ^ 31)
    (hconfigured :
      (run Trail.step (.start sessionCount ttlS requireKey) calls).policy.configured = true)
    (hallow : ((run Trail.step (.start sessionCount ttlS requireKey) calls).policy.decide
      (clock t) rq).1 = .allow) :
    (run Trail.step (.start sessionCount ttlS requireKey) calls).Justified t rq := by
  have hsound : (run Trail.step (.start sessionCount ttlS requireKey) calls).Sound t₀ t :=
    Trail.sound_run (Trail.start_sound sessionCount requireKey httl) htime
      (fun input hinput => (htimely.within input hinput).1) htimely hspan
  generalize run Trail.step (.start sessionCount ttlS requireKey) calls = w at *
  rw [Policy.decide] at hallow
  by_cases hportal : (rq.fromPortal && w.policy.portalExempt (clock t)) = true
  · rw [Bool.and_eq_true, Policy.portalExempt, if_neg (by simp [hconfigured])] at hportal
    exact .inl (hsound.fromOpenPortal hspan hportal.1 hportal.2)
  · rw [if_neg hportal, if_neg (by simp [hconfigured])] at hallow
    right
    cases hbearer : rq.bearer with
    | some bearer =>
      simp only [hbearer] at hallow
      exact .inl (hsound.showsKey hspan hbearer hallow)
    | none =>
      cases hcookie : rq.cookieSid with
      | none => simp [hbearer, hcookie] at hallow
      | some sid =>
        right
        have hshows := @Trail.Sound.showsSession t₀ t w hsound hspan rq sid hcookie
        simp only [hbearer, hcookie] at hallow
        generalize w.policy.sessionValid (clock t) (some sid) = r at hallow hshows
        obtain ⟨valid, p⟩ := r
        cases valid with
        | false => cases hallow
        | true =>
          refine ⟨hshows rfl, fun hchanging => ?_⟩
          apply sameOrigin_of_matches
          simpa [hchanging] using hallow

def openDoor : Fin 4 → UInt32 :=
  fun _ => 0

-- A key, a session and a request with its cookie.
def login : List (Nat × Call) :=
  [(10, .setKey (some (lit "a long key"))), (11, .sessionOpen openDoor (some 33))]

def withCookie : Request :=
  ⟨none, some (Policy.sessionId openDoor).chars, none, none, false, false⟩

theorem allow_justified_after_login :
    (run Trail.step (.start 4 3600 false) login).Justified 20 withCookie :=
  allow_justified 4 3600 false login 10 20 withCookie (by decide)
    ⟨by decide, by decide, by simp [login, Trail.TtlFits]⟩ (by decide) (by decide)
    (by decide +kernel) (by decide +kernel)

-- Two sessions under one id, of which `session_close` ends one.
def closedTwin : List (Nat × Call) :=
  login ++ [(12, .sessionOpen openDoor (some 33)),
    (13, .sessionClose (some (Policy.sessionId openDoor).chars))]

-- The origin's authority is the Host itself, but for a default `:80`.
def NamesHost (rq : Request) : Prop :=
  ∃ origin host, rq.origin = some origin ∧ rq.host = some host ∧
    (authority origin).map Char.toLower =
      (if lit ":80" <:+ host then host.take (host.length - 3) else host).map Char.toLower

-- A Host header that has a path is read as the origin is, up to the path.
def withPath : Request :=
  { withCookie with
    origin := some (lit "http://x"), host := some (lit "x/y"), stateChanging := true }

theorem closed_session_still_allowed :
    (¬∀ (sessionCount : Nat) (ttlS : UInt32) (requireKey : Bool) (calls : List (Nat × Call))
      (t₀ t : Nat) (rq : Request), ttlS.toNat < 2 ^ 31 → Trail.Timely t₀ calls t → t₀ ≤ t →
      t < t₀ + 2 ^ 31 →
      (run Trail.step (.start sessionCount ttlS requireKey) calls).policy.configured = true →
      ((run Trail.step (.start sessionCount ttlS requireKey) calls).policy.decide
        (clock t) rq).1 = .allow →
      (run Trail.step (.start sessionCount ttlS requireKey) calls).FromOpenPortal t rq ∨
      (run Trail.step (.start sessionCount ttlS requireKey) calls).ShowsKey t rq ∨
      (∃ o ∈ (run Trail.step (.start sessionCount ttlS requireKey) calls).openings,
        rq.cookieSid = some o.id.chars ∧ t < o.openedAt + o.ttlS.toNat ∧ o.closed = false) ∧
        (rq.stateChanging = true → SameOrigin rq)) ∧
    ¬∀ (sessionCount : Nat) (ttlS : UInt32) (requireKey : Bool) (calls : List (Nat × Call))
      (t₀ t : Nat) (rq : Request), ttlS.toNat < 2 ^ 31 → Trail.Timely t₀ calls t → t₀ ≤ t →
      t < t₀ + 2 ^ 31 →
      (run Trail.step (.start sessionCount ttlS requireKey) calls).policy.configured = true →
      ((run Trail.step (.start sessionCount ttlS requireKey) calls).policy.decide
        (clock t) rq).1 = .allow →
      (run Trail.step (.start sessionCount ttlS requireKey) calls).FromOpenPortal t rq ∨
      (run Trail.step (.start sessionCount ttlS requireKey) calls).ShowsKey t rq ∨
      (rq.stateChanging = true → NamesHost rq) := by
  refine ⟨fun h => ?_, fun h => ?_⟩
  · have hlast := h 4 3600 false closedTwin 10 20 withCookie (by decide)
      ⟨by decide, by decide, by simp [closedTwin, login, Trail.TtlFits]⟩ (by decide) (by decide)
      (by decide +kernel) (by decide +kernel)
    rcases hlast with ⟨hportal, -⟩ | ⟨hbearer, -⟩ | ⟨⟨o, ho, -, -, hopen⟩, -⟩
    · cases hportal
    · cases hbearer
    · have hclosed : ∀ o ∈ (run Trail.step (.start 4 3600 false) closedTwin).openings,
          o.closed = true := by decide +kernel
      rw [hclosed o ho] at hopen
      cases hopen
  · have hlast := h 4 3600 false login 10 20 withPath (by decide)
      ⟨by decide, by decide, by simp [login, Trail.TtlFits]⟩ (by decide) (by decide)
      (by decide +kernel) (by decide +kernel)
    rcases hlast with ⟨hportal, -⟩ | ⟨hbearer, -⟩ | hnames
    · cases hportal
    · cases hbearer
    · obtain ⟨origin, host, horigin, hhost, hsame⟩ := hnames rfl
      cases horigin
      cases hhost
      exact absurd hsame (by decide)

end Espos.Httpd
