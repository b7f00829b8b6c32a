import Espos.Httpd.Justified
import Mathlib.Data.List.GetD

-- How long a session lives: when each slot of the table was last stamped, beside
-- the stamps of the wrapping clock.

namespace Espos.Httpd

open Espos.Clock Espos.Text Espos.Run

-- The slot a call stamps.
def Call.stamps (p : Policy) (now : UInt32) : Call → Option Nat
  | .sessionOpen _ idSize =>
    if p.sessions.length = 0 ∨ idSize.all (· < sidLen + 1) then none
    else Policy.pickSlot none 0 (p.sweep now).sessions
  | .sessionValid id => (p.find id now).1
  | .decide rq =>
    if rq.fromPortal && p.portalExempt now then none
    else if ¬p.configured then none
    else
      match rq.bearer with
      | some _ => none
      | none => (p.find rq.cookieSid now).1
  | _ => none

-- The call ends the session under the id.
def Call.ends (id : Buf (sidLen + 1)) : Call → Bool
  | .sessionClose k => k = some id.chars
  | .setKey _ => true
  | .sessionsClear => true
  | _ => false

def restamp (seen : List Nat) (t : Nat) : Option Nat → List Nat
  | none => seen
  | some i => seen.set i t

-- Not in the code: `seen`, the time each slot was last stamped at.
structure Watch where
  trail : Trail
  seen : List Nat

namespace Watch

def start (sessionCount : Nat) (ttlS : UInt32) (requireKey : Bool) : Watch :=
  ⟨.start sessionCount ttlS requireKey, List.replicate sessionCount 0⟩

def step (w : Watch) (input : Nat × Call) : Watch where
  trail := w.trail.step input
  seen := restamp w.seen input.1 (input.2.stamps w.trail.policy (clock input.1))

variable (w : Watch)

-- The table as `session_open` finds it.
def table (t : Nat) : List Session :=
  (w.trail.policy.sweep (clock t)).sessions

-- The slots, each with the time it was last stamped at.
def slots (t : Nat) : List (Session × Nat) :=
  (w.table t).zip w.seen

-- The table is full, and a session under the id has been idle at least as long
-- as every other one.
def Oldest (t : Nat) (id : Buf (sidLen + 1)) : Prop :=
  (∀ s ∈ w.table t, s.used = true) ∧
    ∃ own ∈ w.slots t, Holds id own.1 ∧ ∀ other ∈ w.slots t, own.2 ≤ other.2

instance (t : Nat) (id : Buf (sidLen + 1)) : Decidable (w.Oldest t id) :=
  inferInstanceAs (Decidable (_ ∧ _))

-- A call that does not end the session under the id before its time.
def Spares (id : Buf (sidLen + 1)) (w : Watch) : Nat × Call → Prop
  | (t, .sessionOpen _ _) => ¬w.Oldest t id
  | (_, call) => call.ends id = false

-- Some other session was seen in an earlier second than those under the id.
def Outlived (t : Nat) (id : Buf (sidLen + 1)) : Prop :=
  ∃ other ∈ w.slots t, other.1.used = true ∧
    ∀ own ∈ w.slots t, Holds id own.1 → other.2 < own.2

instance (t : Nat) (id : Buf (sidLen + 1)) : Decidable (w.Outlived t id) :=
  inferInstanceAs (Decidable (∃ other ∈ w.slots t, _ ∧ _))

-- The same where every opening finds such a session or a free slot.
def Passes (id : Buf (sidLen + 1)) (w : Watch) : Nat × Call → Prop
  | (t, .sessionOpen _ _) => (∃ s ∈ w.table t, s.used = false) ∨ w.Outlived t id
  | input => w.Spares id input

theorem spares_of_passes {w : Watch} {id : Buf (sidLen + 1)} {input : Nat × Call}
    (h : w.Passes id input) : w.Spares id input := by
  obtain ⟨t, call⟩ := input
  cases call with
  | sessionOpen random idSize =>
    rintro ⟨hfull, own, hown, hholds, hleast⟩
    rcases h with ⟨s, hs, hfree⟩ | ⟨other, hother, -, hearlier⟩
    · rw [hfull s hs] at hfree
      cases hfree
    · have hlt := hearlier own hown hholds
      have hle := hleast other hother
      omega
  | _ => exact h

end Watch

section Slots

variable {t₀ t : Nat}

theorem ahead_clock {a b : Nat} (ha : t₀ ≤ a ∧ a ≤ t) (hb : t₀ ≤ b ∧ b ≤ t)
    (hspan : t < t₀ + 2 ^ 31) : ahead (clock a) (clock b) < 0 ↔ a < b := by
  rw [ahead, toNat_sub_of]
  simp only [clock, UInt32.toNat_ofNat']
  split_ifs <;> omega

-- A slot that was stamped at this time.
def Stamped (t₀ t seen : Nat) (s : Session) : Prop :=
  s.lastSeenS = clock seen ∧ t₀ ≤ seen ∧ seen ≤ t

-- The slot picked is free, or all are taken and it is idle longest.
theorem pickSlot_spec {seenAt : Nat → Nat} (hspan : t < t₀ + 2 ^ 31) {l : List Session}
    {slot : Option (Nat × Session)} {k i : Nat}
    (hslot : ∀ j s, slot = some (j, s) → Stamped t₀ t (seenAt j) s)
    (hl : ∀ j s, l[j]? = some s → s.used = true → Stamped t₀ t (seenAt (k + j)) s)
    (h : Policy.pickSlot slot k l = some i) :
    (∃ j s, i = k + j ∧ l[j]? = some s ∧ s.used = false) ∨
      (∀ s ∈ l, s.used = true) ∧ (∀ j s, slot = some (j, s) → seenAt i ≤ seenAt j) ∧
        ∀ j, j < l.length → seenAt i ≤ seenAt (k + j) := by
  induction l generalizing slot k with
  | nil =>
    right
    rw [Policy.pickSlot, Option.map_eq_some_iff] at h
    obtain ⟨p, rfl, rfl⟩ := h
    refine ⟨by simp, ?_, (by simp)⟩
    intro j s hj
    rw [Option.some.inj hj]
  | cons s l ih =>
    have htail : ∀ j u, l[j]? = some u → u.used = true →
        Stamped t₀ t (seenAt (k + 1 + j)) u := by
      intro j u hj hu
      have hstamped := hl (j + 1) u hj hu
      rwa [show k + (j + 1) = k + 1 + j by omega] at hstamped
    cases hused : s.used with
    | false =>
      rw [Policy.pickSlot.eq_def] at h
      simp only [hused, Bool.false_eq_true, not_false_eq_true, if_true] at h
      exact Or.inl ⟨0, s, (Option.some.inj h).symm, rfl, hused⟩
    | true =>
      have hs : Stamped t₀ t (seenAt k) s := hl 0 s rfl hused
      -- the best of the slots passed so far, and what it is no better than
      have hgoes : ∀ m u, Stamped t₀ t (seenAt m) u →
          Policy.pickSlot (some (m, u)) (k + 1) l = some i → seenAt m ≤ seenAt k →
          (∀ j v, slot = some (j, v) → seenAt m ≤ seenAt j) →
          (∃ j s', i = k + j ∧ (s :: l)[j]? = some s' ∧ s'.used = false) ∨
            (∀ s' ∈ s :: l, s'.used = true) ∧
              (∀ j v, slot = some (j, v) → seenAt i ≤ seenAt j) ∧
              ∀ j, j < (s :: l).length → seenAt i ≤ seenAt (k + j) := by
        intro m u hu hrest hk hold
        rcases ih (by rintro j v ⟨rfl⟩; exact hu) htail hrest with
          ⟨j, s', rfl, hj, hfree⟩ | ⟨hall, hbest, hlater⟩
        · exact Or.inl ⟨j + 1, s', by omega, hj, hfree⟩
        · have him := hbest m u rfl
          refine Or.inr ⟨?_, ?_, ?_⟩
          · intro s' hs'
            rcases List.mem_cons.mp hs' with rfl | hs'
            · exact hused
            · exact hall s' hs'
          · exact fun j v hj => him.trans (hold j v hj)
          · intro j hj
            cases j with
            | zero => exact him.trans hk
            | succ j =>
              have hle := hlater j (by rw [List.length_cons] at hj; omega)
              rwa [show k + 1 + j = k + (j + 1) by omega] at hle
      rw [Policy.pickSlot.eq_def] at h
      simp only [hused, not_true_eq_false, if_false] at h
      cases slot with
      | none => exact hgoes k s hs h (le_refl _) (by simp)
      | some p =>
        obtain ⟨m, u⟩ := p
        have hu := hslot m u rfl
        obtain ⟨hsclock, hsrange⟩ := hs
        obtain ⟨huclock, hurange⟩ := hu
        have hiff : ahead s.lastSeenS u.lastSeenS < 0 ↔ seenAt k < seenAt m := by
          rw [hsclock, huclock]
          exact ahead_clock hsrange hurange hspan
        by_cases hlonger : ahead s.lastSeenS u.lastSeenS < 0
        · simp only [if_pos hlonger] at h
          refine hgoes k s ⟨hsclock, hsrange⟩ h (le_refl _) ?_
          rintro j v ⟨rfl⟩
          exact (hiff.mp hlonger).le
        · simp only [if_neg hlonger] at h
          refine hgoes m u ⟨huclock, hurange⟩ h ?_ ?_
          · rw [hiff] at hlonger
            omega
          · rintro j v ⟨rfl⟩
            exact le_refl _

end Slots

section Moves

-- What a call makes of the table, and the slot it stamps.
inductive Moves (p : Policy) (now : UInt32) : Call → List Session → Option Nat → Prop
  | kept (call : Call) : Moves p now call p.sessions none
  | swept (call : Call) : Moves p now call (p.sweep now).sessions none
  | stamped (call : Call) (i : Nat) : Moves p now call
      ((p.sweep now).sessions.modify i fun s => { s with lastSeenS := now }) (some i)
  | closed (id : CStr) (i : Nat) : Policy.hitFrom id none 0 (p.sweep now).sessions = some i →
      Moves p now (.sessionClose (some id)) ((p.sweep now).sessions.set i .zero) none
  | opened (random : Fin 4 → UInt32) (idSize : Option Nat) (i : Nat) :
      Policy.pickSlot none 0 (p.sweep now).sessions = some i →
      Moves p now (.sessionOpen random idSize) ((p.sweep now).sessions.set i
        ⟨Policy.sessionId random, now + p.ttlS, now, true⟩) (some i)
  | rekeyed (key : Option CStr) : Moves p now (.setKey key) (p.sessions.map fun _ => .zero) none
  | cleared : Moves p now .sessionsClear (p.sessions.map fun _ => .zero) none

theorem moves_valid (p : Policy) (now : UInt32) (call : Call) (id : Option CStr) :
    Moves p now call (p.sessionValid now id).2.sessions (p.find id now).1 := by
  cases id with
  | none => exact .kept call
  | some id =>
    simp only [Policy.sessionValid, Policy.find]
    cases Policy.hitFrom id none 0 (p.sweep now).sessions with
    | none => exact .swept call
    | some i => exact .stamped call i

theorem moves_decide (p : Policy) (now : UInt32) (rq : Request) :
    Moves p now (.decide rq) (p.decide now rq).2.2.sessions ((Call.decide rq).stamps p now) := by
  rw [Policy.decide, Call.stamps]
  by_cases hportal : (rq.fromPortal && p.portalExempt now) = true
  · rw [if_pos hportal, if_pos hportal]
    exact .kept _
  · rw [if_neg hportal, if_neg hportal]
    by_cases hopen : ¬p.configured = true
    · rw [if_pos hopen, if_pos hopen]
      exact .kept _
    · rw [if_neg hopen, if_neg hopen]
      cases rq.bearer with
      | some bearer =>
        rcases checkKey_cases p now (some bearer) with ⟨-, h⟩ | ⟨-, v, _, _, _, _, h, -⟩
        · simp only [h]
          exact .kept _
        · simp only [h]
          exact .kept _
      | none =>
        cases rq.cookieSid with
        | none => exact .kept _
        | some sid =>
          have hvalid := moves_valid p now (.decide rq) (some sid)
          dsimp only
          generalize p.sessionValid now (some sid) = r at hvalid
          obtain ⟨valid, p'⟩ := r
          cases valid with
          | false => exact hvalid
          | true => exact hvalid

theorem moves_step (w : Trail) (t : Nat) (call : Call) :
    Moves w.policy (clock t) call (w.step (t, call)).policy.sessions
      (call.stamps w.policy (clock t)) := by
  cases call with
  | setKey key => exact .rekeyed key
  | setTtl ttlS => exact .kept _
  | sessionOpen random idSize =>
    simp only [Trail.step, Policy.sessionOpen, Call.stamps]
    by_cases hrefused : w.policy.sessions.length = 0 ∨ idSize.all (· < sidLen + 1)
    · simp only [if_pos hrefused]
      exact .kept _
    · simp only [if_neg hrefused]
      cases hpick : Policy.pickSlot none 0 (w.policy.sweep (clock t)).sessions with
      | none => exact .swept _
      | some i => exact .opened random idSize i hpick
  | sessionValid id => exact moves_valid w.policy (clock t) _ id
  | sessionClose id =>
    cases id with
    | none => exact .kept _
    | some id =>
      simp only [Trail.step, Policy.sessionClose, Policy.find, Call.stamps]
      cases hhit : Policy.hitFrom id none 0 (w.policy.sweep (clock t)).sessions with
      | none => exact .swept _
      | some i => exact .closed id i hhit
  | sessionsClear => exact .cleared
  | sessionsLive => exact .swept _
  | recoveryOpen seconds =>
    simp only [Trail.step, Policy.recoveryOpen]
    by_cases hzero : seconds = 0
    · rw [if_pos hzero]
      exact .kept _
    · rw [if_neg hzero]
      exact .kept _
  | decide rq => exact moves_decide w.policy (clock t) rq
  | checkKey presented =>
    rcases checkKey_cases w.policy (clock t) presented with ⟨-, h⟩ | ⟨-, v, _, _, _, _, h, -⟩
    · simp only [Trail.step, Trail.lockout, h]
      exact .kept _
    · simp only [Trail.step, Trail.lockout, h]
      exact .kept _

end Moves

section Runs

variable {t₀ t : Nat} {w : Watch} {id : Buf (sidLen + 1)} {openedAt ttlS i : Nat}

-- The stamps of the slots are those of the times beside them.
structure Dated (t₀ t : Nat) (seen : List Nat) (sessions : List Session) : Prop where
  length : seen.length = sessions.length
  stamped : ∀ i s, sessions[i]? = some s → s.used = true → Stamped t₀ t (seen.getD i 0) s

-- The session stands in its slot.
def Stands (id : Buf (sidLen + 1)) (openedAt ttlS i : Nat) (sessions : List Session) : Prop :=
  ∃ s, sessions[i]? = some s ∧ Holds id s ∧ s.expiresS = clock (openedAt + ttlS)

theorem Dated.sweep {seen : List Nat} {sessions : List Session} (h : Dated t₀ t seen sessions)
    (now : UInt32) : Dated t₀ t seen (sessions.map (Policy.expire now)) := by
  refine ⟨by rw [List.length_map, h.length], ?_⟩
  intro i s hs hused
  rw [List.getElem?_map, Option.map_eq_some_iff] at hs
  obtain ⟨r, hr, rfl⟩ := hs
  obtain ⟨hsame, hrused, -⟩ := used_expire hused
  rw [hsame]
  exact h.stamped i r hr hrused

theorem Stands.sweep {sessions : List Session} (h : Stands id openedAt ttlS i sessions)
    (hopened : openedAt ≤ t) (hspan : t < openedAt + 2 ^ 31) (httl : ttlS < 2 ^ 31)
    (hlive : t < openedAt + ttlS) :
    Stands id openedAt ttlS i (sessions.map (Policy.expire (clock t))) := by
  obtain ⟨s, hs, hholds, hexpires⟩ := h
  have hkept : Policy.expire (clock t) s = s := by
    rw [Policy.expire, if_neg]
    rintro ⟨-, hreached⟩
    rw [hexpires, reached_clock hopened hspan httl] at hreached
    omega
  refine ⟨s, ?_, hholds, hexpires⟩
  rw [List.getElem?_map, hs, Option.map_some, hkept]

theorem Dated.mono {seen : List Nat} {sessions : List Session} {t' : Nat}
    (h : Dated t₀ t seen sessions) (hnext : t ≤ t') : Dated t₀ t' seen sessions := by
  refine ⟨h.length, ?_⟩
  intro i s hs hused
  obtain ⟨hclock, hfrom, hto⟩ := h.stamped i s hs hused
  exact ⟨hclock, hfrom, hto.trans hnext⟩

-- A slot that is stamped now, whatever else is written into it.
theorem Dated.stamp {seen : List Nat} {sessions sessions' : List Session}
    (h : Dated t₀ t seen sessions) (htime : t₀ ≤ t) {i : Nat}
    (hlen : sessions'.length = sessions.length)
    (hother : ∀ j, j ≠ i → sessions'[j]? = sessions[j]?)
    (hslot : ∀ s, sessions'[i]? = some s → s.lastSeenS = clock t) :
    Dated t₀ t (seen.set i t) sessions' := by
  refine ⟨by rw [List.length_set, h.length, hlen], ?_⟩
  intro j s hs hused
  by_cases hj : j = i
  · subst hj
    have hlt : j < seen.length := by
      rw [h.length, ← hlen]
      exact (List.getElem?_eq_some_iff.mp hs).1
    have hget : (seen.set j t).getD j 0 = t := by
      rw [List.getD_eq_getElem?_getD, List.getElem?_set_self hlt, Option.getD_some]
    rw [hget]
    exact ⟨hslot s hs, htime, le_refl t⟩
  · rw [hother j hj] at hs
    rw [List.getD_eq_getElem?_getD, List.getElem?_set_ne (Ne.symm hj),
      ← List.getD_eq_getElem?_getD]
    exact h.stamped j s hs hused

theorem Dated.freed {seen : List Nat} {sessions sessions' : List Session}
    (h : Dated t₀ t seen sessions) (hlen : sessions'.length = sessions.length)
    (hfrom : ∀ (i : Nat) (s : Session), sessions'[i]? = some s → s.used = true →
      sessions[i]? = some s) : Dated t₀ t seen sessions' :=
  ⟨by rw [h.length, hlen], fun i s hs hused => h.stamped i s (hfrom i s hs hused) hused⟩

theorem Dated.zeroed {seen : List Nat} {sessions : List Session}
    (h : Dated t₀ t seen sessions) : Dated t₀ t seen (sessions.map fun _ => .zero) := by
  refine h.freed (by rw [List.length_map]) ?_
  intro i s hs hused
  rw [List.getElem?_map, Option.map_eq_some_iff] at hs
  obtain ⟨r, -, rfl⟩ := hs
  cases hused

theorem dated_moves {p : Policy} {call : Call} {seen : List Nat} {sessions : List Session}
    {stamped : Option Nat} (h : Dated t₀ t seen p.sessions) (htime : t₀ ≤ t)
    (hmoves : Moves p (clock t) call sessions stamped) :
    Dated t₀ t (restamp seen t stamped) sessions := by
  have hswept := h.sweep (clock t)
  cases hmoves with
  | kept => exact h
  | swept => exact hswept
  | stamped _ i =>
    refine hswept.stamp htime (by rw [List.length_modify]; rfl) ?_ ?_
    · intro j hj
      rw [List.getElem?_modify_ne _ _ (Ne.symm hj)]
      rfl
    · intro s hs
      rw [List.getElem?_modify_eq, Option.map_eq_map, Option.map_eq_some_iff] at hs
      obtain ⟨r, -, rfl⟩ := hs
      rfl
  | closed id i hhit =>
    refine hswept.freed (by rw [List.length_set]; rfl) ?_
    intro j s hs hused
    by_cases hj : j = i
    · subst hj
      rw [List.getElem?_set_self'] at hs
      cases hslot : (p.sweep (clock t)).sessions[j]? with
      | none => rw [hslot] at hs; cases hs
      | some r =>
        rw [hslot] at hs
        cases hs
        cases hused
    · rwa [List.getElem?_set_ne (Ne.symm hj)] at hs
  | opened random idSize i hpick =>
    refine hswept.stamp htime (by rw [List.length_set]; rfl) ?_ ?_
    · intro j hj
      rw [List.getElem?_set_ne (Ne.symm hj)]
      rfl
    · intro s hs
      have hlt : i < (p.sweep (clock t)).sessions.length := by
        have hlen := (List.getElem?_eq_some_iff.mp hs).1
        rwa [List.length_set] at hlen
      rw [List.getElem?_set_self hlt] at hs
      cases hs
      rfl
  | rekeyed key => exact h.zeroed
  | cleared => exact h.zeroed

-- A call that spares the session leaves it in its slot.
theorem stands_moves {call : Call} {sessions : List Session} {stamped : Option Nat}
    (h : Stands id openedAt ttlS i w.trail.policy.sessions)
    (hdated : Dated t₀ t w.seen w.trail.policy.sessions)
    (hsized : ∀ s ∈ w.table t, s.used = true → s.id.chars.length = sidLen)
    (hfrom : t < t₀ + 2 ^ 31) (hopened : openedAt ≤ t) (hspan : t < openedAt + 2 ^ 31)
    (httl : ttlS < 2 ^ 31) (hlive : t < openedAt + ttlS) (hspares : w.Spares id (t, call))
    (hmoves : Moves w.trail.policy (clock t) call sessions stamped) :
    Stands id openedAt ttlS i sessions := by
  have hswept : Stands id openedAt ttlS i (w.table t) := h.sweep hopened hspan httl hlive
  obtain ⟨s, hs, hholds, hexpires⟩ := hswept
  -- another slot is written to
  have hother : ∀ (j : Nat) (r : Session), j ≠ i →
      Stands id openedAt ttlS i ((w.table t).set j r) := by
    intro j r hj
    exact ⟨s, by rwa [List.getElem?_set_ne hj], hholds, hexpires⟩
  cases hmoves with
  | kept => exact h
  | swept => exact ⟨s, hs, hholds, hexpires⟩
  | stamped _ j =>
    by_cases hj : j = i
    · refine ⟨{ s with lastSeenS := clock t }, ?_, hholds, hexpires⟩
      rw [hj, List.getElem?_modify_eq]
      exact congrArg _ hs
    · refine ⟨s, ?_, hholds, hexpires⟩
      rw [List.getElem?_modify_ne _ _ hj]
      exact hs
  | closed k j hhit =>
    apply hother
    rintro rfl
    rcases hitFrom_cases none 0 (w.table t) with ⟨hmiss, -⟩ | ⟨m, r, hm, hmatch, hfound⟩
    · rw [Watch.table, hhit] at hmiss
      cases hmiss
    · rw [Watch.table, hhit, Nat.zero_add] at hfound
      obtain rfl := Option.some.inj hfound
      obtain rfl : s = r := Option.some.inj (hs.symm.trans hm)
      have hid := ((matches_iff (hsized s (List.mem_of_getElem? hs))).mp hmatch).2
      rw [hholds.2] at hid
      have hends : (Call.sessionClose (some k)).ends id = true := by
        rw [Call.ends, hid, decide_eq_true_eq]
      cases hends.symm.trans hspares
  | opened random idSize j hpick =>
    apply hother
    rintro rfl
    have hdated' := hdated.sweep (clock t)
    have hstamped : ∀ m r, (w.table t)[m]? = some r → r.used = true →
        Stamped t₀ t (w.seen.getD (0 + m) 0) r := by
      intro m r hm hused
      rw [Nat.zero_add]
      exact hdated'.stamped m r hm hused
    have hnone : ∀ m r, (none : Option (Nat × Session)) = some (m, r) →
        Stamped t₀ t (w.seen.getD m 0) r := by
      intro m r hm
      cases hm
    rcases pickSlot_spec hfrom hnone hstamped hpick with
      ⟨m, r, hm, hr, hfree⟩ | ⟨hall, -, hleast⟩
    · rw [Nat.zero_add] at hm
      subst hm
      obtain rfl : s = r := Option.some.inj (hs.symm.trans hr)
      rw [hholds.1] at hfree
      cases hfree
    · have hlen : w.seen.length = (w.table t).length := hdated'.length
      have hlt : j < w.seen.length := by
        rw [hlen]
        exact (List.getElem?_eq_some_iff.mp hs).1
      have hown : (w.slots t)[j]? = some (s, w.seen[j]) := by
        rw [Watch.slots, List.getElem?_zip_eq_some]
        exact ⟨hs, List.getElem?_eq_getElem hlt⟩
      refine hspares ⟨hall, _, List.mem_of_getElem? hown, hholds, ?_⟩
      intro other hmem
      obtain ⟨m, hm, rfl⟩ := List.getElem_of_mem hmem
      rw [Watch.slots, List.length_zip] at hm
      have hle := hleast m (by omega)
      rw [Nat.zero_add, List.getD_eq_getElem _ _ hlt,
        List.getD_eq_getElem _ _ (by omega)] at hle
      simpa [Watch.slots] using hle
  | rekeyed key => cases hspares
  | cleared => cases hspares

-- What holds of every run.
structure Watched (t₀ t : Nat) (w : Watch) : Prop where
  sound : w.trail.Sound t₀ t
  dated : Dated t₀ t w.seen w.trail.policy.sessions

theorem watched_start (sessionCount : Nat) {ttlS : UInt32} (requireKey : Bool)
    (httl : ttlS.toNat < 2 ^ 31) : Watched t₀ t (.start sessionCount ttlS requireKey) := by
  refine ⟨Trail.start_sound sessionCount requireKey httl, ?_, ?_⟩
  · simp [Watch.start, Trail.start, Policy.init]
  · intro i s hs hused
    obtain rfl := List.eq_of_mem_replicate (List.mem_of_getElem? hs)
    cases hused

theorem Watched.step (h : Watched t₀ t w) {input : Nat × Call} (htime : t₀ ≤ input.1)
    (hnext : t ≤ input.1) (hspan : input.1 < t₀ + 2 ^ 31) (httl : Trail.TtlFits input.2) :
    Watched t₀ input.1 (w.step input) :=
  ⟨Trail.sound_step h.sound htime hnext hspan httl,
    dated_moves (h.dated.mono hnext) htime (moves_step w.trail input.1 input.2)⟩

theorem stands_run (h : Watched t₀ t w)
    (hstands : Stands id openedAt ttlS i w.trail.policy.sessions)
    {calls : List (Nat × Call)} {t' : Nat} (hlast : t ≤ t') (hopened : openedAt ≤ t)
    (hfrom : ∀ input ∈ calls, t ≤ input.1) (htimely : Trail.Timely t₀ calls t')
    (hspan : t' < t₀ + 2 ^ 31) (hstart : t₀ ≤ openedAt) (httl : ttlS < 2 ^ 31)
    (hlive : t' < openedAt + ttlS) (hspares : Along Watch.step (Watch.Spares id) w calls) :
    Watched t₀ t' (run Watch.step w calls) ∧
      Stands id openedAt ttlS i (run Watch.step w calls).trail.policy.sessions := by
  induction calls generalizing w t with
  | nil => exact ⟨⟨h.sound.mono hlast, h.dated.mono hlast⟩, hstands⟩
  | cons input calls ih =>
    obtain ⟨⟨hbegin, hend⟩, hfits, hlater, hrest⟩ := htimely.cons
    have hnext := hfrom input List.mem_cons_self
    have hwatched := h.step hbegin hnext (by omega) hfits
    have hsized : ∀ s ∈ w.table input.1, s.used = true → s.id.chars.length = sidLen :=
      (h.sound.table.sweep (clock input.1)).sized
    have hstands' := stands_moves hstands (h.dated.mono hnext) hsized (by omega) (by omega)
      (by omega) httl (by omega) hspares.1 (moves_step w.trail input.1 input.2)
    exact ih hwatched hstands' hend (by omega) hlater hrest hspares.2

theorem watched_run (h : Watched t₀ t w) {calls : List (Nat × Call)} {t' : Nat} (hlast : t ≤ t')
    (hfrom : ∀ input ∈ calls, t ≤ input.1) (htimely : Trail.Timely t₀ calls t')
    (hspan : t' < t₀ + 2 ^ 31) : Watched t₀ t' (run Watch.step w calls) := by
  induction calls generalizing w t with
  | nil => exact ⟨h.sound.mono hlast, h.dated.mono hlast⟩
  | cons input calls ih =>
    obtain ⟨⟨hbegin, hend⟩, hfits, hlater, hrest⟩ := htimely.cons
    have hwatched := h.step hbegin (hfrom input List.mem_cons_self) (by omega) hfits
    exact ih hwatched hend hlater hrest

theorem stands_opened {random : Fin 4 → UInt32} {idSize : Option Nat}
    (hopened : (w.trail.policy.sessionOpen (clock t) random idSize).1 = some id) :
    ∃ i, Stands id t w.trail.policy.ttlS.toNat i
      (w.step (t, .sessionOpen random idSize)).trail.policy.sessions := by
  simp only [Watch.step, Trail.step]
  rw [Policy.sessionOpen] at hopened ⊢
  by_cases hrefused : w.trail.policy.sessions.length = 0 ∨ idSize.all (· < sidLen + 1)
  · rw [if_pos hrefused] at hopened
    cases hopened
  · rw [if_neg hrefused] at hopened ⊢
    dsimp only at hopened ⊢
    cases hpick : Policy.pickSlot none 0 (w.trail.policy.sweep (clock t)).sessions with
    | none =>
      rw [hpick] at hopened
      cases hopened
    | some i =>
      rw [hpick] at hopened
      have hlt := pickSlot_lt (by intro p hp; cases hp) hpick
      rw [Nat.zero_add] at hlt
      refine ⟨i, _, List.getElem?_set_self hlt, ⟨rfl, Option.some.inj hopened⟩, ?_⟩
      exact clock_add t w.trail.policy.ttlS

theorem valid_of_stands (hstands : Stands id openedAt ttlS i w.trail.policy.sessions)
    (hsized : ∀ s ∈ w.table t, s.used = true → s.id.chars.length = sidLen)
    (hopened : openedAt ≤ t) (hspan : t < openedAt + 2 ^ 31) (httl : ttlS < 2 ^ 31)
    (hlive : t < openedAt + ttlS) :
    (w.trail.policy.sessionValid (clock t) (some id.chars)).1 = true := by
  obtain ⟨s, hs, hholds, -⟩ := hstands.sweep hopened hspan httl hlive
  have hmem : s ∈ w.table t := List.mem_of_getElem? hs
  have hmatch : Matches id.chars s := by
    refine (matches_iff (hsized s hmem)).mpr ⟨hholds.1, ?_⟩
    rw [hholds.2]
  rw [Policy.sessionValid, Policy.find]
  rcases @hitFrom_cases id.chars none 0 (w.table t) with ⟨-, hmiss⟩ | ⟨m, r, -, -, hfound⟩
  · exact (hmiss s hmem hmatch).elim
  · rw [Watch.table] at hfound
    simp only [hfound]

end Runs

section Lives

variable (sessionCount : Nat) (ttlS : UInt32) (requireKey : Bool)

-- A session that was opened is valid for as long as every call spares it.
theorem spared_session_valid (before after : List (Nat × Call)) (random : Fin 4 → UInt32)
    (idSize : Option Nat) (id : Buf (sidLen + 1)) (t₀ openedAt t : Nat)
    (httl : ttlS.toNat < 2 ^ 31)
    (htimely : Trail.Timely t₀ (before ++ (openedAt, .sessionOpen random idSize) :: after) t)
    (hspan : t < t₀ + 2 ^ 31) :
    let w := run Watch.step (.start sessionCount ttlS requireKey) before
    (w.trail.policy.sessionOpen (clock openedAt) random idSize).1 = some id →
    t < openedAt + w.trail.policy.ttlS.toNat →
    Along Watch.step (Watch.Spares id) (w.step (openedAt, .sessionOpen random idSize)) after →
    ((run Watch.step (w.step (openedAt, .sessionOpen random idSize)) after).trail.policy
      |>.sessionValid (clock t) (some id.chars)).1 = true := by
  intro w hopened hlive hspares
  obtain ⟨hordered, hwithin, hfits⟩ := htimely
  rw [List.map_append, List.map_cons, List.pairwise_append, List.pairwise_cons] at hordered
  obtain ⟨hbefore, ⟨hlater, hafter⟩, hacross⟩ := hordered
  have hmem : (openedAt, Call.sessionOpen random idSize) ∈
      before ++ (openedAt, .sessionOpen random idSize) :: after :=
    List.mem_append_right _ List.mem_cons_self
  obtain ⟨hbegin, hend⟩ := hwithin _ hmem
  have hpast : ∀ input ∈ before, t₀ ≤ input.1 ∧ input.1 ≤ openedAt := by
    intro input hinput
    refine ⟨(hwithin input (List.mem_append_left _ hinput)).1, ?_⟩
    exact hacross input.1 (List.mem_map_of_mem hinput) openedAt List.mem_cons_self
  have hw : Watched t₀ openedAt w := by
    refine watched_run (watched_start sessionCount requireKey httl) hbegin
      (fun input hinput => (hpast input hinput).1) ⟨hbefore, hpast, ?_⟩ (by omega)
    intro input hinput
    exact hfits input (List.mem_append_left _ hinput)
  have hopen := hw.step hbegin (le_refl openedAt) (by omega) (hfits _ hmem)
  obtain ⟨i, hstands⟩ := stands_opened hopened
  have hfollow : ∀ input ∈ after, openedAt ≤ input.1 := by
    intro input hinput
    exact hlater input.1 (List.mem_map_of_mem hinput)
  have htail : Trail.Timely t₀ after t := by
    refine ⟨hafter, ?_, ?_⟩
    · intro input hinput
      exact hwithin input (List.mem_append_right _ (List.mem_cons_of_mem _ hinput))
    · intro input hinput
      exact hfits input (List.mem_append_right _ (List.mem_cons_of_mem _ hinput))
  have hlives := stands_run hopen hstands hend (le_refl openedAt) hfollow htail hspan hbegin
    hw.sound.ttl hlive hspares
  exact valid_of_stands hlives.2 (hlives.1.sound.table.sweep (clock t)).sized hend (by omega)
    hw.sound.ttl hlive

-- A session lives until its time, and no opening evicts it that finds a free
-- slot or another session seen in an earlier second.
theorem session_lives (before after : List (Nat × Call)) (random : Fin 4 → UInt32)
    (idSize : Option Nat) (id : Buf (sidLen + 1)) (t₀ openedAt t : Nat)
    (httl : ttlS.toNat < 2 ^ 31)
    (htimely : Trail.Timely t₀ (before ++ (openedAt, .sessionOpen random idSize) :: after) t)
    (hspan : t < t₀ + 2 ^ 31) :
    let w := run Watch.step (.start sessionCount ttlS requireKey) before
    let opened := w.step (openedAt, .sessionOpen random idSize)
    let valid := ((run Watch.step opened after).trail.policy.sessionValid (clock t)
      (some id.chars)).1 = true
    (w.trail.policy.sessionOpen (clock openedAt) random idSize).1 = some id →
    t < openedAt + w.trail.policy.ttlS.toNat →
    (Along Watch.step (Watch.Spares id) opened after → valid) ∧
      (Along Watch.step (Watch.Passes id) opened after → valid) := by
  intro w opened valid hopened hlive
  have hvalid : Along Watch.step (Watch.Spares id) opened after → valid :=
    spared_session_valid sessionCount ttlS requireKey before after random idSize id t₀ openedAt t
      httl htimely hspan hopened hlive
  refine ⟨hvalid, fun hpasses => hvalid ?_⟩
  exact hpasses.imp fun _ _ => Watch.spares_of_passes

end Lives

def door (n : UInt32) : Fin 4 → UInt32 :=
  fun _ => n

def cookieOf (n : UInt32) : Option CStr :=
  some (Policy.sessionId (door n)).chars

-- Two sessions, each validated between any two openings; the first one is the
-- last to be seen, in the same second or a later one.
def rivals (t : Nat) : List (Nat × Call) :=
  [(11, .sessionValid (cookieOf 1)), (12, .sessionOpen (door 2) (some 33)),
    (13, .sessionValid (cookieOf 2)), (t, .sessionValid (cookieOf 1)),
    (15, .sessionOpen (door 3) (some 33))]

theorem session_lives_later :
    ((run Watch.step ((Watch.start 2 3600 false).step (10, .sessionOpen (door 1) (some 33)))
      (rivals 14)).trail.policy.sessionValid (clock 16) (cookieOf 1)).1 = true :=
  (session_lives 2 3600 false [] (rivals 14) (door 1) (some 33) (Policy.sessionId (door 1))
    10 10 16 (by decide) ⟨by decide, by decide, by simp [rivals, Trail.TtlFits]⟩ (by decide)
    (by decide +kernel) (by decide)).2
    ⟨rfl, Or.inl (by decide +kernel), rfl, rfl, Or.inr (by decide +kernel), trivial⟩

-- Every opening comes after a validation of the session since the one before.
def revisited (id : Buf (sidLen + 1)) : Bool → List (Nat × Call) → Bool
  | _, [] => true
  | seen, (_, .sessionOpen _ _) :: rest => seen && revisited id false rest
  | seen, (_, .sessionValid k) :: rest => revisited id (seen || k = some id.chars) rest
  | seen, _ :: rest => revisited id seen rest

-- In the same second it is the first slot that is given up.
theorem revisited_session_evicted :
    ¬∀ (sessionCount : Nat) (ttlS : UInt32) (requireKey : Bool) (before after : List (Nat × Call))
      (random : Fin 4 → UInt32) (idSize : Option Nat) (id : Buf (sidLen + 1))
      (t₀ openedAt t : Nat), 2 ≤ sessionCount → ttlS.toNat < 2 ^ 31 →
      Trail.Timely t₀ (before ++ (openedAt, .sessionOpen random idSize) :: after) t →
      t < t₀ + 2 ^ 31 →
      let w := run Watch.step (.start sessionCount ttlS requireKey) before
      let opened := w.step (openedAt, .sessionOpen random idSize)
      (w.trail.policy.sessionOpen (clock openedAt) random idSize).1 = some id →
      t < openedAt + w.trail.policy.ttlS.toNat → (∀ input ∈ after, input.2.ends id = false) →
      revisited id false after = true →
      ((run Watch.step opened after).trail.policy.sessionValid (clock t)
        (some id.chars)).1 = true := by
  intro h
  have hvalid := h 2 3600 false [] (rivals 13) (door 1) (some 33) (Policy.sessionId (door 1))
    10 10 16 (by decide) (by decide) ⟨by decide, by decide, by simp [rivals, Trail.TtlFits]⟩
    (by decide) (by decide +kernel) (by decide) (by decide +kernel) (by decide +kernel)
  revert hvalid
  decide +kernel

end Espos.Httpd
