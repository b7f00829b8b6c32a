import Mathlib.Data.List.Basic
import Espos.Lib.Lists
import Espos.Lib.Run
import Espos.Platform

-- Which source may set the clock.

namespace Espos.Time

-- `espos_time_src_t`
inductive Src
  | none
  | rtc
  | sk
  | manual
  | sntp
  | max
deriving DecidableEq

-- The enumeration is the ranking.
def Src.rank : Src → Nat
  | .none => 0
  | .rtc => 1
  | .sk => 2
  | .manual => 3
  | .sntp => 4
  | .max => 5

-- `espos_time_policy_t`, without the staleness limit.
structure Policy where
  src : Src
  epochAtZeroMs : Int
  setAtMonoMs : Int
  priorAgeMs : Int
  sets : UInt32
deriving DecidableEq

namespace Policy

def init : Policy := ⟨.none, 0, 0, 0, 0⟩

def setAged (p : Policy) (unixMs : Int) (src : Src) (priorAgeMs mono : Int) : Policy × EspErr :=
  if unixMs ≤ 0 ∨ src.rank ≤ Src.none.rank ∨ Src.max.rank ≤ src.rank then (p, .invalidArg)
  else if p.src ≠ .none ∧ src.rank < p.src.rank then (p, .invalidState)
  else
    ({ src := src
       epochAtZeroMs := unixMs - mono
       setAtMonoMs := mono
       priorAgeMs := if 0 < priorAgeMs then priorAgeMs else 0
       sets := p.sets + 1 }, .ok)

-- The instant that was last accepted.
def instant (p : Policy) : Int :=
  p.epochAtZeroMs + p.setAtMonoMs

variable {p : Policy} {unixMs priorAgeMs mono : Int} {src : Src}

theorem setAged_accepted (h : (p.setAged unixMs src priorAgeMs mono).2 = .ok) :
    0 < unixMs ∧ p.src.rank ≤ src.rank ∧ src ≠ .none ∧
      (p.setAged unixMs src priorAgeMs mono).1.src = src ∧
      (p.setAged unixMs src priorAgeMs mono).1.instant = unixMs := by
  unfold setAged at h ⊢
  by_cases harg : unixMs ≤ 0 ∨ src.rank ≤ Src.none.rank ∨ Src.max.rank ≤ src.rank
  · rw [if_pos harg] at h
    cases h
  · rw [if_neg harg] at h ⊢
    by_cases hrank : p.src ≠ .none ∧ src.rank < p.src.rank
    · rw [if_pos hrank] at h
      cases h
    · rw [if_neg hrank]
      obtain ⟨hpositive, hlow, _⟩ : 0 < unixMs ∧ Src.none.rank < src.rank ∧
          src.rank < Src.max.rank := by omega
      refine ⟨hpositive, ?_, ?_, rfl, Int.sub_add_cancel unixMs mono⟩
      · by_cases hnone : p.src = .none
        · rw [hnone]
          exact Nat.zero_le _
        · exact Nat.le_of_not_lt fun hlt => hrank ⟨hnone, hlt⟩
      · rintro rfl
        exact absurd hlow (Nat.lt_irrefl _)

end Policy

end Espos.Time

-- What the device holds the time to be: the policy's clock, the system's, and
-- the record that outlives a deep sleep.

namespace Espos.Time

open Espos.Run Espos.Tasks

-- The record in RTC memory.
structure RtcRecord where
  magic : UInt32
  unixMs : Int
  src : UInt8
  check : UInt32
deriving DecidableEq

def RTC_MAGIC : UInt32 := 0x54494d45

def rtcCheck (magic : UInt32) (unixMs : Int) (src : UInt8) : UInt32 :=
  magic ^^^ UInt32.ofInt unixMs ^^^ (src.toUInt32 <<< 24)

def RtcRecord.of (unixMs : Int) (src : Src) : RtcRecord :=
  let byte := UInt8.ofNat src.rank
  ⟨RTC_MAGIC, unixMs, byte, rtcCheck RTC_MAGIC unixMs byte⟩

def rtcStore (rtc : RtcRecord) (unixMs : Int) (src : Src) : RtcRecord :=
  if unixMs ≤ 0 then rtc else .of unixMs src

-- What a call was accepted with. The number is not in the code.
structure Accepted where
  number : Nat
  unixMs : Int
  src : Src
deriving DecidableEq

-- Where a task is in `set_internal`, outside the locked section.
inductive Place
  | idle
  | setsSystem (x : Accepted)
  | storesRtc (x : Accepted)
deriving DecidableEq

-- The set a task has still to carry out.
def Place.held : Place → Option Accepted
  | .idle => none
  | .setsSystem x | .storesRtc x => some x

def Place.toSystem : Place → Option Accepted
  | .setsSystem x => some x
  | _ => none

def Place.toRtc : Place → Option Accepted
  | .storesRtc x => some x
  | _ => none

inductive Deed
  | accepted (src : Src)
  | wroteSystem (src : Src)
deriving DecidableEq

structure Device where
  policy : Policy
  systemMs : Option Int
  rtc : RtcRecord
  tasks : Nat → Place
  -- Not in the code: how many sets have been accepted, the numbers of those
  -- that were last written to the system clock and to the RTC record, and what
  -- has been done, newest first.
  accepted : Nat
  systemBy : Nat
  rtcBy : Nat
  deeds : List Deed

def Device.started (rtc : RtcRecord) : Device where
  policy := .init
  systemMs := none
  rtc := rtc
  tasks := fun _ => .idle
  accepted := 0
  systemBy := 0
  rtcBy := 0
  deeds := []

inductive SetStep
  -- `task` enters the call, and its locked section is run.
  | offers (task : Nat) (unixMs : Int) (src : Src) (priorAgeMs mono : Int)
  | setsSystem (task : Nat)
  | storesRtc (task : Nat)
deriving DecidableEq

namespace Device

def accept (d : Device) (p : Policy) (task : Nat) (unixMs : Int) (src : Src) : Device :=
  { d with
    policy := p
    tasks := Function.update d.tasks task (.setsSystem ⟨d.accepted + 1, unixMs, src⟩)
    accepted := d.accepted + 1
    deeds := .accepted src :: d.deeds }

def setSystem (d : Device) (task : Nat) (x : Accepted) : Device :=
  { d with
    systemMs := some x.unixMs
    tasks := Function.update d.tasks task (.storesRtc x)
    systemBy := x.number
    deeds := .wroteSystem x.src :: d.deeds }

def storeRtc (d : Device) (task : Nat) (x : Accepted) : Device :=
  { d with
    rtc := rtcStore d.rtc x.unixMs x.src
    tasks := Function.update d.tasks task .idle
    rtcBy := x.number }

def step (d : Device) : SetStep → Device
  | .offers task unixMs src priorAgeMs mono =>
    match d.tasks task with
    | .idle =>
      let (p, err) := d.policy.setAged unixMs src priorAgeMs mono
      if err = .ok then d.accept p task unixMs src else d
    | _ => d
  | .setsSystem task =>
    match d.tasks task with
    | .setsSystem x => d.setSystem task x
    | _ => d
  | .storesRtc task =>
    match d.tasks task with
    | .storesRtc x => d.storeRtc task x
    | _ => d

-- All calls have returned.
def Quiet (d : Device) : Prop :=
  ∀ task, d.tasks task = .idle

-- Later deeds come first.
def RankedDeeds (deeds : List Deed) : Prop :=
  deeds.Pairwise fun later earlier => ∀ a b, later = .wroteSystem a → earlier = .accepted b →
    b.rank ≤ a.rank

structure OneOpinion (d : Device) : Prop where
  agreed : d.Quiet → d.policy.src ≠ .none →
    d.systemMs = some d.policy.instant ∧ d.rtc = .of d.policy.instant d.policy.src
  ranked : RankedDeeds d.deeds

-- A better source is not accepted while a set has still to be written to the
-- system clock.
def Patient (d : Device) : SetStep → Prop
  | .offers task unixMs src priorAgeMs mono =>
    d.tasks task = .idle → (d.policy.setAged unixMs src priorAgeMs mono).2 = .ok →
      ∀ t x, d.tasks t = .setsSystem x → src.rank ≤ x.src.rank
  | _ => True

-- Sets are carried out in the order they were accepted.
def InOrder (d : Device) : SetStep → Prop
  | .offers .. => True
  | .setsSystem task => ∀ x ∈ (d.tasks task).toSystem, d.systemBy ≤ x.number
  | .storesRtc task => ∀ x ∈ (d.tasks task).toRtc, d.rtcBy ≤ x.number

instance (d : Device) (e : SetStep) : Decidable (d.InOrder e) := by
  cases e <;> unfold InOrder <;> infer_instance

def Timely (d : Device) (e : SetStep) : Prop :=
  d.Patient e ∧ d.InOrder e

variable {d : Device} {task : Nat} {x : Accepted}

-- The set the policy holds is what was last written, or a task has still to
-- write it.
structure Settling (d : Device) : Prop where
  unset : d.accepted = 0 → d.policy.src = .none
  positive : ∀ t y, (d.tasks t).held = some y → 0 < y.unixMs
  known : ∀ t y, (d.tasks t).held = some y → y.number ≤ d.accepted
  latest : ∀ t y, (d.tasks t).held = some y → y.number = d.accepted →
    y.unixMs = d.policy.instant ∧ y.src = d.policy.src
  system : (d.systemBy = d.accepted ∧ (d.accepted ≠ 0 → d.systemMs = some d.policy.instant)) ∨
    ∃ t y, d.tasks t = .setsSystem y ∧ y.number = d.accepted
  rtc : (d.rtcBy = d.accepted ∧
      (d.accepted ≠ 0 → d.rtc = .of d.policy.instant d.policy.src)) ∨
    ∃ t y, (d.tasks t).held = some y ∧ y.number = d.accepted
  pending : ∀ t y, d.tasks t = .setsSystem y → d.policy.src.rank ≤ y.src.rank
  ranks : ∀ a, .accepted a ∈ d.deeds → a.rank ≤ d.policy.src.rank
  ranked : RankedDeeds d.deeds

theorem Settling.oneOpinion (h : d.Settling) : d.OneOpinion := by
  refine ⟨fun hquiet hset => ?_, h.ranked⟩
  have hsome : d.accepted ≠ 0 := fun hnone => hset (h.unset hnone)
  constructor
  · rcases h.system with ⟨_, hsystem⟩ | ⟨t, y, hplace, _⟩
    · exact hsystem hsome
    · rw [hquiet t] at hplace
      cases hplace
  · rcases h.rtc with ⟨_, hrtc⟩ | ⟨t, y, hheld, _⟩
    · exact hrtc hsome
    · rw [hquiet t] at hheld
      cases hheld

theorem held_moved {d : Device} {p : Place} {t : Nat} {y : Accepted}
    (h : (Function.update d.tasks task p t).held = some y) :
    p.held = some y ∨ (d.tasks t).held = some y :=
  (of_moved (P := fun q : Place => q.held = some y) h).imp And.right And.right

theorem Settling.accept (h : d.Settling) {p : Policy} {unixMs : Int} {src : Src}
    (hpositive : 0 < unixMs) (hrank : d.policy.src.rank ≤ src.rank) (hsrc : p.src = src)
    (hinstant : p.instant = unixMs)
    (hpending : ∀ t y, d.tasks t = .setsSystem y → src.rank ≤ y.src.rank) :
    (d.accept p task unixMs src).Settling where
  unset hnone := absurd hnone (Nat.succ_ne_zero _)
  positive t y hy := by
    rcases held_moved hy with hnew | hold
    · obtain rfl := Option.some.inj hnew
      exact hpositive
    · exact h.positive t y hold
  known t y hy := by
    rcases held_moved hy with hnew | hold
    · obtain rfl := Option.some.inj hnew
      exact Nat.le_refl _
    · exact Nat.le_succ_of_le (h.known t y hold)
  latest t y hy hnumber := by
    rcases held_moved hy with hnew | hold
    · obtain rfl := Option.some.inj hnew
      exact ⟨hinstant.symm, hsrc.symm⟩
    · have hle := h.known t y hold
      rw [hnumber] at hle
      exact absurd hle (Nat.not_succ_le_self _)
  system := .inr ⟨task, ⟨d.accepted + 1, unixMs, src⟩, Function.update_self .., rfl⟩
  rtc := by
    refine .inr ⟨task, ⟨d.accepted + 1, unixMs, src⟩, ?_, rfl⟩
    simp only [Device.accept, Function.update_self]
    rfl
  pending t y hy := by
    change p.src.rank ≤ y.src.rank
    rw [hsrc]
    rcases of_moved (P := (· = Place.setsSystem y)) hy with ⟨_, hnew⟩ | ⟨_, hold⟩
    · obtain rfl := Place.setsSystem.inj hnew
      exact Nat.le_refl _
    · exact hpending t y hold
  ranks a ha := by
    change a.rank ≤ p.src.rank
    rw [hsrc]
    rcases List.mem_cons.mp ha with hnew | hold
    · obtain rfl := Deed.accepted.inj hnew
      exact Nat.le_refl _
    · exact Nat.le_trans (h.ranks a hold) hrank
  ranked := List.pairwise_cons.mpr ⟨fun _ _ _ _ hwrote => (nomatch hwrote), h.ranked⟩

theorem Settling.setSystem (h : d.Settling) (hplace : d.tasks task = .setsSystem x)
    (htimely : d.systemBy ≤ x.number) : (d.setSystem task x).Settling := by
  have hx : (d.tasks task).held = some x := by rw [hplace]; rfl
  have hheld : ∀ t y, ((d.setSystem task x).tasks t).held = some y →
      (d.tasks t).held = some y ∨ y = x := by
    intro t y hy
    rcases held_moved hy with hnew | hold
    · exact .inr (Option.some.inj hnew).symm
    · exact .inl hold
  refine ⟨h.unset, fun t y hy => ?_, fun t y hy => ?_, fun t y hy hnumber => ?_, ?_, ?_,
    fun t y hy => ?_, ?_, ?_⟩
  · rcases hheld t y hy with hold | rfl
    · exact h.positive t y hold
    · exact h.positive task y hx
  · rcases hheld t y hy with hold | rfl
    · exact h.known t y hold
    · exact h.known task y hx
  · rcases hheld t y hy with hold | rfl
    · exact h.latest t y hold hnumber
    · exact h.latest task y hx hnumber
  · by_cases hlatest : x.number = d.accepted
    · exact .inl ⟨hlatest, fun _ => congrArg some (h.latest task x hx hlatest).1⟩
    · -- the later set has not been written to the system clock yet
      rcases h.system with ⟨hby, _⟩ | ⟨t, y, hy, hnumber⟩
      · have hle := h.known task x hx
        omega
      · refine .inr ⟨t, y, moved_of_ne (P := (· = Place.setsSystem y)) hy ?_, hnumber⟩
        rintro rfl
        obtain rfl := Place.setsSystem.inj (hplace.symm.trans hy)
        exact hlatest hnumber
  · rcases h.rtc with hdone | ⟨t, y, hy, hnumber⟩
    · exact .inl hdone
    · refine .inr ⟨t, y, ?_, hnumber⟩
      change (Function.update d.tasks task (.storesRtc x) t).held = some y
      by_cases ht : t = task
      · subst ht
        rw [Function.update_self]
        exact hx.symm.trans hy
      · rwa [Function.update_of_ne ht]
  · rcases of_moved (P := (· = Place.setsSystem y)) hy with ⟨_, hnew⟩ | ⟨_, hold⟩
    · cases hnew
    · exact h.pending t y hold
  · intro a ha
    rcases List.mem_cons.mp ha with hnew | hold
    · cases hnew
    · exact h.ranks a hold
  · refine List.pairwise_cons.mpr ⟨fun earlier hearlier a b hwrote haccepted => ?_, h.ranked⟩
    obtain rfl := Deed.wroteSystem.inj hwrote
    exact Nat.le_trans (h.ranks b (haccepted ▸ hearlier)) (h.pending task x hplace)

theorem Settling.storeRtc (h : d.Settling) (hplace : d.tasks task = .storesRtc x)
    (htimely : d.rtcBy ≤ x.number) : (d.storeRtc task x).Settling := by
  have hx : (d.tasks task).held = some x := by rw [hplace]; rfl
  have hheld : ∀ t y, ((d.storeRtc task x).tasks t).held = some y →
      (d.tasks t).held = some y := by
    intro t y hy
    rcases held_moved hy with hnew | hold
    · cases hnew
    · exact hold
  refine ⟨h.unset, fun t y hy => h.positive t y (hheld t y hy),
    fun t y hy => h.known t y (hheld t y hy), fun t y hy => h.latest t y (hheld t y hy),
    ?_, ?_, fun t y hy => ?_, h.ranks, h.ranked⟩
  · rcases h.system with hdone | ⟨t, y, hy, hnumber⟩
    · exact .inl hdone
    · refine .inr ⟨t, y, moved_other (P := (· = Place.setsSystem y)) hy ?_, hnumber⟩
      rw [hplace]
      nofun
  · by_cases hlatest : x.number = d.accepted
    · obtain ⟨hinstant, hsrc⟩ := h.latest task x hx hlatest
      refine .inl ⟨hlatest, fun _ => ?_⟩
      have hpositive := h.positive task x hx
      change rtcStore d.rtc x.unixMs x.src = .of d.policy.instant d.policy.src
      rw [rtcStore, if_neg (Int.not_le.mpr hpositive), hinstant, hsrc]
    · rcases h.rtc with ⟨hby, _⟩ | ⟨t, y, hy, hnumber⟩
      · have hle := h.known task x hx
        omega
      · refine .inr ⟨t, y, ?_, hnumber⟩
        have ht : t ≠ task := by
          rintro rfl
          obtain rfl := Option.some.inj (hx.symm.trans hy)
          exact hlatest hnumber
        change (Function.update d.tasks task .idle t).held = some y
        rwa [Function.update_of_ne ht]
  · rcases of_moved (P := (· = Place.setsSystem y)) hy with ⟨_, hnew⟩ | ⟨_, hold⟩
    · cases hnew
    · exact h.pending t y hold

theorem settling_started (rtc : RtcRecord) : (started rtc).Settling where
  unset _ := rfl
  positive := nofun
  known := nofun
  latest := nofun
  system := .inl ⟨rfl, fun h => absurd rfl h⟩
  rtc := .inl ⟨rfl, fun h => absurd rfl h⟩
  pending := nofun
  ranks := nofun
  ranked := List.Pairwise.nil

theorem settling_step (d : Device) (e : SetStep) (h : d.Settling) (htimely : d.Timely e) :
    (d.step e).Settling := by
  obtain ⟨hpatient, horder⟩ := htimely
  cases e with
  | offers task unixMs src priorAgeMs mono =>
    unfold step
    cases hplace : d.tasks task with
    | idle =>
      by_cases hok : (d.policy.setAged unixMs src priorAgeMs mono).2 = .ok
      · obtain ⟨hpositive, hrank, _, hsrc, hinstant⟩ := Policy.setAged_accepted hok
        simp only [hplace, if_pos hok]
        exact h.accept hpositive hrank hsrc hinstant (hpatient hplace hok)
      · simpa only [hplace, if_neg hok] using h
    | setsSystem x | storesRtc x => simpa only [hplace] using h
  | setsSystem task =>
    unfold step
    cases hplace : d.tasks task with
    | setsSystem x =>
      have hlatest := horder x (by rw [hplace]; rfl)
      simpa only [hplace] using h.setSystem hplace hlatest
    | idle | storesRtc x => simpa only [hplace] using h
  | storesRtc task =>
    unfold step
    cases hplace : d.tasks task with
    | storesRtc x =>
      have hlatest := horder x (by rw [hplace]; rfl)
      simpa only [hplace] using h.storeRtc hplace hlatest
    | idle | setsSystem x => simpa only [hplace] using h

end Device

-- What the rank half of the condition is for: a better source that is accepted too
-- early has its clock overwritten by the set before it.
theorem unranked_of_overtaken {d : Device} {task t : Nat} {x : Accepted} {unixMs : Int} {src : Src}
    {priorAgeMs mono : Int} (hidle : d.tasks task = .idle)
    (hok : (d.policy.setAged unixMs src priorAgeMs mono).2 = .ok)
    (hpending : d.tasks t = .setsSystem x) (hlow : x.src.rank < src.rank) :
    ¬Device.RankedDeeds ((d.step (.offers task unixMs src priorAgeMs mono)).step
      (.setsSystem t)).deeds := by
  have haccept : d.step (.offers task unixMs src priorAgeMs mono) =
      d.accept (d.policy.setAged unixMs src priorAgeMs mono).1 task unixMs src := by
    simp only [Device.step, hidle, if_pos hok]
  rw [haccept]
  generalize (d.policy.setAged unixMs src priorAgeMs mono).1 = p
  have hstill : (d.accept p task unixMs src).tasks t = .setsSystem x := by
    refine moved_other (P := (· = Place.setsSystem x)) hpending ?_
    rw [hidle]
    exact fun hno => Place.noConfusion hno
  have hwrite : (d.accept p task unixMs src).step (.setsSystem t) =
      (d.accept p task unixMs src).setSystem t x := by
    simp only [Device.step, hstill]
  rw [hwrite]
  intro hranked
  have hle := (List.pairwise_cons.mp hranked).1 _ List.mem_cons_self _ _ rfl rfl
  omega

-- The device has one opinion about the time as long as no better source is accepted
-- before a set has reached the system clock, and sets are carried out in order.
theorem one_opinion_of_timely (rtc : RtcRecord) (steps : List SetStep)
    (h : Along Device.step Device.Timely (.started rtc) steps) :
    Always Device.step Device.OneOpinion (.started rtc) steps :=
  (always_of_along Device.settling_step (Device.settling_started rtc) h).imp
    fun _ hsettling => hsettling.oneOpinion

def freshRtc : RtcRecord := ⟨0, 0, 0, 0⟩

-- Two sets of the fallback overlap, and the server is accepted while their records
-- have still to be stored.
def overlapping : List SetStep :=
  [.offers 0 1000 .sk 0 10, .offers 1 1500 .sk 0 11, .setsSystem 0, .setsSystem 1,
    .offers 2 2000 .sntp 0 12, .storesRtc 0, .storesRtc 1, .setsSystem 2, .storesRtc 2]

theorem one_opinion_in_order :
    Always Device.step Device.OneOpinion (.started freshRtc) overlapping := by
  have hpatient : Along Device.step Device.Patient (.started freshRtc) overlapping := by
    refine ⟨?_, ?_, trivial, trivial, ?_, trivial, trivial, trivial, trivial, trivial⟩
    · intro _ _ t x h
      cases h
    · intro _ _ t x h
      match t with
      | 0 =>
        obtain rfl := Place.setsSystem.inj h
        exact Nat.le_refl _
      | t + 1 => cases h
    · intro _ _ t x h
      match t with
      | 0 | 1 => cases h
      | t + 2 => cases h
  exact one_opinion_of_timely _ _ (along_and hpatient (by decide))

-- The fallback is accepted, and then the server; the fallback is carried out last.
def lateFallback : List SetStep :=
  [.offers 0 1000 .sk 0 10, .offers 1 2000 .sntp 0 11, .setsSystem 1, .storesRtc 1, .setsSystem 0,
    .storesRtc 0]

theorem two_opinions :
    ¬ (run Device.step (.started freshRtc) lateFallback).OneOpinion := by
  intro h
  have hquiet : (run Device.step (.started freshRtc) lateFallback).Quiet := by
    intro task
    match task with
    | 0 | 1 => rfl
    | task + 2 => rfl
  have hsystem := (h.agreed hquiet (by decide)).1
  revert hsystem
  decide

end Espos.Time
