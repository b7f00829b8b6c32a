import Espos.Platform
import Espos.Lib.Run
import Mathlib.Tactic.SplitIfs

-- Portal recovery of `auth.c`: power cycles are counted in flash, and enough of
-- them in quick succession open a window.

namespace Espos.Httpd

open Espos.Run

inductive ResetReason where
  | poweron
  | brownout
  | software
  | panic
  | watchdog
  | other
deriving DecidableEq

-- One boot. `checkedS` is the uptime at which `recovery_boot_check` runs, where
-- the device gets that far, and `configured` whether a key is set then.
structure Boot where
  reason : ResetReason
  configured : Bool
  checkedS : Option Nat
  lastedS : Nat
deriving DecidableEq

def cyclesRead (flash : Option UInt8) : UInt8 :=
  flash.getD 0

-- What the check leaves: whether it has opened a window, the count in flash,
-- and whether the timer that clears the count is running.
structure Checked where
  opened : Bool
  flash : Option UInt8
  armed : Bool
deriving DecidableEq

variable (K : Kconfig)

def recoveryBootCheck (flash : Option UInt8) (configured : Bool) (reason : ResetReason) : Checked :=
  if ¬configured then ⟨false, flash, false⟩
  else
    let n := cyclesRead flash
    if reason = .poweron then
      let n := if n < 255 then n + 1 else n
      if K.httpdRecoveryCycles ≤ n.toNat then ⟨true, some 0, false⟩
      else ⟨false, some n, n ≠ 0⟩
    else ⟨false, flash, n ≠ 0⟩

-- The check of a boot that gets to it.
def Boot.check (b : Boot) (flash : Option UInt8) : Checked :=
  match b.checkedS with
  | none => ⟨false, flash, false⟩
  | some s =>
    if s ≤ b.lastedS then recoveryBootCheck K flash b.configured b.reason
    else ⟨false, flash, false⟩

-- The timer runs for `RECOVERY_CLEAR_S` from the check on.
def Boot.timerFires (b : Boot) : Bool :=
  b.checkedS.any fun s => s + K.httpdRecoveryClearS ≤ b.lastedS

structure Device where
  flash : Option UInt8
  -- History only: the boots so far.
  past : List Boot
deriving DecidableEq

namespace Device

def fresh : Device :=
  ⟨none, []⟩

def step (d : Device) (b : Boot) : Device :=
  let checked := b.check K d.flash
  { flash := if checked.armed ∧ b.timerFires K then some 0 else checked.flash
    past := d.past ++ [b] }

def opens (d : Device) (b : Boot) : Bool :=
  (b.check K d.flash).opened

end Device

-- A boot that is over before the count would be cleared.
def Boot.Short (b : Boot) : Prop :=
  b.lastedS < K.httpdRecoveryClearS

instance (b : Boot) : Decidable (b.Short K) :=
  inferInstanceAs (Decidable (_ < _))

-- The boot ends a run of enough power cycles, with no long boot since the first.
def Device.RunOfCycles (d : Device) (b : Boot) : Prop :=
  b.reason = .poweron ∧ ∃ before cycles, d.past = before ++ cycles ∧
    (∀ c ∈ cycles, c.Short K) ∧
    K.httpdRecoveryCycles ≤ cycles.countP (·.reason = .poweron) + 1

def Device.Justified (d : Device) (b : Boot) : Prop :=
  d.opens K b = true → d.RunOfCycles K b

-- The check is reached, and there is a key.
def Boot.Counts (b : Boot) : Prop :=
  (∃ s, b.checkedS = some s ∧ s ≤ b.lastedS) ∧ b.configured = true

-- A long boot after which an old count is still there: it never counts, or ends
-- between `RECOVERY_CLEAR_S` of uptime and the timer.
def Device.KeepsCount (d : Device) (b : Boot) : Prop :=
  ¬b.Short K ∧
    (¬b.Counts ∧ cyclesRead d.flash ≠ 0 ∨
      b.Counts ∧ b.timerFires K = false ∧
        (b.reason = .poweron ∧ (cyclesRead d.flash).toNat + 1 < K.httpdRecoveryCycles ∨
          b.reason ≠ .poweron ∧ cyclesRead d.flash ≠ 0))

variable {K} {d : Device} {b : Boot}

-- What a check does, by the kind of boot.
theorem check_cases (hn : (cyclesRead d.flash).toNat < K.httpdRecoveryCycles) :
    ¬b.Counts ∧ b.check K d.flash = ⟨false, d.flash, false⟩ ∨
    b.Counts ∧
      (b.reason ≠ .poweron ∧
          b.check K d.flash = ⟨false, d.flash, cyclesRead d.flash ≠ 0⟩ ∨
        b.reason = .poweron ∧ (cyclesRead d.flash).toNat + 1 = K.httpdRecoveryCycles ∧
          b.check K d.flash = ⟨true, some 0, false⟩ ∨
        b.reason = .poweron ∧ (cyclesRead d.flash).toNat + 1 < K.httpdRecoveryCycles ∧
          ∃ n : UInt8, n.toNat = (cyclesRead d.flash).toNat + 1 ∧
            b.check K d.flash = ⟨false, some n, true⟩) := by
  have hrange := K.httpdRecoveryCycles_range.2
  rw [Boot.check.eq_def]
  cases hs : b.checkedS with
  | none => exact .inl ⟨by simp [Boot.Counts, hs], rfl⟩
  | some s =>
    by_cases hreached : s ≤ b.lastedS
    · by_cases hkey : b.configured = true
      · refine .inr ⟨⟨⟨s, hs, hreached⟩, hkey⟩, ?_⟩
        simp only [hreached, if_true, recoveryBootCheck, hkey, not_true_eq_false, if_false]
        by_cases hreason : b.reason = .poweron
        · have hlt : cyclesRead d.flash < 255 := by
            rw [UInt8.lt_iff_toNat_lt]
            simp only [UInt8.reduceToNat]
            omega
          have hnext : (cyclesRead d.flash + 1).toNat = (cyclesRead d.flash).toNat + 1 := by
            rw [UInt8.toNat_add]
            simp only [UInt8.toNat_one]
            omega
          simp only [hreason, if_true, hlt, hnext]
          by_cases hlast : (cyclesRead d.flash).toNat + 1 = K.httpdRecoveryCycles
          · exact .inr (.inl ⟨trivial, hlast, if_pos (by omega)⟩)
          · refine .inr (.inr ⟨trivial, by omega, _, hnext, ?_⟩)
            have hpos : cyclesRead d.flash + 1 ≠ 0 := by
              rw [ne_eq, ← UInt8.toNat_inj, hnext]
              simp
            rw [if_neg (by omega)]
            simp [hpos]
        · exact .inl ⟨hreason, if_neg hreason⟩
      · refine .inl ⟨fun h => hkey h.2, ?_⟩
        simp [hreached, recoveryBootCheck, hkey]
    · refine .inl ⟨?_, by simp [hreached]⟩
      rintro ⟨⟨s', hs', hle⟩, -⟩
      rw [hs] at hs'
      cases hs'
      exact hreached hle

-- The count in flash is one of recent power cycles.
structure Device.Counted (K : Kconfig) (d : Device) : Prop where
  below : (cyclesRead d.flash).toNat < K.httpdRecoveryCycles
  recent : ∃ before cycles, d.past = before ++ cycles ∧ (∀ c ∈ cycles, c.Short K) ∧
    (cyclesRead d.flash).toNat ≤ cycles.countP (·.reason = .poweron)

namespace Device

theorem fresh_counted (K : Kconfig) : fresh.Counted K := by
  have hrange := K.httpdRecoveryCycles_range.1
  refine ⟨?_, [], [], rfl, by simp, by simp [fresh, cyclesRead]⟩
  simp only [fresh, cyclesRead, Option.getD_none, UInt8.toNat_zero]
  omega

theorem counted_zero (hzero : cyclesRead d.flash = 0) : d.Counted K := by
  have hrange := K.httpdRecoveryCycles_range.1
  have hnat : (cyclesRead d.flash).toNat = 0 := by rw [hzero]; rfl
  exact ⟨by omega, d.past, [], by simp, by simp, by omega⟩

theorem counted_short (h : d.Counted K) (hshort : b.Short K) {flash : Option UInt8}
    (hbelow : (cyclesRead flash).toNat < K.httpdRecoveryCycles)
    (hcount : (cyclesRead flash).toNat ≤
      (cyclesRead d.flash).toNat + if b.reason = .poweron then 1 else 0) :
    Counted K ⟨flash, d.past ++ [b]⟩ := by
  obtain ⟨before, cycles, hpast, hall, hle⟩ := h.recent
  refine ⟨hbelow, before, cycles ++ [b], by simp [hpast], ?_, ?_⟩
  · intro c hc
    rcases List.mem_append.mp hc with hc | hc
    · exact hall c hc
    · rwa [List.mem_singleton.mp hc]
  · rw [List.countP_append, List.countP_singleton]
    simp only [decide_eq_true_eq]
    omega

-- One boot: unless it is long and keeps an old count, the count in flash is
-- still one of recent power cycles.
theorem step_counted (h : d.Counted K) (hgood : ¬d.KeepsCount K b) : (d.step K b).Counted K := by
  have hbelow := h.below
  rcases @check_cases K d b hbelow with
    ⟨hno, hcheck⟩ | ⟨hyes, ⟨hreason, hcheck⟩ | ⟨hreason, hlast, hcheck⟩ |
      ⟨hreason, hmore, n, hn, hcheck⟩⟩
  · rw [step, hcheck]
    simp only [Bool.false_eq_true, false_and, if_false]
    by_cases hshort : b.Short K
    · exact counted_short h hshort hbelow (by omega)
    · refine counted_zero ?_
      by_contra hcount
      exact hgood ⟨hshort, .inl ⟨hno, hcount⟩⟩
  · rw [step, hcheck]
    dsimp only
    split_ifs with hfires
    · exact counted_zero rfl
    · by_cases hshort : b.Short K
      · exact counted_short h hshort hbelow (by omega)
      · refine counted_zero ?_
        by_contra hcount
        refine hgood ⟨hshort, .inr ⟨hyes, ?_, .inr ⟨hreason, hcount⟩⟩⟩
        rw [← Bool.not_eq_true]
        exact fun hfire => hfires ⟨decide_eq_true hcount, hfire⟩
  · rw [step, hcheck]
    exact counted_zero rfl
  · rw [step, hcheck]
    dsimp only
    split_ifs with hfires
    · exact counted_zero rfl
    · have hshort : b.Short K := by
        by_contra hlong
        refine hgood ⟨hlong, .inr ⟨hyes, ?_, .inl ⟨hreason, hmore⟩⟩⟩
        rw [← Bool.not_eq_true]
        exact fun hfire => hfires ⟨rfl, hfire⟩
      refine counted_short h hshort ?_ ?_
      · simp only [cyclesRead, Option.getD_some]
        omega
      · rw [if_pos hreason]
        simp only [cyclesRead, Option.getD_some] at hn ⊢
        omega

theorem counted_justified (h : d.Counted K) : d.Justified K b := by
  intro hopens
  rw [opens] at hopens
  rcases @check_cases K d b h.below with
    ⟨-, hcheck⟩ | ⟨-, ⟨-, hcheck⟩ | ⟨hreason, hlast, -⟩ | ⟨-, -, n, -, hcheck⟩⟩
  · rw [hcheck] at hopens
    cases hopens
  · rw [hcheck] at hopens
    cases hopens
  · obtain ⟨before, cycles, hpast, hshort, hcount⟩ := h.recent
    exact ⟨hreason, before, cycles, hpast, hshort, by omega⟩
  · rw [hcheck] at hopens
    cases hopens

-- Power cycles one after the other, each over before the count is cleared.
def powerCycle : Boot :=
  ⟨.poweron, true, some 0, 0⟩

theorem powerCycle_short : powerCycle.Short K := by
  have hrange := K.httpdRecoveryClearS_range.1
  simp only [Boot.Short, powerCycle]
  omega

theorem powerCycle_check {n : Nat} (hn : (cyclesRead d.flash).toNat = n)
    (hbelow : n < K.httpdRecoveryCycles) :
    n + 1 = K.httpdRecoveryCycles ∧ d.opens K powerCycle = true ∨
      n + 1 < K.httpdRecoveryCycles ∧
        (cyclesRead (d.step K powerCycle).flash).toNat = n + 1 := by
  have hcounts : powerCycle.Counts := ⟨⟨0, rfl, Nat.le_refl 0⟩, rfl⟩
  have hsilent : powerCycle.timerFires K = false := by
    have hrange := K.httpdRecoveryClearS_range.1
    simp only [Boot.timerFires, powerCycle, Option.any_some]
    exact decide_eq_false (by omega)
  rw [← hn] at hbelow
  rcases check_cases hbelow with
    ⟨hno, -⟩ | ⟨-, ⟨hreason, -⟩ | ⟨-, hlast, hcheck⟩ | ⟨-, hmore, m, hm, hcheck⟩⟩
  · exact absurd hcounts hno
  · exact absurd rfl hreason
  · exact .inl ⟨by omega, by rw [opens, hcheck]⟩
  · refine .inr ⟨by omega, ?_⟩
    rw [step, hcheck, hsilent]
    simp only [Bool.false_eq_true, and_false, if_false, cyclesRead, Option.getD_some]
    rw [hm, hn]

theorem short_suffix {before before' cycles cycles' : List Boot} {long : Boot}
    (hpast : before ++ long :: cycles = before' ++ cycles') (hlong : ¬long.Short K)
    (hshort : ∀ c ∈ cycles', c.Short K) : cycles'.length ≤ cycles.length := by
  rcases List.append_eq_append_iff.mp hpast with ⟨as, -, hcycles⟩ | ⟨bs, -, rfl⟩
  · cases as with
    | nil =>
      rw [List.nil_append] at hcycles
      exact absurd (hshort long (by rw [← hcycles]; simp)) hlong
    | cons a as =>
      rw [List.cons_append, List.cons.injEq] at hcycles
      rw [hcycles.2, List.length_append]
      omega
  · exact absurd (hshort long (by simp)) hlong

-- A count that a long boot has left behind is completed by fewer power cycles
-- than a window takes.
theorem opens_early {n more : Nat} (hcount : (cyclesRead d.flash).toNat = n) (hpos : 0 < n)
    (hmore : n + (more + 1) = K.httpdRecoveryCycles) {before cycles : List Boot} {long : Boot}
    (hpast : d.past = before ++ long :: cycles) (hlong : ¬long.Short K)
    (hfew : cycles.length < n) :
    ¬Along (step K) (fun d b => d.Justified K b) d (List.replicate (more + 1) powerCycle) := by
  induction more generalizing d n cycles with
  | zero =>
    rintro ⟨hjustified, -⟩
    rcases @powerCycle_check K d n hcount (by omega) with ⟨-, hopens⟩ | ⟨hbelow, -⟩
    · obtain ⟨-, before', cycles', hpast', hshort, hle⟩ := hjustified hopens
      have hlen := short_suffix (hpast.symm.trans hpast') hlong hshort
      have hcountP := cycles'.countP_le_length (p := (·.reason = .poweron))
      omega
    · omega
  | succ more ih =>
    rintro ⟨-, hrest⟩
    rcases @powerCycle_check K d n hcount (by omega) with ⟨hlast, -⟩ | ⟨-, hnext⟩
    · omega
    · have hpast' : (d.step K powerCycle).past = before ++ long :: (cycles ++ [powerCycle]) := by
        simp [step, hpast]
      exact ih hnext (by omega) (by omega) hpast' (by simp; omega) hrest

theorem keepsCount_left (h : d.Counted K) (hkeeps : d.KeepsCount K b) :
    0 < (cyclesRead (d.step K b).flash).toNat ∧
      (cyclesRead (d.step K b).flash).toNat < K.httpdRecoveryCycles := by
  have hbelow := h.below
  have hpos : cyclesRead d.flash ≠ 0 → 0 < (cyclesRead d.flash).toNat := by
    intro hne
    rw [ne_eq, ← UInt8.toNat_inj] at hne
    exact Nat.pos_of_ne_zero hne
  rcases @check_cases K d b hbelow with
    ⟨hno, hcheck⟩ | ⟨hyes, ⟨hreason, hcheck⟩ | ⟨hreason, hlast, hcheck⟩ |
      ⟨hreason, hmore, n, hn, hcheck⟩⟩
  · obtain ⟨-, ⟨-, hcount⟩ | ⟨hyes, -⟩⟩ := hkeeps
    · rw [step, hcheck]
      exact ⟨hpos hcount, hbelow⟩
    · exact absurd hyes hno
  · obtain ⟨-, ⟨hno, -⟩ | ⟨-, hsilent, ⟨hpower, -⟩ | ⟨-, hcount⟩⟩⟩ := hkeeps
    · exact absurd hyes hno
    · exact absurd hpower hreason
    · rw [step, hcheck, hsilent]
      simp only [Bool.false_eq_true, and_false, if_false]
      exact ⟨hpos hcount, hbelow⟩
  · obtain ⟨-, ⟨hno, -⟩ | ⟨-, -, ⟨-, hmore⟩ | ⟨hother, -⟩⟩⟩ := hkeeps
    · exact absurd hyes hno
    · omega
    · exact absurd hreason hother
  · obtain ⟨-, ⟨hno, -⟩ | ⟨-, hsilent, -⟩⟩ := hkeeps
    · exact absurd hyes hno
    · rw [step, hcheck, hsilent]
      simp only [Bool.false_eq_true, and_false, if_false, cyclesRead, Option.getD_some]
      rw [hn]
      exact ⟨Nat.succ_pos _, hmore⟩

end Device

-- Every window has its run of short power cycles, as long as no long boot keeps
-- an old count. Where one does, power cycles can follow that open a window early.
theorem recovery_needs_power_cycles (K : Kconfig) (boots : List Boot)
    (hgood : Along (Device.step K) (fun d b => ¬d.KeepsCount K b) .fresh boots) :
    Along (Device.step K) (fun d b => d.Justified K b) .fresh boots ∧
      ∀ b, (run (Device.step K) .fresh boots).KeepsCount K b →
        ∃ more, ¬Along (Device.step K) (fun d b => d.Justified K b) .fresh (boots ++ b :: more) := by
  have hstep : ∀ d b, Device.Counted K d → ¬d.KeepsCount K b → (d.step K b).Counted K :=
    fun d b => Device.step_counted
  constructor
  · exact along_of_invariant hstep (fun d b h _ => Device.counted_justified h)
      (Device.fresh_counted K) hgood
  · intro b hkeeps
    have hcounted := run_invariant_of_along hstep (Device.fresh_counted K) hgood
    obtain ⟨hpos, hbelow⟩ := Device.keepsCount_left hcounted hkeeps
    obtain ⟨more, hmore⟩ := Nat.exists_eq_add_of_lt hbelow
    refine ⟨List.replicate (more + 1) Device.powerCycle, ?_⟩
    rw [along_append]
    rintro ⟨-, -, hrest⟩
    have hpast : ((run (Device.step K) .fresh boots).step K b).past =
        (run (Device.step K) .fresh boots).past ++ b :: [] := rfl
    exact Device.opens_early rfl hpos (by omega) hpast hkeeps.1 hpos hrest

-- Two power cycles, an evening without a key, and the third.
def keylessEvening : List Boot :=
  [Device.powerCycle, Device.powerCycle, ⟨.poweron, false, some 2, 7200⟩, Device.powerCycle]

-- A power cycle, an evening with a key, and three power cycles, of which the last
-- opens a window.
def keyedEvening : Boot :=
  ⟨.poweron, true, some 2, 7200⟩

def windowEvening : List Boot :=
  [Device.powerCycle, keyedEvening, Device.powerCycle, Device.powerCycle, Device.powerCycle]

theorem recovery_needs_power_cycles_twice :
    (run (Device.step .default) .fresh (windowEvening.take 4)).opens .default Device.powerCycle =
        true ∧
      Along (Device.step .default) (fun d b => d.Justified .default b) .fresh windowEvening := by
  refine ⟨by decide, (recovery_needs_power_cycles .default windowEvening ?_).1⟩
  have hcycle : ∀ d : Device, ¬d.KeepsCount .default Device.powerCycle :=
    fun d h => h.1 Device.powerCycle_short
  refine ⟨hcycle _, ?_, hcycle _, hcycle _, hcycle _, trivial⟩
  rintro ⟨-, ⟨hcounts, -⟩ | ⟨-, hfires, -⟩⟩
  · exact hcounts ⟨⟨2, rfl, by decide⟩, rfl⟩
  · exact absurd hfires (by decide)

theorem window_after_keyless_evening :
    ¬∀ (K : Kconfig) (boots : List Boot),
      Along (Device.step K) (fun d b => d.Justified K b) .fresh boots := by
  intro h
  obtain ⟨-, -, -, hlast, -⟩ := h .default keylessEvening
  obtain ⟨-, before, cycles, hpast, hshort, hcount⟩ := hlast (by decide)
  have hlong : ¬Boot.Short .default ⟨.poweron, false, some 2, 7200⟩ := by decide
  have hlen := @Device.short_suffix .default [Device.powerCycle, Device.powerCycle] before [] cycles
    _ hpast hlong hshort
  have hnone := cycles.countP_le_length (p := (·.reason = .poweron))
  simp only [Kconfig.default, List.length_nil] at hcount hlen
  omega

end Espos.Httpd
