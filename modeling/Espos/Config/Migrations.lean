import Espos.Lib.Run
import Espos.Lib.Text
import Mathlib.Order.Lattice

-- The migrations of `espos_config.c` for one namespace, over any number of
-- boots. A step converts the namespace from one version to the next, and the
-- version it has reached is stamped after each step.

namespace Espos.Config

open Espos.Run Espos.Text

-- What the version key holds: a 32-bit integer, or a value of another type.
inductive Stamp where
  | int (v : Int)
  | other
deriving DecidableEq

inductive VersionRead where
  | notFound
  | bad
  | ok (v : Nat)
deriving DecidableEq

def readVersion : Option Stamp → VersionRead
  | none => .notFound
  | some .other => .bad
  | some (.int v) => if v < 0 ∨ 65535 < v then .bad else .ok v.toNat

structure Migration where
  ns : CStr
  fromVersion : Nat
  fn : Nat
deriving DecidableEq

-- The version the firmware's descriptor has, and the steps it registered.
structure Firmware where
  ns : CStr
  version : Nat
  version_le : version ≤ 65535
  migrations : List Migration

def findMigration (fw : Firmware) (v : Nat) : Option Migration :=
  fw.migrations.find? fun m => m.fromVersion = v && m.ns = fw.ns

-- A step that was run from a version, to its end or not, and a version that was
-- stamped.
inductive Event where
  | ran (v : Nat) (completed : Bool)
  | stamped (v : Nat)
deriving DecidableEq

structure Namespace where
  stamp : Option Stamp
  trace : List Event

-- How the writes of a boot end. A step or a stamp fails because it returned an
-- error or because the power went; a stamp that failed may be there all the same.
inductive StampEnd where
  | ok
  | failed (kept : Bool)
deriving DecidableEq

structure Boot where
  stepOk : Nat → Bool
  stampEnd : Nat → StampEnd
  eraseOk : Bool

def Boot.clean (b : Boot) : Prop :=
  (∀ v, b.stepOk v = true) ∧ ∀ v, b.stampEnd v = .ok

def Namespace.ran (n : Namespace) (v : Nat) (completed : Bool) : Namespace :=
  { n with trace := n.trace ++ [.ran v completed] }

def Namespace.stamped (n : Namespace) (v : Nat) : Namespace where
  stamp := some (.int v)
  trace := n.trace ++ [.stamped v]

section Boot

variable (fw : Firmware) (b : Boot)

def writeVersion (n : Namespace) (v : Nat) : Namespace × Bool :=
  match b.stampEnd v with
  | .ok => (n.stamped v, true)
  | .failed true => (n.stamped v, false)
  | .failed false => (n, false)

-- The step from `v`, if one is registered, and whether the chain goes on.
def runStep (n : Namespace) (v : Nat) : Namespace × Bool :=
  match findMigration fw v with
  | none => (n, true)
  | some _ => (n.ran v (b.stepOk v), b.stepOk v)

-- The loop from version `v`, with `left` versions to go.
def migrateFrom (n : Namespace) (v : Nat) : Nat → Namespace
  | 0 => n
  | left + 1 =>
    let step := runStep fw b n v
    if step.2 then
      let stamp := writeVersion b step.1 (v + 1)
      if stamp.2 then migrateFrom stamp.1 (v + 1) left else stamp.1
    else step.1

def migrateNs (n : Namespace) : Namespace :=
  match readVersion n.stamp with
  | .notFound => (writeVersion b n fw.version).1
  | .bad =>
    let n := if b.eraseOk then { n with stamp := none } else n
    (writeVersion b n fw.version).1
  | .ok stored => migrateFrom fw b n stored (fw.version - stored)

end Boot

def boot (fw : Firmware) (n : Namespace) (b : Boot) : Namespace :=
  migrateNs fw b n

-- The version a namespace is at. One without a usable stamp is fresh, and has
-- nothing to be migrated.
def storedVersion (fw : Firmware) (n : Namespace) : Nat :=
  match readVersion n.stamp with
  | .ok v => v
  | .notFound | .bad => fw.version

def Event.ran? : Event → Option Nat
  | .ran v _ => some v
  | .stamped _ => none

def registered (fw : Firmware) (v : Nat) : Bool :=
  (findMigration fw v).isSome

-- The step from `v` ran to its end, or there is none.
def Completed (fw : Firmware) (trace : List Event) (v : Nat) : Prop :=
  registered fw v = true → .ran v true ∈ trace

-- What holds of the trace in every state: `base` is the version it began at.
structure Resumes (fw : Firmware) (base : Nat) (n : Namespace) : Prop where
  completed : ∀ v, base ≤ v → v < storedVersion fw n → Completed fw n.trace v
  stamped_le : ∀ w, .stamped w ∈ n.trace → w ≤ storedVersion fw n
  -- What a stamp closes does not run again.
  closed : n.trace.Pairwise fun e f => ∀ w v d, e = .stamped w → f = .ran v d → w ≤ v
  base_le : base ≤ storedVersion fw n

variable {fw : Firmware} {b : Boot} {n : Namespace} {base v : Nat}

theorem readVersion_int {v : Nat} (h : v ≤ 65535) : readVersion (some (.int v)) = .ok v := by
  simp only [readVersion]
  rw [if_neg (by omega), Int.toNat_natCast]

theorem storedVersion_stamped {v : Nat} (h : v ≤ 65535) :
    storedVersion fw (n.stamped v) = v := by
  rw [storedVersion, Namespace.stamped, readVersion_int h]

theorem Resumes.congr {m : Namespace} (h : Resumes fw base n) (htrace : m.trace = n.trace)
    (hstored : storedVersion fw m = storedVersion fw n) : Resumes fw base m := by
  refine ⟨?_, ?_, htrace ▸ h.closed, hstored ▸ h.base_le⟩
  · rw [htrace, hstored]
    exact h.completed
  · rw [htrace, hstored]
    exact h.stamped_le

theorem resumes_ran (h : Resumes fw base n) (hv : storedVersion fw n = v) (done : Bool) :
    Resumes fw base (n.ran v done) := by
  have hstored : storedVersion fw (n.ran v done) = storedVersion fw n := rfl
  refine ⟨fun u hbase hu hreg => ?_, fun w hw => ?_, ?_, h.base_le⟩
  · exact List.mem_append_left _ (h.completed u hbase hu hreg)
  · rcases List.mem_append.mp hw with hw | hw
    · exact h.stamped_le w hw
    · simp at hw
  · rw [Namespace.ran, List.pairwise_append]
    refine ⟨h.closed, by simp, ?_⟩
    intro e he f hf w u d hew hfu
    rw [List.mem_singleton, hfu] at hf
    obtain ⟨rfl, _⟩ := Event.ran.inj hf
    have hle := h.stamped_le w (hew ▸ he)
    omega

theorem resumes_stamped (h : Resumes fw base n) (hv : storedVersion fw n ≤ v) (hle : v ≤ 65535)
    (hdone : ∀ u, storedVersion fw n ≤ u → u < v → Completed fw n.trace u) :
    Resumes fw base (n.stamped v) := by
  have hstored : storedVersion fw (n.stamped v) = v := storedVersion_stamped hle
  refine ⟨fun u hbase hu hreg => ?_, fun w hw => ?_, ?_, ?_⟩
  · rw [hstored] at hu
    apply List.mem_append_left
    by_cases hold : u < storedVersion fw n
    · exact h.completed u hbase hold hreg
    · exact hdone u (by omega) hu hreg
  · rw [hstored]
    rcases List.mem_append.mp hw with hw | hw
    · exact (h.stamped_le w hw).trans hv
    · rw [List.mem_singleton, Event.stamped.injEq] at hw
      omega
  · rw [Namespace.stamped, List.pairwise_append]
    refine ⟨h.closed, by simp, ?_⟩
    intro e _ f hf w u d _ hfu
    rw [List.mem_singleton, hfu] at hf
    exact absurd hf nofun
  · rw [hstored]
    exact h.base_le.trans hv

theorem resumes_writeVersion (h : Resumes fw base n) (hv : storedVersion fw n ≤ v)
    (hle : v ≤ 65535) (hdone : ∀ u, storedVersion fw n ≤ u → u < v → Completed fw n.trace u) :
    Resumes fw base (writeVersion b n v).1 := by
  rw [writeVersion]
  split
  next => exact resumes_stamped h hv hle hdone
  next => exact resumes_stamped h hv hle hdone
  next => exact h

theorem stamped_of_writeVersion (h : (writeVersion b n v).2 = true) :
    (writeVersion b n v).1 = n.stamped v := by
  rw [writeVersion] at h ⊢
  split at h
  next => rfl
  next => exact absurd h nofun
  next => exact absurd h nofun

theorem storedVersion_runStep : storedVersion fw (runStep fw b n v).1 = storedVersion fw n := by
  rw [runStep]
  split <;> rfl

theorem resumes_runStep (h : Resumes fw base n) (hv : storedVersion fw n = v) :
    Resumes fw base (runStep fw b n v).1 := by
  rw [runStep]
  split
  next => exact h
  next => exact resumes_ran h hv _

theorem completed_runStep (h : (runStep fw b n v).2 = true) :
    Completed fw (runStep fw b n v).1.trace v := by
  intro hreg
  rw [registered] at hreg
  rw [runStep] at h ⊢
  split at h
  next hnone =>
    rw [hnone] at hreg
    exact absurd hreg nofun
  next =>
    dsimp only at h ⊢
    rw [h]
    exact List.mem_append_right _ (List.mem_singleton_self _)

theorem resumes_migrateFrom {left : Nat} (h : Resumes fw base n) (hv : storedVersion fw n = v)
    (hle : v + left ≤ 65535) : Resumes fw base (migrateFrom fw b n v left) := by
  induction left generalizing n v with
  | zero => exact h
  | succ left ih =>
    have hstep : Resumes fw base (runStep fw b n v).1 := resumes_runStep h hv
    rw [migrateFrom]
    dsimp only
    split
    next hgoes =>
      have hdone := completed_runStep hgoes
      have hwritten : Resumes fw base (writeVersion b (runStep fw b n v).1 (v + 1)).1 := by
        refine resumes_writeVersion hstep ?_ (by omega) fun u hu hlt => ?_
        · rw [storedVersion_runStep]
          omega
        · rw [storedVersion_runStep] at hu
          obtain rfl : u = v := by omega
          exact hdone
      split
      next hok =>
        rw [stamped_of_writeVersion hok] at hwritten ⊢
        exact ih hwritten (storedVersion_stamped (by omega)) (by omega)
      next => exact hwritten
    next => exact hstep

theorem resumes_boot (h : Resumes fw base n) : Resumes fw base (boot fw n b) := by
  have hle := fw.version_le
  rw [boot, migrateNs]
  split
  next hnone =>
    have hstored : storedVersion fw n = fw.version := by rw [storedVersion, hnone]
    exact resumes_writeVersion h (by omega) hle (by omega)
  next hbad =>
    -- The stamp may be gone by now; the namespace counts as fresh either way.
    have hstored : storedVersion fw n = fw.version := by rw [storedVersion, hbad]
    dsimp only
    have herased : Resumes fw base (if b.eraseOk then { n with stamp := none } else n) ∧
        storedVersion fw (if b.eraseOk then { n with stamp := none } else n) = fw.version := by
      split
      next => exact ⟨h.congr rfl hstored.symm, rfl⟩
      next => exact ⟨h, hstored⟩
    exact resumes_writeVersion herased.1 (by omega) hle (by omega)
  next stored hok =>
    have hstored : storedVersion fw n = stored := by rw [storedVersion, hok]
    by_cases hnewer : fw.version ≤ stored
    · rw [Nat.sub_eq_zero_of_le hnewer]
      exact h
    · exact resumes_migrateFrom h hstored (by omega)

-- The steps that ran between two states, in their order.
def RanBetween (n n' : Namespace) (steps : List Nat) : Prop :=
  ∃ new, n'.trace = n.trace ++ new ∧ new.filterMap Event.ran? = steps

theorem RanBetween.refl (n : Namespace) : RanBetween n n [] :=
  ⟨[], by simp, rfl⟩

theorem RanBetween.trans {n₁ n₂ n₃ : Namespace} {l m : List Nat} (h : RanBetween n₁ n₂ l)
    (h' : RanBetween n₂ n₃ m) : RanBetween n₁ n₃ (l ++ m) := by
  obtain ⟨new, htrace, rfl⟩ := h
  obtain ⟨new', htrace', rfl⟩ := h'
  exact ⟨new ++ new', by rw [htrace', htrace, List.append_assoc], by rw [List.filterMap_append]⟩

theorem ran_writeVersion : RanBetween n (writeVersion b n v).1 [] := by
  rw [writeVersion]
  split
  next => exact ⟨[.stamped v], rfl, rfl⟩
  next => exact ⟨[.stamped v], rfl, rfl⟩
  next => exact .refl n

theorem ran_runStep : RanBetween n (runStep fw b n v).1 ([v].filter (registered fw)) := by
  rw [runStep]
  split
  next hnone =>
    have hreg : registered fw v = false := by rw [registered, hnone]; rfl
    exact ⟨[], by simp, by simp [hreg]⟩
  next m hsome =>
    have hreg : registered fw v = true := by rw [registered, hsome]; rfl
    exact ⟨[.ran v (b.stepOk v)], rfl, by simp [hreg, Event.ran?]⟩

theorem ran_migrateFrom {left : Nat} :
    ∃ k, RanBetween n (migrateFrom fw b n v left) ((List.range' v k).filter (registered fw)) := by
  induction left generalizing n v with
  | zero => exact ⟨0, .refl n⟩
  | succ left ih =>
    have hstep : RanBetween n (runStep fw b n v).1 ([v].filter (registered fw)) := ran_runStep
    rw [migrateFrom]
    dsimp only
    split
    next =>
      have hwritten : RanBetween n (writeVersion b (runStep fw b n v).1 (v + 1)).1
          ([v].filter (registered fw)) := by
        simpa using hstep.trans ran_writeVersion
      split
      next =>
        obtain ⟨k, hrest⟩ := ih (n := (writeVersion b (runStep fw b n v).1 (v + 1)).1) (v := v + 1)
        refine ⟨k + 1, ?_⟩
        rw [List.range'_succ, ← List.singleton_append, List.filter_append]
        exact hwritten.trans hrest
      next => exact ⟨1, hwritten⟩
    next => exact ⟨1, hstep⟩

theorem ran_boot : ∃ k, RanBetween n (boot fw n b)
    ((List.range' (storedVersion fw n) k).filter (registered fw)) := by
  rw [boot, migrateNs]
  split
  next => exact ⟨0, ran_writeVersion⟩
  next =>
    dsimp only
    refine ⟨0, ?_⟩
    have herased : RanBetween n (if b.eraseOk then { n with stamp := none } else n) [] := by
      split
      next => exact ⟨[], by simp, rfl⟩
      next => exact .refl n
    exact herased.trans ran_writeVersion
  next stored hok =>
    have hstored : storedVersion fw n = stored := by rw [storedVersion, hok]
    rw [hstored]
    exact ran_migrateFrom

theorem migrateFrom_clean {left : Nat} (hb : b.clean) (hv : n.stamp = some (.int v)) :
    (migrateFrom fw b n v left).stamp = some (.int (v + left : Nat)) := by
  induction left generalizing n v with
  | zero => exact hv
  | succ left ih =>
    have hgoes : (runStep fw b n v).2 = true := by
      rw [runStep]
      split
      next => rfl
      next => exact hb.1 v
    have hwritten (m : Namespace) : writeVersion b m (v + 1) = (m.stamped (v + 1), true) := by
      rw [writeVersion, hb.2]
    rw [migrateFrom]
    dsimp only
    rw [if_pos hgoes, hwritten, if_pos rfl]
    have hrest : v + (left + 1) = v + 1 + left := by omega
    rw [hrest]
    exact ih rfl

theorem stamp_of_ok {stamp : Option Stamp} (h : readVersion stamp = .ok v) :
    stamp = some (.int v) := by
  match stamp, h with
  | some (.int i), h =>
    simp only [readVersion] at h
    split at h
    next => exact absurd h nofun
    next hrange =>
      obtain rfl := VersionRead.ok.inj h
      rw [Int.toNat_of_nonneg (by omega)]

theorem boot_clean (hb : b.clean) :
    (boot fw n b).stamp = some (.int (max (storedVersion fw n) fw.version : Nat)) := by
  have hwritten (m : Namespace) :
      (writeVersion b m fw.version).1.stamp = some (.int fw.version) := by
    rw [writeVersion, hb.2]
    rfl
  rw [boot, migrateNs]
  split
  next hnone =>
    have hstored : storedVersion fw n = fw.version := by rw [storedVersion, hnone]
    rw [hstored, max_self]
    exact hwritten n
  next hbad =>
    have hstored : storedVersion fw n = fw.version := by rw [storedVersion, hbad]
    rw [hstored, max_self]
    exact hwritten _
  next stored hok =>
    have hstored : storedVersion fw n = stored := by rw [storedVersion, hok]
    have hsum : stored + (fw.version - stored) = max stored fw.version := by omega
    rw [migrateFrom_clean hb (stamp_of_ok hok), hstored, hsum]

-- Over any boots, whatever fails in them: the steps of each boot are the ones
-- registered from the stored version on, without a gap; every step below the
-- stored version has run to its end; what a stamp closes never runs again; and
-- a boot without a failure ends at the firmware's version, or stays at a newer
-- one.
theorem migrations_resume (fw : Firmware) (stamp : Option Stamp) (boots : List Boot) :
    let n := run (boot fw) ⟨stamp, []⟩ boots
    Along (boot fw) (fun n b => ∃ k, RanBetween n (boot fw n b)
        ((List.range' (storedVersion fw n) k).filter (registered fw))) ⟨stamp, []⟩ boots ∧
      (∀ v, storedVersion fw ⟨stamp, []⟩ ≤ v → v < storedVersion fw n →
        Completed fw n.trace v) ∧
      n.trace.Pairwise (fun e f => ∀ w v d, e = .stamped w → f = .ran v d → w ≤ v) ∧
      ∀ b : Boot, b.clean →
        (boot fw n b).stamp = some (.int (max (storedVersion fw n) fw.version : Nat)) := by
  intro n
  have hstart : Resumes fw (storedVersion fw ⟨stamp, []⟩) ⟨stamp, []⟩ :=
    ⟨fun v hbase hv => absurd hv (by omega), fun w hw => absurd hw List.not_mem_nil,
      List.Pairwise.nil, Nat.le_refl _⟩
  have hrun : Resumes fw (storedVersion fw ⟨stamp, []⟩) n :=
    run_invariant (fun _ _ h => resumes_boot h) hstart boots
  refine ⟨?_, hrun.completed, hrun.closed, fun b hb => boot_clean hb⟩
  have hall : Along (boot fw) (fun _ _ => True) ⟨stamp, []⟩ boots :=
    along_of_forall fun _ _ => trivial
  exact along_of_invariant (P := fun _ => True) (fun _ _ _ _ => trivial)
    (fun _ _ _ _ => ran_boot) trivial hall

-- A namespace that a newer firmware has stamped keeps its stamp.
theorem newer_stamp_kept :
    let fw : Firmware := ⟨lit "app", 2, by decide, []⟩
    let b : Boot := ⟨fun _ => true, fun _ => .ok, true⟩
    b.clean ∧ storedVersion fw (boot fw ⟨some (.int 3), []⟩ b) = 3 ∧ fw.version ≠ 3 := by
  refine ⟨⟨fun _ => rfl, fun _ => rfl⟩, ?_, ?_⟩
  · decide +kernel
  · decide +kernel

end Espos.Config
