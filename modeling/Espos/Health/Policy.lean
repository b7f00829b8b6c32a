import Espos.Health.Table
import Espos.Lib.Clock
import Espos.Lib.Lists
import Espos.Lib.Run

-- The watchdog of `health_policy.c` on top of the condition table: what a tick
-- reports, and when it restarts the device.

namespace Espos.Health

open Espos.Text Espos.Clock Espos.Run Espos.Recent

-- What the policy reads on every tick, in bytes.
structure Heap where
  totalFree : UInt32
  totalMin : UInt32
  internalFree : UInt32
  internalMin : UInt32
  largestBlock : UInt32
deriving DecidableEq

structure PolicyCfg where
  strikes : UInt32
  heapWarnKb : UInt32
  internalWarnKb : UInt32
  internalAlarmKb : UInt32
  largestBlockAlarmKb : UInt32
  internalTroughWarnKb : UInt32

-- A limit of 0 is off.
def below (limitKb free : UInt32) : Bool :=
  limitKb ≠ 0 && free < limitKb * 1024

def limitText (before : CStr) (limitKb : UInt32) (after : CStr) : Buf msgMax :=
  .print (before ++ decimal limitKb.toNat ++ after)

-- The message states the limit, not what is left: a figure that changes would
-- be a new report on every tick.
def policyMemory (cfg : PolicyCfg) (h : Heap) : Shown × UInt32 :=
  if below cfg.internalAlarmKb h.internalFree then
    ((.alarm, limitText (lit "internal RAM exhausted (below ") cfg.internalAlarmKb
      (lit " KB free)")), rebootOnAlarm)
  else if below cfg.largestBlockAlarmKb h.largestBlock then
    let low := below cfg.internalWarnKb h.internalFree ||
      h.internalFree < cfg.largestBlockAlarmKb * 1024
    ((.alarm, limitText (lit "internal RAM " ++ (if low then lit "low" else lit "fragmented") ++
      lit " (largest block below ") cfg.largestBlockAlarmKb (lit " KB)")), rebootOnAlarm)
  else if below cfg.internalWarnKb h.internalFree then
    ((.warn, limitText (lit "internal RAM low (below ") cfg.internalWarnKb (lit " KB free)")), 0)
  else if below cfg.heapWarnKb h.totalFree then
    ((.warn, limitText (lit "heap low (below ") cfg.heapWarnKb (lit " KB free)")), 0)
  else ((.normal, .empty), 0)

def policyTrough (cfg : PolicyCfg) (h : Heap) : Shown :=
  if below cfg.internalTroughWarnKb h.internalMin then
    (.warn, limitText (lit "internal RAM low-water mark below ") cfg.internalTroughWarnKb
      (lit " KB since boot"))
  else (.normal, .empty)

-- The tasks watched

def watchedMax : Nat := 8
def taskNameMax : Nat := 16

variable {Task : Type}

structure Watched (Task : Type) where
  task : Task
  name : Buf taskNameMax
  timeoutMs : UInt32
  lastKickMs : UInt32

-- How long it has been silent. A kick newer than the time of the tick means
-- that it is alive.
def Watched.age (now : UInt32) (w : Watched Task) : UInt32 :=
  if ahead now w.lastKickMs < 0 then 0 else now - w.lastKickMs

def Watched.overdue (now : UInt32) (w : Watched Task) : Bool :=
  w.timeoutMs < w.age now

-- One round of the loop of `check_tasks`.
def worse (now : UInt32) (stalled : Option (Watched Task) × UInt32) :
    Option (Watched Task) → Option (Watched Task) × UInt32
  | none => stalled
  | some w =>
    if w.overdue now && stalled.2 ≤ w.age now then (some w, w.age now) else stalled

def stalledText (w : Watched Task) (age : UInt32) : Buf msgMax :=
  .print (w.name.chars ++ lit " silent for " ++ decimal (age.toNat / 1000) ++ lit " s (limit " ++
    decimal (w.timeoutMs.toNat / 1000) ++ lit " s)")

def checkTasks (now : UInt32) (slots : List (Option (Watched Task))) : Shown :=
  match slots.foldl (worse now) (none, 0) with
  | (some w, age) => (.alarm, stalledText w age)
  | (none, _) => (.normal, .empty)

section Slots

variable [DecidableEq Task]

def holds (slots : List (Option (Watched Task))) (task : Task) : Bool :=
  slots.any fun slot => slot.any fun w => w.task = task

-- The first slot of a task.
def inSlot (task : Task) (f : Watched Task → Watched Task) :
    List (Option (Watched Task)) → List (Option (Watched Task))
  | [] => []
  | none :: slots => none :: inSlot task f slots
  | some w :: slots => if w.task = task then some (f w) :: slots else some w :: inSlot task f slots

end Slots

-- The policy

-- Written right before the restart.
structure ResetRecord where
  key : Buf keyMax
  message : Buf 64
  minFreeHeap : UInt32
  minInternal : UInt32
  largestBlock : UInt32
  uptimeS : UInt32
  unixMs : Int64

structure Policy (Task : Type) where
  cfg : PolicyCfg
  strikes : UInt32
  ticks : UInt32
  restarting : Bool
  fatal : Option Condition
  watched : List (Option (Watched Task))
  everWatched : Bool

def policyInit (cfg : PolicyCfg) : Policy Task where
  cfg := if cfg.strikes = 0 then { cfg with strikes := 1 } else cfg
  strikes := 0
  ticks := 0
  restarting := false
  fatal := none
  watched := List.replicate watchedMax none
  everWatched := false

-- A missing task is NULL, like a missing name.
def policyWatch [DecidableEq Task] (p : Policy Task) (task : Option Task) (name : Option CStr)
    (timeoutMs nowMs : UInt32) : EspErr × Policy Task :=
  match task, name with
  | some task, some (c :: name) =>
    let w : Watched Task := ⟨task, .print (c :: name), timeoutMs, nowMs⟩
    if holds p.watched task then
      (.ok, { p with watched := inSlot task (fun _ => w) p.watched, everWatched := true })
    else
      match Slots.place w p.watched with
      | some watched => (.ok, { p with watched := watched, everWatched := true })
      | none => (.noMem, p)
  | _, _ => (.invalidArg, p)

def policyUnwatch [DecidableEq Task] (p : Policy Task) (task : Option Task) : EspErr × Policy Task :=
  match task with
  | some task =>
    if holds p.watched task then
      (.ok, { p with watched := Slots.clear (fun w => w.task = task) p.watched })
    else (.notFound, p)
  | none => (.notFound, p)

def policyKick [DecidableEq Task] (p : Policy Task) (task : Task) (nowMs : UInt32) : Policy Task :=
  { p with watched := inSlot task (fun w => { w with lastKickMs := nowMs }) p.watched }

def fatalCondition (c : Condition) : Bool :=
  c.state = .alarm && c.flags &&& rebootOnAlarm ≠ 0

variable {K : Kconfig}

def Table.fatalAlarm (T : Table K) : Option Condition :=
  T.conds.find? fatalCondition

-- A report of a component; `locked` tells whether it got the lock.
structure Report where
  locked : Bool
  key : Option CStr
  state : Int
  message : Option CStr
  flags : UInt32

namespace Table

def told (T : Table K) (locked : Bool) (key : Buf keyMax) (shown : Shown) (flags : UInt32) :
    Table K :=
  if locked then (reportLocked T key shown flags).table T else T

def takes (T : Table K) (r : Report) : Table K :=
  match checkReport r.key r.state r.message r.flags with
  | .error _ => T
  | .ok (key, shown) => T.told r.locked key shown r.flags

end Table

-- What a tick finds: the readings, which of its calls get the lock, and what
-- other components report between them.
structure TickIn where
  now : Nat
  heap : Heap
  uptimeS : UInt32
  unixMs : Int64
  memoryLocked : Bool
  afterMemory : List Report
  troughLocked : Bool
  afterTrough : List Report
  tasksLocked : Bool
  afterTasks : List Report
  fatalLocked : Bool

def TickIn.others (i : TickIn) : List Report :=
  i.afterMemory ++ i.afterTrough ++ i.afterTasks

def lowMemory : Buf keyMax := .print (lit "lowMemory")
def memoryTrough : Buf keyMax := .print (lit "memoryTrough")
def taskStalled : Buf keyMax := .print (lit "taskStalled")

-- The table a tick asks for a fatal alarm.
def tickReports (p : Policy Task) (i : TickIn) (T : Table K) : Table K :=
  let memory := policyMemory p.cfg i.heap
  let T := i.afterMemory.foldl Table.takes (T.told i.memoryLocked lowMemory memory.1 memory.2)
  let T := i.afterTrough.foldl Table.takes
    (T.told i.troughLocked memoryTrough (policyTrough p.cfg i.heap) 0)
  let T :=
    if p.everWatched then
      T.told i.tasksLocked taskStalled (checkTasks (UInt32.ofNat i.now) p.watched) rebootOnAlarm
    else T
  i.afterTasks.foldl Table.takes T

def resetRecord (i : TickIn) (c : Condition) : ResetRecord where
  key := c.key
  message := .print c.message.chars
  minFreeHeap := i.heap.totalMin
  minInternal := i.heap.internalMin
  largestBlock := i.heap.largestBlock
  uptimeS := i.uptimeS
  unixMs := i.unixMs

structure Device (K : Kconfig) (Task : Type) where
  policy : Policy Task
  table : Table K
  -- The records stored and the restarts asked for, the restart returning as it
  -- does on the host.
  records : List ResetRecord
  restarts : Nat

namespace Device

def boot (cfg : PolicyCfg) : Device K Task :=
  ⟨policyInit cfg, .empty, [], 0⟩

def verdict (d : Device K Task) (i : TickIn) : Option Condition :=
  if i.fatalLocked then (tickReports d.policy i d.table).fatalAlarm else none

def tick (d : Device K Task) (i : TickIn) : Device K Task :=
  if d.policy.restarting then { d with table := i.others.foldl Table.takes d.table }
  else
    let T := tickReports d.policy i d.table
    let p : Policy Task := { d.policy with ticks := d.policy.ticks + 1 }
    match d.verdict i with
    | none => { d with policy := { p with strikes := 0 }, table := T }
    | some c =>
      let p : Policy Task := { p with fatal := some c, strikes := p.strikes + 1 }
      if p.strikes < p.cfg.strikes then { d with policy := p, table := T }
      else
        { policy := { p with restarting := true }
          table := T
          records := d.records ++ [resetRecord i c]
          restarts := d.restarts + 1 }

end Device

def found (v : TickIn × Option Condition) : Bool :=
  v.2.isSome

-- The ticks in a row it takes.
def needed (cfg : PolicyCfg) : Nat :=
  max 1 cfg.strikes.toNat

section Strikes

variable {d : Device K Task} {vs : List (TickIn × Option Condition)} {n : Nat}

-- `vs` is what the ticks have found so far, and `n` in a row are too many.
structure Counted (n : Nat) (d : Device K Task) (vs : List (TickIn × Option Condition)) : Prop where
  limit : d.policy.cfg.strikes.toNat = n
  strikes : d.policy.strikes.toNat = streak found vs
  before : ∀ k < vs.length, streak found (vs.take k) < n
  running : d.policy.restarting = false → streak found vs < n ∧ d.restarts = 0 ∧ d.records = []
  restarting : d.policy.restarting = true → n ≤ streak found vs ∧ d.restarts = 1 ∧
    ∃ i c, vs.getLast? = some (i, some c) ∧ d.records = [resetRecord i c]

theorem counted_boot (cfg : PolicyCfg) :
    Counted (needed cfg) (Device.boot cfg : Device K Task) [] := by
  have hlimit : (policyInit cfg : Policy Task).cfg.strikes.toNat = needed cfg := by
    unfold policyInit needed
    by_cases hzero : cfg.strikes = 0
    · simp [hzero]
    · have hpos : cfg.strikes.toNat ≠ 0 := fun h => hzero (UInt32.toNat_inj.mp h)
      simp only [if_neg hzero]
      omega
  refine ⟨hlimit, rfl, ?_, ?_, ?_⟩
  · intro k hk
    cases hk
  · intro _
    refine ⟨?_, rfl, rfl⟩
    rw [streak_nil, needed]
    omega
  · intro h
    cases h

theorem Counted.other (h : Counted n d vs) {d' : Device K Task}
    (hcfg : d'.policy.cfg = d.policy.cfg) (hstrikes : d'.policy.strikes = d.policy.strikes)
    (hrestarting : d'.policy.restarting = d.policy.restarting) (hrecords : d'.records = d.records)
    (hrestarts : d'.restarts = d.restarts) : Counted n d' vs := by
  refine ⟨?_, ?_, h.before, ?_, ?_⟩
  · rw [hcfg]
    exact h.limit
  · rw [hstrikes]
    exact h.strikes
  · rw [hrestarting, hrecords, hrestarts]
    exact h.running
  · rw [hrestarting, hrecords, hrestarts]
    exact h.restarting

theorem before_append (h : ∀ k < vs.length, streak found (vs.take k) < n)
    (hnow : streak found vs < n) (v : TickIn × Option Condition) :
    ∀ k < (vs ++ [v]).length, streak found ((vs ++ [v]).take k) < n := by
  intro k hk
  rw [List.length_append, List.length_singleton] at hk
  rw [List.take_append_of_le_length (by omega)]
  rcases Nat.lt_succ_iff_lt_or_eq.mp hk with hlt | rfl
  · exact h k hlt
  · rw [List.take_length]
    exact hnow

theorem Counted.tick (h : Counted n d vs) (hrunning : d.policy.restarting = false) (i : TickIn) :
    Counted n (d.tick i) (vs ++ [(i, d.verdict i)]) := by
  obtain ⟨hfew, hrestarts, hrecords⟩ := h.running hrunning
  have hbefore := before_append h.before hfew (i, d.verdict i)
  have hstreak := streak_append_singleton found vs (i, d.verdict i)
  have hlimit := h.limit
  have hlt := d.policy.cfg.strikes.toNat_lt
  unfold Device.tick
  rw [hrunning, if_neg Bool.false_ne_true]
  cases hverdict : d.verdict i with
  | none =>
    rw [hverdict] at hstreak hbefore
    refine ⟨hlimit, hstreak.symm, hbefore, ?_, ?_⟩
    · intro _
      refine ⟨?_, hrestarts, hrecords⟩
      rw [hstreak]
      exact Nat.zero_lt_of_lt hfew
    · intro hr
      cases hrunning.symm.trans hr
  | some c =>
    rw [hverdict] at hstreak hbefore
    have hnext : streak found (vs ++ [(i, some c)]) = streak found vs + 1 := hstreak
    -- the count is never one that does not fit
    have hcount : (d.policy.strikes + 1).toNat = streak found vs + 1 := by
      rw [UInt32.toNat_add, h.strikes, UInt32.toNat_one]
      exact Nat.mod_eq_of_lt (by omega)
    dsimp only
    by_cases hless : d.policy.strikes + 1 < d.policy.cfg.strikes
    · rw [if_pos hless]
      have hless' := UInt32.lt_iff_toNat_lt.mp hless
      refine ⟨hlimit, hcount.trans hnext.symm, hbefore, ?_, ?_⟩
      · intro _
        exact ⟨by omega, hrestarts, hrecords⟩
      · intro hr
        cases hrunning.symm.trans hr
    · rw [if_neg hless]
      have hmore : d.policy.cfg.strikes.toNat ≤ (d.policy.strikes + 1).toNat :=
        Nat.le_of_not_lt fun hlt => hless (UInt32.lt_iff_toNat_lt.mpr hlt)
      refine ⟨hlimit, hcount.trans hnext.symm, hbefore, ?_, ?_⟩
      · intro hr
        cases hr
      · intro _
        refine ⟨by omega, ?_, i, c, ?_, ?_⟩
        · change d.restarts + 1 = 1
          rw [hrestarts]
        · rw [List.getLast?_append, List.getLast?_singleton]
          rfl
        · change d.records ++ [resetRecord i c] = [resetRecord i c]
          rw [hrecords, List.nil_append]

end Strikes

-- Times are counted without end here, and cut to 32 bits where the code reads them.
inductive PolicyEvent (Task : Type) where
  | report (r : Report)
  | watch (task : Option Task) (name : Option CStr) (timeoutMs : UInt32) (now : Nat)
  | unwatch (task : Option Task)
  | kick (task : Task) (now : Nat)
  | tick (i : TickIn)

variable [DecidableEq Task]

def policyStep (d : Device K Task) : PolicyEvent Task → Device K Task
  | .report r => { d with table := d.table.takes r }
  | .watch task name timeoutMs now =>
    { d with policy := (policyWatch d.policy task name timeoutMs (UInt32.ofNat now)).2 }
  | .unwatch task => { d with policy := (policyUnwatch d.policy task).2 }
  | .kick task now => { d with policy := policyKick d.policy task (UInt32.ofNat now) }
  | .tick i => d.tick i

def verdictOf (d : Device K Task) : PolicyEvent Task → Option (TickIn × Option Condition)
  | .tick i => if d.policy.restarting then none else some (i, d.verdict i)
  | _ => none

-- What the ticks of a run found in the table, up to the restart.
def verdicts (d : Device K Task) : List (PolicyEvent Task) → List (TickIn × Option Condition)
  | [] => []
  | e :: es => (verdictOf d e).toList ++ verdicts (policyStep d e) es

theorem policyWatch_keeps (p : Policy Task) (task : Option Task) (name : Option CStr)
    (timeoutMs nowMs : UInt32) : (policyWatch p task name timeoutMs nowMs).2.cfg = p.cfg ∧
      (policyWatch p task name timeoutMs nowMs).2.strikes = p.strikes ∧
      (policyWatch p task name timeoutMs nowMs).2.restarting = p.restarting := by
  unfold policyWatch
  split
  · split
    · exact ⟨rfl, rfl, rfl⟩
    · dsimp only
      split <;> exact ⟨rfl, rfl, rfl⟩
  · exact ⟨rfl, rfl, rfl⟩

theorem policyUnwatch_keeps (p : Policy Task) (task : Option Task) :
    (policyUnwatch p task).2.cfg = p.cfg ∧ (policyUnwatch p task).2.strikes = p.strikes ∧
      (policyUnwatch p task).2.restarting = p.restarting := by
  unfold policyUnwatch
  split
  · split <;> exact ⟨rfl, rfl, rfl⟩
  · exact ⟨rfl, rfl, rfl⟩

theorem Counted.step {d : Device K Task} {vs : List (TickIn × Option Condition)} {n : Nat}
    (h : Counted n d vs) (e : PolicyEvent Task) :
    Counted n (policyStep d e) (vs ++ (verdictOf d e).toList) := by
  cases e with
  | tick i =>
    cases hrestarting : d.policy.restarting with
    | false =>
      rw [verdictOf, hrestarting, if_neg Bool.false_ne_true]
      exact h.tick hrestarting i
    | true =>
      rw [verdictOf, if_pos hrestarting, Option.toList_none, List.append_nil, policyStep,
        Device.tick, if_pos hrestarting]
      exact h.other rfl rfl rfl rfl rfl
  | report r =>
    change Counted n _ (vs ++ [])
    rw [List.append_nil]
    exact h.other rfl rfl rfl rfl rfl
  | watch task name timeoutMs now =>
    obtain ⟨hcfg, hstrikes, hrestarting⟩ :=
      policyWatch_keeps d.policy task name timeoutMs (UInt32.ofNat now)
    change Counted n _ (vs ++ [])
    rw [List.append_nil]
    exact h.other hcfg hstrikes hrestarting rfl rfl
  | unwatch task =>
    obtain ⟨hcfg, hstrikes, hrestarting⟩ := policyUnwatch_keeps d.policy task
    change Counted n _ (vs ++ [])
    rw [List.append_nil]
    exact h.other hcfg hstrikes hrestarting rfl rfl
  | kick task now =>
    change Counted n _ (vs ++ [])
    rw [List.append_nil]
    exact h.other rfl rfl rfl rfl rfl

theorem counted_run {d : Device K Task} {vs : List (TickIn × Option Condition)} {n : Nat}
    (h : Counted n d vs) (events : List (PolicyEvent Task)) :
    Counted n (run policyStep d events) (vs ++ verdicts d events) := by
  induction events generalizing d vs with
  | nil => simpa [verdicts] using h
  | cons e events ih =>
    rw [run_cons, verdicts, ← List.append_assoc]
    exact ih (h.step e)

-- The device is restarted once, by the tick that ends the first streak of
-- enough ticks, and the record is about what that tick found.
theorem restart_ends_first_streak (cfg : PolicyCfg) (events : List (PolicyEvent Task)) :
    let d := run policyStep (Device.boot cfg : Device K Task) events
    let vs := verdicts (Device.boot cfg : Device K Task) events
    (∀ k < vs.length, streak found (vs.take k) < needed cfg) ∧
      if needed cfg ≤ streak found vs then
        d.restarts = 1 ∧ ∃ i c, vs.getLast? = some (i, some c) ∧ d.records = [resetRecord i c]
      else d.restarts = 0 ∧ d.records = [] := by
  have h : Counted (needed cfg) (run policyStep (Device.boot cfg : Device K Task) events)
      (verdicts (Device.boot cfg : Device K Task) events) := counted_run (counted_boot cfg) events
  refine ⟨h.before, ?_⟩
  split
  next hmany =>
    cases hrestarting : (run policyStep (Device.boot cfg : Device K Task) events).policy.restarting with
    | true => exact (h.restarting hrestarting).2
    | false => exact absurd (h.running hrestarting).1 (Nat.not_lt_of_le hmany)
  next hfew =>
    cases hrestarting : (run policyStep (Device.boot cfg : Device K Task) events).policy.restarting with
    | true => exact absurd (h.restarting hrestarting).1 hfew
    | false => exact (h.running hrestarting).2

end Espos.Health
