import Mathlib.Logic.Function.Basic
import Espos.Health.Table
import Espos.Lib.Lists
import Espos.Lib.Run

-- The calls of `espos_health.c` that reach a sink. Each of them takes the lock
-- for the table only and calls the sinks with the lock released, so another
-- task's call may come between any two of the steps below.

namespace Espos.Health

open Espos.Recent Espos.Text

-- A function, which is not NULL, and its argument.
structure Sink where
  fn : Nat
  arg : Nat
deriving DecidableEq

structure Delivery where
  sink : Sink
  key : Buf keyMax
  shown : Shown
deriving DecidableEq

-- `adding` is the replay of `espos_health_add_sink`, whose result is dropped.
structure Replay where
  sink : Sink
  adding : Bool
  i : Nat
  incomplete : Bool
deriving DecidableEq

def replayPasses : Nat := 4

-- Where a call stands that has not returned.
inductive Call where
  -- A report that has changed the table.
  | updated (key : Buf keyMax) (shown : Shown)
  -- The sinks of its snapshot that it has still to call.
  | fanning (key : Buf keyMax) (shown : Shown) (rest : List Sink)
  | scan (r : Replay)
  | send (r : Replay) (c : Condition) (pass : Nat)
  | look (r : Replay) (c : Condition) (pass : Nat)
deriving DecidableEq

variable {K : Kconfig} {τ : Type*}

-- What the next step of a call leaves of it, and the sink call it makes.
structure Next where
  call : Option Call
  delivery : Option Delivery
deriving DecidableEq

namespace Call

def next (T : Table K) (sinks : List Sink) : Call → Next
  | .updated key shown => ⟨some (.fanning key shown sinks), none⟩
  | .fanning _ _ [] => ⟨none, none⟩
  | .fanning key shown (s :: rest) => ⟨some (.fanning key shown rest), some ⟨s, key, shown⟩⟩
  | .scan r =>
    match T.conds[r.i]? with
    | none => ⟨none, none⟩
    | some c => ⟨some (.send r c 0), none⟩
  | .send r c pass => ⟨some (.look r c pass), some ⟨r.sink, c.key, c.shown⟩⟩
  | .look r c pass =>
    match T.conds[r.i]? with
    | none => ⟨some (.scan { r with i := r.i + 1 }), none⟩
    | some c' =>
      if c'.shown = c.shown then ⟨some (.scan { r with i := r.i + 1 }), none⟩
      else if pass + 1 < replayPasses then ⟨some (.send r c' (pass + 1)), none⟩
      else ⟨some (.scan { r with i := r.i + 1, incomplete := true }), none⟩

-- What the call returns once nothing is left of it.
def result : Call → EspErr
  | .scan r => if r.incomplete && !r.adding then .timeout else .ok
  | _ => .ok

end Call

structure Registry (K : Kconfig) (τ : Type*) where
  table : Table K
  sinks : List Sink
  calls : τ → Option Call
  -- The sink calls so far, the oldest first.
  deliveries : List Delivery
  results : List (τ × EspErr)

def start : Registry K τ :=
  ⟨.empty, [], fun _ => none, [], []⟩

variable [DecidableEq τ]

namespace Registry

def enter (h : Registry K τ) (task : τ) (call : Call) : Registry K τ :=
  { h with calls := Function.update h.calls task (some call) }

def finish (h : Registry K τ) (task : τ) (err : EspErr) : Registry K τ :=
  { h with results := h.results ++ [(task, err)] }

def report (h : Registry K τ) (task : τ) (key : Option CStr) (state : Int) (message : Option CStr)
    (flags : UInt32) : Registry K τ :=
  match checkReport key state message flags with
  | .error err => h.finish task err
  | .ok (key, shown) =>
    match reportLocked h.table key shown flags with
    | .refused err => h.finish task err
    | .quiet T => { h with table := T }.finish task .ok
    | .stored T => { h with table := T }.enter task (.updated key shown)

def addSink (h : Registry K τ) (task : τ) (sink : Sink) : Registry K τ :=
  if sink ∈ h.sinks then h.finish task .invalidState
  else if h.sinks.length ≥ K.healthMaxSinks then h.finish task .noMem
  else { h with sinks := h.sinks ++ [sink] }.enter task (.scan ⟨sink, true, 0, false⟩)

def replay (h : Registry K τ) (task : τ) (sink : Sink) : Registry K τ :=
  h.enter task (.scan ⟨sink, false, 0, false⟩)

-- The next step of a call.
def advance (h : Registry K τ) (task : τ) (call : Call) : Registry K τ :=
  let out := call.next h.table h.sinks
  { h with
    calls := Function.update h.calls task out.call
    deliveries := h.deliveries ++ out.delivery.toList
    results := h.results ++ (if out.call = none then [(task, call.result)] else []) }

end Registry

inductive Input (τ : Type*) where
  | report (task : τ) (key : Option CStr) (state : Int) (message : Option CStr) (flags : UInt32)
  | addSink (task : τ) (sink : Sink)
  | replay (task : τ) (sink : Sink)
  | advance (task : τ)

-- A task makes its next call after the last one has returned.
def step (h : Registry K τ) : Input τ → Registry K τ
  | .report task key state message flags =>
    if (h.calls task).isSome then h else h.report task key state message flags
  | .addSink task sink => if (h.calls task).isSome then h else h.addSink task sink
  | .replay task sink => if (h.calls task).isSome then h else h.replay task sink
  | .advance task =>
    match h.calls task with
    | none => h
    | some call => h.advance task call

def lastShown (deliveries : List Delivery) (sink : Sink) (key : Buf keyMax) : Option Shown :=
  (newest (fun d => d.sink = sink && d.key = key) deliveries).map Delivery.shown

def AllReturned (h : Registry K τ) : Prop :=
  ∀ task, h.calls task = none

def Converged (h : Registry K τ) : Prop :=
  ∀ sink ∈ h.sinks, ∀ c ∈ h.table.conds, lastShown h.deliveries sink c.key = some c.shown

end Espos.Health

-- What the sinks have heard, for every interleaving of the calls.

namespace Espos.Health

open Espos.Recent Espos.Run Espos.Text

variable {K : Kconfig} {T : Table K} {sinks : List Sink}

-- The call will still show `sink` the condition `c` as the table has it at `j`.
def Owes (sink : Sink) (j : Nat) (c : Condition) : Call → Prop
  | .updated key shown => key = c.key ∧ shown = c.shown
  | .fanning key shown rest => key = c.key ∧ shown = c.shown ∧ sink ∈ rest
  | .scan r => r.sink = sink ∧ r.i ≤ j
  | .send r d pass =>
    r.sink = sink ∧ (r.i < j ∨ r.i = j ∧ (pass + 1 < replayPasses ∨ d.shown = c.shown))
  | .look r d pass =>
    r.sink = sink ∧ (r.i < j ∨ r.i = j ∧ pass + 1 < replayPasses ∧ d.shown ≠ c.shown)

-- A replay's copy is of the key it stands at.
def Placed (T : Table K) : Call → Prop
  | .updated _ _ | .fanning _ _ _ | .scan _ => True
  | .send r d _ | .look r d _ => ∃ c, T.conds[r.i]? = some c ∧ c.key = d.key

section Next

variable {call call' : Call} {sink : Sink} {j : Nat} {c : Condition}

-- A look leads on to the next key, or back to a send of what the table has now.
theorem look_next {r : Replay} {d : Condition} {pass : Nat}
    (hnext : ((Call.look r d pass).next T sinks).call = some call') :
    (∃ incomplete, call' = .scan ⟨r.sink, r.adding, r.i + 1, incomplete⟩) ∨
      ∃ e, T.conds[r.i]? = some e ∧ e.shown ≠ d.shown ∧ pass + 1 < replayPasses ∧
        call' = .send r e (pass + 1) := by
  rw [Call.next] at hnext
  split at hnext
  next => exact .inl ⟨_, (Option.some.inj hnext).symm⟩
  next e he =>
    split at hnext
    next => exact .inl ⟨_, (Option.some.inj hnext).symm⟩
    next hshown =>
      split at hnext
      next hpass => exact .inr ⟨e, he, hshown, hpass, (Option.some.inj hnext).symm⟩
      next => exact .inl ⟨_, (Option.some.inj hnext).symm⟩

theorem placed_next (h : Placed T call) (hnext : (call.next T sinks).call = some call') :
    Placed T call' := by
  cases call with
  | updated key shown =>
    obtain rfl := Option.some.inj hnext
    trivial
  | fanning key shown rest =>
    cases rest with
    | nil => exact absurd hnext nofun
    | cons s rest =>
      obtain rfl := Option.some.inj hnext
      trivial
  | scan r =>
    rw [Call.next] at hnext
    split at hnext
    next => exact absurd hnext nofun
    next d hd =>
      obtain rfl := Option.some.inj hnext
      exact ⟨d, hd, rfl⟩
  | send r d pass =>
    obtain rfl := Option.some.inj hnext
    exact h
  | look r d pass =>
    rcases look_next hnext with ⟨_, rfl⟩ | ⟨e, he, _, _, rfl⟩
    · trivial
    · exact ⟨e, he, rfl⟩

-- What a call owes it delivers next or owes after that.
theorem owes_next (hj : T.conds[j]? = some c) (hsink : sink ∈ sinks) (hp : Placed T call)
    (h : Owes sink j c call) :
    (call.next T sinks).delivery = some ⟨sink, c.key, c.shown⟩ ∨
      ∃ call', (call.next T sinks).call = some call' ∧ Owes sink j c call' := by
  cases call with
  | updated key shown => exact .inr ⟨_, rfl, h.1, h.2, hsink⟩
  | fanning key shown rest =>
    cases rest with
    | nil => simp [Owes] at h
    | cons s rest =>
      obtain ⟨rfl, rfl, hmem⟩ := h
      rcases List.mem_cons.mp hmem with rfl | hmem
      · exact .inl rfl
      · exact .inr ⟨_, rfl, rfl, rfl, hmem⟩
  | scan r =>
    obtain ⟨hs, hij⟩ := h
    have hlt : r.i < T.conds.length := by
      have := (List.getElem?_eq_some_iff.mp hj).1
      omega
    rw [Call.next, List.getElem?_eq_getElem hlt]
    refine .inr ⟨_, rfl, hs, ?_⟩
    simp only [replayPasses]
    omega
  | send r d pass =>
    obtain ⟨hs, hlater | ⟨hij, hown⟩⟩ := h
    · exact .inr ⟨_, rfl, hs, .inl hlater⟩
    · obtain ⟨e, he, hkey⟩ := hp
      obtain rfl : e = c := by
        rw [hij, hj] at he
        exact (Option.some.inj he).symm
      by_cases hshown : d.shown = e.shown
      · left
        rw [Call.next, hs, hkey, hshown]
      · refine .inr ⟨_, rfl, hs, .inr ⟨hij, ?_, hshown⟩⟩
        exact hown.resolve_right hshown
  | look r d pass =>
    obtain ⟨hs, hlater | ⟨hij, hpass, hshown⟩⟩ := h
    · right
      rw [Call.next]
      split
      next => exact ⟨_, rfl, hs, hlater⟩
      next =>
        split
        next => exact ⟨_, rfl, hs, hlater⟩
        next =>
          split
          next => exact ⟨_, rfl, hs, .inl hlater⟩
          next => exact ⟨_, rfl, hs, hlater⟩
    · right
      rw [Call.next, hij, hj]
      dsimp only
      rw [if_neg (Ne.symm hshown), if_pos hpass]
      exact ⟨_, rfl, hs, .inr ⟨hij, .inr rfl⟩⟩

theorem owes_of_next (hj : T.conds[j]? = some c)
    (hnext : (call.next T sinks).call = some call') (h : Owes sink j c call') :
    Owes sink j c call := by
  cases call with
  | updated key shown =>
    obtain rfl := Option.some.inj hnext
    exact ⟨h.1, h.2.1⟩
  | fanning key shown rest =>
    cases rest with
    | nil => exact absurd hnext nofun
    | cons s rest =>
      obtain rfl := Option.some.inj hnext
      exact ⟨h.1, h.2.1, List.mem_cons_of_mem _ h.2.2⟩
  | scan r =>
    rw [Call.next] at hnext
    split at hnext
    next => exact absurd hnext nofun
    next d hd =>
      obtain rfl := Option.some.inj hnext
      obtain ⟨hs, hij⟩ := h
      refine ⟨hs, ?_⟩
      omega
  | send r d pass =>
    obtain rfl := Option.some.inj hnext
    obtain ⟨hs, hlater | ⟨hij, hpass, _⟩⟩ := h
    · exact ⟨hs, .inl hlater⟩
    · exact ⟨hs, .inr ⟨hij, .inl hpass⟩⟩
  | look r d pass =>
    rcases look_next hnext with ⟨_, rfl⟩ | ⟨e, he, hshown, hpass, rfl⟩
    · exact ⟨h.1, .inl h.2⟩
    · obtain ⟨hs, hlater | ⟨hij, _⟩⟩ := h
      · exact ⟨hs, .inl hlater⟩
      · rw [hij, hj] at he
        obtain rfl := Option.some.inj he
        exact ⟨hs, .inr ⟨hij, hpass, Ne.symm hshown⟩⟩

-- What a call delivers as the table has it, it owed.
theorem owes_of_delivery (hj : T.conds[j]? = some c) (hp : Placed T call)
    (h : (call.next T sinks).delivery = some ⟨sink, c.key, c.shown⟩) : Owes sink j c call := by
  cases call with
  | updated key shown => exact absurd h nofun
  | fanning key shown rest =>
    cases rest with
    | nil => exact absurd h nofun
    | cons s rest =>
      simp only [Call.next, Option.some.injEq, Delivery.mk.injEq] at h
      obtain ⟨rfl, hkey, hshown⟩ := h
      exact ⟨hkey, hshown, List.mem_cons_self ..⟩
  | scan r =>
    rw [Call.next] at h
    split at h <;> exact absurd h nofun
  | send r d pass =>
    simp only [Call.next, Option.some.injEq, Delivery.mk.injEq] at h
    obtain ⟨hs, hkey, hshown⟩ := h
    obtain ⟨e, he, hplace⟩ := hp
    exact ⟨hs, .inr ⟨Table.index_unique he hj (hplace.trans hkey), .inr hshown⟩⟩
  | look r d pass =>
    rw [Call.next] at h
    split at h
    next => exact absurd h nofun
    next =>
      split at h
      next => exact absurd h nofun
      next => split at h <;> exact absurd h nofun

end Next

variable {τ : Type*} [DecidableEq τ] {h : Registry K τ} {task : τ}

theorem lastShown_append (ds : List Delivery) (d : Delivery) (sink : Sink) (key : Buf keyMax) :
    lastShown (ds ++ [d]) sink key =
      if d.sink = sink ∧ d.key = key then some d.shown else lastShown ds sink key := by
  rw [lastShown, newest_append_singleton]
  by_cases hd : d.sink = sink ∧ d.key = key
  · simp [hd]
  · simp [hd, lastShown]

-- A sink is shown something the table no longer has only while some call, this
-- one included, will still show it what the table has.
def Corrected (h : Registry K τ) : Input τ → Prop
  | .advance task => ∀ call d, h.calls task = some call →
      (call.next h.table h.sinks).delivery = some d → d.sink ∈ h.sinks →
      ∀ j c, h.table.conds[j]? = some c → c.key = d.key → c.shown ≠ d.shown →
      ∃ u owing, (h.advance task call).calls u = some owing ∧ Owes d.sink j c owing
  | _ => True

-- The invariant: what a registered sink has not heard last it will still hear.
structure Heard (h : Registry K τ) : Prop where
  placed : ∀ u call, h.calls u = some call → Placed h.table call
  heard : ∀ sink ∈ h.sinks, ∀ j c, h.table.conds[j]? = some c →
    lastShown h.deliveries sink c.key = some c.shown ∨
      ∃ u call, h.calls u = some call ∧ Owes sink j c call

omit [DecidableEq τ] in
theorem heard_start : Heard (start : Registry K τ) := by
  refine ⟨fun u call hu => ?_, fun sink hs => ?_⟩
  · simp [start] at hu
  · simp [start] at hs

theorem Owes.congr {sink : Sink} {j : Nat} {c d : Condition} {call : Call} (hkey : d.key = c.key)
    (hshown : d.shown = c.shown) (h : Owes sink j d call) : Owes sink j c call := by
  cases call <;> simpa only [Owes, hkey, hshown] using h

theorem Placed.mono {T' : Table K} {call : Call}
    (hkeys : ∀ (i : Nat) (c : Condition), T.conds[i]? = some c →
      ∃ c', T'.conds[i]? = some c' ∧ c'.key = c.key) (h : Placed T call) : Placed T' call := by
  have hmoved {i : Nat} {d : Condition} (h : ∃ c, T.conds[i]? = some c ∧ c.key = d.key) :
      ∃ c, T'.conds[i]? = some c ∧ c.key = d.key := by
    obtain ⟨c, hc, hkey⟩ := h
    obtain ⟨c', hc', hkey'⟩ := hkeys i c hc
    exact ⟨c', hc', hkey'.trans hkey⟩
  cases call with
  | updated | fanning | scan => trivial
  | send r d pass => exact hmoved h
  | look r d pass => exact hmoved h

theorem calls_enter_of_busy {u : τ} {call owing : Call} (hidle : h.calls task = none)
    (hu : h.calls u = some owing) : (h.enter task call).calls u = some owing := by
  have hne : u ≠ task := by
    rintro rfl
    rw [hidle] at hu
    exact absurd hu nofun
  exact (Function.update_of_ne hne _ _).trans hu

theorem calls_enter_self (call : Call) : (h.enter task call).calls task = some call :=
  Function.update_self ..

theorem placed_enter {call : Call}
    (hplaced : ∀ u call, h.calls u = some call → Placed h.table call)
    (hp : Placed h.table call) :
    ∀ u owing, (h.enter task call).calls u = some owing → Placed h.table owing := by
  intro u owing hu
  by_cases hne : u = task
  · subst hne
    rw [calls_enter_self, Option.some.injEq] at hu
    exact hu ▸ hp
  · exact hplaced u owing ((Function.update_of_ne hne _ _).symm.trans hu)

omit [DecidableEq τ] in
theorem placed_reported {key : Buf keyMax} {shown : Shown} {flags : UInt32} {T' : Table K}
    (hh : Heard h) (ht : (reportLocked h.table key shown flags).table h.table = T') :
    ∀ u call, h.calls u = some call → Placed T' call := by
  intro u call hu
  refine Placed.mono (fun i c hi => ?_) (hh.placed u call hu)
  rw [← ht]
  exact key_kept hi

theorem heard_report (hh : Heard h) (hidle : h.calls task = none) (key : Option CStr) (state : Int)
    (message : Option CStr) (flags : UInt32) :
    Heard (h.report task key state message flags) := by
  rw [Registry.report]
  split
  next => exact ⟨hh.placed, hh.heard⟩
  next key shown _ =>
    split
    next => exact ⟨hh.placed, hh.heard⟩
    next T' hquiet =>
      have ht : (reportLocked h.table key shown flags).table h.table = T' := by rw [hquiet]; rfl
      have hplaced : ∀ u call, h.calls u = some call → Placed T' call := placed_reported hh ht
      refine ⟨hplaced, fun sink hs j c hj => ?_⟩
      obtain ⟨d, hd, hkey, hshown⟩ := quiet_conds hquiet hj
      rcases hh.heard sink hs j d hd with hlast | ⟨u, call, hu, howes⟩
      · left
        rw [← hkey, ← hshown]
        exact hlast
      · exact .inr ⟨u, call, hu, howes.congr hkey hshown⟩
    next T' hstored =>
      have ht : (reportLocked h.table key shown flags).table h.table = T' := by rw [hstored]; rfl
      have hplaced : ∀ u call, h.calls u = some call → Placed T' call := placed_reported hh ht
      refine ⟨placed_enter hplaced trivial, fun sink hs j c hj => ?_⟩
      rcases stored_conds hstored hj with ⟨hkey, hshown⟩ | ⟨_, hold⟩
      · exact .inr ⟨task, _, calls_enter_self _, hkey.symm, hshown.symm⟩
      · rcases hh.heard sink hs j c hold with hlast | ⟨u, call, hu, howes⟩
        · exact .inl hlast
        · exact .inr ⟨u, call, calls_enter_of_busy hidle hu, howes⟩

theorem heard_enter_scan (hh : Heard h) (hidle : h.calls task = none) (r : Replay) :
    Heard (h.enter task (.scan r)) := by
  refine ⟨placed_enter hh.placed trivial, fun sink hs j c hj => ?_⟩
  rcases hh.heard sink hs j c hj with hlast | ⟨u, call, hu, howes⟩
  · exact .inl hlast
  · exact .inr ⟨u, call, calls_enter_of_busy hidle hu, howes⟩

theorem heard_addSink (hh : Heard h) (hidle : h.calls task = none) (sink : Sink) :
    Heard (h.addSink task sink) := by
  rw [Registry.addSink]
  split
  next => exact ⟨hh.placed, hh.heard⟩
  next =>
    split
    next => exact ⟨hh.placed, hh.heard⟩
    next =>
      have hscan := heard_enter_scan hh hidle ⟨sink, true, 0, false⟩
      refine ⟨hscan.placed, fun s hs j c hj => ?_⟩
      rcases List.mem_append.mp hs with hs | hs
      · exact hscan.heard s hs j c hj
      · obtain rfl := List.mem_singleton.mp hs
        exact .inr ⟨task, _, calls_enter_self _, rfl, Nat.zero_le j⟩

theorem calls_advance_self (call : Call) :
    (h.advance task call).calls task = (call.next h.table h.sinks).call :=
  Function.update_self ..

theorem calls_advance_of_ne {u : τ} (call : Call) (hne : u ≠ task) :
    (h.advance task call).calls u = h.calls u :=
  Function.update_of_ne hne _ _

theorem lastShown_advance_none {call : Call} (hd : (call.next h.table h.sinks).delivery = none)
    (sink : Sink) (key : Buf keyMax) :
    lastShown (h.advance task call).deliveries sink key = lastShown h.deliveries sink key := by
  rw [Registry.advance, hd, Option.toList_none, List.append_nil]

theorem lastShown_advance_some {call : Call} {d : Delivery}
    (hd : (call.next h.table h.sinks).delivery = some d) (sink : Sink) (key : Buf keyMax) :
    lastShown (h.advance task call).deliveries sink key =
      if d.sink = sink ∧ d.key = key then some d.shown else lastShown h.deliveries sink key := by
  rw [Registry.advance, hd, Option.toList_some, lastShown_append]

-- Either this step delivers what the table has, or whoever owes it still does.
theorem owed_advance {call : Call} {sink : Sink} {j : Nat} {c : Condition} (hh : Heard h)
    (hcall : h.calls task = some call) (hs : sink ∈ h.sinks) (hj : h.table.conds[j]? = some c) :
    lastShown h.deliveries sink c.key = some c.shown ∨
      (call.next h.table h.sinks).delivery = some ⟨sink, c.key, c.shown⟩ ∨
      ∃ u owing, (h.advance task call).calls u = some owing ∧ Owes sink j c owing := by
  rcases hh.heard sink hs j c hj with hlast | ⟨u, owing, hu, howes⟩
  · exact .inl hlast
  · by_cases hne : u = task
    · subst hne
      obtain rfl : call = owing := Option.some.inj (hcall.symm.trans hu)
      rcases owes_next hj hs (hh.placed u call hcall) howes with hd | ⟨call', hcall', howes'⟩
      · exact .inr (.inl hd)
      · exact .inr (.inr ⟨u, call', (calls_advance_self call).trans hcall', howes'⟩)
    · exact .inr (.inr ⟨u, owing, (calls_advance_of_ne call hne).trans hu, howes⟩)

theorem placed_advance {call : Call}
    (hplaced : ∀ u call, h.calls u = some call → Placed h.table call)
    (hcall : h.calls task = some call) :
    ∀ u owing, (h.advance task call).calls u = some owing → Placed h.table owing := by
  intro u owing hu
  by_cases hne : u = task
  · subst hne
    rw [calls_advance_self] at hu
    exact placed_next (hplaced u call hcall) hu
  · rw [calls_advance_of_ne call hne] at hu
    exact hplaced u owing hu

theorem heard_advance {call : Call} (hh : Heard h) (hcall : h.calls task = some call)
    (hcorrected : Corrected h (.advance task)) : Heard (h.advance task call) := by
  refine ⟨placed_advance hh.placed hcall, fun sink hs j c hj => ?_⟩
  have howed := owed_advance hh hcall hs hj
  cases hd : (call.next h.table h.sinks).delivery with
  | none =>
    rw [lastShown_advance_none hd]
    rcases howed with hlast | hd' | howes
    · exact .inl hlast
    · rw [hd] at hd'
      exact absurd hd' nofun
    · exact .inr howes
  | some d =>
    rw [lastShown_advance_some hd]
    by_cases hat : d.sink = sink ∧ d.key = c.key
    · rw [if_pos hat, Option.some.injEq]
      by_cases hshown : d.shown = c.shown
      · exact .inl hshown
      · obtain ⟨rfl, hkey⟩ := hat
        exact .inr (hcorrected call d hcall hd hs j c hj hkey.symm (Ne.symm hshown))
    · rw [if_neg hat]
      rcases howed with hlast | hd' | howes
      · exact .inl hlast
      · obtain rfl := Option.some.inj (hd.symm.trans hd')
        exact absurd ⟨rfl, rfl⟩ hat
      · exact .inr howes

theorem heard_step (hh : Heard h) (input : Input τ) (hcorrected : Corrected h input) :
    Heard (step h input) := by
  cases input with
  | report task key state message flags =>
    rw [step]
    split
    next => exact hh
    next hidle => exact heard_report hh (by simpa using hidle) key state message flags
  | addSink task sink =>
    rw [step]
    split
    next => exact hh
    next hidle => exact heard_addSink hh (by simpa using hidle) sink
  | replay task sink =>
    rw [step]
    split
    next => exact hh
    next hidle => exact heard_enter_scan hh (by simpa using hidle) _
  | advance task =>
    rw [step]
    split
    next => exact hh
    next call hcall => exact heard_advance hh hcall hcorrected

omit [DecidableEq τ] in
theorem Heard.converged (hh : Heard h) (hreturned : AllReturned h) : Converged h := by
  intro sink hs c hc
  obtain ⟨j, hj⟩ := List.mem_iff_getElem?.mp hc
  rcases hh.heard sink hs j c hj with hlast | ⟨u, call, hu, _⟩
  · exact hlast
  · rw [hreturned u] at hu
    exact absurd hu nofun

-- The sink heard something else last, and nobody is left to correct it.
structure Lost (h : Registry K τ) (sink : Sink) (j : Nat) (c : Condition) : Prop where
  placed : ∀ u call, h.calls u = some call → Placed h.table call
  registered : sink ∈ h.sinks
  held : h.table.conds[j]? = some c
  stale : lastShown h.deliveries sink c.key ≠ some c.shown
  unowed : ∀ u call, h.calls u = some call → ¬Owes sink j c call

theorem lost_advance {call : Call} {sink : Sink} {j : Nat} {c : Condition} (hl : Lost h sink j c)
    (hcall : h.calls task = some call) : Lost (h.advance task call) sink j c := by
  refine ⟨placed_advance hl.placed hcall, hl.registered, hl.held, ?_, fun u owing hu => ?_⟩
  · cases hd : (call.next h.table h.sinks).delivery with
    | none =>
      rw [lastShown_advance_none hd]
      exact hl.stale
    | some d =>
      rw [lastShown_advance_some hd]
      split
      next hat =>
        intro hshown
        obtain rfl : d = ⟨sink, c.key, c.shown⟩ := by
          rw [← hat.1, ← hat.2, ← Option.some.inj hshown]
        exact hl.unowed task call hcall (owes_of_delivery hl.held (hl.placed task call hcall) hd)
      next => exact hl.stale
  · by_cases hne : u = task
    · subst hne
      rw [calls_advance_self] at hu
      exact fun howes => hl.unowed u call hcall (owes_of_next hl.held hu howes)
    · rw [calls_advance_of_ne call hne] at hu
      exact hl.unowed u owing hu

theorem lost_run {sink : Sink} {j : Nat} {c : Condition} (hl : Lost h sink j c) (tasks : List τ) :
    Lost (run step h (tasks.map .advance)) sink j c := by
  induction tasks generalizing h with
  | nil => exact hl
  | cons task tasks ih =>
    refine ih (h := step h (.advance task)) ?_
    rw [step]
    split
    next => exact hl
    next call hcall => exact lost_advance hl hcall

omit [DecidableEq τ] in
theorem Lost.not_converged {sink : Sink} {j : Nat} {c : Condition} (hl : Lost h sink j c) :
    ¬Converged h := fun hconverged =>
  hl.stale (hconverged sink hl.registered c (List.mem_of_getElem? hl.held))

theorem lost_of_not_corrected (hh : Heard h) (hnot : ¬Corrected h (.advance task)) :
    ∃ sink j c, Lost (step h (.advance task)) sink j c := by
  simp only [Corrected, not_forall] at hnot
  obtain ⟨call, d, hcall, hd, hs, j, c, hj, hkey, hshown, hunowed⟩ := hnot
  refine ⟨d.sink, j, c, ?_⟩
  have hstep : step h (.advance task) = h.advance task call := by simp only [step, hcall]
  rw [hstep]
  refine ⟨placed_advance hh.placed hcall, hs, hj, ?_, fun u owing hu howes => ?_⟩
  · rw [lastShown_advance_some hd, if_pos ⟨rfl, hkey.symm⟩]
    exact fun heq => hshown (Option.some.inj heq).symm
  · exact hunowed ⟨u, owing, hu, howes⟩

-- In a run in which every stale sink call is still to be corrected, the sinks
-- have heard what the table holds whenever all calls have returned. After one
-- that is not, they have not, however the calls under way are finished.
theorem sinks_converge (inputs : List (Input τ)) :
    (Along step Corrected (start : Registry K τ) inputs →
        Always step (fun h => AllReturned h → Converged h) (start : Registry K τ) inputs) ∧
      ∀ task, Along step Corrected (start : Registry K τ) inputs →
        ¬Corrected (run step (start : Registry K τ) inputs) (.advance task) →
        ∀ tasks : List τ,
          ¬Converged (run step (start : Registry K τ)
            (inputs ++ .advance task :: tasks.map .advance)) := by
  have hheard (hcorrected : Along step Corrected (start : Registry K τ) inputs) :
      Always step Heard (start : Registry K τ) inputs :=
    always_of_along (P := Heard) (fun _ input hh hc => heard_step hh input hc) heard_start
      hcorrected
  refine ⟨fun hcorrected => ?_, fun task hcorrected hnot tasks => ?_⟩
  · exact (hheard hcorrected).imp fun _ hh => hh.converged
  · obtain ⟨sink, j, c, hlost⟩ := lost_of_not_corrected (hheard hcorrected).last hnot
    have hrun : run step (start : Registry K τ) (inputs ++ .advance task :: tasks.map .advance) =
        run step (step (run step start inputs) (.advance task)) (tasks.map .advance) := by
      rw [run, List.foldl_append]
      rfl
    rw [hrun]
    exact (lost_run hlost tasks).not_converged

-- Two tasks report on one key: the alarm is stored first and told last.
def crossedInputs : List (Input Bool) :=
  [ .addSink false ⟨1, 0⟩, .advance false,
    .report false (some (lit "link")) 2 (some (lit "down")) 0,
    .report true (some (lit "link")) 0 none 0,
    .advance true, .advance true, .advance true,
    .advance false, .advance false, .advance false ]

theorem cleared_alarm_told_last :
    let h := run step (start : Registry .default Bool) crossedInputs
    AllReturned h ∧ h.sinks = [⟨1, 0⟩] ∧
      h.table.conds = [⟨.print (lit "link"), .normal, .empty, 0⟩] ∧
      lastShown h.deliveries ⟨1, 0⟩ (.print (lit "link")) = some (.alarm, .print (lit "down")) := by
  refine ⟨fun task => ?_, ?_, ?_, ?_⟩
  · cases task <;> decide +kernel
  · decide +kernel
  · decide +kernel
  · decide +kernel

end Espos.Health
