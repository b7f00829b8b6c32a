import Espos.Lib.Run
import Espos.Wifi.Event

-- `wifi_stall.c` and its use in `espos_wifi.c`: an alarm for a station that has
-- been trying for too long, which restarts the device once for each outage.

namespace Espos.Wifi

open Espos.Run

def stallMinMs : UInt32 := 300000

-- The value of the latch while the alarm is raised or held off.
def stallLatched : UInt32 := 0x5354414c

structure StallIn where
  staEnabled : Bool
  hasNetworks : Bool
  associated : Bool
  otherNetUp : Bool
  portalClients : Int
  suppressed : Bool

def StallIn.trying (i : StallIn) : Bool :=
  i.staEnabled && i.hasNetworks && !i.associated && !i.otherNetUp && i.portalClients ≤ 0 &&
    !i.suppressed

-- When the current run of trying began, 0 for none, and the alarm.
def stallUpdate (sinceMs : UInt32) (i : StallIn) (now stallMs : UInt32) : UInt32 × Bool :=
  if !i.trying || stallMs = 0 then (0, false)
  else if sinceMs = 0 then (if now = 0 then 1 else now, false)
  else (sinceMs, stallMs ≤ now - sinceMs)

-- `wifi.stall_s` in milliseconds, 0 for off.
def loadStallMs (v : Int32) : UInt32 :=
  if v ≤ 0 then 0
  else if v.toUInt32 * 1000 < stallMinMs then stallMinMs else v.toUInt32 * 1000

structure Station where
  sm : Machine
  started : Bool
  -- The machine has been set up since the last reset.
  up : Bool
  sinceMs : UInt32
  stallMs : UInt32
  suppressed : Bool
  alarm : Bool
  pending : Bool
  -- In memory that a reset keeps.
  latch : UInt32

-- The outage is over, or somebody is looking into it.
def relieved (sm : Machine) : Bool :=
  sm.st.state == .connected || 0 < sm.st.portalClients

section Helpers

variable (s : Station)

-- Everything but the latch is as a reset leaves it.
def Station.boot (latch : UInt32) : Station where
  sm := init ⟨false, [], 0, 0, 0, 0, false, 0, false, le_rfl⟩
  started := false
  up := false
  sinceMs := 0
  stallMs := 0
  suppressed := false
  alarm := false
  pending := false
  latch := latch

def stallIn (suppressed : Bool) : StallIn where
  staEnabled := s.sm.started && s.sm.cfg.staEnabled
  hasNetworks := 0 < s.sm.cfg.netCount
  associated := s.sm.st.state == .obtainingIp || s.sm.st.state == .connected
  otherNetUp := s.sm.otherNetUp
  portalClients := s.sm.st.portalClients
  suppressed := suppressed

def queueStallReport (now : UInt32) : Station :=
  let suppressed := if relieved s.sm then false else s.suppressed
  let (sinceMs, alarm) := stallUpdate s.sinceMs (stallIn s suppressed) now s.stallMs
  { s with
    suppressed := suppressed
    sinceMs := sinceMs
    alarm := alarm
    pending := if alarm ≠ s.alarm then true else s.pending
    latch := if alarm || suppressed then stallLatched else 0 }

-- The machine reports a change of its status with the last thing it does in an
-- event, so every report of an event sees the state the event ends in.
def onCall (now : UInt32) (c : Call) (s : Station) : Station :=
  match c with
  | .statusChanged => queueStallReport s now
  | .connect _ _ | .disconnect | .portalStart _ | .portalStop | .armTimer _ | .cancelTimer => s

-- The callers look at `sm_ready` before they take the lock, so a machine that
-- has been stopped in between may still be handed an event.
def handleEvent (port : Port) (ev : Event) : Station :=
  if !s.up then s
  else
    let sm := step s.sm (port, ev)
    sm.calls.foldr (onCall port.now) { s with sm := sm }

-- What `espos_wifi_start` sets up under the lock.
def start (cfg : Cfg) (stallS : Int32) : Station :=
  if s.started then s
  else
    { s with
      sm := init cfg
      started := true
      up := true
      sinceMs := 0
      stallMs := loadStallMs stallS
      suppressed := s.latch == stallLatched }

def stop (port : Port) : Station :=
  if !s.started then s else { handleEvent s port .stop with started := false }

def stallTick (now : UInt32) : Station :=
  if !s.up then s else queueStallReport s now

-- The station connects with something else.
def networksChanged (cfg : Cfg) : Bool :=
  cfg.staEnabled != s.sm.cfg.staEnabled || cfg.netCount != s.sm.cfg.netCount ||
    cfg.nets != s.sm.cfg.nets

-- The part of `cfg_debounce_cb` under the lock; the machine gets the
-- configuration as an event afterwards.
def reload (now : UInt32) (cfg : Cfg) (stallS : Int32) : Station :=
  if !s.up then s
  else
    let s := { s with stallMs := loadStallMs stallS }
    let s := if networksChanged s cfg then { s with sinceMs := 0, suppressed := false } else s
    queueStallReport s now

end Helpers

inductive StallInput where
  | start (cfg : Cfg) (stallS : Int32)
  | stop (port : Port)
  | event (port : Port) (ev : Event)
  | tick (now : UInt32)
  | reload (now : UInt32) (cfg : Cfg) (stallS : Int32)
  | reset

def operate (s : Station) : StallInput → Station
  | .start cfg stallS => start s cfg stallS
  | .stop port => stop s port
  | .event port ev => handleEvent s port ev
  | .tick now => stallTick s now
  | .reload now cfg stallS => reload s now cfg stallS
  | .reset => .boot s.latch

variable {s : Station}

theorem queueStallReport_latch (now : UInt32) : (queueStallReport s now).latch =
    if (queueStallReport s now).alarm || (queueStallReport s now).suppressed then stallLatched
    else 0 := rfl

-- The reports of an event keep whatever a single report keeps.
theorem onCalls_rule {P : Station → Prop} {now : UInt32}
    (hreport : ∀ s, P s → P (queueStallReport s now)) (calls : List Call) (h : P s) :
    P (calls.foldr (onCall now) s) := by
  induction calls with
  | nil => exact h
  | cons c calls ih =>
    cases c with
    | statusChanged => exact hreport _ ih
    | connect | disconnect | portalStart | portalStop | armTimer | cancelTimer => exact ih

-- A raised alarm is latched.
def AlarmLatched (s : Station) : Prop :=
  s.alarm = true → s.latch = stallLatched

theorem alarmLatched_report (now : UInt32) : AlarmLatched (queueStallReport s now) := by
  intro halarm
  rw [queueStallReport_latch, halarm]
  rfl

theorem alarmLatched_event {port : Port} {ev : Event} (h : AlarmLatched s) :
    AlarmLatched (handleEvent s port ev) := by
  unfold handleEvent
  split_ifs
  · exact h
  · refine onCalls_rule (P := AlarmLatched) (fun s _ => alarmLatched_report port.now) _ ?_
    exact h

theorem alarmLatched_operate (h : AlarmLatched s) (input : StallInput) :
    AlarmLatched (operate s input) := by
  cases input with
  | start cfg stallS =>
    simp only [operate, start]
    split_ifs <;> exact h
  | stop port =>
    simp only [operate, stop]
    split_ifs
    · exact h
    · exact alarmLatched_event h
  | event port ev => exact alarmLatched_event h
  | tick now =>
    simp only [operate, stallTick]
    split_ifs
    · exact h
    · exact alarmLatched_report now
  | reload now cfg stallS =>
    simp only [operate, reload]
    split_ifs
    · exact h
    · exact alarmLatched_report now
    · exact alarmLatched_report now
  | reset =>
    intro halarm
    exact absurd halarm Bool.false_ne_true

-- The alarm is held off: the latch says so, and the station has read it if it
-- has been set up since.
structure HeldOff (s : Station) : Prop where
  latch : s.latch = stallLatched
  alarm : s.alarm = false
  suppressed : s.up = true → s.suppressed = true

-- What a report on an unrelieved machine makes of it.
structure HeldUp (sm : Machine) (s : Station) : Prop extends HeldOff s where
  up : s.up = true
  machine : s.sm = sm

theorem heldUp_report {sm : Machine} (h : HeldUp sm s) (hr : relieved sm = false) (now : UInt32) :
    HeldUp sm (queueStallReport s now) := by
  have hs := h.suppressed h.up
  have hsup : (queueStallReport s now).suppressed = true := by
    simp [queueStallReport, h.machine, hr, hs]
  have hupdate : stallUpdate s.sinceMs (stallIn s true) now s.stallMs = (0, false) := by
    simp [stallUpdate, stallIn, StallIn.trying]
  have halarm : (queueStallReport s now).alarm = false := by
    simp [queueStallReport, h.machine, hr, hs, hupdate]
  refine ⟨⟨?_, halarm, fun _ => hsup⟩, h.up, h.machine⟩
  rw [queueStallReport_latch, hsup, Bool.or_true]
  rfl

-- The step neither finds the station connected or a client on the portal, nor
-- does it change what the station connects with.
def Unrelieved (s : Station) (input : StallInput) : Prop :=
  relieved (operate s input).sm = false ∧
    match input with
    | .reload _ cfg _ => networksChanged s cfg = false
    | _ => True

theorem sm_onCalls (now : UInt32) (calls : List Call) :
    (calls.foldr (onCall now) s).sm = s.sm :=
  onCalls_rule (P := fun s' => s'.sm = s.sm) (fun _ h => h) calls rfl

theorem heldOff_event {port : Port} {ev : Event} (h : HeldOff s)
    (hr : relieved (handleEvent s port ev).sm = false) : HeldOff (handleEvent s port ev) := by
  unfold handleEvent at hr ⊢
  by_cases hup : s.up = true
  · rw [if_neg (by simpa using hup)] at hr ⊢
    dsimp only at hr ⊢
    rw [sm_onCalls] at hr
    have hup' : HeldUp (step s.sm (port, ev)) { s with sm := step s.sm (port, ev) } :=
      ⟨⟨h.latch, h.alarm, h.suppressed⟩, hup, rfl⟩
    have hreports := onCalls_rule (P := HeldUp (step s.sm (port, ev)))
      (fun s hs => heldUp_report hs hr port.now) (step s.sm (port, ev)).calls hup'
    exact hreports.toHeldOff
  · rw [if_pos (by simpa using hup)]
    exact h

theorem heldOff_operate (h : HeldOff s) {input : StallInput} (hu : Unrelieved s input) :
    HeldOff (operate s input) := by
  obtain ⟨hr, hnets⟩ := hu
  cases input with
  | start cfg stallS =>
    simp only [operate, start]
    split_ifs
    · exact h
    · exact ⟨h.latch, h.alarm, fun _ => by simp [h.latch]⟩
  | stop port =>
    simp only [operate, stop] at hr ⊢
    split_ifs at hr ⊢
    · exact h
    · have := heldOff_event h hr
      exact ⟨this.latch, this.alarm, this.suppressed⟩
  | event port ev => exact heldOff_event h hr
  | tick now =>
    simp only [operate, stallTick] at hr ⊢
    split_ifs at hr ⊢ with hup
    · exact h
    · have hh : HeldUp s.sm s := ⟨h, by simpa using hup, rfl⟩
      exact (heldUp_report hh hr now).toHeldOff
  | reload now cfg stallS =>
    have hsame : networksChanged { s with stallMs := loadStallMs stallS } cfg = false := hnets
    simp only [operate, reload, hsame, Bool.false_eq_true, if_false] at hr ⊢
    split_ifs at hr ⊢ with hup
    · exact h
    · have hh : HeldUp s.sm { s with stallMs := loadStallMs stallS } :=
        ⟨⟨h.latch, h.alarm, h.suppressed⟩, by simpa using hup, rfl⟩
      exact (heldUp_report hh hr now).toHeldOff
  | reset => exact ⟨h.latch, rfl, fun hup => absurd hup Bool.false_ne_true⟩

-- A reset taken with the alarm raised holds it off, in that boot and in those
-- that follow, until the station has been connected, somebody has joined the
-- portal or the station connects with something else.
theorem one_restart_per_outage (latch : UInt32) (before after : List StallInput)
    (halarm : (run operate (.boot latch) before).alarm = true)
    (hquiet : Along operate Unrelieved (run operate (.boot latch) (before ++ [.reset])) after) :
    Always operate (fun s => s.alarm = false)
      (run operate (.boot latch) (before ++ [.reset])) after := by
  have hlatched : AlarmLatched (run operate (.boot latch) before) :=
    run_invariant (P := AlarmLatched) (fun _ input h => alarmLatched_operate h input)
      (fun h => absurd h Bool.false_ne_true) before
  have hheld : HeldOff (run operate (.boot latch) (before ++ [.reset])) := by
    rw [run, List.foldl_append]
    exact ⟨hlatched halarm, rfl, fun hup => absurd hup Bool.false_ne_true⟩
  have hall := always_of_along (P := HeldOff) (fun _ _ h hu => heldOff_operate h hu) hheld hquiet
  exact hall.imp fun _ h => h.alarm

-- The outage goes on after the restart, and two more of its half hours pass.
theorem one_restart_in_an_hour_and_a_half :
    let setUp := [.start .sample 1800, .event (.granting 1) .start, .tick 1800001]
    let s := run operate (.boot 0) (setUp ++ [.reset])
    (run operate (.boot 0) setUp).alarm = true ∧
      Always operate (fun s => s.alarm = false) s (setUp ++ [.tick 3600001]) := by
  refine ⟨by decide +kernel, one_restart_per_outage 0 _ _ (by decide +kernel) ?_⟩
  simp only [List.cons_append, List.nil_append, Along, Unrelieved, and_true]
  decide +kernel

end Espos.Wifi
