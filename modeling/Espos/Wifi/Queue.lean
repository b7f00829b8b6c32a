import Espos.Lib.Lists
import Espos.Lib.Ring
import Espos.Lib.Run
import Espos.Wifi.PortalCalls

-- The driver calls of `espos_wifi.c`. The machine does not call the driver: it
-- queues an action under the lock, and a task of its own runs the queue.

namespace Espos.Wifi

open Espos.Run Espos.Recent

inductive Action where
  | connect (net : Net)
  | disconnect
  | portalStart
  | portalStop
deriving DecidableEq

def Action.portal : Action → Bool
  | .portalStart | .portalStop => true
  | .connect _ | .disconnect => false

def Action.radio : Action → Bool
  | .connect _ | .disconnect => true
  | .portalStart | .portalStop => false

-- A queued action, with the generations it was queued in.
structure Queued where
  action : Action
  radioGen : UInt32
  portalGen : UInt32
deriving DecidableEq

def maxActions : Nat := 8

structure Driver where
  sm : Machine
  actions : Ring Queued maxActions
  radioGen : UInt32
  portalGen : UInt32
  -- History only, nothing below reads it: what the machine asked for and what
  -- the driver ran, the oldest first.
  issued : List Action
  ran : List Action

def boot (cfg : Cfg) : Driver where
  sm := init cfg
  actions := .empty ⟨.disconnect, 0, 0⟩ (by decide)
  radioGen := 0
  portalGen := 0
  issued := []
  ran := []

section Helpers

variable (d : Driver)

-- A full queue loses its oldest entry.
def queueAction (a : Action) : Driver :=
  let actions := if d.actions.count = maxActions then d.actions.dropFront else d.actions
  { d with
    actions := actions.pushBack ⟨a, d.radioGen, d.portalGen⟩
    issued := d.issued ++ [a] }

def qConnect (net : Net) : Driver :=
  queueAction { d with radioGen := d.radioGen + 1 } (.connect net)

def qDisconnect : Driver :=
  queueAction { d with radioGen := d.radioGen + 1 } .disconnect

def qPortalStart : Driver :=
  queueAction { d with portalGen := d.portalGen + 1 } .portalStart

def qPortalStop : Driver :=
  queueAction { d with portalGen := d.portalGen + 1 } .portalStop

-- The timer and the clock stay direct.
def handle (c : Call) (d : Driver) : Driver :=
  match c with
  | .connect net _ => qConnect d net
  | .disconnect => qDisconnect d
  | .portalStart _ => qPortalStart d
  | .portalStop => qPortalStop d
  | .armTimer _ | .cancelTimer | .statusChanged => d

end Helpers

-- The deferred calls all answer `ESP_OK`.
def queuePort (now : Readings) (random : UInt32) : Port :=
  ⟨now, random, fun _ _ => true, fun _ => true⟩

-- The calls come newest first, so the fold begins with the oldest.
def dispatch (d : Driver) (now : Readings) (random : UInt32) (ev : Event) : Driver :=
  let sm := step d.sm (queuePort now random, ev)
  sm.calls.foldr handle { d with sm := sm }

-- The oldest action, run by the driver with success or not. A failure is told
-- to the machine unless something it queued since has superseded the action.
def drainAction (d : Driver) (now : Readings) (random : UInt32) (success : Bool) : Driver :=
  match d.actions.popFront with
  | none => d
  | some (q, actions) =>
    let d := { d with actions := actions, ran := d.ran ++ [q.action] }
    if success then d
    else
      match q.action with
      | .connect _ =>
        if d.radioGen = q.radioGen ∧ d.sm.st.state = .connecting then
          dispatch d now random (.staDisconnected (some reasonConnectTimeout))
        else d
      | .portalStart =>
        if d.portalGen = q.portalGen then dispatch d now random .portalFailed else d
      | .disconnect | .portalStop => d

-- What happens while every connect and every portal start succeeds: then nobody
-- reports a portal that failed.
inductive Input where
  | event (now : Readings) (random : UInt32) (ev : Event) (started : ev ≠ .portalFailed)
  | drain (now : Readings) (random : UInt32)

def drive (d : Driver) : Input → Driver
  | .event now random ev _ => dispatch d now random ev
  | .drain now random => drainAction d now random true

-- The actions of an event, the oldest first.
def actionOf : Call → Option Action
  | .connect net _ => some (.connect net)
  | .disconnect => some .disconnect
  | .portalStart _ => some .portalStart
  | .portalStop => some .portalStop
  | .armTimer _ | .cancelTimer | .statusChanged => none

def actionsOf (calls : List Call) : List Action :=
  calls.reverse.filterMap actionOf

def Driver.queue (d : Driver) : List Action :=
  d.actions.toList.map Queued.action

variable {d : Driver}

theorem queue_queueAction (a : Action) :
    (queueAction d a).queue = window maxActions (d.queue ++ [a]) := by
  have hle := d.actions.count_le
  unfold queueAction Driver.queue
  dsimp only
  split_ifs with hfull
  · have hlist := d.actions.toList_dropFront (by rw [hfull]; decide)
    have hroom : d.actions.dropFront.count < maxActions := by
      simp only [Ring.dropFront]
      have : 0 < maxActions := by decide
      omega
    have hlen : d.actions.toList.length = maxActions := by rw [Ring.length_toList, hfull]
    rw [Ring.toList_pushBack _ _ hroom, window, List.length_append, List.length_map, hlen, hlist]
    simp
  · rw [Ring.toList_pushBack _ _ (by omega), window_of_length_le]
    · simp
    · simp only [List.length_append, List.length_map, Ring.length_toList, List.length_singleton]
      omega

theorem actionsOf_cons (c : Call) (calls : List Call) :
    actionsOf (c :: calls) = actionsOf calls ++ (actionOf c).toList := by
  simp only [actionsOf, List.reverse_cons, List.filterMap_append]
  cases h : actionOf c <;> simp [h]

-- What queueing the calls of an event changes.
structure Queues (d d' : Driver) (added : List Action) : Prop where
  sm : d'.sm = d.sm
  ran : d'.ran = d.ran
  issued : d'.issued = d.issued ++ added
  queue : d'.queue = window maxActions (d.queue ++ added)

theorem Queues.action (d : Driver) (radioGen portalGen : UInt32) (a : Action) :
    Queues d (queueAction { d with radioGen := radioGen, portalGen := portalGen } a) [a] :=
  ⟨rfl, rfl, rfl, queue_queueAction a⟩

theorem Queues.trans {d d' d'' : Driver} {added added' : List Action} (h : Queues d d' added)
    (h' : Queues d' d'' added') : Queues d d'' (added ++ added') := by
  refine ⟨h'.sm.trans h.sm, h'.ran.trans h.ran, ?_, ?_⟩
  · rw [h'.issued, h.issued, List.append_assoc]
  · rw [h'.queue, h.queue, window_window_append, List.append_assoc]

theorem length_queue_le (d : Driver) : d.queue.length ≤ maxActions := by
  rw [Driver.queue, List.length_map, Ring.length_toList]
  exact d.actions.count_le

theorem Queues.refl (d : Driver) : Queues d d [] := by
  refine ⟨rfl, rfl, by simp, ?_⟩
  rw [List.append_nil, window_of_length_le (length_queue_le d)]

theorem queues_handle (c : Call) (d : Driver) : Queues d (handle c d) (actionOf c).toList := by
  cases c with
  | connect net _ => exact .action d _ d.portalGen _
  | disconnect => exact .action d _ d.portalGen _
  | portalStart _ => exact .action d d.radioGen _ _
  | portalStop => exact .action d d.radioGen _ _
  | armTimer | cancelTimer | statusChanged => exact .refl d

theorem queues_handles (calls : List Call) (d : Driver) :
    Queues d (calls.foldr handle d) (actionsOf calls) := by
  induction calls with
  | nil => exact .refl d
  | cons c calls ih =>
    rw [actionsOf_cons]
    exact ih.trans (queues_handle c _)

end Espos.Wifi

-- Whether the driver ends up where the machine believes it is.

namespace Espos.Wifi

open Espos.Run Espos.Recent

variable {d d' : Driver}

-- The newest portal action of a history is a start.
def portalUpIn (history : List Action) : Bool :=
  newest Action.portal history == some .portalStart

-- The newest connect or disconnect of a history.
def radioIn (history : List Action) : Option Action :=
  newest Action.radio history

theorem portalUpIn_append_congr {l l' : List Action} (h : portalUpIn l = portalUpIn l')
    (m : List Action) : portalUpIn (l ++ m) = portalUpIn (l' ++ m) := by
  unfold portalUpIn at h ⊢
  rw [newest_append, newest_append]
  cases newest Action.portal m
  · exact h
  · rfl

-- What the driver ran last is what the machine asked for last.
structure Agrees (d : Driver) : Prop where
  portal : portalUpIn d.ran = d.sm.st.portalActive
  radio : radioIn d.ran = radioIn d.issued

-- What is queued still makes up for what the driver has not run.
structure Current (d : Driver) : Prop where
  portal : portalUpIn (d.ran ++ d.queue) = portalUpIn d.issued
  radio : radioIn (d.ran ++ d.queue) = radioIn d.issued

-- The actions the machine issues in one event.
def actionsFor (d : Driver) (now : Readings) (random : UInt32) (ev : Event) : List Action :=
  actionsOf (step d.sm (queuePort now random, ev)).calls

-- The entries a full queue loses to the actions of an event do not matter: with
-- and without them the newest portal action is a start, or is none, and the
-- newest radio action is the same.
def Spares (d : Driver) : Input → Prop
  | .event now random ev _ =>
    let all := d.queue ++ actionsFor d now random ev
    portalUpIn (d.ran ++ window maxActions all) = portalUpIn (d.ran ++ all) ∧
      radioIn (d.ran ++ window maxActions all) = radioIn (d.ran ++ all)
  | .drain _ _ => True

theorem queues_dispatch (d : Driver) (now : Readings) (random : UInt32) (ev : Event) :
    Queues { d with sm := step d.sm (queuePort now random, ev) } (dispatch d now random ev)
      (actionsFor d now random ev) :=
  queues_handles _ _

theorem current_dispatch_iff (h : Current d) (now : Readings) (random : UInt32) (ev : Event)
    (hev : ev ≠ .portalFailed) :
    Current (dispatch d now random ev) ↔ Spares d (.event now random ev hev) := by
  have hq := queues_dispatch d now random ev
  have hissued : (dispatch d now random ev).issued = d.issued ++ actionsFor d now random ev :=
    hq.issued
  have hran : (dispatch d now random ev).ran = d.ran := hq.ran
  have hqueue : (dispatch d now random ev).queue =
      window maxActions (d.queue ++ actionsFor d now random ev) := hq.queue
  have hportal := portalUpIn_append_congr h.portal (actionsFor d now random ev)
  have hradio : radioIn (d.ran ++ d.queue ++ actionsFor d now random ev) =
      radioIn (d.issued ++ actionsFor d now random ev) := newest_append_congr _ h.radio _
  rw [List.append_assoc] at hportal hradio
  constructor
  · intro h'
    have hp := h'.portal
    have hr := h'.radio
    rw [hran, hqueue, hissued] at hp hr
    exact ⟨hp.trans hportal.symm, hr.trans hradio.symm⟩
  · intro hspares
    refine ⟨?_, ?_⟩
    · rw [hran, hqueue, hissued]
      exact hspares.1.trans hportal
    · rw [hran, hqueue, hissued]
      exact hspares.2.trans hradio

-- A drained action only moves from the queue to what the driver ran.
structure Drains (d d' : Driver) : Prop where
  sm : d'.sm = d.sm
  issued : d'.issued = d.issued
  history : d'.ran ++ d'.queue = d.ran ++ d.queue
  queue : d'.queue = d.queue.tail

theorem drains_drainAction (now : Readings) (random : UInt32) :
    Drains d (drainAction d now random true) := by
  unfold drainAction Ring.popFront
  by_cases hempty : d.actions.count = 0
  · have hlist : d.queue = [] := by
      rw [Driver.queue, d.actions.toList_eq_nil_iff.mpr hempty]
      rfl
    rw [if_pos hempty]
    exact ⟨rfl, rfl, rfl, by rw [hlist]; rfl⟩
  · have hlist := d.actions.toList_dropFront hempty
    rw [if_neg hempty]
    refine ⟨rfl, rfl, ?_, ?_⟩
    · simp [Driver.queue, hlist]
    · simp [Driver.queue, hlist]

theorem current_drain_iff (h : Drains d d') : Current d' ↔ Current d := by
  constructor
  · intro hc
    exact ⟨by rw [← h.history, ← h.issued]; exact hc.portal,
      by rw [← h.history, ← h.issued]; exact hc.radio⟩
  · intro hc
    exact ⟨by rw [h.history, h.issued]; exact hc.portal,
      by rw [h.history, h.issued]; exact hc.radio⟩

-- The machine's flag is what it asked for last.
def Believes (d : Driver) : Prop :=
  portalUpIn d.issued = d.sm.st.portalActive

theorem portalUpIn_actionsOf {l : List Action} {active : Bool} {calls : List Call}
    (h : portalUpIn l = active) (hup : ∀ up, .portalStart up ∈ calls → up = true) :
    portalUpIn (l ++ actionsOf calls) = openAfterCalls active calls := by
  induction calls with
  | nil => simpa [actionsOf, openAfterCalls] using h
  | cons c calls ih =>
    have ih := ih fun up hmem => hup up (List.mem_cons_of_mem _ hmem)
    rw [actionsOf_cons, ← List.append_assoc]
    change _ = openAfterCall c (openAfterCalls active calls)
    rw [← ih]
    generalize l ++ actionsOf calls = history
    cases c with
    | portalStart up =>
      rw [hup up (List.mem_cons_self ..)]
      simp [portalUpIn, actionOf, newest_append_singleton, Action.portal, openAfterCall]
    | connect | disconnect | portalStop | armTimer | cancelTimer | statusChanged =>
      simp [portalUpIn, actionOf, newest_append_singleton, Action.portal, openAfterCall]

theorem believes_dispatch (h : Believes d) (now : Readings) (random : UInt32) {ev : Event}
    (hev : ev ≠ .portalFailed) : Believes (dispatch d now random ev) := by
  have hq := queues_dispatch d now random ev
  obtain ⟨new, hcalls, hactive, hanswer⟩ :=
    (follows_event hev : Follows (queuePort now random) (forgetCalls d.sm) _).calls
  have hnew : (step d.sm (queuePort now random, ev)).calls = new := by
    rw [step, hcalls]
    exact List.append_nil new
  have hup : ∀ up, .portalStart up ∈ new → up = true := by
    intro up hmem
    obtain ⟨made, hmade⟩ := hanswer up hmem
    exact hmade
  rw [Believes, hq.issued, hq.sm]
  change _ = (event (queuePort now random) (forgetCalls d.sm) ev).st.portalActive
  rw [hactive, actionsFor, hnew]
  exact portalUpIn_actionsOf h hup

theorem believes_drive (h : Believes d) (input : Input) : Believes (drive d input) := by
  cases input with
  | event now random ev hev => exact believes_dispatch h now random hev
  | drain now random =>
    have hd : Drains d (drive d (.drain now random)) := drains_drainAction now random
    rw [Believes, hd.issued, hd.sm]
    exact h

theorem current_drive_iff (h : Current d) (input : Input) :
    Current (drive d input) ↔ Spares d input := by
  cases input with
  | event now random ev hev => exact current_dispatch_iff h now random ev hev
  | drain now random =>
    have hd : Drains d (drive d (.drain now random)) := drains_drainAction now random
    exact (current_drain_iff hd).trans (iff_of_true h trivial)

-- On an empty queue it is the driver alone that has to agree.
theorem agrees_iff_current (h : Believes d) (hempty : d.queue = []) : Agrees d ↔ Current d := by
  have hran : d.ran ++ d.queue = d.ran := by rw [hempty, List.append_nil]
  constructor
  · intro ha
    exact ⟨by rw [hran, h]; exact ha.portal, by rw [hran]; exact ha.radio⟩
  · intro hc
    have hp := hc.portal
    have hr := hc.radio
    rw [hran] at hp hr
    exact ⟨hp.trans h, hr⟩

theorem believes_boot (cfg : Cfg) : Believes (boot cfg) := rfl

theorem current_boot (cfg : Cfg) : Current (boot cfg) := ⟨rfl, rfl⟩

-- As many drains as the queue can hold entries.
def drainOut (now : Readings) (random : UInt32) : List Input :=
  List.replicate maxActions (.drain now random)

theorem run_drains (now : Readings) (random : UInt32) (n : Nat) :
    let d' := run drive d (List.replicate n (.drain now random))
    d'.queue = d.queue.drop n ∧ (Current d' ↔ Current d) := by
  induction n generalizing d with
  | zero => exact ⟨by simp, Iff.rfl⟩
  | succ n ih =>
    have hd : Drains d (drive d (.drain now random)) := drains_drainAction now random
    obtain ⟨hqueue, hcurrent⟩ := ih (d := drive d (.drain now random))
    refine ⟨?_, hcurrent.trans (current_drain_iff hd)⟩
    rw [List.replicate_succ, run_cons, hqueue, hd.queue, List.drop_tail]

-- In a run in which no overflow costs an action that still matters, the driver
-- agrees with the machine whenever the queue is empty. An overflow that does
-- cost one leaves them apart once the queue has been drained.
theorem driver_agrees (cfg : Cfg) (inputs : List Input) :
    (Along drive Spares (boot cfg) inputs →
        Always drive (fun d => d.queue = [] → Agrees d) (boot cfg) inputs) ∧
      ∀ input now random, Along drive Spares (boot cfg) inputs →
        ¬Spares (run drive (boot cfg) inputs) input →
        let d := run drive (boot cfg) (inputs ++ input :: drainOut now random)
        d.queue = [] ∧ ¬Agrees d := by
  have hkept {inputs : List Input} (h : Along drive Spares (boot cfg) inputs) :
      Always drive (fun d => Believes d ∧ Current d) (boot cfg) inputs := by
    refine always_of_along (P := fun d => Believes d ∧ Current d) (fun d input hd hs => ?_)
      ⟨believes_boot cfg, current_boot cfg⟩ h
    exact ⟨believes_drive hd.1 input, (current_drive_iff hd.2 input).mpr hs⟩
  refine ⟨?_, ?_⟩
  · intro h
    refine (hkept h).imp fun d hd hempty => ?_
    exact (agrees_iff_current hd.1 hempty).mpr hd.2
  · intro input now random h hcost
    obtain ⟨hbelieves, hcurrent⟩ := (hkept h).last
    have hlost : ¬Current (drive (run drive (boot cfg) inputs) input) := fun hc =>
      hcost ((current_drive_iff hcurrent input).mp hc)
    have hrun : run drive (boot cfg) (inputs ++ input :: drainOut now random) =
        run drive (drive (run drive (boot cfg) inputs) input) (drainOut now random) := by
      simp [run, List.foldl_append]
    obtain ⟨hqueue, hiff⟩ := run_drains (d := drive (run drive (boot cfg) inputs) input)
      now random maxActions
    have hempty : (run drive (drive (run drive (boot cfg) inputs) input)
        (drainOut now random)).queue = [] := by
      rw [drainOut, hqueue]
      exact List.drop_eq_nil_of_le (length_queue_le _)
    have hb : Believes (run drive (drive (run drive (boot cfg) inputs) input)
        (drainOut now random)) :=
      run_invariant (P := Believes) (fun _ input h => believes_drive h input)
        (believes_drive hbelieves input) _
    intro d
    change (run drive (boot cfg) (inputs ++ input :: drainOut now random)).queue = [] ∧
      ¬Agrees (run drive (boot cfg) (inputs ++ input :: drainOut now random))
    rw [hrun]
    exact ⟨hempty, fun ha => hlost (hiff.mp ((agrees_iff_current hb hempty).mp ha))⟩

-- Six events while the driver is busy: the access point comes up because no
-- network is configured, and the networks configured next push its start out.
def busyInputs : List Input :=
  [ .event (.still 1) 0 .start nofun,
    .event (.still 2) 0 (.config (.single 97)) nofun,
    .event (.still 3) 0 (.config (.single 98)) nofun,
    .event (.still 4) 0 (.config (.single 97)) nofun,
    .event (.still 5) 0 (.config (.single 98)) nofun,
    .event (.still 6) 0 (.config (.single 97)) nofun ]

theorem portal_start_lost :
    let d := run drive (boot .bare) (busyInputs ++ drainOut (.still 7) 0)
    d.queue = [] ∧ d.sm.st.portalActive = true ∧ portalUpIn d.ran = false := by
  decide +kernel

end Espos.Wifi
