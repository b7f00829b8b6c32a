import Espos.Lib.Text
import Espos.Update.Exclusion

-- `power_policy.c`: may a device sleep now? The order of the checks is the
-- specification.

namespace Espos.Power

open Espos.Text

def UINT32_MAX : UInt32 := 0xffffffff

-- `espos_power_decision_t`
inductive Decision
  | stay
  | sleep
deriving DecidableEq

-- `espos_power_why_t`
inductive Why
  | off
  | unconfirmed
  | window
  | network
  | stream
  | publishing
  | hold
  | done
  | deadline
  | ota
deriving DecidableEq

-- `espos_power_policy_cfg_t`
structure PolicyCfg where
  windowMs : UInt32
  awakeMaxMs : UInt32
  publishMs : UInt32

-- `espos_power_policy_in_t`
structure PolicyIn where
  enabled : Bool
  timerWake : Bool
  imageUnconfirmed : Bool
  otaBusy : Bool
  netUp : Bool
  netUpForMs : UInt32
  haveStream : Bool
  streamConnected : Bool
  streamUpForMs : UInt32
  uptimeMs : UInt32
  holds : UInt32
deriving DecidableEq

def Why.decided (w : Why) : Decision :=
  if w = .done ∨ w = .deadline then .sleep else .stay

-- Saturates instead of wrapping.
def policyDeadlineMs (cfg : PolicyCfg) (timerWake : Bool) : UInt32 :=
  if timerWake then cfg.awakeMaxMs
  else if UINT32_MAX - cfg.awakeMaxMs < cfg.windowMs then UINT32_MAX
  else cfg.windowMs + cfg.awakeMaxMs

def policyWhy (cfg : PolicyCfg) (i : PolicyIn) : Why :=
  if !i.enabled then .off
  else if i.imageUnconfirmed then .unconfirmed
  else if i.otaBusy then .ota
  else if !i.timerWake && decide (i.uptimeMs < cfg.windowMs) then .window
  else if policyDeadlineMs cfg i.timerWake ≤ i.uptimeMs then .deadline
  else if !i.netUp then .network
  else if i.haveStream && !i.streamConnected then .stream
  else if (if i.haveStream then i.streamUpForMs else i.netUpForMs) < cfg.publishMs then .publishing
  else if 0 < i.holds then .hold
  else .done

def policyDecide (cfg : PolicyCfg) (i : PolicyIn) : Decision :=
  (policyWhy cfg i).decided

-- What a decision to sleep rests on.
theorem sleep_of_policyDecide {cfg : PolicyCfg} {i : PolicyIn}
    (h : policyDecide cfg i = .sleep) :
    i.imageUnconfirmed = false ∧ i.otaBusy = false ∧
      (policyDeadlineMs cfg i.timerWake ≤ i.uptimeMs ∨ i.holds = 0) := by
  unfold policyDecide policyWhy at h
  by_cases henabled : (!i.enabled) = true
  · rw [if_pos henabled] at h
    cases h
  rw [if_neg henabled] at h
  by_cases himage : i.imageUnconfirmed = true
  · rw [if_pos himage] at h
    cases h
  rw [if_neg himage] at h
  by_cases hota : i.otaBusy = true
  · rw [if_pos hota] at h
    cases h
  rw [if_neg hota] at h
  refine ⟨by simpa using himage, by simpa using hota, ?_⟩
  by_contra hnot
  rw [not_or] at hnot
  obtain ⟨hdeadline, hholds⟩ := hnot
  have hpos : 0 < i.holds := UInt32.pos_iff_ne_zero.mpr hholds
  rw [if_neg hdeadline, if_pos hpos] at h
  -- each of the checks that are left keeps the device awake
  by_cases hwindow : (!i.timerWake && decide (i.uptimeMs < cfg.windowMs)) = true
  · rw [if_pos hwindow] at h
    cases h
  rw [if_neg hwindow] at h
  by_cases hnet : (!i.netUp) = true
  · rw [if_pos hnet] at h
    cases h
  rw [if_neg hnet] at h
  by_cases hstream : (i.haveStream && !i.streamConnected) = true
  · rw [if_pos hstream] at h
    cases h
  rw [if_neg hstream] at h
  by_cases hready : (if i.haveStream then i.streamUpForMs else i.netUpForMs) < cfg.publishMs
  · rw [if_pos hready] at h
    cases h
  rw [if_neg hready] at h
  cases h

end Espos.Power

-- `espos_power.c`: the task that samples, decides and sleeps, on a device with
-- its updates, its holds and the time.

namespace Espos.Power

open Espos.Text
open Espos.Update (Build Sys)

-- What the getters of the `power` namespace answer.
structure Settings where
  mode : Option CStr
  intervalS : Option Int32
  flushMs : Option Int32
  windowS : Option Int32
  awakeMaxS : Option Int32
  publishMs : Option Int32

def cfgU32 (v : Option Int32) (fallback : UInt32) : UInt32 :=
  match v with
  | some v => if 0 ≤ v then v.toUInt32 else fallback
  | none => fallback

-- Where the power task is. It is about to do what the place is named after.
inductive PowerPc
  | absent
  | loads
  | samples
  | countsHolds (i : PolicyIn)
  | asksOta (i : PolicyIn)
  | countsQueue (i : PolicyIn)
  | asksCoproc (i : PolicyIn)
  | decides (i : PolicyIn)
  | goes
  | flushes (awakeMs : UInt32)
  | graces (awakeMs : UInt32)
  | saves (awakeMs : UInt32)
  | sleeps
  | delays
  | asleep
deriving DecidableEq

-- `s` of espos_power.c, without the snapshot for the status.
structure Cycle where
  pc : PowerPc
  holds : UInt32
  cfgDirty : Bool
  enabled : Bool
  intervalS : UInt32
  flushMs : UInt32
  cfg : PolicyCfg
  timerWake : Bool
  wakeCount : UInt32
  lastAwakeMs : UInt32
  unconfirmed : Bool
  netWasUp : Bool
  netUpSinceMs : UInt32
  streamWasUp : Bool
  streamUpSinceMs : UInt32
  simSlept : Bool

structure Device where
  sys : Sys
  -- milliseconds since the boot
  time : Nat
  settings : Settings
  -- the boot is a wake from deep sleep by its timer, and what RTC memory holds
  timerWake : Bool
  rtc : UInt32 × UInt32
  power : Cycle
  -- Not in the code: the holds that are taken and not released, by their
  -- numbers; the next number; the next one when the holds were last counted; and
  -- whether an update of either kind began since it was last asked after.
  held : List Nat
  nextHold : Nat
  mark : Nat
  installedSince : Bool
  updatedSince : Bool

-- What a step of the power task finds outside: the network, the stream, and
-- whether the platform can sleep.
structure PowerIn where
  netUp : Bool
  haveStream : Bool
  connected : Bool
  canSleep : Bool

inductive Event
  | update (e : Update.Event)
  | start
  | power (i : PowerIn)
  | hold
  | release (h : Nat)
  | configure (settings : Settings)
  | passes (ms : Nat)
  | boots (timerWake pendingVerify : Bool)

-- An install is claimed, in progress, or waits for its reboot.
def installing (s : Sys) : Bool :=
  s.ota.downloading || decide (s.ota = .reboots)

def updating (s : Sys) : Bool :=
  decide (s.update ≠ .none)

namespace Cycle

def boot : Cycle where
  pc := .absent
  holds := 0
  cfgDirty := false
  enabled := false
  intervalS := 0
  flushMs := 0
  cfg := ⟨0, 0, 0⟩
  timerWake := false
  wakeCount := 0
  lastAwakeMs := 0
  unconfirmed := false
  netWasUp := false
  netUpSinceMs := 0
  streamWasUp := false
  streamUpSinceMs := 0
  simSlept := false

def goOn (p : Cycle) (pc : PowerPc) : Cycle :=
  { p with pc := pc }

def loadCfg (p : Cycle) (c : Settings) : Cycle :=
  { p with
    enabled := c.mode.getD (lit "off") == lit "cycle"
    intervalS := cfgU32 c.intervalS 300
    flushMs := cfgU32 c.flushMs 3000
    cfg :=
      { windowMs := cfgU32 c.windowS 300 * 1000
        awakeMaxMs := cfgU32 c.awakeMaxS 30 * 1000
        publishMs := cfgU32 c.publishMs 1500 } }

def reload (p : Cycle) (c : Settings) : Cycle :=
  if p.cfgDirty then { p.loadCfg c with cfgDirty := false, simSlept := false } else p

-- The platform refused to sleep: stop deciding.
def refused (p : Cycle) : Cycle :=
  { p with simSlept := true }

-- The network, the stream and the image are looked at, in that order.
def sample (p : Cycle) (now : UInt32) (pendingVerify : Bool) (i : PowerIn) : Cycle :=
  { p with
    netUpSinceMs := if i.netUp && !p.netWasUp then now else p.netUpSinceMs
    netWasUp := i.netUp
    streamUpSinceMs := if i.connected && !p.streamWasUp then now else p.streamUpSinceMs
    streamWasUp := i.connected
    unconfirmed := p.unconfirmed && pendingVerify }

-- What the policy is asked, as far as it is known before the holds and the
-- updates are looked at.
def policyIn (p : Cycle) (now : UInt32) (i : PowerIn) : PolicyIn where
  enabled := p.enabled && !p.simSlept
  timerWake := p.timerWake
  imageUnconfirmed := p.unconfirmed
  otaBusy := false
  netUp := i.netUp
  netUpForMs := if i.netUp then now - p.netUpSinceMs else 0
  haveStream := i.haveStream
  streamConnected := i.connected
  streamUpForMs := if i.connected then now - p.streamUpSinceMs else 0
  uptimeMs := now
  holds := 0

end Cycle

namespace Device

def boot (settings : Settings) (rtc : UInt32 × UInt32) (timerWake pendingVerify : Bool) :
    Device where
  sys := .boot pendingVerify
  time := 0
  settings := settings
  timerWake := timerWake
  rtc := rtc
  power := .boot
  held := []
  nextHold := 0
  mark := 0
  installedSince := false
  updatedSince := false

-- `espos_power_port_uptime_ms`
def uptimeMs (d : Device) : UInt32 :=
  UInt32.ofNat d.time

def deadlineMs (d : Device) : UInt32 :=
  policyDeadlineMs d.power.cfg d.power.timerWake

def setPower (d : Device) (p : Cycle) : Device :=
  { d with power := p }

def goOn (d : Device) (pc : PowerPc) : Device :=
  d.setPower (d.power.goOn pc)

def setMark (d : Device) : Device :=
  { d with mark := d.nextHold }

def askInstall (d : Device) : Device :=
  { d with installedSince := false }

def askUpdate (d : Device) : Device :=
  { d with updatedSince := false }

def rtcSave (d : Device) (wakeCount awakeMs : UInt32) : Device :=
  { d with rtc := (wakeCount, awakeMs) }

-- `espos_power_start`
def start (d : Device) : Device :=
  match d.power.pc with
  | .absent =>
    d.setPower
      { d.power.loadCfg d.settings with
        pc := .loads
        timerWake := d.timerWake
        wakeCount := if d.timerWake then d.rtc.1 else 0
        lastAwakeMs := if d.timerWake then d.rtc.2 else 0
        unconfirmed := d.sys.pendingVerify }
  | _ => d

def powerStep (d : Device) (i : PowerIn) : Device :=
  match d.power.pc with
  | .absent | .asleep => d
  | .loads =>
    let p := d.power.reload d.settings
    d.setPower (p.goOn (if p.simSlept then .delays else .samples))
  | .samples =>
    let p := d.power.sample d.uptimeMs d.sys.pendingVerify i
    d.setPower (p.goOn (.countsHolds (p.policyIn d.uptimeMs i)))
  | .countsHolds q => d.setMark.goOn (.asksOta { q with holds := d.power.holds })
  -- `espos_ota_busy`: no lock, then the state, then the queue
  | .asksOta q =>
    d.askInstall.goOn
      (if !d.sys.lock then .asksCoproc q
      else if d.sys.state.busy || d.sys.rollingBack then .decides { q with otaBusy := true }
      else .countsQueue q)
  | .countsQueue q =>
    d.goOn (if d.sys.queue = [] then .asksCoproc q else .decides { q with otaBusy := true })
  | .asksCoproc q => d.askUpdate.goOn (.decides { q with otaBusy := d.sys.running })
  | .decides q => d.goOn (if policyDecide d.power.cfg q = .sleep then .goes else .delays)
  | .goes =>
    d.goOn (if 0 < d.power.flushMs ∧ i.connected then .flushes d.uptimeMs else .saves d.uptimeMs)
  | .flushes awakeMs => d.goOn (.graces awakeMs)
  | .graces awakeMs => d.goOn (.saves awakeMs)
  | .saves awakeMs => (d.rtcSave (d.power.wakeCount + 1) awakeMs).goOn .sleeps
  | .sleeps => if i.canSleep then d.goOn .asleep else d.setPower (d.power.refused.goOn .delays)
  | .delays => d.goOn .loads

def setSys (d : Device) (s : Sys) : Device :=
  { d with
    sys := s
    installedSince := d.installedSince || (!installing d.sys && installing s)
    updatedSince := d.updatedSince || (!updating d.sys && updating s) }

def hold (d : Device) : Device :=
  { d with
    power := { d.power with holds := d.power.holds + 1 }
    held := d.nextHold :: d.held
    nextHold := d.nextHold + 1 }

-- A hold is released by who took it.
def release (d : Device) (h : Nat) : Device :=
  if h ∈ d.held then
    { d with
      power := { d.power with
        holds := if 0 < d.power.holds then d.power.holds - 1 else d.power.holds }
      held := d.held.erase h }
  else d

def configure (d : Device) (settings : Settings) : Device :=
  { d with settings := settings, power := { d.power with cfgDirty := true } }

def passes (d : Device) (ms : Nat) : Device :=
  { d with time := d.time + ms }

def reboot (d : Device) (timerWake pendingVerify : Bool) : Device :=
  .boot d.settings d.rtc timerWake pendingVerify

def act (B : Build) (d : Device) : Event → Device
  | .update (.restart pendingVerify) => d.reboot false pendingVerify
  | .update e => d.setSys (Update.step B d.sys e)
  | .start => d.start
  | .power i => d.powerStep i
  | .hold => d.hold
  | .release h => d.release h
  | .configure settings => d.configure settings
  | .passes ms => d.passes ms
  | .boots timerWake pendingVerify => d.reboot timerWake pendingVerify

-- A device that sleeps does nothing but wake.
def wake (d : Device) : Event → Device
  | .boots timerWake pendingVerify => d.reboot timerWake pendingVerify
  | _ => d

end Device

def step (B : Build) (d : Device) (e : Event) : Device :=
  if d.power.pc = .asleep then d.wake e else d.act B e

end Espos.Power
