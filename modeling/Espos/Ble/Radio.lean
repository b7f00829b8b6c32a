import Mathlib.Data.List.Basic
import Mathlib.Logic.Function.Basic
import Espos.Lib.Run

-- The scanner of `ble_backend.c` and the holds on it in `ble_gateway.c`: who calls
-- `espos_ble_scan_start` and `espos_ble_scan_stop`, and what the controller is told. A step
-- is one access to what the tasks share.

namespace Espos.Ble

inductive Command where
  | setScanParams
  | startScanning
  | stopScanning
deriving DecidableEq

-- The holders that are told again and again, and hold once.
inductive Holder where
  | portal
  | net
  | update
deriving DecidableEq

-- Where the call is that has `scan_mutex`, of a suspension or a resumption.
inductive HoldPc where
  | idle
  | suspends
  | inhibits
  | checks
  | resumes
  | clears
  | arms
deriving DecidableEq

-- Where a call of `espos_ble_start` or `espos_ble_stop` is; `stop` tells the two callers
-- of `espos_ble_scan_stop` apart. It has `scan_mutex` in `clears` and `arms`.
inductive MainPc where
  | idle
  | clears
  | arms
  | creates
  | inhibits (stop : Bool)
  | checks (stop : Bool)
  | waits
deriving DecidableEq

-- `pending` are the commands that the controller has not answered yet, `gapStarts` that
-- `gap_cb` has found no inhibition and is about to start the scan. `others` counts the
-- other holders that have suspended and not resumed.
structure Scanner where
  running : Bool := false
  suspendCount : Nat := 0
  holds : Holder → Bool := fun _ => false
  others : Nat := 0
  inhibited : Bool := false
  scanning : Bool := false
  pending : List Command := []
  gapStarts : Bool := false
  controller : Bool := false
  hold : HoldPc := .idle
  main : MainPc := .idle

namespace Scanner

-- `ready` is what `espos_ble_start` needs before the scan decision, `ok` whether the
-- gateway task could be created, or has exited in time.
inductive Step where
  | portalHold (up : Bool)
  | netHold (down : Bool)
  | updateHold (running : Bool)
  | suspend
  | resume
  | hold
  | start (ready : Bool)
  | stop
  | main (ok : Bool)
  | gap

def locked (s : Scanner) : Bool :=
  s.hold != .idle || s.main == .clears || s.main == .arms

def issue (s : Scanner) (c : Command) : Scanner :=
  { s with pending := s.pending ++ [c] }

-- The second half of `espos_ble_scan_stop`.
def scanStop (s : Scanner) : Scanner :=
  if s.scanning then s.issue .stopScanning else s

def suspendLocked (s : Scanner) : Scanner :=
  { s with
    suspendCount := s.suspendCount + 1,
    hold := if 0 < s.suspendCount then .idle else .suspends }

def resumeLocked (s : Scanner) : Scanner :=
  if s.suspendCount = 0 then s
  else
    { s with
      suspendCount := s.suspendCount - 1,
      hold := if 0 < s.suspendCount - 1 then .idle else .resumes }

def setHold (s : Scanner) (h : Holder) (up : Bool) : Scanner :=
  if s.locked || s.holds h == up then s
  else
    let s := { s with holds := Function.update s.holds h up }
    if up then s.suspendLocked else s.resumeLocked

def portalHold (s : Scanner) (up : Bool) : Scanner := s.setHold .portal up

def netHold (s : Scanner) (down : Bool) : Scanner := s.setHold .net down

def updateHold (s : Scanner) (running : Bool) : Scanner := s.setHold .update running

def scanSuspend (s : Scanner) : Scanner :=
  if s.locked then s else { s with others := s.others + 1 }.suspendLocked

-- Other holders resume what they have suspended.
def scanResume (s : Scanner) : Scanner :=
  if s.locked || s.others == 0 then s else { s with others := s.others - 1 }.resumeLocked

def holdStep (s : Scanner) : Scanner :=
  match s.hold with
  | .idle => s
  | .suspends => { s with hold := if s.running then .inhibits else .idle }
  | .inhibits => { s with inhibited := true, hold := .checks }
  | .checks => { s.scanStop with hold := .idle }
  | .resumes => { s with hold := if s.running then .clears else .idle }
  | .clears => { s with inhibited := false, hold := .arms }
  | .arms => { s.issue .setScanParams with hold := .idle }

def start (s : Scanner) (ready : Bool) : Scanner :=
  if s.main ≠ .idle ∨ s.locked ∨ s.running ∨ !ready then s
  else { s with running := true, main := if s.suspendCount = 0 then .clears else .creates }

def stop (s : Scanner) : Scanner :=
  if s.main ≠ .idle ∨ !s.running then s
  else { s with running := false, main := .inhibits true }

def mainStep (s : Scanner) (ok : Bool) : Scanner :=
  match s.main with
  | .idle => s
  | .clears => { s with inhibited := false, main := .arms }
  | .arms => { s.issue .setScanParams with main := .creates }
  | .creates =>
    if ok then { s with main := .idle } else { s with running := false, main := .inhibits false }
  | .inhibits stop => { s with inhibited := true, main := .checks stop }
  | .checks stop => { s.scanStop with main := if stop then .waits else .idle }
  -- a task that does not exit in time leaves the gateway running
  | .waits => { s with running := !ok, main := .idle }

-- The Bluetooth task: the controller carries out its oldest command, and `gap_cb` gets the
-- answer.
def gapStep (s : Scanner) : Scanner :=
  if s.gapStarts then { s.issue .startScanning with gapStarts := false }
  else
    match s.pending with
    | [] => s
    | .setScanParams :: rest => { s with pending := rest, gapStarts := !s.inhibited }
    | .startScanning :: rest => { s with pending := rest, controller := true, scanning := true }
    | .stopScanning :: rest => { s with pending := rest, controller := false, scanning := false }

def step (s : Scanner) : Step → Scanner
  | .portalHold up => s.portalHold up
  | .netHold down => s.netHold down
  | .updateHold running => s.updateHold running
  | .suspend => s.scanSuspend
  | .resume => s.scanResume
  | .hold => s.holdStep
  | .start ready => s.start ready
  | .stop => s.stop
  | .main ok => s.mainStep ok
  | .gap => s.gapStep

end Scanner

end Espos.Ble

-- Who holds the radio, and whether the controller scans once it has been told everything.

namespace Espos.Ble

open Espos.Run

-- What the controller does once it has carried out these.
def lastCommand (on : Bool) : List Command → Bool
  | [] => on
  | .setScanParams :: rest => lastCommand on rest
  | .startScanning :: rest => lastCommand true rest
  | .stopScanning :: rest => lastCommand false rest

theorem lastCommand_append (on : Bool) (cs ds : List Command) :
    lastCommand on (cs ++ ds) = lastCommand (lastCommand on cs) ds := by
  induction cs generalizing on with
  | nil => rfl
  | cons c cs ih => cases c <;> exact ih _

theorem lastCommand_eq_false {cs : List Command} (h : .startScanning ∉ cs) :
    lastCommand false cs = false := by
  induction cs with
  | nil => rfl
  | cons c cs ih =>
    have hrest := ih fun hmem => h (List.mem_cons_of_mem c hmem)
    cases c with
    | setScanParams | stopScanning => exact hrest
    | startScanning => exact absurd List.mem_cons_self h

-- A call that is on its way to stop the scanner, or to start it.
def HoldPc.stops : HoldPc → Bool
  | .suspends | .inhibits | .checks => true
  | _ => false

def HoldPc.starts : HoldPc → Bool
  | .resumes | .clears | .arms => true
  | _ => false

-- It has seen the gateway running.
def HoldPc.commits : HoldPc → Bool
  | .clears | .arms => true
  | _ => false

def MainPc.starts : MainPc → Bool
  | .clears | .arms => true
  | _ => false

def MainPc.stops : MainPc → Bool
  | .inhibits _ | .checks _ => true
  | _ => false

def MainPc.checking : MainPc → Bool
  | .checks _ => true
  | _ => false

namespace Scanner

variable {s s' : Scanner}

-- Where the controller ends up if nobody but `gap_cb` goes on.
def settles (s : Scanner) : Bool :=
  s.gapStarts || (!s.inhibited && s.pending.contains .setScanParams) ||
    lastCommand s.controller s.pending

theorem settles_gapStep (s : Scanner) : s.gapStep.settles = s.settles := by
  unfold gapStep settles
  cases hgap : s.gapStarts with
  | true => simp [issue, lastCommand_append, lastCommand]
  | false =>
    cases hpending : s.pending with
    | nil => simp [hgap, hpending]
    | cons c rest =>
      cases c with
      | setScanParams =>
        cases s.inhibited <;> simp [lastCommand]
      | startScanning | stopScanning => simp [lastCommand]

theorem settles_issue_params (s : Scanner) (h : s.inhibited = false) :
    (s.issue .setScanParams).settles = true := by
  simp [settles, issue, h]

-- No start is on its way that a stop would miss.
def StopReaches (s : Scanner) : Prop :=
  s.gapStarts = false ∧ (s.scanning = true ∨ .startScanning ∉ s.pending)

theorem settles_scanStop (hin : s.inhibited = true) (hsame : s.scanning = s.controller)
    (h : StopReaches s) : s.scanStop.settles = false := by
  obtain ⟨hgap, hstop⟩ := h
  unfold scanStop
  by_cases hscanning : s.scanning = true
  · rw [if_pos hscanning]
    simp [settles, issue, hgap, hin, lastCommand_append, lastCommand]
  · rw [if_neg hscanning]
    have hoff : s.controller = false := by simpa [hsame] using hscanning
    simp [settles, hgap, hin, hoff, lastCommand_eq_false (hstop.resolve_left hscanning)]

def flags (s : Scanner) : Nat :=
  (s.holds .portal).toNat + (s.holds .net).toNat + (s.holds .update).toNat

-- How the calls stand to one another and to `running` and the count.
structure Places (s : Scanner) : Prop where
  held : HoldPc.stops s.hold = true → 0 < s.suspendCount
  free : HoldPc.starts s.hold = true → s.suspendCount = 0
  mutex : MainPc.starts s.main = true → s.hold = .idle ∧ s.running = true ∧ s.suspendCount = 0
  stopping : MainPc.stops s.main = true ∨ s.main = .waits → s.running = false
  off : s.running = false → HoldPc.commits s.hold = false

structure Settles (s : Scanner) : Prop where
  same : s.scanning = s.controller
  armed : s.hold = .arms ∨ s.main = .arms → s.inhibited = false
  barred : s.hold = .checks ∨ MainPc.checking s.main = true → s.inhibited = true
  silent : s.running = false → MainPc.stops s.main = false → s.settles = false
  settled : s.running = true → s.hold = .idle → MainPc.starts s.main = false →
    s.settles = decide (s.suspendCount = 0)

structure RadioInv (s : Scanner) : Prop where
  count : s.suspendCount = s.flags + s.others
  places : Places s
  settles : Settles s

-- `espos_ble_scan_stop` is not called behind a start that the controller has not answered,
-- a stop does not come between a resumption's look at `running` and its start, and the
-- gateway task exits in time.
def Careful (s : Scanner) : Step → Prop
  | .hold => s.hold = .checks → StopReaches s
  | .stop => HoldPc.commits s.hold = false
  | .main ok =>
    (MainPc.checking s.main = true → StopReaches s) ∧ (s.main = .waits → ok = true) ∧
      (s.main = .creates → ok = false → HoldPc.commits s.hold = false)
  | _ => True

instance (s : Scanner) : Decidable (StopReaches s) :=
  inferInstanceAs (Decidable (_ ∧ _))

instance (s : Scanner) : (e : Step) → Decidable (Careful s e)
  | .hold => inferInstanceAs (Decidable (_ → _))
  | .stop => inferInstanceAs (Decidable (_ = _))
  | .main _ => inferInstanceAs (Decidable (_ ∧ _))
  | .portalHold _ | .netHold _ | .updateHold _ | .suspend | .resume | .start _ | .gap =>
    .isTrue trivial

theorem locked_eq_false (h : s.locked = false) :
    s.hold = .idle ∧ MainPc.starts s.main = false := by
  unfold locked at h
  cases hmain : s.main <;> simp_all [MainPc.starts]

theorem places_suspendLocked (h : Places s) (hfree : s.locked = false) :
    Places s.suspendLocked := by
  obtain ⟨hidle, hmain⟩ := locked_eq_false hfree
  refine ⟨fun _ => Nat.succ_pos _, fun hstarts => ?_, fun hstart => ?_, h.stopping, fun _ => ?_⟩
  · by_cases hzero : 0 < s.suspendCount <;> simp [suspendLocked, hzero, HoldPc.starts] at hstarts
  · exact absurd (hmain.symm.trans hstart) (by simp)
  · by_cases hzero : 0 < s.suspendCount <;> simp [suspendLocked, hzero, HoldPc.commits]

theorem settles_suspendLocked (h : Settles s) (hfree : s.locked = false) :
    Settles s.suspendLocked := by
  obtain ⟨hidle, hmain⟩ := locked_eq_false hfree
  refine ⟨h.same, ?_, ?_, h.silent, ?_⟩
  · rintro (harms | harms)
    · by_cases hzero : 0 < s.suspendCount <;> simp [suspendLocked, hzero] at harms
    · exact h.armed (.inr harms)
  · rintro (hchecks | hchecks)
    · by_cases hzero : 0 < s.suspendCount <;> simp [suspendLocked, hzero] at hchecks
    · exact h.barred (.inr hchecks)
  · intro hrunning hhold _
    have hpos : 0 < s.suspendCount := by
      by_contra hzero
      simp [suspendLocked, hzero] at hhold
    have hsettled := h.settled hrunning hidle hmain
    show s.settles = decide (s.suspendCount + 1 = 0)
    rw [hsettled]
    simp [Nat.pos_iff_ne_zero.mp hpos]

theorem places_resumeLocked (h : Places s) (hfree : s.locked = false) :
    Places s.resumeLocked := by
  obtain ⟨hidle, hmain⟩ := locked_eq_false hfree
  unfold resumeLocked
  by_cases hnone : s.suspendCount = 0
  · rwa [if_pos hnone]
  · rw [if_neg hnone]
    refine ⟨fun hstops => ?_, fun hstarts => ?_, fun hstart => ?_, h.stopping, fun _ => ?_⟩
    · by_cases hleft : 0 < s.suspendCount - 1 <;> simp [hleft, HoldPc.stops] at hstops
    · by_cases hleft : 0 < s.suspendCount - 1
      · simp [hleft, HoldPc.starts] at hstarts
      · exact Nat.eq_zero_of_not_pos hleft
    · exact absurd (hmain.symm.trans hstart) (by simp)
    · by_cases hleft : 0 < s.suspendCount - 1 <;> simp [hleft, HoldPc.commits]

theorem settles_resumeLocked (h : Settles s) (hfree : s.locked = false) :
    Settles s.resumeLocked := by
  obtain ⟨hidle, hmain⟩ := locked_eq_false hfree
  unfold resumeLocked
  by_cases hnone : s.suspendCount = 0
  · rwa [if_pos hnone]
  · rw [if_neg hnone]
    refine ⟨h.same, ?_, ?_, h.silent, ?_⟩
    · rintro (harms | harms)
      · by_cases hleft : 0 < s.suspendCount - 1 <;> simp [hleft] at harms
      · exact h.armed (.inr harms)
    · rintro (hchecks | hchecks)
      · by_cases hleft : 0 < s.suspendCount - 1 <;> simp [hleft] at hchecks
      · exact h.barred (.inr hchecks)
    · intro hrunning hhold _
      have hleft : 0 < s.suspendCount - 1 := by
        by_contra hzero
        simp [hzero] at hhold
      have hsettled := h.settled hrunning hidle hmain
      show s.settles = decide (s.suspendCount - 1 = 0)
      rw [hsettled, decide_eq_false hnone, decide_eq_false (Nat.pos_iff_ne_zero.mp hleft)]

theorem places_holdStep (h : Places s) : Places s.holdStep := by
  unfold holdStep
  cases hpc : s.hold with
  | idle => exact h
  | suspends =>
    have hpos := h.held (by rw [hpc]; rfl)
    refine ⟨fun _ => hpos, fun hstarts => ?_, fun hstart => ?_, h.stopping, fun hoff => ?_⟩
    · cases hrunning : s.running <;> simp [hrunning, HoldPc.starts] at hstarts
    · simp [(h.mutex hstart).1] at hpc
    · cases hrunning : s.running <;> simp [HoldPc.commits]
  | inhibits =>
    refine ⟨fun _ => h.held (by rw [hpc]; rfl), nofun, fun hstart => ?_, h.stopping,
      fun _ => rfl⟩
    simp [(h.mutex hstart).1] at hpc
  | checks =>
    have hmoved : Places { s with hold := .idle } :=
      ⟨nofun, nofun, fun hstart => ⟨rfl, (h.mutex hstart).2⟩, h.stopping, fun _ => rfl⟩
    by_cases hscanning : s.scanning = true
    · simp only [scanStop, if_pos hscanning]
      exact ⟨nofun, nofun, hmoved.mutex, hmoved.stopping, fun _ => rfl⟩
    · simp only [scanStop, if_neg hscanning]
      exact hmoved
  | resumes =>
    have hzero := h.free (by rw [hpc]; rfl)
    refine ⟨fun hstops => ?_, fun _ => hzero, fun hstart => ?_, h.stopping, fun hoff => ?_⟩
    · cases hrunning : s.running <;> simp [hrunning, HoldPc.stops] at hstops
    · simp [(h.mutex hstart).1] at hpc
    · have hrunning : s.running = false := hoff
      simp [hrunning, HoldPc.commits]
  | clears =>
    refine ⟨nofun, fun _ => h.free (by rw [hpc]; rfl), fun hstart => ?_, h.stopping,
      fun hoff => ?_⟩
    · simp [(h.mutex hstart).1] at hpc
    · have hcommits := h.off hoff
      simp [hpc, HoldPc.commits] at hcommits
  | arms =>
    exact ⟨nofun, nofun, fun hstart => ⟨rfl, (h.mutex hstart).2⟩, h.stopping, fun _ => rfl⟩

-- `scanStop` only adds to the commands.
theorem scanStop_eq (s : Scanner) :
    ∃ pending, s.scanStop = { s with pending } := by
  unfold scanStop
  by_cases hscanning : s.scanning = true
  · exact ⟨s.pending ++ [.stopScanning], by rw [if_pos hscanning]; rfl⟩
  · exact ⟨s.pending, by rw [if_neg hscanning]⟩

theorem settles_of_inhibited (h : s.settles = false) :
    ({ s with inhibited := true }).settles = false := by
  simp only [settles, Bool.or_eq_false_iff] at h ⊢
  exact ⟨⟨h.1.1, rfl⟩, h.2⟩

theorem settles_holdStep (h : Settles s) (hp : Places s) (hc : Careful s .hold) :
    Settles s.holdStep := by
  unfold holdStep
  cases hpc : s.hold with
  | idle => exact h
  | suspends =>
    refine ⟨h.same, ?_, ?_, h.silent, fun hrunning hidle => ?_⟩
    · rintro (harms | harms)
      · cases hrunning : s.running <;> simp [hrunning] at harms
      · exact h.armed (.inr harms)
    · rintro (hchecks | hchecks)
      · cases hrunning : s.running <;> simp [hrunning] at hchecks
      · exact h.barred (.inr hchecks)
    · have hup : s.running = true := hrunning
      simp [hup] at hidle
  | inhibits =>
    refine ⟨h.same, ?_, fun _ => rfl, fun hoff hmain => ?_, fun _ => nofun⟩
    · rintro (harms | harms)
      · exact absurd harms (by simp)
      · have hstart : MainPc.starts s.main = true := by rw [show s.main = .arms from harms]; rfl
        simp [(hp.mutex hstart).1] at hpc
    · exact settles_of_inhibited (h.silent hoff hmain)
  | checks =>
    have hin := h.barred (.inl hpc)
    have hstopped := settles_scanStop hin h.same (hc hpc)
    obtain ⟨pending, heq⟩ := s.scanStop_eq
    rw [heq] at hstopped ⊢
    refine ⟨h.same, ?_, fun _ => hin, fun _ _ => hstopped, fun _ _ _ => ?_⟩
    · rintro (harms | harms)
      · exact absurd harms (by simp)
      · exact h.armed (.inr harms)
    · have hpos := hp.held (by rw [hpc]; rfl)
      exact hstopped.trans (decide_eq_false (Nat.pos_iff_ne_zero.mp hpos)).symm
  | resumes =>
    refine ⟨h.same, ?_, ?_, h.silent, fun hrunning hidle => ?_⟩
    · rintro (harms | harms)
      · cases hrunning : s.running <;> simp [hrunning] at harms
      · exact h.armed (.inr harms)
    · rintro (hchecks | hchecks)
      · cases hrunning : s.running <;> simp [hrunning] at hchecks
      · exact h.barred (.inr hchecks)
    · have hup : s.running = true := hrunning
      simp [hup] at hidle
  | clears =>
    have hrunning : s.running = true := by
      by_contra hoff
      have hcommits := hp.off (by simpa using hoff)
      simp [hpc, HoldPc.commits] at hcommits
    refine ⟨h.same, fun _ => rfl, ?_, fun hoff => ?_, fun _ => nofun⟩
    · rintro (hchecks | hchecks)
      · exact absurd hchecks (by simp)
      · have hstops : MainPc.stops s.main = true := by
          cases hmain : s.main <;> simp_all [MainPc.checking, MainPc.stops]
        simp [hp.stopping (.inl hstops)] at hrunning
    · exact absurd (hrunning.symm.trans hoff) (by simp)
  | arms =>
    have hin := h.armed (.inl hpc)
    have hon : (s.issue .setScanParams).settles = true := settles_issue_params s hin
    refine ⟨h.same, fun _ => hin, ?_, fun hoff => ?_, fun _ _ _ => ?_⟩
    · rintro (hchecks | hchecks)
      · exact absurd hchecks (by simp)
      · exact h.barred (.inr hchecks)
    · have hcommits := hp.off hoff
      simp [hpc, HoldPc.commits] at hcommits
    · have hzero := hp.free (by rw [hpc]; rfl)
      exact hon.trans (decide_eq_true hzero).symm

theorem places_mainStep (h : Places s) (ok : Bool) (hc : Careful s (.main ok)) :
    Places (s.mainStep ok) := by
  unfold mainStep
  cases hpc : s.main with
  | idle => exact h
  | clears =>
    have hmutex := h.mutex (by rw [hpc]; rfl)
    exact ⟨h.held, h.free, fun _ => hmutex, by simp [MainPc.stops], h.off⟩
  | arms => exact ⟨h.held, h.free, nofun, by simp [MainPc.stops], h.off⟩
  | creates =>
    cases ok with
    | true => exact ⟨h.held, h.free, nofun, by simp [MainPc.stops], h.off⟩
    | false => exact ⟨h.held, h.free, nofun, fun _ => rfl, fun _ => hc.2.2 hpc rfl⟩
  | inhibits stop =>
    have hoff := h.stopping (.inl (by rw [hpc]; rfl))
    exact ⟨h.held, h.free, nofun, fun _ => hoff, h.off⟩
  | checks stop =>
    have hoff := h.stopping (.inl (by rw [hpc]; rfl))
    obtain ⟨pending, heq⟩ := s.scanStop_eq
    rw [heq]
    refine ⟨h.held, h.free, fun hstart => ?_, fun _ => hoff, h.off⟩
    cases stop <;> simp [MainPc.starts] at hstart
  | waits =>
    have hoff := h.stopping (.inr hpc)
    obtain rfl := hc.2.1 hpc
    exact ⟨h.held, h.free, nofun, fun _ => rfl, fun _ => h.off hoff⟩

theorem settles_mainStep (h : Settles s) (hp : Places s) (ok : Bool)
    (hc : Careful s (.main ok)) : Settles (s.mainStep ok) := by
  unfold mainStep
  cases hpc : s.main with
  | idle => exact h
  | clears =>
    obtain ⟨hidle, hrunning, _⟩ := hp.mutex (by rw [hpc]; rfl)
    refine ⟨h.same, fun _ => rfl, ?_, fun hoff => ?_, fun _ _ => nofun⟩
    · rintro (hchecks | hchecks)
      · exact absurd (hidle.symm.trans hchecks) (by simp)
      · exact absurd hchecks (by simp [MainPc.checking])
    · exact absurd (hrunning.symm.trans hoff) (by simp)
  | arms =>
    obtain ⟨hidle, hrunning, hzero⟩ := hp.mutex (by rw [hpc]; rfl)
    have hin := h.armed (.inr hpc)
    have hon : (s.issue .setScanParams).settles = true := settles_issue_params s hin
    refine ⟨h.same, fun _ => hin, ?_, fun hoff => ?_, fun _ _ _ => ?_⟩
    · rintro (hchecks | hchecks)
      · exact absurd (hidle.symm.trans hchecks) (by simp)
      · exact absurd hchecks (by simp [MainPc.checking])
    · exact absurd (hrunning.symm.trans hoff) (by simp)
    · exact hon.trans (decide_eq_true hzero).symm
  | creates =>
    have hkeep : ∀ main : MainPc, MainPc.checking main = false → main ≠ .arms →
        (s.hold = .arms ∨ main = .arms → s.inhibited = false) ∧
          (s.hold = .checks ∨ MainPc.checking main = true → s.inhibited = true) := by
      intro main hchecking harms
      refine ⟨?_, ?_⟩
      · rintro (hhold | hmain)
        · exact h.armed (.inl hhold)
        · exact absurd hmain harms
      · rintro (hhold | hmain)
        · exact h.barred (.inl hhold)
        · exact absurd (hchecking.symm.trans hmain) (by simp)
    cases ok with
    | true =>
      obtain ⟨harmed, hbarred⟩ := hkeep .idle rfl (by simp)
      refine ⟨h.same, harmed, hbarred, fun hoff _ => ?_, fun hrunning hidle _ => ?_⟩
      · exact h.silent hoff (by rw [hpc]; rfl)
      · exact h.settled hrunning hidle (by rw [hpc]; rfl)
    | false =>
      obtain ⟨harmed, hbarred⟩ := hkeep (.inhibits false) rfl (by simp)
      exact ⟨h.same, harmed, hbarred, fun _ => nofun, nofun⟩
  | inhibits stop =>
    have hoff := hp.stopping (.inl (by rw [hpc]; rfl))
    refine ⟨h.same, ?_, fun _ => rfl, fun _ => nofun, fun hrunning => ?_⟩
    · rintro (harms | harms)
      · have hcommits := hp.off hoff
        rw [show s.hold = .arms from harms] at hcommits
        exact absurd hcommits (by simp [HoldPc.commits])
      · exact absurd harms (by simp)
    · exact absurd (hoff.symm.trans hrunning) (by simp)
  | checks stop =>
    have hoff := hp.stopping (.inl (by rw [hpc]; rfl))
    have hin := h.barred (.inr (by rw [hpc]; rfl))
    have hstopped := settles_scanStop hin h.same (hc.1 (by rw [hpc]; rfl))
    obtain ⟨pending, heq⟩ := s.scanStop_eq
    rw [heq] at hstopped ⊢
    refine ⟨h.same, ?_, fun _ => hin, fun _ _ => hstopped, fun hrunning => ?_⟩
    · rintro (harms | harms)
      · exact h.armed (.inl harms)
      · cases stop <;> simp at harms
    · exact absurd (hoff.symm.trans hrunning) (by simp)
  | waits =>
    have hoff := hp.stopping (.inr hpc)
    obtain rfl := hc.2.1 hpc
    refine ⟨h.same, ?_, ?_, fun _ _ => h.silent hoff (by rw [hpc]; rfl), nofun⟩
    · rintro (harms | harms)
      · exact h.armed (.inl harms)
      · exact absurd harms (by simp)
    · rintro (hchecks | hchecks)
      · exact h.barred (.inl hchecks)
      · exact absurd hchecks (by simp [MainPc.checking])

theorem radioInv_start (h : RadioInv s) (ready : Bool) : RadioInv (s.start ready) := by
  obtain ⟨hcount, hp, hs⟩ := h
  unfold start
  by_cases hno : s.main ≠ .idle ∨ s.locked ∨ s.running ∨ !ready
  · rw [if_pos hno]
    exact ⟨hcount, hp, hs⟩
  · rw [if_neg hno]
    simp only [not_or, not_not, Bool.not_eq_true] at hno
    obtain ⟨hmain, hfree, hoff, _⟩ := hno
    obtain ⟨hidle, _⟩ := locked_eq_false hfree
    have hsilent := hs.silent hoff (by rw [hmain]; rfl)
    by_cases hzero : s.suspendCount = 0
    · simp only [if_pos hzero]
      refine ⟨hcount, ⟨hp.held, hp.free, fun _ => ⟨hidle, rfl, hzero⟩, by simp [MainPc.stops],
        nofun⟩, ⟨hs.same, ?_, ?_, nofun, fun _ _ => nofun⟩⟩
      · simp [hidle]
      · simp [hidle, MainPc.checking]
    · simp only [if_neg hzero]
      refine ⟨hcount, ⟨hp.held, hp.free, nofun, by simp [MainPc.stops], nofun⟩,
        ⟨hs.same, ?_, ?_, nofun, fun _ _ _ => ?_⟩⟩
      · simp [hidle]
      · simp [hidle, MainPc.checking]
      · exact hsilent.trans (decide_eq_false hzero).symm

theorem radioInv_stop (h : RadioInv s) (hc : Careful s .stop) : RadioInv s.stop := by
  obtain ⟨hcount, hp, hs⟩ := h
  unfold stop
  by_cases hno : s.main ≠ .idle ∨ !s.running
  · rw [if_pos hno]
    exact ⟨hcount, hp, hs⟩
  · rw [if_neg hno]
    simp only [not_or, not_not] at hno
    refine ⟨hcount, ⟨hp.held, hp.free, nofun, fun _ => rfl, fun _ => hc⟩,
      ⟨hs.same, ?_, ?_, fun _ => nofun, nofun⟩⟩
    · rintro (harms | harms)
      · exact hs.armed (.inl harms)
      · exact absurd harms (by simp)
    · rintro (hchecks | hchecks)
      · exact hs.barred (.inl hchecks)
      · exact absurd hchecks (by simp [MainPc.checking])

-- A step of `gap_cb` changes the commands and what the controller does, and nothing else.
theorem gapStep_eq (s : Scanner) :
    ∃ pending gapStarts controller scanning,
      s.gapStep = { s with pending, gapStarts, controller, scanning } ∧
        (s.scanning = s.controller → scanning = controller) := by
  unfold gapStep
  by_cases hgap : s.gapStarts = true
  · rw [if_pos hgap]
    exact ⟨_, _, s.controller, s.scanning, rfl, id⟩
  · rw [if_neg hgap]
    cases s.pending with
    | nil => exact ⟨s.pending, s.gapStarts, s.controller, s.scanning, rfl, id⟩
    | cons c rest =>
      cases c with
      | setScanParams => exact ⟨rest, _, s.controller, s.scanning, rfl, id⟩
      | startScanning => exact ⟨rest, s.gapStarts, true, true, rfl, fun _ => rfl⟩
      | stopScanning => exact ⟨rest, s.gapStarts, false, false, rfl, fun _ => rfl⟩

theorem radioInv_gapStep (h : RadioInv s) : RadioInv s.gapStep := by
  obtain ⟨hcount, hp, hs⟩ := h
  have hsame := s.settles_gapStep
  obtain ⟨pending, gapStarts, controller, scanning, heq, hscan⟩ := s.gapStep_eq
  rw [heq] at hsame ⊢
  refine ⟨hcount, ⟨hp.held, hp.free, hp.mutex, hp.stopping, hp.off⟩,
    ⟨hscan hs.same, hs.armed, hs.barred, ?_, ?_⟩⟩
  · rw [hsame]
    exact hs.silent
  · rw [hsame]
    exact hs.settled

theorem flags_update (s : Scanner) (h : Holder) (up : Bool) (hne : s.holds h ≠ up) :
    ({ s with holds := Function.update s.holds h up }).flags + (!up).toNat =
      s.flags + up.toNat := by
  cases h <;> cases up <;> simp_all [flags] <;> omega

theorem radioInv_setHold (h : RadioInv s) (holder : Holder) (up : Bool) :
    RadioInv (s.setHold holder up) := by
  obtain ⟨hcount, hp, hs⟩ := h
  unfold setHold
  by_cases hno : (s.locked || s.holds holder == up) = true
  · rw [if_pos hno]
    exact ⟨hcount, hp, hs⟩
  · rw [if_neg hno]
    simp only [Bool.or_eq_true, not_or, Bool.not_eq_true, beq_iff_eq] at hno
    obtain ⟨hfree, hne⟩ := hno
    have hflags := s.flags_update holder up hne
    have hfree' : ({ s with holds := Function.update s.holds holder up }).locked = false := hfree
    have hp' : Places { s with holds := Function.update s.holds holder up } :=
      ⟨hp.held, hp.free, hp.mutex, hp.stopping, hp.off⟩
    have hs' : Settles { s with holds := Function.update s.holds holder up } :=
      ⟨hs.same, hs.armed, hs.barred, hs.silent, hs.settled⟩
    cases up with
    | true =>
      refine ⟨?_, places_suspendLocked hp' hfree', settles_suspendLocked hs' hfree'⟩
      simp only [Bool.not_true, Bool.toNat_false, Bool.toNat_true] at hflags
      show s.suspendCount + 1 = flags { s with holds := Function.update s.holds holder true } +
        s.others
      omega
    | false =>
      refine ⟨?_, places_resumeLocked hp' hfree', settles_resumeLocked hs' hfree'⟩
      simp only [Bool.not_false, Bool.toNat_false, Bool.toNat_true] at hflags
      have hpos : s.suspendCount ≠ 0 := by omega
      simp only [Bool.false_eq_true, if_false, resumeLocked, if_neg hpos]
      show s.suspendCount - 1 = flags { s with holds := Function.update s.holds holder false } +
        s.others
      omega

theorem radioInv_scanSuspend (h : RadioInv s) : RadioInv s.scanSuspend := by
  obtain ⟨hcount, hp, hs⟩ := h
  unfold scanSuspend
  by_cases hlocked : s.locked = true
  · rw [if_pos hlocked]
    exact ⟨hcount, hp, hs⟩
  · rw [if_neg hlocked]
    rw [Bool.not_eq_true] at hlocked
    refine ⟨?_, places_suspendLocked ⟨hp.held, hp.free, hp.mutex, hp.stopping, hp.off⟩ hlocked,
      settles_suspendLocked ⟨hs.same, hs.armed, hs.barred, hs.silent, hs.settled⟩ hlocked⟩
    show s.suspendCount + 1 = s.flags + (s.others + 1)
    omega

theorem radioInv_scanResume (h : RadioInv s) : RadioInv s.scanResume := by
  obtain ⟨hcount, hp, hs⟩ := h
  unfold scanResume
  by_cases hno : (s.locked || s.others == 0) = true
  · rw [if_pos hno]
    exact ⟨hcount, hp, hs⟩
  · rw [if_neg hno]
    simp only [Bool.or_eq_true, not_or, Bool.not_eq_true, beq_iff_eq] at hno
    obtain ⟨hfree, hne⟩ := hno
    refine ⟨?_, places_resumeLocked ⟨hp.held, hp.free, hp.mutex, hp.stopping, hp.off⟩ hfree,
      settles_resumeLocked ⟨hs.same, hs.armed, hs.barred, hs.silent, hs.settled⟩ hfree⟩
    have hpos : s.suspendCount ≠ 0 := by omega
    simp only [resumeLocked, if_neg hpos]
    show s.suspendCount - 1 = s.flags + (s.others - 1)
    omega

theorem count_holdStep (h : s.suspendCount = s.flags + s.others) :
    s.holdStep.suspendCount = s.holdStep.flags + s.holdStep.others := by
  unfold holdStep
  obtain ⟨pending, heq⟩ := s.scanStop_eq
  cases s.hold with
  | checks =>
    simp only [heq]
    exact h
  | _ => exact h

theorem count_mainStep (h : s.suspendCount = s.flags + s.others) (ok : Bool) :
    (s.mainStep ok).suspendCount = (s.mainStep ok).flags + (s.mainStep ok).others := by
  unfold mainStep
  obtain ⟨pending, heq⟩ := s.scanStop_eq
  cases s.main with
  | checks stop =>
    simp only [heq]
    exact h
  | creates =>
    cases ok with
    | true => exact h
    | false => exact h
  | _ => exact h

theorem radioInv_step (s : Scanner) (e : Step) (h : RadioInv s) (hc : Careful s e) :
    RadioInv (s.step e) := by
  cases e with
  | portalHold up => exact radioInv_setHold h .portal up
  | netHold down => exact radioInv_setHold h .net down
  | updateHold running => exact radioInv_setHold h .update running
  | suspend => exact radioInv_scanSuspend h
  | resume => exact radioInv_scanResume h
  | hold =>
    exact ⟨count_holdStep h.count, places_holdStep h.places,
      settles_holdStep h.settles h.places hc⟩
  | start ready => exact radioInv_start h ready
  | stop => exact radioInv_stop h hc
  | main ok =>
    exact ⟨count_mainStep h.count ok, places_mainStep h.places ok hc,
      settles_mainStep h.settles h.places ok hc⟩
  | gap => exact radioInv_gapStep h

theorem radioInv_boot : RadioInv {} :=
  ⟨rfl, ⟨nofun, nofun, nofun, fun _ => rfl, fun _ => rfl⟩,
    ⟨rfl, fun _ => rfl, by simp [MainPc.checking], fun _ _ => rfl, nofun⟩⟩

def Unheld (s : Scanner) : Prop :=
  (∀ h, s.holds h = false) ∧ s.others = 0

instance (s : Scanner) : Decidable (Unheld s) :=
  decidable_of_iff
    ((s.holds .portal = false ∧ s.holds .net = false ∧ s.holds .update = false) ∧ s.others = 0)
    (and_congr_left fun _ =>
      ⟨fun h holder => by cases holder <;> simp [h], fun h => ⟨h .portal, h .net, h .update⟩⟩)

theorem unheld_iff (h : s.suspendCount = s.flags + s.others) :
    s.suspendCount = 0 ↔ Unheld s := by
  have hflags : s.flags = 0 ↔ ∀ h, s.holds h = false := by
    constructor
    · intro hzero holder
      unfold flags at hzero
      by_contra hup
      rw [Bool.not_eq_false] at hup
      cases holder <;> simp [hup] at hzero
    · intro hall
      simp [flags, hall]
  unfold Unheld
  rw [← hflags]
  omega

-- With no call in progress and no event outstanding, the controller scans exactly when the
-- gateway runs and nobody holds the radio.
def ScansWhenFree (s : Scanner) : Prop :=
  s.main = .idle → s.hold = .idle → s.pending = [] → s.gapStarts = false →
    (s.controller = true ↔ s.running = true ∧ Unheld s)

instance (s : Scanner) : Decidable (ScansWhenFree s) :=
  inferInstanceAs (Decidable (_ → _ → _ → _ → _))

theorem RadioInv.scansWhenFree (h : RadioInv s) : ScansWhenFree s := by
  intro hmain hhold hpending hgap
  have hcontroller : s.settles = s.controller := by
    simp [Scanner.settles, hpending, hgap, lastCommand]
  rw [← unheld_iff h.count, ← hcontroller]
  cases hrunning : s.running with
  | false => simp [h.settles.silent hrunning (by rw [hmain]; rfl)]
  | true => simp [h.settles.settled hrunning hhold (by rw [hmain]; rfl)]

theorem scans_when_free_of_careful (es : List Step) (h : Along step Careful {} es) :
    Always step ScansWhenFree {} es :=
  (always_of_along radioInv_step radioInv_boot h).imp fun _ hs => hs.scansWhenFree

def gaps (n : Nat) : List Step := List.replicate n .gap

def holdSteps (n : Nat) : List Step := List.replicate n .hold

def mainSteps (n : Nat) : List Step := List.replicate n (.main true)

-- The network comes up, another holder suspends and resumes, the gateway stops.
def inTurn : List Step :=
  [.netHold true, .hold, .start true] ++ mainSteps 1 ++ [.netHold false] ++ holdSteps 3 ++
    gaps 3 ++ [.suspend] ++ holdSteps 3 ++ gaps 1 ++ [.resume] ++ holdSteps 3 ++ gaps 3

theorem scans_when_free_in_turn :
    Always step ScansWhenFree {} (inTurn ++ [.stop] ++ mainSteps 3 ++ gaps 1) ∧
      (run step {} inTurn).controller = true ∧
      (run step {} (inTurn ++ [.stop] ++ mainSteps 3 ++ gaps 1)).controller = false :=
  ⟨scans_when_free_of_careful _ (by decide), by decide, by decide⟩

-- The portal takes the radio between the start command and its answer.
def lateHold : List Step :=
  [.start true] ++ mainSteps 3 ++ gaps 2 ++ [.portalHold true] ++ holdSteps 3 ++ gaps 1

-- The gateway task does not exit in time.
def lateExit : List Step :=
  [.start true] ++ mainSteps 3 ++ gaps 3 ++ [.stop] ++ mainSteps 2 ++ [.main false] ++ gaps 1

-- A stop falls between a resumption's look at `running` and its start.
def lateStart : List Step :=
  [.portalHold true, .hold, .start true] ++ mainSteps 1 ++ [.portalHold false] ++ holdSteps 1 ++
    [.stop] ++ mainSteps 3 ++ holdSteps 2 ++ gaps 3

theorem scans_while_held :
    ¬ ScansWhenFree (run step {} lateHold) ∧ ¬ ScansWhenFree (run step {} lateExit) ∧
      ¬ ScansWhenFree (run step {} lateStart) ∧
      (run step {} lateHold).controller = true ∧ (run step {} lateHold).holds .portal = true ∧
      (run step {} lateExit).controller = false ∧ (run step {} lateExit).running = true ∧
      (run step {} lateStart).controller = true ∧ (run step {} lateStart).running = false := by
  decide

end Scanner

end Espos.Ble
