import Espos.Voice.MicTask

-- What a switch of the wake back-end does to the server task. The call ends the wake task
-- through `running_`, which the server task reads too.

namespace Espos.Voice

open Espos.Run Espos.Text

namespace Satellite

-- Between clearing `running_` and putting it back.
def Call.clears : Call → Bool
  | .joins _ _ _ _ | .restores _ _ _ _ | .givesUp _ => true
  | _ => false

-- What a call has read of `running_`.
def Call.Kept : Call → Prop
  | .tearing _ _ was | .switches _ _ was => was = true
  | .joins _ _ was prev | .restores _ _ was prev => was = true ∧ prev = true
  | .givesUp prev => prev = true
  | .idle | .locked _ _ => True

-- On its way out because `running_` was seen false.
def Server.gone : Server → Bool
  | .left | .leaving .notRunning => true
  | _ => false

def Server.polls : Server → Bool
  | .accepting | .polling => true
  | _ => false

-- The server task is in `serve`, no client was dropped for `running_`, and whenever no call
-- is under way the satellite is running.
structure Serving (s : Satellite) : Prop where
  alive : Server.gone s.server = false
  clients : Cause.notRunning ∉ s.ended
  runs : s.call = .idle → s.running = true

-- The server task comes to its loop conditions outside the window of a call.
def Unnoticed (s : Satellite) : Step → Prop
  | .server _ => Server.polls s.server = true → Call.clears s.call = false
  | _ => True

structure CallInv (s : Satellite) : Prop where
  running : s.running = !Call.clears s.call
  kept : Call.Kept s.call

variable {s s' : Satellite}

theorem CallInv.of_eq (h : CallInv s) (hrunning : s'.running = s.running)
    (hcall : s'.call = s.call) : CallInv s' := by
  refine ⟨?_, ?_⟩
  · rw [hrunning, hcall]
    exact h.running
  · rw [hcall]
    exact h.kept

theorem CallInv.runs (h : CallInv s) (hcall : s.call = .idle) : s.running = true := by
  rw [h.running, hcall]
  rfl

-- A step that leaves what a switch is about as it was.
structure Unseen (s s' : Satellite) : Prop where
  running : s'.running = s.running
  call : s'.call = s.call
  ended : s'.ended = s.ended
  alive : Server.gone s'.server = false

theorem Unseen.ite {c : Prop} [Decidable c] {a b : Satellite} (ha : Unseen s a)
    (hb : Unseen s b) : Unseen s (if c then a else b) := by
  by_cases hc : c
  · rwa [if_pos hc]
  · rwa [if_neg hc]

theorem unseen_accept (s : Satellite) : Unseen s s.accept := by
  rcases s.accept_cases with h | h
  · rw [h]
    exact ⟨rfl, rfl, rfl, rfl⟩
  · rw [h]
    exact ⟨rfl, rfl, rfl, rfl⟩

theorem unseen_asked (s : Satellite) (ok : Bool) : Unseen s (s.asked ok) := by
  rcases s.asked_cases ok with h | ⟨conn, _, h⟩
  · rw [h]
    exact ⟨rfl, rfl, rfl, rfl⟩
  · rw [h]
    exact ⟨rfl, rfl, rfl, rfl⟩

theorem unseen_onEvent (h : Server.gone s.server = false) (e : Inbound) :
    Unseen s (s.onEvent e) := by
  cases e with
  | runSatellite | audioStart begun => exact ⟨rfl, rfl, rfl, h⟩
  | pauseSatellite | transcript => exact ⟨rfl, rfl, rfl, rfl⟩
  | audioStop sent | other sent => cases sent <;> exact ⟨rfl, rfl, rfl, rfl⟩

-- The one step that ends a connection apart.
theorem unseen_serverStep (h : Server.gone s.server = false)
    (hpolls : Server.polls s.server = true → s.running = true)
    (hleaving : ∀ cause, s.server ≠ .leaving cause) (i : ServerInput) :
    Unseen s (s.serverStep i) := by
  have hstay : Unseen s s := ⟨rfl, rfl, rfl, h⟩
  unfold serverStep
  cases hpc : s.server with
  | accepting | polling =>
    rw [hpc] at hpolls
    simp only [hpolls rfl]
    exact ⟨(hpolls rfl).symm, rfl, rfl, rfl⟩
  | selecting =>
    cases i with
    | accept => exact s.unseen_accept
    | go | send ok | event e | fed | ends framing => exact ⟨rfl, rfl, rfl, rfl⟩
  | connects | resetsListening | resetsHeld | lifts conn | creates conn | clearing =>
    exact ⟨rfl, rfl, rfl, rfl⟩
  | seesHeld =>
    refine ⟨rfl, rfl, rfl, ?_⟩
    cases s.pttHeld <;> rfl
  | seesListening =>
    refine ⟨rfl, rfl, rfl, ?_⟩
    cases s.listening <;> rfl
  | asks =>
    refine .ite ?_ ⟨rfl, rfl, rfl, rfl⟩
    cases i with
    | send ok => exact s.unseen_asked ok
    | go | accept | event e | fed | ends framing => exact hstay
  | receiving =>
    cases i with
    | event e => exact unseen_onEvent h e
    | fed => exact ⟨rfl, rfl, rfl, rfl⟩
    | ends framing => cases framing <;> exact ⟨rfl, rfl, rfl, rfl⟩
    | go | accept | send ok => exact hstay
  | leaving cause => exact absurd hpc (hleaving cause)
  | joining =>
    refine ⟨rfl, rfl, rfl, ?_⟩
    cases s.micRunning <;> rfl
  | waiting => exact .ite ⟨rfl, rfl, rfl, rfl⟩ hstay
  | closing | forgets | disconnects => exact ⟨rfl, rfl, rfl, rfl⟩
  | left => exact hstay

theorem callInv_callStep (h : CallInv s) (ok : Bool) : CallInv (s.callStep ok) := by
  obtain ⟨hrunning, hkept⟩ := h
  unfold callStep
  cases hcall : s.call with
  | idle => exact ⟨hrunning, hkept⟩
  | locked host port =>
    have htrue : s.running = true := by rw [hrunning, hcall]; rfl
    simp only
    by_cases hsame : (s.running && !s.onDeviceWake && s.wakeHost == host &&
        s.wakePort == port) = true
    · rw [if_pos hsame]
      exact ⟨htrue, trivial⟩
    · rw [if_neg hsame]
      exact ⟨htrue, htrue⟩
  | tearing host port was =>
    rw [hcall] at hkept hrunning
    simp only
    by_cases htask : s.wakeTask = true
    · rw [if_pos htask]
      exact ⟨rfl, hkept, hrunning⟩
    · rw [if_neg htask]
      exact ⟨hrunning, hkept⟩
  | joins host port was prev =>
    simp only
    cases ok with
    | false =>
      rw [hcall] at hkept hrunning
      exact ⟨hrunning, hkept.2⟩
    | true =>
      by_cases hdone : s.wakeDone = true
      · rw [if_pos rfl, if_pos hdone]
        rw [hcall] at hkept hrunning
        exact ⟨hrunning, hkept⟩
      · rw [if_pos rfl, if_neg hdone]
        exact ⟨hrunning, hkept⟩
  | restores host port was prev =>
    rw [hcall] at hkept
    exact ⟨hkept.2, hkept.1⟩
  | givesUp prev =>
    rw [hcall] at hkept
    exact ⟨hkept, trivial⟩
  | switches host port was =>
    rw [hcall] at hrunning
    simp only
    cases was with
    | false => exact ⟨hrunning, trivial⟩
    | true =>
      cases ok with
      | true => exact ⟨hrunning, trivial⟩
      | false => exact ⟨hrunning, trivial⟩

theorem unseen_sendFrame (h : Server.gone s.server = false) (m : Mic) (ok : Bool) :
    Unseen s (s.sendFrame m ok) := by
  rcases s.sendFrame_cases m ok with heq | ⟨on, _, heq⟩
  · rw [heq]
    exact ⟨rfl, rfl, rfl, h⟩
  · rw [heq]
    exact ⟨rfl, rfl, rfl, h⟩

theorem Unseen.setMic (h : Unseen s s') (k : Nat) (m : Mic) (pc : MicPc) :
    Unseen s (s'.setMic k m pc) :=
  ⟨h.running, h.call, h.ended, h.alive⟩

theorem unseen_micStep (h : Server.gone s.server = false) (k : Nat) (m : Mic) (i : MicInput) :
    Unseen s (s.micStep k m i) := by
  have hstay : Unseen s s := ⟨rfl, rfl, rfl, h⟩
  have hsend := unseen_sendFrame h m i.sent
  unfold micStep
  cases m.pc with
  | opening => exact .ite (hsend.setMic k m _) (hstay.setMic k m _)
  | created | looksListening | looksRunning | looksConnected | clears | marks | gives =>
    exact ⟨rfl, rfl, rfl, h⟩
  | sending | ending => exact hsend.setMic k m _

theorem unseen_wakeStep (h : Server.gone s.server = false) (invalidHost : Bool) :
    Unseen s (s.wakeStep invalidHost) := by
  unfold wakeStep
  cases s.wake with
  | gone | exiting => exact ⟨rfl, rfl, rfl, h⟩
  | looping => exact .ite ⟨rfl, rfl, rfl, h⟩ ⟨rfl, rfl, rfl, h⟩

theorem unseen_mic (h : Server.gone s.server = false) (k : Nat) (i : MicInput) :
    Unseen s (s.step (.mic k i)) := by
  cases hk : s.mics[k]? with
  | some m =>
    simp only [step, hk]
    exact unseen_micStep h k m i
  | none =>
    simp only [step, hk]
    exact ⟨rfl, rfl, rfl, h⟩

theorem callInv_step (s : Satellite) (e : Step) (h : CallInv s) (hs : Serving s) :
    CallInv (s.step e) := by
  cases e with
  | server i =>
    show CallInv (s.serverStep i)
    by_cases hpolls : Server.polls s.server = true → s.running = true
    · cases hpc : s.server with
      | leaving cause =>
        simp only [serverStep, hpc]
        exact h.of_eq rfl rfl
      | _ =>
        have hunseen := unseen_serverStep hs.alive hpolls (by simp [hpc]) i
        exact h.of_eq hunseen.running hunseen.call
    · cases hpc : s.server with
      | accepting | polling =>
        simp only [serverStep, hpc]
        exact h.of_eq rfl rfl
      | _ => simp [hpc, Server.polls] at hpolls
  | mic k i =>
    have hunseen := unseen_mic hs.alive k i
    exact h.of_eq hunseen.running hunseen.call
  | ptt held => exact h.of_eq rfl rfl
  | wake invalidHost =>
    have hunseen := unseen_wakeStep hs.alive invalidHost
    exact h.of_eq hunseen.running hunseen.call
  | set host port =>
    simp only [step]
    by_cases hidle : s.call = .idle ∧ host ≠ []
    · rw [if_pos hidle]
      exact ⟨h.runs hidle.1, trivial⟩
    · rw [if_neg hidle]
      exact h
  | call ok => exact callInv_callStep h ok

theorem Serving.of_unseen (h : Serving s) (hunseen : Unseen s s') : Serving s' := by
  refine ⟨hunseen.alive, ?_, ?_⟩
  · rw [hunseen.ended]
    exact h.clients
  · rw [hunseen.call, hunseen.running]
    exact h.runs

theorem gone_of_polls (hpolls : Server.polls s.server = true) (hrunning : s.running = false)
    (i : ServerInput) : Server.gone (s.serverStep i).server = true := by
  cases hpc : s.server with
  | accepting | polling => simp [serverStep, hpc, hrunning, Server.gone]
  | _ => simp [hpc, Server.polls] at hpolls

theorem serving_serverStep (h : Serving s) (hpolls : Server.polls s.server = true →
    s.running = true) (i : ServerInput) : Serving (s.serverStep i) := by
  cases hpc : s.server with
  | leaving cause =>
    have hcause : cause ≠ .notRunning := by
      rintro rfl
      have halive := h.alive
      simp [hpc, Server.gone] at halive
    simp only [serverStep, hpc]
    refine ⟨rfl, ?_, h.runs⟩
    simpa [hcause.symm] using h.clients
  | _ => exact h.of_unseen (unseen_serverStep h.alive hpolls (by simp [hpc]) i)

theorem serving_step_iff (s : Satellite) (e : Step) (hcall : CallInv s) (h : Serving s) :
    Serving (s.step e) ↔ Unnoticed s e := by
  have hnext := callInv_step s e hcall h
  cases e with
  | server i =>
    constructor
    · intro hserving hpolls
      by_contra hclears
      rw [Bool.not_eq_false] at hclears
      have hrunning : s.running = false := by simp [hcall.running, hclears]
      have hgone := gone_of_polls hpolls hrunning i
      have halive : Server.gone (s.serverStep i).server = false := hserving.alive
      simp [hgone] at halive
    · intro hwindow
      refine serving_serverStep h (fun hpolls => ?_) i
      simp [hcall.running, hwindow hpolls]
  | mic k i => exact iff_of_true (h.of_unseen (unseen_mic h.alive k i)) trivial
  | ptt held => exact iff_of_true ⟨h.alive, h.clients, h.runs⟩ trivial
  | wake invalidHost =>
    exact iff_of_true (h.of_unseen (unseen_wakeStep h.alive invalidHost)) trivial
  | set host port =>
    have hsame : SameAudio s (s.step (.set host port)) :=
      .ite ⟨rfl, rfl, rfl, rfl, rfl, rfl, rfl⟩ ⟨rfl, rfl, rfl, rfl, rfl, rfl, rfl⟩
    exact iff_of_true ⟨hsame.server ▸ h.alive, hsame.ended ▸ h.clients, hnext.runs⟩ trivial
  | call ok =>
    have hsame := s.sameAudio_callStep ok
    exact iff_of_true ⟨hsame.server ▸ h.alive, hsame.ended ▸ h.clients, hnext.runs⟩ trivial

theorem callInv_start (onDeviceWake : Bool) (host : CStr) (port : Nat) (ok : Bool) :
    CallInv (start onDeviceWake host port ok) ∧ Serving (start onDeviceWake host port ok) := by
  unfold start
  by_cases h : (!onDeviceWake && !host.isEmpty && ok) = true
  · rw [if_pos h]
    exact ⟨⟨rfl, trivial⟩, rfl, nofun, fun _ => rfl⟩
  · rw [if_neg h]
    exact ⟨⟨rfl, trivial⟩, rfl, nofun, fun _ => rfl⟩

end Satellite

end Espos.Voice
