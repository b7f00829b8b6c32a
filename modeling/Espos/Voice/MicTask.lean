import Espos.Voice.Satellite

-- Which mic tasks there are, and which connection their audio goes to.

namespace Espos.Voice

open Espos.Run Espos.Text

namespace Satellite

-- The server has no mic task beside it.
def Server.alone : Server → Bool
  | .accepting | .selecting | .connects | .resetsListening | .resetsHeld | .creates _ => true
  | .closing | .forgets | .disconnects | .left => true
  | _ => false

-- One mic task at most, none when a socket is closed, and every frame on the connection
-- whose `run-pipeline` it answers.
structure AudioSafe (s : Satellite) : Prop where
  one : s.mics.length ≤ 1
  close : s.server = .closing → s.mics = []
  frames : ∀ f ∈ s.sent, f.on = f.conn

def Server.begins : Server → Bool
  | .lifts _ => true
  | _ => false

-- The server task sets `listening_` for a new utterance once the mic task of the last one
-- is gone, and it comes to the join with no mic task, or with one that has set
-- `mic_running_` and with no token of an earlier one.
def Joinable (s : Satellite) : Step → Prop
  | .server _ =>
    (Server.begins s.server = true → s.mics = []) ∧
      (s.server = .joining → s.mics = [] ∨ (s.micRunning = true ∧ s.micDone = false))
  | _ => True

instance (s : Satellite) : (e : Step) → Decidable (Joinable s e)
  | .server _ => inferInstanceAs (Decidable (_ ∧ _))
  | .mic _ _ | .ptt _ | .wake _ | .set _ _ | .call _ => .isTrue trivial

-- `mic_running_` as the one mic task has left it.
def MicPc.running : MicPc → Bool
  | .created | .gives => false
  | _ => true

inductive Ready (s : Satellite) : Prop where
  | idle (hmics : s.mics = []) (hrunning : s.micRunning = false)
      (hwait : s.server = .waiting → s.micDone = true) : Ready s
  | busy (m : Mic) (hmics : s.mics = [m]) (hrunning : s.micRunning = MicPc.running m.pc)
      (hserver : Server.alone s.server = false) (hsock : s.clientSock = some m.conn)
      (hwait : s.server = .waiting → s.micDone = false) : Ready s

structure MicInv (s : Satellite) : Prop where
  ready : Ready s
  frames : ∀ f ∈ s.sent, f.on = f.conn
  asked : ∀ conn, s.server = .lifts conn ∨ s.server = .creates conn → s.clientSock = some conn

variable {s s' : Satellite}

theorem Ready.of_eq (h : Ready s) (hmics : s'.mics = s.mics)
    (hrunning : s'.micRunning = s.micRunning) (hsock : s'.clientSock = s.clientSock)
    (hwait : s'.server ≠ .waiting) (halone : Server.alone s'.server = false ∨ s.mics = []) :
    Ready s' := by
  cases h with
  | idle hnil hrun _ =>
    exact .idle (hmics.trans hnil) (hrunning.trans hrun) fun hw => absurd hw hwait
  | busy m hone hrun _ hconn _ =>
    have hserver := halone.resolve_right (by simp [hone])
    exact .busy m (hmics.trans hone) (hrunning.trans hrun) hserver (hsock.trans hconn)
      fun hw => absurd hw hwait

-- A step of the server task that leaves the mic tasks and the socket alone.
theorem MicInv.move (h : MicInv s) (hmics : s'.mics = s.mics)
    (hrunning : s'.micRunning = s.micRunning) (hsock : s'.clientSock = s.clientSock)
    (hsent : s'.sent = s.sent) (hwait : s'.server ≠ .waiting)
    (halone : Server.alone s'.server = false ∨ s.mics = [])
    (hasked : ∀ conn, s'.server = .lifts conn ∨ s'.server = .creates conn →
      s.clientSock = some conn) : MicInv s' := by
  refine ⟨h.ready.of_eq hmics hrunning hsock hwait halone, ?_, ?_⟩
  · rw [hsent]
    exact h.frames
  · intro conn hserver
    rw [hsock]
    exact hasked conn hserver

theorem MicInv.nil_of_alone (h : MicInv s) (halone : Server.alone s.server = true) :
    s.mics = [] := by
  cases h.ready with
  | idle hnil _ _ => exact hnil
  | busy m _ _ hserver _ _ => simp [halone] at hserver

theorem MicInv.micRunning_eq_false (h : MicInv s) (hnil : s.mics = []) : s.micRunning = false := by
  cases h.ready with
  | idle _ hrunning _ => exact hrunning
  | busy m hone _ _ _ _ => simp [hnil] at hone

theorem accept_cases (s : Satellite) :
    s.accept = { s with server := .accepting } ∨
      s.accept = { s with clientSock := some s.accepted, accepted := s.accepted + 1,
                          server := .connects } := by
  unfold accept
  by_cases h : s.clientConnected = true
  · exact .inl (if_pos h)
  · exact .inr (if_neg h)

theorem asked_cases (s : Satellite) (ok : Bool) :
    s.asked ok = { s with server := .receiving } ∨
      ∃ conn, s.clientSock = some conn ∧ s.asked ok = { s with server := .lifts conn } := by
  unfold asked
  cases hsock : s.clientSock with
  | none =>
    left
    simp
  | some conn =>
    cases ok with
    | false =>
      left
      simp
    | true =>
      right
      refine ⟨conn, rfl, ?_⟩
      simp

theorem micInv_onEvent (h : MicInv s) (hpc : s.server = .receiving) (e : Inbound) :
    MicInv (s.onEvent e) := by
  cases e with
  | runSatellite | audioStart begun =>
    exact h.move rfl rfl rfl rfl (by simp [onEvent, hpc]) (by simp [onEvent, hpc, Server.alone])
      (by simp [onEvent, hpc])
  | pauseSatellite | transcript =>
    exact h.move rfl rfl rfl rfl nofun (.inl rfl) (by simp [onEvent])
  | audioStop sent | other sent =>
    cases sent with
    | true => exact h.move rfl rfl rfl rfl nofun (.inl rfl) (by simp [onEvent])
    | false => exact h.move rfl rfl rfl rfl nofun (.inl rfl) (by simp [onEvent])

theorem micInv_serverStep (h : MicInv s) (i : ServerInput) (hj : Joinable s (.server i)) :
    MicInv (s.serverStep i) := by
  have hnil := h.nil_of_alone
  unfold serverStep
  cases hpc : s.server with
  | accepting =>
    rw [hpc] at hnil
    simp only
    cases s.running with
    | true => exact h.move rfl rfl rfl rfl nofun (.inr (hnil rfl)) (by simp)
    | false => exact h.move rfl rfl rfl rfl nofun (.inr (hnil rfl)) (by simp)
  | selecting =>
    rw [hpc] at hnil
    have hstay : MicInv { s with server := .accepting } :=
      h.move rfl rfl rfl rfl nofun (.inr (hnil rfl)) (by simp)
    cases i with
    | accept =>
      rcases s.accept_cases with hacc | hacc
      · exact hacc ▸ hstay
      · show MicInv s.accept
        rw [hacc]
        refine ⟨.idle (hnil rfl) (h.micRunning_eq_false (hnil rfl)) nofun, h.frames, ?_⟩
        simp
    | go | send ok | event e | fed | ends framing => exact hstay
  | connects | resetsListening =>
    rw [hpc] at hnil
    exact h.move rfl rfl rfl rfl nofun (.inr (hnil rfl)) (by simp)
  | resetsHeld => exact h.move rfl rfl rfl rfl nofun (.inl rfl) (by simp)
  | polling =>
    simp only
    cases s.running with
    | true => exact h.move rfl rfl rfl rfl nofun (.inl rfl) (by simp)
    | false => exact h.move rfl rfl rfl rfl nofun (.inl rfl) (by simp)
  | seesHeld =>
    simp only
    cases s.pttHeld with
    | true => exact h.move rfl rfl rfl rfl nofun (.inl rfl) (by simp)
    | false => exact h.move rfl rfl rfl rfl nofun (.inl rfl) (by simp)
  | seesListening =>
    simp only
    cases s.listening with
    | true => exact h.move rfl rfl rfl rfl nofun (.inl rfl) (by simp)
    | false => exact h.move rfl rfl rfl rfl nofun (.inl rfl) (by simp)
  | asks =>
    have hback : MicInv { s with server := .receiving } :=
      h.move rfl rfl rfl rfl nofun (.inl rfl) (by simp)
    simp only
    cases hok : s.armed && !s.streaming with
    | false => exact hback
    | true =>
      cases i with
      | send ok =>
        show MicInv (s.asked ok)
        rcases s.asked_cases ok with hasked | ⟨conn, hsock, hasked⟩
        · exact hasked ▸ hback
        · rw [hasked]
          exact h.move rfl rfl rfl rfl nofun (.inl rfl) (by simp [hsock])
      | go | accept | event e | fed | ends framing => exact h
  | lifts conn =>
    have hmics : s.mics = [] := hj.1 (by rw [hpc]; rfl)
    have hsock := h.asked conn (.inl hpc)
    exact h.move rfl rfl rfl rfl nofun (.inr hmics) (by simp [hsock])
  | creates conn =>
    rw [hpc] at hnil
    have hmics : s.mics = [] := hnil rfl
    refine ⟨.busy ⟨.created, conn⟩ ?_ ?_ rfl (h.asked conn (.inr hpc)) nofun, h.frames, by simp⟩
    · simp only [hmics, List.nil_append]
    · exact h.micRunning_eq_false hmics
  | receiving =>
    cases i with
    | event e => exact micInv_onEvent h hpc e
    | fed | ends framing => exact h.move rfl rfl rfl rfl nofun (.inl rfl) (by simp)
    | go | accept | send ok => exact h
  | clearing | leaving cause => exact h.move rfl rfl rfl rfl nofun (.inl rfl) (by simp)
  | joining =>
    have hjoin := hj.2 hpc
    simp only
    cases h.ready with
    | idle hmics hrunning _ =>
      rw [hrunning]
      exact h.move rfl hrunning.symm rfl rfl nofun (.inr hmics) (by simp)
    | busy m hmics hrunning _ hsock _ =>
      obtain ⟨hset, hdone⟩ := hjoin.resolve_left (by simp [hmics])
      rw [hset]
      refine ⟨.busy m hmics (hset.symm.trans hrunning) rfl hsock fun _ => hdone, h.frames, ?_⟩
      simp
  | waiting =>
    simp only
    cases hdone : s.micDone with
    | false => exact h
    | true =>
      cases h.ready with
      | idle hmics hrunning _ =>
        exact h.move rfl rfl rfl rfl nofun (.inr hmics) (by simp)
      | busy m _ _ _ _ hwait =>
        have hnot := hwait hpc
        simp [hdone] at hnot
  | closing =>
    rw [hpc] at hnil
    exact h.move rfl rfl rfl rfl nofun (.inr (hnil rfl)) (by simp)
  | forgets =>
    rw [hpc] at hnil
    refine ⟨.idle (hnil rfl) (h.micRunning_eq_false (hnil rfl)) nofun, h.frames, ?_⟩
    simp
  | disconnects =>
    rw [hpc] at hnil
    exact h.move rfl rfl rfl rfl nofun (.inr (hnil rfl)) (by simp)
  | left => exact h

variable {k : Nat} {m : Mic}

theorem MicInv.mic (h : MicInv s) (hk : s.mics[k]? = some m) :
    s.micRunning = MicPc.running m.pc ∧ s.clientSock = some m.conn ∧ s.mics = [m] ∧ k = 0 := by
  cases h.ready with
  | idle hnil _ _ => simp [hnil] at hk
  | busy m' hone hrunning _ hsock _ =>
    rw [hone] at hk
    cases k with
    | zero =>
      obtain rfl : m' = m := by simpa using hk
      exact ⟨hrunning, hsock, hone, rfl⟩
    | succ k => simp at hk

-- A state that differs in the mic task's place and in what it has set.
theorem MicInv.moveMic (h : MicInv s) (hk : s.mics[k]? = some m) (pc : MicPc) (running : Bool)
    (hrunning : running = MicPc.running pc) (listening : Bool) :
    MicInv { s with
      micRunning := running, listening := listening, mics := s.mics.set k { m with pc } } := by
  cases h.ready with
  | idle hnil _ _ => simp [hnil] at hk
  | busy m' hone _ hserver hsock hwait =>
    obtain ⟨_, hconn, hmics, rfl⟩ := h.mic hk
    refine ⟨.busy { m with pc } ?_ hrunning hserver hconn hwait, h.frames, h.asked⟩
    simp [hmics]

theorem MicInv.setMic (h : MicInv s) (hk : s.mics[k]? = some m) (pc : MicPc)
    (hrunning : s.micRunning = MicPc.running pc) : MicInv (s.setMic k m pc) :=
  h.moveMic hk pc s.micRunning hrunning s.listening

theorem sendFrame_cases (s : Satellite) (m : Mic) (ok : Bool) :
    s.sendFrame m ok = s ∨
      ∃ on, s.clientSock = some on ∧
        s.sendFrame m ok = { s with sent := ⟨m.conn, on⟩ :: s.sent } := by
  unfold sendFrame
  cases hsock : s.clientSock with
  | none => exact .inl rfl
  | some on =>
    cases ok with
    | false => exact .inl rfl
    | true => exact .inr ⟨on, rfl, by simp⟩

-- Its frame goes to the connection it is for, and its place stays.
theorem MicInv.sendFrame (h : MicInv s) (hk : s.mics[k]? = some m) (ok : Bool) :
    MicInv (s.sendFrame m ok) ∧ (s.sendFrame m ok).mics = s.mics ∧
      (s.sendFrame m ok).micRunning = s.micRunning := by
  obtain ⟨_, hconn, _, _⟩ := h.mic hk
  rcases s.sendFrame_cases m ok with heq | ⟨on, hon, heq⟩
  · rw [heq]
    exact ⟨h, rfl, rfl⟩
  · rw [heq]
    refine ⟨⟨?_, ?_, h.asked⟩, rfl, rfl⟩
    · cases h.ready with
      | idle hnil hrun hwait => exact .idle hnil hrun hwait
      | busy m' hone hrun hserver hsock hwait => exact .busy m' hone hrun hserver hsock hwait
    · intro f hf
      rcases List.mem_cons.mp hf with rfl | hf
      · exact Option.some.inj (hon.symm.trans hconn)
      · exact h.frames f hf

theorem MicInv.sendFrame_setMic (h : MicInv s) (hk : s.mics[k]? = some m) (ok : Bool) (pc : MicPc)
    (hrunning : s.micRunning = MicPc.running pc) : MicInv ((s.sendFrame m ok).setMic k m pc) := by
  obtain ⟨hsent, hmics, hsame⟩ := h.sendFrame hk ok
  exact hsent.setMic (hmics ▸ hk) pc (hsame.trans hrunning)

theorem MicPc.running_ite {c : Prop} [Decidable c] {a b : MicPc} (ha : MicPc.running a = true)
    (hb : MicPc.running b = true) : MicPc.running (if c then a else b) = true := by
  by_cases hc : c
  · rw [if_pos hc, ha]
  · rw [if_neg hc, hb]

theorem micInv_micStep (h : MicInv s) (hk : s.mics[k]? = some m) (i : MicInput) :
    MicInv (s.micStep k m i) := by
  obtain ⟨hrunning, hsock, hmics, hzero⟩ := h.mic hk
  unfold micStep
  cases hpc : m.pc with
  | created => exact h.moveMic hk .opening true rfl s.listening
  | opening =>
    rw [hpc] at hrunning
    simp only
    cases i.buffer with
    | true => exact h.sendFrame_setMic hk i.sent .looksListening hrunning
    | false => exact h.setMic hk .ending hrunning
  | looksListening =>
    rw [hpc] at hrunning
    exact h.setMic hk _ (hrunning.trans (MicPc.running_ite rfl rfl).symm)
  | looksRunning =>
    rw [hpc] at hrunning
    exact h.setMic hk _ (hrunning.trans (MicPc.running_ite rfl rfl).symm)
  | looksConnected =>
    rw [hpc] at hrunning
    exact h.setMic hk _
      (hrunning.trans (MicPc.running_ite (MicPc.running_ite rfl rfl) rfl).symm)
  | sending =>
    rw [hpc] at hrunning
    exact h.sendFrame_setMic hk i.sent _ (hrunning.trans (MicPc.running_ite rfl rfl).symm)
  | ending =>
    rw [hpc] at hrunning
    exact h.sendFrame_setMic hk i.sent .clears hrunning
  | clears =>
    rw [hpc] at hrunning
    exact h.moveMic hk .marks s.micRunning hrunning false
  | marks => exact h.moveMic hk .gives false rfl s.listening
  | gives =>
    rw [hpc] at hrunning
    refine ⟨.idle ?_ hrunning fun _ => rfl, h.frames, h.asked⟩
    simp [hmics, hzero]

-- What the wake back-end never touches.
structure SameAudio (s s' : Satellite) : Prop where
  mics : s'.mics = s.mics
  micRunning : s'.micRunning = s.micRunning
  micDone : s'.micDone = s.micDone
  clientSock : s'.clientSock = s.clientSock
  sent : s'.sent = s.sent
  server : s'.server = s.server
  ended : s'.ended = s.ended

theorem MicInv.of_sameAudio (h : MicInv s) (hsame : SameAudio s s') : MicInv s' := by
  obtain ⟨hmics, hrunning, hdone, hsock, hsent, hserver, _⟩ := hsame
  refine ⟨?_, hsent ▸ h.frames, ?_⟩
  · cases h.ready with
    | idle hnil hrun hwait =>
      exact .idle (hmics.trans hnil) (hrunning.trans hrun) (hserver ▸ hdone ▸ hwait)
    | busy m hone hrun halone hconn hwait =>
      exact .busy m (hmics.trans hone) (hrunning.trans hrun) (hserver ▸ halone)
        (hsock.trans hconn) (hserver ▸ hdone ▸ hwait)
  · rw [hserver, hsock]
    exact h.asked

theorem SameAudio.ite {c : Prop} [Decidable c] {a b : Satellite} (ha : SameAudio s a)
    (hb : SameAudio s b) : SameAudio s (if c then a else b) := by
  by_cases hc : c
  · rwa [if_pos hc]
  · rwa [if_neg hc]

theorem sameAudio_wakeStep (s : Satellite) (invalidHost : Bool) :
    SameAudio s (s.wakeStep invalidHost) := by
  unfold wakeStep
  cases s.wake with
  | gone | exiting => exact ⟨rfl, rfl, rfl, rfl, rfl, rfl, rfl⟩
  | looping =>
    exact .ite ⟨rfl, rfl, rfl, rfl, rfl, rfl, rfl⟩ ⟨rfl, rfl, rfl, rfl, rfl, rfl, rfl⟩

theorem sameAudio_callStep (s : Satellite) (ok : Bool) : SameAudio s (s.callStep ok) := by
  have hsame : SameAudio s s := ⟨rfl, rfl, rfl, rfl, rfl, rfl, rfl⟩
  unfold callStep
  cases s.call with
  | idle => exact hsame
  | locked host port | tearing host port was =>
    exact .ite ⟨rfl, rfl, rfl, rfl, rfl, rfl, rfl⟩ ⟨rfl, rfl, rfl, rfl, rfl, rfl, rfl⟩
  | joins host port was prev =>
    exact .ite (.ite ⟨rfl, rfl, rfl, rfl, rfl, rfl, rfl⟩ hsame)
      ⟨rfl, rfl, rfl, rfl, rfl, rfl, rfl⟩
  | restores host port was prev | givesUp prev => exact ⟨rfl, rfl, rfl, rfl, rfl, rfl, rfl⟩
  | switches host port was =>
    exact .ite ⟨rfl, rfl, rfl, rfl, rfl, rfl, rfl⟩
      (.ite ⟨rfl, rfl, rfl, rfl, rfl, rfl, rfl⟩ ⟨rfl, rfl, rfl, rfl, rfl, rfl, rfl⟩)

theorem micInv_step (s : Satellite) (e : Step) (h : MicInv s) (hj : Joinable s e) :
    MicInv (s.step e) := by
  cases e with
  | server i => exact micInv_serverStep h i hj
  | mic k i =>
    cases hk : s.mics[k]? with
    | some m =>
      simp only [step, hk]
      exact micInv_micStep h hk i
    | none =>
      simp only [step, hk]
      exact h
  | ptt held => exact h.of_sameAudio ⟨rfl, rfl, rfl, rfl, rfl, rfl, rfl⟩
  | wake invalidHost => exact h.of_sameAudio (s.sameAudio_wakeStep invalidHost)
  | set host port =>
    exact h.of_sameAudio
      (.ite ⟨rfl, rfl, rfl, rfl, rfl, rfl, rfl⟩ ⟨rfl, rfl, rfl, rfl, rfl, rfl, rfl⟩)
  | call ok => exact h.of_sameAudio (s.sameAudio_callStep ok)

theorem micInv_start (onDeviceWake : Bool) (host : CStr) (port : Nat) (ok : Bool) :
    MicInv (start onDeviceWake host port ok) := by
  have hfresh : MicInv {} := ⟨.idle rfl rfl nofun, nofun, nofun⟩
  exact hfresh.of_sameAudio
    (.ite ⟨rfl, rfl, rfl, rfl, rfl, rfl, rfl⟩ ⟨rfl, rfl, rfl, rfl, rfl, rfl, rfl⟩)

theorem MicInv.audioSafe (h : MicInv s) : AudioSafe s := by
  refine ⟨?_, fun hclosing => h.nil_of_alone (by rw [hclosing]; rfl), h.frames⟩
  cases h.ready with
  | idle hmics _ _ => simp [hmics]
  | busy m hmics _ _ _ _ => simp [hmics]

theorem audio_safe_of_joinable (onDeviceWake : Bool) (host : CStr) (port : Nat) (ok : Bool)
    (es : List Step) (h : Along step Joinable (start onDeviceWake host port ok) es) :
    Always step AudioSafe (start onDeviceWake host port ok) es :=
  (always_of_along micInv_step (micInv_start onDeviceWake host port ok) h).imp fun _ hs =>
    hs.audioSafe

-- A client that arms the satellite, and an utterance up to its second frame.
def connects : List Step :=
  [.server .go, .server .accept, .server .go, .server .go, .server .go, .server .go, .server .go,
   .server (.event .runSatellite), .server .fed]

def utterance : List Step :=
  [.ptt true, .server .go, .server .go, .server .go, .server (.send true), .server .go,
   .server .go] ++ List.replicate 6 (.mic 0 {})

def hangsUp : List Step :=
  [.server (.ends false), .server .go, .server .go]

def transcribed : List Step :=
  [.server (.event .transcript), .server .go]

def micEnds : List Step :=
  List.replicate 5 (.mic 0 {})

theorem audio_safe_of_joinable_reconnect :
    Always step AudioSafe (start true [] 0 true)
        (connects ++ utterance ++ hangsUp ++ micEnds ++ List.replicate 4 (.server .go) ++
          connects ++ utterance) ∧
      (run step (start true [] 0 true)
        (connects ++ utterance ++ hangsUp ++ micEnds ++ List.replicate 4 (.server .go) ++
          connects ++ utterance)).sent = [⟨1, 1⟩, ⟨1, 1⟩, ⟨0, 0⟩, ⟨0, 0⟩, ⟨0, 0⟩] :=
  ⟨audio_safe_of_joinable true [] 0 true _ (by decide), by decide⟩

-- An utterance leaves its token behind, and the next one is about to send a chunk when the
-- client goes.
def staleToken : List Step :=
  connects ++ utterance ++ transcribed ++ micEnds ++ [.server .fed] ++ utterance ++
    List.replicate 3 (.mic 0 {}) ++ hangsUp ++ [.server .go]

-- A press right after a transcript finds the last mic task still there; the stale token is
-- taken for the end of the mic task, and its chunk goes to the next client.
theorem chunk_on_next_connection :
    (run step (start true [] 0 true)
        (connects ++ utterance ++ transcribed ++ [.server .fed] ++ utterance)).mics.length = 2 ∧
      (run step (start true [] 0 true) staleToken).server = .closing ∧
      (run step (start true [] 0 true) staleToken).mics = [⟨.sending, 0⟩] ∧
      ⟨0, 1⟩ ∈ (run step (start true [] 0 true)
        (staleToken ++ List.replicate 3 (.server .go) ++ connects ++ [.mic 0 {}])).sent := by
  decide

end Satellite

end Espos.Voice
