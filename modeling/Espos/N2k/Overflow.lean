import Espos.Lib.Run
import Espos.N2k.Candump

-- `client_task` of the candump server, as far as it writes to its client.

namespace Espos.N2k

open Espos.Text

def kTxBufSize : Nat := 2560

def encodeBufSize : Nat := 128

def clientQueueLength : Nat := 128

-- Where the task is. After a copy past the end of the buffer nothing is known.
inductive Stage where
  | drain
  | timed
  | read
  | disconnected
  | overrun
deriving DecidableEq

-- Below what the task holds: the queue of the client, the bytes the socket has
-- taken, and history only: the frames queued, and those encoded with the clock
-- of the moment.
structure Client where
  stage : Stage
  tx : CStr
  droppedTx : UInt32
  queue : List CanMessage
  wire : CStr
  queued : List CanMessage
  encoded : List (CanMessage × Timeval)
deriving DecidableEq

-- What `send` answers: some bytes, one at the least and all at the most;
-- EAGAIN or EWOULDBLOCK; another error.
inductive Sent where
  | took (more : Nat)
  | again
  | failed
deriving DecidableEq

-- What a pass of the task meets: the clock, whether the flush interval is over,
-- what `send` answers, and whether the client or the server is gone.
structure Env where
  tv : Timeval
  due : Bool
  sent : Sent
  gone : Bool
deriving DecidableEq

inductive Input where
  | onFrame (msg : CanMessage)
  | task (env : Env)

namespace Client

def init : Client :=
  ⟨.drain, [], 0, [], [], [], []⟩

def taken (tx : CStr) : Sent → CStr
  | .took more => tx.take (more + 1)
  | _ => []

-- `false` is an error of the socket.
def flushTx (c : Client) (sent : Sent) : Bool × Client :=
  if c.tx = [] then (true, c)
  else
    match sent with
    | .failed => (false, c)
    | .again => (true, { c with droppedTx := c.droppedTx + .ofNat c.tx.length, tx := [] })
    | .took more =>
      let n := min (more + 1) c.tx.length
      let c := { c with wire := c.wire ++ c.tx.take n }
      if n < c.tx.length then
        let keepFrom := candumpResyncOffset c.tx n
        (true, { c with
          droppedTx := c.droppedTx + .ofNat (keepFrom - n)
          tx := c.tx.drop keepFrom })
      else (true, { c with tx := [] })

-- The copy of a line behind the bytes that are in the buffer, with no check.
def copy (c : Client) (line : CStr) (sent : CanMessage × Timeval) : Client :=
  if kTxBufSize < c.tx.length + line.length then { c with stage := .overrun }
  else { c with tx := c.tx ++ line, encoded := c.encoded ++ [sent] }

def disconnect (c : Client) : Client :=
  { c with stage := .disconnected, queue := [] }

def drainOne (iface : CStr) (c : Client) (msg : CanMessage) (env : Env) : Client :=
  match candumpEncode msg env.tv iface encodeBufSize with
  | none => c
  | some line =>
    if kTxBufSize < c.tx.length + line.length then
      match c.flushTx env.sent with
      | (false, c) => c.disconnect
      | (true, c) => c.copy line (msg, env.tv)
    else c.copy line (msg, env.tv)

def task (iface : CStr) (c : Client) (env : Env) : Client :=
  match c.stage with
  | .drain =>
    match c.queue with
    | [] => { c with stage := .timed }
    | msg :: queue => drainOne iface { c with queue := queue } msg env
  | .timed =>
    if env.due then
      match c.flushTx env.sent with
      | (false, c) => c.disconnect
      | (true, c) => { c with stage := .read }
    else { c with stage := .read }
  | .read => if env.gone then c.disconnect else { c with stage := .drain }
  | .disconnected => c
  | .overrun => c

-- A frame that finds the queue full, or none, is dropped.
def onFrame (c : Client) (msg : CanMessage) : Client :=
  if c.stage ≠ .disconnected ∧ c.queue.length < clientQueueLength then
    { c with queue := c.queue ++ [msg], queued := c.queued ++ [msg] }
  else c

def step (iface : CStr) (c : Client) : Input → Client
  | .onFrame msg => c.onFrame msg
  | .task env => c.task iface env

-- Whether the next pass of the task calls `send`.
def Flushes (iface : CStr) (c : Client) (env : Env) : Prop :=
  c.tx ≠ [] ∧
    match c.stage with
    | .drain =>
      match c.queue with
      | [] => False
      | msg :: _ =>
        match candumpEncode msg env.tv iface encodeBufSize with
        | none => False
        | some line => kTxBufSize < c.tx.length + line.length
    | .timed => env.due
    | _ => False

end Client

end Espos.N2k

-- When a copy into the transmit buffer of a client goes past its end.

namespace Espos.N2k

open Espos.Text Espos.Lines Espos.Run

variable {iface : CStr} {c : Client}

namespace Client

theorem taken_nil (sent : Sent) : taken [] sent = [] := by
  cases sent <;> rfl

-- What a flush leaves, whatever the socket answers.
theorem flushTx_spec (c : Client) (sent : Sent) :
    ∃ ok dropped tx, c.flushTx sent =
        (ok, { c with droppedTx := dropped, wire := c.wire ++ taken c.tx sent, tx := tx }) ∧
      (unfinished '\n' c.tx = [] → unfinished '\n' tx = [] ∧
        ∃ cut, records '\n' c.tx = records '\n' (taken c.tx sent) ++ cut ++ records '\n' tx) := by
  by_cases hempty : c.tx = []
  · refine ⟨true, c.droppedTx, c.tx, ?_, ?_⟩
    · rw [flushTx.eq_def, if_pos hempty, hempty, taken_nil, List.append_nil, ← hempty]
    · intro hwhole
      refine ⟨hwhole, [], ?_⟩
      rw [hempty, taken_nil]
      rfl
  · cases sent with
    | failed =>
      refine ⟨false, c.droppedTx, c.tx, ?_, ?_⟩
      · simp only [flushTx, hempty, if_false, taken, List.append_nil]
      · intro hwhole
        exact ⟨hwhole, [], rfl⟩
    | again =>
      refine ⟨true, c.droppedTx + .ofNat c.tx.length, [], ?_, ?_⟩
      · simp only [flushTx, hempty, if_false, taken, List.append_nil]
      · intro _
        refine ⟨rfl, records '\n' c.tx, ?_⟩
        show _ = [] ++ records '\n' c.tx ++ []
        rw [List.nil_append, List.append_nil]
    | took more =>
      have htake : c.tx.take (min (more + 1) c.tx.length) = c.tx.take (more + 1) := by
        rw [List.take_eq_take_iff]
        omega
      by_cases hpart : min (more + 1) c.tx.length < c.tx.length
      · refine ⟨true, c.droppedTx + .ofNat (candumpResyncOffset c.tx
            (min (more + 1) c.tx.length) - min (more + 1) c.tx.length),
          c.tx.drop (candumpResyncOffset c.tx (min (more + 1) c.tx.length)), ?_, ?_⟩
        · simp only [flushTx, hempty, hpart, if_true, if_false, htake, taken]
        · intro hwhole
          obtain ⟨cut, hcut, hrest⟩ := records_resync hwhole (min (more + 1) c.tx.length)
          rw [htake] at hcut
          exact ⟨hrest, cut, hcut⟩
      · refine ⟨true, c.droppedTx, [], ?_, ?_⟩
        · simp only [flushTx, hempty, hpart, if_false, htake, taken]
        · intro _
          refine ⟨rfl, [], ?_⟩
          have hall : c.tx.length ≤ more + 1 := by omega
          rw [taken, List.take_of_length_le hall]
          show _ = records '\n' c.tx ++ [] ++ []
          rw [List.append_nil, List.append_nil]

-- The bytes in use fit the buffer and are whole lines.
def AtLineEnd (c : Client) : Prop :=
  c.tx.length ≤ kTxBufSize ∧ unfinished '\n' c.tx = []

theorem flushTx_failed (h : c.tx ≠ []) : (c.flushTx .failed).1 = false := by
  simp only [flushTx, h, if_false]

theorem flushTx_took (c : Client) (more : Nat) : (c.flushTx (.took more)).1 = true := by
  simp only [flushTx]
  split_ifs <;> rfl

theorem length_flushTx_le (c : Client) (sent : Sent) :
    (c.flushTx sent).2.tx.length ≤ c.tx.length := by
  rw [flushTx.eq_def]
  split_ifs
  · exact Nat.le_refl _
  · cases sent with
    | failed => exact Nat.le_refl _
    | again => exact Nat.zero_le _
    | took more =>
      dsimp only
      split_ifs
      · rw [List.length_drop]
        omega
      · exact Nat.zero_le _

theorem AtLineEnd.flushTx (h : c.AtLineEnd) (sent : Sent) : (c.flushTx sent).2.AtLineEnd := by
  refine ⟨(c.length_flushTx_le sent).trans h.1, ?_⟩
  obtain ⟨ok, dropped, tx, hflush, hlines⟩ := c.flushTx_spec sent
  rw [hflush]
  exact (hlines h.2).1

theorem AtLineEnd.copy (h : c.AtLineEnd) {line : CStr} (hline : unfinished '\n' line = [])
    (sent : CanMessage × Timeval) : (c.copy line sent).AtLineEnd := by
  rw [Client.copy]
  split_ifs with hroom
  · exact h
  · refine ⟨?_, ?_⟩
    · rw [List.length_append]
      omega
    · rw [unfinished_append, h.2, List.nil_append, hline]

theorem drainOne_some {msg : CanMessage} {env : Env} {line : CStr}
    (h : candumpEncode msg env.tv iface encodeBufSize = some line) :
    c.drainOne iface msg env =
      if kTxBufSize < c.tx.length + line.length then
        if (c.flushTx env.sent).1 then (c.flushTx env.sent).2.copy line (msg, env.tv)
        else (c.flushTx env.sent).2.disconnect
      else c.copy line (msg, env.tv) := by
  simp only [drainOne, h]
  rcases c.flushTx env.sent with ⟨ok, c'⟩
  cases ok <;> rfl

theorem task_timed {env : Env} (h : c.stage = .timed) :
    c.task iface env =
      if env.due then
        if (c.flushTx env.sent).1 then { (c.flushTx env.sent).2 with stage := .read }
        else (c.flushTx env.sent).2.disconnect
      else { c with stage := .read } := by
  simp only [task, h]
  rcases c.flushTx env.sent with ⟨ok, c'⟩
  cases ok <;> rfl

theorem task_drain {msg : CanMessage} {queue : List CanMessage} {env : Env}
    (hstage : c.stage = .drain) (hqueue : c.queue = msg :: queue) :
    c.task iface env = drainOne iface { c with queue := queue } msg env := by
  simp only [task, hstage, hqueue]

theorem AtLineEnd.drainOne (h : c.AtLineEnd) (msg : CanMessage) (env : Env) :
    (c.drainOne iface msg env).AtLineEnd := by
  cases hline : candumpEncode msg env.tv iface encodeBufSize with
  | none =>
    simp only [Client.drainOne, hline]
    exact h
  | some line =>
    have hend := @unfinished_candumpLine iface msg env.tv
    rw [← (candumpEncode_eq_some hline).1] at hend
    rw [drainOne_some hline]
    split_ifs with hfull hok
    · exact (h.flushTx env.sent).copy hend _
    · exact h.flushTx env.sent
    · exact h.copy hend _

theorem AtLineEnd.step (h : c.AtLineEnd) (input : Input) : (c.step iface input).AtLineEnd := by
  cases input with
  | onFrame msg =>
    show (c.onFrame msg).AtLineEnd
    rw [onFrame]
    split_ifs <;> exact h
  | task env =>
    show (c.task iface env).AtLineEnd
    cases hstage : c.stage with
    | drain =>
      cases hqueue : c.queue with
      | nil =>
        simp only [task, hstage, hqueue]
        exact h
      | cons msg queue =>
        rw [task_drain hstage hqueue]
        have hpopped : AtLineEnd { c with queue := queue } := h
        exact hpopped.drainOne msg env
    | timed =>
      rw [task_timed hstage]
      split_ifs with hdue hok
      · exact h.flushTx env.sent
      · exact h.flushTx env.sent
      · exact h
    | read =>
      simp only [task, hstage]
      split_ifs <;> exact h
    | disconnected =>
      simp only [task, hstage]
      exact h
    | overrun =>
      simp only [task, hstage]
      exact h

-- What `send` takes leaves no line end in front of the bytes the line needs.
def Frees (c : Client) (line : CStr) (sent : Sent) : Prop :=
  ∀ more, sent = .took more → ∀ b, more < b → b + kTxBufSize < c.tx.length + line.length →
    c.tx[b - 1]? ≠ some '\n'

-- A frame whose line does not fit finds room made for it.
def Fits (iface : CStr) (c : Client) : Input → Prop
  | .onFrame _ => True
  | .task env => c.stage = .drain → ∀ msg queue, c.queue = msg :: queue →
      ∀ line, candumpEncode msg env.tv iface encodeBufSize = some line →
        kTxBufSize < c.tx.length + line.length → c.Frees line env.sent

theorem fits_after_flushTx_iff {line : CStr} (hline : line.length < encodeBufSize)
    (hfull : kTxBufSize < c.tx.length + line.length) {sent : Sent} (hsent : sent ≠ .failed) :
    (c.flushTx sent).2.tx.length + line.length ≤ kTxBufSize ↔ c.Frees line sent := by
  rw [encodeBufSize] at hline
  rw [kTxBufSize] at hfull
  have hne : c.tx ≠ [] := by
    intro hempty
    rw [hempty, List.length_nil] at hfull
    omega
  rw [Client.flushTx.eq_def, if_neg hne, Frees, kTxBufSize]
  cases sent with
  | failed => exact absurd rfl hsent
  | again =>
    refine iff_of_true ?_ nofun
    show 0 + line.length ≤ 2560
    omega
  | took more =>
    dsimp only
    split_ifs with hpart
    · have hlt := @candumpResyncOffset_lt_iff c.tx (more + 1)
        (c.tx.length + line.length - 2560) (by omega) (by omega) (by omega)
      have hle := candumpResyncOffset_le c.tx (more + 1)
      rw [Nat.min_eq_left (by omega), List.length_drop]
      constructor
      · intro hroom more' hmore b hb hbound hnewline
        obtain rfl := Sent.took.inj hmore
        have := hlt.mpr ⟨b, hb, by omega, hnewline⟩
        omega
      · intro hfrees
        by_contra hroom
        obtain ⟨b, hb, hbound, hnewline⟩ := hlt.mp (by omega)
        exact hfrees more rfl b hb (by omega) hnewline
    · refine iff_of_true ?_ ?_
      · show 0 + line.length ≤ 2560
        omega
      · intro more' hmore b hb hbound
        obtain rfl := Sent.took.inj hmore
        omega

theorem copy_overrun_iff (hstage : c.stage ≠ .overrun) (line : CStr)
    (sent : CanMessage × Timeval) :
    (c.copy line sent).stage ≠ .overrun ↔ c.tx.length + line.length ≤ kTxBufSize := by
  rw [copy]
  split_ifs with hfull
  · exact iff_of_false (fun h => h rfl) (by omega)
  · exact iff_of_true hstage (by omega)

theorem drainOne_overrun_iff (hstage : c.stage ≠ .overrun) (msg : CanMessage) (env : Env) :
    (c.drainOne iface msg env).stage ≠ .overrun ↔
      ∀ line, candumpEncode msg env.tv iface encodeBufSize = some line →
        kTxBufSize < c.tx.length + line.length → c.Frees line env.sent := by
  cases hline : candumpEncode msg env.tv iface encodeBufSize with
  | none =>
    simp only [drainOne, hline]
    exact iff_of_true hstage nofun
  | some line =>
    have hlen := (candumpEncode_eq_some hline).2
    have honly : (∀ line', some line = some line' →
        kTxBufSize < c.tx.length + line'.length → c.Frees line' env.sent) ↔
        (kTxBufSize < c.tx.length + line.length → c.Frees line env.sent) := by
      constructor
      · intro h
        exact h line rfl
      · rintro h line' hsame
        rwa [← Option.some.inj hsame]
    obtain ⟨ok, dropped, tx, hflush, -⟩ := c.flushTx_spec env.sent
    have hne : kTxBufSize < c.tx.length + line.length → c.tx ≠ [] := by
      intro hfull hempty
      rw [hempty, List.length_nil, Nat.zero_add] at hfull
      exact absurd (hfull.trans hlen) (by decide)
    rw [honly, drainOne_some hline]
    split_ifs with hfull hok
    · have hsent : env.sent ≠ .failed := by
        intro hfailed
        rw [hfailed, flushTx_failed (hne hfull)] at hok
        cases hok
      have hflushed : (c.flushTx env.sent).2.stage ≠ .overrun := by
        rw [hflush]
        exact hstage
      rw [copy_overrun_iff hflushed, fits_after_flushTx_iff hlen hfull hsent]
      exact ⟨fun h _ => h, fun h => h hfull⟩
    · refine iff_of_true nofun ?_
      intro _ more hmore
      rw [hmore, flushTx_took] at hok
      exact absurd rfl hok
    · rw [copy_overrun_iff hstage]
      exact iff_of_true (by omega) fun h => absurd h hfull

theorem step_overrun_iff (hstage : c.stage ≠ .overrun) (input : Input) :
    (c.step iface input).stage ≠ .overrun ↔ c.Fits iface input := by
  cases input with
  | onFrame msg =>
    refine iff_of_true ?_ trivial
    show (c.onFrame msg).stage ≠ .overrun
    rw [onFrame]
    split_ifs <;> exact hstage
  | task env =>
    show (c.task iface env).stage ≠ .overrun ↔ (c.stage = .drain → _)
    cases hat : c.stage with
    | drain =>
      cases hqueue : c.queue with
      | nil =>
        simp only [task, hat, hqueue]
        exact iff_of_true nofun nofun
      | cons msg queue =>
        have hpopped : Client.stage { c with queue := queue } ≠ .overrun := hstage
        rw [task_drain hat hqueue, drainOne_overrun_iff hpopped]
        constructor
        · intro h _ msg' queue' hsame
          obtain ⟨rfl, rfl⟩ := List.cons.inj hsame
          exact h
        · intro h
          exact h rfl msg queue rfl
    | timed =>
      refine iff_of_true ?_ nofun
      obtain ⟨ok, dropped, tx, hflush, -⟩ := c.flushTx_spec env.sent
      rw [task_timed hat]
      split_ifs with hdue hok <;> nofun
    | read =>
      refine iff_of_true ?_ nofun
      simp only [task, hat]
      split_ifs <;> nofun
    | disconnected =>
      refine iff_of_true ?_ nofun
      simp only [task, hat]
      nofun
    | overrun => exact absurd hat hstage

end Client

open Client

theorem tx_buffer_overflows_iff (iface : CStr) (inputs : List Input) :
    (Always (step iface) (fun c => c.stage ≠ .overrun) init inputs ↔
      Along (step iface) (Fits iface) init inputs) ∧
    Always (step iface) AtLineEnd init inputs := by
  refine ⟨?_, ?_⟩
  · exact always_iff_along (I := fun _ => True) (fun _ _ _ _ => trivial)
      (fun c input _ hstage => step_overrun_iff hstage input) trivial (by decide) inputs
  · exact always_of_along (C := fun _ _ => True) (fun c input h _ => h.step input)
      ⟨Nat.zero_le _, rfl⟩ (along_of_forall fun input _ => trivial)

def busMessage (dlc : UInt8) : CanMessage :=
  ⟨⟨0x09F10203, true, false, dlc, Vector.replicate 8 0xFF⟩, 0⟩

-- Two short lines in front of a buffer that is nearly full, and a socket that
-- takes one byte when the next line needs room.
def shortLineFirst : List Input :=
  ([0, 0, 1] ++ List.replicate 49 8 : List UInt8).map (fun dlc => .onFrame (busMessage dlc)) ++
    List.replicate 52 (.task ⟨⟨1700000000, 0⟩, false, .took 0, false⟩)

theorem tx_buffer_overflow_after_short_line :
    ¬∀ (iface : CStr) (inputs : List Input),
      Always (step iface) (fun c => c.stage ≠ .overrun) init inputs := by
  intro h
  have hlast := (h (lit "can0") shortLineFirst).last
  have hover : (run (step (lit "can0")) init shortLineFirst).stage = .overrun := by
    decide +kernel
  exact hlast hover

end Espos.N2k
