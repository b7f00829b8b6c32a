import Espos.Ble.ControlSocket

-- Which frames go out, in which order and to whom.

namespace Espos.Ble

open Espos.Run

-- The frame that `gatt_drain` has popped.
def GatewayPc.inflight : GatewayPc → List Frame
  | .sends f _ | .unshifts f => [f]
  | _ => []

-- It has found the hello of its socket sent.
def GatewayPc.greeted : GatewayPc → Bool
  | .readies | .pops _ | .sends _ _ | .reports => true
  | _ => false

-- Between the end of one socket and the next.
def GatewayPc.unplugged : GatewayPc → Bool
  | .closes _ | .empties _ | .dials _ _ | .addresses | .creates _ => true
  | _ => false

def GatewayPc.joining : GatewayPc → Bool
  | .joins _ => true
  | _ => false

-- `s_ws_host` names the server to dial.
def GatewayPc.named : GatewayPc → Bool
  | .addresses | .creates _ => true
  | _ => false

def GatewayPc.Plain (pc : GatewayPc) : Prop :=
  GatewayPc.joining pc = false ∧ GatewayPc.unplugged pc = false ∧ GatewayPc.named pc = false

theorem GatewayPc.Plain.ite {c : Prop} [Decidable c] {a b : GatewayPc} (ha : GatewayPc.Plain a)
    (hb : GatewayPc.Plain b) : GatewayPc.Plain (if c then a else b) := by
  by_cases hc : c
  · rwa [if_pos hc]
  · rwa [if_neg hc]

def Item.serial : Item → Option Nat
  | .frame f => some f.serial
  | _ => none

namespace Control

variable {s s' : Control}

def sentSerials (s : Control) : List Nat :=
  s.sent.filterMap fun x => x.item.serial

def pending (s : Control) : List Frame :=
  GatewayPc.inflight s.pc ++ s.queue.frames

-- Sent or waiting, in the order they were made, and the rest counted.
structure Lined (s : Control) : Prop where
  order : (s.sentSerials ++ s.pending.map (·.serial)).Pairwise (· < ·)
  bound : ∀ n ∈ s.sentSerials ++ s.pending.map (·.serial), n < s.queued
  count : s.queued = s.sentSerials.length + s.pending.length + (s.queue.dropped + s.lost)

theorem Lined.of_eq (h : Lined s)
    (hline : s'.sentSerials ++ s'.pending.map (·.serial) =
      s.sentSerials ++ s.pending.map (·.serial))
    (hcount : s'.queue.dropped + s'.lost = s.queue.dropped + s.lost)
    (hqueued : s'.queued = s.queued) : Lined s' := by
  have hlen := congrArg List.length hline
  simp only [List.length_append, List.length_map] at hlen
  refine ⟨hline ▸ h.order, hqueued ▸ hline ▸ h.bound, ?_⟩
  rw [hqueued, hcount, h.count, hlen]

-- Frames leave the line and are counted.
theorem Lined.drop (h : Lined s) {line : List Nat} (n : Nat)
    (hsub : line.Sublist (s.sentSerials ++ s.pending.map (·.serial)))
    (hline : s'.sentSerials ++ s'.pending.map (·.serial) = line)
    (hlen : line.length + n = (s.sentSerials ++ s.pending.map (·.serial)).length)
    (hcount : s'.queue.dropped + s'.lost = s.queue.dropped + s.lost + n)
    (hqueued : s'.queued = s.queued) : Lined s' := by
  subst hline
  have hold := h.count
  simp only [List.length_append, List.length_map] at hlen
  refine ⟨h.order.sublist hsub, fun k hk => ?_, ?_⟩
  · rw [hqueued]
    exact h.bound k (hsub.subset hk)
  · rw [hqueued, hcount]
    omega

-- A frame is made, and goes to the end of the line.
theorem Lined.append (h : Lined s)
    (hline : s'.sentSerials ++ s'.pending.map (·.serial) =
      s.sentSerials ++ s.pending.map (·.serial) ++ [s.queued])
    (hcount : s'.queue.dropped + s'.lost = s.queue.dropped + s.lost)
    (hqueued : s'.queued = s.queued + 1) : Lined s' := by
  have hlen := congrArg List.length hline
  have hold := h.count
  simp only [List.length_append, List.length_map, List.length_singleton] at hlen
  refine ⟨?_, fun n hn => ?_, ?_⟩
  · rw [hline, List.pairwise_append]
    refine ⟨h.order, List.pairwise_singleton _ _, fun a ha b hb => ?_⟩
    rw [List.mem_singleton.mp hb]
    exact h.bound a ha
  · rw [hline, List.mem_append, List.mem_singleton] at hn
    rw [hqueued]
    rcases hn with hn | rfl
    · exact Nat.lt_succ_of_lt (h.bound n hn)
    · exact Nat.lt_succ_self _
  · rw [hqueued, hcount]
    omega

theorem lined_enqueue (h : Lined s) (owner : Server) (room : Bool) :
    Lined (s.enqueue owner room) := by
  have hmade : Lined { s with queued := s.queued + 1, lost := s.lost + 1 } := by
    have hold := h.count
    refine ⟨h.order, fun n hn => Nat.lt_succ_of_lt (h.bound n hn), ?_⟩
    show s.queued + 1 = s.sentSerials.length + s.pending.length + (s.queue.dropped + (s.lost + 1))
    omega
  unfold enqueue
  cases room with
  | false => exact hmade
  | true =>
    simp only [if_true]
    rcases s.queue.push_cases ⟨s.queued, owner⟩ with hpush | ⟨oldest, rest, hframes, hpush⟩ | hpush
    · rw [hpush]
      refine hmade.of_eq rfl ?_ rfl
      show s.queue.dropped + 1 + s.lost = s.queue.dropped + (s.lost + 1)
      omega
    · -- the oldest goes, the new one comes
      have hgone : Lined { s with queue := { s.queue with
          frames := rest, dropped := s.queue.dropped + 1 } } := by
        refine h.drop 1 ?_ rfl ?_ ?_ rfl
        · refine List.Sublist.append_left ?_ _
          simp [pending, hframes]
        · simp [sentSerials, pending, hframes]
          omega
        · show s.queue.dropped + 1 + s.lost = s.queue.dropped + s.lost + 1
          omega
      rw [hpush]
      refine hgone.append ?_ rfl rfl
      simp [sentSerials, pending]
    · rw [hpush]
      refine h.append ?_ rfl rfl
      simp [sentSerials, pending]

theorem lined_report (h : Lined s) (i : Nat) (ends room : Bool) : Lined (s.report i ends room) := by
  unfold report
  cases s.sessions[i]? with
  | none => exact h
  | some owner =>
    cases ends with
    | true =>
      have hkept : Lined { s with sessions := s.sessions.eraseIdx i } := h.of_eq rfl rfl rfl
      exact lined_enqueue hkept owner room
    | false => exact lined_enqueue h owner room

theorem lined_request (h : Lined s) (c : Client) (room : Bool) (i : SocketInput) :
    Lined (s.request c room i) := by
  cases i with
  | connected | dropped => exact h
  | subscribe ok =>
    cases ok with
    | true => exact h.of_eq rfl rfl rfl
    | false => exact lined_enqueue h c.server room
  | write i badHex =>
    cases badHex with
    | true => exact lined_report h i false room
    | false => exact h
  | close i => exact h.of_eq rfl rfl rfl

-- What `ws_event` does is a request, or it only moves the flags.
theorem clientStep_cases (s : Control) (c : Client) (i : SocketInput) (room : Bool) :
    s.clientStep c i room = s ∨ s.clientStep c i room = s.request c room i ∨
      ∃ wsConnected wsReady wsEnded phase,
        s.clientStep c i room =
            { s with wsConnected, wsReady, wsEnded, client := some { c with phase } } ∧
          (wsReady = true → s.wsReady = true) := by
  unfold clientStep
  cases c.phase with
  | dialing =>
    cases i with
    | connected => exact .inr (.inr ⟨true, s.wsReady, s.wsEnded, .up, rfl, id⟩)
    | dropped => exact .inr (.inr ⟨s.wsConnected, false, s.wsEnded, .unready, rfl, nofun⟩)
    | subscribe ok | write k badHex | close k => exact .inl rfl
  | up =>
    cases i with
    | dropped => exact .inr (.inr ⟨s.wsConnected, false, s.wsEnded, .unready, rfl, nofun⟩)
    | connected | subscribe ok | write k badHex | close k => exact .inr (.inl rfl)
  | unready => exact .inr (.inr ⟨false, s.wsReady, s.wsEnded, .unconnected, rfl, id⟩)
  | unconnected => exact .inr (.inr ⟨s.wsConnected, s.wsReady, true, .over, rfl, id⟩)
  | _ => exact .inl rfl

theorem lined_clientStep (h : Lined s) (c : Client) (i : SocketInput) (room : Bool) :
    Lined (s.clientStep c i room) := by
  rcases s.clientStep_cases c i room with heq | heq | ⟨_, _, _, _, heq, _⟩
  · rwa [heq]
  · rw [heq]
    exact lined_request h c room i
  · rw [heq]
    exact h.of_eq rfl rfl rfl

-- The places where `gatt_drain` has no frame in its hand.
theorem Lined.move (h : Lined s) (hpc : GatewayPc.inflight s.pc = [])
    (hpc' : GatewayPc.inflight s'.pc = []) (hsent : s'.sentSerials = s.sentSerials)
    (hqueue : s'.queue = s.queue) (hlost : s'.lost = s.lost) (hqueued : s'.queued = s.queued) :
    Lined s' := by
  refine h.of_eq ?_ (by rw [hqueue, hlost]) hqueued
  simp only [pending, hpc, hpc', hsent, hqueue]

theorem sentSerials_transmit (s : Control) (item : Item) (hclient : s.client.isSome = true) :
    (s.transmit item).sentSerials = s.sentSerials ++ item.serial.toList := by
  obtain ⟨c, hc⟩ := Option.isSome_iff_exists.mp hclient
  simp only [transmit, sentSerials, hc, List.filterMap_append]
  cases item <;> rfl

theorem inflight_compares (s : Control) (srv : Server) :
    GatewayPc.inflight (s.compares srv) = [] := by
  unfold compares
  split_ifs <;> rfl

theorem inflight_passes (s : Control) (i : GatewayInput) :
    GatewayPc.inflight (s.passes i) = [] := by
  unfold passes
  cases s.current <;> split_ifs <;> rfl

theorem inflight_addressed (s : Control) : GatewayPc.inflight s.addressed = [] := by
  unfold addressed
  cases s.current <;> rfl

theorem inflight_popped (s : Control) (left : Nat) :
    GatewayPc.inflight (s.popped left) ++ s.queue.frames.tail = s.queue.frames := by
  unfold popped
  cases s.queue.frames <;> rfl

theorem lined_gatewayStep (h : Lined s) (hws : s.ws = true → s.client.isSome = true)
    (i : GatewayInput) : Lined (s.gatewayStep i) := by
  have hclient : s.canSend i.ok = true → s.client.isSome = true := by
    intro hsend
    simp only [canSend, Bool.and_eq_true] at hsend
    exact hws hsend.1.1
  have hstay : ∀ pc, GatewayPc.inflight s.pc = [] → GatewayPc.inflight pc = [] →
      Lined { s with pc } := fun pc hold hnew => h.move hold hnew rfl rfl rfl rfl
  unfold gatewayStep
  cases hpc : s.pc with
  | pass => exact hstay _ (by rw [hpc]; rfl) (s.inflight_passes i)
  | compares srv => exact hstay _ (by rw [hpc]; rfl) (s.inflight_compares srv)
  | unplugs why | closes srv => exact h.move (by rw [hpc]; rfl) rfl rfl rfl rfl rfl
  | joins why => exact h.move (by rw [hpc]; rfl) (by cases why <;> rfl) rfl rfl rfl rfl
  | empties srv =>
    refine h.drop s.queue.frames.length ?_ rfl ?_ ?_ rfl
    · refine List.Sublist.append_left ?_ _
      simp [pending, FrameQ.clear, GatewayPc.inflight]
    · simp [sentSerials, pending, FrameQ.clear, hpc, GatewayPc.inflight]
    · show s.queue.dropped + (s.lost + s.queue.frames.length) = _
      omega
  | dials srv fresh =>
    have hnone : GatewayPc.inflight s.pc = [] := by rw [hpc]; rfl
    simp only
    by_cases hdue : (fresh || i.ok) = true
    · rw [if_pos hdue]
      exact h.move hnone rfl rfl rfl rfl rfl
    · rw [if_neg hdue]
      exact hstay .drains hnone rfl
  | addresses => exact hstay _ (by rw [hpc]; rfl) s.inflight_addressed
  | creates url =>
    have hnone : GatewayPc.inflight s.pc = [] := by rw [hpc]; rfl
    simp only
    by_cases hok : i.ok = true
    · rw [if_pos hok]
      exact h.move hnone rfl rfl rfl rfl rfl
    · rw [if_neg hok]
      exact h.move hnone rfl rfl rfl rfl rfl
  | drains =>
    refine hstay _ (by rw [hpc]; rfl) ?_
    split_ifs <;> rfl
  | hellos =>
    have hnone : GatewayPc.inflight s.pc = [] := by rw [hpc]; rfl
    simp only
    by_cases hsend : s.canSend i.ok = true
    · rw [if_pos hsend]
      have hsent := s.sentSerials_transmit .hello (hclient hsend)
      exact h.move hnone rfl (hsent.trans (List.append_nil _)) rfl rfl rfl
    · rw [if_neg hsend]
      exact hstay .status hnone rfl
  | readies => exact h.move (by rw [hpc]; rfl) rfl rfl rfl rfl rfl
  | loops left =>
    refine hstay _ (by rw [hpc]; rfl) ?_
    split_ifs <;> rfl
  | pops left =>
    refine h.of_eq ?_ rfl rfl
    show s.sentSerials ++ (GatewayPc.inflight (s.popped left) ++ s.queue.frames.tail).map _ = _
    rw [s.inflight_popped left]
    simp [pending, hpc, GatewayPc.inflight]
  | sends f left =>
    simp only
    by_cases hsend : s.canSend i.ok = true
    · rw [if_pos hsend]
      have hsent := s.sentSerials_transmit (.frame f) (hclient hsend)
      refine h.of_eq ?_ rfl rfl
      show (s.transmit (.frame f)).sentSerials ++ s.queue.frames.map _ = _
      rw [hsent]
      simp [pending, hpc, GatewayPc.inflight, Item.serial]
    · rw [if_neg hsend]
      refine h.of_eq ?_ rfl rfl
      simp [sentSerials, pending, hpc, GatewayPc.inflight]
  | unshifts f =>
    simp only
    rcases s.queue.unshift_cases f with heq | heq
    · rw [heq]
      refine h.drop 1 ?_ rfl ?_ ?_ rfl
      · refine List.Sublist.append_left ?_ _
        simp [pending, hpc, GatewayPc.inflight]
      · simp [sentSerials, pending, hpc, GatewayPc.inflight]
        omega
      · show s.queue.dropped + 1 + s.lost = _
        omega
    · rw [heq]
      refine h.of_eq ?_ rfl rfl
      simp [sentSerials, pending, hpc, GatewayPc.inflight]
  | status =>
    refine hstay _ (by rw [hpc]; rfl) ?_
    split_ifs <;> rfl
  | reports =>
    have hnone : GatewayPc.inflight s.pc = [] := by rw [hpc]; rfl
    simp only
    by_cases hsend : s.canSend i.ok = true
    · rw [if_pos hsend]
      have hsent := s.sentSerials_transmit .status (hclient hsend)
      exact h.move hnone rfl (hsent.trans (List.append_nil _)) rfl rfl rfl
    · rw [if_neg hsend]
      exact hstay .pass hnone rfl

-- The handle, the client and its task.
structure Plugged (s : Control) : Prop where
  client : s.ws = true → s.client.isSome = true
  ws : s.client.isSome = true → s.ws = true ∨ GatewayPc.joining s.pc = true
  host : s.client.isSome = true → s.wsHost.isSome = true
  joined : GatewayPc.joining s.pc = true → s.ws = false
  out : GatewayPc.unplugged s.pc = true → s.client = none
  named : GatewayPc.named s.pc = true → s.wsHost.isSome = true

def Helloed (s : Control) : Prop :=
  ∃ c, s.client = some c ∧ ∃ x ∈ s.sent, x.socket = c.id ∧ x.item = .hello

-- Nothing goes out on a socket in front of its hello.
structure Greeted (s : Control) : Prop where
  ready : s.wsReady = true → Helloed s
  place : GatewayPc.greeted s.pc = true → Helloed s
  first : ∀ before x after, s.sent = before ++ x :: after →
    x.item = .hello ∨ ∃ y ∈ before, y.socket = x.socket ∧ y.item = .hello

theorem Plugged.move (h : Plugged s) (hws : s'.ws = s.ws)
    (hclient : s'.client.isSome = s.client.isSome) (hhost : s'.wsHost = s.wsHost)
    (hjoin : GatewayPc.joining s'.pc = GatewayPc.joining s.pc)
    (hout : GatewayPc.unplugged s'.pc = true → s.client = none)
    (hnamed : GatewayPc.named s'.pc = true → s.wsHost.isSome = true) : Plugged s' := by
  refine ⟨fun h' => ?_, fun h' => ?_, fun h' => ?_, fun h' => ?_, fun h' => ?_, fun h' => ?_⟩
  · rw [hclient]
    exact h.client (hws ▸ h')
  · rw [hws, hjoin]
    exact h.ws (hclient ▸ h')
  · rw [hhost]
    exact h.host (hclient ▸ h')
  · rw [hws]
    exact h.joined (hjoin ▸ h')
  · have hnone := hout h'
    rw [hnone] at hclient
    exact Option.isNone_iff_eq_none.mp (by simpa using hclient)
  · rw [hhost]
    exact hnamed h'

theorem plugged_compares (h : Plugged s) {srv : Server} (hpc : s.pc = .compares srv) :
    Plugged { s with pc := s.compares srv } := by
  have hws : s.ws = false → s.client = none := by
    intro hoff
    by_contra hsome
    rcases h.ws (Option.isSome_iff_ne_none.mpr hsome) with hon | hjoin
    · simp [hoff] at hon
    · simp [hpc, GatewayPc.joining] at hjoin
  refine h.move rfl rfl rfl ?_ (fun hout => ?_) (fun hnamed => ?_)
  · rw [hpc]
    unfold compares
    simp only
    split_ifs <;> rfl
  · unfold compares at hout
    by_cases hsame : s.wsHost = some srv
    · cases hon : s.ws with
      | false => exact hws hon
      | true => cases hended : s.wsEnded <;> simp [hsame, hon, hended, GatewayPc.unplugged] at hout
    · cases hhost : s.wsHost with
      | some old =>
        have hne : old ≠ srv := fun heq => hsame (by rw [hhost, heq])
        simp [hhost, hne, GatewayPc.unplugged] at hout
      | none =>
        by_contra hsome
        have hdialled := h.host (Option.isSome_iff_ne_none.mpr hsome)
        simp [hhost] at hdialled
  · exfalso
    unfold compares at hnamed
    simp only at hnamed
    split_ifs at hnamed <;> simp [GatewayPc.named] at hnamed

theorem plain_passes (s : Control) (i : GatewayInput) : GatewayPc.Plain (s.passes i) := by
  unfold passes
  cases s.current <;> exact .ite ⟨rfl, rfl, rfl⟩ (.ite ⟨rfl, rfl, rfl⟩ (.ite ⟨rfl, rfl, rfl⟩
    ⟨rfl, rfl, rfl⟩))

theorem plain_popped (s : Control) (left : Nat) : GatewayPc.Plain (s.popped left) := by
  unfold popped
  cases s.queue.frames.head? <;> exact ⟨rfl, rfl, rfl⟩

theorem Plugged.stay (h : Plugged s) (hws : s'.ws = s.ws) (hclient : s'.client = s.client)
    (hhost : s'.wsHost = s.wsHost) (hjoin : GatewayPc.joining s.pc = false)
    (hplain : GatewayPc.Plain s'.pc) : Plugged s' :=
  h.move hws (by rw [hclient]) hhost (hplain.1.trans hjoin.symm) (by simp [hplain.2.1])
    (by simp [hplain.2.2])

theorem plugged_gatewayStep (h : Plugged s) (i : GatewayInput) : Plugged (s.gatewayStep i) := by
  unfold gatewayStep
  cases hpc : s.pc with
  | pass => exact h.stay rfl rfl rfl (by rw [hpc]; rfl) (s.plain_passes i)
  | compares srv => exact plugged_compares h hpc
  | unplugs why => exact ⟨nofun, fun _ => .inr rfl, h.host, fun _ => rfl, nofun, nofun⟩
  | joins why =>
    have hws := h.joined (by rw [hpc]; rfl)
    refine ⟨fun hon => ?_, nofun, nofun, fun _ => hws, fun _ => rfl, ?_⟩
    · exact absurd (hws.symm.trans hon) (by simp)
    · cases why <;> nofun
  | closes srv | empties srv =>
    have hnone := h.out (by rw [hpc]; rfl)
    exact h.move rfl rfl rfl (by rw [hpc]; rfl) (fun _ => hnone) nofun
  | dials srv fresh =>
    have hnone := h.out (by rw [hpc]; rfl)
    simp only
    by_cases hdue : (fresh || i.ok) = true
    · rw [if_pos hdue]
      exact ⟨h.client, fun hsome => absurd hsome (by simp [hnone]), fun _ => rfl, nofun,
        fun _ => hnone, fun _ => rfl⟩
    · rw [if_neg hdue]
      exact h.stay rfl rfl rfl (by rw [hpc]; rfl) ⟨rfl, rfl, rfl⟩
  | addresses =>
    have hnone := h.out (by rw [hpc]; rfl)
    have hnamed := h.named (by rw [hpc]; rfl)
    refine h.move rfl rfl rfl ?_ (fun _ => hnone) fun _ => hnamed
    rw [hpc]
    cases hcurrent : s.current <;> simp [addressed, hcurrent, GatewayPc.joining]
  | creates url =>
    have hnamed := h.named (by rw [hpc]; rfl)
    simp only
    by_cases hok : i.ok = true
    · rw [if_pos hok]
      exact ⟨fun _ => rfl, fun _ => .inl rfl, fun _ => hnamed, nofun, nofun, nofun⟩
    · rw [if_neg hok]
      exact h.stay rfl rfl rfl (by rw [hpc]; rfl) ⟨rfl, rfl, rfl⟩
  | drains =>
    exact h.stay rfl rfl rfl (by rw [hpc]; rfl)
      (.ite (.ite ⟨rfl, rfl, rfl⟩ (.ite ⟨rfl, rfl, rfl⟩ ⟨rfl, rfl, rfl⟩)) ⟨rfl, rfl, rfl⟩)
  | loops left | status =>
    exact h.stay rfl rfl rfl (by rw [hpc]; rfl) (.ite ⟨rfl, rfl, rfl⟩ ⟨rfl, rfl, rfl⟩)
  | hellos | sends f left | reports =>
    simp only
    by_cases hsend : s.canSend i.ok = true
    · rw [if_pos hsend]
      exact h.stay rfl rfl rfl (by rw [hpc]; rfl) ⟨rfl, rfl, rfl⟩
    · rw [if_neg hsend]
      exact h.stay rfl rfl rfl (by rw [hpc]; rfl) ⟨rfl, rfl, rfl⟩
  | readies | unshifts f =>
    exact h.stay rfl rfl rfl (by rw [hpc]; rfl) ⟨rfl, rfl, rfl⟩
  | pops left => exact h.stay rfl rfl rfl (by rw [hpc]; rfl) (s.plain_popped left)

theorem Helloed.mono (h : Helloed s) (hclient : s'.client = s.client)
    (hsent : ∀ x ∈ s.sent, x ∈ s'.sent) : Helloed s' := by
  obtain ⟨c, hc, x, hx, hsocket, hitem⟩ := h
  exact ⟨c, hclient.trans hc, x, hsent x hx, hsocket, hitem⟩

theorem Greeted.move (h : Greeted s) (hclient : s'.client = s.client) (hsent : s'.sent = s.sent)
    (hready : s'.wsReady = true → s.wsReady = true)
    (hplace : GatewayPc.greeted s'.pc = true → Helloed s) : Greeted s' := by
  have hkeep : Helloed s → Helloed s' := fun hs => hs.mono hclient fun x hx => hsent ▸ hx
  exact ⟨fun h' => hkeep (h.ready (hready h')), fun h' => hkeep (hplace h'), hsent ▸ h.first⟩

-- One more item on the socket of the client, which has had its hello or is getting it.
theorem Greeted.transmit (h : Greeted s) (hclient : s.client.isSome = true) (item : Item)
    (hhello : item = .hello ∨ Helloed s) (pc : GatewayPc)
    (hplace : GatewayPc.greeted pc = true → item = .hello) :
    Greeted { s.transmit item with pc } := by
  obtain ⟨c, hc⟩ := Option.isSome_iff_exists.mp hclient
  have hsent : (s.transmit item).sent = s.sent ++ [⟨c.id, c.server, item⟩] := by
    simp [Control.transmit, hc]
  have hkeep : Helloed s → Helloed { s.transmit item with pc } := fun hs =>
    hs.mono rfl fun x hx => by simp [Control.transmit, hx]
  refine ⟨fun hready => hkeep (h.ready hready), fun hp => ?_, fun before x after heq => ?_⟩
  · refine ⟨c, hc, ⟨c.id, c.server, item⟩, ?_, rfl, hplace hp⟩
    show _ ∈ (s.transmit item).sent
    simp [hsent]
  · rw [show (s.transmit item).sent = before ++ x :: after from heq] at hsent
    rcases List.eq_nil_or_concat after with rfl | ⟨rest, last, rfl⟩
    · obtain ⟨rfl, hx⟩ := List.append_inj' hsent.symm rfl
      obtain rfl : x = ⟨c.id, c.server, item⟩ := by simpa using hx.symm
      rcases hhello with rfl | ⟨c', hc', y, hy, hsocket, hitem⟩
      · exact .inl rfl
      · obtain rfl : c = c' := Option.some.inj (hc.symm.trans hc')
        exact .inr ⟨y, hy, hsocket, hitem⟩
    · rw [List.concat_eq_append, ← List.cons_append, ← List.append_assoc] at hsent
      exact h.first before x rest (List.append_inj' hsent rfl).1.symm

theorem greeted_gatewayStep (h : Greeted s) (hp : Plugged s) (i : GatewayInput) :
    Greeted (s.gatewayStep i) := by
  have hclient : s.canSend i.ok = true → s.client.isSome = true := by
    intro hsend
    simp only [canSend, Bool.and_eq_true] at hsend
    exact hp.client hsend.1.1
  unfold gatewayStep
  cases hpc : s.pc with
  | pass =>
    refine h.move rfl rfl id fun hplace => ?_
    have hnot : GatewayPc.greeted (s.passes i) = false := by
      unfold passes
      cases s.current <;> split_ifs <;> rfl
    exact absurd (hnot.symm.trans hplace) (by simp)
  | compares srv =>
    refine h.move rfl rfl id fun hplace => ?_
    have hnot : GatewayPc.greeted (s.compares srv) = false := by
      unfold compares
      split_ifs <;> rfl
    exact absurd (hnot.symm.trans hplace) (by simp)
  | unplugs why => exact h.move rfl rfl nofun nofun
  | joins why => exact ⟨nofun, by cases why <;> nofun, h.first⟩
  | closes srv | empties srv => exact h.move rfl rfl id nofun
  | dials srv fresh =>
    simp only
    by_cases hdue : (fresh || i.ok) = true
    · rw [if_pos hdue]
      exact h.move rfl rfl id nofun
    · rw [if_neg hdue]
      exact h.move rfl rfl id nofun
  | addresses =>
    refine h.move rfl rfl id fun hplace => ?_
    cases hcurrent : s.current <;> simp [addressed, hcurrent, GatewayPc.greeted] at hplace
  | creates url =>
    have hnone := hp.out (by rw [hpc]; rfl)
    -- the last socket's hello does not count for this one
    have hunready : s.wsReady = true → False := by
      intro hready
      obtain ⟨c, hc, _⟩ := h.ready hready
      simp [hnone] at hc
    simp only
    by_cases hok : i.ok = true
    · rw [if_pos hok]
      exact ⟨fun hready => (hunready hready).elim, nofun, h.first⟩
    · rw [if_neg hok]
      exact h.move rfl rfl id nofun
  | drains =>
    refine h.move rfl rfl id fun hplace => ?_
    simp only at hplace
    split_ifs at hplace <;> simp [GatewayPc.greeted] at hplace
  | hellos =>
    simp only
    by_cases hsend : s.canSend i.ok = true
    · rw [if_pos hsend]
      exact h.transmit (hclient hsend) .hello (.inl rfl) .readies fun _ => rfl
    · rw [if_neg hsend]
      exact h.move rfl rfl id nofun
  | readies =>
    have hhello := h.place (by rw [hpc]; rfl)
    exact ⟨fun _ => hhello.mono rfl fun x hx => hx, nofun, h.first⟩
  | loops left =>
    simp only
    by_cases hgo : (decide (0 < left) && s.wsReady && s.wsConnected && i.ok) = true
    · rw [if_pos hgo]
      simp only [Bool.and_eq_true] at hgo
      exact h.move rfl rfl id fun _ => h.ready hgo.1.1.2
    · rw [if_neg hgo]
      exact h.move rfl rfl id nofun
  | pops left => exact h.move rfl rfl id fun _ => h.place (by rw [hpc]; rfl)
  | sends f left =>
    have hhello := h.place (by rw [hpc]; rfl)
    simp only
    by_cases hsend : s.canSend i.ok = true
    · rw [if_pos hsend]
      exact h.transmit (hclient hsend) (.frame f) (.inr hhello) (.loops (left - 1)) nofun
    · rw [if_neg hsend]
      exact h.move rfl rfl id nofun
  | unshifts f => exact h.move rfl rfl id nofun
  | status =>
    simp only
    by_cases hgo : (s.wsReady && i.ok) = true
    · rw [if_pos hgo]
      rw [Bool.and_eq_true] at hgo
      exact h.move rfl rfl id fun _ => h.ready hgo.1
    · rw [if_neg hgo]
      exact h.move rfl rfl id nofun
  | reports =>
    have hhello := h.place (by rw [hpc]; rfl)
    simp only
    by_cases hsend : s.canSend i.ok = true
    · rw [if_pos hsend]
      exact h.transmit (hclient hsend) .status (.inr hhello) .pass nofun
    · rw [if_neg hsend]
      exact h.move rfl rfl id nofun

-- A request or a callback leaves the socket and what has gone out alone.
structure Aside (s s' : Control) : Prop where
  ws : s'.ws = s.ws
  client : s'.client = s.client
  wsHost : s'.wsHost = s.wsHost
  wsReady : s'.wsReady = s.wsReady
  pc : s'.pc = s.pc
  sent : s'.sent = s.sent

theorem aside_enqueue (s : Control) (owner : Server) (room : Bool) :
    Aside s (s.enqueue owner room) := by
  unfold enqueue
  cases room <;> exact ⟨rfl, rfl, rfl, rfl, rfl, rfl⟩

theorem aside_report (s : Control) (i : Nat) (ends room : Bool) :
    Aside s (s.report i ends room) := by
  unfold report
  cases s.sessions[i]? with
  | none => exact ⟨rfl, rfl, rfl, rfl, rfl, rfl⟩
  | some owner =>
    have hside := fun t : Control => t.aside_enqueue owner room
    cases ends with
    | true =>
      obtain ⟨h1, h2, h3, h4, h5, h6⟩ := hside { s with sessions := s.sessions.eraseIdx i }
      exact ⟨h1, h2, h3, h4, h5, h6⟩
    | false => exact hside s

theorem aside_request (s : Control) (c : Client) (room : Bool) (i : SocketInput) :
    Aside s (s.request c room i) := by
  cases i with
  | connected | dropped | close i => exact ⟨rfl, rfl, rfl, rfl, rfl, rfl⟩
  | subscribe ok =>
    cases ok with
    | true => exact ⟨rfl, rfl, rfl, rfl, rfl, rfl⟩
    | false => exact s.aside_enqueue c.server room
  | write i badHex =>
    cases badHex with
    | true => exact s.aside_report i false room
    | false => exact ⟨rfl, rfl, rfl, rfl, rfl, rfl⟩

theorem plugged_of_aside (h : Plugged s) (hside : Aside s s') : Plugged s' := by
  obtain ⟨hws, hclient, hhost, _, hpc, _⟩ := hside
  refine h.move hws (by rw [hclient]) hhost (by rw [hpc]) (fun hout => ?_) fun hnamed => ?_
  · exact h.out (hpc ▸ hout)
  · exact h.named (hpc ▸ hnamed)

theorem greeted_of_aside (h : Greeted s) (hside : Aside s s') : Greeted s' := by
  obtain ⟨_, hclient, _, hready, hpc, hsent⟩ := hside
  exact h.move hclient hsent (fun h' => hready ▸ h') fun hplace => h.place (hpc ▸ hplace)

theorem plugged_clientStep (h : Plugged s) {c : Client} (hc : s.client = some c) (i : SocketInput)
    (room : Bool) : Plugged (s.clientStep c i room) := by
  rcases s.clientStep_cases c i room with heq | heq | ⟨_, _, _, phase, heq, _⟩
  · rwa [heq]
  · rw [heq]
    exact plugged_of_aside h (s.aside_request c room i)
  · rw [heq]
    exact h.move rfl (by simp [hc]) rfl rfl h.out h.named

theorem greeted_clientStep (h : Greeted s) {c : Client} (hc : s.client = some c) (i : SocketInput)
    (room : Bool) : Greeted (s.clientStep c i room) := by
  rcases s.clientStep_cases c i room with heq | heq | ⟨_, _, _, phase, heq, hready⟩
  · rwa [heq]
  · rw [heq]
    exact greeted_of_aside h (s.aside_request c room i)
  · rw [heq]
    have hkeep : Helloed s → ∀ t : Control, t.client = some { c with phase } → t.sent = s.sent →
        Helloed t := by
      rintro ⟨c', hc', x, hx, hsocket, hitem⟩ t ht hsent
      obtain rfl : c = c' := Option.some.inj (hc.symm.trans hc')
      exact ⟨_, ht, x, hsent ▸ hx, hsocket, hitem⟩
    refine ⟨fun h' => hkeep (h.ready (hready h')) _ rfl rfl,
      fun hplace => hkeep (h.place hplace) _ rfl rfl, h.first⟩

end Control

end Espos.Ble
