import Espos.Ble.Delivery

-- To whom the frames go: to the server of their session, as long as the server that is
-- dialled is the one the last dial was noted for.

namespace Espos.Ble

open Espos.Run Espos.Text

-- The server that `s_ws_host` names while the task is there.
def GatewayPc.host : GatewayPc → Option Server
  | .unplugs (.ended srv) | .joins (.ended srv) | .dials srv false | .creates srv => some srv
  | _ => none

-- Another server's sessions are closed.
def GatewayPc.cleared : GatewayPc → Bool
  | .empties _ | .dials _ true => true
  | _ => false

-- And what they queued is gone.
def GatewayPc.emptied : GatewayPc → Bool
  | .dials _ true => true
  | _ => false

-- Nothing in hand, and nothing promised.
def GatewayPc.Free (pc : GatewayPc) : Prop :=
  GatewayPc.inflight pc = [] ∧ GatewayPc.host pc = none ∧ GatewayPc.cleared pc = false

theorem GatewayPc.Free.ite {c : Prop} [Decidable c] {a b : GatewayPc} (ha : GatewayPc.Free a)
    (hb : GatewayPc.Free b) : GatewayPc.Free (if c then a else b) := by
  by_cases hc : c
  · rwa [if_pos hc]
  · rwa [if_neg hc]

namespace Control

variable {s s' : Control}

-- All there is belongs to the server of `s_ws_host`.
structure Owned (s : Control) : Prop where
  client : ∀ c, s.client = some c → s.wsHost = some c.server
  session : ∀ owner ∈ s.sessions, s.wsHost = some owner
  pending : ∀ f ∈ s.pending, s.wsHost = some f.owner
  host : ∀ srv, GatewayPc.host s.pc = some srv → s.wsHost = some srv
  cleared : GatewayPc.cleared s.pc = true → s.sessions = []
  emptied : GatewayPc.emptied s.pc = true → s.pending = []
  sent : ∀ x ∈ s.sent, ∀ f, x.item = .frame f → f.owner = x.server

-- A second look at the server may find another one.
def SameServer (s : Control) : ControlStep → Prop
  | .gateway _ => s.pc = .addresses → s.current = none ∨ s.current = s.wsHost
  | _ => True

instance (s : Control) (e : ControlStep) : Decidable (SameServer s e) := by
  cases e <;> unfold SameServer <;> infer_instance

theorem cleared_of_emptied {pc : GatewayPc} (h : GatewayPc.emptied pc = true) :
    GatewayPc.cleared pc = true := by
  cases pc with
  | dials srv fresh =>
    cases fresh with
    | true => rfl
    | false => cases h
  | _ => cases h

theorem unplugged_of_cleared {pc : GatewayPc} (h : GatewayPc.cleared pc = true) :
    GatewayPc.unplugged pc = true := by
  cases pc with
  | dials srv fresh => rfl
  | empties srv => rfl
  | _ => cases h

-- The task goes on; sessions, queue and socket stay as they are.
theorem Owned.stay (h : Owned s) (hclient : s'.client = s.client) (hhost : s'.wsHost = s.wsHost)
    (hsessions : s'.sessions = s.sessions) (hpending : ∀ f ∈ s'.pending, f ∈ s.pending)
    (hsent : s'.sent = s.sent)
    (hplace : ∀ srv, GatewayPc.host s'.pc = some srv → s.wsHost = some srv)
    (hcleared : GatewayPc.cleared s'.pc = true → s.sessions = [] ∧ s'.pending = []) :
    Owned s' where
  client c hc := by rw [hhost]; exact h.client c (hclient ▸ hc)
  session owner ho := by rw [hhost]; exact h.session owner (hsessions ▸ ho)
  pending f hf := by rw [hhost]; exact h.pending f (hpending f hf)
  host srv hs := by rw [hhost]; exact hplace srv hs
  cleared hc := by rw [hsessions]; exact (hcleared hc).1
  emptied he := (hcleared (cleared_of_emptied he)).2
  sent := hsent ▸ h.sent

-- A callback or a request: its frame and its session are of the same server.
theorem Owned.aside (h : Owned s) (hside : Aside s s')
    (hsession : ∀ owner ∈ s'.sessions, s.wsHost = some owner)
    (hpending : ∀ f ∈ s'.pending, f ∈ s.pending ∨ s.wsHost = some f.owner)
    (hcleared : GatewayPc.cleared s.pc = true → s' = s) : Owned s' := by
  obtain ⟨_, hclient, hhost, _, hpc, hsent⟩ := hside
  refine ⟨fun c hc => ?_, fun owner ho => ?_, fun f hf => ?_, fun srv hs => ?_, fun hc => ?_,
    fun he => ?_, hsent ▸ h.sent⟩
  · rw [hhost]
    exact h.client c (hclient ▸ hc)
  · rw [hhost]
    exact hsession owner ho
  · rw [hhost]
    rcases hpending f hf with hold | hnew
    · exact h.pending f hold
    · exact hnew
  · rw [hhost]
    exact h.host srv (hpc ▸ hs)
  · rw [hpc] at hc
    rw [hcleared hc]
    exact h.cleared hc
  · rw [hpc] at he
    rw [hcleared (cleared_of_emptied he)]
    exact h.emptied he

theorem sessions_enqueue (s : Control) (owner : Server) (room : Bool) :
    (s.enqueue owner room).sessions = s.sessions := by
  unfold enqueue
  cases room <;> rfl

theorem mem_pending_enqueue {owner : Server} {room : Bool} {f : Frame}
    (hf : f ∈ (s.enqueue owner room).pending) : f ∈ s.pending ∨ f.owner = owner := by
  cases room with
  | false => exact .inl hf
  | true =>
    simp only [pending, enqueue, if_true, List.mem_append] at hf ⊢
    rcases s.queue.push_cases ⟨s.queued, owner⟩ with heq | ⟨oldest, rest, hframes, heq⟩ | heq
    · rw [heq] at hf
      exact .inl hf
    · rw [heq] at hf
      rw [hframes]
      rcases hf with hf | hf
      · exact .inl (.inl hf)
      · rcases List.mem_append.mp hf with hf | hf
        · exact .inl (.inr (List.mem_cons_of_mem _ hf))
        · exact .inr (by rw [List.mem_singleton.mp hf])
    · rw [heq] at hf
      rcases hf with hf | hf
      · exact .inl (.inl hf)
      · rcases List.mem_append.mp hf with hf | hf
        · exact .inl (.inr hf)
        · exact .inr (by rw [List.mem_singleton.mp hf])

theorem owned_report (h : Owned s) (i : Nat) (ends room : Bool) : Owned (s.report i ends room) := by
  have hside := s.aside_report i ends room
  unfold report at hside ⊢
  cases howner : s.sessions[i]? with
  | none => exact h
  | some owner =>
    simp only [howner] at hside ⊢
    have hmem := List.mem_of_getElem? howner
    have hserver := h.session owner hmem
    refine h.aside hside (fun o ho => ?_) (fun f hf => ?_) fun hcleared => ?_
    · rw [sessions_enqueue] at ho
      cases ends with
      | true => exact h.session o (List.mem_of_mem_eraseIdx ho)
      | false => exact h.session o ho
    · rcases mem_pending_enqueue hf with hold | hnew
      · cases ends <;> exact .inl hold
      · exact .inr (hnew ▸ hserver)
    · rw [h.cleared hcleared] at hmem
      cases hmem

theorem owned_request (h : Owned s) (hp : Plugged s) {c : Client} (hc : s.client = some c)
    (room : Bool) (i : SocketInput) : Owned (s.request c room i) := by
  have hserver := h.client c hc
  have hside := s.aside_request c room i
  -- no request comes once the client is gone
  have hnot : GatewayPc.cleared s.pc = true → s.request c room i = s := fun hcleared => by
    have hnone := hp.out (unplugged_of_cleared hcleared)
    rw [hc] at hnone
    cases hnone
  cases i with
  | connected | dropped => exact h
  | subscribe ok =>
    cases ok with
    | true =>
      refine h.aside hside (fun o ho => ?_) (fun f hf => .inl hf) hnot
      rcases List.mem_append.mp ho with ho | ho
      · exact h.session o ho
      · rw [List.mem_singleton.mp ho]
        exact hserver
    | false =>
      refine h.aside hside (fun o ho => ?_) (fun f hf => ?_) hnot
      · exact h.session o (s.sessions_enqueue c.server room ▸ ho)
      · rcases mem_pending_enqueue hf with hold | hnew
        · exact .inl hold
        · exact .inr (hnew ▸ hserver)
  | write i badHex =>
    cases badHex with
    | true => exact owned_report h i false room
    | false => exact h
  | close i =>
    exact h.aside hside (fun o ho => h.session o (List.mem_of_mem_eraseIdx ho))
      (fun f hf => .inl hf) hnot

theorem owned_clientStep (h : Owned s) (hp : Plugged s) {c : Client} (hc : s.client = some c)
    (i : SocketInput) (room : Bool) : Owned (s.clientStep c i room) := by
  rcases s.clientStep_cases c i room with heq | heq | ⟨_, _, _, phase, heq, _⟩
  · rwa [heq]
  · rw [heq]
    exact owned_request h hp hc room i
  · rw [heq]
    refine ⟨fun c' hc' => ?_, h.session, h.pending, h.host, h.cleared, h.emptied, h.sent⟩
    obtain rfl : { c with phase } = c' := Option.some.inj hc'
    exact h.client c hc

theorem free_passes (s : Control) (i : GatewayInput) : GatewayPc.Free (s.passes i) := by
  unfold passes
  cases s.current <;> exact .ite ⟨rfl, rfl, rfl⟩ (.ite ⟨rfl, rfl, rfl⟩ (.ite ⟨rfl, rfl, rfl⟩
    ⟨rfl, rfl, rfl⟩))

theorem host_popped (s : Control) (left : Nat) :
    GatewayPc.host (s.popped left) = none ∧ GatewayPc.cleared (s.popped left) = false := by
  unfold popped
  cases s.queue.frames.head? <;> exact ⟨rfl, rfl⟩

-- On to a place that promises nothing.
theorem Owned.move (h : Owned s) (hclient : s'.client = s.client) (hhost : s'.wsHost = s.wsHost)
    (hsessions : s'.sessions = s.sessions) (hpending : ∀ f ∈ s'.pending, f ∈ s.pending)
    (hsent : s'.sent = s.sent)
    (hplace : GatewayPc.host s'.pc = none ∧ GatewayPc.cleared s'.pc = false) : Owned s' :=
  h.stay hclient hhost hsessions hpending hsent (fun srv hs => by simp [hplace.1] at hs)
    fun hc => by simp [hplace.2] at hc

theorem pending_free (pc : GatewayPc) (hnone : GatewayPc.inflight pc = []) {f : Frame}
    (hf : f ∈ { s with pc }.pending) : f ∈ s.pending := by
  refine List.mem_append_right _ ?_
  simpa [pending, hnone] using hf

theorem Owned.free (h : Owned s) {pc : GatewayPc} (hfree : GatewayPc.Free pc) :
    Owned { s with pc } :=
  h.move rfl rfl rfl (fun _ hf => pending_free _ hfree.1 hf) rfl hfree.2

theorem owned_compares (h : Owned s) {srv : Server} (hpc : s.pc = .compares srv) :
    Owned { s with pc := s.compares srv } := by
  have hpending : s.pending = s.queue.frames := by simp [pending, hpc, GatewayPc.inflight]
  refine h.stay rfl rfl rfl (fun f hf => ?_) rfl (fun srv' hs => ?_) fun hcleared => ?_
  · rw [hpending]
    rcases List.mem_append.mp hf with hf | hf
    · rw [s.inflight_compares srv] at hf
      cases hf
    · exact hf
  · simp only [compares] at hs
    by_cases hsame : s.wsHost = some srv
    · rw [if_pos hsame] at hs
      rw [hsame, ← hs]
      by_cases hws : s.ws = true
      · by_cases hended : s.wsEnded = true
        · simp [hws, hended, GatewayPc.host]
        · simp [hws, hended, GatewayPc.host] at hs
      · simp [hws, GatewayPc.host]
    · rw [if_neg hsame] at hs
      by_cases hsome : s.wsHost.isSome = true
      · simp [hsome, GatewayPc.host] at hs
      · simp [hsome, GatewayPc.host] at hs
  · -- no dial yet: there is nothing of any server
    have hnone : s.wsHost = none := by
      simp only [compares] at hcleared
      by_contra hsome
      have hsome' := Option.isSome_iff_ne_none.mpr hsome
      by_cases hsame : s.wsHost = some srv
      · rw [if_pos hsame] at hcleared
        cases hws : s.ws <;> cases hended : s.wsEnded <;>
          simp [hws, hended, GatewayPc.cleared] at hcleared
      · simp [hsame, hsome', GatewayPc.cleared] at hcleared
    refine ⟨List.eq_nil_iff_forall_not_mem.mpr fun owner ho => ?_, ?_⟩
    · have hserver := h.session owner ho
      rw [hnone] at hserver
      cases hserver
    · refine List.eq_nil_iff_forall_not_mem.mpr fun f hf => ?_
      have hframes : f ∈ s.pending := by
        rw [hpending]
        rcases List.mem_append.mp hf with hf | hf
        · rw [s.inflight_compares srv] at hf
          cases hf
        · exact hf
      have hserver := h.pending f hframes
      rw [hnone] at hserver
      cases hserver

theorem Owned.transmit (h : Owned s) {item : Item} {pc : GatewayPc}
    (hitem : ∀ f, item = .frame f → f ∈ s.pending) (hfree : GatewayPc.Free pc) :
    Owned { s.transmit item with pc } := by
  obtain ⟨hnone, hhost, hcleared⟩ := hfree
  refine ⟨h.client, h.session, fun f hf => ?_, fun srv hs => ?_, fun hc => ?_, fun he => ?_,
    fun x hx f hf => ?_⟩
  · exact h.pending f (pending_free pc hnone hf)
  · exact absurd (hhost.symm.trans hs) nofun
  · exact absurd (hcleared.symm.trans hc) nofun
  · exact absurd (hcleared.symm.trans (cleared_of_emptied he)) nofun
  · rcases List.mem_append.mp hx with hx | hx
    · exact h.sent x hx f hf
    · cases hc : s.client with
      | none => simp [hc] at hx
      | some c =>
        have hserver := h.client c hc
        obtain rfl : x = ⟨c.id, c.server, item⟩ := by simpa [hc] using hx
        have howner := h.pending f (hitem f hf)
        exact Option.some.inj (howner.symm.trans hserver)

theorem owned_gatewayStep (h : Owned s) (hp : Plugged s) (i : GatewayInput)
    (hsame : SameServer s (.gateway i)) : Owned (s.gatewayStep i) := by
  unfold gatewayStep
  cases hpc : s.pc with
  | pass => exact h.free (s.free_passes i)
  | compares srv => exact owned_compares h hpc
  | unplugs why =>
    refine h.stay rfl rfl rfl (fun _ hf => pending_free (.joins why) rfl hf) rfl
      (fun srv hs => ?_) (fun h => by cases h)
    refine h.host srv ?_
    rw [hpc]
    cases why <;> exact hs
  | joins why =>
    refine ⟨(fun _ h => by cases h), h.session, fun f hf => h.pending f ?_, fun srv hs => ?_, ?_, ?_,
      h.sent⟩
    · exact pending_free (afterJoin why) (by cases why <;> rfl) hf
    · refine h.host srv ?_
      rw [hpc]
      cases why <;> exact hs
    · cases why <;> exact fun h => by cases h
    · cases why <;> exact fun h => by cases h
  | closes srv =>
    exact ⟨h.client, (fun _ h => by cases h), fun f hf => h.pending f (pending_free (.empties srv) rfl hf),
      (fun _ h => by cases h), fun _ => rfl, (fun h => by cases h), h.sent⟩
  | empties srv =>
    have hcleared := h.cleared (by rw [hpc]; rfl)
    exact ⟨h.client, h.session, (fun _ h => by cases h), (fun _ h => by cases h),
      fun _ => hcleared, fun _ => rfl, h.sent⟩
  | dials srv fresh =>
    have hnone := hp.out (by rw [hpc]; rfl)
    have hto : (∀ owner ∈ s.sessions, owner = srv) ∧ ∀ f ∈ s.pending, f.owner = srv := by
      cases fresh with
      | true =>
        rw [h.cleared (by rw [hpc]; rfl), h.emptied (by rw [hpc]; rfl)]
        exact ⟨(fun _ h => by cases h), (fun _ h => by cases h)⟩
      | false =>
        have hhost := h.host srv (by rw [hpc]; rfl)
        exact ⟨fun owner ho => Option.some.inj ((h.session owner ho).symm.trans hhost),
          fun f hf => Option.some.inj ((h.pending f hf).symm.trans hhost)⟩
    simp only
    by_cases hdue : (fresh || i.ok) = true
    · rw [if_pos hdue]
      refine ⟨fun c hc => ?_, fun owner ho => ?_, fun f hf => ?_, (fun _ h => by cases h),
        (fun h => by cases h), (fun h => by cases h), h.sent⟩
      · exact absurd (hnone.symm.trans hc) (fun h => by cases h)
      · rw [hto.1 owner ho]
      · rw [hto.2 f (pending_free .addresses rfl hf)]
    · rw [if_neg hdue]
      exact h.free ⟨rfl, rfl, rfl⟩
  | addresses =>
    refine h.stay rfl rfl rfl (fun _ hf => pending_free _ s.inflight_addressed hf) rfl
      (fun url hs => ?_) fun hc => ?_
    · rcases hsame hpc with hnone | heq
      · simp [addressed, hnone, GatewayPc.host] at hs
      · rw [← heq]
        cases hcurrent : s.current with
        | none => simp [addressed, hcurrent, GatewayPc.host] at hs
        | some srv => simpa [addressed, hcurrent, GatewayPc.host] using hs
    · cases hcurrent : s.current <;> simp [addressed, hcurrent, GatewayPc.cleared] at hc
  | creates url =>
    have hhost := h.host url (by rw [hpc]; rfl)
    simp only
    by_cases hok : i.ok = true
    · rw [if_pos hok]
      refine ⟨fun c hc => ?_, h.session, fun f hf => h.pending f (pending_free .drains rfl hf),
        (fun _ h => by cases h), (fun h => by cases h), (fun h => by cases h), h.sent⟩
      obtain rfl := Option.some.inj hc
      exact hhost
    · rw [if_neg hok]
      exact h.move rfl rfl rfl (fun _ hf => pending_free .drains rfl hf) rfl ⟨rfl, rfl⟩
  | drains =>
    exact h.free
      (.ite (.ite ⟨rfl, rfl, rfl⟩ (.ite ⟨rfl, rfl, rfl⟩ ⟨rfl, rfl, rfl⟩)) ⟨rfl, rfl, rfl⟩)
  | loops left | status => exact h.free (.ite ⟨rfl, rfl, rfl⟩ ⟨rfl, rfl, rfl⟩)
  | hellos | reports =>
    simp only
    by_cases hsend : s.canSend i.ok = true
    · rw [if_pos hsend]
      exact h.transmit (fun _ h => by cases h) ⟨rfl, rfl, rfl⟩
    · rw [if_neg hsend]
      exact h.free ⟨rfl, rfl, rfl⟩
  | readies =>
    exact h.move rfl rfl rfl (fun _ hf => pending_free (.loops s.queue.cap) rfl hf) rfl
      ⟨rfl, rfl⟩
  | pops left =>
    refine h.move rfl rfl rfl (fun f hf => ?_) rfl (s.host_popped left)
    have hf' : f ∈ GatewayPc.inflight (s.popped left) ++ s.queue.frames.tail := hf
    rw [s.inflight_popped left] at hf'
    exact List.mem_append_right _ hf'
  | sends f left =>
    simp only
    by_cases hsend : s.canSend i.ok = true
    · rw [if_pos hsend]
      refine h.transmit (fun f' hf' => ?_) ⟨rfl, rfl, rfl⟩
      obtain rfl := Item.frame.inj hf'
      simp [pending, hpc, GatewayPc.inflight]
    · rw [if_neg hsend]
      refine h.move rfl rfl rfl (fun f' hf' => ?_) rfl ⟨rfl, rfl⟩
      simpa [pending, hpc, GatewayPc.inflight] using hf'
  | unshifts f =>
    refine h.move rfl rfl rfl (fun f' hf' => ?_) rfl ⟨rfl, rfl⟩
    simp only [pending, hpc, GatewayPc.inflight, List.nil_append] at hf' ⊢
    rcases s.queue.unshift_cases f with heq | heq
    · rw [heq] at hf'
      exact List.mem_append_right _ hf'
    · rw [heq] at hf'
      exact hf'

-- The serials of the frames that have gone to a server, oldest first.
def sentTo (s : Control) (srv : Server) : List Nat :=
  (s.sent.filter (·.server = srv)).filterMap (·.item.serial)

-- Neither sent nor waiting.
def missing (s : Control) : List Nat :=
  (List.range s.queued).filter (· ∉ s.sentSerials ++ s.pending.map (·.serial))

structure Delivered (s : Control) : Prop where
  order : ∀ srv, (s.sentTo srv).Pairwise (· < ·)
  counted : s.missing.length = s.queue.dropped + s.lost
  hello : ∀ before x after, s.sent = before ++ x :: after →
    x.item = .hello ∨ ∃ y ∈ before, y.socket = x.socket ∧ y.item = .hello
  owner : ∀ x ∈ s.sent, ∀ f, x.item = .frame f → f.owner = x.server

theorem Lined.sentTo (h : Lined s) (srv : Server) : (s.sentTo srv).Pairwise (· < ·) := by
  have hsub : (s.sentTo srv).Sublist s.sentSerials := List.filter_sublist.filterMap _
  exact h.order.sublist (hsub.trans (List.sublist_append_left _ _))

theorem Lined.missing (h : Lined s) : s.missing.length = s.queue.dropped + s.lost := by
  have hnodup : (s.sentSerials ++ s.pending.map (·.serial)).Nodup := h.order.imp Nat.ne_of_lt
  have hperm : ((List.range s.queued).filter
      (· ∈ s.sentSerials ++ s.pending.map (·.serial))).Perm
        (s.sentSerials ++ s.pending.map (·.serial)) := by
    refine (List.perm_ext_iff_of_nodup (List.nodup_range.filter _) hnodup).mpr fun n => ?_
    rw [List.mem_filter, List.mem_range, decide_eq_true_iff]
    exact ⟨And.right, fun hn => ⟨h.bound n hn, hn⟩⟩
  have hsplit := (List.range s.queued).length_eq_length_filter_add
    (· ∈ s.sentSerials ++ s.pending.map (·.serial))
  have hcount := h.count
  have hlen := hperm.length_eq
  rw [List.length_append, List.length_map] at hlen
  rw [List.length_range, hlen] at hsplit
  simp only [← decide_not] at hsplit
  unfold Control.missing
  omega

structure ControlInv (s : Control) : Prop where
  lined : Lined s
  plugged : Plugged s
  greeted : Greeted s
  owned : Owned s

theorem ControlInv.delivered (h : ControlInv s) : Delivered s :=
  ⟨h.lined.sentTo, h.lined.missing, h.greeted.first, h.owned.sent⟩

theorem controlInv_step (s : Control) (e : ControlStep) (h : ControlInv s)
    (hsame : SameServer s e) : ControlInv (s.step e) := by
  obtain ⟨hlined, hplugged, hgreeted, howned⟩ := h
  cases e with
  | server srv =>
    exact ⟨hlined.of_eq rfl rfl rfl, hplugged.move rfl rfl rfl rfl hplugged.out hplugged.named,
      hgreeted.move rfl rfl id hgreeted.place,
      ⟨howned.client, howned.session, howned.pending, howned.host, howned.cleared,
        howned.emptied, howned.sent⟩⟩
  | gateway i =>
    exact ⟨lined_gatewayStep hlined hplugged.client i, plugged_gatewayStep hplugged i,
      greeted_gatewayStep hgreeted hplugged i, owned_gatewayStep howned hplugged i hsame⟩
  | socket i room =>
    simp only [step]
    cases hc : s.client with
    | none => exact ⟨hlined, hplugged, hgreeted, howned⟩
    | some c =>
      exact ⟨lined_clientStep hlined c i room, plugged_clientStep hplugged hc i room,
        greeted_clientStep hgreeted hc i room, owned_clientStep howned hplugged hc i room⟩
  | report i ends room =>
    have hside := s.aside_report i ends room
    exact ⟨lined_report hlined i ends room, plugged_of_aside hplugged hside,
      greeted_of_aside hgreeted hside, owned_report howned i ends room⟩

-- Before the first dial, with a queue of any depth.
def fresh (cap : Nat) : Control :=
  { queue := { cap } }

theorem controlInv_fresh (cap : Nat) : ControlInv (fresh cap) where
  lined := ⟨List.Pairwise.nil, nofun, rfl⟩
  plugged := ⟨nofun, nofun, nofun, nofun, nofun, nofun⟩
  greeted := ⟨nofun, nofun, fun before x after h => by simp [fresh] at h⟩
  owned := ⟨nofun, nofun, nofun, nofun, nofun, nofun, nofun⟩

theorem delivered_of_sameServer (cap : Nat) (es : List ControlStep)
    (h : Along step SameServer (fresh cap) es) : Always step Delivered (fresh cap) es :=
  (always_of_along controlInv_step (controlInv_fresh cap) h).imp fun _ hs => hs.delivered

def turns (n : Nat) : List ControlStep := List.replicate n (.gateway {})

-- The socket is up and a session open; two of its frames go out, and a third is made when
-- the socket has dropped.
def session : List ControlStep :=
  [.socket .connected true, .socket (.subscribe true) true] ++ turns 9 ++
    [.report 0 false true, .report 0 false true] ++ turns 11 ++
    [.socket .dropped true, .report 0 false true, .socket .dropped true, .socket .dropped true]

-- The new socket's connect wakes the task.
def redialled : List ControlStep :=
  turns 4 ++ [.socket .connected true, .gateway { woken := true }] ++ turns 9

def serverA : Server := ⟨lit "a", 80, false⟩

def serverB : Server := ⟨lit "b", 80, false⟩

def toA : List ControlStep :=
  .server (some serverA) :: turns 7 ++ session ++ turns 6 ++ redialled

def bothServers : List ControlStep :=
  toA ++ [.server (some serverB)] ++ turns 12 ++ session ++ turns 6 ++ redialled

theorem delivered_to_both_servers :
    Always step Delivered (fresh 4) bothServers ∧
      (run step (fresh 4) bothServers).sentTo serverA = [0, 1, 2] ∧
      (run step (fresh 4) bothServers).sentTo serverB = [3, 4, 5] :=
  ⟨delivered_of_sameServer 4 bothServers (by decide +kernel), by decide +kernel,
    by decide +kernel⟩

-- The server changes between the two looks of one dial.
def secondLook : List ControlStep :=
  .server (some serverA) :: turns 7 ++ session ++ turns 6 ++ [.server (some serverB)] ++ redialled

theorem frame_to_another_server :
    ¬ Delivered (run step (fresh 4) secondLook) ∧
      ⟨1, serverB, .frame ⟨2, serverA⟩⟩ ∈ (run step (fresh 4) secondLook).sent := by
  have hsent : ⟨1, serverB, .frame ⟨2, serverA⟩⟩ ∈ (run step (fresh 4) secondLook).sent := by
    decide +kernel
  refine ⟨fun h => ?_, hsent⟩
  exact absurd (h.owner _ hsent ⟨2, serverA⟩ rfl) (by decide)

end Control

end Espos.Ble
