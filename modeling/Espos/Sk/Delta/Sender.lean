import Mathlib.Data.List.Nodup
import Espos.Sk.Delta.Reachable

-- The engine and the task that sends its messages: whose address is whose, and
-- where the messages that are still undated take their timestamp.

namespace Espos.Sk.Delta

open Espos.Text
open Espos.Run

-- The message has one undated update, and `stampAt` is behind its opening brace.
def Undated (m : Msg) (stampAt : Nat) : Prop :=
  m.text = m.doc.render ∧ ∃ before u after,
    m.doc.updates = before ++ u :: after ∧ u.date = none ∧
      (∀ v ∈ before ++ after, v.date.isSome) ∧ stampAt = (m.doc.opening before).length

theorem Undated.stampAt_ne_zero {m : Msg} {stampAt : Nat} (h : Undated m stampAt) :
    stampAt ≠ 0 := by
  obtain ⟨_, before, _, _, _, _, _, rfl⟩ := h
  have hbrace : (lit "\x7b").length = 1 := by decide
  simp only [Doc.opening, List.length_append, hbrace]
  omega

-- An entry of the ring as a window leaves it: `stampAt` is 0 where the message
-- needs no timestamp.
def Queued.Datable (q : Queued) : Prop :=
  q.stampAt = 0 ∧ (∀ u ∈ q.msg.doc.updates, u.date.isSome) ∨ Undated q.msg q.stampAt

-- The text with a timestamp written at `stampAt`.
def datedText (text : CStr) (stampAt : Nat) (iso : CStr) : CStr :=
  text.take stampAt ++ timestamp iso ++ text.drop stampAt

-- The date a take writes into a message of a batch, if it can.
def Env.dateOf (env : Env) (batchMs : UInt32) : Option CStr :=
  if env.wall ≤ 0 ∨ env.allocStamp = false then none
  else iso8601 (env.wall - (env.now - batchMs).toNat)

namespace Engine

variable {maxMsgs : Nat} {d d' : Engine maxMsgs} {env : Env}

def addrs (d : Engine maxMsgs) : List Nat :=
  d.ring.toList.map fun q => q.msg.addr

-- What a message that leaves the ring goes through.
def desk (d : Engine maxMsgs) : Ring Queued maxMsgs × Option Nat × Nat × UInt32 × Nat :=
  (d.ring, d.unstamped, d.unstampedAt, d.unstampedBatchMs, d.nextAddr)

theorem desk_eq_iff : d'.desk = d.desk ↔ d'.ring = d.ring ∧ d'.unstamped = d.unstamped ∧
    d'.unstampedAt = d.unstampedAt ∧ d'.unstampedBatchMs = d.unstampedBatchMs ∧
      d'.nextAddr = d.nextAddr := by
  simp [desk]

-- Messages leave the ring at its head, and new ones, at addresses of their own,
-- come in behind; of the message handed out last, the engine knows what it knew.
structure Grows (d d' : Engine maxMsgs) : Prop where
  ring : ∃ new, d'.ring.toList.Sublist (d.ring.toList ++ new) ∧
    (new.map fun q => q.msg.addr).Nodup ∧
    ∀ q ∈ new, d.nextAddr ≤ q.msg.addr ∧ q.msg.addr < d'.nextAddr ∧ q.Datable
  next : d.nextAddr ≤ d'.nextAddr
  unstamped : d'.unstamped = d.unstamped
  unstampedAt : d'.unstampedAt = d.unstampedAt
  unstampedBatchMs : d'.unstampedBatchMs = d.unstampedBatchMs

theorem Grows.of_desk (h : d'.desk = d.desk) : Grows d d' := by
  obtain ⟨hring, hunstamped, hat, hbatch, hnext⟩ := desk_eq_iff.mp h
  refine ⟨⟨[], ?_, List.nodup_nil, nofun⟩, Nat.le_of_eq hnext.symm, hunstamped, hat, hbatch⟩
  rw [hring, List.append_nil]

theorem makeRoom_sublist (len turns : Nat) (d : Engine maxMsgs) :
    (makeRoom len turns d).ring.toList.Sublist d.ring.toList := by
  apply makeRoom_invariant (P := fun e => e.ring.toList.Sublist d.ring.toList) len _ turns
    (List.Sublist.refl _)
  intro e he hcount
  rw [e.ring.toList_dropFront hcount] at he
  exact (List.sublist_cons_self _ _).trans he

theorem makeRoom_desk (len turns : Nat) (d : Engine maxMsgs) :
    ((makeRoom len turns d).unstamped, (makeRoom len turns d).unstampedAt,
      (makeRoom len turns d).unstampedBatchMs, (makeRoom len turns d).nextAddr) =
        (d.unstamped, d.unstampedAt, d.unstampedBatchMs, d.nextAddr) := by
  apply makeRoom_invariant (P := fun e => (e.unstamped, e.unstampedAt, e.unstampedBatchMs,
    e.nextAddr) = (d.unstamped, d.unstampedAt, d.unstampedBatchMs, d.nextAddr)) len _ turns rfl
  intro e he _
  exact he

theorem pushBuilt_sublist (d : Engine maxMsgs) (q : Queued) :
    (pushBuilt false d q).ring.toList.Sublist (d.ring.toList ++ [q]) := by
  have hroom := d.countBuilt.makeRoom_sublist q.msg.text.length d.countBuilt.ring.count
  have hlt := d.countBuilt.makeRoom_count_lt q.msg.text.length (le_refl d.countBuilt.ring.count)
  rw [pushBuilt_false]
  simp only [pushDropping]
  generalize makeRoom q.msg.text.length d.countBuilt.ring.count d.countBuilt = e at hroom hlt
  by_cases hlarge : e.maxBytes ≠ 0 ∧ e.maxBytes < q.msg.text.length
  · rw [if_pos hlarge]
    exact hroom.trans (List.sublist_append_left _ _)
  · rw [if_neg hlarge]
    change (e.ring.pushBack q).toList.Sublist _
    rw [e.ring.toList_pushBack q hlt]
    exact hroom.append (List.Sublist.refl _)

theorem pushBuilt_desk (d : Engine maxMsgs) (q : Queued) :
    ((pushBuilt false d q).unstamped, (pushBuilt false d q).unstampedAt,
      (pushBuilt false d q).unstampedBatchMs, (pushBuilt false d q).nextAddr) =
        (d.unstamped, d.unstampedAt, d.unstampedBatchMs, d.nextAddr) := by
  have hroom := d.countBuilt.makeRoom_desk q.msg.text.length d.countBuilt.ring.count
  rw [pushBuilt_false]
  simp only [pushDropping]
  generalize makeRoom q.msg.text.length d.countBuilt.ring.count d.countBuilt = e at hroom
  by_cases hlarge : e.maxBytes ≠ 0 ∧ e.maxBytes < q.msg.text.length
  · rw [if_pos hlarge]
    exact hroom
  · rw [if_neg hlarge]
    exact hroom

theorem foldl_pushBuilt (qs : List Queued) (d : Engine maxMsgs) :
    (qs.foldl (pushBuilt false) d).ring.toList.Sublist (d.ring.toList ++ qs) ∧
      ((qs.foldl (pushBuilt false) d).unstamped, (qs.foldl (pushBuilt false) d).unstampedAt,
        (qs.foldl (pushBuilt false) d).unstampedBatchMs,
        (qs.foldl (pushBuilt false) d).nextAddr) =
          (d.unstamped, d.unstampedAt, d.unstampedBatchMs, d.nextAddr) := by
  induction qs generalizing d with
  | nil =>
    rw [List.append_nil]
    exact ⟨List.Sublist.refl _, rfl⟩
  | cons q qs ih =>
    obtain ⟨hring, hdesk⟩ := ih (pushBuilt false d q)
    refine ⟨hring.trans ?_, hdesk.trans (d.pushBuilt_desk q)⟩
    have hone := (d.pushBuilt_sublist q).append (List.Sublist.refl qs)
    rwa [List.append_assoc] at hone

-- A window's messages are dated, or have one update that is not.
theorem Orderly.datable_messages (h : d.Orderly) : ∀ q ∈ d.messages env, q.Datable := by
  intro q hq
  obtain ⟨ctx, _, hbuild⟩ := List.mem_filterMap.mp hq
  unfold buildMessage at hbuild
  by_cases halloc : env.allocMessage ctx = true
  · rw [if_pos halloc] at hbuild
    obtain rfl := Option.some.inj hbuild
    rcases d.writeMessage_opening (h.single ctx) with
      ⟨hdated, hzero⟩ | ⟨before, u, after, hsplit, hu, hbefore, hafter, hoffset⟩
    · exact .inl ⟨hzero, hdated⟩
    · refine .inr ⟨d.writeMessage_text ctx, before, u, after, hsplit, hu, fun v hv => ?_, hoffset⟩
      rcases List.mem_append.mp hv with hv | hv
      · exact hbefore v hv
      · exact hafter v hv
  · rw [if_neg halloc] at hbuild
    cases hbuild

theorem buildMessage_addr {ctx : Nat} {q : Queued} (h : d.buildMessage env ctx = some q) :
    q.msg.addr = d.nextAddr + ctx := by
  unfold buildMessage at h
  by_cases halloc : env.allocMessage ctx = true
  · rw [if_pos halloc] at h
    obtain rfl := Option.some.inj h
    rfl
  · rw [if_neg halloc] at h
    cases h

-- They are at addresses of their own.
theorem messages_addr (d : Engine maxMsgs) (env : Env) (hctx : d.ctx.length ≤ CONTEXTS_MAX) :
    ((d.messages env).map fun q => q.msg.addr).Nodup ∧
      ∀ q ∈ d.messages env, d.nextAddr ≤ q.msg.addr ∧ q.msg.addr < d.nextAddr + CONTEXTS_MAX := by
  constructor
  · unfold messages
    rw [List.map_filterMap, List.Nodup, List.pairwise_filterMap]
    have hrange : d.usedContexts.Pairwise (· < ·) := List.Pairwise.filter _ List.pairwise_lt_range
    refine hrange.imp ?_
    intro i j hlt a ha b hb
    obtain ⟨q, hq, rfl⟩ := Option.map_eq_some_iff.mp ha
    obtain ⟨r, hr, rfl⟩ := Option.map_eq_some_iff.mp hb
    rw [buildMessage_addr hq, buildMessage_addr hr]
    omega
  · intro q hq
    obtain ⟨ctx, hused, hbuild⟩ := List.mem_filterMap.mp hq
    have hlt := List.mem_range.mp (List.mem_filter.mp hused).1
    rw [buildMessage_addr hbuild]
    omega

theorem grows_flushWindow (h : d.Orderly) (hctx : d.ctx.length ≤ CONTEXTS_MAX) (env : Env) :
    Grows d (d.flushWindow env).1 := by
  rcases d.flushWindow_eq_or env with hkept | hpushed
  · rw [hkept]
    exact .of_desk rfl
  · rw [hpushed]
    obtain ⟨hring, hdesk⟩ := foldl_pushBuilt (d.messages env) d
    simp only [Prod.mk.injEq] at hdesk
    obtain ⟨hunstamped, hat, hbatch, hnext⟩ := hdesk
    obtain ⟨hnodup, haddr⟩ := d.messages_addr env hctx
    have hnext' : (((d.messages env).foldl (pushBuilt false) d).clearWindow).nextAddr =
        d.nextAddr + CONTEXTS_MAX := congrArg (· + CONTEXTS_MAX) hnext
    refine ⟨⟨d.messages env, hring, hnodup, fun q hq => ?_⟩, ?_, hunstamped, hat, hbatch⟩
    · rw [hnext']
      exact ⟨(haddr q hq).1, (haddr q hq).2, h.datable_messages q hq⟩
    · rw [hnext']
      exact Nat.le_add_right _ _

theorem length_contextSlot (h : d.ctx.length ≤ CONTEXTS_MAX) (context : CStr) :
    (d.contextSlot context).1.ctx.length ≤ CONTEXTS_MAX := by
  unfold contextSlot
  cases d.ctx.idxOf? context with
  | some i => exact h
  | none =>
    by_cases hfull : d.ctx.length = CONTEXTS_MAX
    · simpa only [if_pos hfull] using h
    · have hlength : (d.addContext context).ctx.length = d.ctx.length + 1 := by
        simp [addContext]
      simp only [if_neg hfull, hlength]
      omega

theorem desk_contextSlot (d : Engine maxMsgs) (context : CStr) :
    (d.contextSlot context).1.desk = d.desk := by
  rcases d.contextSlot_cases context with ⟨_, _, hslot⟩ | ⟨_, _, hslot⟩ | ⟨_, hslot⟩ <;>
    exact congrArg (fun r => r.1.desk) hslot

theorem Grows.congr {e : Engine maxMsgs} (h : Grows e d') (hdesk : e.desk = d.desk) :
    Grows d d' := by
  obtain ⟨hring, hunstamped, hat, hbatch, hnext⟩ := desk_eq_iff.mp hdesk
  obtain ⟨⟨new, hsub, hnodup, hnew⟩, hle, h1, h2, h3⟩ := h
  rw [hring] at hsub
  rw [hnext] at hnew hle
  exact ⟨⟨new, hsub, hnodup, hnew⟩, hle, h1.trans hunstamped, h2.trans hat, h3.trans hbatch⟩

theorem Grows.congr_right {e : Engine maxMsgs} (h : Grows d e) (hdesk : d'.desk = e.desk) :
    Grows d d' := by
  obtain ⟨hring, hunstamped, hat, hbatch, hnext⟩ := desk_eq_iff.mp hdesk
  obtain ⟨⟨new, hsub, hnodup, hnew⟩, hle, h1, h2, h3⟩ := h
  rw [← hring] at hsub
  rw [← hnext] at hnew hle
  exact ⟨⟨new, hsub, hnodup, hnew⟩, hle, hunstamped.trans h1, hat.trans h2, hbatch.trans h3⟩

theorem grows_publishAt (h : d.Tidy) (hctx : d.ctx.length ≤ CONTEXTS_MAX) (K : Kconfig)
    (env : Env) (context : Option CStr) (path value : CStr) (atMs : Int) :
    Grows d (d.publishAt K env context path value atMs).1 := by
  unfold Engine.publishAt
  generalize context.getD SELF_CONTEXT = context
  by_cases hcheck : publishCheck context path value atMs ≠ .ok
  · simp only [if_pos hcheck]
    exact .of_desk rfl
  · simp only [if_neg hcheck]
    have hdesk := d.desk_contextSlot context
    have hlength := length_contextSlot hctx context
    have horderly := (h.orderly.contextSlot h.closed context).1
    generalize (d.contextSlot context).1 = e at hdesk hlength horderly
    generalize (d.contextSlot context).2 = slot
    have hflush := (grows_flushWindow horderly hlength env).congr hdesk
    unfold publishInto
    cases e.coalesced slot path value atMs with
    | some table => exact .of_desk hdesk
    | none =>
      cases e.noPlace K slot path atMs with
      | false => exact .of_desk hdesk
      | true =>
        simp only [if_true]
        cases (e.flushWindow env).2 with
        | false => exact hflush
        | true => exact hflush.congr_right ((e.flushWindow env).1.desk_contextSlot context)

theorem length_ctx_flushWindow (env : Env) (h : d.ctx.length ≤ CONTEXTS_MAX) :
    (d.flushWindow env).1.ctx.length ≤ CONTEXTS_MAX := by
  rcases d.flushWindow_window env with ⟨hsame, _⟩ | ⟨_, _, hnil, _⟩
  · rwa [hsame]
  · rw [hnil]
    exact Nat.zero_le _

theorem length_ctx_closeDue (env : Env) (h : d.ctx.length ≤ CONTEXTS_MAX) :
    (d.closeDue env).ctx.length ≤ CONTEXTS_MAX := by
  unfold closeDue
  by_cases hdue : d.batchDue env.now = true
  · rw [if_pos hdue]
    exact length_ctx_flushWindow env h
  · rwa [if_neg hdue]

theorem length_ctx_step (K : Kconfig) (d : Engine maxMsgs) (call : Env × Op)
    (h : d.ctx.length ≤ CONTEXTS_MAX) : (step K d call).ctx.length ≤ CONTEXTS_MAX := by
  obtain ⟨env, op⟩ := call
  cases op with
  | publishAt context path value atMs =>
    simp only [step, Engine.publishAt]
    generalize context.getD SELF_CONTEXT = context
    by_cases hcheck : publishCheck context path value atMs ≠ .ok
    · simp only [if_pos hcheck]
      exact h
    · simp only [if_neg hcheck]
      have hlength := length_contextSlot h context
      generalize (d.contextSlot context).1 = e at hlength
      generalize (d.contextSlot context).2 = slot
      unfold publishInto
      cases e.coalesced slot path value atMs with
      | some table => exact hlength
      | none =>
        cases e.noPlace K slot path atMs with
        | false => exact hlength
        | true =>
          simp only [if_true]
          cases (e.flushWindow env).2 with
          | false => exact length_ctx_flushWindow env hlength
          | true => exact length_contextSlot (length_ctx_flushWindow env hlength) context
  | flush => exact length_ctx_flushWindow env h
  | take connected =>
    obtain ⟨_, hctx, _⟩ := openWindow_eq_iff.mp ((d.closeDue env).openWindow_send env connected)
    have hclosed := length_ctx_closeDue env h
    change (((d.closeDue env).send env connected).1).ctx.length ≤ CONTEXTS_MAX
    rwa [hctx]
  | requeue msg =>
    obtain ⟨_, hctx, _⟩ := openWindow_eq_iff.mp (d.openWindow_requeue msg)
    change (d.requeue msg).ctx.length ≤ CONTEXTS_MAX
    rwa [hctx]
  | setLabel label => exact h
  | setTiming batchMs drainPerS => exact h
  | setNoDrop noDrop => exact h

end Engine

end Espos.Sk.Delta
