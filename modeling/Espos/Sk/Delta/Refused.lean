import Espos.Sk.Delta.Reachable

-- A publish that is refused may leave a context slot behind. Nothing shows it.

namespace Espos.Sk.Delta

open Espos.Text
open Espos.Run

-- `espos_sk_delta_stats`
structure Stats where
  pending : Nat
  buffered : Nat
  bufferedBytes : Nat
  counters : Counters
deriving DecidableEq

inductive Answer where
  | err (e : EspErr)
  | msg (m : Option Msg)
  | done
deriving DecidableEq

namespace Engine

variable {maxMsgs : Nat} (d : Engine maxMsgs)

def stats : Stats :=
  ⟨d.pending.length, d.ring.count, d.bytes, d.st⟩

def answer (K : Kconfig) (call : Env × Op) : Answer :=
  match call.2 with
  | .publishAt context path value atMs => .err (d.publishAt K call.1 context path value atMs).2
  | .flush => .err (d.flush call.1).2
  | .take connected => .msg (d.take call.1 connected).2
  | _ => .done

-- What each call of a sequence returns, and what the counters say then.
def answers (K : Kconfig) (d : Engine maxMsgs) : List (Env × Op) → List (Answer × Stats)
  | [] => []
  | call :: calls =>
    (d.answer K call, (step K d call).stats) :: answers K (step K d call) calls

def setCtx (ctx : List CStr) : Engine maxMsgs :=
  { d with ctx }

-- Engines that differ at most in context slots no value uses, with a table of values that
-- has no place for another.
inductive Beside (K : Kconfig) (d : Engine maxMsgs) : Engine maxMsgs → Prop where
  | same : Beside K d d
  | spare (base x y : List CStr) (hctx : d.ctx = base ++ x)
      (hfull : d.pending.length = K.skPendingMax) (hknown : ∀ p ∈ d.pending, p.ctx < base.length) :
      Beside K d (d.setCtx (base ++ y))

variable {d}

-- Calls that do not look at the context table

theorem makeRoom_setCtx (z : List CStr) (len turns : Nat) (d : Engine maxMsgs) :
    makeRoom len turns (d.setCtx z) = (makeRoom len turns d).setCtx z := by
  induction turns generalizing d with
  | zero => rfl
  | succ turns ih =>
    have hsame : (d.setCtx z).exceeds 1 len = d.exceeds 1 len := rfl
    have hring : (d.setCtx z).ring = d.ring := rfl
    simp only [makeRoom, hsame, hring]
    by_cases hturn : d.ring.count ≠ 0 ∧ d.exceeds 1 len = true
    · rw [if_pos hturn, if_pos hturn]
      exact ih d.dropOldest
    · rw [if_neg hturn, if_neg hturn]

theorem pushBuilt_setCtx (z : List CStr) (noDrop : Bool) (d : Engine maxMsgs) (q : Queued) :
    pushBuilt noDrop (d.setCtx z) q = (pushBuilt noDrop d q).setCtx z := by
  have hroom := makeRoom_setCtx z q.msg.text.length d.ring.count d.countBuilt
  change ((d.countBuilt.setCtx z).ringPush q noDrop).1 = (d.countBuilt.ringPush q noDrop).1.setCtx z
  have hsame : (d.countBuilt.setCtx z).exceeds 1 q.msg.text.length =
      d.countBuilt.exceeds 1 q.msg.text.length := rfl
  simp only [ringPush, hsame]
  by_cases hrefused : (noDrop && d.countBuilt.exceeds 1 q.msg.text.length) = true
  · rw [if_pos hrefused, if_pos hrefused]
  · rw [if_neg hrefused, if_neg hrefused]
    have hcount : (d.countBuilt.setCtx z).ring.count = d.ring.count := rfl
    have hcount' : d.countBuilt.ring.count = d.ring.count := rfl
    simp only [pushDropping, hcount, hcount', hroom]
    generalize makeRoom q.msg.text.length d.ring.count d.countBuilt = e
    have hmax : (e.setCtx z).maxBytes = e.maxBytes := rfl
    rw [hmax]
    by_cases hlarge : e.maxBytes ≠ 0 ∧ e.maxBytes < q.msg.text.length
    · rw [if_pos hlarge, if_pos hlarge]
      rfl
    · rw [if_neg hlarge, if_neg hlarge]
      rfl

theorem foldl_pushBuilt_setCtx (z : List CStr) (noDrop : Bool) (qs : List Queued)
    (d : Engine maxMsgs) :
    qs.foldl (pushBuilt noDrop) (d.setCtx z) = (qs.foldl (pushBuilt noDrop) d).setCtx z := by
  induction qs generalizing d with
  | nil => rfl
  | cons q qs ih => rw [List.foldl_cons, List.foldl_cons, pushBuilt_setCtx, ih]

theorem ringPop_setCtx (z : List CStr) (d : Engine maxMsgs) :
    (d.setCtx z).ringPop = d.ringPop.map fun p => (p.1, p.2.setCtx z) := by
  have hring : (d.setCtx z).ring = d.ring := rfl
  simp only [ringPop, hring]
  cases d.ring.popFront <;> rfl

theorem handOut_setCtx (z : List CStr) (d : Engine maxMsgs) (env : Env) :
    (d.setCtx z).handOut env = ((d.handOut env).1.setCtx z, (d.handOut env).2) := by
  simp only [handOut, ringPop_setCtx]
  cases d.ringPop with
  | none => rfl
  | some p =>
    obtain ⟨q, e⟩ := p
    simp only [Option.map_some]
    by_cases hdated : q.stampAt = 0
    · rw [if_pos hdated, if_pos hdated]
      rfl
    · rw [if_neg hdated, if_neg hdated]
      have hsame : Engine.stamp
          { e.setCtx z with
            lastTakeMs := env.now
            st := { (e.setCtx z).st with taken := (e.setCtx z).st.taken + 1 }
            unstamped := none } env q.msg q.batchMs q.stampAt =
          Engine.stamp
            { e with
              lastTakeMs := env.now
              st := { e.st with taken := e.st.taken + 1 }
              unstamped := none } env q.msg q.batchMs q.stampAt := rfl
      rw [hsame]
      generalize Engine.stamp _ env q.msg q.batchMs q.stampAt = stamped
      cases stamped <;> rfl

theorem send_setCtx (z : List CStr) (d : Engine maxMsgs) (env : Env) (connected : Bool) :
    (d.setCtx z).send env connected =
      ((d.send env connected).1.setCtx z, (d.send env connected).2) := by
  have hring : (d.setCtx z).ring = d.ring := rfl
  have hbacklog : (d.setCtx z).backlog = d.backlog := rfl
  have hsoon : (d.setCtx z).tooSoon env.now = d.tooSoon env.now := rfl
  simp only [send, hring, hbacklog, hsoon]
  by_cases hoff : (!connected || decide (d.ring.count = 0)) = true
  · rw [if_pos hoff, if_pos hoff]
    rfl
  · rw [if_neg hoff, if_neg hoff]
    by_cases hwait : (d.backlog && d.tooSoon env.now) = true
    · rw [if_pos hwait, if_pos hwait]
    · rw [if_neg hwait, if_neg hwait]
      exact handOut_setCtx z (d.setDraining (d.backlog && decide (1 < d.ring.count))) env

theorem requeue_setCtx (z : List CStr) (d : Engine maxMsgs) (msg : Msg) :
    (d.setCtx z).requeue msg = (d.requeue msg).setCtx z := by
  have hring : (d.setCtx z).ring = d.ring := rfl
  simp only [requeue, hring]
  by_cases hfull : maxMsgs ≤ d.ring.count
  · rw [if_pos hfull, if_pos hfull]
    rfl
  · rw [if_neg hfull, if_neg hfull]
    rfl

-- Closing the window builds the same messages, and leaves no slot.

theorem usedContexts_of_base {base x : List CStr} (hctx : d.ctx = base ++ x)
    (hknown : ∀ p ∈ d.pending, p.ctx < base.length) :
    d.usedContexts =
      (List.range base.length).filter fun c => d.pending.any fun p => p.ctx == c := by
  unfold usedContexts
  rw [hctx, List.length_append, List.range_add, List.filter_append]
  have hnone : ((List.range x.length).map (base.length + ·)).filter
      (fun c => d.pending.any fun p => p.ctx == c) = [] := by
    rw [List.filter_eq_nil_iff]
    intro c hc hused
    obtain ⟨i, _, rfl⟩ := List.mem_map.mp hc
    obtain ⟨p, hp, hpc⟩ := List.any_eq_true.mp hused
    have hlt := hknown p hp
    have heq := beq_iff_eq.mp hpc
    omega
  rw [hnone, List.append_nil]

theorem buildMessage_setCtx {z : List CStr} {c : Nat} (env : Env)
    (hget : z.getD c [] = d.ctx.getD c []) :
    (d.setCtx z).buildMessage env c = d.buildMessage env c := by
  have hctx : (d.setCtx z).ctx.getD c [] = d.ctx.getD c [] := hget
  have hmessage : (d.setCtx z).writeMessage c = d.writeMessage c := by
    simp only [writeMessage, hctx]
    rfl
  have hdocument : (d.setCtx z).document c = d.document c := by
    simp only [document, hctx]
    rfl
  simp only [buildMessage, hmessage, hdocument]
  rfl

theorem messages_setCtx {base x y : List CStr} (env : Env) (hctx : d.ctx = base ++ x)
    (hknown : ∀ p ∈ d.pending, p.ctx < base.length) :
    (d.setCtx (base ++ y)).messages env = d.messages env := by
  have hbase : (d.setCtx (base ++ y)).usedContexts = d.usedContexts := by
    rw [usedContexts_of_base hctx hknown]
    exact usedContexts_of_base rfl hknown
  unfold messages
  rw [hbase, usedContexts_of_base hctx hknown]
  refine List.filterMap_congr fun c hc => ?_
  have hlt : c < base.length := List.mem_range.mp (List.mem_of_mem_filter hc)
  apply buildMessage_setCtx
  simp [List.getD_eq_getElem?_getD, hctx, List.getElem?_append_left hlt]

theorem flushWindow_setCtx {base x y : List CStr} (env : Env) (hctx : d.ctx = base ++ x)
    (hknown : ∀ p ∈ d.pending, p.ctx < base.length) :
    ((d.setCtx (base ++ y)).flushWindow env).2 = (d.flushWindow env).2 ∧
      ((d.flushWindow env).1 = d ∧
          ((d.setCtx (base ++ y)).flushWindow env).1 = d.setCtx (base ++ y) ∨
        ((d.setCtx (base ++ y)).flushWindow env).1 = (d.flushWindow env).1) := by
  have hmessages := messages_setCtx (y := y) env hctx hknown
  have hpending : (d.setCtx (base ++ y)).pending = d.pending := rfl
  have hnoDrop : (d.setCtx (base ++ y)).noDrop = d.noDrop := rfl
  have hfits : ∀ qs, (d.setCtx (base ++ y)).fitsEmpty qs = d.fitsEmpty qs := fun _ => rfl
  have hexceeds : ∀ n len, (d.setCtx (base ++ y)).exceeds n len = d.exceeds n len := fun _ _ => rfl
  simp only [flushWindow, hmessages, hpending, hnoDrop, hfits, hexceeds, foldl_pushBuilt_setCtx]
  by_cases hnil : d.pending = []
  · simp only [if_pos hnil]
    exact ⟨trivial, .inl ⟨trivial, trivial⟩⟩
  · simp only [if_neg hnil]
    generalize (d.noDrop && d.fitsEmpty (d.messages env) &&
      d.exceeds (d.messages env).length (totalBytes (d.messages env))) = held
    cases held with
    | true => exact ⟨rfl, .inl ⟨rfl, rfl⟩⟩
    | false => exact ⟨rfl, .inr rfl⟩

-- A slot of the part that both tables have, or one that no value uses.
theorem contextSlot_of_base {base x : List CStr} (hctx : d.ctx = base ++ x) (context : CStr) :
    (∃ i, base.idxOf? context = some i ∧ i < base.length ∧ d.contextSlot context = (d, some i)) ∨
      base.idxOf? context = none ∧ ∃ x' c, d.contextSlot context = (d.setCtx (base ++ x'), c) ∧
        ∀ i, c = some i → base.length ≤ i := by
  have hidx : d.ctx.idxOf? context =
      (base.idxOf? context).or ((x.idxOf? context).map (· + base.length)) := by
    rw [hctx]
    exact List.findIdx?_append
  have hself : d.setCtx (base ++ x) = d := by rw [← hctx]; rfl
  unfold contextSlot
  rw [hidx]
  cases hbase : base.idxOf? context with
  | some i =>
    obtain ⟨hi, _⟩ := List.idxOf?_eq_some_iff.mp hbase
    exact .inl ⟨i, rfl, hi, rfl⟩
  | none =>
    refine .inr ⟨rfl, ?_⟩
    cases hx : x.idxOf? context with
    | some i =>
      refine ⟨x, some (i + base.length), ?_, fun j hj => ?_⟩
      · simp [hself]
      · obtain rfl := Option.some.inj hj
        exact Nat.le_add_left _ _
    | none =>
      by_cases hfull : d.ctx.length = CONTEXTS_MAX
      · refine ⟨x, none, ?_, nofun⟩
        simp [hself, hfull]
      · refine ⟨x ++ [context], some d.ctx.length, ?_, fun j hj => ?_⟩
        · simp only [Option.map_none, Option.or_none]
          rw [if_neg hfull]
          simp only [addContext, setCtx, hctx, List.append_assoc]
        · obtain rfl := Option.some.inj hj
          simp [hctx]

theorem coalesced_fresh {n : Nat} {c : Option Nat} {path value : CStr} {atMs : Int}
    (hknown : ∀ p ∈ d.pending, p.ctx < n) (hfresh : ∀ i, c = some i → n ≤ i) :
    d.coalesced c path value atMs = none := by
  cases hsome : d.coalesced c path value atMs with
  | none => rfl
  | some table =>
    obtain ⟨i, rfl, _, htable⟩ := coalesced_eq_some hsome
    obtain ⟨before, p, after, hsplit, hholds, _⟩ := replaceValue_eq_some htable
    have hlt := hknown p (by rw [hsplit]; simp)
    have hle := hfresh i rfl
    have hat := (holds_iff.mp hholds).1
    omega

-- With a full table of values, a value that replaces none closes the window.
theorem publishInto_full {K : Kconfig} {env : Env} {context path value : CStr} {atMs : Int}
    {c : Option Nat} (hnew : d.coalesced c path value atMs = none)
    (hfull : d.pending.length = K.skPendingMax) :
    d.publishInto K env context path value atMs c =
      if (d.flushWindow env).2 then
        ((((d.flushWindow env).1.contextSlot context).1.appendValue
          (slotByte ((d.flushWindow env).1.contextSlot context).2) path value atMs env.now), .ok)
      else ((d.flushWindow env).1, .noMem) := by
  have hplace : d.noPlace K c path atMs = true := by simp [noPlace, hfull]
  simp only [publishInto, hnew, hplace, if_true]

variable {K : Kconfig} {e : Engine maxMsgs}

theorem beside_flushWindow (h : Beside K d e) (env : Env) :
    (e.flushWindow env).2 = (d.flushWindow env).2 ∧
      Beside K (d.flushWindow env).1 (e.flushWindow env).1 := by
  cases h with
  | same => exact ⟨rfl, .same⟩
  | spare base x y hctx hfull hknown =>
    obtain ⟨hdone, ⟨hkept, hkept'⟩ | hequal⟩ := flushWindow_setCtx (y := y) env hctx hknown
    · rw [hkept, hkept']
      exact ⟨hdone, .spare base x y hctx hfull hknown⟩
    · rw [hequal]
      exact ⟨hdone, .same⟩

theorem overflow_beside {base x y : List CStr} {c c' : Option Nat} {env : Env}
    {context path value : CStr} {atMs : Int} (hctx : d.ctx = base ++ x)
    (hfull : d.pending.length = K.skPendingMax) (hknown : ∀ p ∈ d.pending, p.ctx < base.length)
    (hnew : d.coalesced c path value atMs = none)
    (hnew' : (d.setCtx (base ++ y)).coalesced c' path value atMs = none) :
    ((d.setCtx (base ++ y)).publishInto K env context path value atMs c').2 =
        (d.publishInto K env context path value atMs c).2 ∧
      Beside K (d.publishInto K env context path value atMs c).1
        ((d.setCtx (base ++ y)).publishInto K env context path value atMs c').1 := by
  have hopen : d.pending ≠ [] := by
    intro hnil
    have hrange := K.skPendingMax_range
    rw [hnil, List.length_nil] at hfull
    omega
  rw [publishInto_full hnew hfull, publishInto_full hnew' hfull]
  obtain ⟨hdone, hcases⟩ := flushWindow_setCtx (y := y) env hctx hknown
  rw [hdone]
  cases hclosed : (d.flushWindow env).2 with
  | true =>
    rcases hcases with ⟨hkept, _⟩ | hequal
    · exfalso
      rcases d.flushWindow_window env with ⟨_, hnone⟩ | ⟨_, hnone, _⟩
      · exact hopen (hnone hclosed)
      · rw [hkept] at hnone
        exact hopen hnone
    · rw [hequal]
      exact ⟨rfl, .same⟩
  | false =>
    rcases hcases with ⟨hkept, hkept'⟩ | hequal
    · rw [hkept, hkept']
      exact ⟨rfl, .spare base x y hctx hfull hknown⟩
    · rw [hequal]
      exact ⟨rfl, .same⟩

theorem beside_publishAt (h : Beside K d e) (env : Env) (context : Option CStr)
    (path value : CStr) (atMs : Int) :
    (e.publishAt K env context path value atMs).2 = (d.publishAt K env context path value atMs).2 ∧
      Beside K (d.publishAt K env context path value atMs).1
        (e.publishAt K env context path value atMs).1 := by
  cases h with
  | same => exact ⟨rfl, .same⟩
  | spare base x y hctx hfull hknown =>
    unfold publishAt
    generalize context.getD SELF_CONTEXT = context
    by_cases hcheck : publishCheck context path value atMs ≠ .ok
    · simp only [if_pos hcheck]
      exact ⟨trivial, .spare base x y hctx hfull hknown⟩
    · simp only [if_neg hcheck]
      have hctx' : (d.setCtx (base ++ y)).ctx = base ++ y := rfl
      rcases contextSlot_of_base hctx context with ⟨i, hi, hlt, hslot⟩ | ⟨hnone, x', c, hslot, hc⟩
      · rcases contextSlot_of_base hctx' context with ⟨j, hj, _, hslot'⟩ | ⟨hnone, _⟩
        · obtain rfl : i = j := Option.some.inj (hi.symm.trans hj)
          rw [hslot, hslot']
          simp only
          cases hcoalesced : d.coalesced (some i) path value atMs with
          | none => exact overflow_beside hctx hfull hknown hcoalesced hcoalesced
          | some table =>
            have hcoalesced' :
                (d.setCtx (base ++ y)).coalesced (some i) path value atMs = some table :=
              hcoalesced
            simp only [publishInto, hcoalesced, hcoalesced']
            obtain ⟨_, _, _, htable⟩ := coalesced_eq_some hcoalesced
            obtain ⟨before, p, after, hsplit, _, rfl⟩ := replaceValue_eq_some htable
            refine ⟨trivial, .spare base x y hctx ?_ fun q hq => ?_⟩
            · rw [← hfull, hsplit]
              simp [setPending]
            · rw [hsplit] at hknown
              rcases List.mem_append.mp hq with hq | hq
              · exact hknown q (List.mem_append_left _ hq)
              · rcases List.mem_cons.mp hq with rfl | hq
                · exact hknown p (by simp)
                · exact hknown q (by simp [hq])
        · rw [hi] at hnone
          cases hnone
      · rcases contextSlot_of_base hctx' context with ⟨j, hj, _⟩ | ⟨_, y', c', hslot', hc'⟩
        · rw [hj] at hnone
          cases hnone
        · rw [hslot, hslot']
          exact overflow_beside (d := d.setCtx (base ++ x')) rfl hfull hknown
            (coalesced_fresh hknown hc) (coalesced_fresh hknown hc')

theorem beside_take (h : Beside K d e) (env : Env) (connected : Bool) :
    (e.take env connected).2 = (d.take env connected).2 ∧
      Beside K (d.take env connected).1 (e.take env connected).1 := by
  have hclosed : Beside K (d.closeDue env) (e.closeDue env) := by
    have hdue : e.batchDue env.now = d.batchDue env.now := by cases h <;> rfl
    unfold closeDue
    rw [hdue]
    cases d.batchDue env.now with
    | true => exact (beside_flushWindow h env).2
    | false => exact h
  unfold take
  generalize d.closeDue env = d at hclosed
  generalize e.closeDue env = e at hclosed
  cases hclosed with
  | same => exact ⟨rfl, .same⟩
  | spare base x y hctx hfull hknown =>
    obtain ⟨hpending, hctx', _⟩ := openWindow_eq_iff.mp (d.openWindow_send env connected)
    rw [send_setCtx]
    exact ⟨rfl, .spare base x y (hctx'.trans hctx) (by rw [hpending, hfull])
      (by rwa [hpending])⟩

theorem beside_requeue (h : Beside K d e) (msg : Msg) :
    Beside K (d.requeue msg) (e.requeue msg) := by
  cases h with
  | same => exact .same
  | spare base x y hctx hfull hknown =>
    obtain ⟨hpending, hctx', _⟩ := openWindow_eq_iff.mp (d.openWindow_requeue msg)
    rw [requeue_setCtx]
    exact .spare base x y (hctx'.trans hctx) (by rw [hpending, hfull]) (by rwa [hpending])

theorem beside_step (h : Beside K d e) (call : Env × Op) :
    e.answer K call = d.answer K call ∧ Beside K (step K d call) (step K e call) := by
  obtain ⟨env, op⟩ := call
  cases op with
  | publishAt context path value atMs =>
    obtain ⟨herr, hnext⟩ := beside_publishAt h env context path value atMs
    exact ⟨congrArg Answer.err herr, hnext⟩
  | flush =>
    obtain ⟨hdone, hnext⟩ := beside_flushWindow h env
    refine ⟨?_, hnext⟩
    simp only [answer, flush, hdone]
  | take connected =>
    obtain ⟨hmsg, hnext⟩ := beside_take h env connected
    exact ⟨congrArg Answer.msg hmsg, hnext⟩
  | requeue msg => exact ⟨rfl, beside_requeue h msg⟩
  | setLabel label | setTiming batchMs drainPerS | setNoDrop noDrop =>
    refine ⟨rfl, ?_⟩
    cases h with
    | same => exact .same
    | spare base x y hctx hfull hknown => exact .spare base x y hctx hfull hknown

theorem stats_beside (h : Beside K d e) : e.stats = d.stats := by
  cases h <;> rfl

theorem answers_beside (h : Beside K d e) (calls : List (Env × Op)) :
    answers K e calls = answers K d calls := by
  induction calls generalizing d e with
  | nil => rfl
  | cons call calls ih =>
    obtain ⟨hanswer, hnext⟩ := beside_step h call
    simp only [answers, hanswer, stats_beside hnext, ih hnext]

-- What a refused publish leaves behind is a slot, beside a full table.
theorem beside_refused (h : d.Orderly) {env : Env} {context : Option CStr} {path value : CStr}
    {atMs : Int} (hrefused : (d.publishAt K env context path value atMs).2 ≠ .ok) :
    Beside K d (d.publishAt K env context path value atMs).1 := by
  unfold publishAt at hrefused ⊢
  generalize context.getD SELF_CONTEXT = context at hrefused ⊢
  by_cases hcheck : publishCheck context path value atMs ≠ .ok
  · simp only [if_pos hcheck]
    exact .same
  · simp only [if_neg hcheck] at hrefused ⊢
    -- a value refused has not been placed, and the window has been kept
    have hkept : ∀ (f : Engine maxMsgs) (c : Option Nat),
        (f.publishInto K env context path value atMs c).2 ≠ .ok →
          (f.publishInto K env context path value atMs c).1 = f ∧
            f.noPlace K c path atMs = true := by
      intro f c hno
      unfold publishInto at hno ⊢
      cases hcoalesced : f.coalesced c path value atMs with
      | some table => simp [hcoalesced] at hno
      | none =>
        cases hplace : f.noPlace K c path atMs with
        | false => simp [hcoalesced, hplace] at hno
        | true =>
          simp only [hcoalesced, hplace, if_true] at hno ⊢
          cases hdone : (f.flushWindow env).2 with
          | true => simp [hdone] at hno
          | false =>
            refine ⟨?_, trivial⟩
            rcases f.flushWindow_window env with ⟨hsame, _⟩ | ⟨hdone', _⟩
            · exact hsame
            · rw [hdone] at hdone'
              cases hdone'
    rcases d.contextSlot_cases context with ⟨i, hi, hslot⟩ | ⟨hnot, hfull, hslot⟩ | ⟨hnot, hslot⟩
    · rw [hslot] at hrefused ⊢
      rw [(hkept d (some i) hrefused).1]
      exact .same
    · rw [hslot] at hrefused ⊢
      rw [(hkept d none hrefused).1]
      exact .same
    · rw [hslot] at hrefused ⊢
      obtain ⟨hsame, hplace⟩ := hkept (d.addContext context) (some d.ctx.length) hrefused
      rw [hsame]
      refine .spare d.ctx [] [context] (List.append_nil _).symm ?_ h.known
      -- a new context has no update, so only the table of values can be full
      have hupd : (d.addContext context).updateOf d.ctx.length atMs = none := by
        cases hof : (d.addContext context).updateOf d.ctx.length atMs with
        | none => rfl
        | some u =>
          obtain ⟨q, hq, hqctx, _⟩ := updateOf_eq_some hof
          have hlt := h.known q hq
          omega
      have horder : (d.addContext context).reorders (some d.ctx.length) path atMs = false := by
        simp [reorders, hupd, overtakes]
      have hpending : (d.addContext context).pending = d.pending := rfl
      simpa [noPlace, horder, hpending] using hplace

end Engine

-- After a publish that was refused, every call answers as if it had not been made.
theorem refused_publish_invisible (K : Kconfig) (cfg : Cfg) (calls : List (Env × Op)) (env : Env)
    (context : Option CStr) (path value : CStr) (atMs : Int)
    (hrefused :
      ((run (step K) (create cfg) calls).publishAt K env context path value atMs).2 ≠ .ok)
    (later : List (Env × Op)) :
    ((run (step K) (create cfg) calls).publishAt K env context path value atMs).1.stats =
        (run (step K) (create cfg) calls).stats ∧
      ((run (step K) (create cfg) calls).publishAt K env context path value atMs).1.answers K
          later =
        (run (step K) (create cfg) calls).answers K later := by
  have hbeside := Engine.beside_refused (tidy_run K cfg calls).orderly hrefused
  exact ⟨Engine.stats_beside hbeside, Engine.answers_beside hbeside later⟩

def smallTable : Kconfig :=
  { Kconfig.default with skPendingMax := 4, skPendingMax_range := by decide }

-- A full ring, and a full window beside it.
def fullWindow : List (Env × Op) :=
  let env := Env.clockless 0
  [(env, .publishAt none (lit "a") (lit "1") 0), (env, .flush)] ++
    ["b", "c", "d", "e"].map fun path => (env, .publishAt none (lit path) (lit "1") 0)

theorem refused_publish_leaves_slot :
    ((run (step smallTable) (create (Cfg.ofRing 1 0 true)) fullWindow).publishAt smallTable
        (Env.clockless 0) (some (lit "x")) (lit "a") (lit "1") 0).1.ctx ≠
      (run (step smallTable) (create (Cfg.ofRing 1 0 true)) fullWindow).ctx ∧
    ((run (step smallTable) (create (Cfg.ofRing 1 0 true)) fullWindow).publishAt smallTable
        (Env.clockless 0) (some (lit "x")) (lit "a") (lit "1") 0).1.answers smallTable
          [(Env.clockless 0, .take true)] =
      (run (step smallTable) (create (Cfg.ofRing 1 0 true)) fullWindow).answers smallTable
        [(Env.clockless 0, .take true)] :=
  ⟨by decide +kernel, (refused_publish_invisible smallTable (Cfg.ofRing 1 0 true) fullWindow
    (Env.clockless 0) (some (lit "x")) (lit "a") (lit "1") 0 (by decide +kernel) _).2⟩

end Espos.Sk.Delta
