import Espos.Sk.Delta.Reachable

-- The numbers of a window's updates: each is opened by the first value of its
-- time, so the message of a context has them in the order of first publish.

namespace Espos.Sk.Delta

open Espos.Text
open Espos.Run

-- What decides where an entry goes.
structure Key where
  ctx : Nat
  atMs : Int
  upd : Nat
deriving DecidableEq

def Entry.key (p : Entry) : Key :=
  ⟨p.ctx, p.atMs, p.upd⟩

-- A table and the number its next update gets.
inductive Numbered : List Key → Nat → Prop
  | nil : Numbered [] 0
  | joins {t : List Key} {n : Nat} (k q : Key) (ht : Numbered t n) (hq : q ∈ t)
      (hctx : q.ctx = k.ctx) (hat : q.atMs = k.atMs) (hupd : q.upd = k.upd) :
      Numbered (t ++ [k]) n
  | opens {t : List Key} {n : Nat} (k : Key) (ht : Numbered t n)
      (hnew : ∀ q ∈ t, q.ctx = k.ctx → q.atMs ≠ k.atMs) (hupd : k.upd = n) :
      Numbered (t ++ [k]) (n + 1)

namespace Numbered

variable {t : List Key} {n : Nat}

theorem lt (h : Numbered t n) : ∀ k ∈ t, k.upd < n := by
  induction h with
  | nil => nofun
  | joins k q ht hq hctx hat hupd ih =>
    intro p hp
    rcases List.mem_append.mp hp with hold | hnew
    · exact ih p hold
    · obtain rfl := List.mem_singleton.mp hnew
      exact hupd ▸ ih q hq
  | opens k ht hnew hupd ih =>
    intro p hp
    rcases List.mem_append.mp hp with hold | hlast
    · exact Nat.lt_succ_of_lt (ih p hold)
    · obtain rfl := List.mem_singleton.mp hlast
      exact Nat.lt_succ_of_le (Nat.le_of_eq hupd)

def isIn (ctx upd : Nat) (k : Key) : Bool :=
  k.ctx == ctx && k.upd == upd

-- When the first entry of an update was measured.
def timeOf (t : List Key) (ctx upd : Nat) : Option Int :=
  (t.find? (isIn ctx upd)).map Key.atMs

-- The times of a context, in order of first publish.
def times (t : List Key) (ctx : Nat) : List Int :=
  ((t.filter fun k => k.ctx == ctx).map Key.atMs).eraseDups

theorem timeOf_append_old {ctx upd : Nat} {k : Key}
    (h : isIn ctx upd k = true → ∃ q ∈ t, isIn ctx upd q = true) :
    timeOf (t ++ [k]) ctx upd = timeOf t ctx upd := by
  unfold timeOf
  rw [List.find?_append]
  cases hfind : t.find? (isIn ctx upd) with
  | some q => rfl
  | none =>
    cases hk : isIn ctx upd k with
    | false => simp [hk]
    | true =>
      obtain ⟨q, hq, hin⟩ := h hk
      exact absurd hin (List.find?_eq_none.mp hfind q hq)

theorem times_append_other {ctx : Nat} {k : Key} (h : k.ctx ≠ ctx) :
    times (t ++ [k]) ctx = times t ctx := by
  simp [times, List.filter_append, h]

theorem times_append (t : List Key) (k : Key) :
    times (t ++ [k]) k.ctx =
      if k.atMs ∈ times t k.ctx then times t k.ctx else times t k.ctx ++ [k.atMs] := by
  unfold times
  rw [List.filter_append, List.map_append, List.eraseDups_append]
  simp only [beq_self_eq_true, List.filter_cons_of_pos, List.filter_nil, List.map_cons,
    List.map_nil, List.mem_eraseDups]
  by_cases hmem : k.atMs ∈ (t.filter fun q => q.ctx == k.ctx).map Key.atMs
  · rw [if_pos hmem]
    simp [List.removeAll, hmem]
  · rw [if_neg hmem]
    simp [List.removeAll, hmem]
    rfl

theorem mem_times {ctx : Nat} {time : Int} :
    time ∈ times t ctx ↔ ∃ q ∈ t, q.ctx = ctx ∧ q.atMs = time := by
  simp [times, List.mem_eraseDups, and_assoc]

-- Going through the numbers finds the times in order of first publish.
theorem filterMap_timeOf (h : Numbered t n) (ctx : Nat) :
    (List.range n).filterMap (timeOf t ctx) = times t ctx := by
  induction h with
  | nil => rfl
  | @joins t n k q ht hq hctx hat hupd ih =>
    have hold : timeOf (t ++ [k]) ctx = timeOf t ctx := by
      funext upd
      apply timeOf_append_old
      intro hk
      refine ⟨q, hq, ?_⟩
      simpa only [isIn, hctx, hupd] using hk
    rw [hold, ih]
    by_cases hk : k.ctx = ctx
    · subst hk
      rw [times_append, if_pos (mem_times.mpr ⟨q, hq, hctx, hat⟩)]
    · rw [times_append_other hk]
  | @opens t n k ht hnew hupd ih =>
    have hlt := ht.lt
    have hold : ∀ upd ∈ List.range n, timeOf (t ++ [k]) ctx upd = timeOf t ctx upd := by
      intro upd hmem
      apply timeOf_append_old
      intro hk
      have hlast := List.mem_range.mp hmem
      simp only [isIn, Bool.and_eq_true, beq_iff_eq] at hk
      omega
    rw [List.range_succ, List.filterMap_append, List.filterMap_congr hold, ih]
    have hnone : t.find? (isIn ctx n) = none := by
      rw [List.find?_eq_none]
      intro q hq hin
      have hqlt := hlt q hq
      simp only [isIn, Bool.and_eq_true, beq_iff_eq] at hin
      omega
    by_cases hk : k.ctx = ctx
    · subst hk
      have hnot : k.atMs ∉ times t k.ctx := by
        rw [mem_times]
        rintro ⟨q, hq, hqctx, hqat⟩
        exact hnew q hq hqctx hqat
      have hlast : timeOf (t ++ [k]) k.ctx n = some k.atMs := by
        simp [timeOf, List.find?_append, hnone, isIn, hupd]
      rw [times_append, if_neg hnot]
      simp [hlast]
    · have hlast : timeOf (t ++ [k]) ctx n = none := by
        simp [timeOf, List.find?_append, hnone, isIn, hk]
      rw [times_append_other hk]
      simp [hlast]

end Numbered

namespace Engine

variable {maxMsgs : Nat} {d d' : Engine maxMsgs}

def Numbering (d : Engine maxMsgs) : Prop :=
  Numbered (d.pending.map Entry.key) d.updN

-- The times of a context's values, in order of first publish.
def timesOf (d : Engine maxMsgs) (ctx : Nat) : List Int :=
  ((d.pending.filter fun p => p.ctx == ctx).map Entry.atMs).eraseDups

-- The update of a time, with its values in the order of the window.
def updateAt (d : Engine maxMsgs) (ctx : Nat) (atMs : Int) : Update where
  date := entryDate atMs
  values := (d.pending.filter fun p => p.ctx == ctx && p.atMs == atMs).map Entry.named

theorem times_key (d : Engine maxMsgs) (ctx : Nat) :
    Numbered.times (d.pending.map Entry.key) ctx = d.timesOf ctx := by
  simp only [Numbered.times, timesOf, List.filter_map, List.map_map]
  rfl

theorem head?_updateFirst (d : Engine maxMsgs) (ctx upd : Nat) :
    (d.updateFirst ctx upd).head? = d.pending.find? (Entry.inUpdate ctx upd) := by
  unfold updateFirst
  induction d.pending with
  | nil => rfl
  | cons p ps ih =>
    cases hp : p.inUpdate ctx upd with
    | true => simp [hp]
    | false => simpa [hp] using ih

theorem updateDoc_eq (d : Engine maxMsgs) (ctx upd : Nat) :
    d.updateDoc ctx upd = (d.pending.find? (Entry.inUpdate ctx upd)).map fun f =>
      { date := entryDate f.atMs
        values := (d.pending.filter (Entry.inUpdate ctx upd)).map Entry.named } := by
  have hfilter := filter_dropWhile (Entry.inUpdate ctx upd) d.pending
  rw [← head?_updateFirst, ← hfilter]
  unfold updateDoc
  change _ = ((d.updateFirst ctx upd).head?).map fun f => Update.mk (entryDate f.atMs)
    (((d.updateFirst ctx upd).filter (Entry.inUpdate ctx upd)).map Entry.named)
  cases d.updateFirst ctx upd <;> rfl

theorem updateDoc_eq_updateAt (h : d.Orderly) (ctx upd : Nat) :
    d.updateDoc ctx upd =
      (Numbered.timeOf (d.pending.map Entry.key) ctx upd).map (d.updateAt ctx) := by
  have hfind : Numbered.timeOf (d.pending.map Entry.key) ctx upd =
      (d.pending.find? (Entry.inUpdate ctx upd)).map Entry.atMs := by
    rw [Numbered.timeOf, List.find?_map, Option.map_map]
    rfl
  rw [updateDoc_eq, hfind, Option.map_map]
  cases hf : d.pending.find? (Entry.inUpdate ctx upd) with
  | none => rfl
  | some f =>
    have hmem := List.mem_of_find?_eq_some hf
    have hin := List.find?_some hf
    simp only [Entry.inUpdate, Bool.and_eq_true, beq_iff_eq] at hin
    have hsame : d.pending.filter (Entry.inUpdate ctx upd) =
        d.pending.filter fun p => p.ctx == ctx && p.atMs == f.atMs := by
      apply List.filter_congr
      intro p hp
      rw [Bool.eq_iff_iff]
      simp only [Entry.inUpdate, Bool.and_eq_true, beq_iff_eq]
      refine and_congr_right fun hctx => ?_
      rw [← hin.2]
      exact (h.grouped p hp f hmem (hctx.trans hin.1.symm)).symm
    simp only [Option.map_some, Function.comp_apply, updateAt, hsame]

-- A message has an update per distinct time, in order of first publish.
theorem document_updates (h : d.Orderly) (hnumbering : d.Numbering) (ctx : Nat) :
    (d.document ctx).updates = (d.timesOf ctx).map (d.updateAt ctx) := by
  rw [← times_key, ← hnumbering.filterMap_timeOf, List.map_filterMap]
  exact List.filterMap_congr fun upd _ => updateDoc_eq_updateAt h ctx upd

theorem Numbering.congr (h : d.Numbering)
    (hkeys : d'.pending.map Entry.key = d.pending.map Entry.key) (hupd : d'.updN = d.updN) :
    d'.Numbering := by
  unfold Numbering
  rwa [hkeys, hupd]

theorem Numbering.of_pending_nil (h : d.pending = []) (hupd : d.updN = 0) : d.Numbering := by
  unfold Numbering
  rw [h, hupd]
  exact .nil

theorem Numbering.append (h : d.Numbering) (ctx : Nat) (path value : CStr) (atMs : Int)
    (now : UInt32) : (d.appendValue ctx path value atMs now).Numbering := by
  unfold Numbering
  simp only [appendValue, List.map_append, List.map_cons, List.map_nil]
  cases hof : d.updateOf ctx atMs with
  | none =>
    refine .opens _ h ?_ rfl
    intro q hq hctx
    obtain ⟨p, hp, rfl⟩ := List.mem_map.mp hq
    exact updateOf_eq_none hof p hp hctx
  | some u =>
    obtain ⟨p, hp, hctx, hat, hupd⟩ := updateOf_eq_some hof
    exact .joins _ p.key h (List.mem_map_of_mem hp) hctx hat hupd

theorem Numbering.flushWindow (h : d.Numbering) (env : Env) : (d.flushWindow env).1.Numbering := by
  rcases d.flushWindow_window env with ⟨hsame, _⟩ | ⟨_, hpending, _, hupd⟩
  · rwa [hsame]
  · exact .of_pending_nil hpending hupd

theorem Numbering.contextSlot (h : d.Numbering) (context : CStr) :
    (d.contextSlot context).1.Numbering := by
  rcases d.contextSlot_cases context with ⟨_, _, hslot⟩ | ⟨_, _, hslot⟩ | ⟨_, hslot⟩
  · rwa [hslot]
  · rwa [hslot]
  · rw [hslot]
    exact h

theorem Numbering.publishInto (h : d.Numbering) (K : Kconfig) (env : Env)
    (context path value : CStr) (atMs : Int) (ctx : Option Nat) :
    (d.publishInto K env context path value atMs ctx).1.Numbering := by
  unfold Engine.publishInto
  cases hcoalesced : d.coalesced ctx path value atMs with
  | some table =>
    obtain ⟨c, rfl, _, htable⟩ := coalesced_eq_some hcoalesced
    obtain ⟨older, p, newer, hpending, _, rfl⟩ := replaceValue_eq_some htable
    refine h.congr ?_ rfl
    rw [hpending]
    simp [setPending, Entry.key]
  | none =>
    cases hplace : d.noPlace K ctx path atMs with
    | false => exact h.append ..
    | true =>
      simp only [if_true]
      cases hdone : (d.flushWindow env).2 with
      | true => exact ((h.flushWindow env).contextSlot context).append ..
      | false => exact h.flushWindow env

theorem Numbering.publishAt (h : d.Numbering) (K : Kconfig) (env : Env) (context : Option CStr)
    (path value : CStr) (atMs : Int) : (d.publishAt K env context path value atMs).1.Numbering := by
  unfold Engine.publishAt
  by_cases hcheck : publishCheck (context.getD SELF_CONTEXT) path value atMs ≠ .ok
  · simp only [if_pos hcheck]
    exact h
  · simp only [if_neg hcheck]
    exact (h.contextSlot _).publishInto ..

end Engine

theorem numbering_step (K : Kconfig) {maxMsgs : Nat} (d : Engine maxMsgs) (call : Env × Op)
    (h : d.Numbering) : (step K d call).Numbering := by
  obtain ⟨env, op⟩ := call
  cases op with
  | publishAt context path value atMs => exact h.publishAt K env context path value atMs
  | flush => exact h.flushWindow env
  | take connected =>
    have hclosed : (d.closeDue env).Numbering := by
      unfold Engine.closeDue
      by_cases hdue : d.batchDue env.now = true
      · rw [if_pos hdue]
        exact h.flushWindow env
      · rwa [if_neg hdue]
    obtain ⟨hpending, _, hupd, _⟩ :=
      Engine.openWindow_eq_iff.mp ((d.closeDue env).openWindow_send env connected)
    exact hclosed.congr (by rw [← hpending]; rfl) hupd
  | requeue msg =>
    obtain ⟨hpending, _, hupd, _⟩ := Engine.openWindow_eq_iff.mp (d.openWindow_requeue msg)
    exact h.congr (by rw [← hpending]; rfl) hupd
  | setLabel label => exact h
  | setTiming batchMs drainPerS => exact h
  | setNoDrop noDrop => exact h

theorem numbering_run (K : Kconfig) (cfg : Cfg) (calls : List (Env × Op)) :
    (run (step K) (create cfg) calls).Numbering :=
  run_invariant (numbering_step K) (.of_pending_nil rfl rfl) calls

end Espos.Sk.Delta
