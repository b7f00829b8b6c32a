import Mathlib.Data.List.Nodup
import Espos.Lib.Run
import Espos.Sk.Inbound.Subscriptions

namespace Espos.Sk.Inbound

open Espos.Text
open Espos.Run
open Espos.Sk.Delta (PATH_MAX)

-- The device and what the server has been told since the last connect.
structure Link where
  s : State
  server : List Item

inductive Event
  | subscribe (pattern : CStr) (periodMs : UInt32) (cb : Option Nat)
  | unsubscribe (handle : Nat)
  | sendRaw (json : CStr)
  | connect
  | disconnect
  | takeFrame

-- The server's subscriptions after a frame: a later entry for a pattern takes
-- the place of an earlier one. A frame that did not fit its buffer says
-- nothing the server could read.
def Frame.replay (server : List Item) (f : Frame) : List Item :=
  if f.fits then
    match f.content with
    | .subscribe items =>
      (server.filter fun i => !items.any fun j => j.pattern == i.pattern) ++ items
    | .unsubscribe patterns => server.filter fun i => !patterns.contains i.pattern
    | .other => server
  else server

namespace Link

def start : Link :=
  ⟨State.init, []⟩

def step (K : Kconfig) (w : Link) : Event → Link
  | .subscribe pattern periodMs cb => { w with s := (w.s.subscribe K pattern periodMs cb).1 }
  | .unsubscribe handle => { w with s := (w.s.unsubscribe handle).1 }
  | .sendRaw json => { w with s := (w.s.sendRaw json).1 }
  | .connect => ⟨w.s.setConnected true, []⟩
  | .disconnect => { w with s := w.s.setConnected false }
  | .takeFrame =>
    ⟨(w.s.takeFrame true).1, (w.s.takeFrame true).2.elim w.server (Frame.replay w.server)⟩

-- The live subscriptions an entry of the server was sent for.
def liveOf (subs : List Sub) (i : Item) : List Sub :=
  subs.filter fun e => i.group.contains e.handle

-- The server has the shortest period of the live subscriptions that were sent
-- together.
def Shortest (subs : List Sub) (i : Item) : Prop :=
  (∀ e ∈ liveOf subs i, i.periodMs ≤ e.periodMs) ∧
    (liveOf subs i ≠ [] → ∃ e ∈ liveOf subs i, e.periodMs = i.periodMs)

-- Both sides have the same patterns, at the right periods.
def Agrees (w : Link) : Prop :=
  (∀ p, p ∈ w.server.map Item.pattern ↔ p ∈ w.s.subs.map Sub.pattern) ∧
    ∀ i ∈ w.server, Shortest w.s.subs i

-- Of the entries not sent yet, a pattern's first has its shortest period.
def ShortestFirst (s : State) : Prop :=
  ∀ before e after, s.unsent = before ++ e :: after → (∀ f ∈ before, f.pattern ≠ e.pattern) →
    ∀ f ∈ after, f.pattern = e.pattern → e.periodMs ≤ f.periodMs

-- A subscription that goes away is one the server hears about, or need not
-- hear about: another one covers its pattern, or there is a row left to tell
-- the server in, or the server does not have the pattern. And it is not the
-- only one with the period the server has while longer ones stay.
def Parts (w : Link) (before : List Sub) (e : Sub) (after : List Sub) : Prop :=
  (State.covered before e after = true ∨
    (if e.sent then w.s.pendingUnsub.length < MAX_UNSUB
      else ∀ i ∈ w.server, i.pattern = e.pattern → e.pattern ∈ w.s.pendingUnsub)) ∧
    ∀ i ∈ w.server, liveOf (before ++ after) i = [] ∨
      ∃ f ∈ liveOf (before ++ after) i, f.periodMs = i.periodMs

instance (w : Link) (before : List Sub) (e : Sub) (after : List Sub) :
    Decidable (w.Parts before e after) :=
  inferInstanceAs (Decidable ((_ ∨ if e.sent then w.s.pendingUnsub.length < MAX_UNSUB else _) ∧ _))

-- The calls that keep the two sides together.
def Heeds (w : Link) : Event → Prop
  | .unsubscribe handle =>
    w.s.connected = true → ∀ before e after,
      State.locate handle w.s.subs = some (before, e, after) → w.Parts before e after
  | .connect => w.s.connected = true → ∀ e ∈ w.s.subs, e.sent = false
  | .takeFrame =>
    (w.s.connected = true ∨ w.s.subs = []) ∧
      (w.s.raw = [] → w.s.pendingUnsub = [] → w.s.dirty = true →
        w.s.subscribeFrame.fits = true ∧ ShortestFirst w.s)
  | _ => True

-- What holds between the two sides, taking the pending unsubscribes as done.
structure InStep (w : Link) : Prop where
  handles : (w.s.subs.map Sub.handle).Nodup
  issued : ∀ e ∈ w.s.subs, e.handle < w.s.nextHandle
  grouped : ∀ i ∈ w.server, ∀ h ∈ i.group, h < w.s.nextHandle
  sized : ∀ e ∈ w.s.subs, e.pattern.length < PATH_MAX
  unsubSized : ∀ p ∈ w.s.pendingUnsub, p.length < PATH_MAX
  noticed : (∃ e ∈ w.s.subs, e.sent = false) → w.s.dirty = true
  apart : w.s.connected = false → ∀ e ∈ w.s.subs, e.sent = false
  alone : w.s.connected = false → w.s.pendingUnsub = []
  known : w.s.connected = true → ∀ e ∈ w.s.subs, e.sent = true →
    e.pattern ∈ w.server.map Item.pattern ∧ e.pattern ∉ w.s.pendingUnsub
  wanted : w.s.connected = true → ∀ i ∈ w.server, i.pattern ∉ w.s.pendingUnsub →
    i.pattern ∈ w.s.subs.map Sub.pattern
  shortest : w.s.connected = true → ∀ i ∈ w.server, Shortest w.s.subs i

variable {w : Link} {K : Kconfig}

theorem locate_eq_some {handle : Nat} {subs before after : List Sub} {e : Sub}
    (h : State.locate handle subs = some (before, e, after)) :
    subs = before ++ e :: after ∧ e.handle = handle := by
  induction subs generalizing before with
  | nil => cases h
  | cons f subs ih =>
    unfold State.locate at h
    split at h
    · rename_i hf
      cases h
      exact ⟨rfl, hf⟩
    · obtain ⟨⟨rest, e', after'⟩, hrest, heq⟩ := Option.map_eq_some_iff.mp h
      cases heq
      obtain ⟨hsubs, hhandle⟩ := ih hrest
      exact ⟨by rw [hsubs]; rfl, hhandle⟩

theorem inStep_start : start.InStep := by
  constructor <;> simp [start, State.init]

-- Subscribing

theorem liveOf_concat {subs : List Sub} {e : Sub} {i : Item} (h : e.handle ∉ i.group) :
    liveOf (subs ++ [e]) i = liveOf subs i := by
  simp [liveOf, h]

theorem InStep.subscribe (h : w.InStep) (pattern : CStr) (periodMs : UInt32) (cb : Option Nat) :
    (w.step K (.subscribe pattern periodMs cb)).InStep := by
  simp only [step, State.subscribe]
  split
  · exact h
  · split
    · exact h
    · rename_i hpattern
      split
      · exact h
      · have hnew : w.s.nextHandle ∉ w.s.subs.map Sub.handle := by
          intro hmem
          obtain ⟨e, he, heq⟩ := List.mem_map.mp hmem
          have := h.issued e he
          omega
        have hlive (i : Item) (hi : i ∈ w.server) : w.s.nextHandle ∉ i.group := by
          intro hmem
          have := h.grouped i hi _ hmem
          omega
        refine ⟨?_, ?_, ?_, ?_, h.unsubSized, fun _ => rfl, ?_, h.alone, ?_, ?_, ?_⟩
        · rw [List.map_append, List.nodup_append]
          refine ⟨h.handles, by simp, ?_⟩
          intro a ha b hb hab
          simp only [List.map_cons, List.map_nil, List.mem_singleton] at hb
          rw [hab, hb] at ha
          exact hnew ha
        · intro e he
          rcases List.mem_append.mp he with he | he
          · have := h.issued e he
            exact Nat.lt_succ_of_lt this
          · rw [List.mem_singleton] at he
            rw [he]
            exact Nat.lt_succ_self _
        · intro i hi handle hhandle
          exact Nat.lt_succ_of_lt (h.grouped i hi handle hhandle)
        · intro e he
          rcases List.mem_append.mp he with he | he
          · exact h.sized e he
          · rw [List.mem_singleton] at he
            rw [he]
            change pattern.length < PATH_MAX
            omega
        · intro hconnected e he
          rcases List.mem_append.mp he with he | he
          · exact h.apart hconnected e he
          · rw [List.mem_singleton] at he
            rw [he]
        · intro hconnected e he hsent
          rcases List.mem_append.mp he with he | he
          · exact h.known hconnected e he hsent
          · rw [List.mem_singleton] at he
            rw [he] at hsent
            cases hsent
        · intro hconnected i hi hpending
          rw [List.map_append]
          exact List.mem_append_left _ (h.wanted hconnected i hi hpending)
        · intro hconnected i hi
          unfold Shortest
          rw [liveOf_concat (hlive i hi)]
          exact h.shortest hconnected i hi

-- Unsubscribing

theorem covered_iff {before after : List Sub} {e : Sub} : State.covered before e after = true ↔
    e.pattern ∈ (before ++ after).map Sub.pattern := by
  simp [State.covered]

-- Some subscriptions go, and some patterns may become pending.
theorem InStep.keep {subs : List Sub} {pending : List CStr} {dirty : Bool} (h : w.InStep)
    (hsub : subs.Sublist w.s.subs) (hsized : ∀ p ∈ pending, p.length < PATH_MAX)
    (hdirty : w.s.dirty = true → dirty = true) (halone : w.s.connected = false → pending = [])
    (hknown : w.s.connected = true → ∀ e ∈ subs, e.sent = true → e.pattern ∉ pending)
    (hwanted : w.s.connected = true → ∀ i ∈ w.server, i.pattern ∉ pending →
      i.pattern ∈ subs.map Sub.pattern)
    (hshort : w.s.connected = true → ∀ i ∈ w.server, liveOf subs i = [] ∨
      ∃ e ∈ liveOf subs i, e.periodMs = i.periodMs) :
    InStep ⟨w.s.keep subs pending dirty, w.server⟩ := by
  refine ⟨h.handles.sublist (hsub.map _), ?_, h.grouped, ?_, hsized, ?_, ?_, halone, ?_, hwanted, ?_⟩
  · intro e he
    exact h.issued e (hsub.mem he)
  · intro e he
    exact h.sized e (hsub.mem he)
  · rintro ⟨e, he, hsent⟩
    exact hdirty (h.noticed ⟨e, hsub.mem he, hsent⟩)
  · intro hc e he
    exact h.apart hc e (hsub.mem he)
  · intro hc e he hsent
    exact ⟨(h.known hc e (hsub.mem he) hsent).1, hknown hc e he hsent⟩
  · intro hc i hi
    constructor
    · intro e he
      exact (h.shortest hc i hi).1 e ((hsub.filter _).mem he)
    · intro hne
      exact (hshort hc i hi).resolve_left hne

-- The patterns of a table without one of its entries.
theorem mem_patterns_of_ne {before after : List Sub} {e : Sub} {p : CStr}
    (h : p ∈ (before ++ e :: after).map Sub.pattern) (hne : p ≠ e.pattern) :
    p ∈ (before ++ after).map Sub.pattern := by
  simp only [List.map_append, List.map_cons, List.mem_append, List.mem_cons] at h ⊢
  rcases h with h | h | h
  · exact Or.inl h
  · exact absurd h hne
  · exact Or.inr h

theorem InStep.unsubscribe {handle : Nat} (h : w.InStep) (hheeds : w.Heeds (.unsubscribe handle)) :
    (w.step K (.unsubscribe handle)).InStep := by
  simp only [step, State.unsubscribe]
  cases hlocate : State.locate handle w.s.subs with
  | none => exact h
  | some r =>
    obtain ⟨before, e, after⟩ := r
    obtain ⟨hsubs, _⟩ := locate_eq_some hlocate
    have hsub : (before ++ after).Sublist w.s.subs := by
      rw [hsubs]
      exact (List.Sublist.refl before).append (List.sublist_cons_self e after)
    have hmem : e ∈ w.s.subs := by simp [hsubs]
    have hpart (hc : w.s.connected = true) := hheeds hc before e after hlocate
    have hothers (hc : w.s.connected = true) (i : Item) (hi : i ∈ w.server)
        (hpending : i.pattern ∉ w.s.pendingUnsub) (hne : i.pattern ≠ e.pattern) :
        i.pattern ∈ (before ++ after).map Sub.pattern := by
      have hwanted := h.wanted hc i hi hpending
      rw [hsubs] at hwanted
      exact mem_patterns_of_ne hwanted hne
    dsimp only
    split
    · rename_i htold
      simp only [Bool.and_eq_true, Bool.not_eq_true', decide_eq_true_eq] at htold
      obtain ⟨⟨hcovered, hsent⟩, _⟩ := htold
      have hnot : e.pattern ∉ (before ++ after).map Sub.pattern := by
        rw [← covered_iff, hcovered]
        simp
      refine h.keep hsub ?_ (fun _ => rfl) ?_ ?_ ?_ fun hc => (hpart hc).2
      · intro p hp
        rcases List.mem_append.mp hp with hp | hp
        · exact h.unsubSized p hp
        · rw [List.mem_singleton] at hp
          rw [hp]
          exact h.sized e hmem
      · intro hc
        have := h.apart hc e hmem
        rw [hsent] at this
        cases this
      · intro hc f hf hfsent hpending
        rcases List.mem_append.mp hpending with hpending | hpending
        · exact (h.known hc f (hsub.mem hf) hfsent).2 hpending
        · rw [List.mem_singleton] at hpending
          apply hnot
          rw [← hpending]
          exact List.mem_map_of_mem hf
      · intro hc i hi hpending
        simp only [List.mem_append, List.mem_singleton, not_or] at hpending
        exact hothers hc i hi hpending.1 hpending.2
    · rename_i hsilent
      refine h.keep hsub h.unsubSized id h.alone ?_ ?_ fun hc => (hpart hc).2
      · intro hc f hf hfsent
        exact (h.known hc f (hsub.mem hf) hfsent).2
      · intro hc i hi hpending
        by_cases hgone : i.pattern = e.pattern
        · -- nobody is told, so another subscription has the pattern
          rw [hgone]
          apply covered_iff.mp
          by_contra hcovered
          have hrow := (hpart hc).1.resolve_left hcovered
          cases hsent : e.sent with
          | true =>
            rw [hsent, if_pos rfl] at hrow
            simp [hcovered, hsent, hrow] at hsilent
          | false =>
            rw [hsent] at hrow
            simp only [Bool.false_eq_true, if_false] at hrow
            apply hpending
            rw [hgone]
            exact hrow i hi hgone
        · exact hothers hc i hi hpending hgone

-- Connecting

theorem InStep.connect (h : w.InStep) (hheeds : w.Heeds .connect) :
    (w.step K .connect).InStep := by
  have hunsent : ∀ e ∈ w.s.subs, e.sent = false := by
    cases hc : w.s.connected with
    | true => exact hheeds hc
    | false => exact h.apart hc
  refine ⟨h.handles, h.issued, by simp [step], h.sized, h.unsubSized, h.noticed, ?_, ?_, ?_, ?_, ?_⟩
  · intro _
    exact hunsent
  · intro hc
    cases hc
  · intro _ e he hsent
    rw [hunsent e he] at hsent
    cases hsent
  · simp [step]
  · simp [step]

theorem InStep.disconnect (h : w.InStep) : (w.step K .disconnect).InStep := by
  have hmem (e : Sub) (he : e ∈ w.s.subs.map State.unsend) :
      ∃ f ∈ w.s.subs, f.handle = e.handle ∧ f.pattern = e.pattern ∧ e.sent = false := by
    obtain ⟨f, hf, rfl⟩ := List.mem_map.mp he
    exact ⟨f, hf, rfl, rfl, rfl⟩
  simp only [step, State.setConnected, Bool.false_eq_true, if_false]
  refine ⟨?_, ?_, h.grouped, ?_, by simp, ?_, ?_, fun _ => rfl, by simp, by simp, by simp⟩
  · rw [List.map_map]
    exact h.handles
  · intro e he
    obtain ⟨f, hf, hhandle, _⟩ := hmem e he
    rw [← hhandle]
    exact h.issued f hf
  · intro e he
    obtain ⟨f, hf, _, hpattern, _⟩ := hmem e he
    rw [← hpattern]
    exact h.sized f hf
  · rintro ⟨e, he, _⟩
    obtain ⟨f, hf, _⟩ := hmem e he
    exact decide_eq_true (List.ne_nil_of_mem hf)
  · intro _ e he
    obtain ⟨_, _, _, _, hsent⟩ := hmem e he
    exact hsent

end Link

end Espos.Sk.Inbound
