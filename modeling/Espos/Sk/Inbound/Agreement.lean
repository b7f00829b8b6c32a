import Mathlib.Algebra.Order.BigOperators.Group.List
import Espos.Sk.Inbound.Link

namespace Espos.Sk.Inbound

open Espos.Text
open Espos.Run
open Espos.Sk.Delta (PATH_MAX)

namespace Link

variable {w : Link} {K : Kconfig}

-- Taking a frame

theorem takeFrame_cases (s : State) :
    (∃ frame rest, s.raw = frame :: rest ∧
      s.takeFrame true = ({ s with raw := rest }, some ⟨frame, frame.length + 1, .other⟩)) ∨
    (s.raw = [] ∧ s.pendingUnsub ≠ [] ∧
      s.takeFrame true = ({ s with pendingUnsub := [] }, some s.unsubscribeFrame)) ∨
    (s.raw = [] ∧ s.pendingUnsub = [] ∧ s.dirty = true ∧ s.unsent ≠ [] ∧
      s.takeFrame true =
        ({ s with dirty := false, subs := s.subs.map State.markSent }, some s.subscribeFrame)) ∨
    (s.raw = [] ∧ s.pendingUnsub = [] ∧ (s.dirty = true → s.unsent = []) ∧
      s.takeFrame true = ({ s with dirty := false }, none)) := by
  unfold State.takeFrame
  cases hraw : s.raw with
  | cons frame rest =>
    left
    exact ⟨frame, rest, rfl, rfl⟩
  | nil =>
    right
    by_cases hpending : s.pendingUnsub = []
    · right
      by_cases hdirty : s.dirty = true
      · by_cases hunsent : s.unsent = []
        · right
          exact ⟨rfl, hpending, fun _ => hunsent, by simp [hpending, hdirty, hunsent]⟩
        · left
          exact ⟨rfl, hpending, hdirty, hunsent, by simp [hpending, hdirty, hunsent]⟩
      · right
        refine ⟨rfl, hpending, fun hd => absurd hd hdirty, ?_⟩
        cases s
        simp_all
    · left
      exact ⟨rfl, hpending, by simp [hpending]⟩

theorem unsubscribeFrame_fits {s : State} (h : ∀ p ∈ s.pendingUnsub, p.length < PATH_MAX) :
    s.unsubscribeFrame.fits = true := by
  have hitem (p : CStr) : (lit "\x7b\"path\":\"" ++ p ++ lit "\"\x7d").length = p.length + 11 := by
    simp [lit]
  have hsum : ((s.pendingUnsub.map fun p => lit "\x7b\"path\":\"" ++ p ++ lit "\"\x7d").map
      fun t => t.length + 1).sum ≤ s.pendingUnsub.length * (PATH_MAX + 11) := by
    rw [List.map_map]
    refine (List.sum_le_card_nsmul _ (PATH_MAX + 11) ?_).trans (by simp)
    intro n hn
    obtain ⟨p, hp, rfl⟩ := List.mem_map.mp hn
    have hlt := h p hp
    simp only [Function.comp_apply, hitem]
    omega
  have hlisted := length_listed_le true
    (s.pendingUnsub.map fun p => lit "\x7b\"path\":\"" ++ p ++ lit "\"\x7d")
  have hhead : (lit "\x7b\"context\":\"vessels.self\",\"unsubscribe\":[").length = 41 := by rfl
  have htail : (lit "]\x7d").length = 2 := by rfl
  simp only [Frame.fits, State.unsubscribeFrame, State.unsubscribeText, List.length_append, hhead,
    htail, decide_eq_true_eq]
  unfold PATH_MAX at *
  omega

-- The entries of a subscribe frame are the first of their pattern.
theorem of_mem_unsentOnce {seen subs : List Sub} {e : Sub} (h : e ∈ State.unsentOnce seen subs) :
    ∃ before after, subs = before ++ e :: after ∧ e.sent = false ∧
      ∀ f ∈ seen ++ before, f.sent = false → f.pattern ≠ e.pattern := by
  induction subs generalizing seen with
  | nil => cases h
  | cons g subs ih =>
    have hrest (h : e ∈ State.unsentOnce (seen ++ [g]) subs) :
        ∃ before after, g :: subs = before ++ e :: after ∧ e.sent = false ∧
          ∀ f ∈ seen ++ before, f.sent = false → f.pattern ≠ e.pattern := by
      obtain ⟨before, after, rfl, hsent, hfirst⟩ := ih h
      exact ⟨g :: before, after, rfl, hsent, fun f hf => hfirst f (by simpa using hf)⟩
    unfold State.unsentOnce at h
    split at h
    · exact hrest h
    · rename_i hnew
      simp only [Bool.or_eq_true, not_or, Bool.not_eq_true] at hnew
      rcases List.mem_cons.mp h with rfl | h
      · refine ⟨[], subs, rfl, hnew.1, ?_⟩
        intro f hf hfsent heq
        have := List.any_eq_false.mp hnew.2 f (by simpa using hf)
        simp [hfsent, heq] at this
      · exact hrest h

theorem unsentOnce_covers {seen subs : List Sub} {e : Sub} (he : e ∈ subs) (hsent : e.sent = false) :
    (∃ f ∈ State.unsentOnce seen subs, f.pattern = e.pattern) ∨
      ∃ f ∈ seen, f.sent = false ∧ f.pattern = e.pattern := by
  induction subs generalizing seen with
  | nil => cases he
  | cons g subs ih =>
    unfold State.unsentOnce
    split
    · rename_i hskip
      -- an entry that is skipped has been sent, or its pattern was seen
      have hseen (hg : g.sent = false) (hpattern : g.pattern = e.pattern) :
          ∃ f ∈ seen, f.sent = false ∧ f.pattern = e.pattern := by
        rw [hg, Bool.false_or] at hskip
        obtain ⟨f, hf, hsame⟩ := List.any_eq_true.mp hskip
        simp only [Bool.and_eq_true, Bool.not_eq_true', beq_iff_eq] at hsame
        exact ⟨f, hf, hsame.1, hsame.2.trans hpattern⟩
      rcases List.mem_cons.mp he with rfl | he
      · exact Or.inr (hseen hsent rfl)
      · rcases @ih (seen ++ [g]) he with hlater | ⟨f, hf, hfsent, hpattern⟩
        · exact Or.inl hlater
        · right
          rcases List.mem_append.mp hf with hf | hf
          · exact ⟨f, hf, hfsent, hpattern⟩
          · rw [List.mem_singleton] at hf
            subst hf
            exact hseen hfsent hpattern
    · rcases List.mem_cons.mp he with rfl | he
      · exact Or.inl ⟨e, by simp, rfl⟩
      · rcases @ih (seen ++ [g]) he with ⟨f, hf, hpattern⟩ | ⟨f, hf, hfsent, hpattern⟩
        · exact Or.inl ⟨f, List.mem_cons_of_mem g hf, hpattern⟩
        · rcases List.mem_append.mp hf with hf | hf
          · exact Or.inr ⟨f, hf, hfsent, hpattern⟩
          · rw [List.mem_singleton] at hf
            exact Or.inl ⟨f, by simp [hf], hpattern⟩

theorem shortest_markSent {subs : List Sub} {i : Item} :
    Shortest (subs.map State.markSent) i ↔ Shortest subs i := by
  have hlive : liveOf (subs.map State.markSent) i = (liveOf subs i).map State.markSent := by
    unfold liveOf
    rw [List.filter_map]
    rfl
  unfold Shortest
  rw [hlive]
  simp [State.markSent]

theorem pattern_map_markSent (subs : List Sub) :
    (subs.map State.markSent).map Sub.pattern = subs.map Sub.pattern := by
  rw [List.map_map]
  rfl

theorem mem_unsent {s : State} {e : Sub} : e ∈ s.unsent ↔ e ∈ s.subs ∧ e.sent = false := by
  simp [State.unsent]

-- An entry of a subscribe frame has the shortest period of the subscriptions
-- it is sent for.
theorem InStep.shortest_item {e : Sub} (h : w.InStep) (hfirst : ShortestFirst w.s)
    (he : e ∈ State.unsentOnce [] w.s.subs) : Shortest w.s.subs (w.s.item e) := by
  obtain ⟨before, after, hsubs, hsent, hnone⟩ := of_mem_unsentOnce he
  have hsplit : w.s.unsent =
      before.filter (fun f => !f.sent) ++ e :: after.filter (fun f => !f.sent) := by
    unfold State.unsent
    rw [hsubs, List.filter_append, List.filter_cons_of_pos (by simp [hsent])]
  have hmem : e ∈ w.s.subs := by simp [hsubs]
  have hnone' : ∀ f ∈ before.filter (fun f => !f.sent), f.pattern ≠ e.pattern := by
    intro f hf
    obtain ⟨hf, hfsent⟩ := List.mem_filter.mp hf
    exact hnone f (by simpa using hf) (by simpa using hfsent)
  -- the handle of a live subscription tells which of the unsent ones it is
  have hlive (f : Sub) (hf : f ∈ liveOf w.s.subs (w.s.item e)) :
      f ∈ w.s.unsent ∧ f.pattern = e.pattern := by
    obtain ⟨hf, hgroup⟩ := List.mem_filter.mp hf
    simp only [State.item, List.contains_iff_mem, List.mem_map] at hgroup
    obtain ⟨g, hg, hhandle⟩ := hgroup
    obtain ⟨hg, hpattern⟩ := List.mem_filter.mp hg
    have hsame := List.inj_on_of_nodup_map h.handles (mem_unsent.mp hg).1 hf hhandle
    rw [← hsame]
    exact ⟨hg, by simpa using hpattern⟩
  have hself : e ∈ liveOf w.s.subs (w.s.item e) := by
    refine List.mem_filter.mpr ⟨hmem, ?_⟩
    simp only [State.item, List.contains_iff_mem, List.mem_map]
    exact ⟨e, List.mem_filter.mpr ⟨mem_unsent.mpr ⟨hmem, hsent⟩, by simp⟩, rfl⟩
  constructor
  · intro f hf
    obtain ⟨hf, hpattern⟩ := hlive f hf
    rw [hsplit] at hf
    rcases List.mem_append.mp hf with hf | hf
    · exact absurd hpattern (hnone' f hf)
    · rcases List.mem_cons.mp hf with rfl | hf
      · exact UInt32.le_refl _
      · exact hfirst _ e _ hsplit hnone' f hf hpattern
  · intro _
    exact ⟨e, hself, rfl⟩

theorem mem_replay_subscribe (server : List Item) {items : List Item} {f : Frame}
    (hfits : f.fits = true) (hcontent : f.content = .subscribe items) (p : CStr) :
    p ∈ (Frame.replay server f).map Item.pattern ↔
      p ∈ server.map Item.pattern ∨ p ∈ items.map Item.pattern := by
  simp only [Frame.replay, hfits, hcontent, if_true, List.map_append, List.mem_append]
  constructor
  · rintro (h | h)
    · obtain ⟨i, hi, rfl⟩ := List.mem_map.mp h
      exact Or.inl (List.mem_map_of_mem (List.mem_filter.mp hi).1)
    · exact Or.inr h
  · rintro (h | h)
    · obtain ⟨i, hi, rfl⟩ := List.mem_map.mp h
      by_cases hnew : i.pattern ∈ items.map Item.pattern
      · exact Or.inr hnew
      · left
        apply List.mem_map_of_mem
        refine List.mem_filter.mpr ⟨hi, ?_⟩
        rw [Bool.not_eq_true', List.any_eq_false]
        intro j hj heq
        apply hnew
        rw [← beq_iff_eq.mp heq]
        exact List.mem_map_of_mem hj
    · exact Or.inr h

-- The frames waiting to go out as they are say nothing about subscriptions.
theorem InStep.setRaw (h : w.InStep) (raw : List CStr) :
    InStep ⟨{ w.s with raw := raw }, w.server⟩ :=
  ⟨h.handles, h.issued, h.grouped, h.sized, h.unsubSized, h.noticed, h.apart, h.alone, h.known,
    h.wanted, h.shortest⟩

theorem InStep.sendRaw (h : w.InStep) (json : CStr) : (w.step K (.sendRaw json)).InStep := by
  simp only [step, State.sendRaw]
  split
  · exact h
  · split
    · exact h
    · exact h.setRaw _

-- The pending unsubscribes go out, and are done.
theorem InStep.sendUnsubscribe (h : w.InStep) :
    InStep ⟨{ w.s with pendingUnsub := [] }, w.s.unsubscribeFrame.replay w.server⟩ := by
  have hserver : w.s.unsubscribeFrame.replay w.server =
      w.server.filter fun i => !w.s.pendingUnsub.contains i.pattern := by
    simp only [Frame.replay, unsubscribeFrame_fits h.unsubSized, if_true]
    rfl
  rw [hserver]
  have hmem (i : Item) (hi : i ∈ w.server.filter fun i => !w.s.pendingUnsub.contains i.pattern) :
      i ∈ w.server ∧ i.pattern ∉ w.s.pendingUnsub := by
    simpa using hi
  refine ⟨h.handles, h.issued, ?_, h.sized, by simp, h.noticed, h.apart, fun _ => rfl, ?_, ?_, ?_⟩
  · intro i hi
    exact h.grouped i (hmem i hi).1
  · intro hc e he hsent
    obtain ⟨hknown, hpending⟩ := h.known hc e he hsent
    obtain ⟨i, hi, hpattern⟩ := List.mem_map.mp hknown
    refine ⟨?_, by simp⟩
    rw [← hpattern]
    apply List.mem_map_of_mem
    simpa [hi, hpattern] using hpending
  · intro hc i hi _
    exact h.wanted hc i (hmem i hi).1 (hmem i hi).2
  · intro hc i hi
    exact h.shortest hc i (hmem i hi).1

-- The entries not sent go out, and all entries are sent.
theorem InStep.sendSubscribe (h : w.InStep) (hc : w.s.connected = true)
    (hpending : w.s.pendingUnsub = []) (hfits : w.s.subscribeFrame.fits = true)
    (hfirst : ShortestFirst w.s) :
    InStep ⟨{ w.s with dirty := false, subs := w.s.subs.map State.markSent },
      w.s.subscribeFrame.replay w.server⟩ := by
  have hpatterns := mem_replay_subscribe w.server hfits rfl
  have hitem (i : Item) (hi : i ∈ (State.unsentOnce [] w.s.subs).map w.s.item) :
      ∃ e ∈ State.unsentOnce [] w.s.subs, e ∈ w.s.subs ∧ i = w.s.item e := by
    obtain ⟨e, he, rfl⟩ := List.mem_map.mp hi
    obtain ⟨before, after, hsubs, _⟩ := of_mem_unsentOnce he
    exact ⟨e, he, by simp [hsubs], rfl⟩
  have hmem (i : Item) (hi : i ∈ w.s.subscribeFrame.replay w.server) :
      i ∈ w.server ∨ i ∈ (State.unsentOnce [] w.s.subs).map w.s.item := by
    simp only [Frame.replay, hfits, if_true] at hi
    rcases List.mem_append.mp hi with hi | hi
    · exact Or.inl (List.mem_filter.mp hi).1
    · exact Or.inr hi
  refine ⟨?_, ?_, ?_, ?_, h.unsubSized, ?_, ?_, h.alone, ?_, ?_, ?_⟩
  · rw [List.map_map]
    exact h.handles
  · intro e he
    obtain ⟨f, hf, rfl⟩ := List.mem_map.mp he
    exact h.issued f hf
  · intro i hi handle hhandle
    rcases hmem i hi with hi | hi
    · exact h.grouped i hi handle hhandle
    · obtain ⟨e, _, _, rfl⟩ := hitem i hi
      obtain ⟨f, hf, rfl⟩ := List.mem_map.mp hhandle
      exact h.issued f (mem_unsent.mp (List.mem_filter.mp hf).1).1
  · intro e he
    obtain ⟨f, hf, rfl⟩ := List.mem_map.mp he
    exact h.sized f hf
  · rintro ⟨e, he, hsent⟩
    obtain ⟨f, _, rfl⟩ := List.mem_map.mp he
    cases hsent
  · intro hdisconnected
    rw [hc] at hdisconnected
    cases hdisconnected
  · intro _ e he _
    obtain ⟨f, hf, rfl⟩ := List.mem_map.mp he
    refine ⟨(hpatterns f.pattern).mpr ?_, by simp [hpending]⟩
    cases hsent : f.sent with
    | true => exact Or.inl (h.known hc f hf hsent).1
    | false =>
      right
      rcases @unsentOnce_covers [] w.s.subs f hf hsent with ⟨g, hg, hpattern⟩ | ⟨g, hg, _⟩
      · rw [← hpattern]
        exact List.mem_map_of_mem (List.mem_map_of_mem hg)
      · cases hg
  · intro _ i hi _
    rw [pattern_map_markSent]
    rcases hmem i hi with hi | hi
    · exact h.wanted hc i hi (by simp [hpending])
    · obtain ⟨e, _, he, rfl⟩ := hitem i hi
      exact List.mem_map_of_mem he
  · intro _ i hi
    rw [shortest_markSent]
    rcases hmem i hi with hi | hi
    · exact h.shortest hc i hi
    · obtain ⟨e, he, _, rfl⟩ := hitem i hi
      exact h.shortest_item hfirst he

-- A table with nothing to send has been sent.
theorem InStep.sent_of_settled (h : w.InStep) (hunsent : w.s.dirty = true → w.s.unsent = [])
    {e : Sub} (he : e ∈ w.s.subs) : e.sent = true := by
  by_contra hnot
  have hfalse : e.sent = false := by simpa using hnot
  have hnil := hunsent (h.noticed ⟨e, he, hfalse⟩)
  have hmem : e ∈ w.s.unsent := mem_unsent.mpr ⟨he, hfalse⟩
  rw [hnil] at hmem
  cases hmem

theorem InStep.settled (h : w.InStep) (hunsent : w.s.dirty = true → w.s.unsent = []) :
    InStep ⟨{ w.s with dirty := false }, w.server⟩ := by
  refine ⟨h.handles, h.issued, h.grouped, h.sized, h.unsubSized, ?_, h.apart, h.alone, h.known,
    h.wanted, h.shortest⟩
  rintro ⟨e, he, hsent⟩
  rw [h.sent_of_settled hunsent he] at hsent
  cases hsent

theorem InStep.takeFrame (h : w.InStep) (hheeds : w.Heeds .takeFrame) :
    (w.step K .takeFrame).InStep := by
  simp only [step]
  rcases takeFrame_cases w.s with ⟨frame, rest, _, htake⟩ | ⟨_, _, htake⟩ |
    ⟨hraw, hpending, hdirty, hunsent, htake⟩ | ⟨_, _, hunsent, htake⟩
  · rw [htake]
    have hserver : (⟨frame, frame.length + 1, .other⟩ : Frame).replay w.server = w.server := by
      unfold Frame.replay
      split <;> rfl
    simp only [Option.elim_some, hserver]
    exact h.setRaw rest
  · rw [htake]
    exact h.sendUnsubscribe
  · rw [htake]
    have hc : w.s.connected = true := by
      apply hheeds.1.resolve_right
      intro hnil
      exact hunsent (by simp [State.unsent, hnil])
    obtain ⟨hfits, hfirst⟩ := hheeds.2 hraw hpending hdirty
    exact h.sendSubscribe hc hpending hfits hfirst
  · rw [htake]
    exact h.settled hunsent

theorem inStep_step (K : Kconfig) (w : Link) (event : Event) (h : w.InStep)
    (hheeds : w.Heeds event) : (w.step K event).InStep := by
  cases event with
  | subscribe pattern periodMs cb => exact h.subscribe pattern periodMs cb
  | unsubscribe handle => exact h.unsubscribe hheeds
  | sendRaw json => exact h.sendRaw json
  | connect => exact h.connect hheeds
  | disconnect => exact h.disconnect
  | takeFrame => exact h.takeFrame hheeds

theorem InStep.agrees (h : w.InStep) (hc : w.s.connected = true)
    (hnone : (w.s.takeFrame true).2 = none) : w.Agrees := by
  rcases takeFrame_cases w.s with ⟨frame, rest, _, htake⟩ | ⟨_, _, htake⟩ |
    ⟨_, _, _, _, htake⟩ | ⟨_, hpending, hunsent, htake⟩
  · rw [htake] at hnone
    cases hnone
  · rw [htake] at hnone
    cases hnone
  · rw [htake] at hnone
    cases hnone
  · refine ⟨?_, h.shortest hc⟩
    intro p
    constructor
    · intro hp
      obtain ⟨i, hi, rfl⟩ := List.mem_map.mp hp
      exact h.wanted hc i hi (by simp [hpending])
    · intro hp
      obtain ⟨e, he, rfl⟩ := List.mem_map.mp hp
      exact (h.known hc e he (h.sent_of_settled hunsent he)).1

end Link

theorem Link.shortestFirst_of_pairwise {s : State}
    (h : s.unsent.Pairwise fun e f => f.pattern = e.pattern → e.periodMs ≤ f.periodMs) :
    Link.ShortestFirst s := by
  intro before e after hunsent _ f hf
  rw [hunsent, List.pairwise_append] at h
  exact List.rel_of_pairwise_cons h.2.1 hf

-- Two subscriptions to one pattern, the longer of which goes away before the stream
-- comes up a second time.
def sharedPattern : List Event :=
  [.subscribe (lit "a") 500 (some 1), .subscribe (lit "a") 1000 (some 2), .connect, .takeFrame,
    .unsubscribe 2, .disconnect, .connect, .takeFrame]

-- The last subscription to a pattern is not told the server when it was not
-- sent itself, though an earlier one was.
example :
    let w := run (Link.step .default) Link.start
      [.connect, .subscribe (lit "a") 500 (some 1), .takeFrame, .subscribe (lit "a") 500 (some 2),
        .unsubscribe 1, .unsubscribe 2, .takeFrame]
    (w.s.takeFrame true).2 = none ∧ w.s.subs = [] ∧ w.server.map Item.pattern = [lit "a"] := by
  decide +kernel

end Espos.Sk.Inbound
