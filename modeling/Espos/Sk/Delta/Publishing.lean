import Espos.Sk.Delta.Order

namespace Espos.Sk.Delta

open Espos.Text

namespace Engine

variable {maxMsgs : Nat} {d d' : Engine maxMsgs} {before : List Doc} {log : List Published}
variable {context path value : CStr} {atMs : Int} {K : Kconfig} {env : Env}

-- A message outside the engine is written as its document says, and can be
-- dated if it was handed out undated.
def Carries (d : Engine maxMsgs) (m : Msg) : Prop :=
  m.text = m.doc.render ∧
    (d.unstamped = some m.addr → Stampable m.text d.unstampedAt m.doc)

theorem Carries.congr {m : Msg} (h : d.Carries m) (hundated : d'.undated = d.undated) :
    d'.Carries m := by
  simp only [undated, Prod.mk.injEq] at hundated
  unfold Carries
  rw [hundated.1, hundated.2]
  exact h

-- Closing a window

theorem Traced.flushWindow (h : d.Traced before log) (hopen : d.pending ≠ [])
    (hroomy : d.Roomy env) :
    (d.flushWindow env).1.Traced before log ∧ (d.flushWindow env).1.undated = d.undated ∧
      ((d.flushWindow env).2 = true → (d.flushWindow env).1.pending = [] ∧
        (d.flushWindow env).1.ctx = []) ∧
      ((d.flushWindow env).2 = false → (d.flushWindow env).1.pending ≠ []) := by
  rcases flushWindow_of_roomy hopen hroomy with hkept | ⟨ring, bytes, st, hring, hstored⟩
  · rw [hkept]
    exact ⟨h, rfl, by simp, by simpa using hopen⟩
  · rw [hstored]
    exact ⟨h.close hroomy.1 hring bytes st, rfl, fun _ => ⟨rfl, rfl⟩, by simp⟩

-- Publishing

def logged (log : List Published) (context path value : CStr) (atMs : Int)
    (r : Engine maxMsgs × EspErr) : List Published :=
  if r.2 = .ok then log ++ [⟨context, path, atMs, value, r.1.windows⟩] else log

theorem coalesced_eq_some {ctx : Option Nat} {table : List Entry}
    (h : d.coalesced ctx path value atMs = some table) :
    ∃ c, ctx = some c ∧ d.overtakes c (d.updateOf c atMs) path = false ∧
      replaceValue c path atMs value d.pending = some table := by
  unfold coalesced at h
  split at h
  · cases h
  · rename_i c
    split at h
    · cases h
    · rename_i horder
      exact ⟨c, rfl, by simpa [reorders] using horder, h⟩

theorem place_of_not_noPlace {ctx : Option Nat} (h : d.coalesced ctx path value atMs = none)
    (hplace : d.noPlace K ctx path atMs = false) :
    ∃ c, ctx = some c ∧ d.overtakes c (d.updateOf c atMs) path = false ∧
      replaceValue c path atMs value d.pending = none := by
  simp only [noPlace, Bool.or_eq_false_iff] at hplace
  cases ctx with
  | none => simp at hplace
  | some c =>
    refine ⟨c, rfl, hplace.1.2, ?_⟩
    simpa [coalesced, hplace.1.2] using h

theorem Traced.first (h : d.Traced before log) (hpending : d.pending = []) (hctx : d.ctx = [])
    (context path value : CStr) (now : UInt32)
    (hat : atMs = 0 ∨ AT_MS_MIN ≤ atMs ∧ atMs ≤ AT_MS_MAX) :
    ((d.addContext context).appendValue 0 path value atMs now).Traced before
      (log ++ [⟨context, path, atMs, value, d.windows⟩]) := by
  have hadded : (d.addContext context).Traced before log := by
    apply h.addContext
    simp [hctx]
  apply hadded.append
  · simp [Engine.addContext, hctx]
  · exact hat
  · simp [Engine.addContext, hpending]
  · simp [Engine.addContext, updateOf, overtakes, hpending]

theorem Traced.publishInto {ctx : Option Nat} (h : d.Traced before log)
    (hslot : ∀ c, ctx = some c → d.ctx[c]? = some context) (hnone : ctx = none → d.pending ≠ [])
    (hat : atMs = 0 ∨ AT_MS_MIN ≤ atMs ∧ atMs ≤ AT_MS_MAX)
    (hroomy : d.coalesced ctx path value atMs = none → d.noPlace K ctx path atMs = true →
      d.Roomy env) :
    (d.publishInto K env context path value atMs ctx).1.Traced before
        (logged log context path value atMs
          (d.publishInto K env context path value atMs ctx)) ∧
      (d.publishInto K env context path value atMs ctx).1.undated = d.undated ∧
      (d.publishInto K env context path value atMs ctx).1.pending ≠ [] := by
  unfold Engine.publishInto
  cases hcoalesced : d.coalesced ctx path value atMs with
  | some table =>
    obtain ⟨c, rfl, horder, htable⟩ := coalesced_eq_some hcoalesced
    refine ⟨h.replace (hslot c rfl) horder htable, rfl, ?_⟩
    obtain ⟨older, p, newer, _, _, rfl⟩ := replaceValue_eq_some htable
    simp [setPending]
  | none =>
    cases hplace : d.noPlace K ctx path atMs with
    | false =>
      obtain ⟨c, rfl, horder, htable⟩ := place_of_not_noPlace hcoalesced hplace
      simp only [Bool.false_eq_true, if_false]
      refine ⟨h.append (hslot c rfl) hat (replaceValue_eq_none htable) horder, rfl, ?_⟩
      simp [appendValue]
    | true =>
      have hopen := noPlace_open hnone hplace
      obtain ⟨htraced, hundated, hclosed, hkept⟩ :=
        h.flushWindow hopen (hroomy hcoalesced hplace)
      simp only [if_true]
      cases hflush : (d.flushWindow env).2 with
      | false =>
        refine ⟨?_, hundated, hkept hflush⟩
        simpa [logged] using htraced
      | true =>
        obtain ⟨hpending, hctx⟩ := hclosed hflush
        simp only [if_true]
        rw [contextSlot_of_nil hctx]
        refine ⟨htraced.first hpending hctx context path value env.now hat, hundated, ?_⟩
        simp [appendValue]

theorem Traced.contextSlot (h : d.Traced before log) (hclosed : d.Closed) (context : CStr) :
    (d.contextSlot context).1.Traced before log ∧
      (d.contextSlot context).1.undated = d.undated ∧
      (∀ c, (d.contextSlot context).2 = some c →
        (d.contextSlot context).1.ctx[c]? = some context) ∧
      ((d.contextSlot context).2 = none → (d.contextSlot context).1.pending ≠ []) := by
  rcases d.contextSlot_cases context with ⟨i, hi, hslot⟩ | ⟨hnot, hfull, hslot⟩ | ⟨hnot, hslot⟩
  · rw [hslot]
    refine ⟨h, rfl, ?_, by simp⟩
    intro c hc
    obtain rfl := Option.some.inj hc
    exact hi
  · rw [hslot]
    refine ⟨h, rfl, by simp, ?_⟩
    intro _ hnil
    rw [hclosed hnil] at hfull
    cases hfull
  · rw [hslot]
    refine ⟨h.addContext hnot, rfl, ?_, by simp⟩
    intro c hc
    obtain rfl := Option.some.inj hc
    simp [Engine.addContext]

theorem publishCheck_date (h : publishCheck context path value atMs = .ok) :
    atMs = 0 ∨ AT_MS_MIN ≤ atMs ∧ atMs ≤ AT_MS_MAX := by
  unfold publishCheck at h
  split at h
  · cases h
  · rename_i hargs
    omega

-- The engine whose window a publish closes, if it closes one.
def closedBy (d : Engine maxMsgs) (K : Kconfig) (context : Option CStr) (path value : CStr)
    (atMs : Int) : Option (Engine maxMsgs) :=
  let slot := d.contextSlot (context.getD SELF_CONTEXT)
  if publishCheck (context.getD SELF_CONTEXT) path value atMs = .ok ∧
      slot.1.coalesced slot.2 path value atMs = none ∧ slot.1.noPlace K slot.2 path atMs = true then
    some slot.1
  else none

theorem Traced.publishAt {context : Option CStr} (h : d.Traced before log) (hclosed : d.Closed)
    (hroomy : ∀ e, d.closedBy K context path value atMs = some e → e.Roomy env) :
    (d.publishAt K env context path value atMs).1.Traced before
        (logged log (context.getD SELF_CONTEXT) path value atMs
          (d.publishAt K env context path value atMs)) ∧
      (d.publishAt K env context path value atMs).1.undated = d.undated ∧
      (d.publishAt K env context path value atMs).1.Closed := by
  unfold Engine.publishAt
  unfold closedBy at hroomy
  generalize context.getD SELF_CONTEXT = context at hroomy ⊢
  by_cases hcheck : publishCheck context path value atMs = .ok
  · simp only [hcheck, ne_eq, not_true, if_false]
    obtain ⟨hslot, hundated, hctx, hnone⟩ := h.contextSlot hclosed context
    have hroom : (d.contextSlot context).1.coalesced (d.contextSlot context).2 path value atMs =
        none → (d.contextSlot context).1.noPlace K (d.contextSlot context).2 path atMs = true →
        (d.contextSlot context).1.Roomy env := by
      intro hco hno
      apply hroomy
      simp [hcheck, hco, hno]
    have hspec := hslot.publishInto hctx hnone (publishCheck_date hcheck) hroom
    exact ⟨hspec.1, hspec.2.1.trans hundated, fun hnil => absurd hnil hspec.2.2⟩
  · simp only [ne_eq, hcheck, not_false_eq_true, if_true, logged, if_false]
    exact ⟨h, trivial, hclosed⟩

-- Handing out and putting back

theorem stamp_faithful {m m' : Msg} {batchMs : UInt32} {offset : Nat}
    (h : Stampable m.text offset m.doc) (hstamp : d.stamp env m batchMs offset = some m') :
    m'.text = m'.doc.render ∧
      ∀ context path, m'.doc.valuesOf context path = m.doc.valuesOf context path := by
  unfold stamp at hstamp
  split at hstamp
  · cases hstamp
  · split at hstamp
    · cases hstamp
    · rename_i iso _
      split at hstamp
      · cases hstamp
      · split at hstamp
        · obtain rfl := Option.some.inj hstamp
          refine ⟨h iso, ?_⟩
          intro context path
          exact Doc.valuesOf_stamp context path iso m.doc
        · cases hstamp

-- The oldest message leaves the ring, and says what it said there.
theorem handOut_spec (env : Env) (hcount : d.ring.count ≠ 0)
    (hfaithful : ∀ q ∈ d.ring.toList, Faithful q) :
    ∃ q m, d.ring.toList = q :: (d.handOut env).1.ring.toList ∧ (d.handOut env).2 = some m ∧
      (d.handOut env).1.Carries m ∧ (d.handOut env).1.openWindow = d.openWindow ∧
      ∀ context path, m.doc.valuesOf context path = q.msg.doc.valuesOf context path := by
  have hring := d.ring.toList_dropFront hcount
  obtain ⟨htext, hstampable⟩ := hfaithful (d.ring.slots d.ring.head) (by simp [hring])
  simp only [handOut, ringPop_of_count_ne_zero hcount]
  split
  · exact ⟨_, _, hring, rfl, ⟨htext, by simp⟩, rfl, fun _ _ => rfl⟩
  · rename_i hoffset
    split
    · rename_i m hstamp
      obtain ⟨hfaithful', hvalues⟩ := stamp_faithful (hstampable hoffset) hstamp
      exact ⟨_, m, hring, rfl, ⟨hfaithful', by simp⟩, rfl, hvalues⟩
    · exact ⟨_, _, hring, rfl, ⟨htext, fun _ => hstampable hoffset⟩, rfl, fun _ _ => rfl⟩

theorem requeue_spec {m : Msg} (hroom : d.ring.count < maxMsgs) (hcarries : d.Carries m) :
    ∃ q, (d.requeue m).ring.toList = q :: d.ring.toList ∧ q.msg = m ∧ Faithful q ∧
      (d.requeue m).openWindow = d.openWindow := by
  simp only [requeue, show ¬ maxMsgs ≤ d.ring.count by omega, if_false]
  refine ⟨_, d.ring.toList_pushFront _ hroom, rfl, ⟨hcarries.1, ?_⟩, rfl⟩
  simp only
  split
  · rename_i hundated
    intro _
    exact hcarries.2 hundated
  · intro hne
    exact absurd rfl hne

end Engine

end Espos.Sk.Delta
