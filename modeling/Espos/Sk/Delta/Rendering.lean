import Mathlib.Data.List.Nodup
import Espos.Sk.Delta.Engine
import Espos.Lib.Lists

namespace Espos.Sk.Delta

open Espos.Text

theorem listed_append (first : Bool) (xs ys : List CStr) :
    listed first (xs ++ ys) = listed first xs ++ listed (first && xs.isEmpty) ys := by
  induction xs generalizing first with
  | nil => simp [listed]
  | cons x xs ih =>
    have htail := ih false
    simp only [Bool.false_and] at htail
    simp [listed, htail]

namespace Engine

variable {maxMsgs : Nat} (d : Engine maxMsgs)

-- The inner loop writes the values of its update, separated.
theorem foldl_writeValue (ctx upd : Nat) (ps : List Entry) (w : CStr × Bool) :
    (ps.foldl (writeValue ctx upd) w).1 =
      w.1 ++ listed w.2 ((ps.filter (Entry.inUpdate ctx upd)).map fun p => valueText p.named) := by
  induction ps generalizing w with
  | nil => simp [listed]
  | cons p ps ih =>
    rw [List.foldl_cons, ih]
    by_cases hp : p.inUpdate ctx upd
    · simp [writeValue, hp, listed]
    · simp [writeValue, hp]

-- What an update's turn of the outer loop adds to the draft.
def Draft.add (label : CStr) (w : Draft) (u : Update) : Draft where
  text := w.text ++ ((if w.first then [] else [',']) ++ u.render label)
  stampAt :=
    if u.date.isNone then (w.text ++ (if w.first then [] else [',']) ++ lit "\x7b").length
    else w.stampAt
  first := false

theorem writeUpdate_of_some {ctx upd : Nat} {w : Draft} {u : Update}
    (h : d.updateDoc ctx upd = some u) :
    d.writeUpdate ctx w upd = Draft.add d.label.chars w u := by
  unfold updateDoc at h
  unfold writeUpdate
  split at h
  · cases h
  · rename_i f rest hfirst
    obtain rfl := Option.some.inj h
    simp only [foldl_writeValue]
    simp only [Draft.add, Update.render, Update.body, List.map_map, List.append_assoc]
    rfl

theorem writeUpdate_of_none {ctx upd : Nat} {w : Draft} (h : d.updateDoc ctx upd = none) :
    d.writeUpdate ctx w upd = w := by
  unfold updateDoc at h
  unfold writeUpdate
  split at h
  · rfl
  · cases h

theorem foldl_writeUpdate (ctx : Nat) (us : List Nat) (w : Draft) :
    us.foldl (d.writeUpdate ctx) w =
      (us.filterMap (d.updateDoc ctx)).foldl (Draft.add d.label.chars) w := by
  induction us generalizing w with
  | nil => rfl
  | cons u us ih =>
    cases hdoc : d.updateDoc ctx u with
    | none =>
      rw [List.foldl_cons, d.writeUpdate_of_none hdoc, ih, List.filterMap_cons_none hdoc]
    | some v =>
      rw [List.foldl_cons, d.writeUpdate_of_some hdoc, ih, List.filterMap_cons_some hdoc,
        List.foldl_cons]

theorem text_foldl_add (label : CStr) (us : List Update) (w : Draft) :
    (us.foldl (Draft.add label) w).text =
      w.text ++ listed w.first (us.map (Update.render label)) := by
  induction us generalizing w with
  | nil => simp [listed]
  | cons u us ih =>
    rw [List.foldl_cons, ih]
    simp [Draft.add, listed]

theorem writeMessage_text (ctx : Nat) : (d.writeMessage ctx).text = (d.document ctx).render := by
  simp only [writeMessage, foldl_writeUpdate, text_foldl_add, Doc.render, document]

theorem stampAt_foldl_add {label : CStr} {us : List Update} (h : ∀ u ∈ us, u.date.isSome)
    (w : Draft) : (us.foldl (Draft.add label) w).stampAt = w.stampAt := by
  induction us generalizing w with
  | nil => rfl
  | cons u us ih =>
    have hu : u.date.isNone = false := by
      have := h u (by simp)
      cases hdate : u.date <;> simp_all
    rw [List.foldl_cons, ih fun v hv => h v (by simp [hv])]
    simp [Draft.add, hu]

theorem first_foldl_add (label : CStr) (us : List Update) (w : Draft) :
    (us.foldl (Draft.add label) w).first = (w.first && us.isEmpty) := by
  induction us generalizing w with
  | nil => simp
  | cons u us ih =>
    rw [List.foldl_cons, ih]
    simp [Draft.add]

end Engine

-- At most one update is left undated.
def Doc.Single (doc : Doc) : Prop :=
  doc.updates.Pairwise fun u v => ¬ (u.date = none ∧ v.date = none)

theorem dated_or_split {us : List Update}
    (h : us.Pairwise fun u v => ¬ (u.date = none ∧ v.date = none)) :
    (∀ u ∈ us, u.date.isSome) ∨
      ∃ before u after, us = before ++ u :: after ∧ u.date = none ∧
        (∀ v ∈ before, v.date.isSome) ∧ ∀ v ∈ after, v.date.isSome := by
  induction us with
  | nil => simp
  | cons u us ih =>
    obtain ⟨hu, hus⟩ := List.pairwise_cons.mp h
    cases hdate : u.date with
    | none =>
      right
      refine ⟨[], u, us, rfl, hdate, by simp, ?_⟩
      intro v hv
      have hnot := hu v hv
      rw [Option.isSome_iff_ne_none]
      intro hv
      exact hnot ⟨hdate, hv⟩
    | some iso =>
      have hsome : u.date.isSome := by simp [hdate]
      rcases ih hus with hall | ⟨before, v, after, rfl, hv, hbefore, hafter⟩
      · left
        intro v hv
        rcases List.mem_cons.mp hv with rfl | hv
        · exact hsome
        · exact hall v hv
      · right
        refine ⟨u :: before, v, after, rfl, hv, ?_, hafter⟩
        intro v hv
        rcases List.mem_cons.mp hv with rfl | hv
        · exact hsome
        · exact hbefore v hv

theorem map_stamp_of_dated (iso : CStr) {us : List Update} (h : ∀ u ∈ us, u.date.isSome) :
    us.map (Update.stamp iso) = us := by
  calc
    us.map (Update.stamp iso) = us.map id :=
      List.map_congr_left fun u hu => Update.stamp_of_isSome iso (h u hu)
    _ = us := List.map_id us

-- The text up to the brace the update behind `before` opens with.
def Doc.opening (doc : Doc) (before : List Update) : CStr :=
  headText doc.context ++ listed true (before.map (Update.render doc.label)) ++
    ((if before.isEmpty then [] else [',']) ++ lit "\x7b")

-- The text behind the date of an update that `after` follows.
def Doc.closing (doc : Doc) (u : Update) (after : List Update) : CStr :=
  u.body doc.label ++ listed false (after.map (Update.render doc.label)) ++ lit "]\x7d"

theorem render_split (doc : Doc) {before after : List Update} {u : Update}
    (h : doc.updates = before ++ u :: after) :
    doc.render = doc.opening before ++ (dateText u.date ++ doc.closing u after) := by
  rw [Doc.render, h, List.map_append, listed_append, List.map_cons]
  simp only [listed, Update.render, Doc.opening, Doc.closing, List.isEmpty_map, Bool.true_and,
    List.append_assoc]

-- A timestamp inserted at `offset` dates the document.
def Stampable (text : CStr) (offset : Nat) (doc : Doc) : Prop :=
  ∀ iso, text.take offset ++ timestamp iso ++ text.drop offset = (doc.stamp iso).render

namespace Engine

variable {maxMsgs : Nat} (d : Engine maxMsgs)

-- The offset is that of the one update that is left undated.
theorem writeMessage_opening {ctx : Nat} (h : (d.document ctx).Single) :
    ((∀ u ∈ (d.document ctx).updates, u.date.isSome) ∧ (d.writeMessage ctx).stampAt = 0) ∨
      ∃ before u after, (d.document ctx).updates = before ++ u :: after ∧ u.date = none ∧
        (∀ v ∈ before, v.date.isSome) ∧ (∀ v ∈ after, v.date.isSome) ∧
        (d.writeMessage ctx).stampAt = ((d.document ctx).opening before).length := by
  have hstamp : (d.writeMessage ctx).stampAt =
      ((d.document ctx).updates.foldl (Draft.add d.label.chars)
        ⟨headText (d.ctx.getD ctx []), 0, true⟩).stampAt := by
    simp only [writeMessage, foldl_writeUpdate, document]
  rcases dated_or_split h with hall | ⟨before, u, after, hsplit, hu, hbefore, hafter⟩
  · refine .inl ⟨hall, ?_⟩
    rw [hstamp, stampAt_foldl_add hall]
  · refine .inr ⟨before, u, after, hsplit, hu, hbefore, hafter, ?_⟩
    have hcontext : (d.document ctx).context = d.ctx.getD ctx [] := rfl
    have hlabel : (d.document ctx).label = d.label.chars := rfl
    rw [hstamp, hsplit, List.foldl_append, List.foldl_cons, stampAt_foldl_add hafter]
    simp only [Draft.add, hu, Option.isNone_none, if_true, text_foldl_add, first_foldl_add,
      Doc.opening, hcontext, hlabel, Bool.true_and, List.append_assoc]

theorem writeMessage_stampAt {ctx : Nat} (h : (d.document ctx).Single) :
    (d.writeMessage ctx).stampAt = 0 ∨
      Stampable (d.writeMessage ctx).text (d.writeMessage ctx).stampAt (d.document ctx) := by
  rcases d.writeMessage_opening h with
    ⟨_, hzero⟩ | ⟨before, u, after, hsplit, hu, hbefore, hafter, hoffset⟩
  · exact .inl hzero
  · right
    intro iso
    have hbuilt : (d.writeMessage ctx).text =
        (d.document ctx).opening before ++ (d.document ctx).closing u after := by
      rw [d.writeMessage_text, render_split _ hsplit, hu]
      rfl
    have hdated : ((d.document ctx).stamp iso).updates =
        before ++ { u with date := some iso } :: after := by
      have hthis : u.stamp iso = { u with date := some iso } := by simp [Update.stamp, hu]
      simp only [Doc.stamp, hsplit, List.map_append, List.map_cons, map_stamp_of_dated iso hbefore,
        map_stamp_of_dated iso hafter, hthis]
    rw [hoffset, hbuilt, List.take_left, List.drop_left, render_split _ hdated]
    simp only [List.append_assoc]
    rfl

end Engine

end Espos.Sk.Delta

namespace Espos.Sk.Delta

open Espos.Text

-- All of an entry but its value.
def Entry.slot (p : Entry) : Nat × CStr × Int × Nat :=
  (p.ctx, p.path, p.atMs, p.upd)

theorem Entry.slot_eq_iff {p q : Entry} : p.slot = q.slot ↔
    p.ctx = q.ctx ∧ p.path = q.path ∧ p.atMs = q.atMs ∧ p.upd = q.upd := by
  simp [Entry.slot]

namespace Engine

variable {maxMsgs : Nat} {d d' : Engine maxMsgs}

-- The open window: a context's updates are its distinct times, and a path's
-- values stand in the order their updates go out in.
structure Orderly (d : Engine maxMsgs) : Prop where
  distinct : d.ctx.Nodup
  known : ∀ p ∈ d.pending, p.ctx < d.ctx.length
  numbered : ∀ p ∈ d.pending, p.upd < d.updN
  dated : ∀ p ∈ d.pending, p.atMs = 0 ∨ AT_MS_MIN ≤ p.atMs ∧ p.atMs ≤ AT_MS_MAX
  grouped : ∀ p ∈ d.pending, ∀ q ∈ d.pending, p.ctx = q.ctx → (p.atMs = q.atMs ↔ p.upd = q.upd)
  ordered : d.pending.Pairwise fun p q => p.ctx = q.ctx → p.path = q.path → p.upd < q.upd

-- A window without values has no contexts either.
def Closed (d : Engine maxMsgs) : Prop :=
  d.pending = [] → d.ctx = []

-- The values the window holds for a path of a context.
def entriesOf (d : Engine maxMsgs) (context path : CStr) : List Entry :=
  d.pending.filter fun p => decide (d.ctx[p.ctx]? = some context) && p.path == path

theorem mem_entriesOf {context path : CStr} {p : Entry} : p ∈ d.entriesOf context path ↔
    p ∈ d.pending ∧ d.ctx[p.ctx]? = some context ∧ p.path = path := by
  simp [entriesOf]

theorem Orderly.ctx_eq (h : d.Orderly) {p : Entry} (hp : p ∈ d.pending) {context : CStr} {c : Nat}
    (hpctx : d.ctx[p.ctx]? = some context) (hc : d.ctx[c]? = some context) : p.ctx = c :=
  (List.getElem?_inj (h.known p hp) h.distinct).mp (hpctx.trans hc.symm)

theorem Orderly.congr (h : d.Orderly) (hslots : d'.pending.map Entry.slot = d.pending.map Entry.slot)
    (hctx : d'.ctx = d.ctx) (hupd : d'.updN = d.updN) : d'.Orderly := by
  have hmem (p : Entry) (hp : p ∈ d'.pending) : ∃ q ∈ d.pending, q.slot = p.slot := by
    have hslot : p.slot ∈ d.pending.map Entry.slot := by
      rw [← hslots]
      exact List.mem_map_of_mem hp
    exact List.mem_map.mp hslot
  constructor
  · rw [hctx]
    exact h.distinct
  · intro p hp
    obtain ⟨q, hq, hslot⟩ := hmem p hp
    rw [hctx, ← (Entry.slot_eq_iff.mp hslot).1]
    exact h.known q hq
  · intro p hp
    obtain ⟨q, hq, hslot⟩ := hmem p hp
    rw [hupd, ← (Entry.slot_eq_iff.mp hslot).2.2.2]
    exact h.numbered q hq
  · intro p hp
    obtain ⟨q, hq, hslot⟩ := hmem p hp
    rw [← (Entry.slot_eq_iff.mp hslot).2.2.1]
    exact h.dated q hq
  · intro p hp q hq
    obtain ⟨p', hp', hslot⟩ := hmem p hp
    obtain ⟨q', hq', hslot'⟩ := hmem q hq
    obtain ⟨hctxp, _, hatp, hupdp⟩ := Entry.slot_eq_iff.mp hslot
    obtain ⟨hctxq, _, hatq, hupdq⟩ := Entry.slot_eq_iff.mp hslot'
    rw [← hctxp, ← hctxq, ← hatp, ← hatq, ← hupdp, ← hupdq]
    exact h.grouped p' hp' q' hq'
  · have hold := h.ordered
    let R : Nat × CStr × Int × Nat → Nat × CStr × Int × Nat → Prop :=
      fun s t => s.1 = t.1 → s.2.1 = t.2.1 → s.2.2.2 < t.2.2.2
    have hiff (ps : List Entry) : (ps.map Entry.slot).Pairwise R ↔
        ps.Pairwise fun p q => p.ctx = q.ctx → p.path = q.path → p.upd < q.upd :=
      List.pairwise_map
    rw [← hiff] at hold ⊢
    rw [hslots]
    exact hold

-- Context slots

theorem contextSlot_cases (d : Engine maxMsgs) (context : CStr) :
    (∃ i, d.ctx[i]? = some context ∧ d.contextSlot context = (d, some i)) ∨
    (context ∉ d.ctx ∧ d.ctx.length = CONTEXTS_MAX ∧ d.contextSlot context = (d, none)) ∨
    (context ∉ d.ctx ∧
      d.contextSlot context = (d.addContext context, some d.ctx.length)) := by
  unfold contextSlot
  cases hidx : d.ctx.idxOf? context with
  | some i =>
    left
    refine ⟨i, ?_, rfl⟩
    obtain ⟨hi, hget, _⟩ := List.idxOf?_eq_some_iff.mp hidx
    rw [List.getElem?_eq_getElem hi, hget]
  | none =>
    have hnot : context ∉ d.ctx := List.idxOf?_eq_none_iff.mp hidx
    right
    by_cases hfull : d.ctx.length = CONTEXTS_MAX
    · left
      exact ⟨hnot, hfull, by simp [hfull]⟩
    · right
      exact ⟨hnot, by simp [hfull]⟩

theorem Orderly.addContext {context : CStr} (h : d.Orderly) (hnew : context ∉ d.ctx) :
    (d.addContext context).Orderly := by
  constructor
  · apply List.Nodup.append h.distinct (List.nodup_singleton context)
    intro c hc hmem
    rw [List.mem_singleton] at hmem
    exact hnew (hmem ▸ hc)
  · intro p hp
    have hlt := h.known p hp
    simp only [Engine.addContext, List.length_append]
    omega
  · exact h.numbered
  · exact h.dated
  · exact h.grouped
  · exact h.ordered

theorem entriesOf_addContext {added : CStr} (h : d.Orderly) (context path : CStr) :
    (d.addContext added).entriesOf context path = d.entriesOf context path := by
  apply List.filter_congr
  intro p hp
  simp only [addContext, List.getElem?_append_left (h.known p hp)]

-- Replacing a value

theorem replaceValue_eq_some {ctx : Nat} {path value : CStr} {atMs : Int} {ps table : List Entry}
    (h : replaceValue ctx path atMs value ps = some table) :
    ∃ before p after, ps = before ++ p :: after ∧ p.holds ctx path atMs ∧
      table = before ++ { p with value := value } :: after := by
  induction ps generalizing table with
  | nil => cases h
  | cons p ps ih =>
    unfold replaceValue at h
    split at h
    · rename_i hholds
      obtain rfl := Option.some.inj h
      exact ⟨[], p, ps, rfl, hholds, rfl⟩
    · obtain ⟨rest, hrest, rfl⟩ := Option.map_eq_some_iff.mp h
      obtain ⟨before, q, after, rfl, hq, rfl⟩ := ih hrest
      exact ⟨p :: before, q, after, rfl, hq, rfl⟩

theorem replaceValue_eq_none {ctx : Nat} {path value : CStr} {atMs : Int} {ps : List Entry}
    (h : replaceValue ctx path atMs value ps = none) :
    ∀ p ∈ ps, p.holds ctx path atMs = false := by
  induction ps with
  | nil => simp
  | cons p ps ih =>
    unfold replaceValue at h
    split at h
    · cases h
    · rename_i hnot
      have hrest := ih (Option.map_eq_none_iff.mp h)
      intro q hq
      rcases List.mem_cons.mp hq with rfl | hq
      · simpa using hnot
      · exact hrest q hq

theorem holds_iff {ctx : Nat} {path : CStr} {atMs : Int} {p : Entry} :
    p.holds ctx path atMs ↔ p.ctx = ctx ∧ p.atMs = atMs ∧ p.path = path := by
  simp [Entry.holds, and_assoc]

theorem updateOf_eq_some {ctx u : Nat} {atMs : Int} (h : d.updateOf ctx atMs = some u) :
    ∃ p ∈ d.pending, p.ctx = ctx ∧ p.atMs = atMs ∧ p.upd = u := by
  obtain ⟨p, hfind, hupd⟩ := Option.map_eq_some_iff.mp h
  have hp := List.find?_some hfind
  simp only [Bool.and_eq_true, beq_iff_eq] at hp
  exact ⟨p, List.mem_of_find?_eq_some hfind, hp.1, hp.2, hupd⟩

theorem updateOf_eq_none {ctx : Nat} {atMs : Int} (h : d.updateOf ctx atMs = none) :
    ∀ p ∈ d.pending, p.ctx = ctx → p.atMs ≠ atMs := by
  intro p hp hctx hat
  have := List.find?_eq_none.mp (Option.map_eq_none_iff.mp h) p hp
  simp [hctx, hat] at this

-- The update a value joins is the one of its time.
theorem Orderly.updateOf_of_mem {p : Entry} (h : d.Orderly) (hp : p ∈ d.pending) :
    d.updateOf p.ctx p.atMs = some p.upd := by
  cases hof : d.updateOf p.ctx p.atMs with
  | none => exact absurd rfl (updateOf_eq_none hof p hp rfl)
  | some u =>
    obtain ⟨q, hq, hctx, hat, rfl⟩ := updateOf_eq_some hof
    rw [(h.grouped q hq p hp hctx).mp hat]

-- A value that replaces another leaves all slots as they are.
theorem Orderly.replace {ctx : Nat} {path value : CStr} {atMs : Int} {table : List Entry}
    (h : d.Orderly) (htable : replaceValue ctx path atMs value d.pending = some table) :
    (d.setPending table).Orderly := by
  obtain ⟨before, p, after, hpending, _, rfl⟩ := replaceValue_eq_some htable
  refine h.congr ?_ rfl rfl
  rw [hpending]
  simp [setPending, Entry.slot]

-- The replaced value is the last of its path, unless the new one would be
-- sent ahead of a later one.
theorem entriesOf_replace {ctx : Nat} {context path value : CStr} {atMs : Int} {table : List Entry}
    (h : d.Orderly) (hctx : d.ctx[ctx]? = some context)
    (horder : d.overtakes ctx (d.updateOf ctx atMs) path = false)
    (htable : replaceValue ctx path atMs value d.pending = some table) :
    ∃ older p, p.atMs = atMs ∧ d.entriesOf context path = older ++ [p] ∧
      (d.setPending table).entriesOf context path = older ++ [{ p with value := value }] := by
  obtain ⟨before, p, after, hpending, hholds, rfl⟩ := replaceValue_eq_some htable
  obtain ⟨hpctx, hpat, hppath⟩ := holds_iff.mp hholds
  let here : Entry → Bool := fun q => decide (d.ctx[q.ctx]? = some context) && q.path == path
  have hp : here p = true := by simp [here, hpctx, hctx, hppath]
  have hmem : p ∈ d.pending := by simp [hpending]
  have hupd : d.updateOf ctx atMs = some p.upd := by
    rw [← hpctx, ← hpat]
    exact h.updateOf_of_mem hmem
  have hafter : after.filter here = [] := by
    rw [List.filter_eq_nil_iff]
    intro q hq hhere
    have hqmem : q ∈ d.pending := by simp [hpending, hq]
    simp only [here, Bool.and_eq_true, decide_eq_true_eq, beq_iff_eq] at hhere
    have hsame : p.ctx = q.ctx := hpctx.trans (h.ctx_eq hqmem hhere.1 hctx).symm
    have hlater : p.upd < q.upd := by
      have hordered := h.ordered
      rw [hpending] at hordered
      have hpq := (List.pairwise_cons.mp (List.pairwise_append.mp hordered).2.1).1 q hq
      exact hpq hsame (hppath.trans hhere.2.symm)
    rw [hupd] at horder
    simp only [overtakes, List.any_eq_false] at horder
    have := horder q hqmem
    simp [← hsame, hpctx, hlater, hhere.2] at this
  refine ⟨before.filter here, p, hpat, ?_, ?_⟩
  · change d.pending.filter here = _
    rw [hpending, List.filter_append, List.filter_cons_of_pos hp, hafter]
  · change (before ++ { p with value := value } :: after).filter here = _
    have hp' : here { p with value := value } = true := hp
    rw [List.filter_append, List.filter_cons_of_pos hp', hafter]

theorem entriesOf_replace_other {ctx : Nat} {context path value : CStr} {atMs : Int}
    {table : List Entry} (htable : replaceValue ctx path atMs value d.pending = some table)
    {context' path' : CStr} (hctx : d.ctx[ctx]? = some context)
    (hother : ¬ (context = context' ∧ path = path')) :
    (d.setPending table).entriesOf context' path' = d.entriesOf context' path' := by
  obtain ⟨before, p, after, hpending, hholds, rfl⟩ := replaceValue_eq_some htable
  obtain ⟨hpctx, _, hppath⟩ := holds_iff.mp hholds
  let here : Entry → Bool := fun q => decide (d.ctx[q.ctx]? = some context') && q.path == path'
  have hp : here p = false := by
    simp only [here, hpctx, hctx, hppath, Option.some.injEq, Bool.and_eq_false_iff,
      decide_eq_false_iff_not, beq_eq_false_iff_ne]
    by_cases hcontext : context = context'
    · right
      intro hpath
      exact hother ⟨hcontext, hpath⟩
    · exact Or.inl hcontext
  have hp' : here { p with value := value } = false := hp
  change (before ++ { p with value := value } :: after).filter here = d.pending.filter here
  rw [hpending, List.filter_append, List.filter_append]
  simp [hp, hp']

-- Appending a value

-- The number a new value's update has: that of its time, and behind every
-- update that holds its path.
theorem Orderly.joins {ctx : Nat} {path : CStr} {atMs : Int} (h : d.Orderly)
    (hnew : ∀ p ∈ d.pending, p.holds ctx path atMs = false)
    (horder : d.overtakes ctx (d.updateOf ctx atMs) path = false) {u : Nat}
    (hu : u = (d.updateOf ctx atMs).getD d.updN) :
    (∀ p ∈ d.pending, p.ctx = ctx → (p.atMs = atMs ↔ p.upd = u)) ∧
      ∀ p ∈ d.pending, p.ctx = ctx → p.path = path → p.upd < u := by
  cases hof : d.updateOf ctx atMs with
  | none =>
    rw [hof] at hu
    obtain rfl : u = d.updN := hu
    constructor
    · intro p hp hctx
      have hne := updateOf_eq_none hof p hp hctx
      have hlt := h.numbered p hp
      constructor
      · intro hat
        exact absurd hat hne
      · intro hupd
        omega
    · intro p hp _ _
      exact h.numbered p hp
  | some v =>
    rw [hof] at hu horder
    obtain rfl : u = v := hu
    obtain ⟨q, hq, hqctx, hqat, rfl⟩ := updateOf_eq_some hof
    have hgroup (p : Entry) (hp : p ∈ d.pending) (hctx : p.ctx = ctx) :
        p.atMs = atMs ↔ p.upd = q.upd := by
      rw [← hqat]
      exact h.grouped p hp q hq (hctx.trans hqctx.symm)
    refine ⟨hgroup, ?_⟩
    intro p hp hctx hpath
    have hle : ¬ q.upd < p.upd := by
      intro hlt
      have := List.any_eq_false.mp horder p hp
      simp [hctx, hlt, hpath] at this
    have hne : p.upd ≠ q.upd := by
      intro hupd
      have hat := (hgroup p hp hctx).mpr hupd
      have := hnew p hp
      simp [Entry.holds, hctx, hat, hpath] at this
    omega

theorem Orderly.append {ctx : Nat} {path value : CStr} {atMs : Int} {now : UInt32} (h : d.Orderly)
    (hctx : ctx < d.ctx.length)
    (hat : atMs = 0 ∨ AT_MS_MIN ≤ atMs ∧ atMs ≤ AT_MS_MAX)
    (hnew : ∀ p ∈ d.pending, p.holds ctx path atMs = false)
    (horder : d.overtakes ctx (d.updateOf ctx atMs) path = false) :
    (d.appendValue ctx path value atMs now).Orderly := by
  obtain ⟨hgroup, hlater⟩ := h.joins hnew horder rfl
  have hmem (p : Entry) (hp : p ∈ (d.appendValue ctx path value atMs now).pending) :
      p ∈ d.pending ∨ p = ⟨path, value, atMs, ctx, (d.updateOf ctx atMs).getD d.updN⟩ := by
    simpa [appendValue] using hp
  constructor
  · exact h.distinct
  · intro p hp
    rcases hmem p hp with hold | rfl
    · exact h.known p hold
    · exact hctx
  · intro p hp
    simp only [appendValue]
    rcases hmem p hp with hold | rfl
    · have hlt := h.numbered p hold
      split <;> omega
    · cases hof : d.updateOf ctx atMs with
      | none => simp
      | some u =>
        obtain ⟨q, hq, _, _, rfl⟩ := updateOf_eq_some hof
        simpa using h.numbered q hq
  · intro p hp
    rcases hmem p hp with hold | rfl
    · exact h.dated p hold
    · exact hat
  · intro p hp q hq hsame
    rcases hmem p hp with hold | rfl
    · rcases hmem q hq with hold' | rfl
      · exact h.grouped p hold q hold' hsame
      · exact hgroup p hold hsame
    · rcases hmem q hq with hold' | rfl
      · rw [eq_comm, hgroup q hold' hsame.symm, eq_comm]
      · simp
  · simp only [appendValue]
    rw [List.pairwise_append]
    refine ⟨h.ordered, List.pairwise_singleton _ _, ?_⟩
    intro p hp q hq
    rw [List.mem_singleton] at hq
    rw [hq]
    exact hlater p hp

theorem entriesOf_append {ctx : Nat} {context : CStr} (hctx : d.ctx[ctx]? = some context)
    (path value : CStr) (atMs : Int) (now : UInt32) (context' path' : CStr) :
    (d.appendValue ctx path value atMs now).entriesOf context' path' =
      d.entriesOf context' path' ++
        if context = context' ∧ path = path' then
          [⟨path, value, atMs, ctx, (d.updateOf ctx atMs).getD d.updN⟩]
        else [] := by
  simp only [entriesOf, appendValue, List.filter_append]
  congr 1
  by_cases hcontext : context = context'
  · by_cases hpath : path = path'
    · simp [hctx, hcontext, hpath]
    · simp [hctx, hcontext, hpath]
  · simp [hctx, hcontext]

end Engine

end Espos.Sk.Delta
