import Espos.Sk.Delta.Queue
import Espos.Sk.Delta.Rendering

namespace Espos.Sk.Delta

open Espos.Text

theorem filter_dropWhile {α : Type*} (p : α → Bool) (l : List α) :
    (l.dropWhile fun x => !p x).filter p = l.filter p := by
  induction l with
  | nil => rfl
  | cons x l ih =>
    by_cases hx : p x
    · simp [hx]
    · simp [hx, ih]

theorem flatMap_filter_of_nil {α β : Type*} {p : α → Bool} {f : α → List β} {l : List α}
    (h : ∀ x ∈ l, p x = false → f x = []) : (l.filter p).flatMap f = l.flatMap f := by
  induction l with
  | nil => rfl
  | cons x l ih =>
    have hrest := ih fun y hy => h y (by simp [hy])
    cases hx : p x with
    | true => simp [hx, hrest]
    | false => simp [hx, hrest, h x (by simp) hx]

namespace Engine

variable {maxMsgs : Nat} {d d' : Engine maxMsgs}

-- What a closed window says

theorem updateDoc_eq_some {ctx upd : Nat} {u : Update} (h : d.updateDoc ctx upd = some u) :
    ∃ p ∈ d.pending, p.ctx = ctx ∧ p.upd = upd ∧ u.date = entryDate p.atMs := by
  unfold updateDoc at h
  split at h
  · cases h
  · rename_i f rest hfirst
    obtain rfl := Option.some.inj h
    have hmem : f ∈ d.updateFirst ctx upd := by simp [hfirst]
    have hf : f.inUpdate ctx upd = true := by
      have hhead := List.head?_dropWhile_not (fun p => !Entry.inUpdate ctx upd p) d.pending
      unfold updateFirst at hfirst
      simpa [hfirst] using hhead
    simp only [Entry.inUpdate, Bool.and_eq_true, beq_iff_eq] at hf
    exact ⟨f, (List.dropWhile_sublist _).mem hmem, hf.1, hf.2, rfl⟩

theorem entryDate_eq_none {p : Entry} (h : d.Orderly) (hp : p ∈ d.pending)
    (hdate : entryDate p.atMs = none) : p.atMs = 0 := by
  by_contra hne
  rcases h.dated p hp with hzero | ⟨hmin, hmax⟩
  · exact hne hzero
  · have hsome := iso8601_isSome hmin hmax
    simp only [entryDate, hne, if_false] at hdate
    rw [hdate] at hsome
    cases hsome

-- A context's undated values share one update.
theorem Orderly.single (h : d.Orderly) (ctx : Nat) : (d.document ctx).Single := by
  simp only [Doc.Single, document]
  rw [List.pairwise_filterMap]
  apply List.pairwise_lt_range.imp
  rintro i j hlt u hu v hv ⟨hudate, hvdate⟩
  obtain ⟨p, hp, hpctx, rfl, hpdate⟩ := updateDoc_eq_some hu
  obtain ⟨q, hq, hqctx, rfl, hqdate⟩ := updateDoc_eq_some hv
  have hpzero := entryDate_eq_none h hp (hpdate.symm.trans hudate)
  have hqzero := entryDate_eq_none h hq (hqdate.symm.trans hvdate)
  have hsame := (h.grouped p hp q hq (hpctx.trans hqctx.symm)).mp (hpzero.trans hqzero.symm)
  omega

theorem valuesOf_updateDoc (ctx upd : Nat) (path : CStr) :
    (d.updateDoc ctx upd).toList.flatMap (Update.valuesOf path) =
      ((d.pending.filter fun p => p.ctx == ctx && p.path == path).filter
        fun p => p.upd == upd).map Entry.value := by
  have hfilter := filter_dropWhile (Entry.inUpdate ctx upd) d.pending
  have hswap : (d.pending.filter fun p => p.ctx == ctx && p.path == path).filter
      (fun p => p.upd == upd) = (d.pending.filter (Entry.inUpdate ctx upd)).filter
        fun p => p.path == path := by
    rw [List.filter_filter, List.filter_filter]
    apply List.filter_congr
    intro p _
    simp only [Entry.inUpdate]
    cases p.ctx == ctx <;> cases p.upd == upd <;> simp
  rw [hswap, ← hfilter]
  unfold updateDoc updateFirst
  split
  · rename_i hnil
    rw [hnil]
    rfl
  · rename_i f rest hcons
    rw [hcons]
    simp only [Option.toList_some, List.flatMap_singleton, Update.valuesOf, List.filter_map,
      List.map_map]
    rfl

-- A message has, for each path, the window's values in the order they stand.
theorem Orderly.valuesOf_document (h : d.Orderly) (ctx : Nat) (path : CStr) :
    (d.document ctx).updates.flatMap (Update.valuesOf path) =
      (d.pending.filter fun p => p.ctx == ctx && p.path == path).map Entry.value := by
  have hsorted : (d.pending.filter fun p => p.ctx == ctx && p.path == path).Pairwise
      fun p q => p.upd ≤ q.upd := by
    have hpairs := List.Pairwise.filter (fun p => p.ctx == ctx && p.path == path) h.ordered
    apply hpairs.imp_of_mem
    intro p q hp hq hlt
    have hp := (List.mem_filter.mp hp).2
    have hq := (List.mem_filter.mp hq).2
    simp only [Bool.and_eq_true, beq_iff_eq] at hp hq
    have := hlt (hp.1.trans hq.1.symm) (hp.2.trans hq.2.symm)
    omega
  have hbound (p : Entry) (hp : p ∈ d.pending.filter fun p => p.ctx == ctx && p.path == path) :
      p.upd < d.updN := h.numbered p (List.mem_filter.mp hp).1
  simp only [document]
  rw [List.filterMap_eq_flatMap_toList, List.flatMap_assoc]
  simp only [valuesOf_updateDoc]
  rw [← List.map_flatMap, Buckets.flatMap_range_eq Entry.upd hsorted hbound]

-- All messages of a window could be allocated.
def Built (d : Engine maxMsgs) (env : Env) : Prop :=
  ∀ c ∈ d.usedContexts, env.allocMessage c

theorem docs_messages {env : Env} (h : d.Built env) :
    (d.messages env).map (fun q => q.msg.doc) = d.usedContexts.map d.document := by
  unfold messages
  unfold Built at h
  generalize d.usedContexts = cs at h
  induction cs with
  | nil => rfl
  | cons c cs ih =>
    have hc := h c (by simp)
    rw [List.filterMap_cons]
    simp only [buildMessage, hc, if_true, List.map_cons]
    congr 1
    exact ih fun c' hc' => h c' (by simp [hc'])

-- Of a path of a context, a document has what the window holds in its slot.
theorem Orderly.valuesOf_document_slot (h : d.Orderly) {c : Nat} (hc : c < d.ctx.length)
    (context path : CStr) : (d.document c).valuesOf context path =
      ((d.entriesOf context path).filter fun p => p.ctx == c).map Entry.value := by
  have hname : (d.document c).context = d.ctx[c] := by
    simp [document, List.getD_eq_getElem?_getD, List.getElem?_eq_getElem hc]
  unfold Doc.valuesOf
  rw [h.valuesOf_document, hname]
  unfold entriesOf
  rw [List.filter_filter]
  split
  · rename_i heq
    congr 1
    apply List.filter_congr
    intro p _
    by_cases hpc : p.ctx = c
    · simp [hpc, List.getElem?_eq_getElem hc, heq]
    · rw [beq_false_of_ne hpc, Bool.false_and, Bool.false_and]
  · rename_i hne
    symm
    rw [List.map_eq_nil_iff, List.filter_eq_nil_iff]
    intro p _ hp
    simp only [Bool.and_eq_true, beq_iff_eq, decide_eq_true_eq] at hp
    rw [hp.1, List.getElem?_eq_getElem hc, Option.some.injEq] at hp
    exact hne hp.2.1

-- Read in turn, the messages of a window say what the window held.
theorem Orderly.valuesOf_messages {env : Env} (h : d.Orderly) (hbuilt : d.Built env)
    (context path : CStr) :
    (d.messages env).flatMap (fun q => q.msg.doc.valuesOf context path) =
      (d.entriesOf context path).map Entry.value := by
  have hsorted : (d.entriesOf context path).Pairwise fun p q => p.ctx ≤ q.ctx := by
    apply List.pairwise_of_forall_mem_list
    intro p hp q hq
    obtain ⟨hpmem, hpctx, _⟩ := mem_entriesOf.mp hp
    obtain ⟨_, hqctx, _⟩ := mem_entriesOf.mp hq
    exact (h.ctx_eq hpmem hpctx hqctx).le
  have hbound (p : Entry) (hp : p ∈ d.entriesOf context path) : p.ctx < d.ctx.length :=
    h.known p (mem_entriesOf.mp hp).1
  have hunused (c : Nat) (hc : c < d.ctx.length) (hnot : (d.pending.any fun p => p.ctx == c) = false) :
      (d.document c).valuesOf context path = [] := by
    rw [h.valuesOf_document_slot hc, List.map_eq_nil_iff, List.filter_eq_nil_iff]
    intro p hp hpc
    exact absurd hpc (List.any_eq_false.mp hnot p (mem_entriesOf.mp hp).1)
  calc
    (d.messages env).flatMap (fun q => q.msg.doc.valuesOf context path) =
        d.usedContexts.flatMap (fun c => (d.document c).valuesOf context path) := by
      rw [← List.flatMap_map (fun q : Queued => q.msg.doc) (Doc.valuesOf context path),
        docs_messages hbuilt, List.flatMap_map]
    _ = (List.range d.ctx.length).flatMap fun c => (d.document c).valuesOf context path := by
      apply flatMap_filter_of_nil
      intro c hc hnot
      exact hunused c (List.mem_range.mp hc) hnot
    _ = (List.range d.ctx.length).flatMap fun c =>
        ((d.entriesOf context path).filter fun p => p.ctx == c).map Entry.value := by
      apply List.flatMap_congr
      intro c hc
      exact h.valuesOf_document_slot (List.mem_range.mp hc) context path
    _ = (d.entriesOf context path).map Entry.value := by
      rw [← List.map_flatMap, Buckets.flatMap_range_eq Entry.ctx hsorted hbound]

-- A queued message is written as its document says, and can be dated where it
-- was left undated.
def Faithful (q : Queued) : Prop :=
  q.msg.text = q.msg.doc.render ∧ (q.stampAt ≠ 0 → Stampable q.msg.text q.stampAt q.msg.doc)

theorem Orderly.faithful_messages {env : Env} (h : d.Orderly) :
    ∀ q ∈ d.messages env, Faithful q := by
  intro q hq
  obtain ⟨ctx, _, hbuild⟩ := List.mem_filterMap.mp hq
  unfold buildMessage at hbuild
  split at hbuild
  · obtain rfl := Option.some.inj hbuild
    refine ⟨d.writeMessage_text ctx, ?_⟩
    intro hne
    rcases d.writeMessage_stampAt (h.single ctx) with hzero | hstamp
    · exact absurd hzero hne
    · exact hstamp
  · cases hbuild

-- Storing a window whole

def setQueue (d : Engine maxMsgs) (ring : Ring Queued maxMsgs) (bytes : Nat) (st : Counters) :
    Engine maxMsgs :=
  { d with ring := ring, bytes := bytes, st := st }

theorem foldl_storeBuilt (qs : List Queued) {d : Engine maxMsgs}
    (h : d.ring.count + qs.length ≤ maxMsgs) :
    ∃ ring bytes st, ring.toList = d.ring.toList ++ qs ∧
      qs.foldl storeBuilt d = d.setQueue ring bytes st := by
  induction qs generalizing d with
  | nil => exact ⟨d.ring, d.bytes, d.st, by simp, rfl⟩
  | cons q qs ih =>
    rw [List.length_cons] at h
    have hlt : d.ring.count < maxMsgs := by omega
    have hcount : (d.storeBuilt q).ring.count = d.ring.count + 1 := d.ring.count_pushBack q hlt
    have hlist : (d.storeBuilt q).ring.toList = d.ring.toList ++ [q] :=
      d.ring.toList_pushBack q hlt
    obtain ⟨ring, bytes, st, hring, hfold⟩ := ih (d := d.storeBuilt q) (by omega)
    refine ⟨ring, bytes, st, ?_, hfold⟩
    rw [hring, hlist, List.append_assoc]
    rfl

-- The window's messages can be allocated, and fit the ring; under `noDrop` it
-- is enough that they would fit an empty one.
def Roomy (d : Engine maxMsgs) (env : Env) : Prop :=
  d.Built env ∧
    (d.exceeds (d.messages env).length (totalBytes (d.messages env)) = false ∨
      (d.noDrop = true ∧ d.fitsEmpty (d.messages env) = true))

instance (d : Engine maxMsgs) (env : Env) : Decidable (d.Roomy env) :=
  inferInstanceAs (Decidable ((∀ c ∈ d.usedContexts, env.allocMessage c = true) ∧ _))

-- Such a window is kept or stored whole.
theorem flushWindow_of_roomy {env : Env} (hopen : d.pending ≠ []) (h : d.Roomy env) :
    d.flushWindow env = (d, false) ∨
      ∃ ring bytes st, ring.toList = d.ring.toList ++ d.messages env ∧
        d.flushWindow env = ((d.setQueue ring bytes st).clearWindow, true) := by
  simp only [flushWindow, hopen, if_false]
  cases hexceeds : d.exceeds (d.messages env).length (totalBytes (d.messages env)) with
  | true =>
    left
    obtain ⟨hnodrop, hempty⟩ := h.2.resolve_left (by simp [hexceeds])
    simp [hnodrop, hempty]
  | false =>
    right
    obtain ⟨ring, bytes, st, hring, hfold⟩ :=
      foldl_storeBuilt (d.messages env) (exceeds_eq_false_iff.mp hexceeds).1
    refine ⟨ring, bytes, st, hring, ?_⟩
    simp only [Bool.and_false, Bool.false_eq_true, if_false]
    rw [foldl_pushBuilt_of_fits _ hexceeds, hfold]

end Engine

end Espos.Sk.Delta
