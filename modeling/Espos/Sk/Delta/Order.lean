import Espos.Sk.Delta.Closing

namespace Espos.Sk.Delta

open Espos.Text
open Espos.Run

-- A value published, and the number of the window it went into.
structure Published where
  context : CStr
  path : CStr
  atMs : Int
  value : CStr
  window : Nat

def Published.sameSlot (x y : Published) : Bool :=
  x.context == y.context && x.path == y.path && x.atMs == y.atMs && x.window == y.window

-- The published values that no later one of the same context, path and time
-- replaced in the same window.
def survivors : List Published → List Published
  | [] => []
  | x :: xs => if xs.any x.sameSlot then survivors xs else x :: survivors xs

def Published.isAt (context path : CStr) (x : Published) : Bool :=
  x.context == context && x.path == path

theorem survivors_concat (xs : List Published) (y : Published) :
    survivors (xs ++ [y]) = (survivors xs).filter (fun x => !x.sameSlot y) ++ [y] := by
  induction xs with
  | nil => simp [survivors]
  | cons x xs ih =>
    rw [List.cons_append]
    simp only [survivors, List.any_append, ih]
    cases hlater : xs.any x.sameSlot with
    | true => simp
    | false =>
      cases hslot : x.sameSlot y with
      | true => simp [hslot]
      | false => simp [hslot]

theorem survivors_sublist (xs : List Published) : (survivors xs).Sublist xs := by
  induction xs with
  | nil => simp [survivors]
  | cons x xs ih =>
    unfold survivors
    split
    · exact ih.cons x
    · exact ih.cons_cons x

theorem sameSlot_iff {x y : Published} : x.sameSlot y ↔
    x.context = y.context ∧ x.path = y.path ∧ x.atMs = y.atMs ∧ x.window = y.window := by
  simp [Published.sameSlot, and_assoc]

theorem isAt_iff {context path : CStr} {x : Published} :
    x.isAt context path ↔ x.context = context ∧ x.path = path := by
  simp [Published.isAt]

theorem isAt_of_sameSlot {context path : CStr} {x y : Published} (h : x.sameSlot y)
    (hx : x.isAt context path) : y.isAt context path := by
  obtain ⟨hcontext, hpath, _⟩ := sameSlot_iff.mp h
  obtain ⟨hx1, hx2⟩ := isAt_iff.mp hx
  exact isAt_iff.mpr ⟨hcontext ▸ hx1, hpath ▸ hx2⟩

-- A path's survivors are decided by what was published for it.
theorem filter_survivors (context path : CStr) (xs : List Published) :
    (survivors xs).filter (Published.isAt context path) =
      survivors (xs.filter (Published.isAt context path)) := by
  induction xs with
  | nil => rfl
  | cons x xs ih =>
    cases hx : x.isAt context path with
    | false =>
      rw [List.filter_cons_of_neg (by simp [hx]), ← ih, survivors]
      split
      · rfl
      · rw [List.filter_cons_of_neg (by simp [hx])]
    | true =>
      have hany : (xs.filter (Published.isAt context path)).any x.sameSlot =
          xs.any x.sameSlot := by
        rw [List.any_filter]
        congr 1
        funext y
        cases hslot : x.sameSlot y with
        | false => simp
        | true => simp [isAt_of_sameSlot hslot hx]
      rw [List.filter_cons_of_pos hx, survivors, survivors, hany]
      split
      · exact ih
      · rw [List.filter_cons_of_pos hx, ih]

-- A publish of another path leaves a path's survivors as they are.
theorem survivorsAt_concat_other {context path : CStr} (xs : List Published) {y : Published}
    (h : y.isAt context path = false) :
    (survivors (xs ++ [y])).filter (Published.isAt context path) =
      (survivors xs).filter (Published.isAt context path) := by
  rw [filter_survivors, filter_survivors, List.filter_append]
  simp [h]

theorem survivorsAt_concat {context path : CStr} (xs : List Published) {y : Published}
    (h : y.isAt context path = true) :
    (survivors (xs ++ [y])).filter (Published.isAt context path) =
      ((survivors xs).filter (Published.isAt context path)).filter (fun x => !x.sameSlot y) ++
        [y] := by
  rw [filter_survivors, filter_survivors, ← survivors_concat, List.filter_append]
  simp [h]

theorem getLast?_survivors (xs : List Published) : (survivors xs).getLast? = xs.getLast? := by
  rcases List.eq_nil_or_concat xs with rfl | ⟨ys, y, rfl⟩
  · rfl
  · simp [survivors_concat]

namespace Engine

variable {maxMsgs : Nat} {d d' : Engine maxMsgs}

-- The documents that are in the ring, the oldest first.
def docs (d : Engine maxMsgs) : List Doc :=
  d.ring.toList.map fun q => q.msg.doc

-- The survivors of a path: those of closed windows are what `before` and the
-- ring say about it, in order, and those of the open window what it holds.
def InOrder (before : List Doc) (log : List Published) (d : Engine maxMsgs)
    (context path : CStr) : Prop :=
  ∃ past cur : List Published,
    (survivors log).filter (Published.isAt context path) = past ++ cur ∧
    past.map Published.value = (before ++ d.docs).flatMap (Doc.valuesOf context path) ∧
    cur.map (fun x => (x.atMs, x.value)) =
      (d.entriesOf context path).map (fun p => (p.atMs, p.value)) ∧
    (∀ x ∈ past, x.window < d.windows) ∧ ∀ x ∈ cur, x.window = d.windows

-- What the engine holds of the values published so far.
structure Traced (before : List Doc) (log : List Published) (d : Engine maxMsgs) : Prop where
  orderly : d.Orderly
  faithful : ∀ q ∈ d.ring.toList, Faithful q
  inOrder : ∀ context path, d.InOrder before log context path

variable {before before' : List Doc} {log : List Published} {context path : CStr}

theorem InOrder.congr (h : d.InOrder before log context path)
    (hentries : d'.entriesOf context path = d.entriesOf context path)
    (hdocs : (before' ++ d'.docs).flatMap (Doc.valuesOf context path) =
      (before ++ d.docs).flatMap (Doc.valuesOf context path))
    (hwindows : d'.windows = d.windows) : d'.InOrder before' log context path := by
  obtain ⟨past, cur, hsplit, hpast, hcur, hold, hnow⟩ := h
  refine ⟨past, cur, hsplit, hpast.trans hdocs.symm, ?_, ?_, ?_⟩
  · rw [hentries]
    exact hcur
  · rw [hwindows]
    exact hold
  · rw [hwindows]
    exact hnow

-- Closing the window moves its values behind those of the windows before.
theorem InOrder.close (h : d.InOrder before log context path)
    (hdocs : (before ++ d'.docs).flatMap (Doc.valuesOf context path) =
      (before ++ d.docs).flatMap (Doc.valuesOf context path) ++
        (d.entriesOf context path).map Entry.value)
    (hentries : d'.entriesOf context path = []) (hwindows : d'.windows = d.windows + 1) :
    d'.InOrder before log context path := by
  obtain ⟨past, cur, hsplit, hpast, hcur, hold, hnow⟩ := h
  have hvalues : cur.map Published.value = (d.entriesOf context path).map Entry.value := by
    have := congrArg (List.map Prod.snd) hcur
    simpa only [List.map_map, Function.comp_def] using this
  refine ⟨past ++ cur, [], by simpa using hsplit, ?_, by simp [hentries], ?_, by simp⟩
  · rw [List.map_append, hpast, hvalues, hdocs]
  · intro x hx
    rw [hwindows]
    rcases List.mem_append.mp hx with hx | hx
    · have := hold x hx
      omega
    · have := hnow x hx
      omega

-- The windows of the past are not those of the present.
theorem not_sameSlot_of_past {past : List Published} {y : Published} {window : Nat}
    (hold : ∀ x ∈ past, x.window < window) (hy : y.window = window) :
    past.filter (fun x => !x.sameSlot y) = past := by
  rw [List.filter_eq_self]
  intro x hx
  have hlt := hold x hx
  rw [Bool.not_eq_true', Bool.eq_false_iff]
  intro hsame
  have := (sameSlot_iff.mp hsame).2.2.2
  omega

-- Nor is what has another time.
theorem not_sameSlot_of_dates {cur : List Published} {ps : List Entry} {y : Published}
    (hcur : cur.map (fun x => (x.atMs, x.value)) = ps.map (fun p => (p.atMs, p.value)))
    (hps : ∀ p ∈ ps, p.atMs ≠ y.atMs) : cur.filter (fun x => !x.sameSlot y) = cur := by
  rw [List.filter_eq_self]
  intro x hx
  rw [Bool.not_eq_true', Bool.eq_false_iff]
  intro hsame
  have hpair : (x.atMs, x.value) ∈ cur.map fun x => (x.atMs, x.value) := List.mem_map_of_mem hx
  rw [hcur] at hpair
  obtain ⟨p, hp, heq⟩ := List.mem_map.mp hpair
  have hat : p.atMs = x.atMs := congrArg Prod.fst heq
  exact hps p hp (hat.trans (sameSlot_iff.mp hsame).2.2.1)

-- A value with a place of its own is added at the end.
theorem InOrder.append {y : Published} {p : Entry} (h : d.InOrder before log y.context y.path)
    (hentries : d'.entriesOf y.context y.path = d.entriesOf y.context y.path ++ [p])
    (hdocs : d'.docs = d.docs) (hwindows : d'.windows = d.windows) (hy : y.window = d.windows)
    (hp : p.atMs = y.atMs ∧ p.value = y.value)
    (hnew : ∀ q ∈ d.entriesOf y.context y.path, q.atMs ≠ y.atMs) :
    d'.InOrder before (log ++ [y]) y.context y.path := by
  obtain ⟨past, cur, hsplit, hpast, hcur, hold, hnow⟩ := h
  have hyat : y.isAt y.context y.path = true := isAt_iff.mpr ⟨rfl, rfl⟩
  refine ⟨past, cur ++ [y], ?_, ?_, ?_, ?_, ?_⟩
  · rw [survivorsAt_concat log hyat, hsplit, List.filter_append, not_sameSlot_of_past hold hy,
      not_sameSlot_of_dates hcur hnew, List.append_assoc]
  · rw [hdocs]
    exact hpast
  · rw [hentries, List.map_append, List.map_append, hcur]
    simp [hp.1, hp.2]
  · rw [hwindows]
    exact hold
  · rw [hwindows]
    intro x hx
    rcases List.mem_append.mp hx with hx | hx
    · exact hnow x hx
    · rw [List.mem_singleton] at hx
      rw [hx, hy]

-- A value that replaces the last one takes its place.
theorem InOrder.replace {y : Published} {older : List Entry} {p : Entry}
    (h : d.InOrder before log y.context y.path)
    (hentries : d.entriesOf y.context y.path = older ++ [p]) (hp : p.atMs = y.atMs)
    (hentries' : d'.entriesOf y.context y.path = older ++ [{ p with value := y.value }])
    (hdocs : d'.docs = d.docs) (hwindows : d'.windows = d.windows) (hy : y.window = d.windows)
    (holder : ∀ q ∈ older, q.atMs ≠ y.atMs) :
    d'.InOrder before (log ++ [y]) y.context y.path := by
  obtain ⟨past, cur, hsplit, hpast, hcur, hold, hnow⟩ := h
  have hyat : y.isAt y.context y.path = true := isAt_iff.mpr ⟨rfl, rfl⟩
  rw [hentries, List.map_append] at hcur
  obtain ⟨cur, last, rfl, hkept, hlast⟩ := List.map_eq_append_iff.mp hcur
  obtain ⟨x, rfl⟩ : ∃ x, last = [x] := by
    have hlen := congrArg List.length hlast
    simp only [List.length_map, List.length_singleton] at hlen
    exact List.length_eq_one_iff.mp hlen
  have hxmem : x ∈ (survivors log).filter (Published.isAt y.context y.path) := by
    rw [hsplit]
    simp
  have hxat := isAt_iff.mp (List.mem_filter.mp hxmem).2
  have hxslot : x.sameSlot y := by
    simp only [List.map_singleton, List.cons.injEq, Prod.mk.injEq, and_true] at hlast
    exact sameSlot_iff.mpr ⟨hxat.1, hxat.2, hlast.1.trans hp, (hnow x (by simp)).trans hy.symm⟩
  refine ⟨past, cur ++ [y], ?_, ?_, ?_, ?_, ?_⟩
  · rw [survivorsAt_concat log hyat, hsplit, List.filter_append, List.filter_append,
      not_sameSlot_of_past hold hy, not_sameSlot_of_dates hkept holder]
    simp [hxslot]
  · rw [hdocs]
    exact hpast
  · rw [hentries', List.map_append, List.map_append, hkept]
    simp [hp]
  · rw [hwindows]
    exact hold
  · rw [hwindows]
    intro z hz
    rcases List.mem_append.mp hz with hz | hz
    · exact hnow z (by simp [hz])
    · rw [List.mem_singleton] at hz
      rw [hz, hy]

theorem InOrder.other {y : Published} (h : d.InOrder before log context path)
    (hother : ¬ (y.context = context ∧ y.path = path)) :
    d.InOrder before (log ++ [y]) context path := by
  have hyat : y.isAt context path = false := by
    rw [Bool.eq_false_iff]
    intro hat
    exact hother (isAt_iff.mp hat)
  obtain ⟨past, cur, hsplit, hrest⟩ := h
  refine ⟨past, cur, ?_, hrest⟩
  rw [survivorsAt_concat_other log hyat]
  exact hsplit

-- Publishing

-- The open window of an engine, and the part a message handed out undated is
-- remembered by.
def openWindow (d : Engine maxMsgs) : List Entry × List CStr × Nat × Nat :=
  (d.pending, d.ctx, d.updN, d.windows)

def undated (d : Engine maxMsgs) : Option Nat × Nat :=
  (d.unstamped, d.unstampedAt)

theorem openWindow_eq_iff : d.openWindow = d'.openWindow ↔
    d.pending = d'.pending ∧ d.ctx = d'.ctx ∧ d.updN = d'.updN ∧ d.windows = d'.windows := by
  simp [openWindow]

theorem Closed.congr (h : d.Closed) (hwindow : d'.openWindow = d.openWindow) : d'.Closed := by
  obtain ⟨hpending, hctx, _⟩ := openWindow_eq_iff.mp hwindow
  unfold Closed
  rw [hpending, hctx]
  exact h

-- What the window and the messages say decides what is traced.
theorem Traced.congr (h : d.Traced before log) (hwindow : d'.openWindow = d.openWindow)
    (hfaithful : ∀ q ∈ d'.ring.toList, Faithful q)
    (hdocs : ∀ context path, (before' ++ d'.docs).flatMap (Doc.valuesOf context path) =
      (before ++ d.docs).flatMap (Doc.valuesOf context path)) : d'.Traced before' log := by
  obtain ⟨hpending, hctx, hupd, hwindows⟩ := openWindow_eq_iff.mp hwindow
  refine ⟨h.orderly.congr (by rw [hpending]) hctx hupd, hfaithful, ?_⟩
  intro context path
  apply (h.inOrder context path).congr _ (hdocs context path) hwindows
  simp only [entriesOf, hpending, hctx]

theorem Traced.addContext (h : d.Traced before log) (hnew : context ∉ d.ctx) :
    (d.addContext context).Traced before log := by
  refine ⟨h.orderly.addContext hnew, h.faithful, ?_⟩
  intro context' path'
  exact (h.inOrder context' path').congr (entriesOf_addContext h.orderly context' path') rfl rfl

theorem Traced.close {env : Env} {ring : Ring Queued maxMsgs} (h : d.Traced before log)
    (hbuilt : d.Built env) (hring : ring.toList = d.ring.toList ++ d.messages env) (bytes : Nat)
    (st : Counters) : ((d.setQueue ring bytes st).clearWindow).Traced before log := by
  have hdocs : ((d.setQueue ring bytes st).clearWindow).docs =
      d.docs ++ (d.messages env).map fun q => q.msg.doc := by
    change ring.toList.map _ = _
    rw [hring, List.map_append]
    rfl
  constructor
  · constructor <;> simp [clearWindow]
  · intro q hq
    change q ∈ ring.toList at hq
    rw [hring] at hq
    rcases List.mem_append.mp hq with hq | hq
    · exact h.faithful q hq
    · exact h.orderly.faithful_messages q hq
  · intro context path
    apply (h.inOrder context path).close _ rfl rfl
    rw [hdocs, ← List.append_assoc, List.flatMap_append, List.flatMap_map,
      h.orderly.valuesOf_messages hbuilt]

-- The values a window holds for a path have different times.
theorem Orderly.dates_ne (h : d.Orderly) (context path : CStr) :
    (d.entriesOf context path).Pairwise fun p q => p.atMs ≠ q.atMs := by
  have hpairs := List.Pairwise.filter
    (fun p : Entry => decide (d.ctx[p.ctx]? = some context) && p.path == path) h.ordered
  apply hpairs.imp_of_mem
  intro p q hp hq hlt hat
  obtain ⟨hpmem, hpctx, hppath⟩ := mem_entriesOf.mp hp
  obtain ⟨hqmem, hqctx, hqpath⟩ := mem_entriesOf.mp hq
  have hctx := h.ctx_eq hpmem hpctx hqctx
  have hupd := (h.grouped p hpmem q hqmem hctx).mp hat
  have := hlt hctx (hppath.trans hqpath.symm)
  omega

theorem Traced.append {ctx : Nat} {value : CStr} {atMs : Int} {now : UInt32}
    (h : d.Traced before log) (hctx : d.ctx[ctx]? = some context)
    (hat : atMs = 0 ∨ AT_MS_MIN ≤ atMs ∧ atMs ≤ AT_MS_MAX)
    (hnew : ∀ p ∈ d.pending, p.holds ctx path atMs = false)
    (horder : d.overtakes ctx (d.updateOf ctx atMs) path = false) :
    (d.appendValue ctx path value atMs now).Traced before
      (log ++ [⟨context, path, atMs, value, d.windows⟩]) := by
  have hlt : ctx < d.ctx.length := (List.getElem?_eq_some_iff.mp hctx).1
  refine ⟨h.orderly.append hlt hat hnew horder, h.faithful, ?_⟩
  intro context' path'
  have hentries := entriesOf_append hctx path value atMs now context' path'
  by_cases hsame : context = context' ∧ path = path'
  · obtain ⟨rfl, rfl⟩ := hsame
    simp only [and_self, if_true] at hentries
    apply InOrder.append (y := ⟨context, path, atMs, value, d.windows⟩) (h.inOrder context path)
      hentries rfl rfl rfl ⟨rfl, rfl⟩
    intro q hq hqat
    obtain ⟨hqmem, hqctx, hqpath⟩ := mem_entriesOf.mp hq
    have hslot := h.orderly.ctx_eq hqmem hqctx hctx
    have hnot := hnew q hqmem
    rw [holds_iff.mpr ⟨hslot, hqat, hqpath⟩] at hnot
    cases hnot
  · rw [if_neg hsame, List.append_nil] at hentries
    exact ((h.inOrder context' path').congr hentries rfl rfl).other hsame

theorem Traced.replace {ctx : Nat} {value : CStr} {atMs : Int} {table : List Entry}
    (h : d.Traced before log) (hctx : d.ctx[ctx]? = some context)
    (horder : d.overtakes ctx (d.updateOf ctx atMs) path = false)
    (htable : replaceValue ctx path atMs value d.pending = some table) :
    (d.setPending table).Traced before (log ++ [⟨context, path, atMs, value, d.windows⟩]) := by
  refine ⟨h.orderly.replace htable, h.faithful, ?_⟩
  intro context' path'
  by_cases hsame : context = context' ∧ path = path'
  · obtain ⟨rfl, rfl⟩ := hsame
    obtain ⟨older, p, hp, hold, hnew⟩ := entriesOf_replace h.orderly hctx horder htable
    apply InOrder.replace (y := ⟨context, path, atMs, value, d.windows⟩) (h.inOrder context path)
      hold hp hnew rfl rfl rfl
    intro q hq
    have hdates := h.orderly.dates_ne context path
    rw [hold] at hdates
    rw [← hp]
    exact (List.pairwise_append.mp hdates).2.2 q hq p (by simp)
  · have hentries := entriesOf_replace_other htable hctx hsame
    exact ((h.inOrder context' path').congr hentries rfl rfl).other hsame

theorem contextSlot_of_nil (h : d.ctx = []) (context : CStr) :
    d.contextSlot context = (d.addContext context, some 0) := by
  simp [contextSlot, h, CONTEXTS_MAX]

theorem noPlace_open {K : Kconfig} {ctx : Option Nat} {atMs : Int}
    (hnone : ctx = none → d.pending ≠ []) (h : d.noPlace K ctx path atMs = true) :
    d.pending ≠ [] := by
  intro hnil
  have hrange := K.skPendingMax_range
  cases ctx with
  | none => exact hnone rfl hnil
  | some c =>
    have hlen : ¬ 0 = K.skPendingMax := by omega
    cases hupd : d.updateOf c atMs <;>
      simp [noPlace, reorders, overtakes, hnil, hupd, hlen] at h

end Engine

end Espos.Sk.Delta
