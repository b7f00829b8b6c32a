import Espos.Lib.Lists
import Espos.Sk.Delta.Numbering
import Espos.Sk.Delta.Wording

-- What `build_message` writes: how long it is, what it says, and where the
-- batch's timestamp goes.

namespace Espos.Sk.Delta

open Espos.Text
open Espos.Run

-- Dates

theorem plain_of_isDigit {c : Char} (h : c.isDigit = true) : needsEscape c = false := by
  have hrange : 48 ≤ c.toNat ∧ c.toNat ≤ 57 := by
    simpa [Char.isDigit, UInt32.le_iff_toNat_le] using h
  have hquote : c ≠ '"' := by
    rintro rfl
    exact absurd h (by decide)
  have hslash : c ≠ '\\' := by
    rintro rfl
    exact absurd h (by decide)
  simp only [needsEscape, Bool.or_eq_false_iff, decide_eq_false_iff_not, beq_eq_false_iff_ne]
  exact ⟨⟨by omega, hquote⟩, hslash⟩

theorem plain_padded (width n : Nat) : Plain (padded width n) := by
  intro c hc
  apply plain_of_isDigit
  rcases List.mem_append.mp hc with hzero | hdigit
  · obtain rfl := List.eq_of_mem_replicate hzero
    rfl
  · exact Nat.isDigit_of_mem_toDigits (by decide) (by decide) hdigit

theorem plain_append_iff {s t : CStr} : Plain (s ++ t) ↔ Plain s ∧ Plain t := by
  simp only [Plain, List.mem_append, or_imp, forall_and]

theorem iso8601_eq_some {t : Int} {iso : CStr} (h : iso8601 t = some iso) :
    iso.length < 25 ∧ Plain iso := by
  unfold iso8601 at h
  by_cases hpos : t ≤ 0
  · rw [if_pos hpos] at h
    cases h
  · rw [if_neg hpos] at h
    dsimp only at h
    generalize htext : (padded 4 _ ++ lit "-" ++ padded 2 _ ++ lit "-" ++ padded 2 _ ++ lit "T" ++
      padded 2 _ ++ lit ":" ++ padded 2 _ ++ lit ":" ++ padded 2 _ ++ lit "." ++ padded 3 _ ++
      lit "Z") = text at h
    by_cases hlength : text.length < 25
    · rw [if_pos hlength] at h
      obtain rfl := Option.some.inj h
      refine ⟨hlength, ?_⟩
      rw [← htext]
      have hdash : Plain (lit "-") := by decide
      have htime : Plain (lit "T") := by decide
      have hcolon : Plain (lit ":") := by decide
      have hdot : Plain (lit ".") := by decide
      have hzone : Plain (lit "Z") := by decide
      simp only [plain_append_iff, plain_padded, hdash, htime, hcolon, hdot, hzone, and_self]
    · rw [if_neg hlength] at h
      cases h

namespace Engine

theorem entryDate_eq_some {t : Int} {iso : CStr} (h : entryDate t = some iso) :
    iso.length < 25 ∧ Plain iso := by
  unfold entryDate at h
  by_cases hzero : t = 0
  · rw [if_pos hzero] at h
    cases h
  · rw [if_neg hzero] at h
    exact iso8601_eq_some h

variable {maxMsgs : Nat} {d : Engine maxMsgs}

-- The size of the allocation. An update's frame with its timestamp is 77 bytes
-- plus the label; the rest is slack.
def need (d : Engine maxMsgs) (ctx : Nat) : Nat :=
  32 + (d.ctx.getD ctx []).length +
    ((d.pending.filter fun p => p.ctx == ctx).map
      fun p => 24 + p.path.length + p.value.length).sum +
    (((List.range d.updN).filter fun upd => decide (d.updateFirst ctx upd ≠ [])).map
      fun _ => 128 + d.label.chars.length).sum

-- How long it is

theorem length_dateText (time : Int) : (dateText (entryDate time)).length ≤ 39 := by
  cases hdate : entryDate time with
  | none => exact Nat.zero_le _
  | some iso =>
    have hlength := (entryDate_eq_some hdate).1
    simp only [dateText_eq, Option.elim_some, List.length_append, length_quoted]
    have hname : (lit "\"timestamp\":").length = 12 := rfl
    have hcomma : (lit ",").length = 1 := rfl
    omega

theorem length_valueText (p : Entry) :
    (valueText p.named).length + 1 ≤ 24 + p.path.length + p.value.length := by
  have hpath : (lit "\x7b\"path\":").length = 8 := rfl
  have hvalue : (lit ",\"value\":").length = 9 := rfl
  have hend : (lit "\x7d").length = 1 := rfl
  simp only [valueText_eq, List.length_append, length_quoted, Entry.named]
  omega

theorem sum_map_le {α : Type*} {f g : α → Nat} {l : List α} (h : ∀ x ∈ l, f x ≤ g x) :
    (l.map f).sum ≤ (l.map g).sum := by
  induction l with
  | nil => exact Nat.le_refl _
  | cons x l ih =>
    have hx := h x (by simp)
    have hrest := ih fun y hy => h y (List.mem_cons_of_mem _ hy)
    simp only [List.map_cons, List.sum_cons]
    omega

theorem length_render (d : Engine maxMsgs) (time : Int) (ps : List Entry) :
    (Update.render d.label.chars ⟨entryDate time, ps.map Entry.named⟩).length + 1 ≤
      128 + d.label.chars.length +
        (ps.map fun p => 24 + p.path.length + p.value.length).sum := by
  have hdate := length_dateText time
  have hvalues := length_listed_le true ((ps.map Entry.named).map valueText)
  have hsum : (((ps.map Entry.named).map valueText).map fun item => item.length + 1).sum ≤
      (ps.map fun p => 24 + p.path.length + p.value.length).sum := by
    rw [List.map_map, List.map_map]
    exact sum_map_le fun p _ => length_valueText p
  have hopen : (lit "\x7b").length = 1 := rfl
  have hlabel : (lit "\"source\":\x7b\"label\":").length = 18 := rfl
  have hlist : (lit "\x7d,\"values\":[").length = 12 := rfl
  have hend : (lit "]\x7d").length = 2 := rfl
  simp only [Update.render, body_eq, List.length_append, length_quoted]
  omega

theorem sum_filterMap {α β : Type*} {f : α → Option β} {g : β → Nat} (l : List α) :
    ((l.filterMap f).map g).sum = (l.map fun x => (f x).elim 0 g).sum := by
  induction l with
  | nil => rfl
  | cons x l ih =>
    cases hx : f x with
    | none => simp [hx, ih]
    | some y => simp [hx, ih]

theorem sum_filter {α : Type*} {p : α → Bool} {g : α → Nat} (l : List α) :
    ((l.filter p).map g).sum = (l.map fun x => if p x then g x else 0).sum := by
  induction l with
  | nil => rfl
  | cons x l ih =>
    cases hx : p x with
    | true => simp [hx, ih]
    | false => simp [hx, ih]

theorem sum_map_add {α : Type*} (f g : α → Nat) (l : List α) :
    (l.map fun x => f x + g x).sum = (l.map f).sum + (l.map g).sum := by
  induction l with
  | nil => rfl
  | cons x l ih =>
    simp only [List.map_cons, List.sum_cons, ih]
    omega

-- The text and its terminator fit what was allocated.
theorem writeMessage_fits (h : d.Orderly) (ctx : Nat) :
    (d.writeMessage ctx).text.length + 1 ≤ d.need ctx := by
  let weight : Entry → Nat := fun p => 24 + p.path.length + p.value.length
  let frame : Nat → Nat := fun upd =>
    if decide (d.updateFirst ctx upd ≠ []) then 128 + d.label.chars.length else 0
  let inside : Nat → Nat := fun upd =>
    ((d.pending.filter (Entry.inUpdate ctx upd)).map weight).sum
  have hupdate : ∀ upd,
      (d.updateDoc ctx upd).elim 0 (fun u => (u.render d.label.chars).length + 1) ≤
        frame upd + inside upd := by
    intro upd
    rw [updateDoc_eq]
    have hhead := d.head?_updateFirst ctx upd
    cases hfind : d.pending.find? (Entry.inUpdate ctx upd) with
    | none => exact Nat.zero_le _
    | some f =>
      have hsome : d.updateFirst ctx upd ≠ [] := by
        intro hnil
        rw [hnil, hfind] at hhead
        cases hhead
      have hlength := d.length_render f.atMs (d.pending.filter (Entry.inUpdate ctx upd))
      simp only [frame, inside, weight, hsome, ne_eq, not_false_eq_true, decide_true, if_true]
      exact hlength
  -- every value of the context is in one of the updates
  have hinside : ((List.range d.updN).map inside).sum =
      ((d.pending.filter fun p => p.ctx == ctx).map weight).sum := by
    have hbound : ∀ p ∈ d.pending.filter fun p => p.ctx == ctx, p.upd < d.updN :=
      fun p hp => h.numbered p (List.mem_filter.mp hp).1
    rw [← Buckets.sum_range Entry.upd weight hbound]
    congr 1
    apply List.map_congr_left
    intro upd _
    simp only [inside, List.filter_filter]
    congr 2
    apply List.filter_congr
    intro p _
    rw [Entry.inUpdate, Bool.and_comm]
  have hlisted := length_listed_le true
    ((d.document ctx).updates.map (Update.render d.label.chars))
  have hsum : (((d.document ctx).updates.map (Update.render d.label.chars)).map
      fun item => item.length + 1).sum ≤
        ((List.range d.updN).map frame).sum + ((List.range d.updN).map inside).sum := by
    rw [List.map_map, document, sum_filterMap, ← sum_map_add]
    exact sum_map_le fun upd _ => hupdate upd
  have hframes := sum_filter (p := fun upd => decide (d.updateFirst ctx upd ≠ []))
    (g := fun _ => 128 + d.label.chars.length) (List.range d.updN)
  have hopen : (lit "\x7b\"context\":").length = 11 := rfl
  have hlist : (lit ",\"updates\":[").length = 12 := rfl
  have hend : (lit "]\x7d").length = 2 := rfl
  have hlabel : (d.document ctx).label = d.label.chars := rfl
  have hcontext : (d.document ctx).context = d.ctx.getD ctx [] := rfl
  rw [writeMessage_text, render_eq, need, hframes]
  simp only [List.length_append, length_quoted, hlabel, hcontext]
  simp only [frame, weight] at hsum hinside
  omega

-- What it says

-- The message of a context: an update per distinct time.
def listing (d : Engine maxMsgs) (ctx : Nat) : Doc where
  context := d.ctx.getD ctx []
  label := d.label.chars
  updates := (d.timesOf ctx).map (d.updateAt ctx)

-- A message is built as it is meant to be. Of an undated update, the offset is
-- the length of the text up to its opening brace.
structure Exact (d : Engine maxMsgs) (ctx : Nat) : Prop where
  fits : (d.writeMessage ctx).text.length + 1 ≤ d.need ctx
  worded : (d.writeMessage ctx).text = (d.listing ctx).json
  dated : ∀ time ∈ d.timesOf ctx, (d.updateAt ctx time).date.isSome ↔ time ≠ 0
  allDated : (d.writeMessage ctx).stampAt = 0 ↔ ∀ p ∈ d.pending, p.ctx = ctx → p.atMs ≠ 0
  undated : (d.writeMessage ctx).stampAt ≠ 0 → ∃ before u after,
    (d.listing ctx).updates = before ++ u :: after ∧ u.date = none ∧
      (∀ v ∈ before ++ after, v.date.isSome) ∧
      (d.writeMessage ctx).text.take (d.writeMessage ctx).stampAt =
        (d.listing ctx).opening before ∧
      (d.writeMessage ctx).stampAt = ((d.listing ctx).opening before).length

-- The label and the context's paths can be copied into the message.
def PlainNames (d : Engine maxMsgs) (ctx : Nat) : Prop :=
  Plain d.label.chars ∧ ∀ p ∈ d.pending, p.ctx = ctx → Plain p.path

theorem mem_timesOf {ctx : Nat} {time : Int} :
    time ∈ d.timesOf ctx ↔ ∃ p ∈ d.pending, p.ctx = ctx ∧ p.atMs = time := by
  simp [timesOf, List.mem_eraseDups, and_assoc]

theorem document_eq_listing (h : d.Orderly) (hnumbering : d.Numbering) (ctx : Nat) :
    d.document ctx = d.listing ctx := by
  rw [document, listing, ← document_updates h hnumbering]
  rfl

theorem Orderly.dated_iff (h : d.Orderly) {ctx : Nat} {time : Int} (htime : time ∈ d.timesOf ctx) :
    (d.updateAt ctx time).date.isSome ↔ time ≠ 0 := by
  obtain ⟨p, hp, _, rfl⟩ := mem_timesOf.mp htime
  constructor
  · intro hsome hzero
    simp [updateAt, entryDate, hzero] at hsome
  · intro hne
    cases hdate : (d.updateAt ctx p.atMs).date with
    | some iso => rfl
    | none => exact absurd (entryDate_eq_none h hp hdate) hne

theorem mem_updateAt {p : Entry} (hp : p ∈ d.pending) :
    p.named ∈ (d.updateAt p.ctx p.atMs).values := by
  apply List.mem_map_of_mem
  rw [List.mem_filter]
  exact ⟨hp, by simp⟩

theorem listing_plain_iff {ctx : Nat} (hused : ctx ∈ d.usedContexts)
    (hcontext : Plain (d.ctx.getD ctx [])) : (d.listing ctx).Plain ↔ d.PlainNames ctx := by
  obtain ⟨p, hp, hpctx⟩ : ∃ p ∈ d.pending, p.ctx = ctx := by
    simpa [usedContexts] using (List.mem_filter.mp hused).2
  have hmem : ∀ q ∈ d.pending, q.ctx = ctx → d.updateAt ctx q.atMs ∈ (d.listing ctx).updates :=
    fun q hq hctx => List.mem_map_of_mem (mem_timesOf.mpr ⟨q, hq, hctx, rfl⟩)
  constructor
  · intro h
    refine ⟨h.label (List.ne_nil_of_mem (hmem p hp hpctx)), fun q hq hctx => ?_⟩
    subst hctx
    exact h.paths _ (hmem q hq rfl) _ (mem_updateAt hq)
  · rintro ⟨hlabel, hpaths⟩
    refine ⟨hcontext, fun _ => hlabel, fun u hu iso hiso => ?_, fun u hu v hv => ?_⟩
    · obtain ⟨time, _, rfl⟩ := List.mem_map.mp hu
      exact (entryDate_eq_some hiso).2
    · obtain ⟨time, _, rfl⟩ := List.mem_map.mp hu
      obtain ⟨q, hq, rfl⟩ := List.mem_map.mp hv
      have hin := (List.mem_filter.mp hq).2
      simp only [Bool.and_eq_true, beq_iff_eq] at hin
      exact hpaths q (List.mem_filter.mp hq).1 hin.1

theorem exact_iff (h : d.Orderly) (hnumbering : d.Numbering) {ctx : Nat}
    (hused : ctx ∈ d.usedContexts) (hcontext : Plain (d.ctx.getD ctx [])) :
    d.Exact ctx ↔ d.PlainNames ctx := by
  have htext : (d.writeMessage ctx).text = (d.listing ctx).render := by
    rw [writeMessage_text, document_eq_listing h hnumbering]
  rw [← listing_plain_iff hused hcontext, ← render_eq_json_iff, ← htext]
  refine ⟨Exact.worded, fun hworded =>
    ⟨writeMessage_fits h ctx, hworded, fun _ => h.dated_iff, ?_, ?_⟩⟩
  · have hall : (∀ u ∈ (d.listing ctx).updates, u.date.isSome) ↔
        ∀ p ∈ d.pending, p.ctx = ctx → p.atMs ≠ 0 := by
      constructor
      · intro hdated p hp hctx
        have htime := mem_timesOf.mpr ⟨p, hp, hctx, rfl⟩
        exact (h.dated_iff htime).mp (hdated _ (List.mem_map_of_mem htime))
      · intro hne u hu
        obtain ⟨time, htime, rfl⟩ := List.mem_map.mp hu
        obtain ⟨p, hp, hctx, rfl⟩ := mem_timesOf.mp htime
        exact (h.dated_iff htime).mpr (hne p hp hctx)
    rw [← hall, ← document_eq_listing h hnumbering]
    rcases d.writeMessage_opening (h.single ctx) with
      ⟨hdated, hzero⟩ | ⟨before, u, after, hsplit, hu, _, _, hoffset⟩
    · exact ⟨fun _ => hdated, fun _ => hzero⟩
    · have hpos : (d.writeMessage ctx).stampAt ≠ 0 := by
        rw [hoffset]
        simp [Doc.opening, lit]
      refine ⟨fun hzero => absurd hzero hpos, fun hdated => ?_⟩
      have hsome := hdated u (by simp [hsplit])
      rw [hu] at hsome
      cases hsome
  · intro hpos
    rw [← document_eq_listing h hnumbering]
    rcases d.writeMessage_opening (h.single ctx) with
      ⟨_, hzero⟩ | ⟨before, u, after, hsplit, hu, hbefore, hafter, hoffset⟩
    · exact absurd hzero hpos
    · refine ⟨before, u, after, hsplit, hu, fun v hv => ?_, ?_, hoffset⟩
      · rcases List.mem_append.mp hv with hv | hv
        · exact hbefore v hv
        · exact hafter v hv
      · rw [hoffset, d.writeMessage_text, render_split _ hsplit, List.take_left]

-- The contexts of a window have been checked

def Checked (d : Engine maxMsgs) : Prop :=
  ∀ context ∈ d.ctx, Plain context

theorem plain_of_contextCheck {context : CStr} (h : contextCheck context = .ok) :
    Plain context := by
  unfold contextCheck at h
  by_cases hnil : context = []
  · rw [if_pos hnil] at h
    cases h
  · rw [if_neg hnil] at h
    by_cases hlong : CONTEXT_MAX ≤ context.length
    · rw [if_pos hlong] at h
      cases h
    · rw [if_neg hlong] at h
      by_cases hany : (context.any fun c => decide (c.toNat < 0x20) || c == '"' || c == '\\') = true
      · rw [if_pos hany] at h
        cases h
      · intro c hc
        cases hneeds : needsEscape c with
        | false => rfl
        | true => exact absurd (List.any_eq_true.mpr ⟨c, hc, hneeds⟩) hany

theorem Checked.contextSlot (h : d.Checked) {context : CStr} (hplain : Plain context) :
    (d.contextSlot context).1.Checked := by
  rcases d.contextSlot_cases context with ⟨_, _, hslot⟩ | ⟨_, _, hslot⟩ | ⟨_, hslot⟩
  · rwa [hslot]
  · rwa [hslot]
  · rw [hslot]
    intro c hc
    rcases List.mem_append.mp hc with hold | hnew
    · exact h c hold
    · obtain rfl := List.mem_singleton.mp hnew
      exact hplain

theorem Checked.flushWindow (h : d.Checked) (env : Env) : (d.flushWindow env).1.Checked := by
  rcases d.flushWindow_window env with ⟨hsame, _⟩ | ⟨_, _, hctx, _⟩
  · rwa [hsame]
  · intro c hc
    rw [hctx] at hc
    cases hc

theorem Checked.publishInto (h : d.Checked) (K : Kconfig) (env : Env) {context : CStr}
    (hplain : Plain context) (path value : CStr) (atMs : Int) (ctx : Option Nat) :
    (d.publishInto K env context path value atMs ctx).1.Checked := by
  unfold Engine.publishInto
  cases d.coalesced ctx path value atMs with
  | some table => exact h
  | none =>
    cases d.noPlace K ctx path atMs with
    | false => exact h
    | true =>
      simp only [if_true]
      cases (d.flushWindow env).2 with
      | true => exact (h.flushWindow env).contextSlot hplain
      | false => exact h.flushWindow env

theorem Checked.publishAt (h : d.Checked) (K : Kconfig) (env : Env) (context : Option CStr)
    (path value : CStr) (atMs : Int) : (d.publishAt K env context path value atMs).1.Checked := by
  unfold Engine.publishAt
  generalize context.getD SELF_CONTEXT = context
  by_cases hcheck : publishCheck context path value atMs ≠ .ok
  · simp only [if_pos hcheck]
    exact h
  · simp only [if_neg hcheck]
    have hplain : Plain context := by
      apply plain_of_contextCheck
      by_contra hbad
      apply hcheck
      unfold publishCheck
      by_cases hargs : path = [] ∨ value = [] ∨ (atMs ≠ 0 ∧ (atMs < AT_MS_MIN ∨ AT_MS_MAX < atMs))
      · rw [if_pos hargs]
        nofun
      · rw [if_neg hargs, if_pos hbad]
        exact hbad
    exact (h.contextSlot hplain).publishInto K env hplain path value atMs _

end Engine

theorem checked_step (K : Kconfig) {maxMsgs : Nat} (d : Engine maxMsgs) (call : Env × Op)
    (h : d.Checked) : (step K d call).Checked := by
  obtain ⟨env, op⟩ := call
  cases op with
  | publishAt context path value atMs => exact h.publishAt K env context path value atMs
  | flush => exact h.flushWindow env
  | take connected =>
    have hclosed : (d.closeDue env).Checked := by
      unfold Engine.closeDue
      by_cases hdue : d.batchDue env.now = true
      · rw [if_pos hdue]
        exact h.flushWindow env
      · rwa [if_neg hdue]
    obtain ⟨_, hctx, _⟩ :=
      Engine.openWindow_eq_iff.mp ((d.closeDue env).openWindow_send env connected)
    intro c hc
    exact hclosed c (hctx ▸ hc)
  | requeue msg =>
    obtain ⟨_, hctx, _⟩ := Engine.openWindow_eq_iff.mp (d.openWindow_requeue msg)
    intro c hc
    exact h c (hctx ▸ hc)
  | setLabel label => exact h
  | setTiming batchMs drainPerS => exact h
  | setNoDrop noDrop => exact h

-- In every window that can come about, the message of every context in use is
-- built as it is meant to be exactly when its label and its paths need no escape.
theorem message_exact_iff (K : Kconfig) (cfg : Cfg) (calls : List (Env × Op)) {ctx : Nat}
    (hused : ctx ∈ (run (step K) (create cfg) calls).usedContexts) :
    (run (step K) (create cfg) calls).Exact ctx ↔
      (run (step K) (create cfg) calls).PlainNames ctx := by
  have hchecked : (run (step K) (create cfg) calls).Checked :=
    run_invariant (checked_step K) (fun _ h => absurd h List.not_mem_nil) calls
  generalize hd : run (step K) (create cfg) calls = d at hused hchecked ⊢
  have horderly : d.Orderly := hd ▸ (tidy_run K cfg calls).orderly
  have hnumbering : d.Numbering := hd ▸ numbering_run K cfg calls
  apply Engine.exact_iff horderly hnumbering hused
  have hlt : ctx < d.ctx.length := List.mem_range.mp (List.mem_filter.mp hused).1
  rw [List.getD_eq_getElem?_getD, List.getElem?_eq_getElem hlt]
  exact hchecked _ (List.getElem_mem hlt)

-- Two contexts, and values of three times in one of them.
def mixedWindow : List (Env × Op) :=
  let env := Env.clockless 0
  [(env, .publishAt none (lit "a") (lit "1") 1789380733456),
    (env, .publishAt (some (lit "x")) (lit "a") (lit "2") 0),
    (env, .publishAt none (lit "b") (lit "3") 0),
    (env, .publishAt none (lit "c") (lit "4") 1789380733456),
    (env, .publishAt none (lit "a") (lit "5") 1789380733457)]

theorem mixed_message_exact :
    (run (step .default) (create (Cfg.ofRing 4 0 false)) mixedWindow).Exact 0 :=
  (message_exact_iff .default (Cfg.ofRing 4 0 false) mixedWindow (by decide +kernel)).mpr
    ⟨by decide +kernel, by decide +kernel⟩

-- A path that ends its string early.
def quotedPath : List (Env × Op) :=
  [(Env.clockless 0, .publishAt none (lit "a\"b") (lit "1") 0)]

theorem quoted_path_inexact :
    ¬ (run (step .default) (create (Cfg.ofRing 4 0 false)) quotedPath).Exact 0 := by
  intro h
  have hworded := h.worded
  revert hworded
  decide +kernel

end Espos.Sk.Delta
