import Espos.N2k.Overflow

-- Which runs of a client's task put whole lines only on the wire.

namespace Espos.N2k

open Espos.Text Espos.Lines Espos.Run

variable {iface : CStr} {c : Client}

namespace Client

def lineOf (iface : CStr) (e : CanMessage × Timeval) : CStr :=
  candumpLine e.1 e.2 iface

-- What the client reads: the lines of frames that were queued, in their order.
def WholeLines (iface : CStr) (c : Client) : Prop :=
  ∃ seen : List (CanMessage × Timeval), (seen.map Prod.fst).Sublist c.queued ∧
    records '\n' c.wire = seen.map (lineOf iface)

-- A line that was cut short on the wire is never ended by another.
def Resumes (iface : CStr) (c : Client) : Input → Prop
  | .onFrame _ => True
  | .task env => c.Flushes iface env →
      unfinished '\n' c.wire = [] ∨ '\n' ∉ taken c.tx env.sent

-- The lines on the wire and those still in the buffer, in the order of encoding.
structure Streams (iface : CStr) (c : Client) : Prop where
  whole : unfinished '\n' c.tx = []
  lines : (records '\n' c.wire ++ records '\n' c.tx).Sublist (c.encoded.map (lineOf iface))
  opened : unfinished '\n' c.wire ≠ [] → '(' ∈ unfinished '\n' c.wire

def Queued (c : Client) : Prop :=
  (c.encoded.map Prod.fst ++ c.queue).Sublist c.queued

theorem Streams.wholeLines (h : c.Streams iface) (hqueued : c.Queued) : c.WholeLines iface := by
  have hwire := (List.sublist_append_left _ _).trans h.lines
  obtain ⟨seen, hseen, hlines⟩ := List.sublist_map_iff.mp hwire
  refine ⟨seen, ?_, hlines⟩
  exact (hseen.map Prod.fst).trans ((List.sublist_append_left _ _).trans hqueued)

theorem Streams.line_of_mem (h : c.Streams iface) {r : CStr} (hr : r ∈ records '\n' c.tx) :
    ∃ e, r = lineOf iface e := by
  have hmem := h.lines.subset (List.mem_append_right _ hr)
  obtain ⟨e, -, he⟩ := List.mem_map.mp hmem
  exact ⟨e, he.symm⟩

-- What `send` takes is a beginning of the buffer.
theorem exists_taken_append (tx : CStr) (sent : Sent) : ∃ rest, tx = taken tx sent ++ rest := by
  cases sent with
  | took more => exact ⟨tx.drop (more + 1), (List.take_append_drop _ _).symm⟩
  | again => exact ⟨tx, rfl⟩
  | failed => exact ⟨tx, rfl⟩

theorem Streams.line_of_mem_taken (h : c.Streams iface) {sent : Sent} {r : CStr}
    (hr : r ∈ records '\n' (taken c.tx sent)) : ∃ e, r = lineOf iface e := by
  obtain ⟨rest, hrest⟩ := exists_taken_append c.tx sent
  apply h.line_of_mem
  rw [hrest, records_append]
  exact List.mem_append_left _ hr

-- A part of a line that is put on the wire holds the parenthesis it begins with.
theorem Streams.opened_taken (h : c.Streams iface) (sent : Sent)
    (hne : unfinished '\n' (taken c.tx sent) ≠ []) : '(' ∈ unfinished '\n' (taken c.tx sent) := by
  obtain ⟨rest, hrest⟩ := exists_taken_append c.tx sent
  have hclean := not_mem_unfinished '\n' (taken c.tx sent)
  have hwhole := h.whole
  have hrecords := records_append '\n' (taken c.tx sent) rest
  rw [hrest, unfinished_append] at hwhole
  rw [← hrest] at hrecords
  obtain ⟨r, hr, hpre⟩ := exists_record_of_unfinished hclean hne hwhole
  obtain ⟨e, rfl⟩ := h.line_of_mem (hrecords ▸ List.mem_append_right _ hr)
  obtain ⟨before, after, -, -, hline⟩ := candumpLine_shape e.1 e.2 iface
  rw [lineOf, hline] at hpre
  cases hu : unfinished '\n' (taken c.tx sent) with
  | nil => exact absurd hu hne
  | cons x xs =>
    rw [hu] at hpre
    rw [(List.cons_prefix_cons.mp hpre).1]
    exact List.mem_cons_self

theorem Streams.flush (h : c.Streams iface) (sent : Sent)
    (hresumes : unfinished '\n' c.wire = [] ∨ '\n' ∉ taken c.tx sent) :
    (c.flushTx sent).2.Streams iface := by
  obtain ⟨ok, dropped, tx, hflush, hlines⟩ := c.flushTx_spec sent
  obtain ⟨hwhole, cut, hcut⟩ := hlines h.whole
  have hsub : (records '\n' c.wire ++ (records '\n' (taken c.tx sent) ++ records '\n' tx)).Sublist
      (c.encoded.map (lineOf iface)) := by
    refine List.Sublist.trans ?_ h.lines
    rw [hcut, List.append_assoc (records '\n' (taken c.tx sent))]
    apply List.Sublist.append_left
    apply List.Sublist.append_left
    exact List.sublist_append_right cut _
  rw [hflush]
  constructor
  case whole => exact hwhole
  case lines =>
    show (records '\n' (c.wire ++ taken c.tx sent) ++ records '\n' tx).Sublist _
    rw [records_append, List.append_assoc]
    rcases hresumes with hend | hpart
    · rw [hend, List.nil_append]
      exact hsub
    · have hopen : '\n' ∉ unfinished '\n' c.wire ++ taken c.tx sent := by
        rw [List.mem_append]
        exact fun hmem => hmem.elim (not_mem_unfinished '\n' c.wire) hpart
      rw [records_of_not_mem hopen]
      rw [records_of_not_mem hpart] at hsub
      exact hsub
  case opened =>
    show unfinished '\n' (c.wire ++ taken c.tx sent) ≠ [] →
      '(' ∈ unfinished '\n' (c.wire ++ taken c.tx sent)
    rw [unfinished_append]
    by_cases hend : unfinished '\n' c.wire = []
    · rw [hend, List.nil_append]
      exact h.opened_taken sent
    · have hpart := hresumes.resolve_left hend
      have hopen : '\n' ∉ unfinished '\n' c.wire ++ taken c.tx sent := by
        rw [List.mem_append]
        exact fun hmem => hmem.elim (not_mem_unfinished '\n' c.wire) hpart
      rw [unfinished_of_not_mem hopen]
      intro _
      exact List.mem_append_left _ (h.opened hend)

-- The glued line has one parenthesis more than any line of a frame.
theorem Streams.glued (h : c.Streams iface) (sent : Sent)
    (hcut : unfinished '\n' c.wire ≠ []) (hline : '\n' ∈ taken c.tx sent) :
    ¬WholeLines iface (c.flushTx sent).2 := by
  obtain ⟨ok, dropped, tx, hflush, -⟩ := c.flushTx_spec sent
  rw [hflush]
  intro hwhole
  obtain ⟨seen, -, hseen⟩ := hwhole
  cases hfirst : records '\n' (taken c.tx sent) with
  | nil => exact records_ne_nil hline hfirst
  | cons r rs =>
    have hglued := records_unfinished_append (not_mem_unfinished '\n' c.wire) hfirst
    have hmem : unfinished '\n' c.wire ++ r ∈ records '\n' (c.wire ++ taken c.tx sent) := by
      rw [records_append, hglued]
      exact List.mem_append_right _ List.mem_cons_self
    have hr : r ∈ records '\n' (taken c.tx sent) := hfirst ▸ List.mem_cons_self
    obtain ⟨e, rfl⟩ := h.line_of_mem_taken hr
    obtain ⟨e', -, hline'⟩ := List.mem_map.mp (hseen ▸ hmem)
    have hopened := List.count_pos_iff.mpr (h.opened hcut)
    have hcount := congrArg (List.count '(') hline'
    rw [List.count_append, lineOf, lineOf, count_candumpLine, count_candumpLine] at hcount
    omega

theorem Streams.copy (h : c.Streams iface) (hiface : '\n' ∉ iface) (e : CanMessage × Timeval) :
    (c.copy (lineOf iface e) e).Streams iface := by
  rw [Client.copy]
  split_ifs with hfull
  · exact ⟨h.whole, h.lines, h.opened⟩
  · have hrecord := isRecord_candumpLine hiface e.1 e.2
    have hend := records_record_append hrecord []
    have hnone := unfinished_record_append hrecord []
    rw [List.append_nil] at hend hnone
    constructor
    case whole =>
      show unfinished '\n' (c.tx ++ lineOf iface e) = []
      rw [unfinished_append, h.whole, List.nil_append, lineOf, hnone]
      rfl
    case lines =>
      show (records '\n' c.wire ++ records '\n' (c.tx ++ lineOf iface e)).Sublist
        ((c.encoded ++ [e]).map (lineOf iface))
      rw [records_append, h.whole, List.nil_append, lineOf, hend, ← List.append_assoc,
        List.map_append]
      exact h.lines.append (List.Sublist.refl _)
    case opened => exact h.opened

theorem wholeLines_of_same {c' : Client} (hwire : c'.wire = c.wire) (hqueued : c'.queued = c.queued)
    (h : c'.WholeLines iface) : c.WholeLines iface := by
  rw [WholeLines, hwire, hqueued] at h
  exact h

theorem copy_wire (c : Client) (line : CStr) (e : CanMessage × Timeval) :
    (c.copy line e).wire = c.wire ∧ (c.copy line e).queued = c.queued := by
  rw [copy]
  split_ifs <;> exact ⟨rfl, rfl⟩

theorem resumes_of_empty {sent : Sent}
    (h : c.tx ≠ [] → unfinished '\n' c.wire = [] ∨ '\n' ∉ taken c.tx sent) :
    unfinished '\n' c.wire = [] ∨ '\n' ∉ taken c.tx sent := by
  by_cases hempty : c.tx = []
  · right
    rw [hempty, taken_nil]
    exact List.not_mem_nil
  · exact h hempty

theorem flushes_drain {msg : CanMessage} {queue : List CanMessage} {env : Env} {line : CStr}
    (hstage : c.stage = .drain) (hqueue : c.queue = msg :: queue)
    (hline : candumpEncode msg env.tv iface encodeBufSize = some line) :
    c.Flushes iface env ↔ c.tx ≠ [] ∧ kTxBufSize < c.tx.length + line.length := by
  simp only [Flushes, hstage, hqueue, hline]

theorem flushes_timed {env : Env} (hstage : c.stage = .timed) :
    c.Flushes iface env ↔ c.tx ≠ [] ∧ env.due = true := by
  simp only [Flushes, hstage]

theorem Streams.step (h : c.Streams iface) (hiface : '\n' ∉ iface) (input : Input)
    (hresumes : c.Resumes iface input) : (c.step iface input).Streams iface := by
  cases input with
  | onFrame msg =>
    show (c.onFrame msg).Streams iface
    rw [onFrame]
    split_ifs <;> exact ⟨h.whole, h.lines, h.opened⟩
  | task env =>
    show (c.task iface env).Streams iface
    cases hstage : c.stage with
    | drain =>
      cases hqueue : c.queue with
      | nil =>
        simp only [task, hstage, hqueue]
        exact ⟨h.whole, h.lines, h.opened⟩
      | cons msg queue =>
        have hpopped : Streams iface { c with queue := queue } :=
          ⟨h.whole, h.lines, h.opened⟩
        rw [task_drain hstage hqueue]
        cases hline : candumpEncode msg env.tv iface encodeBufSize with
        | none =>
          simp only [drainOne, hline]
          exact hpopped
        | some line =>
          have hflushes := flushes_drain hstage hqueue hline
          obtain ⟨rfl, -⟩ := candumpEncode_eq_some hline
          rw [drainOne_some hline]
          split_ifs with hfull hok
          · have hmay := resumes_of_empty fun hne =>
              hresumes (hflushes.mpr ⟨hne, hfull⟩)
            exact (hpopped.flush env.sent hmay).copy hiface (msg, env.tv)
          · have hmay := resumes_of_empty fun hne =>
              hresumes (hflushes.mpr ⟨hne, hfull⟩)
            have hflush := hpopped.flush env.sent hmay
            exact ⟨hflush.whole, hflush.lines, hflush.opened⟩
          · exact hpopped.copy hiface (msg, env.tv)
    | timed =>
      rw [task_timed hstage]
      split_ifs with hdue hok
      · have hmay := resumes_of_empty fun hne =>
          hresumes ((flushes_timed hstage).mpr ⟨hne, hdue⟩)
        have hflush := h.flush env.sent hmay
        exact ⟨hflush.whole, hflush.lines, hflush.opened⟩
      · have hmay := resumes_of_empty fun hne =>
          hresumes ((flushes_timed hstage).mpr ⟨hne, hdue⟩)
        have hflush := h.flush env.sent hmay
        exact ⟨hflush.whole, hflush.lines, hflush.opened⟩
      · exact ⟨h.whole, h.lines, h.opened⟩
    | read =>
      simp only [task, hstage]
      split_ifs <;> exact ⟨h.whole, h.lines, h.opened⟩
    | disconnected =>
      simp only [task, hstage]
      exact h
    | overrun =>
      simp only [task, hstage]
      exact h

theorem Streams.step_glued (h : c.Streams iface) (input : Input)
    (hresumes : ¬c.Resumes iface input) : ¬(c.step iface input).WholeLines iface := by
  cases input with
  | onFrame msg => exact absurd trivial hresumes
  | task env =>
    show ¬(c.task iface env).WholeLines iface
    simp only [Resumes, Classical.not_imp, not_or, not_not] at hresumes
    obtain ⟨hflushes, hcut, hnewline⟩ := hresumes
    cases hstage : c.stage with
    | drain =>
      cases hqueue : c.queue with
      | nil =>
        simp only [Flushes, hstage, hqueue, and_false] at hflushes
      | cons msg queue =>
        have hpopped : Streams iface { c with queue := queue } :=
          ⟨h.whole, h.lines, h.opened⟩
        have hglued := hpopped.glued env.sent hcut hnewline
        rw [task_drain hstage hqueue]
        cases hline : candumpEncode msg env.tv iface encodeBufSize with
        | none => simp only [Flushes, hstage, hqueue, hline, and_false] at hflushes
        | some line =>
          have hfull := ((flushes_drain hstage hqueue hline).mp hflushes).2
          rw [drainOne_some hline, if_pos hfull]
          intro hwhole
          apply hglued
          split_ifs at hwhole with hok
          · obtain ⟨hwire, hqueued⟩ := copy_wire
              (Client.flushTx { c with queue := queue } env.sent).2 line (msg, env.tv)
            exact wholeLines_of_same hwire hqueued hwhole
          · exact wholeLines_of_same rfl rfl hwhole
    | timed =>
      have hglued := h.glued env.sent hcut hnewline
      rw [task_timed hstage, if_pos ((flushes_timed hstage).mp hflushes).2]
      intro hwhole
      apply hglued
      split_ifs at hwhole with hok
      · exact wholeLines_of_same rfl rfl hwhole
      · exact wholeLines_of_same rfl rfl hwhole
    | read => simp only [Flushes, hstage, and_false] at hflushes
    | disconnected => simp only [Flushes, hstage, and_false] at hflushes
    | overrun => simp only [Flushes, hstage, and_false] at hflushes

theorem Queued.disconnect (h : c.Queued) : c.disconnect.Queued := by
  have hdrop : (c.encoded.map Prod.fst ++ []).Sublist (c.encoded.map Prod.fst ++ c.queue) :=
    (List.nil_sublist _).append_left _
  exact hdrop.trans h

theorem Queued.flush (h : c.Queued) (sent : Sent) : (c.flushTx sent).2.Queued := by
  obtain ⟨ok, dropped, tx, hflush, -⟩ := c.flushTx_spec sent
  rw [hflush]
  exact h

-- A frame that is taken out of the queue is the next one to be encoded.
theorem queued_copy {msg : CanMessage}
    (h : (c.encoded.map Prod.fst ++ msg :: c.queue).Sublist c.queued) (line : CStr)
    (tv : Timeval) : (c.copy line (msg, tv)).Queued := by
  rw [copy]
  split_ifs with hfull
  · have hdrop := (List.sublist_cons_self msg c.queue).append_left (c.encoded.map Prod.fst)
    exact hdrop.trans h
  · show ((c.encoded ++ [(msg, tv)]).map Prod.fst ++ c.queue).Sublist c.queued
    rw [List.map_append, List.append_assoc]
    exact h

theorem Queued.drainOne {msg : CanMessage}
    (h : (c.encoded.map Prod.fst ++ msg :: c.queue).Sublist c.queued) (env : Env) :
    (c.drainOne iface msg env).Queued := by
  have hpopped : c.Queued :=
    ((List.sublist_cons_self msg c.queue).append_left (c.encoded.map Prod.fst)).trans h
  cases hline : candumpEncode msg env.tv iface encodeBufSize with
  | none =>
    simp only [Client.drainOne, hline]
    exact hpopped
  | some line =>
    rw [drainOne_some hline]
    split_ifs with hfull hok
    · obtain ⟨ok, dropped, tx, hflush, -⟩ := c.flushTx_spec env.sent
      have hflushed : ((c.flushTx env.sent).2.encoded.map Prod.fst ++
          msg :: (c.flushTx env.sent).2.queue).Sublist (c.flushTx env.sent).2.queued := by
        rw [hflush]
        exact h
      exact queued_copy hflushed line env.tv
    · exact (hpopped.flush env.sent).disconnect
    · exact queued_copy h line env.tv

theorem Queued.step (h : c.Queued) (input : Input) : (c.step iface input).Queued := by
  cases input with
  | onFrame msg =>
    show (c.onFrame msg).Queued
    rw [onFrame]
    split_ifs with hroom
    · show (c.encoded.map Prod.fst ++ (c.queue ++ [msg])).Sublist (c.queued ++ [msg])
      rw [← List.append_assoc]
      exact List.Sublist.append_right h [msg]
    · exact h
  | task env =>
    show (c.task iface env).Queued
    cases hstage : c.stage with
    | drain =>
      cases hqueue : c.queue with
      | nil =>
        simp only [task, hstage, hqueue]
        rw [Queued, hqueue] at h
        exact h
      | cons msg queue =>
        rw [task_drain hstage hqueue]
        rw [Queued, hqueue] at h
        exact Queued.drainOne (c := { c with queue := queue }) h env
    | timed =>
      rw [task_timed hstage]
      split_ifs with hdue hok
      · exact h.flush env.sent
      · exact (h.flush env.sent).disconnect
      · exact h
    | read =>
      simp only [task, hstage]
      split_ifs
      · exact Queued.disconnect (c := { c with stage := .read }) h
      · exact h
    | disconnected =>
      simp only [task, hstage]
      exact h
    | overrun =>
      simp only [task, hstage]
      exact h

end Client

open Client

theorem wire_has_whole_lines_iff (iface : CStr) (hiface : '\n' ∉ iface) (inputs : List Input) :
    Always (step iface) (WholeLines iface) init inputs ↔
      Along (step iface) (Resumes iface) init inputs := by
  have hinv : ∀ (c : Client) (input : Input), (c.Queued ∧ (c.WholeLines iface → c.Streams iface)) →
      c.WholeLines iface →
      (c.step iface input).Queued ∧
        ((c.step iface input).WholeLines iface → (c.step iface input).Streams iface) := by
    intro c input hi hwhole
    obtain ⟨hqueued, hstreams⟩ := hi
    refine ⟨hqueued.step input, ?_⟩
    intro hnext
    apply (hstreams hwhole).step hiface input
    by_contra hnot
    exact (hstreams hwhole).step_glued input hnot hnext
  apply always_iff_along hinv
  · intro c input hi hwhole
    obtain ⟨hqueued, hstreams⟩ := hi
    constructor
    · intro hnext
      by_contra hnot
      exact (hstreams hwhole).step_glued input hnot hnext
    · intro hresumes
      exact ((hstreams hwhole).step hiface input hresumes).wholeLines (hqueued.step input)
  · exact ⟨List.Sublist.refl _, fun _ => ⟨rfl, List.Sublist.refl _, fun h => absurd rfl h⟩⟩
  · exact ⟨[], List.Sublist.refl _, rfl⟩

def sends (sent : Sent) : Input :=
  .task ⟨⟨1700000000, 0⟩, true, sent, false⟩

-- A frame is encoded and flushed.
def oneFrame (sent : Sent) : List Input :=
  [.onFrame (busMessage 1), sends sent, sends sent, sends sent, sends sent]

theorem wire_has_whole_lines_oneFrame :
    Always (step (lit "can0")) (WholeLines (lit "can0")) init (oneFrame (.took 100)) ∧
      (run (step (lit "can0")) init (oneFrame (.took 100))).wire =
        lit "(1700000000.000000) can0 09F10203#FF\n" := by
  refine ⟨?_, by decide +kernel⟩
  apply (wire_has_whole_lines_iff (lit "can0") (by decide) (oneFrame (.took 100))).mpr
  have hresumes : ∀ (c : Client) (input : Input), unfinished '\n' c.wire = [] →
      c.Resumes (lit "can0") input := by
    intro c input hend
    cases input with
    | onFrame msg => trivial
    | task env => exact fun _ => .inl hend
  exact ⟨hresumes _ _ rfl, hresumes _ _ rfl, hresumes _ _ rfl, hresumes _ _ rfl,
    hresumes _ _ (by decide +kernel), trivial⟩

-- The socket takes five bytes of a line, and then a whole one.
theorem wire_glues_lines :
    ¬∀ inputs : List Input,
      Always (step (lit "can0")) (WholeLines (lit "can0")) init inputs := by
  intro h
  obtain ⟨seen, -, hseen⟩ := (h (oneFrame (.took 4) ++ oneFrame (.took 100))).last
  have hwire : records '\n' (run (step (lit "can0")) init
      (oneFrame (.took 4) ++ oneFrame (.took 100))).wire =
      [lit "(1700(1700000000.000000) can0 09F10203#FF\n"] := by
    decide +kernel
  rw [hwire] at hseen
  cases seen with
  | nil => cases hseen
  | cons e seen =>
    have hcount := congrArg (List.count '(') (List.cons.inj hseen).1
    rw [lineOf, count_candumpLine] at hcount
    revert hcount
    decide

end Espos.N2k
