import Espos.Lib.Run
import Espos.Log.Ring

-- `/api/v1/logs`: the lines of the ring in pages, between which others log.

namespace Espos.Log

open Espos.Run Espos.Wrapped

def pageLines : Nat := 16

def limitMax : Nat := 1000

section Answers

variable (c : Config)

-- One page, as `collect` keeps it.
def page (s : State) (after : UInt32) (want : Nat) : List Visit :=
  logRead c s after (min want pageLines) fun visited => decide (visited.length < pageLines)

-- The loop of `logs_get`. The ring is locked while a page is read; `logged` is what
-- the others log before each of them, and what is left of it is logged later. There
-- are no more pages than lines wanted.
def pages : Nat → Nat → UInt32 → List (List Line) → State →
    Option (List Visit × List (List Line) × State)
  | 0, _, _, logged, s => some ([], logged, s)
  | rounds + 1, want, after, logged, s =>
    if want = 0 then some ([], logged, s)
    else
      (pushAll c (logged.headD []) s).bind fun s =>
        let visits := page c s after want
        match visits.getLast? with
        | none => some ([], logged.tail, s)
        | some last =>
          (pages rounds (want - visits.length) last.1 logged.tail s).map fun rest =>
            (visits ++ rest.1, rest.2)

structure Answer where
  first : UInt32
  next : UInt32
  dropped : UInt32
  size : Nat
  used : Nat
  gap : Bool
  fromSeq : UInt32
  lines : List Bytes

-- Older than what is still there.
def isGap (s : State) (after : UInt32) : Bool :=
  (after + 1 - s.first).toInt32 < 0

def startAfter (s : State) (after : UInt32) : UInt32 :=
  if isGap s after then s.first - 1 else after

def limitOf (limit : UInt32) : Nat :=
  if limit = 0 ∨ 1000 < limit then limitMax else limit.toNat

def answerOf (s : State) (after : UInt32) (visits : List Visit) : Answer where
  first := s.first
  next := s.next
  dropped := s.dropped
  size := c.ringSize
  used := s.used
  gap := isGap s after
  fromSeq := startAfter s after + 1
  lines := visits.map Prod.snd

def logsGet (after limit : UInt32) (logged : List (List Line)) (s : State) :
    Option (Answer × List (List Line) × State) :=
  (pages c (limitOf limit) (limitOf limit) (startAfter s after) logged s).map fun r =>
    (answerOf c s after r.1, r.2)

-- No line gives way that is still to be read for the answer.
def joins : Nat → Nat → UInt32 → List (List Line) → State → Bool
  | 0, _, _, _, _ => true
  | rounds + 1, want, after, logged, s =>
    if want = 0 then true
    else
      match pushAll c (logged.headD []) s with
      | none => true
      | some s =>
        decide (s.first ≤ after + 1) &&
          match (page c s after want).getLast? with
          | none => true
          | some last =>
            joins rounds (want - (page c s after want).length) last.1 logged.tail s

end Answers

variable {c : Config} {s : State} {lines : List Line} {pos want : Nat}

-- A page holds the next lines

theorem upTo_take {limit : Nat} {cb : List Visit → Bool} {visited rest : List Visit}
    (hcb : ∀ v : List Visit, v.length < limit → cb v = true) (hlt : visited.length < limit) :
    upTo limit cb visited rest = visited ++ rest.take (limit - visited.length) := by
  induction rest generalizing visited with
  | nil => simp [upTo]
  | cons visit rest ih =>
    have hlen : (visited ++ [visit]).length = visited.length + 1 := List.length_append
    have hone : limit - visited.length = limit - (visited ++ [visit]).length + 1 := by omega
    rw [upTo, hone, List.take_succ_cons]
    by_cases hmore : (visited ++ [visit]).length < limit
    · rw [if_neg, ih hmore, List.append_assoc, List.singleton_append]
      simp only [hcb _ hmore, reduceCtorEq, false_or, not_and]
      omega
    · rw [if_pos (Or.inr ⟨by omega, by omega⟩), Nat.sub_eq_zero_of_le (by omega), List.take_zero]

theorem numbered_append (k : Nat) (xs ys : List Bytes) :
    numbered (UInt32.ofNat k) (xs ++ ys) =
      numbered (UInt32.ofNat k) xs ++ numbered (UInt32.ofNat (k + xs.length)) ys := by
  induction xs generalizing k with
  | nil => rfl
  | cons x xs ih =>
    rw [List.cons_append, numbered, numbered, ofNat_succ, ih, List.length_cons, List.cons_append,
      Nat.add_right_comm, Nat.add_assoc]

theorem take_numbered (seq : UInt32) (n : Nat) (xs : List Bytes) :
    (numbered seq xs).take n = numbered seq (xs.take n) := by
  induction xs generalizing seq n with
  | nil => simp [numbered]
  | cons x xs ih =>
    cases n with
    | zero => rfl
    | succ n => rw [numbered, List.take_succ_cons, ih, List.take_succ_cons, numbered]

theorem isAfter_ofNat {n : Nat} (hpos : pos < 2147483648) (hn : n < 2147483648) :
    isAfter (UInt32.ofNat pos) (UInt32.ofNat n) = decide (pos < n) := by
  rw [isAfter, UInt32.toNat_ofNat', UInt32.toNat_ofNat', Bool.eq_iff_iff]
  simp only [Bool.and_eq_true, decide_eq_true_eq]
  omega

theorem wanted_eq {gone : Nat} {held : List Bytes} (hpos : pos < 2147483648)
    (hheld : gone + held.length < 2147483648) :
    wanted (UInt32.ofNat pos) (UInt32.ofNat (1 + gone)) held =
      numbered (UInt32.ofNat (1 + max pos gone)) (held.drop (max pos gone - gone)) := by
  induction held generalizing gone with
  | nil => simp [wanted, numbered]
  | cons text held ih =>
    rw [List.length_cons] at hheld
    have hrest : (numbered (UInt32.ofNat (1 + (gone + 1))) held).filter
          (fun visit => isAfter (UInt32.ofNat pos) visit.1) =
        numbered (UInt32.ofNat (1 + max pos (gone + 1)))
          (held.drop (max pos (gone + 1) - (gone + 1))) := ih (by omega)
    rw [wanted, numbered, ofNat_succ, Nat.add_assoc, List.filter_cons,
      isAfter_ofNat hpos (by omega), hrest]
    by_cases hbehind : pos < 1 + gone
    · have h₁ : max pos gone = gone := by omega
      have h₂ : max pos (gone + 1) = gone + 1 := by omega
      rw [if_pos (decide_eq_true hbehind), h₁, h₂, Nat.sub_self, Nat.sub_self, List.drop_zero,
        List.drop_zero, numbered, ofNat_succ, Nat.add_assoc]
    · have h₁ : max pos gone = pos := by omega
      have h₂ : max pos (gone + 1) = pos := by omega
      have h₃ : pos - gone = pos - (gone + 1) + 1 := by omega
      rw [if_neg (by simpa using hbehind), h₁, h₂, h₃, List.drop_succ_cons]

-- The number of lines that have given way.
def goneOf (s : State) : Nat :=
  s.first.toNat - 1

def texts (c : Config) (lines : List Line) : List Bytes :=
  lines.map (storedLine c)

-- As long as no number comes twice, the state tells what has given way.
theorem Holds.window (h : Holds c lines s) (hlines : lines.length < 2147483647) :
    Window c s (goneOf s) ((texts c lines).drop (goneOf s)) ∧ goneOf s ≤ lines.length ∧
      (0 < lines.length → goneOf s < lines.length) := by
  obtain ⟨gone, held, htexts, hnewest, w⟩ := h
  have hlen : lines.length = gone.length + held.length := by
    rw [← List.length_append, ← htexts, List.length_map]
  have hgone : goneOf s = gone.length := by
    rw [goneOf, w.first_eq, UInt32.toNat_ofNat']
    omega
  rw [hgone, texts, htexts, List.drop_left]
  refine ⟨w, by omega, fun hpos => ?_⟩
  have hsome : held ≠ [] := fun hnone => by
    rw [hnewest hnone] at hpos
    exact absurd hpos (Nat.lt_irrefl 0)
  have := List.length_pos_of_ne_nil hsome
  omega

theorem page_eq (h : Holds c lines s) (hlines : lines.length < 2147483647)
    (hpos : pos ≤ lines.length) (hwant : 0 < want) :
    page c s (UInt32.ofNat pos) want =
      numbered (UInt32.ofNat (1 + max pos (goneOf s)))
        (((texts c lines).drop (max pos (goneOf s))).take (min want pageLines)) := by
  obtain ⟨w, hgone, -⟩ := h.window hlines
  have hheld : ((texts c lines).drop (goneOf s)).length = lines.length - goneOf s := by
    rw [List.length_drop, texts, List.length_map]
  have hcb : ∀ v : List Visit, v.length < min want pageLines →
      decide (v.length < pageLines) = true := fun v hv => decide_eq_true (by omega)
  rw [page, w.logRead_eq (by omega), upTo_take hcb (by rw [pageLines, List.length_nil]; omega),
    w.first_eq, wanted_eq (by omega) (by omega), List.drop_drop,
    Nat.add_sub_cancel' (Nat.le_max_right _ _), List.nil_append, List.length_nil, Nat.sub_zero,
    take_numbered]

-- The numbers of `n` lines behind the first `pos`.
def numbersFrom (pos n : Nat) : List UInt32 :=
  (List.range' (1 + pos) n).map UInt32.ofNat

theorem numbers_numbered (pos : Nat) (xs : List Bytes) :
    (numbered (UInt32.ofNat (1 + pos)) xs).map Prod.fst = numbersFrom pos xs.length := by
  induction xs generalizing pos with
  | nil => rfl
  | cons x xs ih =>
    rw [numbered, ofNat_succ, Nat.add_assoc, List.map_cons, ih, List.length_cons, numbersFrom,
      numbersFrom, List.range'_succ, List.map_cons, Nat.add_assoc]

theorem length_numbered (seq : UInt32) (xs : List Bytes) :
    (numbered seq xs).length = xs.length := by
  induction xs generalizing seq with
  | nil => rfl
  | cons x xs ih => rw [numbered, List.length_cons, ih, List.length_cons]

theorem getLast?_numbered (pos : Nat) (xs : List Bytes) :
    ((numbered (UInt32.ofNat (1 + pos)) xs).getLast?.map Prod.fst) =
      if xs = [] then none else some (UInt32.ofNat (pos + xs.length)) := by
  rw [← List.getLast?_map, numbers_numbered, numbersFrom, List.getLast?_map, List.getLast?_range']
  cases xs with
  | nil => rfl
  | cons x xs =>
    simp only [List.length_cons, Nat.add_one_ne_zero, if_false, reduceCtorEq, Option.map_some]
    congr 2
    omega

theorem first_le_iff (h : Holds c lines s) (hlines : lines.length < 2147483647)
    (hpos : pos ≤ lines.length) : s.first ≤ UInt32.ofNat pos + 1 ↔ goneOf s ≤ pos := by
  obtain ⟨w, hgone, -⟩ := h.window hlines
  rw [w.first_eq, ofNat_succ, UInt32.le_iff_toNat_le, UInt32.toNat_ofNat', UInt32.toNat_ofNat']
  omega

def total (logged : List (List Line)) : Nat :=
  (logged.map List.length).sum

theorem total_tail (logged : List (List Line)) :
    (logged.headD []).length + total logged.tail = total logged := by
  cases logged <;> simp [total]

-- What a round reads, and how the next one goes on behind it.
theorem pages_step {logged : List (List Line)} (h : Holds c lines s) (rounds : Nat)
    (hwant : 0 < want) (hlines : lines.length + total logged < 2147483647)
    (hpos : pos ≤ lines.length) :
    ∃ s' start read, Holds c (lines ++ logged.headD []) s' ∧ start = max pos (goneOf s') ∧
      read = ((texts c (lines ++ logged.headD [])).drop start).take (min want pageLines) ∧
      read.length = min (min want 16) ((lines ++ logged.headD []).length - start) ∧
      lines.length ≤ (lines ++ logged.headD []).length ∧
      (lines ++ logged.headD []).length + total logged.tail = lines.length + total logged ∧
      pages c (rounds + 1) want (UInt32.ofNat pos) logged s =
        (if read = [] then some ([], logged.tail, s')
          else (pages c rounds (want - read.length) (UInt32.ofNat (start + read.length))
            logged.tail s').map fun rest =>
              (numbered (UInt32.ofNat (1 + start)) read ++ rest.1, rest.2)) ∧
      joins c (rounds + 1) want (UInt32.ofNat pos) logged s =
        (decide (goneOf s' ≤ pos) && (decide (read = []) ||
          joins c rounds (want - read.length) (UInt32.ofNat (start + read.length))
            logged.tail s')) := by
  obtain ⟨s', hpush, h'⟩ : ∃ s', pushAll c (logged.headD []) s = some s' ∧
      Holds c (lines ++ logged.headD []) s' := pushAll_holds h
  have htotal := total_tail logged
  have hnow : (lines ++ logged.headD []).length = lines.length + (logged.headD []).length :=
    List.length_append
  have hpage : page c s' (UInt32.ofNat pos) want = _ := page_eq h' (by omega) (by omega) hwant
  refine ⟨s', _, _, h', rfl, rfl, ?_, by omega, by omega, ?_⟩
  · rw [List.length_take, List.length_drop, texts, List.length_map, pageLines]
  generalize max pos (goneOf s') = start at hpage ⊢
  generalize ((texts c (lines ++ logged.headD [])).drop start).take (min want pageLines) = read
    at hpage ⊢
  have hlast := getLast?_numbered start read
  have hfirst : decide (s'.first ≤ UInt32.ofNat pos + 1) = decide (goneOf s' ≤ pos) :=
    decide_eq_decide.mpr (first_le_iff h' (by omega) (by omega))
  have hsome : want ≠ 0 := by omega
  rw [pages, joins, if_neg hsome, if_neg hsome, hpush, Option.bind_some]
  simp only [hpage, hfirst, length_numbered]
  generalize numbered (UInt32.ofNat (1 + start)) read = visits at hlast ⊢
  by_cases hnone : read = []
  · rw [if_pos hnone, Option.map_eq_none_iff] at hlast
    simp only [hlast, hnone, if_true, decide_true, Bool.true_or, Bool.and_true, and_self]
  · rw [if_neg hnone, Option.map_eq_some_iff] at hlast
    obtain ⟨last, hlast, hnumber⟩ := hlast
    simp only [hlast, hnone, hnumber, if_false, decide_false, Bool.false_or, and_self]

-- What is read first is a part of what is there in the end.
theorem take_of_read {read : List Bytes} {start m : Nat} {now more : List Line}
    (hread : read = ((texts c now).drop start).take m) (hstart : start ≤ now.length) :
    ((texts c (now ++ more)).drop start).take read.length = read := by
  have hshort : start ≤ (texts c now).length := by rwa [texts, List.length_map]
  have hlength : read.length ≤ ((texts c now).drop start).length := by
    rw [hread]
    exact (List.take_sublist m _).length_le
  rw [texts, List.map_append, ← texts, ← texts, List.drop_append_of_le_length hshort,
    List.take_append_of_le_length hlength]
  conv_rhs => rw [hread]
  rw [hread, List.length_take, ← List.take_eq_take_min]

theorem flatten_take_succ {α : Type*} (xss : List (List α)) (k : Nat) :
    (xss.take (k + 1)).flatten = xss.headD [] ++ (xss.tail.take k).flatten := by
  cases xss <;> simp

-- The pages are the first `n` lines behind `pos`, one after the other, and all that are
-- wanted of those that there were in the end, after `k` turns of the others. There is a
-- page for each sixteen of them and, unless enough was read, one that found no more.
structure Paged (c : Config) (lines : List Line) (s : State) (rounds want pos : Nat)
    (logged : List (List Line)) (k n : Nat) (s' : State) : Prop where
  ring : Holds c (lines ++ (logged.take k).flatten) s'
  run : pages c rounds want (UInt32.ofNat pos) logged s =
    some (numbered (UInt32.ofNat (1 + pos))
      (((texts c (lines ++ (logged.take k).flatten)).drop pos).take n), logged.drop k, s')
  count : n = min want (lines.length + (logged.take k).flatten.length - pos)
  ended : n < want → (n + 15) / 16 + 1 ≤ k
  quiet : want = 0 ∨ (logged.take ((lines.length - pos + 15) / 16 + 1)).flatten = [] →
    (logged.take k).flatten = []

theorem paged_zero {rounds : Nat} {logged : List (List Line)} (h : Holds c lines s) :
    Paged c lines s rounds 0 pos logged 0 0 s where
  ring := by simpa using h
  run := by cases rounds <;> rfl
  count := by omega
  ended := by omega
  quiet := fun _ => rfl

theorem paged_last {rounds : Nat} {logged : List (List Line)} {s' : State}
    (h' : Holds c (lines ++ logged.headD []) s') (hwant : want ≠ 0)
    (hend : (lines ++ logged.headD []).length ≤ pos)
    (hpages : pages c (rounds + 1) want (UInt32.ofNat pos) logged s =
      some ([], logged.tail, s')) :
    Paged c lines s (rounds + 1) want pos logged 1 0 s' := by
  have hone : (logged.take 1).flatten = logged.headD [] := by
    rw [flatten_take_succ, List.take_zero, List.flatten_nil, List.append_nil]
  rw [List.length_append] at hend
  refine ⟨by rwa [hone], ?_, by rw [hone]; omega, fun _ => by omega, ?_⟩
  · rw [hpages, List.take_zero, numbered, List.drop_one]
  · rintro (hzero | hquiet)
    · exact absurd hzero hwant
    · rw [flatten_take_succ, List.append_eq_nil_iff] at hquiet
      rw [hone]
      exact hquiet.1

theorem Paged.more {rounds k n : Nat} {logged : List (List Line)} {s' s'' : State}
    {read : List Bytes} (hsome : 0 < read.length) (hlength : read.length =
      min (min want 16) ((lines ++ logged.headD []).length - pos))
    (hread : read = ((texts c (lines ++ logged.headD [])).drop pos).take (min want pageLines))
    (hpages : pages c (rounds + 1) want (UInt32.ofNat pos) logged s =
      (pages c rounds (want - read.length) (UInt32.ofNat (pos + read.length)) logged.tail
        s').map fun rest => (numbered (UInt32.ofNat (1 + pos)) read ++ rest.1, rest.2))
    (h : Paged c (lines ++ logged.headD []) s' rounds (want - read.length) (pos + read.length)
      logged.tail k n s'') :
    Paged c lines s (rounds + 1) want pos logged (k + 1) (read.length + n) s'' := by
  have hmore : lines ++ logged.headD [] ++ (logged.tail.take k).flatten =
      lines ++ (logged.take (k + 1)).flatten := by
    rw [flatten_take_succ, List.append_assoc]
  have hlonger : (logged.take (k + 1)).flatten.length =
      (logged.headD []).length + (logged.tail.take k).flatten.length := by
    rw [flatten_take_succ, List.length_append]
  have hcount := h.count
  have hring := h.ring
  rw [hmore] at hring
  rw [List.length_append] at hlength hcount
  refine ⟨hring, ?_, by omega, fun hless => ?_, ?_⟩
  · have hstart : pos ≤ (lines ++ logged.headD []).length := by
      rw [List.length_append]
      omega
    rw [hpages, h.run, Option.map_some, ← hmore, List.take_add, take_of_read hread hstart,
      numbered_append, List.drop_drop, Nat.add_assoc 1, List.drop_tail]
  · have := h.ended (by omega)
    omega
  · rintro (hzero | hquiet)
    · omega
    · rw [flatten_take_succ, List.append_eq_nil_iff] at hquiet
      obtain ⟨hhead, htail⟩ := hquiet
      rw [flatten_take_succ, hhead, List.nil_append]
      apply h.quiet
      by_cases hlast : want - read.length = 0
      · exact .inl hlast
      · rw [hhead, List.length_nil] at hlength
        have hsame : (lines.length - (pos + read.length) + 15) / 16 + 1 =
            (lines.length - pos + 15) / 16 := by omega
        rw [hhead, List.append_nil, hsame]
        exact .inr htail

-- As long as nothing gives way that is still to be read.
theorem pages_of_joins {rounds : Nat} {logged : List (List Line)} (h : Holds c lines s)
    (hrounds : want ≤ rounds) (hlines : lines.length + total logged < 2147483647)
    (hpos : pos ≤ lines.length) (hjoins : joins c rounds want (UInt32.ofNat pos) logged s = true) :
    ∃ k n s', Paged c lines s rounds want pos logged k n s' := by
  induction rounds generalizing want pos logged s lines with
  | zero =>
    obtain rfl : want = 0 := by omega
    exact ⟨0, 0, s, paged_zero h⟩
  | succ rounds ih =>
    by_cases hwant : want = 0
    · subst hwant
      exact ⟨0, 0, s, paged_zero h⟩
    obtain ⟨s', start, read, h', hstart, hread, hlength, hlonger, htotal, hpages, hrest⟩ :=
      pages_step h rounds (Nat.pos_of_ne_zero hwant) hlines hpos
    rw [hrest, Bool.and_eq_true, decide_eq_true_eq, Bool.or_eq_true, decide_eq_true_eq] at hjoins
    obtain ⟨hjoin, hlater⟩ := hjoins
    obtain rfl : start = pos := by omega
    by_cases hnone : read = []
    · rw [if_pos hnone] at hpages
      rw [hnone, List.length_nil] at hlength
      exact ⟨1, 0, s', paged_last h' hwant (by omega) hpages⟩
    · have hsome := List.length_pos_of_ne_nil hnone
      rw [if_neg hnone] at hpages
      obtain ⟨k, n, s'', hpaged⟩ :=
        ih h' (by omega) (by omega) (by omega) (hlater.resolve_left hnone)
      exact ⟨k + 1, read.length + n, s'', hpaged.more hsome hlength hread hpages⟩

theorem numbersFrom_add (pos m n : Nat) :
    numbersFrom pos (m + n) = numbersFrom pos m ++ numbersFrom (pos + m) n := by
  rw [numbersFrom, numbersFrom, numbersFrom, ← List.map_append, ← Nat.add_assoc,
    List.range'_append_1]

theorem head?_numbersFrom {n : Nat} (hn : 0 < n) :
    (numbersFrom pos n).head? = some (UInt32.ofNat (1 + pos)) := by
  cases n with
  | zero => exact absurd hn (Nat.lt_irrefl 0)
  | succ n => rfl

-- Where one does, the numbers are not those of the lines behind `pos`.
theorem pages_of_not_joins {rounds : Nat} {logged : List (List Line)} (h : Holds c lines s)
    (hrounds : want ≤ rounds) (hlines : lines.length + total logged < 2147483647)
    (hpos : pos ≤ lines.length)
    (hjoins : ¬joins c rounds want (UInt32.ofNat pos) logged s = true) :
    ∃ visits left, pages c rounds want (UInt32.ofNat pos) logged s = some (visits, left) ∧
      visits.map Prod.fst ≠ numbersFrom pos visits.length := by
  induction rounds generalizing want pos logged s lines with
  | zero => exact absurd rfl hjoins
  | succ rounds ih =>
    by_cases hwant : want = 0
    · rw [joins, if_pos hwant] at hjoins
      exact absurd rfl hjoins
    obtain ⟨s', start, read, h', hstart, -, hlength, hlonger, htotal, hpages, hrest⟩ :=
      pages_step h rounds (Nat.pos_of_ne_zero hwant) hlines hpos
    rw [hrest, Bool.and_eq_true, decide_eq_true_eq, Bool.or_eq_true, decide_eq_true_eq] at hjoins
    obtain ⟨-, hgone, hnewest⟩ := h'.window (by omega)
    by_cases hjoin : goneOf s' ≤ pos
    · obtain rfl : start = pos := by omega
      have hnone : read ≠ [] := fun hnone => hjoins ⟨hjoin, .inl hnone⟩
      have hsome := List.length_pos_of_ne_nil hnone
      obtain ⟨rest, left, hrun, hnumbers⟩ := ih h' (by omega) (by omega) (by omega)
        fun hlater => hjoins ⟨hjoin, .inr hlater⟩
      refine ⟨numbered (UInt32.ofNat (1 + start)) read ++ rest, left, ?_, fun heq => hnumbers ?_⟩
      · rw [hpages, if_neg hnone, hrun]
        rfl
      · rw [List.map_append, numbers_numbered, List.length_append, length_numbered,
          numbersFrom_add] at heq
        exact List.append_cancel_left heq
    · have hsome : 0 < read.length := by
        have := hnewest (by omega)
        omega
      have hnone : read ≠ [] := List.ne_nil_of_length_pos hsome
      obtain ⟨rest, left, hrun⟩ : ∃ rest left, pages c rounds (want - read.length)
          (UInt32.ofNat (start + read.length)) logged.tail s' = some (rest, left) := by
        by_cases hlater : joins c rounds (want - read.length)
            (UInt32.ofNat (start + read.length)) logged.tail s' = true
        · obtain ⟨k, n, s'', -, hrun, -⟩ :=
            pages_of_joins h' (by omega) (by omega) (by omega) hlater
          exact ⟨_, _, hrun⟩
        · obtain ⟨rest, left, hrun, -⟩ := ih h' (by omega) (by omega) (by omega) hlater
          exact ⟨rest, left, hrun⟩
      refine ⟨numbered (UInt32.ofNat (1 + start)) read ++ rest, left, ?_, fun heq => ?_⟩
      · rw [hpages, if_neg hnone, hrun]
        rfl
      · rw [List.map_append, numbers_numbered, List.length_append, length_numbered] at heq
        have hhead := congrArg List.head? heq
        rw [List.head?_append, head?_numbersFrom hsome, head?_numbersFrom (by omega),
          Option.some_or, Option.some.injEq, ← UInt32.toNat_inj, UInt32.toNat_ofNat',
          UInt32.toNat_ofNat'] at hhead
        omega

theorem isGap_iff (h : Holds c lines s) (hlines : lines.length < 2147483647)
    (hpos : pos ≤ lines.length) : isGap s (UInt32.ofNat pos) = true ↔ pos < goneOf s := by
  obtain ⟨w, hgone, -⟩ := h.window hlines
  have hfirst : s.first.toNat = 1 + goneOf s := by
    conv_lhs => rw [w.first_eq]
    rw [UInt32.toNat_ofNat']
    omega
  have hahead : (UInt32.ofNat pos + 1 - s.first).toNat =
      (pos + 1 + 2 ^ 32 - (1 + goneOf s)) % 2 ^ 32 := by
    rw [ofNat_succ, UInt32.toNat_sub, hfirst, UInt32.toNat_ofNat']
    omega
  have hsigned : (UInt32.ofNat pos + 1 - s.first).toInt32.toInt =
      if 2 * (UInt32.ofNat pos + 1 - s.first).toNat < 2 ^ 32 then
        ((UInt32.ofNat pos + 1 - s.first).toNat : Int)
      else (UInt32.ofNat pos + 1 - s.first).toNat - 2 ^ 32 := by
    rw [← Int32.toInt_toBitVec, UInt32.toBitVec_toInt32, BitVec.toInt_eq_toNat_cond]
    rfl
  rw [isGap, decide_eq_true_eq, Int32.lt_iff_toInt_lt, Int32.toInt_zero, hsigned, hahead]
  split_ifs <;> omega

-- An answer starts behind what the client has, or with the oldest line that is left.
theorem startAfter_eq (h : Holds c lines s) (hlines : lines.length < 2147483647)
    (hpos : pos ≤ lines.length) :
    startAfter s (UInt32.ofNat pos) = UInt32.ofNat (max pos (goneOf s)) := by
  have hgap := isGap_iff h hlines hpos
  rw [startAfter]
  split_ifs with hmissed
  · rw [Nat.max_eq_right (Nat.le_of_lt (hgap.mp hmissed)), (h.window hlines).1.first_eq,
      Nat.add_comm, ← ofNat_succ]
    exact UInt32.add_sub_cancel _ _
  · rw [Nat.max_eq_left (by rw [hgap] at hmissed; omega)]

theorem numbersFrom_eq (pos n : Nat) :
    numbersFrom pos n = (List.range n).map fun i => UInt32.ofNat pos + 1 + UInt32.ofNat i := by
  rw [numbersFrom, List.range'_eq_map_range, List.map_map]
  refine List.map_congr_left fun i _ => ?_
  rw [Function.comp_apply, UInt32.ofNat_add, ofNat_succ, Nat.add_comm pos]

-- `lines[i]` of an answer has the number `from + i` exactly when no line gives way,
-- while the answer is made, that is still to be read for it.
theorem logs_numbered_iff (c : Config) (buf : Memory UInt8) {lines : List Line}
    {logged : List (List Line)} {pos : Nat} (limit : UInt32) (hpos : pos ≤ lines.length)
    (hlines : lines.length + total logged < 2147483647) :
    ∃ s answer visits left, pushAll c lines (init buf) = some s ∧
      logsGet c (UInt32.ofNat pos) limit logged s = some (answer, left) ∧
      pages c (limitOf limit) (limitOf limit) (answer.fromSeq - 1) logged s = some (visits, left) ∧
      answer.lines = visits.map Prod.snd ∧
      (visits.map Prod.fst =
          (List.range answer.lines.length).map (fun i => answer.fromSeq + UInt32.ofNat i) ↔
        joins c (limitOf limit) (limitOf limit) (answer.fromSeq - 1) logged s = true) := by
  obtain ⟨s, hrun, h⟩ := pushAll_init c buf lines
  obtain ⟨-, hgone, -⟩ := h.window (by omega)
  have hstart := startAfter_eq h (by omega) hpos
  generalize hp : max pos (goneOf s) = start at hstart
  have hsome : ∃ visits left, pages c (limitOf limit) (limitOf limit) (UInt32.ofNat start)
        logged s = some (visits, left) ∧
      (visits.map Prod.fst = numbersFrom start visits.length ↔
        joins c (limitOf limit) (limitOf limit) (UInt32.ofNat start) logged s = true) := by
    by_cases hjoins :
        joins c (limitOf limit) (limitOf limit) (UInt32.ofNat start) logged s = true
    · obtain ⟨k, n, s', hpaged⟩ := pages_of_joins h le_rfl hlines (by omega) hjoins
      refine ⟨_, _, hpaged.run, ?_⟩
      rw [numbers_numbered, length_numbered]
      exact iff_of_true rfl hjoins
    · obtain ⟨visits, left, hpages, hnumbers⟩ :=
        pages_of_not_joins h le_rfl hlines (by omega) hjoins
      exact ⟨visits, left, hpages, iff_of_false hnumbers hjoins⟩
  obtain ⟨visits, left, hpages, hiff⟩ := hsome
  have hfrom : (answerOf c s (UInt32.ofNat pos) visits).fromSeq - 1 = UInt32.ofNat start := by
    rw [answerOf, hstart]
    exact UInt32.add_sub_cancel _ _
  refine ⟨s, answerOf c s (UInt32.ofNat pos) visits, visits, left, hrun, ?_, ?_, rfl, ?_⟩
  · rw [logsGet, hstart, hpages]
    rfl
  · rw [hfrom, hpages]
  · rw [hfrom, ← hiff, numbersFrom_eq, answerOf, hstart, List.length_map]

-- A ring for twenty lines of one letter.
def twenty : Config where
  ringSize := 60
  lineMax := 8
  wallclock := false
  ringSize_le := by decide
  lineMax_le := by decide
  fits := by decide

def letters (n : Nat) (letter : UInt8) : List Line :=
  List.replicate n ⟨[letter], []⟩

-- Sixteen lines are on the first page. Ten more may come before the second one, and
-- twenty are too many.
theorem one_answer_numbered :
    (∃ s answer visits left, pushAll twenty (letters 20 0x61) (init fun _ => 0) = some s ∧
      logsGet twenty (UInt32.ofNat 0) 1000 [[], letters 10 0x62] s = some (answer, left) ∧
      pages twenty (limitOf 1000) (limitOf 1000) (answer.fromSeq - 1) [[], letters 10 0x62] s =
        some (visits, left) ∧
      visits.map Prod.fst =
        (List.range answer.lines.length).map fun i => answer.fromSeq + UInt32.ofNat i) ∧
    ∃ s answer visits left, pushAll twenty (letters 20 0x61) (init fun _ => 0) = some s ∧
      logsGet twenty (UInt32.ofNat 0) 1000 [[], letters 20 0x62] s = some (answer, left) ∧
      pages twenty (limitOf 1000) (limitOf 1000) (answer.fromSeq - 1) [[], letters 20 0x62] s =
        some (visits, left) ∧
      visits.map Prod.fst ≠
        (List.range answer.lines.length).map fun i => answer.fromSeq + UInt32.ofNat i := by
  constructor
  · obtain ⟨s, answer, visits, left, hrun, hget, hpages, -, hiff⟩ :=
      logs_numbered_iff twenty (fun _ => 0) 1000 (Nat.zero_le (letters 20 0x61).length)
        (by decide : (letters 20 0x61).length + total [[], letters 10 0x62] < 2147483647)
    have hjoins : ∀ s ∈ pushAll twenty (letters 20 0x61) (init fun _ => 0),
        ∀ r ∈ logsGet twenty (UInt32.ofNat 0) 1000 [[], letters 10 0x62] s,
          joins twenty (limitOf 1000) (limitOf 1000) (r.1.fromSeq - 1) [[], letters 10 0x62] s =
            true := by
      decide +kernel
    have hjoin := hjoins s (Option.mem_def.mpr hrun) _ (Option.mem_def.mpr hget)
    exact ⟨s, answer, visits, left, hrun, hget, hpages, hiff.mpr hjoin⟩
  · obtain ⟨s, answer, visits, left, hrun, hget, hpages, -, hiff⟩ :=
      logs_numbered_iff twenty (fun _ => 0) 1000 (Nat.zero_le (letters 20 0x61).length)
        (by decide : (letters 20 0x61).length + total [[], letters 20 0x62] < 2147483647)
    have hjoins : ∀ s ∈ pushAll twenty (letters 20 0x61) (init fun _ => 0),
        ∀ r ∈ logsGet twenty (UInt32.ofNat 0) 1000 [[], letters 20 0x62] s,
          ¬ joins twenty (limitOf 1000) (limitOf 1000) (r.1.fromSeq - 1) [[], letters 20 0x62] s =
            true := by
      decide +kernel
    have hjoin := hjoins s (Option.mem_def.mpr hrun) _ (Option.mem_def.mpr hget)
    exact ⟨s, answer, visits, left, hrun, hget, hpages, fun heq => hjoin (hiff.mp heq)⟩

end Espos.Log
