import Mathlib.Data.List.DropRight
import Espos.Log.Answers

-- The log page of the web UI (`logs.tsx`), which goes on where its last answer ended.

namespace Espos.Log

open Espos.Run Espos.Wrapped

inductive Entry where
  | line (text : Bytes)
  | missed (count : Int)

structure LogsPage where
  lines : List Entry
  nextRef : UInt32

namespace LogsPage

variable (p : LogsPage)

-- The `after` that a fetch asks with.
def after (reset : Bool) : UInt32 :=
  if reset then 0 else p.nextRef - 1

def notice (reset : Bool) (d : Answer) : List Entry :=
  if d.gap && !reset then [.missed (d.fromSeq.toNat - p.nextRef.toNat)] else []

-- `fetchMore`, once the answer is there.
def fetchMore (reset : Bool) (d : Answer) : LogsPage where
  lines :=
    (if reset then d.lines.map .line
      else if d.lines.isEmpty then p.lines
      else (p.lines ++ d.lines.map Entry.line).rtake 3000) ++ p.notice reset d
  nextRef := d.next

end LogsPage

-- The device and the page. `log` is all that was logged, `told` all that the page was
-- given since it was opened, and `base` the number of lines before that.
structure Client where
  ring : State
  page : LogsPage
  log : List Line
  base : Nat
  told : List Entry

-- Before the first fetch.
def Client.unopened (ring : State) (log : List Line) : Client :=
  ⟨ring, ⟨[], 0⟩, log, 0, []⟩

-- The page makes one fetch at a time; `logged` is what others log before each of the
-- pages of its answer, and after them. With `reset` the page is opened.
inductive Event where
  | log (line : Line)
  | fetchMore (reset : Bool) (logged : List (List Line))

def Event.newLines : Event → List Line
  | .log line => [line]
  | .fetchMore _ logged => logged.flatten

section Steps

variable (c : Config) (f : Client)

def follow : Event → Option Client
  | .log line =>
    (push c line f.ring).map fun ring => { f with ring := ring, log := f.log ++ [line] }
  | .fetchMore reset logged =>
    (logsGet c (f.page.after reset) 1000 logged f.ring).bind fun r =>
      (pushAll c r.2.1.flatten r.2.2).map fun ring =>
        { ring := ring
          page := f.page.fetchMore reset r.1
          log := f.log ++ logged.flatten
          base := if reset then r.1.fromSeq.toNat - 1 else f.base
          told :=
            (if reset then [] else f.told) ++ r.1.lines.map .line ++ f.page.notice reset r.1 }

def step (client : Option Client) (e : Event) : Option Client :=
  client.bind fun f => follow c f e

-- Nothing gives way that is still to be read for an answer.
def Event.joins : Event → Bool
  | .log _ => true
  | .fetchMore reset logged =>
    Log.joins c limitMax limitMax (startAfter f.ring (f.page.after reset)) logged f.ring

-- The lines up to the `next` of an answer that begins now.
def toGive (reset : Bool) : Nat :=
  (f.ring.next - (startAfter f.ring (f.page.after reset) + 1)).toNat

-- An answer has room for the lines up to its `next` and, unless that makes it full,
-- nothing is logged until a page of it finds no more.
def Event.endsAtNext : Event → Bool
  | .log _ => true
  | .fetchMore reset logged =>
    decide (toGive f reset ≤ limitMax) && (decide (toGive f reset = limitMax) ||
      (logged.take ((toGive f reset + 15) / pageLines + 1)).flatten.isEmpty)

end Steps

def noticeOf (missed : Nat) : List Entry :=
  if missed = 0 then [] else [.missed missed]

-- What was told is all of the log: each line once and in order, and of those that had
-- given way how many they were.
inductive Accounts : List Entry → List Bytes → Prop
  | nil : Accounts [] []
  | fetch {told : List Entry} {log missed given : List Bytes} (h : Accounts told log) :
      Accounts (told ++ given.map .line ++ noticeOf missed.length) (log ++ missed ++ given)

-- The page shows the latest of an account of the log up to its `nextRef`.
structure Client.Shows (c : Config) (f : Client) : Prop where
  whole : Accounts f.told (((texts c f.log).take (f.page.nextRef.toNat - 1)).drop f.base)
  latest : f.page.lines <:+ f.told
  enough : min 3000 f.told.length ≤ f.page.lines.length

def Entry.count : Entry → Int
  | .line _ => 1
  | .missed count => count

def countOf : List Entry → Int
  | [] => 0
  | e :: told => e.count + countOf told

theorem countOf_append (told more : List Entry) :
    countOf (told ++ more) = countOf told + countOf more := by
  induction told with
  | nil => exact (Int.zero_add _).symm
  | cons e told ih => rw [List.cons_append, countOf, ih, countOf, Int.add_assoc]

theorem countOf_lines (given : List Bytes) : countOf (given.map .line) = given.length := by
  induction given with
  | nil => rfl
  | cons text given ih =>
    rw [List.map_cons, countOf, ih, Entry.count, List.length_cons]
    omega

theorem countOf_notice (missed : Nat) : countOf (noticeOf missed) = missed := by
  rw [noticeOf]
  split_ifs with hnone
  · rw [hnone]
    rfl
  · exact Int.add_zero _

theorem Accounts.count {told : List Entry} {log : List Bytes} (h : Accounts told log) :
    countOf told = log.length := by
  induction h with
  | nil => rfl
  | fetch h ih =>
    rw [countOf_append, countOf_append, countOf_lines, countOf_notice, ih, List.length_append,
      List.length_append]
    omega

variable {c : Config} {f : Client} {lines : List Line} {pos : Nat}

theorem texts_append (lines more : List Line) :
    texts c (lines ++ more) = texts c lines ++ texts c more :=
  List.map_append

theorem length_texts (lines : List Line) : (texts c lines).length = lines.length :=
  List.length_map _

theorem next_eq {s : State} (h : Holds c lines s) : s.next = UInt32.ofNat (1 + lines.length) := by
  obtain ⟨gone, held, htexts, -, w⟩ := h
  rw [w.next_eq, Nat.add_assoc, ← List.length_append, ← htexts, List.length_map]

theorem texts_numbered (seq : UInt32) (xs : List Bytes) : (numbered seq xs).map Prod.snd = xs := by
  induction xs generalizing seq with
  | nil => rfl
  | cons x xs ih => rw [numbered, List.map_cons, ih]

theorem toNat_succ_ofNat (h : pos < 2147483647) : (UInt32.ofNat (1 + pos)).toNat = 1 + pos := by
  rw [UInt32.toNat_ofNat']
  omega

theorem flatten_take_of_le {α : Type*} {xss : List (List α)} {m k : Nat} (h : m ≤ k)
    (hk : (xss.take k).flatten = []) : (xss.take m).flatten = [] := by
  rw [List.flatten_eq_nil_iff] at hk ⊢
  intro xs hxs
  exact hk xs (List.take_subset_take_left xss h hxs)

-- What a fetch does: the answer begins behind what the page has or with the oldest
-- line left, gives `n` lines from there, and ends at its `next` exactly on the condition.
structure Fetched (c : Config) (f : Client) (reset : Bool) (logged : List (List Line)) (pos : Nat)
    (d : Answer) (start n : Nat) (f' : Client) : Prop where
  ring : Holds c f'.log f'.ring
  page : f'.page = f.page.fetchMore reset d
  log : f'.log = f.log ++ logged.flatten
  base : f'.base = if reset then start else f.base
  told : f'.told =
    (if reset then [] else f.told) ++ d.lines.map .line ++ f.page.notice reset d
  behind : pos ≤ start
  le : start ≤ f.log.length
  next : d.next = UInt32.ofNat (1 + f.log.length)
  fromSeq : d.fromSeq = UInt32.ofNat (1 + start)
  gap : d.gap = decide (pos < start)
  lines : d.lines = ((texts c f'.log).drop start).take n
  short : start + n ≤ f'.log.length
  ends : n = f.log.length - start ↔ (Event.fetchMore reset logged).endsAtNext f = true

-- All that there was at the beginning was given, and no more.
theorem Paged.ends_iff {reset : Bool} {logged : List (List Line)} {k n start : Nat} {s' : State}
    (h : Paged c f.log f.ring limitMax limitMax start logged k n s')
    (hstart : start ≤ f.log.length) (hgive : toGive f reset = f.log.length - start) :
    n = f.log.length - start ↔ (Event.fetchMore reset logged).endsAtNext f = true := by
  have hcount := h.count
  have hended := h.ended
  rw [Event.endsAtNext, hgive, Bool.and_eq_true, decide_eq_true_iff, Bool.or_eq_true,
    decide_eq_true_iff, List.isEmpty_iff, pageLines]
  rw [limitMax] at hcount hended ⊢
  constructor
  · intro hall
    refine ⟨by omega, ?_⟩
    by_cases hfull : f.log.length - start = 1000
    · exact .inl hfull
    · have hnone : (logged.take k).flatten = [] := List.length_eq_zero_iff.mp (by omega)
      have hless := hended (by omega)
      rw [← hall]
      exact .inr (flatten_take_of_le hless hnone)
  · rintro ⟨hroom, hfull | hnone⟩
    · omega
    · rw [h.quiet (.inr hnone), List.length_nil] at hcount
      omega

theorem follow_fetchMore {reset : Bool} {logged : List (List Line)}
    (hring : Holds c f.log f.ring) (hafter : f.page.after reset = UInt32.ofNat pos)
    (hpos : pos ≤ f.log.length) (hlines : f.log.length + logged.flatten.length < 2147483647)
    (hjoins : (Event.fetchMore reset logged).joins c f = true) :
    ∃ d start n f', follow c f (.fetchMore reset logged) = some f' ∧
      Fetched c f reset logged pos d start n f' := by
  have htotal : total logged = logged.flatten.length := List.length_flatten.symm
  obtain ⟨-, hgone, -⟩ := hring.window (by omega)
  have hgap := isGap_iff hring (by omega) hpos
  have hstart := startAfter_eq hring (by omega) hpos
  generalize hp : max pos (goneOf f.ring) = start at hstart
  rw [Event.joins, hafter, hstart] at hjoins
  obtain ⟨k, n, s', hpaged⟩ := pages_of_joins hring le_rfl (by omega) (by omega) hjoins
  have hn := hpaged.count
  have hlogged : (logged.take k).flatten ++ (logged.drop k).flatten = logged.flatten := by
    rw [← List.flatten_append, List.take_append_drop]
  have hlength : (logged.take k).flatten.length + (logged.drop k).flatten.length =
      logged.flatten.length := by
    rw [← hlogged, List.length_append]
  obtain ⟨ring, hpush, hring'⟩ : ∃ ring, pushAll c (logged.drop k).flatten s' = some ring ∧
      Holds c (f.log ++ (logged.take k).flatten ++ (logged.drop k).flatten) ring :=
    pushAll_holds hpaged.ring
  rw [List.append_assoc, hlogged] at hring'
  obtain ⟨d, hd, hget⟩ : ∃ d,
      d = answerOf c f.ring (UInt32.ofNat pos) (numbered (UInt32.ofNat (1 + start))
        (((texts c (f.log ++ (logged.take k).flatten)).drop start).take n)) ∧
      logsGet c (f.page.after reset) 1000 logged f.ring = some (d, logged.drop k, s') := by
    refine ⟨_, rfl, ?_⟩
    rw [hafter, logsGet, show limitOf 1000 = limitMax from rfl, hstart, hpaged.run]
    rfl
  have hfrom : startAfter f.ring (UInt32.ofNat pos) + 1 = UInt32.ofNat (1 + start) := by
    rw [hstart, ofNat_succ, Nat.add_comm]
  have hgive : toGive f reset = f.log.length - start := by
    rw [toGive, hafter, hfrom, next_eq hring, UInt32.toNat_sub, UInt32.toNat_ofNat',
      UInt32.toNat_ofNat']
    omega
  have hbase : d.fromSeq.toNat - 1 = start := by
    rw [hd, answerOf, hfrom, toNat_succ_ofNat (by omega), Nat.add_sub_cancel_left]
  have hsize : start + n ≤ (f.log ++ logged.flatten).length := by
    rw [List.length_append]
    omega
  refine ⟨d, start, n, _, by rw [follow, hget, Option.bind_some, hpush, Option.map_some],
    hring', rfl, rfl, by simp only [hbase], rfl, by omega, by omega, ?_, ?_, ?_, ?_, hsize, ?_⟩
  · rw [hd]
    exact next_eq hring
  · rw [hd]
    exact hfrom
  · rw [hd, answerOf, Bool.eq_iff_iff, hgap, decide_eq_true_iff]
    omega
  · have hshort : start + n ≤ (texts c (f.log ++ (logged.take k).flatten)).length := by
      rw [length_texts, List.length_append]
      omega
    rw [hd, answerOf, texts_numbered, ← hlogged, ← List.append_assoc,
      texts_append (f.log ++ (logged.take k).flatten), List.drop_append_of_le_length (by omega),
      List.take_append_of_le_length (by rw [List.length_drop]; omega)]
  · exact hpaged.ends_iff (by omega) hgive

-- A page that was opened, and has the first `pos` lines of the log behind it.
structure Client.Has (c : Config) (f : Client) (pos : Nat) : Prop where
  ring : Holds c f.log f.ring
  next : f.page.nextRef = UInt32.ofNat (1 + pos)
  base : f.base ≤ pos
  le : pos ≤ f.log.length
  latest : f.page.lines <:+ f.told
  enough : min 3000 f.told.length ≤ f.page.lines.length

theorem Client.Has.after_eq (h : f.Has c pos) : f.page.after false = UInt32.ofNat pos := by
  rw [LogsPage.after, if_neg Bool.false_ne_true, h.next, Nat.add_comm, ← ofNat_succ]
  exact UInt32.add_sub_cancel _ _

theorem Client.Has.shows_iff (h : f.Has c pos) (hlines : f.log.length < 2147483647) :
    f.Shows c ↔ Accounts f.told (((texts c f.log).take pos).drop f.base) := by
  have hnext : f.page.nextRef.toNat - 1 = pos := by
    rw [h.next, toNat_succ_ofNat (by have := h.le; omega), Nat.add_sub_cancel_left]
  constructor
  · intro hshows
    have hwhole := hshows.whole
    rwa [hnext] at hwhole
  · intro hwhole
    exact ⟨by rwa [hnext], h.latest, h.enough⟩

theorem notice_eq {d : Answer} {start : Nat} (hnext : f.page.nextRef = UInt32.ofNat (1 + pos))
    (hfrom : d.fromSeq = UInt32.ofNat (1 + start)) (hgap : d.gap = decide (pos < start))
    (hle : pos ≤ start) (hstart : start < 2147483647) :
    f.page.notice false d = noticeOf (start - pos) := by
  rw [LogsPage.notice, hnext, hfrom, hgap, toNat_succ_ofNat (by omega),
    toNat_succ_ofNat (by omega), Bool.not_false, Bool.and_true]
  by_cases hmissed : pos < start
  · rw [if_pos (decide_eq_true hmissed), noticeOf, if_neg (by omega)]
    congr 2
    omega
  · rw [if_neg (by simpa using hmissed), noticeOf, if_pos (by omega)]

-- Three thousand lines stay on the page, whatever comes.
theorem latest_append {shown shown' told told' given notice : List Entry} (h : shown <:+ told)
    (henough : min 3000 told.length ≤ shown.length)
    (hshown : shown' =
      (if given = [] then shown else (shown ++ given).rtake 3000) ++ notice)
    (htold : told' = told ++ given ++ notice) :
    shown' <:+ told' ∧ min 3000 told'.length ≤ shown'.length := by
  obtain ⟨early, rfl⟩ := h
  subst hshown htold
  rw [List.length_append] at henough
  split_ifs with hnone
  · subst hnone
    refine ⟨⟨early, by simp⟩, ?_⟩
    simp only [List.append_nil, List.length_append]
    omega
  · refine ⟨⟨early ++ (shown ++ given).take ((shown ++ given).length - 3000), ?_⟩, ?_⟩
    · rw [List.rtake, ← List.append_assoc, List.append_assoc early, List.take_append_drop]
      simp only [List.append_assoc]
    · simp only [List.rtake, List.length_append, List.length_drop]
      omega

theorem follow_log (h : f.Has c pos) (line : Line) :
    ∃ f', follow c f (.log line) = some f' ∧ f'.Has c pos ∧ f'.log = f.log ++ [line] ∧
      f'.told = f.told ∧ f'.base = f.base := by
  obtain ⟨ring, hpush, hring⟩ := push_holds h.ring line
  have hle : pos ≤ (f.log ++ [line]).length := by
    rw [List.length_append]
    exact h.le.trans (Nat.le_add_right _ _)
  refine ⟨{ f with ring := ring, log := f.log ++ [line] }, ?_, ?_, rfl, rfl, rfl⟩
  · rw [follow, hpush, Option.map_some]
  · exact ⟨hring, h.next, h.base, hle, h.latest, h.enough⟩

-- The text of a log in the parts that an answer takes it in.
theorem drop_take_parts {α : Type*} (xs : List α) {base pos start : Nat} (hbase : base ≤ pos)
    (hpos : pos ≤ start) (hstart : start ≤ xs.length) :
    xs.drop base =
      (xs.take pos).drop base ++ (xs.drop pos).take (start - pos) ++ xs.drop start := by
  have hskip : xs.drop start = (xs.drop pos).drop (start - pos) := by
    rw [List.drop_drop, Nat.add_sub_cancel' hpos]
  rw [hskip, List.append_assoc, List.take_append_drop]
  conv_lhs => rw [← List.take_append_drop pos xs]
  rw [List.drop_append_of_le_length (by rw [List.length_take]; omega)]

-- The account goes on exactly if the lines of an answer end where the log did.
theorem accounts_fetch_iff {told : List Entry} {log more given : List Bytes} {base start n : Nat}
    (h : Accounts told ((log.take pos).drop base)) (hbase : base ≤ pos) (hpos : pos ≤ start)
    (hstart : start ≤ log.length) (hgiven : given = ((log ++ more).drop start).take n)
    (hn : start + n ≤ (log ++ more).length) :
    Accounts (told ++ given.map .line ++ noticeOf (start - pos)) (log.drop base) ↔
      n = log.length - start := by
  have hlength : given.length = n := by
    rw [hgiven, List.length_take, List.length_drop]
    omega
  constructor
  · intro haccounts
    have hbefore := h.count
    have hafter := haccounts.count
    rw [countOf_append, countOf_append, countOf_lines, countOf_notice, hlength, hbefore,
      List.length_drop, List.length_drop, List.length_take] at hafter
    omega
  · intro hall
    have hmissed : ((log.drop pos).take (start - pos)).length = start - pos := by
      rw [List.length_take, List.length_drop]
      omega
    have hrest : given = log.drop start := by
      rw [hgiven, List.drop_append_of_le_length hstart, hall, ← List.length_drop, List.take_left]
    have haccounts : Accounts
        (told ++ given.map .line ++ noticeOf ((log.drop pos).take (start - pos)).length)
        ((log.take pos).drop base ++ (log.drop pos).take (start - pos) ++ given) := h.fetch
    rw [hmissed] at haccounts
    rwa [drop_take_parts log hbase hpos hstart, ← hrest]

-- What the page has after an answer, and when that is right.
theorem Fetched.has {reset : Bool} {logged : List (List Line)} {d : Answer} {start n : Nat}
    {f' : Client} (h : Fetched c f reset logged pos d start n f')
    (hlines : f'.log.length < 2147483647)
    (hbefore : reset = false → f.Has c pos ∧ f.Shows c) :
    f'.Has c f.log.length ∧
      (f'.Shows c ↔ (Event.fetchMore reset logged).endsAtNext f = true) := by
  have hle : f.log.length ≤ f'.log.length := by
    rw [h.log, List.length_append]
    exact Nat.le_add_right _ _
  have htake : (texts c f'.log).take f.log.length = texts c f.log := by
    rw [h.log, texts_append, ← length_texts (c := c) f.log, List.take_left]
  have hnext : f'.page.nextRef = UInt32.ofNat (1 + f.log.length) := by
    rw [h.page]
    exact h.next
  have hstart := h.le
  have hsize := length_texts (c := c) f.log
  have hgiven := h.lines
  have hshort := h.short
  rw [h.log, texts_append] at hgiven
  rw [h.log, ← length_texts (c := c), texts_append] at hshort
  cases reset with
  | true =>
    have hbase : f'.base = start := h.base
    have htold : f'.told = d.lines.map .line := by
      rw [h.told]
      simp [LogsPage.notice]
    have hpage : f'.page.lines = d.lines.map .line := by
      rw [h.page]
      simp [LogsPage.fetchMore, LogsPage.notice]
    have hsame : f'.page.lines = f'.told := by rw [hpage, htold]
    have hhas : f'.Has c f.log.length :=
      ⟨h.ring, hnext, by omega, hle, hsame ▸ List.suffix_rfl, by rw [hsame]; omega⟩
    refine ⟨hhas, ?_⟩
    have hempty : Accounts [] (((texts c f.log).take start).drop start) := by
      rw [List.drop_of_length_le (by rw [List.length_take]; omega)]
      exact .nil
    have haccounts := accounts_fetch_iff hempty le_rfl le_rfl (by omega) hgiven hshort
    rw [hhas.shows_iff hlines, htake, htold, hbase, ← h.ends, ← hsize, ← haccounts,
      Nat.sub_self, noticeOf, if_pos rfl, List.append_nil, List.nil_append]
  | false =>
    obtain ⟨hhad, hshown⟩ := hbefore rfl
    have hnotice := notice_eq hhad.next h.fromSeq h.gap h.behind (by omega)
    have hbase : f'.base = f.base := h.base
    have htold : f'.told = f.told ++ d.lines.map .line ++ noticeOf (start - pos) := by
      rw [h.told, hnotice]
      rfl
    have hpage : f'.page.lines =
        (if d.lines.map Entry.line = [] then f.page.lines
          else (f.page.lines ++ d.lines.map Entry.line).rtake 3000) ++
            noticeOf (start - pos) := by
      rw [h.page, LogsPage.fetchMore, hnotice]
      simp
    obtain ⟨hlatest, henough⟩ := latest_append hhad.latest hhad.enough hpage htold
    have hhas : f'.Has c f.log.length :=
      ⟨h.ring, hnext, by rw [hbase]; exact hhad.base.trans hhad.le, hle, hlatest, henough⟩
    refine ⟨hhas, ?_⟩
    have hwhole := (hhad.shows_iff (by omega)).mp hshown
    have haccounts :=
      accounts_fetch_iff hwhole hhad.base h.behind (by omega) hgiven hshort
    rw [hhas.shows_iff hlines, htake, htold, hbase, ← h.ends, ← hsize, ← haccounts]

theorem follow_step (h : f.Has c pos) (hshows : f.Shows c) {e : Event}
    (hlines : f.log.length + e.newLines.length < 2147483647) (hjoins : e.joins c f = true) :
    ∃ f' pos', follow c f e = some f' ∧ f'.Has c pos' ∧ f'.log = f.log ++ e.newLines ∧
      (f'.Shows c ↔ e.endsAtNext f = true) := by
  cases e with
  | log line =>
    obtain ⟨f', hfollow, hhas, hlog, htold, hbase⟩ := follow_log h line
    have hshort : f'.log.length < 2147483647 := by
      rw [hlog, List.length_append]
      exact hlines
    refine ⟨f', pos, hfollow, hhas, hlog, iff_of_true ?_ rfl⟩
    rw [hhas.shows_iff hshort, htold, hbase, hlog, texts_append,
      List.take_append_of_le_length (by rw [length_texts]; exact h.le)]
    exact (h.shows_iff (by omega)).mp hshows
  | fetchMore reset logged =>
    rw [Event.newLines] at hlines
    have hafter : ∃ p, f.page.after reset = UInt32.ofNat p ∧ p ≤ f.log.length ∧
        (reset = false → p = pos) := by
      cases reset with
      | true => exact ⟨0, rfl, Nat.zero_le _, by simp⟩
      | false => exact ⟨pos, h.after_eq, h.le, fun _ => rfl⟩
    obtain ⟨p, hafter, hp, hpos⟩ := hafter
    obtain ⟨d, start, n, f', hfollow, hfetched⟩ :=
      follow_fetchMore h.ring hafter hp hlines hjoins
    have hshort : f'.log.length < 2147483647 := by
      rw [hfetched.log, List.length_append]
      exact hlines
    obtain ⟨hhas, hiff⟩ := hfetched.has hshort fun hreset => hpos hreset ▸ ⟨h, hshows⟩
    exact ⟨f', _, hfollow, hhas, hfetched.log, hiff⟩

section Runs

variable (c) (client : Option Client)

def Joins (e : Event) : Prop :=
  ∀ f ∈ client, e.joins c f = true

def EndsAtNext (e : Event) : Prop :=
  ∀ f ∈ client, e.endsAtNext f = true

def Shown : Prop :=
  ∃ f, client = some f ∧ f.Shows c

end Runs

theorem shown_some : Shown c (some f) ↔ f.Shows c := by
  simp [Shown]

theorem shown_cons_iff {f' : Client} {e : Event} {events : List Event}
    (hfollow : follow c f e = some f') (hshows : f.Shows c)
    (hiff : f'.Shows c ↔ e.endsAtNext f = true)
    (hjoins : Along (step c) (Joins c) (some f) (e :: events))
    (hlater : f'.Shows c → Along (step c) (Joins c) (some f') events →
      (Always (step c) (Shown c) (some f') events ↔
        Along (step c) EndsAtNext (some f') events)) :
    Always (step c) (Shown c) (some f) (e :: events) ↔
      Along (step c) EndsAtNext (some f) (e :: events) := by
  have hstep : step c (some f) e = some f' := hfollow
  have hrest := hjoins.2
  rw [hstep] at hrest
  simp only [Always, Along, hstep]
  constructor
  · rintro ⟨-, hall⟩
    have hshows' : f'.Shows c := shown_some.mp hall.head
    refine ⟨fun g hg => ?_, (hlater hshows' hrest).mp hall⟩
    obtain rfl := Option.some.inj hg
    exact hiff.mp hshows'
  · rintro ⟨hhere, hall⟩
    exact ⟨shown_some.mpr hshows, (hlater (hiff.mpr (hhere f rfl)) hrest).mpr hall⟩

theorem shown_run_iff {events : List Event} (h : f.Has c pos) (hshows : f.Shows c)
    (hlines : f.log.length + (events.flatMap Event.newLines).length < 2147483647)
    (hjoins : Along (step c) (Joins c) (some f) events) :
    Always (step c) (Shown c) (some f) events ↔
      Along (step c) EndsAtNext (some f) events := by
  induction events generalizing f pos with
  | nil => exact iff_of_true (shown_some.mpr hshows) trivial
  | cons e events ih =>
    rw [List.flatMap_cons, List.length_append] at hlines
    obtain ⟨f', pos', hfollow, h', hlog, hiff⟩ :=
      follow_step h hshows (by omega) (hjoins.1 f rfl)
    refine shown_cons_iff hfollow hshows hiff hjoins fun hshows' hrest =>
      ih h' hshows' ?_ hrest
    rw [hlog, List.length_append]
    omega

theorem shows_unopened (ring : State) (lines : List Line) : (Client.unopened ring lines).Shows c :=
  ⟨.nil, List.suffix_rfl, Nat.min_le_right _ _⟩

instance (c : Config) (client : Option Client) (e : Event) : Decidable (Joins c client e) :=
  inferInstanceAs (Decidable (∀ f ∈ client, _))

instance (client : Option Client) (e : Event) : Decidable (EndsAtNext client e) :=
  inferInstanceAs (Decidable (∀ f ∈ client, _))

-- Twenty-six lines come and six of them give way, the page is opened anew and a line
-- is logged while an answer is made, behind its last page.
def pageOpen : List Event :=
  (letters 26 0x62).map .log ++
    [.fetchMore false [], .fetchMore true [], .log ⟨[0x63], []⟩,
      .fetchMore false [[], [], letters 1 0x64]]

-- Before its last page: the line is given, and given again by the next answer.
def givenTwice : List Event :=
  [.log ⟨[0x63], []⟩, .fetchMore false [[], letters 1 0x64], .fetchMore false []]

end Espos.Log
