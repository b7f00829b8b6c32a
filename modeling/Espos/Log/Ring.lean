import Espos.Lib.Wrapped
import Mathlib.Algebra.BigOperators.Group.List.Basic

-- The ring of `espos_log.c`: records of a length and a text, the oldest of which give way.

namespace Espos.Log

open Espos.Wrapped

abbrev Bytes := List UInt8

-- The build options, with what their Kconfig ranges allow at most.
structure Config where
  ringSize : Nat
  lineMax : Nat
  wallclock : Bool
  ringSize_le : ringSize ≤ 262144
  lineMax_le : lineMax ≤ 1024
  fits : lineMax + 2 ≤ ringSize

-- `s`, as far as the ring is concerned. What `buf` holds at first is whatever was there.
structure State where
  buf : Memory UInt8
  head : Nat
  tail : Nat
  used : Nat
  first : UInt32
  next : UInt32
  dropped : UInt32
  dirty : Bool

-- `espos_log_init`
def init (buf : Memory UInt8) : State where
  buf := buf
  head := 0
  tail := 0
  used := 0
  first := 1
  next := 1
  dropped := 0
  dirty := false

-- A line, and what the wall clock says where the firmware has one.
structure Line where
  text : Bytes
  iso : Bytes

def isDigit (c : UInt8) : Bool :=
  0x30 ≤ c && c ≤ 0x39

-- The clock is put in front of the parenthesis that ends the number.
def addWallclock (iso : Bytes) (cap : Nat) (text : Bytes) : Bytes :=
  if text.length < 5 ∨ text[1]? ≠ some 0x20 ∨ text[2]? ≠ some 0x28 then text
  else
    let close := 3 + ((text.drop 3).takeWhile isDigit).length
    if close = 3 ∨ text[close]? ≠ some 0x29 then text
    else if iso.length = 0 ∨ cap < text.length + 1 + iso.length then text
    else text.take close ++ 0x7C :: (iso ++ text.drop close)

-- The two bytes of a `uint16_t`.
def lenBytes (len : Nat) : Bytes :=
  [UInt8.ofNat len, UInt8.ofNat (len / 256)]

section Ring

variable (c : Config)

def recLenAt (buf : Memory UInt8) (off : Nat) : Nat :=
  match read c.ringSize buf off 2 with
  | [lo, hi] => lo.toNat + 256 * hi.toNat
  | _ => 0

def popOldest (s : State) : State :=
  let len := recLenAt c s.buf s.head
  { s with
    head := (s.head + 2 + len) % c.ringSize
    used := s.used - (2 + len)
    first := s.first + 1
    dropped := s.dropped + 1 }

-- The loop that makes room for a record, as long as it has rounds left.
def makeRoom (need : Nat) : Nat → State → Option State
  | 0, _ => none
  | rounds + 1, s =>
    if c.ringSize - s.used < need then makeRoom need rounds (popOldest c s) else some s

-- What is stored of a line.
def storedLine (line : Line) : Bytes :=
  let stamped :=
    if c.wallclock ∧ line.text.length < c.lineMax then
      addWallclock line.iso (c.lineMax + 32) line.text
    else line.text
  stamped.take c.lineMax

-- The record goes to the tail. The text may start at the other end of the ring.
def store (text : Bytes) (s : State) : State :=
  let need := 2 + text.length
  { s with
    buf := write c.ringSize ((s.tail + 2) % c.ringSize) text
      (write c.ringSize s.tail (lenBytes text.length) s.buf)
    tail := (s.tail + need) % c.ringSize
    used := s.used + need
    next := s.next + 1
    dirty := true }

-- There are no more rounds than bytes in use.
def push (line : Line) (s : State) : Option State :=
  let text := storedLine c line
  (makeRoom c (2 + text.length) (s.used + 1) s).map (store c text)

def pushAll : List Line → State → Option State
  | [], s => some s
  | line :: lines, s => (push c line s).bind (pushAll lines)

-- `(int32_t)(seq - after) > 0`
def isBehind (seq after : UInt32) : Bool :=
  0 < (seq - after).toInt32

-- What the callback is called with.
abbrev Visit := UInt32 × Bytes

-- The loop of `espos_log_read`. The callback tells of all visits so far whether it wants more.
def visitFrom (s : State) (after : UInt32) (limit : Nat) (cb : List Visit → Bool) :
    Nat → UInt32 → Nat → List Visit → List Visit
  | 0, _, _, visited => visited
  | rounds + 1, seq, off, visited =>
    if seq < s.next then
      let len := recLenAt c s.buf off
      let text := (off + 2) % c.ringSize
      if isBehind seq after then
        let visited := visited ++ [(seq, read c.ringSize s.buf text len)]
        if cb visited = false ∨ limit ≠ 0 ∧ limit ≤ visited.length then visited
        else visitFrom s after limit cb rounds (seq + 1) ((text + len) % c.ringSize) visited
      else visitFrom s after limit cb rounds (seq + 1) ((text + len) % c.ringSize) visited
    else visited

-- `espos_log_read`: the loop has as many rounds as there are numbers below `next`.
def logRead (s : State) (after : UInt32) (limit : Nat) (cb : List Visit → Bool) : List Visit :=
  visitFrom c s after limit cb s.next.toNat s.first s.head []

def record (text : Bytes) : Bytes :=
  lenBytes text.length ++ text

-- What the ring holds of the log after `gone` lines have given way.
structure Window (s : State) (gone : Nat) (held : List Bytes) : Prop where
  head_lt : s.head < c.ringSize
  tail_eq : s.tail = (s.head + s.used) % c.ringSize
  used_le : s.used ≤ c.ringSize
  used_eq : s.used = (held.map fun text => 2 + text.length).sum
  read_eq : read c.ringSize s.buf s.head s.used = held.flatMap record
  short : ∀ text ∈ held, text.length ≤ c.lineMax
  first_eq : s.first = UInt32.ofNat (1 + gone)
  next_eq : s.next = UInt32.ofNat (1 + gone + held.length)
  dropped_eq : s.dropped = UInt32.ofNat gone

theorem length_lenBytes (len : Nat) : (lenBytes len).length = 2 := rfl

theorem length_record (text : Bytes) : (record text).length = 2 + text.length := by
  rw [record, List.length_append, length_lenBytes]

theorem recLenAt_eq {buf : Memory UInt8} {off len : Nat} (hlen : len ≤ c.lineMax)
    (h : read c.ringSize buf off 2 = lenBytes len) : recLenAt c buf off = len := by
  have hmax := c.lineMax_le
  unfold recLenAt
  rw [h]
  simp only [lenBytes, UInt8.toNat_ofNat']
  omega

-- A record that is read from a place: its length, its text, and what is behind it.
theorem read_record {buf : Memory UInt8} {off n : Nat} {text rest : Bytes}
    (hoff : off < c.ringSize) (hn : n ≤ c.ringSize) (hshort : text.length ≤ c.lineMax)
    (h : read c.ringSize buf off n = record text ++ rest) :
    recLenAt c buf off = text.length ∧
      read c.ringSize buf ((off + 2) % c.ringSize) text.length = text ∧
      read c.ringSize buf ((off + 2 + text.length) % c.ringSize) rest.length = rest := by
  have hfits := c.fits
  obtain ⟨hfirst, hrest⟩ := read_append hoff hn h
  rw [length_record] at hrest
  obtain ⟨hlen, htext⟩ :=
    read_append hoff (by rw [length_record]; omega) (hfirst.trans rfl)
  exact ⟨recLenAt_eq c hshort hlen, htext, by rwa [Nat.add_assoc]⟩

theorem length_storedLine (line : Line) : (storedLine c line).length ≤ c.lineMax := by
  unfold storedLine
  rw [List.length_take]
  omega

variable {c} {s : State} {gone : Nat} {text : Bytes} {held : List Bytes}

theorem window_init (buf : Memory UInt8) : Window c (init buf) 0 [] where
  head_lt := by have := c.fits; unfold init; dsimp only; omega
  tail_eq := rfl
  used_le := Nat.zero_le _
  used_eq := rfl
  read_eq := List.eq_nil_of_length_eq_zero length_read
  short := by simp
  first_eq := rfl
  next_eq := rfl
  dropped_eq := rfl

theorem ofNat_succ (n : Nat) : UInt32.ofNat n + 1 = UInt32.ofNat (n + 1) := by
  rw [UInt32.ofNat_add]
  rfl

theorem Window.popOldest (w : Window c s gone (text :: held)) :
    Window c (popOldest c s) (gone + 1) held := by
  have hused := w.used_eq
  have hread := w.read_eq
  rw [List.map_cons, List.sum_cons] at hused
  rw [List.flatMap_cons] at hread
  obtain ⟨hlen, -, hrest⟩ :=
    read_record c w.head_lt w.used_le (w.short _ List.mem_cons_self) hread
  have hbytes : (held.flatMap record).length = s.used - (2 + text.length) := by
    have := congrArg List.length hread
    rw [length_read, List.length_append, length_record] at this
    omega
  have hle := w.used_le
  constructor
  case head_lt => exact Nat.mod_lt _ (by have := w.head_lt; omega)
  case tail_eq =>
    simp only [Log.popOldest, hlen]
    rw [Nat.mod_add_mod, w.tail_eq]
    congr 1
    omega
  case used_le => simp only [Log.popOldest, hlen]; omega
  case used_eq => simp only [Log.popOldest, hlen]; omega
  case read_eq => simp only [Log.popOldest, hlen]; rw [← hbytes]; exact hrest
  case short => exact fun t ht => w.short t (List.mem_cons_of_mem _ ht)
  case first_eq =>
    simp only [Log.popOldest]
    rw [w.first_eq, ofNat_succ, Nat.add_assoc]
  case next_eq =>
    simp only [Log.popOldest]
    rw [w.next_eq, List.length_cons]
    congr 1
    omega
  case dropped_eq =>
    simp only [Log.popOldest]
    rw [w.dropped_eq, ofNat_succ]

-- Enough of the oldest lines give way, and there are rounds enough for it.
theorem Window.makeRoom {need : Nat} (hneed : need ≤ c.ringSize) {rounds : Nat} :
    ∀ {s gone held}, Window c s gone held → s.used < rounds →
      ∃ s' given kept, makeRoom c need rounds s = some s' ∧ held = given ++ kept ∧
        Window c s' (gone + given.length) kept ∧ s'.used + need ≤ c.ringSize := by
  induction rounds with
  | zero => intro s gone held w h; omega
  | succ rounds ih =>
    intro s gone held w h
    have hle := w.used_le
    unfold Log.makeRoom
    by_cases hfull : c.ringSize - s.used < need
    · rw [if_pos hfull]
      cases held with
      | nil =>
        have hnone := w.used_eq
        rw [List.map_nil, List.sum_nil] at hnone
        omega
      | cons text held =>
        have w' := w.popOldest
        have hless : (Log.popOldest c s).used < s.used := by
          have h₁ := w.used_eq
          have h₂ := w'.used_eq
          rw [List.map_cons, List.sum_cons] at h₁
          omega
        obtain ⟨s', given, kept, hs', rfl, hw, hroom⟩ := ih w' (by omega)
        refine ⟨s', text :: given, kept, hs', rfl, ?_, hroom⟩
        rwa [List.length_cons, Nat.add_comm given.length, ← Nat.add_assoc]
    · rw [if_neg hfull]
      exact ⟨s, [], held, rfl, rfl, w, by omega⟩

-- A line is stored behind what is held, and nothing of that is written over.
theorem Window.store (w : Window c s gone held) (hroom : s.used + (2 + text.length) ≤ c.ringSize)
    (hshort : text.length ≤ c.lineMax) :
    Window c (store c text s) gone (held ++ [text]) := by
  have hhead := w.head_lt
  have hbehind : ∀ n, (s.tail + n) % c.ringSize = (s.head + (s.used + n)) % c.ringSize := by
    intro n
    rw [w.tail_eq, Nat.mod_add_mod, Nat.add_assoc]
  constructor
  case head_lt => exact hhead
  case tail_eq => exact hbehind _
  case used_le => exact hroom
  case used_eq =>
    rw [List.map_append, List.sum_append, ← w.used_eq]
    rfl
  case read_eq =>
    have hlen : read c.ringSize (write c.ringSize s.tail (lenBytes text.length) s.buf) s.head
        (s.used + 2) = read c.ringSize s.buf s.head s.used ++ lenBytes text.length := by
      rw [w.tail_eq]
      exact read_write_add hhead (by rw [length_lenBytes]; omega)
    simp only [Log.store]
    rw [hbehind, ← Nat.add_assoc s.used, read_write_add hhead (by omega), hlen, w.read_eq,
      List.flatMap_append, List.flatMap_singleton, List.append_assoc]
    rfl
  case short =>
    intro t ht
    cases List.mem_append.1 ht with
    | inl h => exact w.short t h
    | inr h => rwa [List.mem_singleton.1 h]
  case first_eq => exact w.first_eq
  case next_eq =>
    simp only [Log.store]
    rw [w.next_eq, ofNat_succ, List.length_append, List.length_singleton, Nat.add_assoc]
  case dropped_eq => exact w.dropped_eq

-- The lines pushed so far are those that are gone and those that are held, the newest of
-- them held.
def Holds (c : Config) (lines : List Line) (s : State) : Prop :=
  ∃ gone held, lines.map (storedLine c) = gone ++ held ∧ (held = [] → lines = []) ∧
    Window c s gone.length held

theorem push_holds {lines : List Line} (h : Holds c lines s) (line : Line) :
    ∃ s', push c line s = some s' ∧ Holds c (lines ++ [line]) s' := by
  obtain ⟨gone, held, hlines, -, w⟩ := h
  have hshort := length_storedLine c line
  have hfits := c.fits
  have hneed : 2 + (storedLine c line).length ≤ c.ringSize := by omega
  obtain ⟨s', given, kept, hroom, rfl, w', hfree⟩ := w.makeRoom hneed (Nat.lt_succ_self s.used)
  refine ⟨store c (storedLine c line) s', ?_, gone ++ given, kept ++ [storedLine c line], ?_,
    fun hnone => absurd hnone (by simp), ?_⟩
  · simp only [push, ← Nat.succ_eq_add_one, hroom, Option.map_some]
  · rw [List.map_append, hlines, List.map_singleton]
    simp only [List.append_assoc]
  · rw [List.length_append]
    exact w'.store hfree hshort

theorem pushAll_holds {lines : List Line} :
    ∀ {past s}, Holds c past s →
      ∃ s', pushAll c lines s = some s' ∧ Holds c (past ++ lines) s' := by
  induction lines with
  | nil =>
    intro past s h
    exact ⟨s, rfl, by rwa [List.append_nil]⟩
  | cons line lines ih =>
    intro past s h
    obtain ⟨s₁, hpush, h₁⟩ := push_holds h line
    obtain ⟨s₂, hrun, h₂⟩ := ih h₁
    refine ⟨s₂, ?_, ?_⟩
    · unfold pushAll
      rw [hpush]
      exact hrun
    · rwa [List.append_assoc, List.singleton_append] at h₂

-- The held lines under their numbers.
def numbered : UInt32 → List Bytes → List Visit
  | _, [] => []
  | seq, text :: held => (seq, text) :: numbered (seq + 1) held

-- A number comes after another by less than half of all numbers.
def isAfter (after seq : UInt32) : Bool :=
  let ahead := (seq.toNat + 2 ^ 32 - after.toNat) % 2 ^ 32
  0 < ahead && ahead < 2 ^ 31

-- A reader that wants no more, or has got its limit, gets nothing behind that.
def upTo (limit : Nat) (cb : List Visit → Bool) : List Visit → List Visit → List Visit
  | visited, [] => visited
  | visited, visit :: rest =>
    let visited := visited ++ [visit]
    if cb visited = false ∨ limit ≠ 0 ∧ limit ≤ visited.length then visited
    else upTo limit cb visited rest

-- The held lines with a number after `after`, the first of them under `first`.
def wanted (after first : UInt32) (held : List Bytes) : List Visit :=
  (numbered first held).filter fun visit => isAfter after visit.1

theorem isBehind_eq (seq after : UInt32) : isBehind seq after = isAfter after seq := by
  have hahead : (seq - after).toNat = (seq.toNat + 2 ^ 32 - after.toNat) % 2 ^ 32 := by
    have ha := after.toNat_lt
    rw [UInt32.toNat_sub]
    congr 1
    omega
  have hsigned : (seq - after).toInt32.toInt =
      if 2 * (seq - after).toNat < 2 ^ 32 then ((seq - after).toNat : Int)
      else (seq - after).toNat - 2 ^ 32 := by
    rw [← Int32.toInt_toBitVec, UInt32.toBitVec_toInt32, BitVec.toInt_eq_toNat_cond]
    rfl
  unfold isBehind isAfter
  simp only [Int32.lt_iff_toInt_lt, Int32.toInt_zero, hsigned, ← hahead]
  rw [Bool.eq_iff_iff, Bool.and_eq_true, decide_eq_true_iff, decide_eq_true_iff,
    decide_eq_true_iff]
  have hlt := (seq - after).toNat_lt
  by_cases hhalf : 2 * (seq - after).toNat < 2 ^ 32
  · rw [if_pos hhalf]
    omega
  · rw [if_neg hhalf]
    omega

variable {after : UInt32} {limit : Nat} {cb : List Visit → Bool}

-- With a reader that always wants more only the limit counts.
theorem upTo_all {rest : List Visit} :
    ∀ {visited : List Visit}, limit = 0 ∨ visited.length < limit →
      upTo limit (fun _ => true) visited rest =
        visited ++ if limit = 0 then rest else rest.take (limit - visited.length) := by
  induction rest with
  | nil =>
    intro visited _
    unfold upTo
    rw [List.take_nil, ite_self, List.append_nil]
  | cons visit rest ih =>
    intro visited h
    have hlen : (visited ++ [visit]).length = visited.length + 1 := List.length_append
    unfold upTo
    dsimp only
    by_cases hstop : limit ≠ 0 ∧ limit ≤ (visited ++ [visit]).length
    · have hone : limit - visited.length = 1 := by omega
      rw [if_pos (Or.inr hstop), if_neg hstop.1, hone]
      rfl
    · rw [if_neg (by simpa using hstop), ih (by omega)]
      by_cases hlimit : limit = 0
      · rw [if_pos hlimit, if_pos hlimit, List.append_assoc, List.singleton_append]
      · have hmore : limit - visited.length = limit - (visited ++ [visit]).length + 1 := by
          omega
        rw [if_neg hlimit, if_neg hlimit, hmore, List.take_succ_cons, List.append_assoc,
          List.singleton_append]

-- The loop over records that lie one behind the other, their numbers below `next`.
theorem visitFrom_eq {rounds : Nat} :
    ∀ {held seq off n visited}, off < c.ringSize → n ≤ c.ringSize →
      read c.ringSize s.buf off n = held.flatMap record →
      (∀ text ∈ held, text.length ≤ c.lineMax) →
      seq.toNat + held.length = s.next.toNat → held.length ≤ rounds →
      visitFrom c s after limit cb rounds seq off visited =
        upTo limit cb visited (wanted after seq held) := by
  induction rounds with
  | zero =>
    intro held seq off n visited _ _ _ _ _ hrounds
    rw [List.eq_nil_of_length_eq_zero (Nat.le_zero.1 hrounds)]
    rfl
  | succ rounds ih =>
    intro held seq off n visited hoff hn hread hshort hnext hrounds
    unfold visitFrom
    cases held with
    | nil =>
      have hend : ¬seq < s.next := by
        rw [UInt32.lt_iff_toNat_lt, ← hnext, List.length_nil]
        omega
      rw [if_neg hend]
      rfl
    | cons text held =>
      rw [List.length_cons] at hnext hrounds
      have hbelow := s.next.toNat_lt
      have hmore : seq < s.next := by
        rw [UInt32.lt_iff_toNat_lt]
        omega
      have hseq : (seq + 1).toNat = seq.toNat + 1 := by
        rw [UInt32.toNat_add, Nat.mod_eq_of_lt]
        · rfl
        · rw [UInt32.toNat_one]
          omega
      rw [List.flatMap_cons] at hread
      obtain ⟨hlen, htext, hrest⟩ :=
        read_record c hoff hn (hshort _ List.mem_cons_self) hread
      have hshort' : ∀ t ∈ held, t.length ≤ c.lineMax :=
        fun t ht => hshort t (List.mem_cons_of_mem _ ht)
      have hsize : (held.flatMap record).length ≤ c.ringSize := by
        have := congrArg List.length hread
        rw [length_read, List.length_append] at this
        omega
      rw [if_pos hmore]
      simp only [hlen, htext, Nat.mod_add_mod, isBehind_eq, wanted, numbered,
        List.filter_cons]
      have hgo : ∀ visited, visitFrom c s after limit cb rounds (seq + 1)
          ((off + 2 + text.length) % c.ringSize) visited =
            upTo limit cb visited (wanted after (seq + 1) held) := by
        intro visited
        exact ih (Nat.mod_lt _ (by omega)) hsize hrest hshort' (by omega) (by omega)
      by_cases hafter : isAfter after seq = true
      · rw [if_pos hafter, if_pos hafter]
        unfold upTo
        dsimp only
        by_cases hstop : cb (visited ++ [(seq, text)]) = false ∨
            limit ≠ 0 ∧ limit ≤ (visited ++ [(seq, text)]).length
        · rw [if_pos hstop, if_pos hstop]
        · rw [if_neg hstop, if_neg hstop]
          exact hgo _
      · rw [if_neg hafter, if_neg hafter]
        exact hgo _

theorem Window.length_lt (w : Window c s gone held) : held.length < 2 ^ 32 := by
  have hbytes : held.length ≤ (held.map fun text => 2 + text.length).sum := by
    rw [← List.length_map fun text : Bytes => 2 + text.length]
    apply List.length_le_sum_of_one_le
    intro size hsize
    obtain ⟨text, -, rfl⟩ := List.mem_map.1 hsize
    omega
  rw [← w.used_eq] at hbytes
  have := w.used_le
  have := c.ringSize_le
  omega

-- The numbers of the held lines do not run across the end of all numbers.
theorem Window.no_wrap_iff (w : Window c s gone held) :
    held.length ≤ (gone + held.length + 1) % 2 ^ 32 ↔
      s.first.toNat + held.length = s.next.toNat := by
  have := w.length_lt
  rw [w.first_eq, w.next_eq, UInt32.toNat_ofNat', UInt32.toNat_ofNat']
  omega

theorem Window.logRead_eq (w : Window c s gone held)
    (h : held.length ≤ (gone + held.length + 1) % 2 ^ 32) :
    logRead c s after limit cb = upTo limit cb [] (wanted after s.first held) := by
  have hnext := w.no_wrap_iff.1 h
  exact visitFrom_eq w.head_lt w.used_le w.read_eq w.short hnext (by omega)

-- Where they do, a read ends before its first line.
theorem Window.logRead_nil (w : Window c s gone held)
    (h : ¬held.length ≤ (gone + held.length + 1) % 2 ^ 32) : logRead c s after limit cb = [] := by
  have hend : ¬s.first < s.next := by
    have := w.length_lt
    rw [UInt32.lt_iff_toNat_lt, w.first_eq, w.next_eq, UInt32.toNat_ofNat', UInt32.toNat_ofNat']
    omega
  unfold logRead
  cases s.next.toNat with
  | zero => rfl
  | succ rounds =>
    unfold visitFrom
    rw [if_neg hend]

theorem isAfter_sub_one (seq : UInt32) : isAfter (seq - 1) seq = true := by
  have hpred : (seq - 1).toNat = (2 ^ 32 - 1 + seq.toNat) % 2 ^ 32 := UInt32.toNat_sub seq 1
  have hlt := seq.toNat_lt
  unfold isAfter
  rw [hpred]
  simp only [Bool.and_eq_true, decide_eq_true_eq]
  omega

-- A reader of one line, from before the oldest on, is to get that one.
theorem upTo_one {first : UInt32} :
    upTo 1 (fun _ => true) [] (wanted (first - 1) first (text :: held)) = [(first, text)] := by
  unfold wanted numbered
  rw [List.filter_cons, if_pos (isAfter_sub_one first), upTo_all (Or.inr Nat.zero_lt_one)]
  rfl

theorem Window.reads_iff (w : Window c s gone held) :
    (∀ after limit cb,
        logRead c s after limit cb = upTo limit cb [] (wanted after s.first held)) ↔
      held.length ≤ (gone + held.length + 1) % 2 ^ 32 := by
  constructor
  · intro h
    by_contra hwrap
    cases held with
    | nil => exact hwrap (Nat.zero_le _)
    | cons text held =>
      have hone := h (s.first - 1) 1 fun _ => true
      rw [w.logRead_nil hwrap, upTo_one] at hone
      exact absurd hone (List.cons_ne_nil _ _).symm
  · intro h after limit cb
    exact w.logRead_eq h

variable (c) in
theorem pushAll_init (buf : Memory UInt8) (lines : List Line) :
    ∃ s, pushAll c lines (init buf) = some s ∧ Holds c lines s := by
  have hinit : Holds c [] (init buf) := ⟨[], [], rfl, fun _ => rfl, window_init buf⟩
  exact pushAll_holds hinit

theorem Window.dropped_iff (w : Window c s gone held) :
    s.dropped.toNat + held.length = gone + held.length ↔ gone < 2 ^ 32 := by
  rw [w.dropped_eq, UInt32.toNat_ofNat']
  omega

end Ring

-- Whatever is pushed, the ring is a window on it. Its counters go around at 2^32, and it can be
-- read where the numbers of its lines do not.
theorem log_ring_iff (c : Config) (buf : Memory UInt8) (lines : List Line) :
    ∃ s gone held, pushAll c lines (init buf) = some s ∧
      lines.map (storedLine c) = gone ++ held ∧ Window c s gone.length held ∧
      (s.dropped.toNat + held.length = lines.length ↔ lines.length - held.length < 2 ^ 32) ∧
      ((∀ after limit cb,
          logRead c s after limit cb = upTo limit cb [] (wanted after s.first held)) ↔
        held.length ≤ (lines.length + 1) % 2 ^ 32) := by
  obtain ⟨s, hrun, gone, held, hlines, -, w⟩ := pushAll_init c buf lines
  have hlen : lines.length = gone.length + held.length := by
    rw [← List.length_append, ← hlines, List.length_map]
  refine ⟨s, gone, held, hrun, hlines, w, ?_, ?_⟩
  · rw [hlen, Nat.add_sub_cancel]
    exact w.dropped_iff
  · rw [hlen]
    exact w.reads_iff

def smallest : Config where
  ringSize := 2048
  lineMax := 64
  wallclock := false
  ringSize_le := by decide
  lineMax_le := by decide
  fits := by decide

-- The line that brings `next` to zero takes all others out of reach.
theorem nothing_visited :
    ∃ s text held,
      pushAll smallest (List.replicate (2 ^ 32 - 1) ⟨[0x61], []⟩) (init fun _ => 0) = some s ∧
        read 2048 s.buf s.head s.used = (text :: held).flatMap record ∧
        logRead smallest s (s.first - 1) 1 (fun _ => true) = [] ∧
        upTo 1 (fun _ => true) [] (wanted (s.first - 1) s.first (text :: held)) =
          [(s.first, text)] := by
  obtain ⟨s, hrun, gone, held, hlines, hnewest, w⟩ :=
    pushAll_init smallest (fun _ => 0) (List.replicate (2 ^ 32 - 1) ⟨[0x61], []⟩)
  have hlen : 2 ^ 32 - 1 = gone.length + held.length := by
    rw [← List.length_append, ← hlines, List.length_map, List.length_replicate]
  cases held with
  | nil =>
    have hnone := congrArg List.length (hnewest rfl)
    rw [List.length_replicate] at hnone
    exact absurd hnone (by decide)
  | cons text held =>
    rw [List.length_cons] at hlen
    have hwrap : ¬(text :: held).length ≤ (gone.length + (text :: held).length + 1) % 2 ^ 32 := by
      rw [List.length_cons]
      omega
    exact ⟨s, text, held, hrun, w.read_eq, w.logRead_nil hwrap, upTo_one⟩

end Espos.Log
