import Mathlib.Data.FinEnum
import Mathlib.Tactic.IntervalCases
import Espos.Lib.Dns

-- The DNS task of the setup portal: every question is answered with its own address.

namespace Espos.Wifi.PortalDns

open Espos.Dns

-- `uint8_t buf[512]`
structure Frame where
  bytes : Bytes
  size : bytes.length = 512

-- What the code must not do: it reads a byte that was not received, it writes one outside
-- of the buffer, or the walk over the name goes on.
inductive Fault where
  | unreceived
  | outside
  | endless
deriving DecidableEq

structure Server where
  buf : Frame
  enabled : Bool
  -- In network byte order.
  answerIp : Vector UInt8 4

namespace Frame

-- `recvfrom` with room for 16 bytes less.
def receive (buf : Frame) (datagram : Bytes) : Frame where
  bytes := datagram.take (512 - 16) ++ buf.bytes.drop (datagram.take (512 - 16)).length
  size := by
    have hsize := buf.size
    simp only [List.length_append, List.length_take, List.length_drop]
    omega

-- `buf[i]`, of the `n` bytes that were received.
def load (buf : Frame) (n i : Nat) : Except Fault UInt8 :=
  if i < n then .ok (buf.bytes.getD i 0) else .error .unreceived

-- `buf[i] = v`
def store (i : Nat) (v : UInt8) (buf : Frame) : Except Fault Frame :=
  if i < 512 then .ok ⟨buf.bytes.set i v, (List.length_set ..).trans buf.size⟩
  else .error .outside

-- `memcpy(buf + i, bytes, sizeof(bytes))`
def copy (i : Nat) : Bytes → Frame → Except Fault Frame
  | [], buf => .ok buf
  | b :: bytes, buf => (buf.store i b).bind (copy (i + 1) bytes)

end Frame

-- The first name, from `i` on: what it returns is where it found the end of it.
def walk (buf : Frame) (n : Nat) : Nat → Nat → Except Fault Nat
  | 0, _ => .error .endless
  | fuel + 1, i =>
    if i < n then do
      let l ← buf.load n i
      if l ≠ 0 then walk buf n fuel (i + l.toNat + 1) else .ok i
    else .ok i

def answerHead : Bytes :=
  [0xC0, 0x0C, 0x00, 0x01, 0x00, 0x01, 0x00, 0x00, 0x00, 0x3C, 0x00, 0x04]

-- The flags, and all counts but that of the questions.
def respond (answers : UInt8) (buf : Frame) : Except Fault Frame := do
  let buf ← buf.store 2 0x81
  let buf ← buf.store 3 0x80
  let buf ← buf.store 6 0
  let buf ← buf.store 7 answers
  let buf ← buf.store 8 0
  let buf ← buf.store 9 0
  let buf ← buf.store 10 0
  buf.store 11 0

-- The reply to a query whose first question ends at `i`, with the buffer it is sent from.
def reply (answerIp : Vector UInt8 4) (buf : Frame) (n i : Nat) :
    Except Fault (Bytes × Frame) := do
  let hi ← buf.load n (i - 4)
  let lo ← buf.load n (i - 3)
  let qtype := word hi lo
  let buf ← respond (if qtype = 1 then 1 else 0) buf
  if qtype = 1 then
    let buf ← buf.copy i answerHead
    let buf ← buf.copy (i + 12) answerIp.toList
    .ok (buf.bytes.take (i + 12 + 4), buf)
  else .ok (buf.bytes.take i, buf)

-- A datagram of at least 12 bytes in the buffer.
def answer (answerIp : Vector UInt8 4) (buf : Frame) (n : Nat) :
    Except Fault (Option Bytes × Frame) := do
  let flags ← buf.load n 2
  let hi ← buf.load n 4
  let lo ← buf.load n 5
  if flags &&& 0x80 ≠ 0 ∨ hi = 0 ∧ lo = 0 then .ok (none, buf)
  else
    let i ← walk buf n n 12
    let i := i + 1 + 4
    if n < i then .ok (none, buf)
    else
      let (sent, buf) ← reply answerIp buf n i
      .ok (some sent, buf)

-- One round of `dns_task`, with what `recvfrom` brings and what is sent.
def serve (s : Server) (recv : Option Bytes) : Except Fault (Option Bytes × Server) :=
  match recv with
  | none => .ok (none, s)
  | some datagram =>
    let n := (datagram.take (512 - 16)).length
    let buf := s.buf.receive datagram
    if n < 12 ∨ s.enabled = false then .ok (none, { s with buf := buf })
    else do
      let (sent, buf) ← answer s.answerIp buf n
      .ok (sent, { s with buf := buf })

-- `espos_wifi_portal_dns_start`, `espos_wifi_portal_dns_stop` and the rounds of the task.
inductive Event where
  | start (ip : Vector UInt8 4)
  | stop
  | recv (datagram : Option Bytes)

def step (s : Server) : Event → Except Fault (Option Bytes × Server)
  | .start ip => .ok (none, { s with answerIp := ip, enabled := true })
  | .stop => .ok (none, { s with enabled := false })
  | .recv datagram => serve s datagram

-- The replies of a run, each with the event it is sent at.
def run : List Event → Server → Except Fault (List (Event × Bytes))
  | [], _ => .ok []
  | e :: es, s => do
    let (sent, s) ← step s e
    let more ← run es s
    .ok ((sent.map fun reply => (e, reply)).toList ++ more)

section Spec

-- The bytes there is room for.
def received (datagram : Bytes) : Bytes :=
  datagram.take (512 - 16)

def queryId (got : Bytes) : Nat :=
  word (got.getD 0 0) (got.getD 1 0)

def questionCount (got : Bytes) : Nat :=
  word (got.getD 4 0) (got.getD 5 0)

def firstQuestion (got : Bytes) : Option Question :=
  (readQuestion ⟨12, got.drop 12, []⟩).map Prod.fst

-- A message, filled exactly by the records it counts, with the query's id and its first
-- question.
def Answers (got reply : Bytes) : Prop :=
  ∃ m q, readMessage reply = some m ∧ m.id = queryId got ∧ firstQuestion got = some q ∧
    m.questions.head? = some q

-- The bytes of the name that the walk takes for lengths.
def lengths (got : Bytes) : Nat → Nat → List UInt8
  | 0, _ => []
  | fuel + 1, i =>
    match got[i]? with
    | none => []
    | some l => if l ≠ 0 then l :: lengths got fuel (i + l.toNat + 1) else []

def span (ls : List UInt8) : Nat :=
  (ls.map fun l => l.toNat + 1).sum

-- One question, whose name has labels of at most 63 bytes and not more than 255 with them.
structure OneQuestion (got : Bytes) : Prop where
  count : questionCount got = 1
  labels : ∀ l ∈ lengths got got.length 12, l < 64
  size : span (lengths got got.length 12) + 1 ≤ 255

end Spec

section Buffer

variable {buf : Frame} {got stale : Bytes} {n i fuel : Nat}

theorem load_eq (h : i < n) : buf.load n i = .ok (buf.bytes.getD i 0) :=
  if_pos h

-- The walk ends, and it has read nothing but what was received.
theorem walk_eq (hbuf : buf.bytes = got ++ stale) (hfuel : got.length < i + fuel)
    (hpos : 0 < fuel) :
    walk buf got.length fuel i = .ok (i + span (lengths got fuel i)) := by
  induction fuel generalizing i with
  | zero => omega
  | succ fuel ih =>
    rw [walk]
    by_cases hi : i < got.length
    · have hl : buf.bytes.getD i 0 = got[i] := by
        rw [hbuf, List.getD_eq_getElem?_getD, List.getElem?_append_left hi,
          List.getElem?_eq_getElem hi, Option.getD_some]
      rw [if_pos hi, load_eq hi, hl]
      simp only [lengths, List.getElem?_eq_getElem hi]
      by_cases hzero : got[i] = 0
      · simp [bind, Except.bind, hzero, span]
      · have hnext := ih (i := i + got[i].toNat + 1) (by omega) (by omega)
        simp only [bind, Except.bind, ne_eq, hzero, not_false_eq_true, if_true, hnext, span,
          List.map_cons, List.sum_cons]
        congr 1
        omega
    · rw [if_neg hi]
      simp [lengths, List.getElem?_eq_none (Nat.le_of_not_lt hi), span]

end Buffer

section Name

variable {got : Bytes} {i fuel : Nat}

-- The name the walk goes over, up to its end: it is one where no length is too long.
structure Walked (got : Bytes) (fuel i : Nat) (front after : Bytes) (labels : Labels)
    (found : List (Nat × Labels)) : Prop where
  split : got.drop i = front ++ 0 :: after
  length : front.length = span (lengths got fuel i)
  first : found.head? = some (i, labels)
  reads : ∀ fuel' more, front.length < fuel' →
    nameFrom [] fuel' i (front ++ 0 :: more) =
      if ∀ l ∈ lengths got fuel i, l < 64 then some (labels, found, more) else none
  size : (∀ l ∈ lengths got fuel i, l < 64) → wireSize labels = front.length + 1

theorem exists_walked (hend : i + span (lengths got fuel i) < got.length)
    (hfuel : got.length < i + fuel) :
    ∃ front after labels found, Walked got fuel i front after labels found := by
  induction fuel generalizing i with
  | zero => omega
  | succ fuel ih =>
    have hi : i < got.length := by omega
    have hdrop : got.drop i = got[i] :: got.drop (i + 1) := List.drop_eq_getElem_cons hi
    by_cases hzero : got[i] = 0
    · have hnone : lengths got (fuel + 1) i = [] := by
        simp [lengths, List.getElem?_eq_getElem hi, hzero]
      refine ⟨[], got.drop (i + 1), [], [(i, [])], ?_⟩
      constructor
      · rw [hdrop, hzero, List.nil_append]
      · rw [hnone]
        rfl
      · rfl
      · intro fuel' more hfuel'
        obtain ⟨fuel'', rfl⟩ : ∃ k, fuel' = k + 1 := ⟨fuel' - 1, by simp at hfuel'; omega⟩
        simp [hnone, nameFrom]
      · intro _
        rfl
    · have hnext : lengths got (fuel + 1) i =
          got[i] :: lengths got fuel (i + got[i].toNat + 1) := by
        simp [lengths, List.getElem?_eq_getElem hi, hzero]
      have hspan : span (lengths got (fuel + 1) i) =
          got[i].toNat + 1 + span (lengths got fuel (i + got[i].toNat + 1)) := by
        rw [hnext]
        rfl
      rw [hspan] at hend
      obtain ⟨front, after, labels, found, h⟩ :=
        ih (i := i + got[i].toNat + 1) (by omega) (by omega)
      have hcontent : got.drop (i + 1) =
          (got.drop (i + 1)).take got[i].toNat ++ (front ++ 0 :: after) := by
        have hjoin := List.take_append_drop got[i].toNat (got.drop (i + 1))
        rw [List.drop_drop, show i + 1 + got[i].toNat = i + got[i].toNat + 1 by omega,
          h.split] at hjoin
        exact hjoin.symm
      generalize hlabel : (got.drop (i + 1)).take got[i].toNat = label at hcontent
      have hlength : label.length = got[i].toNat := by
        rw [← hlabel, List.length_take, List.length_drop]
        omega
      refine ⟨got[i] :: (label ++ front), after, label :: labels,
        (i, label :: labels) :: found, ?_⟩
      constructor
      · rw [hdrop, hcontent, List.cons_append, List.append_assoc]
      · rw [hspan, List.length_cons, List.length_append, hlength, h.length]
        omega
      · rfl
      · intro fuel' more hfuel'
        obtain ⟨fuel'', rfl⟩ : ∃ k, fuel' = k + 1 := ⟨fuel' - 1, by simp at hfuel'; omega⟩
        rw [List.length_cons, List.length_append] at hfuel'
        have hall : (∀ l ∈ got[i] :: lengths got fuel (i + got[i].toNat + 1), l < 64) ↔
            got[i] < 64 ∧ ∀ l ∈ lengths got fuel (i + got[i].toNat + 1), l < 64 :=
          List.forall_mem_cons
        rw [List.cons_append, List.append_assoc, nameFrom, if_neg hzero, hnext]
        by_cases hshort : got[i] < 64
        · have hfits : got[i].toNat ≤ (label ++ (front ++ 0 :: more)).length := by
            rw [List.length_append, hlength]
            omega
          rw [if_pos hshort, if_pos hfits, List.drop_left' hlength, List.take_left' hlength,
            h.reads _ _ (by omega)]
          by_cases hrest : ∀ l ∈ lengths got fuel (i + got[i].toNat + 1), l < 64
          · rw [if_pos hrest, if_pos (hall.mpr ⟨hshort, hrest⟩)]
            rfl
          · rw [if_neg hrest, if_neg fun h' => hrest (hall.mp h').2]
            rfl
        · rw [if_neg hshort, if_neg fun h' => hshort (hall.mp h').1]
          -- nothing is known that a pointer could lead to
          by_cases hpointer : 192 ≤ got[i]
          · rw [if_pos hpointer]
            cases label ++ (front ++ 0 :: more) with
            | nil => rfl
            | cons lo rest => rfl
          · rw [if_neg hpointer]
      · intro hshort
        have hrest := h.size fun l hl => hshort l (hnext ▸ List.mem_cons_of_mem _ hl)
        simp only [wireSize, List.map_cons, List.sum_cons, List.length_cons,
          List.length_append] at hrest ⊢
        omega

end Name

section Question

variable {got front after : Bytes} {labels : Labels} {found : List (Nat × Labels)}

theorem readQuestion_walked (h : Walked got got.length 12 front after labels found)
    (t₁ t₂ c₁ c₂ : UInt8) (more : Bytes) :
    readQuestion ⟨12, front ++ 0 :: t₁ :: t₂ :: c₁ :: c₂ :: more, []⟩ =
      if (∀ l ∈ lengths got got.length 12, l < 64) ∧ span (lengths got got.length 12) + 1 ≤ 255 then
        some (⟨labels, word t₁ t₂, word c₁ c₂⟩, ⟨12 + front.length + 1 + 4, more, found⟩)
      else none := by
  rw [readQuestion, readName]
  simp only
  rw [h.reads _ _ (by simp only [List.length_append, List.length_cons]; omega)]
  by_cases hshort : ∀ l ∈ lengths got got.length 12, l < 64
  · have hsize := h.size hshort
    have hpos : 12 + ((front ++ 0 :: t₁ :: t₂ :: c₁ :: c₂ :: more).length -
        (t₁ :: t₂ :: c₁ :: c₂ :: more).length) = 12 + front.length + 1 := by
      simp only [List.length_append, List.length_cons]
      omega
    rw [← h.length, ← hsize, if_pos hshort]
    by_cases hfits : wireSize labels ≤ 255
    · rw [if_pos ⟨hshort, hfits⟩]
      simp only [if_pos hfits, hpos, Option.bind_some, List.nil_append]
    · rw [if_neg fun hall => hfits hall.2]
      simp only [if_neg hfits, Option.bind_none]
  · rw [if_neg hshort, if_neg fun hall => hshort hall.1]
    rfl

variable {pos : Nat} {known : List (Nat × Labels)} {a b c d : UInt8}

theorem readQuestion_nil : readQuestion ⟨pos, [], known⟩ = none := rfl

-- The pointer of the answer, where the name of the first question is known.
theorem readName_answer {more : List (Nat × Labels)} (hfits : wireSize labels ≤ 255) :
    readName ⟨pos, answerHead ++ [a, b, c, d], (12, labels) :: more⟩ =
      some (labels, ⟨pos + 2, [0, 1, 0, 1, 0, 0, 0, 0x3C, 0, 4, a, b, c, d],
        (12, labels) :: more ++ [(pos, labels)]⟩) := by
  have hname : nameFrom ((12, labels) :: more) 16 pos (answerHead ++ [a, b, c, d]) =
      some (labels, [(pos, labels)], [0, 1, 0, 1, 0, 0, 0, 0x3C, 0, 4, a, b, c, d]) := by
    simp [nameFrom, answerHead, pointed, word]
  have hlen : (answerHead ++ [a, b, c, d]).length = 16 := rfl
  simp only [readName, hlen, hname, if_pos hfits]
  rfl

theorem readRecord_answer {more : List (Nat × Labels)} (hfits : wireSize labels ≤ 255) :
    readRecord ⟨pos, answerHead ++ [a, b, c, d], (12, labels) :: more⟩ =
      some (⟨labels, 1, 1, 60, [a, b, c, d]⟩,
        ⟨pos + 2 + 10 + 4, [], (12, labels) :: more ++ [(pos, labels)]⟩) := by
  rw [readRecord, readName_answer hfits]
  simp [word]

-- Behind the first question and in front of the end there is no other one.
theorem readMany_questions_nil (k : Nat) :
    readMany readQuestion (k + 1) ⟨pos, [], known⟩ = none := by
  rw [readMany, readQuestion_nil, Option.bind_none]

-- What is left of the answer when its head has been read as questions.
theorem readQuestion_rest : readQuestion ⟨pos, [0, 0, 0, 0x3C, 0, 4, a, b, c, d], known⟩ =
    some (⟨[], 0, 0x3C00⟩, ⟨pos + 1 + 4, [4, a, b, c, d], known ++ [(pos, [])]⟩) := by
  simp [readQuestion, readName, nameFrom, wireSize, word]

theorem readName_address : readName ⟨pos, [4, a, b, c, d], known⟩ = none := by
  simp [readName, nameFrom]

theorem readQuestion_address : readQuestion ⟨pos, [4, a, b, c, d], known⟩ = none := by
  rw [readQuestion, readName_address, Option.bind_none]

theorem readRecord_rest : readRecord ⟨pos, [0, 0, 0, 0x3C, 0, 4, a, b, c, d], known⟩ = none := by
  simp [readRecord, readName, nameFrom, wireSize]

-- The answer read as questions leaves no answer.
theorem readMany_questions_answer {more : List (Nat × Labels)} (hfits : wireSize labels ≤ 255)
    (k : Nat) :
    ((readMany readQuestion (k + 1) ⟨pos, answerHead ++ [a, b, c, d], (12, labels) :: more⟩).bind
      fun (_, r) => readMany readRecord 1 r) = none := by
  have hfirst : readQuestion ⟨pos, answerHead ++ [a, b, c, d], (12, labels) :: more⟩ =
      some (⟨labels, 1, 1⟩, ⟨pos + 2 + 4, [0, 0, 0, 0x3C, 0, 4, a, b, c, d],
        (12, labels) :: more ++ [(pos, labels)]⟩) := by
    rw [readQuestion, readName_answer hfits]
    simp [word]
  rw [readMany, hfirst, Option.bind_some]
  cases k with
  | zero => simp [readMany, readRecord_rest]
  | succ k =>
    cases k with
    | zero => simp [readMany, readQuestion_rest, readRecord, readName_address]
    | succ k => simp [readMany, readQuestion_rest, readQuestion_address]

end Question

section Reply

variable {i : Nat}

theorem store_eq (buf : Frame) (v : UInt8) (h : i < 512) :
    ∃ buf', buf.store i v = .ok buf' ∧ buf'.bytes = buf.bytes.set i v :=
  ⟨_, if_pos h, rfl⟩

theorem copy_eq (buf : Frame) (bytes : Bytes) (h : i + bytes.length ≤ 512) :
    ∃ buf', buf.copy i bytes = .ok buf' ∧
      buf'.bytes = buf.bytes.take i ++ bytes ++ buf.bytes.drop (i + bytes.length) := by
  induction bytes generalizing buf i with
  | nil => exact ⟨buf, rfl, by simp⟩
  | cons b bytes ih =>
    rw [List.length_cons] at h
    obtain ⟨buf₁, hstore, hbytes⟩ := store_eq buf b (i := i) (by omega)
    obtain ⟨buf₂, hcopy, hbytes₂⟩ := ih buf₁ (i := i + 1) (by omega)
    refine ⟨buf₂, ?_, ?_⟩
    · rw [Frame.copy, hstore]
      exact hcopy
    · have hsize := buf.size
      have hlen : (buf.bytes.take i ++ [b]).length = i + 1 := by
        rw [List.length_append, List.length_take, List.length_singleton]
        omega
      have hset : buf.bytes.set i b = (buf.bytes.take i ++ [b]) ++ buf.bytes.drop (i + 1) := by
        rw [List.set_eq_take_append_cons_drop, if_pos (by omega), List.append_cons]
      rw [hbytes₂, hbytes, hset, List.take_left' hlen, ← List.drop_drop, List.drop_left' hlen,
        List.drop_drop, List.length_cons, ← List.append_cons]
      congr 2
      omega

-- The header of a query, and what becomes of it.
def queryHead (h : Vector UInt8 12) : Bytes :=
  [h[0], h[1], h[2], h[3], h[4], h[5], h[6], h[7], h[8], h[9], h[10], h[11]]

def replyHead (h : Vector UInt8 12) (answers : UInt8) : Bytes :=
  [h[0], h[1], 0x81, 0x80, h[4], h[5], 0, answers, 0, 0, 0, 0]

def replyTail (ip : Vector UInt8 4) (qtype : Nat) : Bytes :=
  if qtype = 1 then answerHead ++ ip.toList else []

-- A query whose first question is cut out of it.
def query (h : Vector UInt8 12) (front : Bytes) (t₁ t₂ c₁ c₂ : UInt8) (extra : Bytes) : Bytes :=
  queryHead h ++ (front ++ 0 :: t₁ :: t₂ :: c₁ :: c₂ :: extra)

theorem respond_eq (buf : Frame) {h : Vector UInt8 12} {rest : Bytes} (answers : UInt8)
    (hbuf : buf.bytes = queryHead h ++ rest) :
    ∃ buf', respond answers buf = .ok buf' ∧ buf'.bytes = replyHead h answers ++ rest := by
  obtain ⟨buf₁, hstore₁, hbytes₁⟩ := store_eq buf 0x81 (i := 2) (by decide)
  obtain ⟨buf₂, hstore₂, hbytes₂⟩ := store_eq buf₁ 0x80 (i := 3) (by decide)
  obtain ⟨buf₃, hstore₃, hbytes₃⟩ := store_eq buf₂ 0 (i := 6) (by decide)
  obtain ⟨buf₄, hstore₄, hbytes₄⟩ := store_eq buf₃ answers (i := 7) (by decide)
  obtain ⟨buf₅, hstore₅, hbytes₅⟩ := store_eq buf₄ 0 (i := 8) (by decide)
  obtain ⟨buf₆, hstore₆, hbytes₆⟩ := store_eq buf₅ 0 (i := 9) (by decide)
  obtain ⟨buf₇, hstore₇, hbytes₇⟩ := store_eq buf₆ 0 (i := 10) (by decide)
  obtain ⟨buf₈, hstore₈, hbytes₈⟩ := store_eq buf₇ 0 (i := 11) (by decide)
  refine ⟨buf₈, ?_, ?_⟩
  · simp only [respond, bind, Except.bind, hstore₁, hstore₂, hstore₃, hstore₄, hstore₅, hstore₆,
      hstore₇, hstore₈]
  · simp [hbytes₈, hbytes₇, hbytes₆, hbytes₅, hbytes₄, hbytes₃, hbytes₂, hbytes₁, hbuf, queryHead,
      replyHead]

theorem reply_eq (ip : Vector UInt8 4) (buf : Frame) {h : Vector UInt8 12}
    {front extra stale : Bytes} {t₁ t₂ c₁ c₂ : UInt8} {n : Nat}
    (hbuf : buf.bytes = query h front t₁ t₂ c₁ c₂ extra ++ stale)
    (hn : 12 + front.length + 1 + 4 ≤ n) (hroom : n ≤ 512 - 16) :
    ∃ buf', reply ip buf n (12 + front.length + 1 + 4) =
      .ok (replyHead h (if word t₁ t₂ = 1 then 1 else 0) ++
        (front ++ 0 :: t₁ :: t₂ :: c₁ :: c₂ :: replyTail ip (word t₁ t₂)), buf') := by
  have hsplit : buf.bytes = (queryHead h ++ (front ++ [0])) ++ t₁ :: t₂ :: c₁ :: c₂ ::
      (extra ++ stale) := by
    rw [hbuf, query]
    simp only [List.append_assoc, List.cons_append, List.nil_append]
  have hplace : (queryHead h ++ (front ++ [0])).length = 12 + front.length + 1 := by
    simp only [queryHead, List.length_append, List.length_cons, List.length_nil]
    omega
  have hhi : buf.load n (12 + front.length + 1 + 4 - 4) = .ok t₁ := by
    rw [load_eq (by omega), hsplit, List.getD_eq_getElem?_getD,
      List.getElem?_append_right (by omega), hplace, Nat.add_sub_cancel, Nat.sub_self]
    rfl
  have hlo : buf.load n (12 + front.length + 1 + 4 - 3) = .ok t₂ := by
    have hnext : 12 + front.length + 1 + 4 - 3 - (12 + front.length + 1) = 1 := by omega
    rw [load_eq (by omega), hsplit, List.getD_eq_getElem?_getD,
      List.getElem?_append_right (by omega), hplace, hnext]
    rfl
  obtain ⟨buf₁, hrespond, hbytes₁⟩ := respond_eq buf (h := h)
    (if word t₁ t₂ = 1 then 1 else 0) (hbuf.trans (List.append_assoc ..))
  simp only [reply, hhi, hlo, bind, Except.bind, hrespond]
  generalize hanswers : (if word t₁ t₂ = 1 then (1 : UInt8) else 0) = answers at hbytes₁ ⊢
  have hquestion : buf₁.bytes =
      (replyHead h answers ++ (front ++ [0, t₁, t₂, c₁, c₂])) ++ (extra ++ stale) := by
    rw [hbytes₁]
    simp only [List.append_assoc, List.cons_append, List.nil_append]
  have hlength : (replyHead h answers ++ (front ++ [0, t₁, t₂, c₁, c₂])).length =
      12 + front.length + 1 + 4 := by
    simp only [replyHead, List.length_append, List.length_cons, List.length_nil]
    omega
  by_cases htype : word t₁ t₂ = 1
  · have hhead : answerHead.length = 12 := rfl
    have hip : ip.toList.length = 4 := ip.length_toList
    obtain ⟨buf₂, hcopy₂, hbytes₂⟩ :=
      copy_eq buf₁ answerHead (i := 12 + front.length + 1 + 4) (by omega)
    obtain ⟨buf₃, hcopy₃, hbytes₃⟩ :=
      copy_eq buf₂ ip.toList (i := 12 + front.length + 1 + 4 + 12) (by omega)
    rw [hquestion, List.take_left' hlength] at hbytes₂
    rw [hbytes₂, List.take_left' (by rw [List.length_append, hlength, hhead])] at hbytes₃
    refine ⟨buf₃, ?_⟩
    rw [if_pos htype, hcopy₂]
    simp only [hcopy₃]
    rw [hbytes₃, List.take_left' (by rw [List.length_append, List.length_append, hlength, hhead,
      hip]), replyTail, if_pos htype]
    simp only [List.append_assoc, List.cons_append, List.nil_append]
  · refine ⟨buf₁, ?_⟩
    rw [if_neg htype, hquestion, List.take_left' hlength, replyTail, if_neg htype]

theorem readMessage_reply {h : Vector UInt8 12} {answers : UInt8} {body : Bytes} :
    readMessage (replyHead h answers ++ body) =
      (readMany readQuestion (word h[4] h[5]) ⟨12, body, []⟩).bind fun (questions, r) =>
        (readMany readRecord (word 0 answers) r).bind fun (as, r) =>
          if r.rest = [] then
            some ⟨word h[0] h[1], word 0x81 0x80, questions, as, [], []⟩
          else none := by
  have hzero : word 0 0 = 0 := rfl
  simp only [replyHead, List.cons_append, List.nil_append, readMessage, hzero, readMany,
    Option.bind_some]

-- The reply is well-formed exactly where the query has one question, with a short name.
theorem answers_iff {h : Vector UInt8 12} {front extra : Bytes} {t₁ t₂ c₁ c₂ : UInt8}
    {labels : Labels} {found : List (Nat × Labels)} {got : Bytes} (ip : Vector UInt8 4)
    (hgot : got = query h front t₁ t₂ c₁ c₂ extra)
    (hwalked : Walked got got.length 12 front (t₁ :: t₂ :: c₁ :: c₂ :: extra) labels found)
    (hcount : word h[4] h[5] ≠ 0) :
    Answers got (replyHead h (if word t₁ t₂ = 1 then 1 else 0) ++
        (front ++ 0 :: t₁ :: t₂ :: c₁ :: c₂ :: replyTail ip (word t₁ t₂))) ↔
      OneQuestion got := by
  have hid : queryId got = word h[0] h[1] := by
    rw [hgot]
    rfl
  have hquestions : questionCount got = word h[4] h[5] := by
    rw [hgot]
    rfl
  have hdrop : got.drop 12 = front ++ 0 :: t₁ :: t₂ :: c₁ :: c₂ :: extra := by
    rw [hgot]
    rfl
  obtain ⟨k, hk⟩ := Nat.exists_eq_succ_of_ne_zero hcount
  have hread := readQuestion_walked hwalked t₁ t₂ c₁ c₂
  unfold Answers
  rw [readMessage_reply, hid, hk, readMany, hread]
  by_cases hshort : (∀ l ∈ lengths got got.length 12, l < 64) ∧
      span (lengths got got.length 12) + 1 ≤ 255
  · have hfits : wireSize labels ≤ 255 := by
      rw [hwalked.size hshort.1, hwalked.length]
      exact hshort.2
    have hfirst : firstQuestion got = some ⟨labels, word t₁ t₂, word c₁ c₂⟩ := by
      rw [firstQuestion, hdrop, hread, if_pos hshort, Option.map_some]
    have hone : OneQuestion got ↔ k = 0 := by
      constructor
      · intro h'
        have hcount := h'.count
        omega
      · intro hk0
        exact ⟨by omega, hshort.1, hshort.2⟩
    obtain ⟨more, rfl⟩ := List.head?_eq_some_iff.mp hwalked.first
    rw [if_pos hshort, Option.bind_some, hfirst, hone]
    have hnone : word 0 0 = 0 := rfl
    have hanswer : word 0 1 = 1 := rfl
    by_cases htype : word t₁ t₂ = 1
    · rw [replyTail, if_pos htype, if_pos htype, hanswer]
      obtain ⟨a, b, c, d, hip⟩ := List.length_eq_four.mp ip.length_toList
      rw [hip]
      cases k with
      | zero => simp [readMany, readRecord_answer hfits]
      | succ k =>
        have hnone := @readMany_questions_answer labels (12 + front.length + 1 + 4) a b c d more
          hfits k
        cases hmany : readMany readQuestion (k + 1) ⟨12 + front.length + 1 + 4,
            answerHead ++ [a, b, c, d], (12, labels) :: more⟩ with
        | none =>
          simp only [hmany]
          simp
        | some found =>
          rw [hmany, Option.bind_some] at hnone
          simp only [hmany, Option.map_some, Option.bind_some, hnone]
          simp
    · rw [replyTail, if_neg htype, if_neg htype, hnone]
      cases k with
      | zero => simp [readMany]
      | succ k => simp [readMany_questions_nil]
  · rw [if_neg hshort]
    constructor
    · rintro ⟨m, q, hm, -⟩
      cases hm
    · intro h'
      exact absurd ⟨h'.labels, h'.size⟩ hshort

end Reply

section Serve

theorem queryHead_eq (h : Vector UInt8 12) : queryHead h = h.toList := by
  apply List.ext_getElem
  · rw [h.length_toList]
    rfl
  · intro i hi hi'
    rw [Vector.getElem_toList]
    have hlt : i < 12 := hi
    interval_cases i
    all_goals rfl

theorem exists_queryHead {got : Bytes} (hlen : 12 ≤ got.length) :
    ∃ h, got = queryHead h ++ got.drop 12 := by
  have hsize : (got.take 12).toArray.size = 12 := by
    rw [List.size_toArray, List.length_take]
    omega
  refine ⟨⟨(got.take 12).toArray, hsize⟩, ?_⟩
  rw [queryHead_eq]
  exact (List.take_append_drop 12 got).symm

theorem answer_spec (ip : Vector UInt8 4) (buf : Frame) {got stale : Bytes}
    (hbuf : buf.bytes = got ++ stale) (hlen : 12 ≤ got.length) (hroom : got.length ≤ 512 - 16) :
    ∃ sent buf', answer ip buf got.length = .ok (sent, buf') ∧
      ∀ reply, sent = some reply → (Answers got reply ↔ OneQuestion got) := by
  have hload (i : Nat) (hi : i < got.length) : buf.load got.length i = .ok (got.getD i 0) := by
    rw [load_eq hi, hbuf, List.getD_eq_getElem?_getD, List.getElem?_append_left hi,
      List.getD_eq_getElem?_getD]
  have hwalk : walk buf got.length got.length 12 =
      .ok (12 + span (lengths got got.length 12)) := walk_eq hbuf (by omega) (by omega)
  simp only [answer, bind, Except.bind, hload 2 (by omega), hload 4 (by omega),
    hload 5 (by omega), hwalk]
  by_cases hother : got.getD 2 0 &&& 0x80 ≠ 0 ∨ got.getD 4 0 = 0 ∧ got.getD 5 0 = 0
  · rw [if_pos hother]
    exact ⟨none, buf, rfl, by simp⟩
  rw [if_neg hother]
  by_cases hcut : got.length < 12 + span (lengths got got.length 12) + 1 + 4
  · rw [if_pos hcut]
    exact ⟨none, buf, rfl, by simp⟩
  rw [if_neg hcut]
  have hend : 12 + span (lengths got got.length 12) < got.length := by omega
  have hfuel : got.length < 12 + got.length := by omega
  obtain ⟨front, after, labels, found, hwalked⟩ := exists_walked hend hfuel
  obtain ⟨t₁, t₂, c₁, c₂, extra, rfl⟩ : ∃ t₁ t₂ c₁ c₂ extra,
      after = t₁ :: t₂ :: c₁ :: c₂ :: extra := by
    have hsplit := congrArg List.length hwalked.split
    rw [List.length_drop, List.length_append, List.length_cons, hwalked.length] at hsplit
    rcases after with _ | ⟨t₁, _ | ⟨t₂, _ | ⟨c₁, _ | ⟨c₂, extra⟩⟩⟩⟩
    case cons.cons.cons.cons => exact ⟨t₁, t₂, c₁, c₂, extra, rfl⟩
    all_goals
      simp only [List.length_cons, List.length_nil] at hsplit
      omega
  obtain ⟨h, hhead⟩ := exists_queryHead hlen
  have hgot : got = query h front t₁ t₂ c₁ c₂ extra := by
    rw [hhead, hwalked.split]
    rfl
  have hcount : word h[4] h[5] ≠ 0 := by
    have hhi : got.getD 4 0 = h[4] := by
      rw [hgot]
      rfl
    have hlo : got.getD 5 0 = h[5] := by
      rw [hgot]
      rfl
    rw [hhi, hlo] at hother
    intro hzero
    have hboth : h[4].toNat = 0 ∧ h[5].toNat = 0 := by
      rw [word] at hzero
      omega
    exact hother (.inr ⟨UInt8.toNat_inj.mp hboth.1, UInt8.toNat_inj.mp hboth.2⟩)
  obtain ⟨buf', hreply⟩ := reply_eq ip buf (hgot ▸ hbuf) (n := got.length) (by
    rw [hwalked.length]; omega) hroom
  rw [hwalked.length] at hreply
  rw [hreply]
  refine ⟨_, buf', rfl, ?_⟩
  rintro _ ⟨⟩
  exact answers_iff ip hgot hwalked hcount

-- Nothing in a round goes wrong, whatever is in the buffer from before.
theorem serve_spec (s : Server) (recv : Option Bytes) :
    ∃ sent s', serve s recv = .ok (sent, s') ∧ ∀ reply, sent = some reply →
      ∃ datagram, recv = some datagram ∧
        (Answers (received datagram) reply ↔ OneQuestion (received datagram)) := by
  cases recv with
  | none => exact ⟨none, s, rfl, by simp⟩
  | some datagram =>
    generalize hgot : received datagram = got
    have hroom : got.length ≤ 512 - 16 := hgot ▸ List.length_take_le _ _
    have hbuf : (s.buf.receive datagram).bytes = got ++ s.buf.bytes.drop got.length := by
      rw [← hgot]
      rfl
    have hn : (datagram.take (512 - 16)).length = got.length := congrArg List.length hgot
    simp only [serve, hn]
    by_cases hidle : got.length < 12 ∨ s.enabled = false
    · rw [if_pos hidle]
      exact ⟨none, _, rfl, by simp⟩
    · rw [if_neg hidle]
      obtain ⟨sent, buf', hanswer, hsent⟩ :=
        answer_spec s.answerIp _ hbuf (by omega) hroom
      rw [hanswer]
      exact ⟨sent, _, rfl, fun reply hreply => ⟨datagram, rfl, hgot ▸ hsent reply hreply⟩⟩

theorem step_spec (s : Server) (e : Event) :
    ∃ sent s', step s e = .ok (sent, s') ∧ ∀ reply, sent = some reply →
      ∃ datagram, e = .recv (some datagram) ∧
        (Answers (received datagram) reply ↔ OneQuestion (received datagram)) := by
  cases e with
  | start ip => exact ⟨none, _, rfl, by simp⟩
  | stop => exact ⟨none, _, rfl, by simp⟩
  | recv datagram =>
    obtain ⟨sent, s', hserve, hsent⟩ := serve_spec s datagram
    refine ⟨sent, s', hserve, fun reply hreply => ?_⟩
    obtain ⟨got, rfl, hiff⟩ := hsent reply hreply
    exact ⟨got, rfl, hiff⟩

-- Whatever is received and in whatever order, the task reads and writes only what it may and
-- every walk ends; a reply is a message that answers its query exactly where the query has
-- one question, with a name as it should be.
theorem portal_dns_run (es : List Event) (s : Server) :
    ∃ sent, run es s = .ok sent ∧ ∀ e reply, (e, reply) ∈ sent →
      ∃ datagram, e = .recv (some datagram) ∧
        (Answers (received datagram) reply ↔ OneQuestion (received datagram)) := by
  induction es generalizing s with
  | nil => exact ⟨[], rfl, by simp⟩
  | cons e es ih =>
    obtain ⟨sent, s', hstep, hsent⟩ := step_spec s e
    obtain ⟨more, hrun, hmore⟩ := ih s'
    refine ⟨(sent.map fun reply => (e, reply)).toList ++ more, ?_, ?_⟩
    · simp only [run, bind, Except.bind, hstep, hrun]
    · intro e' reply hmem
      rcases List.mem_append.mp hmem with hfirst | hrest
      · obtain ⟨reply', hreply, heq⟩ :=
          Option.map_eq_some_iff.mp (Option.mem_toList.mp hfirst)
        obtain ⟨rfl, rfl⟩ := Prod.mk.inj heq
        exact hsent reply' hreply
      · exact hmore e' reply hrest

def portal : Server where
  buf := ⟨List.replicate 512 0, List.length_replicate⟩
  enabled := true
  answerIp := #v[192, 168, 4, 1]

-- Asks for the addresses of `a` and of `b`.
def twoQuestions : Bytes :=
  [0x12, 0x34, 0x01, 0x00, 0, 2, 0, 0, 0, 0, 0, 0,
    1, 0x61, 0, 0, 1, 0, 1, 1, 0x62, 0, 0, 1, 0, 1]

-- The reply still counts both, and has one.
theorem second_question_counted :
    ((serve portal (some twoQuestions)).toOption.bind Prod.fst).any fun reply =>
      reply.take 8 = [0x12, 0x34, 0x81, 0x80, 0, 2, 0, 1] && (readMessage reply).isNone := by
  decide +kernel

end Serve

end Espos.Wifi.PortalDns
