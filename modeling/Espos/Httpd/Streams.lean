import Mathlib.Data.List.Range
import Mathlib.Data.List.ReduceOption
import Mathlib.Logic.Function.Basic
import Espos.Platform
import Espos.Lib.Clock
import Espos.Lib.EventStream
import Espos.Lib.Lists
import Espos.Lib.Run
import Espos.Lib.Text

-- The event streams of `sse.c`: who holds a slot, what is written on each
-- stream, and what a browser reads of it.

namespace Espos.Httpd

open Espos.Text Espos.Clock Espos.Run

-- A request is known by its number among those that were detached. Admissions
-- are counted without end here, and cut to 32 bits where the code compares them.
structure Client where
  req : Nat
  fd : Nat
  since : Nat

structure Streams where
  clients : List (Option Client)
  admitted : Nat
  -- The requests detached from the server, what was written on each, which
  -- sockets were shut down and which requests were handed back.
  begun : Nat
  written : Nat → CStr
  shut : List Nat
  completed : List Nat

namespace Streams

def start (maxClients : Nat) : Streams :=
  ⟨List.replicate maxClients none, 0, 0, fun _ => [], [], []⟩

def client (s : Streams) (i : Nat) : Option Client :=
  s.clients[i]?.join

def dropLocked (s : Streams) (i : Nat) : Streams :=
  match s.client i with
  | none => s
  | some c =>
    { s with
      clients := s.clients.set i none
      shut := s.shut ++ [c.fd]
      completed := s.completed ++ [c.req] }

def write (s : Streams) (req : Nat) (buf : CStr) : Streams :=
  { s with written := Function.update s.written req (s.written req ++ buf) }

-- `sent` tells whether the socket takes the chunk.
def sendLocked (s : Streams) (i : Nat) (buf : CStr) (sent : Bool) : EspErr × Streams :=
  match s.client i with
  | none => (.invalidArg, s)
  | some c => if sent then (.ok, s.write c.req buf) else (.fail, s.dropLocked i)

-- The loops over the slots.
def sendAll (s : Streams) (buf : CStr) (sent : Nat → Bool) : Streams :=
  (List.range s.clients.length).foldl (fun s i => (s.sendLocked i buf (sent i)).2) s

def dropAll (s : Streams) : Streams :=
  (List.range s.clients.length).foldl dropLocked s

def formatEvent (event json : CStr) : CStr :=
  lit "event: " ++ event ++ lit "\ndata: " ++ json ++ lit "\n\n"

def ping : CStr :=
  lit ": ping\n\n"

def hello : CStr :=
  lit "retry: 3000\n\n"

-- One round of the search for the stream that was admitted first.
def older (s : Streams) (o i : Nat) : Nat :=
  match s.client i, s.client o with
  | some c, some d => if ahead (UInt32.ofNat c.since) (UInt32.ofNat d.since) < 0 then i else o
  | _, _ => o

def oldest (s : Streams) : Nat :=
  (List.range s.clients.length).foldl s.older 0

-- The slot for a new stream; a full table makes room.
def claim (s : Streams) : Streams × Nat :=
  match s.clients.findIdx? Option.isNone with
  | some i => (s, i)
  | none => (s.dropLocked s.oldest, s.oldest)

-- The request is detached and its first chunk goes out.
def enter (s : Streams) (slot fd : Nat) : Streams :=
  { s with
    clients := s.clients.set slot (some ⟨s.begun, fd, s.admitted + 1⟩)
    admitted := s.admitted + 1
    begun := s.begun + 1
    written := Function.update s.written s.begun hello }

-- The request is detached, but its first chunk does not go out.
def turnAway (s : Streams) : Streams :=
  { s with begun := s.begun + 1, completed := s.completed ++ [s.begun] }

-- `begins` tells whether the request can be detached, `sent` whether the first
-- chunk goes out.
def eventsGet (s : Streams) (begins : Bool) (fd : Nat) (sent : Bool) : EspErr × Streams :=
  let (s, slot) := s.claim
  if begins then if sent then (.ok, s.enter slot fd) else (.fail, s.turnAway) else (.fail, s)

end Streams

-- A missing string is NULL; `mem` tells whether there is memory for the frame.
inductive StreamCall where
  | publish (mem : Bool) (event json : Option CStr) (sent : Nat → Bool)
  | send (client : Nat) (mem : Bool) (event json : Option CStr) (sent : Bool)
  | ping (sent : Nat → Bool)
  | connect (begins : Bool) (fd : Nat) (sent : Bool)
  | shutdown

def frame (mem : Bool) (event json : Option CStr) : Except EspErr CStr :=
  match event, json with
  | some event, some json => if mem then .ok (Streams.formatEvent event json) else .error .noMem
  | _, _ => .error .invalidArg

def streamStep (s : Streams) : StreamCall → Streams
  | .publish mem event json sent =>
    match frame mem event json with
    | .ok buf => s.sendAll buf sent
    | .error _ => s
  | .send client mem event json sent =>
    match frame mem event json with
    | .ok buf => (s.sendLocked client buf sent).2
    | .error _ => s
  | .ping sent => s.sendAll Streams.ping sent
  | .connect begins fd sent => (s.eventsGet begins fd sent).2
  | .shutdown => s.dropAll

namespace StreamCall

-- What a call writes on the stream of a slot.
def chunk (i : Nat) : StreamCall → CStr
  | .publish mem event json _ => (frame mem event json).toOption.getD []
  | .send client mem event json _ =>
    if client = i then (frame mem event json).toOption.getD [] else []
  | .ping _ => Streams.ping
  | .connect _ _ _ => []
  | .shutdown => []

-- The event that a call frames.
def framed (mem : Bool) : Option CStr → Option CStr → List (CStr × CStr)
  | some event, some json => if mem then [(event, json)] else []
  | _, _ => []

-- The events that a call is to deliver on the stream of a slot.
def heard (i : Nat) : StreamCall → List (CStr × CStr)
  | .publish mem event json _ => framed mem event json
  | .send client mem event json _ => if client = i then framed mem event json else []
  | .ping _ => []
  | .connect _ _ _ => []
  | .shutdown => []

-- An event has a name, and neither it nor its data breaks a line.
def PlainEvent (event json : Option CStr) : Prop :=
  ∀ e ∈ event, ∀ j ∈ json, e ≠ [] ∧ EventStream.OneLine e ∧ EventStream.OneLine j

def Plain : StreamCall → Prop
  | .publish _ event json _ => PlainEvent event json
  | .send _ _ event json _ => PlainEvent event json
  | _ => True

end StreamCall

namespace Streams

variable {s s' s'' : Streams} {i j : Nat} {c d : Client} {buf : CStr} {f g : Nat → CStr}

theorem slot_of_client (h : s.client i = some c) : s.clients[i]? = some (some c) :=
  Option.join_eq_some_iff.mp h

theorem client_dropLocked : (s.dropLocked i).client j = if j = i then none else s.client j := by
  unfold dropLocked
  split
  next hc =>
    split
    next h => rw [h, hc]
    next => rfl
  next c hc =>
    change (s.clients.set i none)[j]?.join = if j = i then none else s.clients[j]?.join
    rw [List.getElem?_set]
    by_cases hj : j = i
    · subst hj
      rw [if_pos rfl, if_pos rfl]
      split <;> rfl
    · rw [if_neg (Ne.symm hj), if_neg hj]

theorem client_sendLocked {sent : Bool} : (s.sendLocked i buf sent).2.client j =
    if j = i ∧ sent = false then none else s.client j := by
  unfold sendLocked
  split
  next hi =>
    split
    next h => exact h.1 ▸ hi
    next => rfl
  next c hi =>
    cases sent with
    | true => simp [write, client]
    | false =>
      have hdrop : (s.dropLocked i).client j = _ := client_dropLocked
      simpa using hdrop

theorem client_foldl_send {sent : Nat → Bool} {l : List Nat} :
    (l.foldl (fun s i => (s.sendLocked i buf (sent i)).2) s).client j =
      if j ∈ l ∧ sent j = false then none else s.client j := by
  induction l generalizing s with
  | nil => simp
  | cons i l ih =>
    rw [List.foldl_cons, ih, client_sendLocked]
    by_cases hj : j = i
    · subst hj
      cases hs : sent j <;> simp
    · simp [hj]

theorem client_foldl_drop {l : List Nat} :
    (l.foldl dropLocked s).client j = if j ∈ l then none else s.client j := by
  induction l generalizing s with
  | nil => simp
  | cons i l ih =>
    rw [List.foldl_cons, ih, client_dropLocked]
    by_cases hj : j = i
    · subst hj
      simp
    · simp [hj]

-- No request is held by two slots.
def Distinct (s : Streams) : Prop :=
  ∀ i j c d, s.client i = some c → s.client j = some d → c.req = d.req → i = j

-- Each stream that is left has been written what `f` says.
def Fed (f : Nat → CStr) (s s' : Streams) : Prop :=
  ∀ i c, s'.client i = some c → s.client i = some c ∧ s'.written c.req = s.written c.req ++ f i

theorem Fed.distinct (h : Fed f s s') (hs : s.Distinct) : s'.Distinct :=
  fun i j c d hc hd => hs i j c d (h i c hc).1 (h j d hd).1

theorem Fed.trans (h : Fed f s s') (h' : Fed g s' s'') : Fed (fun i => f i ++ g i) s s'' := by
  intro i c hc
  obtain ⟨hmid, hw'⟩ := h' i c hc
  obtain ⟨hold, hw⟩ := h i c hmid
  refine ⟨hold, ?_⟩
  rw [hw', hw, List.append_assoc]

theorem fed_dropLocked : Fed (fun _ => []) s (s.dropLocked i) := by
  intro j c hc
  rw [client_dropLocked] at hc
  split at hc
  next => cases hc
  next =>
    refine ⟨hc, ?_⟩
    rw [List.append_nil, dropLocked]
    split <;> rfl

theorem fed_sendLocked (hs : s.Distinct) (i : Nat) (buf : CStr) (sent : Bool) :
    Fed (fun j => if j = i then buf else []) s (s.sendLocked i buf sent).2 := by
  unfold sendLocked
  cases hi : s.client i with
  | none =>
    intro j c hc
    have hj : j ≠ i := by
      rintro rfl
      cases hi.symm.trans hc
    simp [hj, hc]
  | some d =>
    cases sent with
    | true =>
      intro j c hc
      have hc' : s.client j = some c := hc
      refine ⟨hc', ?_⟩
      change Function.update s.written d.req _ c.req =
        s.written c.req ++ if j = i then buf else []
      by_cases hj : j = i
      · subst hj
        obtain rfl := Option.some.inj (hi.symm.trans hc')
        rw [Function.update_self, if_pos rfl]
      · have hne : c.req ≠ d.req := fun heq => hj (hs j i c d hc' hi heq)
        rw [Function.update_of_ne hne, if_neg hj, List.append_nil]
    | false =>
      intro j c hc
      have hj : j ≠ i := by
        rintro rfl
        change (s.dropLocked j).client j = some c at hc
        rw [client_dropLocked, if_pos rfl] at hc
        cases hc
      obtain ⟨hold, hw⟩ := fed_dropLocked j c hc
      refine ⟨hold, ?_⟩
      simpa [hj] using hw

theorem fed_refl (hf : ∀ i c, s.client i = some c → f i = []) : Fed f s s := by
  intro i c hc
  rw [hf i c hc, List.append_nil]
  exact ⟨hc, rfl⟩

theorem Fed.congr (h : Fed f s s') (hfg : ∀ i c, s'.client i = some c → f i = g i) :
    Fed g s s' := by
  intro i c hc
  rw [← hfg i c hc]
  exact h i c hc

theorem fed_foldl (buf : CStr) (sent : Nat → Bool) {l : List Nat} (hl : l.Nodup)
    (hs : s.Distinct) : Fed (fun j => if j ∈ l then buf else []) s
      (l.foldl (fun s i => (s.sendLocked i buf (sent i)).2) s) := by
  induction l generalizing s with
  | nil => exact fed_refl fun _ _ _ => rfl
  | cons i l ih =>
    obtain ⟨hi, hl⟩ := List.nodup_cons.mp hl
    have hfirst := fed_sendLocked hs i buf (sent i)
    refine (hfirst.trans (ih hl (hfirst.distinct hs))).congr ?_
    intro j c _
    by_cases hj : j = i
    · subst hj
      simp [hi]
    · simp [hj]

theorem client_lt (h : s.client i = some c) : i < s.clients.length :=
  (List.getElem?_eq_some_iff.mp (slot_of_client h)).1

theorem mem_clients (h : s.client i = some c) : c ∈ s.clients.reduceOption :=
  List.reduceOption_mem_iff.mpr (List.mem_of_getElem? (slot_of_client h))

theorem exists_client (h : c ∈ s.clients.reduceOption) : ∃ i, s.client i = some c := by
  obtain ⟨i, hi⟩ := List.mem_iff_getElem?.mp (List.reduceOption_mem_iff.mp h)
  refine ⟨i, ?_⟩
  rw [client, hi]
  rfl

-- The requests that sit in a slot.
def holding (s : Streams) : List Nat :=
  s.clients.reduceOption.map Client.req

structure Settled (n : Nat) (s : Streams) : Prop where
  length : s.clients.length = n
  -- Each detached request sits in one slot or was handed back once.
  requests : (s.holding ++ s.completed).Perm (List.range s.begun)
  ages : (s.clients.reduceOption.map Client.since).Nodup
  admitted : ∀ c ∈ s.clients.reduceOption, c.since ≤ s.admitted

variable {n : Nat}

theorem Settled.distinct (h : s.Settled n) : s.Distinct := by
  intro i j c d hc hd hreq
  have hnodup : (s.holding ++ s.completed).Nodup := h.requests.nodup_iff.mpr List.nodup_range
  exact Slots.eq_of_nodup (List.nodup_append.mp hnodup).1 (slot_of_client hc) (slot_of_client hd)
    hreq

theorem Settled.req_lt (h : s.Settled n) (hc : s.client i = some c) : c.req < s.begun := by
  have hmem : c.req ∈ s.holding ++ s.completed :=
    List.mem_append_left _ (List.mem_map_of_mem (mem_clients hc))
  exact List.mem_range.mp (h.requests.mem_iff.mp hmem)

theorem settled_start (n : Nat) : (start n).Settled n where
  length := List.length_replicate
  requests := by simp [start, holding, List.reduceOption_replicate_none]
  ages := by simp [start, List.reduceOption_replicate_none]
  admitted := by simp [start, List.reduceOption_replicate_none]

theorem Settled.dropLocked (h : s.Settled n) (i : Nat) : (s.dropLocked i).Settled n := by
  cases hc : s.client i with
  | none =>
    have hsame : s.dropLocked i = s := by rw [Streams.dropLocked, hc]
    rw [hsame]
    exact h
  | some c =>
    have hdrop : s.dropLocked i = { s with
        clients := s.clients.set i none
        shut := s.shut ++ [c.fd]
        completed := s.completed ++ [c.req] } := by
      rw [Streams.dropLocked, hc]
    have hperm := Slots.perm_set_none (slot_of_client hc)
    rw [hdrop]
    exact {
      length := List.length_set.trans h.length
      requests := by
        have hback : List.Perm (c.req :: (s.clients.set i none).reduceOption.map Client.req ++
            s.completed) (List.range s.begun) :=
          ((hperm.map Client.req).symm.append_right _).trans h.requests
        rw [holding, ← List.append_assoc]
        exact (List.perm_append_singleton _ _).trans hback
      ages := (List.nodup_cons.mp ((hperm.map Client.since).nodup_iff.mp h.ages)).2
      admitted := fun d hd => h.admitted d (hperm.mem_iff.mpr (List.mem_cons_of_mem c hd)) }

theorem Settled.sendLocked (h : s.Settled n) (i : Nat) (buf : CStr) (sent : Bool) :
    (s.sendLocked i buf sent).2.Settled n := by
  unfold Streams.sendLocked
  split
  · exact h
  · split
    · exact { h with }
    · exact h.dropLocked i

@[simp] theorem begun_dropLocked : (s.dropLocked i).begun = s.begun := by
  unfold dropLocked
  split <;> rfl

@[simp] theorem admitted_dropLocked : (s.dropLocked i).admitted = s.admitted := by
  unfold dropLocked
  split <;> rfl

theorem older_eq (s : Streams) (o i : Nat) : s.older o i = o ∨ s.older o i = i := by
  unfold older
  split
  · split
    · exact .inr rfl
    · exact .inl rfl
  · exact .inl rfl

theorem oldest_lt (h : 0 < s.clients.length) : s.oldest < s.clients.length := by
  have hbound : ∀ k ≤ s.clients.length,
      (List.range k).foldl s.older 0 < s.clients.length := by
    intro k hk
    induction k with
    | zero => exact h
    | succ k ih =>
      have hprev := ih (by omega)
      rw [List.range_succ, List.foldl_append, List.foldl_cons, List.foldl_nil]
      rcases s.older_eq ((List.range k).foldl s.older 0) k with heq | heq
      · rw [heq]
        exact hprev
      · rw [heq]
        omega
  exact hbound _ (le_refl _)

-- No slot is empty.
def Full (s : Streams) : Prop :=
  ∀ i < s.clients.length, ∃ c, s.client i = some c

-- The streams were admitted so lately that the counter tells them apart.
def Recent (s : Streams) : Prop :=
  ∀ i c, s.client i = some c → c.since ≤ s.admitted ∧ s.admitted < c.since + 2 ^ 31

theorem older_since (hrecent : s.Recent) (hi : s.client i = some c) (hj : s.client j = some d) :
    ∃ b, s.client (s.older j i) = some b ∧ b.since ≤ c.since ∧ b.since ≤ d.since := by
  have hc := hrecent i c hi
  have hd := hrecent j d hj
  have hahead : ahead (UInt32.ofNat c.since) (UInt32.ofNat d.since) = (c.since : Int) - d.since :=
    ahead_ofNat (by omega) (by omega)
  unfold older
  rw [hi, hj]
  change ∃ b, s.client (if ahead _ _ < 0 then i else j) = some b ∧ _
  rw [hahead]
  split
  next hlt => exact ⟨c, hi, le_refl _, by omega⟩
  next hle => exact ⟨d, hj, by omega, le_refl _⟩

-- The search ends with the stream that was admitted first.
theorem oldest_since (hrecent : s.Recent) (hfull : s.Full) (h : 0 < s.clients.length) :
    ∃ b, s.client s.oldest = some b ∧ ∀ i c, s.client i = some c → b.since ≤ c.since := by
  have hleast : ∀ k ≤ s.clients.length, ∃ b,
      s.client ((List.range k).foldl s.older 0) = some b ∧
        ∀ i < k, ∀ c, s.client i = some c → b.since ≤ c.since := by
    intro k hk
    induction k with
    | zero =>
      obtain ⟨b, hb⟩ := hfull 0 h
      exact ⟨b, hb, fun i hi => absurd hi (Nat.not_lt_zero i)⟩
    | succ k ih =>
      obtain ⟨d, hd, hprev⟩ := ih (by omega)
      obtain ⟨c, hc⟩ := hfull k (by omega)
      obtain ⟨b, hb, hbc, hbd⟩ := older_since hrecent hc hd
      rw [List.range_succ, List.foldl_append, List.foldl_cons, List.foldl_nil]
      refine ⟨b, hb, ?_⟩
      intro i hi c' hc'
      rcases Nat.lt_succ_iff_lt_or_eq.mp hi with hlt | rfl
      · exact hbd.trans (hprev i hlt c' hc')
      · obtain rfl := Option.some.inj (hc.symm.trans hc')
        exact hbc
  obtain ⟨b, hb, hle⟩ := hleast _ (le_refl _)
  exact ⟨b, hb, fun i c hc => hle i (client_lt hc) c hc⟩

theorem claim_cases (s : Streams) :
    (∃ i, s.clients[i]? = some none ∧ s.claim = (s, i)) ∨
      s.Full ∧ s.claim = (s.dropLocked s.oldest, s.oldest) := by
  rw [claim]
  cases hfree : s.clients.findIdx? Option.isNone with
  | some i =>
    obtain ⟨hi, hnone, _⟩ := List.findIdx?_eq_some_iff_getElem.mp hfree
    refine .inl ⟨i, ?_, rfl⟩
    rw [List.getElem?_eq_getElem hi, Option.isNone_iff_eq_none.mp hnone]
  | none =>
    refine .inr ⟨?_, rfl⟩
    intro i hi
    have hsome := List.findIdx?_eq_none_iff.mp hfree s.clients[i] (List.getElem_mem hi)
    obtain ⟨c, hc⟩ := Option.isSome_iff_exists.mp (Option.isNone_eq_false_iff.mp hsome)
    refine ⟨c, ?_⟩
    rw [client, List.getElem?_eq_getElem hi, hc]
    rfl

-- What a request finds once it has claimed its slot.
structure Claimed (n : Nat) (s s' : Streams) (slot : Nat) : Prop where
  settled : s'.Settled n
  free : s'.clients[slot]? = some none
  fed : Fed (fun _ => []) s s'
  begun : s'.begun = s.begun
  admitted : s'.admitted = s.admitted

theorem claimed (h : s.Settled n) (hn : 0 < n) : Claimed n s s.claim.1 s.claim.2 := by
  obtain ⟨i, hfree, hclaim⟩ | ⟨hfull, hclaim⟩ := s.claim_cases
  · rw [hclaim]
    exact ⟨h, hfree, fed_refl fun _ _ _ => rfl, rfl, rfl⟩
  · rw [hclaim]
    obtain ⟨c, hc⟩ := hfull s.oldest (oldest_lt (h.length.symm ▸ hn))
    refine ⟨h.dropLocked _, ?_, fed_dropLocked, begun_dropLocked, admitted_dropLocked⟩
    change (s.dropLocked s.oldest).clients[s.oldest]? = some none
    rw [dropLocked, hc, List.getElem?_set_self (client_lt hc)]

theorem Settled.enter {slot : Nat} (h : s.Settled n) (hfree : s.clients[slot]? = some none)
    (fd : Nat) : (s.enter slot fd).Settled n := by
  have hperm := Slots.perm_set_some (a := (⟨s.begun, fd, s.admitted + 1⟩ : Client)) hfree
  exact {
    length := List.length_set.trans h.length
    requests := by
      have hnew : List.Perm (s.begun :: s.holding ++ s.completed) (List.range (s.begun + 1)) := by
        rw [List.range_succ]
        exact (h.requests.cons _).trans (List.perm_append_singleton _ _).symm
      exact ((hperm.map Client.req).append_right _).trans hnew
    ages := by
      refine (hperm.map Client.since).nodup_iff.mpr (List.nodup_cons.mpr ⟨?_, h.ages⟩)
      intro hmem
      obtain ⟨d, hd, hsince⟩ := List.mem_map.mp hmem
      have hle := h.admitted d hd
      change d.since = s.admitted + 1 at hsince
      omega
    admitted := by
      intro d hd
      change d.since ≤ s.admitted + 1
      rcases List.mem_cons.mp (hperm.mem_iff.mp hd) with rfl | hd
      · exact le_refl _
      · exact Nat.le_succ_of_le (h.admitted d hd) }

theorem Settled.turnAway (h : s.Settled n) : s.turnAway.Settled n :=
  { h with
    requests := by
      have hnew := h.requests.append_right [s.begun]
      rw [List.append_assoc, ← List.range_succ] at hnew
      exact hnew }

theorem client_enter {slot fd : Nat} (hfree : s.clients[slot]? = some none) :
    (s.enter slot fd).client j =
      if j = slot then some ⟨s.begun, fd, s.admitted + 1⟩ else s.client j := by
  change (s.clients.set slot _)[j]?.join = _
  rw [List.getElem?_set]
  by_cases hj : j = slot
  · subst hj
    rw [if_pos rfl, if_pos rfl, if_pos (List.getElem?_eq_some_iff.mp hfree).1]
    rfl
  · rw [if_neg (Ne.symm hj), if_neg hj]
    rfl

theorem Settled.eventsGet (h : s.Settled n) (hn : 0 < n) (begins : Bool) (fd : Nat) (sent : Bool) :
    (s.eventsGet begins fd sent).2.Settled n := by
  have hclaimed := claimed h hn
  cases begins with
  | false => exact hclaimed.settled
  | true =>
    cases sent with
    | false => exact hclaimed.settled.turnAway
    | true => exact hclaimed.settled.enter hclaimed.free fd

theorem Settled.sendAll (h : s.Settled n) (buf : CStr) (sent : Nat → Bool) :
    (s.sendAll buf sent).Settled n :=
  run_invariant (P := Settled n) (fun _ i h => h.sendLocked i buf (sent i)) h _

theorem Settled.dropAll (h : s.Settled n) : s.dropAll.Settled n :=
  run_invariant (P := Settled n) (fun _ i h => h.dropLocked i) h _

theorem begun_dropAll (s : Streams) : s.dropAll.begun = s.begun :=
  run_invariant (P := fun t : Streams => t.begun = s.begun)
    (fun _ _ h => begun_dropLocked.trans h) rfl _

theorem admitted_dropAll (s : Streams) : s.dropAll.admitted = s.admitted :=
  run_invariant (P := fun t : Streams => t.admitted = s.admitted)
    (fun _ _ h => admitted_dropLocked.trans h) rfl _

theorem counts_sendLocked (s : Streams) (i : Nat) (buf : CStr) (sent : Bool) :
    (s.sendLocked i buf sent).2.begun = s.begun ∧
      (s.sendLocked i buf sent).2.admitted = s.admitted := by
  unfold sendLocked
  split
  · exact ⟨rfl, rfl⟩
  · split
    · exact ⟨rfl, rfl⟩
    · exact ⟨begun_dropLocked, admitted_dropLocked⟩

theorem counts_sendAll (s : Streams) (buf : CStr) (sent : Nat → Bool) :
    (s.sendAll buf sent).begun = s.begun ∧ (s.sendAll buf sent).admitted = s.admitted :=
  run_invariant (P := fun t : Streams => t.begun = s.begun ∧ t.admitted = s.admitted)
    (fun t i h => ⟨(counts_sendLocked t i buf _).1.trans h.1,
      (counts_sendLocked t i buf _).2.trans h.2⟩) ⟨rfl, rfl⟩ _

theorem Settled.step (h : s.Settled n) (hn : 0 < n) (call : StreamCall) :
    (streamStep s call).Settled n := by
  cases call with
  | publish mem event json sent =>
    rw [streamStep]
    split
    · exact h.sendAll _ sent
    · exact h
  | send client mem event json sent =>
    rw [streamStep]
    split
    · exact h.sendLocked client _ sent
    · exact h
  | ping sent => exact h.sendAll _ sent
  | connect begins fd sent => exact h.eventsGet hn begins fd sent
  | shutdown => exact h.dropAll

theorem settled_run (hn : 0 < n) (calls : List StreamCall) :
    (run streamStep (start n) calls).Settled n :=
  run_invariant (P := Settled n) (fun _ call h => h.step hn call) (settled_start n) calls

theorem fed_sendAll (hs : s.Distinct) (buf : CStr) (sent : Nat → Bool)
    (hc : (s.sendAll buf sent).client i = some c) :
    s.client i = some c ∧ (s.sendAll buf sent).written c.req = s.written c.req ++ buf := by
  obtain ⟨hold, hw⟩ := fed_foldl buf sent List.nodup_range hs i c hc
  have hi : i ∈ List.range s.clients.length := List.mem_range.mpr (client_lt hold)
  exact ⟨hold, hw.trans (by simp only [if_pos hi])⟩

-- A stream that a call leaves was there before and has been written the chunk
-- of the call, or the call has just admitted it.
theorem step_client (h : s.Settled n) (hn : 0 < n) {call : StreamCall}
    (hc : (streamStep s call).client i = some c) :
    s.client i = some c ∧
        (streamStep s call).written c.req = s.written c.req ++ call.chunk i ∨
      call = .connect true c.fd true ∧ c.req = s.begun ∧ c.since = s.admitted + 1 ∧
        (streamStep s call).written c.req = hello := by
  cases call with
  | publish mem event json sent =>
    left
    cases hframe : frame mem event json with
    | ok buf =>
      rw [streamStep, hframe] at hc ⊢
      rw [StreamCall.chunk, hframe]
      exact fed_sendAll h.distinct buf sent hc
    | error e =>
      rw [streamStep, hframe] at hc ⊢
      rw [StreamCall.chunk, hframe]
      exact ⟨hc, (List.append_nil _).symm⟩
  | send client mem event json sent =>
    left
    cases hframe : frame mem event json with
    | ok buf =>
      rw [streamStep, hframe] at hc ⊢
      rw [StreamCall.chunk, hframe]
      obtain ⟨hold, hw⟩ := fed_sendLocked h.distinct client buf sent i c hc
      refine ⟨hold, hw.trans ?_⟩
      simp [Except.toOption, eq_comm]
    | error e =>
      rw [streamStep, hframe] at hc ⊢
      rw [StreamCall.chunk, hframe]
      exact ⟨hc, by simp [Except.toOption]⟩
  | ping sent => exact .inl (fed_sendAll h.distinct _ sent hc)
  | connect begins fd sent =>
    have hclaimed := claimed h hn
    cases begins with
    | false => exact .inl (hclaimed.fed i c hc)
    | true =>
      cases sent with
      | false => exact .inl (hclaimed.fed i c hc)
      | true =>
        change (s.claim.1.enter s.claim.2 fd).client i = some c at hc
        rw [client_enter hclaimed.free] at hc
        split at hc
        next hi =>
          obtain rfl := Option.some.inj hc
          refine .inr ⟨rfl, hclaimed.begun, by rw [hclaimed.admitted], ?_⟩
          exact Function.update_self ..
        next hi =>
          left
          obtain ⟨hold, hw⟩ := hclaimed.fed i c hc
          refine ⟨hold, ?_⟩
          have hne : c.req ≠ s.claim.1.begun := (hclaimed.settled.req_lt hc).ne
          change Function.update s.claim.1.written s.claim.1.begun hello c.req = _
          rw [Function.update_of_ne hne]
          exact hw
  | shutdown =>
    change s.dropAll.client i = some c at hc
    rw [dropAll, client_foldl_drop] at hc
    split at hc
    next => cases hc
    next hi => exact absurd (List.mem_range.mpr (client_lt hc)) hi

-- What is written on a stream that is still held.
theorem stream_text (hn : 0 < n) {calls : List StreamCall}
    (hc : (run streamStep (start n) calls).client i = some c) :
    ∃ earlier later, calls = earlier ++ .connect true c.fd true :: later ∧
      (run streamStep (start n) earlier).begun = c.req ∧
      (run streamStep (start n) calls).written c.req =
        hello ++ later.flatMap (StreamCall.chunk i) := by
  induction calls using List.reverseRecOn with
  | nil =>
    rw [run_nil, client, start, List.getElem?_replicate] at hc
    split at hc <;> cases hc
  | append_singleton calls call ih =>
    have hlast : run streamStep (start n) (calls ++ [call]) =
        streamStep (run streamStep (start n) calls) call := by
      simp [run]
    rw [hlast] at hc ⊢
    rcases step_client (settled_run hn calls) hn hc with ⟨hold, hw⟩ | ⟨rfl, hreq, _, hw⟩
    · obtain ⟨earlier, later, hsplit, hbegun, htext⟩ := ih hold
      refine ⟨earlier, later ++ [call], by rw [hsplit]; simp, hbegun, ?_⟩
      rw [hw, htext, List.flatMap_append, List.append_assoc]
      simp
    · exact ⟨calls, [], rfl, hreq.symm, by rw [hw]; simp⟩

theorem read_hello : hello.foldl EventStream.Reader.read (EventStream.idle []) =
    EventStream.idle [] :=
  @EventStream.idle_skip (lit "retry") (lit "3000") _ (by decide) (by decide) (by decide)
    (by decide) (by decide)

theorem read_framed {mem : Bool} {event json : Option CStr}
    (hplain : StreamCall.PlainEvent event json) (evs : List (CStr × CStr)) :
    ((frame mem event json).toOption.getD []).foldl EventStream.Reader.read
        (EventStream.idle evs) = EventStream.idle (evs ++ StreamCall.framed mem event json) := by
  cases event with
  | none => simp [frame, StreamCall.framed, Except.toOption]
  | some event =>
    cases json with
    | none => simp [frame, StreamCall.framed, Except.toOption]
    | some json =>
      cases mem with
      | false => simp [frame, StreamCall.framed, Except.toOption]
      | true =>
        obtain ⟨hne, hevent, hjson⟩ := hplain event rfl json rfl
        have hread := @EventStream.idle_event evs _ _ hevent hjson hne
        simpa [frame, StreamCall.framed, Except.toOption, formatEvent, lit] using hread

theorem read_chunk {call : StreamCall} (hplain : call.Plain) (i : Nat)
    (evs : List (CStr × CStr)) :
    (call.chunk i).foldl EventStream.Reader.read (EventStream.idle evs) =
      EventStream.idle (evs ++ call.heard i) := by
  cases call with
  | publish mem event json sent => exact read_framed hplain evs
  | send client mem event json sent =>
    rw [StreamCall.chunk, StreamCall.heard]
    split
    · exact read_framed hplain evs
    · simp
  | ping sent =>
    rw [StreamCall.heard, List.append_nil]
    exact @EventStream.idle_skip [] (lit "ping") _ (by decide) (by decide) (by decide)
      (by decide) (by decide)
  | connect begins fd sent => simp [StreamCall.chunk, StreamCall.heard]
  | shutdown => simp [StreamCall.chunk, StreamCall.heard]

theorem read_chunks {calls : List StreamCall} (hplain : ∀ call ∈ calls, call.Plain) (i : Nat)
    (evs : List (CStr × CStr)) :
    (calls.flatMap (StreamCall.chunk i)).foldl EventStream.Reader.read (EventStream.idle evs) =
      EventStream.idle (evs ++ calls.flatMap (StreamCall.heard i)) := by
  induction calls generalizing evs with
  | nil => simp
  | cons call calls ih =>
    rw [List.flatMap_cons, List.foldl_append, read_chunk (hplain call List.mem_cons_self),
      ih fun c hc => hplain c (List.mem_cons_of_mem call hc), List.append_assoc,
      List.flatMap_cons]

-- What the browser behind a stream has read are the events of the calls since
-- the stream was admitted, in their order.
theorem stream_events (hn : 0 < n) {calls : List StreamCall}
    (hplain : ∀ call ∈ calls, call.Plain)
    (hc : (run streamStep (start n) calls).client i = some c) :
    ∃ earlier later, calls = earlier ++ .connect true c.fd true :: later ∧
      (run streamStep (start n) earlier).begun = c.req ∧
      EventStream.events ((run streamStep (start n) calls).written c.req) =
        later.flatMap (StreamCall.heard i) := by
  obtain ⟨earlier, later, hsplit, hbegun, htext⟩ := stream_text hn hc
  refine ⟨earlier, later, hsplit, hbegun, ?_⟩
  have hlater : ∀ call ∈ later, call.Plain := by
    intro call hcall
    apply hplain
    rw [hsplit]
    exact List.mem_append_right _ (List.mem_cons_of_mem _ hcall)
  rw [htext, EventStream.events, EventStream.reads, List.foldl_append, read_hello,
    read_chunks hlater, List.nil_append]
  rfl

-- One slot: a page opens, hears of the link, is pinged and hears of it again.
def browse : List StreamCall :=
  [.connect true 54 true, .publish true (some (lit "wifi")) (some (lit "1")) fun _ => true,
    .ping fun _ => true, .send 0 true (some (lit "sk")) (some (lit "2")) true]

theorem browse_plain : ∀ call ∈ browse, call.Plain := by
  intro call hcall
  simp only [browse, List.mem_cons, List.not_mem_nil, or_false] at hcall
  rcases hcall with rfl | rfl | rfl | rfl
  · trivial
  · rintro _ ⟨⟩ _ ⟨⟩
    decide
  · trivial
  · rintro _ ⟨⟩ _ ⟨⟩
    decide

theorem browse_events : ∃ earlier later,
    browse = earlier ++ .connect true 54 true :: later ∧
      (run streamStep (start 1) earlier).begun = 0 ∧
      EventStream.events ((run streamStep (start 1) browse).written 0) =
        later.flatMap (StreamCall.heard 0) :=
  stream_events (i := 0) (c := ⟨0, 54, 1⟩) Nat.one_pos browse_plain rfl

-- Each request that was detached sits in one slot or was handed back once, and
-- a shutdown hands all of them back.
theorem requests_settled (hn : 0 < n) (calls : List StreamCall) :
    ((run streamStep (start n) calls).holding ++
        (run streamStep (start n) calls).completed).Perm
      (List.range (run streamStep (start n) calls).begun) ∧
    (run streamStep (start n) (calls ++ [.shutdown])).completed.Perm
      (List.range (run streamStep (start n) calls).begun) := by
  have hsettled := settled_run hn calls
  refine ⟨hsettled.requests, ?_⟩
  have hlast : run streamStep (start n) (calls ++ [.shutdown]) =
      (run streamStep (start n) calls).dropAll := by
    simp [run, streamStep]
  have hempty : (run streamStep (start n) calls).dropAll.holding = [] := by
    rw [holding, List.map_eq_nil_iff, List.eq_nil_iff_forall_not_mem]
    intro c hc
    obtain ⟨i, hi⟩ := exists_client hc
    rw [dropAll, client_foldl_drop] at hi
    split at hi
    next => cases hi
    next hnot => exact hnot (List.mem_range.mpr (client_lt hi))
  have hall := hsettled.dropAll.requests
  rw [hempty, List.nil_append] at hall
  rw [hlast, ← begun_dropAll]
  exact hall

theorem browse_requests :
    ((run streamStep (start 1) browse).holding ++
        (run streamStep (start 1) browse).completed).Perm
      (List.range (run streamStep (start 1) browse).begun) ∧
    (run streamStep (start 1) (browse ++ [.shutdown])).completed.Perm
      (List.range (run streamStep (start 1) browse).begun) :=
  requests_settled Nat.one_pos browse

-- A call that leaves a stream in its slot.
def Keeps (i : Nat) (c : Client) (s : Streams) : StreamCall → Prop
  | .publish mem event json sent => StreamCall.framed mem event json ≠ [] → sent i = true
  | .send client mem event json sent =>
    client = i → StreamCall.framed mem event json ≠ [] → sent = true
  | .ping sent => sent i = true
  | .connect _ _ _ => s.Full → ∃ k d, s.client k = some d ∧ d.since < c.since
  | .shutdown => False

theorem framed_ne_nil {mem : Bool} {event json : Option CStr} :
    StreamCall.framed mem event json ≠ [] ↔ ∃ buf, frame mem event json = .ok buf := by
  cases event with
  | none => simp [frame, StreamCall.framed]
  | some event =>
    cases json with
    | none => simp [frame, StreamCall.framed]
    | some json => cases mem <;> simp [frame, StreamCall.framed]

theorem sendAll_keeps {sent : Nat → Bool} (hc : s.client i = some c) :
    (s.sendAll buf sent).client i = some c ↔ sent i = true := by
  rw [sendAll, client_foldl_send]
  cases hs : sent i with
  | true => simp [hc]
  | false => simp [List.mem_range.mpr (client_lt hc)]

theorem connect_keeps (h : s.Settled n) (hn : 0 < n) (hrecent : s.Recent) {begins sent : Bool}
    {fd : Nat} (hc : s.client i = some c) :
    (streamStep s (.connect begins fd sent)).client i = some c ↔
      (s.Full → ∃ k d, s.client k = some d ∧ d.since < c.since) := by
  have hclaimed := claimed h hn
  -- whatever becomes of the request, it displaces what it has claimed only
  have hafter : (streamStep s (.connect begins fd sent)).client i = some c ↔
      s.claim.1.client i = some c := by
    cases begins with
    | false => exact Iff.rfl
    | true =>
      cases sent with
      | false => exact Iff.rfl
      | true =>
        change (s.claim.1.enter s.claim.2 fd).client i = some c ↔ _
        rw [client_enter hclaimed.free]
        split
        next hi =>
          have hslot : s.claim.1.client i = none := by
            rw [client, hi, hclaimed.free]
            rfl
          rw [hslot]
          refine ⟨?_, fun hnone => by cases hnone⟩
          intro hnew
          have hreq : c.req = s.claim.1.begun :=
            (congrArg Client.req (Option.some.inj hnew)).symm
          have hlt := h.req_lt hc
          rw [hreq, hclaimed.begun] at hlt
          exact absurd hlt (lt_irrefl _)
        next => exact Iff.rfl
  rw [hafter]
  obtain ⟨k, hfree, hclaim⟩ | ⟨hfull, hclaim⟩ := s.claim_cases
  · rw [hclaim]
    refine iff_of_true hc fun hfull => ?_
    obtain ⟨d, hd⟩ := hfull k (List.getElem?_eq_some_iff.mp hfree).1
    rw [client, hfree] at hd
    cases hd
  · obtain ⟨b, hb, hleast⟩ := oldest_since hrecent hfull (h.length.symm ▸ hn)
    rw [hclaim]
    change (s.dropLocked s.oldest).client i = some c ↔ _
    rw [client_dropLocked]
    by_cases hi : i = s.oldest
    · subst hi
      obtain rfl := Option.some.inj (hb.symm.trans hc)
      rw [if_pos rfl]
      refine ⟨fun hnone => (by cases hnone), fun hearlier => ?_⟩
      obtain ⟨k, d, hd, hlt⟩ := hearlier hfull
      exact absurd (hleast k d hd) (not_le_of_gt hlt)
    · rw [if_neg hi]
      refine iff_of_true hc fun _ => ⟨s.oldest, b, hb, lt_of_le_of_ne (hleast i c hc) ?_⟩
      intro hsince
      exact hi (Slots.eq_of_nodup h.ages (slot_of_client hc) (slot_of_client hb) hsince.symm)

theorem step_keeps (h : s.Settled n) (hn : 0 < n) (hrecent : s.Recent)
    (hc : s.client i = some c) (call : StreamCall) :
    (streamStep s call).client i = some c ↔ Keeps i c s call := by
  cases call with
  | publish mem event json sent =>
    rw [Keeps, framed_ne_nil, streamStep]
    cases hframe : frame mem event json with
    | ok buf =>
      refine (sendAll_keeps hc).trans ⟨fun hsent _ => hsent, ?_⟩
      exact fun hsent => hsent ⟨buf, rfl⟩
    | error e => exact iff_of_true hc (by simp)
  | send client mem event json sent =>
    rw [Keeps, framed_ne_nil, streamStep]
    cases hframe : frame mem event json with
    | ok buf =>
      change (s.sendLocked client buf sent).2.client i = some c ↔ _
      rw [client_sendLocked]
      cases sent with
      | true => simp [hc]
      | false =>
        by_cases hi : i = client
        · simp [hi]
        · simp [hi, hc, Ne.symm hi]
    | error e => exact iff_of_true hc (by simp)
  | ping sent => exact sendAll_keeps hc
  | connect begins fd sent => exact connect_keeps h hn hrecent hc
  | shutdown =>
    change s.dropAll.client i = some c ↔ False
    rw [dropAll, client_foldl_drop, if_pos (List.mem_range.mpr (client_lt hc))]
    simp

theorem counts_step (hn : 0 < n) (h : s.Settled n) (call : StreamCall) :
    s.begun ≤ (streamStep s call).begun ∧ s.admitted ≤ (streamStep s call).admitted := by
  cases call with
  | publish mem event json sent =>
    rw [streamStep]
    split
    · exact ⟨(counts_sendAll ..).1.ge, (counts_sendAll ..).2.ge⟩
    · exact ⟨le_refl _, le_refl _⟩
  | send client mem event json sent =>
    rw [streamStep]
    split
    · exact ⟨(counts_sendLocked ..).1.ge, (counts_sendLocked ..).2.ge⟩
    · exact ⟨le_refl _, le_refl _⟩
  | ping sent => exact ⟨(counts_sendAll ..).1.ge, (counts_sendAll ..).2.ge⟩
  | connect begins fd sent =>
    have hclaimed := claimed h hn
    have hbegun := hclaimed.begun
    have hadmitted := hclaimed.admitted
    cases begins with
    | false => exact ⟨hbegun.ge, hadmitted.ge⟩
    | true =>
      cases sent with
      | false => exact ⟨hbegun.ge.trans (Nat.le_succ _), hadmitted.ge⟩
      | true => exact ⟨hbegun.ge.trans (Nat.le_succ _), hadmitted.ge.trans (Nat.le_succ _)⟩
  | shutdown => exact ⟨(begun_dropAll s).ge, (admitted_dropAll s).ge⟩

theorem admitted_run (hn : 0 < n) (h : s.Settled n) (calls : List StreamCall) :
    s.admitted ≤ (run streamStep s calls).admitted := by
  induction calls generalizing s with
  | nil => exact le_refl _
  | cons call calls ih => exact (counts_step hn h call).2.trans (ih (h.step hn call))

theorem recent_of_admitted (h : s.Settled n) (hlt : s.admitted < 2 ^ 31) : s.Recent := by
  intro i c hc
  exact ⟨h.admitted c (mem_clients hc), by omega⟩

-- A stream that has left its slot does not come back.
theorem gone_run (hn : 0 < n) (h : s.Settled n) (hreq : c.req < s.begun)
    (hgone : s.client i ≠ some c) (calls : List StreamCall) :
    (run streamStep s calls).client i ≠ some c := by
  induction calls generalizing s with
  | nil => exact hgone
  | cons call calls ih =>
    refine ih (h.step hn call) (hreq.trans_le (counts_step hn h call).1) ?_
    intro hc
    rcases step_client h hn hc with ⟨hold, _⟩ | ⟨_, heq, _⟩
    · exact hgone hold
    · omega

-- A stream is lost by a chunk that does not go out, by a shutdown, and to a
-- connection that finds the table full and no stream that was admitted earlier;
-- by nothing else.
theorem stream_kept_iff (hn : 0 < n) {calls later : List StreamCall}
    (hadmitted : (run streamStep (start n) (calls ++ later)).admitted < 2 ^ 31)
    (hc : (run streamStep (start n) calls).client i = some c) :
    (run streamStep (start n) (calls ++ later)).client i = some c ↔
      Along streamStep (Keeps i c) (run streamStep (start n) calls) later := by
  have hsettled := settled_run hn calls
  have hwhole : run streamStep (start n) (calls ++ later) =
      run streamStep (run streamStep (start n) calls) later := List.foldl_append
  rw [hwhole] at hadmitted ⊢
  clear hwhole
  generalize run streamStep (start n) calls = s at hadmitted hc hsettled
  induction later generalizing s with
  | nil => exact iff_of_true hc trivial
  | cons call later ih =>
    have hnext := hsettled.step hn call
    have hlt : s.admitted < 2 ^ 31 :=
      ((counts_step hn hsettled call).2.trans (admitted_run hn hnext later)).trans_lt hadmitted
    have hstep := step_keeps hsettled hn (recent_of_admitted hsettled hlt) hc call
    rw [run_cons, Along, ← hstep]
    by_cases hkept : (streamStep s call).client i = some c
    · exact (ih _ hadmitted hkept hnext).trans (and_iff_right hkept).symm
    · have hreq := (hsettled.req_lt hc).trans_le (counts_step hn hsettled call).1
      exact iff_of_false (gone_run hn hnext hreq hkept later) fun h => hkept h.1

-- A second page takes the only slot from the first.
theorem browse_kept : (run streamStep (start 1) (browse ++ [.connect true 55 true])).client 0 =
      some ⟨0, 54, 1⟩ ↔
    Along streamStep (Keeps 0 ⟨0, 54, 1⟩) (run streamStep (start 1) browse)
      [.connect true 55 true] :=
  stream_kept_iff Nat.one_pos (by decide) rfl

end Streams

end Espos.Httpd
