import Espos.Lib.Run
import Espos.Sk.Select.MergeSound

-- The server table from round to round.

namespace Espos.Sk.Select

open Espos.Text
open Espos.Run

-- The answers have an address each, and one self URN for an address.
structure Answers (answers : List Discovered) : Prop where
  host : ∀ d ∈ answers, d.host.chars ≠ []
  self : ∀ c ∈ answers, ∀ d ∈ answers, c.addr = d.addr → c.self = d.self

namespace Servers

variable (s : Servers)

-- What a `CMD_CONFIG` does to the table, with the settings `load_cfg` read. The
-- interval is in seconds.
def config (discoveryEnabled hasHost : Bool) (interval : UInt32) (t : UInt32) : Servers :=
  let s := { s with discoverIntervalMs := interval * 1000 }
  if !discoveryEnabled then { s with servers := [] }
  else if !hasHost then s.pruneStaleServers t
  else s

def isCurrent (d : Discovered) : Bool :=
  strcmp d.host.chars ((s.server.map fun srv => srv.host.chars).getD []) == .eq &&
    d.port == (s.server.map Token.Server.port).getD 0

def avoided (t : UInt32) (avoidUntilMs : UInt32) : Bool :=
  avoidUntilMs != 0 && decide (0 < (avoidUntilMs - t).toInt32)

-- `maybe_rotate_unreachable` for a discovered server that cannot be reached, up
-- to the choice of another one. `avoidMs` is what `at` makes of five minutes.
def rotateUnreachable (t avoidMs : UInt32) : Servers :=
  if s.servers.any (fun d => !s.isCurrent d.1 && !avoided t d.2) then
    { s with servers := s.servers.map fun d => if s.isCurrent d.1 then (d.1, avoidMs) else d }
  else s

-- What changes the table or the server in use, whichever `select_server` takes.
inductive Event where
  | runDiscovery (st : Token.Store) (answers : List Discovered) (t : UInt32)
  | config (discoveryEnabled hasHost : Bool) (interval : UInt32) (t : UInt32)
  | rotateUnreachable (t avoidMs : UInt32)
  | selectServer (server : Option Token.Server)

def step (cap : Nat) (s : Servers) : Event → Servers
  | .runDiscovery st answers t => s.runDiscovery cap st answers t
  | .config discoveryEnabled hasHost interval t => s.config discoveryEnabled hasHost interval t
  | .rotateUnreachable t avoidMs => s.rotateUnreachable t avoidMs
  | .selectServer server => { s with server := server }

def Heard : Event → Prop
  | .runDiscovery _ answers _ => Answers answers
  | _ => True

structure Kept (cap : Nat) (s : Servers) : Prop where
  size : s.servers.length ≤ cap
  listed : Listed (s.servers.map Prod.fst)

variable {s : Servers} {cap : Nat} {a : Anchor} {found answers : List Discovered} {d : Discovered}

-- What the answers come to before the merge.
def foundOf (s : Servers) (cap : Nat) (st : Token.Store) (answers : List Discovered) :
    List Discovered :=
  answers.foldl (discAdd cap (some (s.keepOf (storeAnchor st)))) []

-- What the merge of the round is given.
def roundIn (s : Servers) (cap : Nat) (st : Token.Store) (answers : List Discovered)
    (t : UInt32) : MergeIn :=
  (s.anchorNoteAnswers (storeAnchor st) (s.foundOf cap st answers)).mergeInOf (storeAnchor st)
    (s.foundOf cap st answers) t

theorem servers_runDiscovery (s : Servers) (cap : Nat) (st : Token.Store)
    (answers : List Discovered) (t : UInt32) :
    (s.runDiscovery cap st answers t).servers = (s.roundIn cap st answers t).mergeServers cap := rfl

theorem servers_anchorNoteAnswers (s : Servers) (a : Anchor) (found : List Discovered) :
    (s.anchorNoteAnswers a found).servers = s.servers := by
  simp only [anchorNoteAnswers]
  split
  · rfl
  · split <;> split <;> rfl

theorem servers_roundIn (s : Servers) (cap : Nat) (st : Token.Store) (answers : List Discovered)
    (t : UInt32) : (s.roundIn cap st answers t).servers = s.servers.map Prod.fst := by
  rw [MergeIn.servers, roundIn, mergeInOf, servers_anchorNoteAnswers]

theorem collected_foundOf (hcap : 1 ≤ cap) (hanswers : Answers answers) (st : Token.Store) :
    Collected (s.keepOf (storeAnchor st)) cap answers (s.foundOf cap st answers) := by
  apply Collected.fold collected_nil hcap
  intro c hc d hd hsame
  exact hanswers.self c hc d hd (sameAddr_iff.mp hsame).2

theorem listed_of_collected {keep : Keep} (hanswers : Answers answers)
    (h : Collected keep cap answers found) : Listed found where
  host := fun d hd => hanswers.host d (h.mem hd)
  addr := by
    rw [List.Nodup, List.pairwise_map]
    apply h.apart.imp_of_mem
    intro a b _ hb hapart
    exact hapart (hanswers.host b (h.mem hb))

theorem kept_runDiscovery (h : s.Kept cap) (hcap : 1 ≤ cap) (hanswers : Answers answers)
    (st : Token.Store) (t : UInt32) : (s.runDiscovery cap st answers t).Kept cap := by
  have hfound : Listed (s.roundIn cap st answers t).found :=
    listed_of_collected hanswers (collected_foundOf hcap hanswers st)
  have htable : Listed (s.roundIn cap st answers t).servers := by
    rw [servers_roundIn]
    exact h.listed
  constructor
  · rw [servers_runDiscovery, MergeIn.mergeServers_eq htable]
    exact List.length_take_le _ _
  · rw [servers_runDiscovery, MergeIn.mergeServers_eq htable, List.map_take]
    exact (MergeIn.listed_merged htable hfound).sublist (List.take_sublist cap _)

theorem kept_pruneStaleServers (h : s.Kept cap) (t : UInt32) :
    (s.pruneStaleServers t).Kept cap where
  size := (List.length_filter_le _ _).trans h.size
  listed := h.listed.sublist (List.filter_sublist.map Prod.fst)

theorem kept_config (h : s.Kept cap) (discoveryEnabled hasHost : Bool) (interval t : UInt32) :
    (s.config discoveryEnabled hasHost interval t).Kept cap := by
  have hload : Kept cap { s with discoverIntervalMs := interval * 1000 } := ⟨h.size, h.listed⟩
  simp only [config]
  split
  · exact ⟨Nat.zero_le cap, by simp, by simp⟩
  · split
    · exact kept_pruneStaleServers hload t
    · exact hload

theorem kept_rotateUnreachable (h : s.Kept cap) (t avoidMs : UInt32) :
    (s.rotateUnreachable t avoidMs).Kept cap := by
  rw [rotateUnreachable]
  split
  · have hfst : (Prod.fst ∘ fun d : Discovered × UInt32 =>
        if s.isCurrent d.1 then (d.1, avoidMs) else d) = Prod.fst := by
      funext d
      simp only [Function.comp]
      split <;> rfl
    refine ⟨?_, ?_⟩
    · simp only [List.length_map]
      exact h.size
    · simp only [List.map_map, hfst]
      exact h.listed
  · exact h

theorem kept_step (hcap : 1 ≤ cap) (h : s.Kept cap) (e : Event) (hheard : Heard e) :
    (s.step cap e).Kept cap := by
  cases e with
  | runDiscovery st answers t => exact kept_runDiscovery h hcap hheard st t
  | config discoveryEnabled hasHost interval t =>
    exact kept_config h discoveryEnabled hasHost interval t
  | rotateUnreachable t avoidMs => exact kept_rotateUnreachable h t avoidMs
  | selectServer server => exact ⟨h.size, h.listed⟩

-- An address is never listed twice, and there is room for all that is.
theorem kept_run (hcap : 1 ≤ cap) (hstart : s.Kept cap) {es : List Event}
    (hheard : ∀ e ∈ es, Heard e) : (run (step cap) s es).Kept cap :=
  run_invariant_of_along (P := Kept cap) (fun _ e h hc => kept_step hcap h e hc) hstart
    (along_of_forall hheard)

-- Among any number of answers, that of the anchored server is found.
theorem exists_anchor_of_collected {keep : Keep} (h : Collected keep cap answers found)
    (hd : d ∈ answers) (hanchor : isAnchor d keep.anchor = true) :
    ∃ f ∈ found, isAnchor f keep.anchor = true := by
  obtain ⟨f, hf, _, hle⟩ := h.covers d hd (Or.inl hanchor)
  refine ⟨f, hf, ?_⟩
  by_contra hnot
  simp [Keep.rank, hanchor, hnot] at hle

-- A round in which the anchored server answers leaves it in the table, heard just now.
theorem anchored_listed (hcap : 1 ≤ cap) (h : s.Kept cap) (hanswers : Answers answers)
    (st : Token.Store) (t : UInt32) (hd : d ∈ answers)
    (hanchor : isAnchor d (storeAnchor st) = true) :
    ∃ o ∈ (s.runDiscovery cap st answers t).servers, o.1.addr = d.addr ∧ o.1.seenMs = t := by
  have hcollected := collected_foundOf (s := s) hcap hanswers st
  obtain ⟨f, hf, hf'⟩ := exists_anchor_of_collected hcollected hd hanchor
  have htable : Listed (s.roundIn cap st answers t).servers := by
    rw [servers_roundIn]
    exact h.listed
  have hround : s.roundIn cap st answers t =
      (s.anchorNoteAnswers (storeAnchor st) (s.roundIn cap st answers t).found).mergeInOf
        (storeAnchor st) (s.roundIn cap st answers t).found t := rfl
  obtain ⟨r, hres, hr⟩ :=
    reserved_of_anchor hround (listed_of_collected hanswers hcollected) hf hf'
  refine ⟨r, MergeIn.reserved_mem_mergeServers htable hcap hres, ?_, ?_⟩
  · have haddr : ∀ d, isAnchor d (storeAnchor st) = true →
        d.addr = ((storeAnchor st).host, (storeAnchor st).port) :=
      fun d hd => @Keep.addr_of_isAnchor d (s.keepOf (storeAnchor st)) hd
    rw [hr]
    exact (haddr f hf').trans (haddr d hanchor).symm
  · rw [hr]
    rfl

-- Whatever happened to the table before.
theorem table_sound_run (hcap : 1 ≤ cap) (hstart : s.Kept cap) {es : List Event}
    (hheard : ∀ e ∈ es, Heard e) :
    (run (step cap) s es).Kept cap ∧
      ∀ answers st t d, Answers answers → d ∈ answers → isAnchor d (storeAnchor st) = true →
        ∃ o ∈ ((run (step cap) s es).runDiscovery cap st answers t).servers,
          o.1.addr = d.addr ∧ o.1.seenMs = t := by
  have hkept := kept_run hcap hstart hheard
  refine ⟨hkept, ?_⟩
  intro answers st t d hanswers hd hanchor
  exact anchored_listed hcap hkept hanswers st t hd hanchor

-- A device whose token is of the server at 10.0.0.3, before its first round.
def paired : Token.Store :=
  { Token.Store.blank with
    token := .print (lit "t")
    tokenHost := .print (lit "10.0.0.3")
    tokenPort := 3000
    tokenSelf := .print (lit "urn:c") }

def fresh : Servers :=
  ⟨[], 60000, none, .empty, 0, 0⟩

-- Two servers fill the table, the one in use cannot be reached and the settings are read again.
def twins : List Event :=
  [.runDiscovery paired [.answer "10.0.0.1" 3000 "urn:a" 0, .answer "10.0.0.2" 3000 "urn:b" 0] 5000,
    .selectServer (some ⟨.print (lit "10.0.0.1"), 3000, false, .empty, false⟩),
    .rotateUnreachable 9000 309000,
    .config true false 30 20000]

theorem table_sound_run_full :
    (run (step 2) fresh twins).servers.length = 2 ∧ (run (step 2) fresh twins).Kept 2 ∧
      ∃ o ∈ ((run (step 2) fresh twins).runDiscovery 2 paired
          [.answer "10.0.0.1" 3000 "urn:a" 0, .answer "10.0.0.2" 3000 "urn:b" 0,
            .answer "10.0.0.3" 3000 "urn:c" 0] 35000).servers,
        o.1.addr = (lit "10.0.0.3", 3000) ∧ o.1.seenMs = 35000 := by
  have hheard : ∀ e ∈ twins, Heard e := by
    simp only [twins, List.forall_mem_cons, List.not_mem_nil, false_implies, implies_true, and_true,
      Heard]
    exact ⟨by decide, by decide⟩
  have hstart : fresh.Kept 2 := ⟨by decide, by decide, by decide⟩
  obtain ⟨hkept, hround⟩ := table_sound_run (by decide) hstart hheard
  refine ⟨by decide, hkept, ?_⟩
  exact hround _ paired 35000 (.answer "10.0.0.3" 3000 "urn:c" 0) ⟨by decide, by decide⟩
    (by decide) (by decide)

end Servers

end Espos.Sk.Select
