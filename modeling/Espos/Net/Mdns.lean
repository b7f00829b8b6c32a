import Mathlib.Data.List.Nodup
import Espos.Lib.Run
import Espos.Lib.Lists

-- `mdns.c`: the responder is started by its callers, and the link it answers on
-- is followed by a handler of the event loop.

namespace Espos.Net

-- An event in the loop's queue. The number of the link is not in the code.
inductive LinkEvent
  | networkUp (link : Nat)
  | networkDown
deriving DecidableEq

def LinkEvent.isUp : LinkEvent → Bool
  | .networkUp _ => true
  | .networkDown => false

def LinkEvent.link? : LinkEvent → Option Nat
  | .networkUp link => some link
  | .networkDown => none

-- Where a task is in `espos_mdns_start`. The link it has seen is only numbered
-- here.
inductive StartPc
  | out
  | asksUp
  | inits
  | subscribes
  | raises
  | looks
  | marks (link : Nat)
  | posts (link : Nat)
deriving DecidableEq

structure Mdns where
  up : Bool
  netUp : Bool
  subscribed : Bool
  -- What espos_net says, and what the loop has still to deliver.
  link : Bool
  events : List LinkEvent
  -- The handler has left its locked section and posts.
  handler : Option Nat
  starts : Nat → StartPc
  -- The MDNS_READYs posted, each with the link it is for.
  ready : List Nat
  -- Not in the code: how many links there were; how many NETWORK_UPs were
  -- delivered, and whether the last event was one; how many when `up` was first
  -- set; the start that has seen that link; and the links there were while the
  -- responder was up.
  links : Nat
  handled : Nat
  lastUp : Bool
  before : Nat
  seenBy : Option Nat
  owed : List Nat

inductive MdnsStep
  | comesUp
  | goesDown
  | moves
  | delivers
  | handlerPosts
  -- `task` goes on in `espos_mdns_start`; `ok` is what the responder answers.
  | start (task : Nat) (ok : Bool)
deriving DecidableEq

namespace Mdns

def boot : Mdns where
  up := false
  netUp := false
  subscribed := false
  link := false
  events := []
  handler := none
  starts := fun _ => .out
  ready := []
  links := 0
  handled := 0
  lastUp := false
  before := 0
  seenBy := none
  owed := []

-- A new link, and what is queued for it.
def newLink (s : Mdns) (events : List LinkEvent) : Mdns :=
  { s with
    link := true
    links := s.links + 1
    events := s.events ++ events
    owed := if s.up then s.owed ++ [s.links + 1] else s.owed }

def comesUp (s : Mdns) : Mdns :=
  if s.link then s else s.newLink [.networkUp (s.links + 1)]

def goesDown (s : Mdns) : Mdns :=
  if s.link then { s with link := false, events := s.events ++ [.networkDown] } else s

-- The default route changes to another interface.
def moves (s : Mdns) : Mdns :=
  if s.link then s.newLink [.networkDown, .networkUp (s.links + 1)] else s

-- The locked section of `on_network`.
def onNetwork (s : Mdns) (e : LinkEvent) : Mdns :=
  { s with netUp := e.isUp, handler := if s.up then e.link? else none }

def delivered (s : Mdns) (e : LinkEvent) (rest : List LinkEvent) : Mdns :=
  { s with
    events := rest
    handled := if e.isUp then s.handled + 1 else s.handled
    lastUp := e.isUp }

def delivers (s : Mdns) : Mdns :=
  match s.handler, s.events with
  | none, e :: rest =>
    let s := s.delivered e rest
    if s.subscribed then s.onNetwork e else s
  | _, _ => s

def handlerPosts (s : Mdns) : Mdns :=
  match s.handler with
  | some link => { s with handler := none, ready := s.ready ++ [link] }
  | none => s

def place (s : Mdns) (task : Nat) (pc : StartPc) : Mdns :=
  { s with starts := Function.update s.starts task pc }

def subscribe (s : Mdns) : Mdns :=
  { s with subscribed := true }

def raise (s : Mdns) : Mdns :=
  { s with
    up := true
    before := if s.up then s.before else s.handled
    owed := if !s.up && s.link then s.owed ++ [s.links] else s.owed }

def see (s : Mdns) (task : Nat) : Mdns :=
  { s with seenBy := some task }

def mark (s : Mdns) : Mdns :=
  { s with netUp := true }

def post (s : Mdns) (link : Nat) : Mdns :=
  { s with ready := s.ready ++ [link] }

def start (s : Mdns) (task : Nat) (ok : Bool) : Mdns :=
  match s.starts task with
  | .out => s.place task .asksUp
  | .asksUp => s.place task (if s.up then .out else .inits)
  | .inits => s.place task (if ok then .subscribes else .out)
  | .subscribes => s.subscribe.place task .raises
  | .raises => s.raise.place task .looks
  | .looks =>
    if s.link then (s.see task).place task (.marks s.links) else s.place task .out
  | .marks link => s.mark.place task (.posts link)
  | .posts link => (s.post link).place task .out

def step (s : Mdns) : MdnsStep → Mdns
  | .comesUp => s.comesUp
  | .goesDown => s.goesDown
  | .moves => s.moves
  | .delivers => s.delivers
  | .handlerPosts => s.handlerPosts
  | .start task ok => s.start task ok

-- All calls have returned, and all events are delivered.
structure Quiet (s : Mdns) : Prop where
  starts : ∀ task, s.starts task = .out
  handler : s.handler = none
  events : s.events = []

-- Every link the responder has been up on is announced once, and the responder
-- knows whether there is one.
structure ReadyOnce (s : Mdns) : Prop where
  once : s.ready.Nodup
  each : s.Quiet → s.up = true → ∀ link ∈ s.owed, link ∈ s.ready
  netUp : s.Quiet → s.up = true → s.netUp = s.link

end Mdns

end Espos.Net

-- A link is announced by the handler if its event is delivered once the responder
-- is up, and otherwise by the one start that sees it.

namespace Espos.Net

open Espos.Run Espos.Tasks

-- The link a start is about to announce.
def StartPc.sees : StartPc → Option Nat
  | .marks link | .posts link => some link
  | _ => none

-- The start has set `up`.
def StartPc.past : StartPc → Bool
  | .looks | .marks _ | .posts _ => true
  | _ => false

def StartPc.isMarks : StartPc → Bool
  | .marks _ => true
  | _ => false

theorem StartPc.past_of_sees {pc : StartPc} {link : Nat} (h : pc.sees = some link) :
    pc.past = true := by
  cases pc <;> first | rfl | cases h

namespace Mdns

-- A start that sees the link finds one that no handler and no other start
-- announces; such a link stays until it is seen; and what was seen is still so
-- when it is noted.
def Calm (s : Mdns) : MdnsStep → Prop
  | .goesDown | .moves =>
    s.up = true → s.link = true → s.before < s.links ∨ s.seenBy ≠ none
  | .start task _ =>
    (s.starts task = .looks → s.link = true → s.links = s.before ∧ s.seenBy = none) ∧
      ((s.starts task).isMarks = true → s.lastUp = true ∨ s.events ≠ [])
  | _ => True

instance (s : Mdns) (e : MdnsStep) : Decidable (s.Calm e) := by
  cases e <;> unfold Calm <;> infer_instance

structure Queued (s : Mdns) : Prop where
  ups : s.events.filterMap LinkEvent.link? = List.range' (s.handled + 1) (s.links - s.handled)
  le : s.handled ≤ s.links
  last : s.events.foldl (fun _ e => e.isUp) s.lastUp = s.link

structure Raised (s : Mdns) : Prop where
  subscribed : s.up = true → s.subscribed = true
  raises : ∀ t, s.starts t = .raises → s.subscribed = true
  past : ∀ t, (s.starts t).past = true → s.up = true
  fresh : s.up = false → s.ready = [] ∧ s.handler = none ∧ s.owed = [] ∧ s.seenBy = none
  unheard : s.subscribed = false → s.netUp = false

structure Once (s : Mdns) : Prop where
  before : s.before ≤ s.handled
  nodup : s.ready.Nodup
  ready : ∀ k ∈ s.ready, s.before ≤ k ∧ k ≤ s.handled ∧ (k = s.before → s.seenBy ≠ none)
  handler : ∀ k, s.handler = some k → k ∉ s.ready ∧ s.before < k ∧ k ≤ s.handled
  starts : ∀ t k, (s.starts t).sees = some k → s.seenBy = some t ∧ k = s.before ∧ k ∉ s.ready

-- The link has not been seen yet, and a start is about to look.
structure Unseen (s : Mdns) : Prop where
  link : s.link = true
  links : s.links = s.before
  seenBy : s.seenBy = none
  looks : ∃ t, s.starts t = .looks

def Owing (s : Mdns) : Prop :=
  ∀ k ∈ s.owed, k ∈ s.ready ∨ s.handler = some k ∨ (∃ t, (s.starts t).sees = some k) ∨
    (s.handled < k ∧ k ≤ s.links) ∨ k = s.before ∧ s.Unseen

structure Following (s : Mdns) : Prop where
  behind : s.netUp = true → s.lastUp = true ∨ s.events ≠ []
  ahead : s.up = true → s.lastUp = true →
    s.netUp = true ∨ s.events ≠ [] ∨ (∃ t, (s.starts t).isMarks = true) ∨ s.Unseen

structure Announcing (s : Mdns) : Prop where
  queued : s.Queued
  raised : s.Raised
  once : s.Once
  owing : s.Owing
  following : s.Following

variable {s : Mdns} {task : Nat} {pc : StartPc}

theorem Announcing.readyOnce (h : s.Announcing) : s.ReadyOnce := by
  have hquiet : s.Quiet → ¬ s.Unseen := by
    rintro hquiet ⟨_, _, _, t, ht⟩
    rw [hquiet.starts t] at ht
    cases ht
  have hsees : s.Quiet → ¬ ∃ t k, (s.starts t).sees = some k := by
    rintro hquiet ⟨t, k, ht⟩
    rw [hquiet.starts t] at ht
    cases ht
  refine ⟨h.once.nodup, fun q hup k hk => ?_, fun q hup => ?_⟩
  · have hups := h.queued.ups
    rw [q.events, List.filterMap_nil, eq_comm, List.range'_eq_nil_iff] at hups
    rcases h.owing k hk with hready | hhandler | ⟨t, ht⟩ | ⟨hlt, hle⟩ | ⟨_, hunseen⟩
    · exact hready
    · rw [q.handler] at hhandler
      cases hhandler
    · exact absurd ⟨t, k, ht⟩ (hsees q)
    · omega
    · exact absurd hunseen (hquiet q)
  · have hlast := h.queued.last
    rw [q.events, List.foldl_nil] at hlast
    rw [← hlast]
    cases hlastUp : s.lastUp with
    | true =>
      rcases h.following.ahead hup hlastUp with hnet | hevents | ⟨t, ht⟩ | hunseen
      · exact hnet
      · exact absurd q.events hevents
      · rw [q.starts t] at ht
        cases ht
      · exact absurd hunseen (hquiet q)
    | false =>
      cases hnet : s.netUp with
      | false => rfl
      | true =>
        rcases h.following.behind hnet with hup' | hevents
        · rw [hlastUp] at hup'
          cases hup'
        · exact absurd q.events hevents

-- The link

theorem Queued.newLink (h : s.Queued) {events : List LinkEvent}
    (hup : events.filterMap LinkEvent.link? = [s.links + 1])
    (hlast : ∀ b, events.foldl (fun _ e => e.isUp) b = true) : (s.newLink events).Queued where
  ups := by
    have hle := h.le
    change (s.events ++ events).filterMap LinkEvent.link? =
      List.range' (s.handled + 1) (s.links + 1 - s.handled)
    rw [List.filterMap_append, h.ups, hup, Nat.succ_sub hle, List.range'_concat]
    congr 2
    omega
  le := Nat.le_succ_of_le h.le
  last := by
    change (s.events ++ events).foldl _ _ = true
    rw [List.foldl_append]
    exact hlast _

theorem Announcing.newLink (h : s.Announcing) {events : List LinkEvent}
    (hunseen : ¬ s.Unseen) (hup : events.filterMap LinkEvent.link? = [s.links + 1])
    (hlast : ∀ b, events.foldl (fun _ e => e.isUp) b = true) : (s.newLink events).Announcing := by
  have hsome : s.events ++ events ≠ [] := by
    intro hnil
    rw [(List.append_eq_nil_iff.mp hnil).2] at hup
    cases hup
  refine ⟨h.queued.newLink hup hlast, ⟨h.raised.subscribed, h.raised.raises, h.raised.past,
    fun hdown => ?_, h.raised.unheard⟩, ⟨h.once.before, h.once.nodup, h.once.ready,
    h.once.handler, h.once.starts⟩, fun k hk => ?_, fun _ => .inr hsome,
    fun _ _ => .inr (.inl hsome)⟩
  · have hdown : s.up = false := hdown
    obtain ⟨hready, hhandler, howed, hseen⟩ := h.raised.fresh hdown
    refine ⟨hready, hhandler, ?_, hseen⟩
    change (if s.up then s.owed ++ [s.links + 1] else s.owed) = []
    rw [if_neg (by simpa using hdown), howed]
  · have hold : k ∈ s.owed ∨ k = s.links + 1 := by
      change k ∈ (if s.up then s.owed ++ [s.links + 1] else s.owed) at hk
      cases hs : s.up with
      | true => simpa [hs] using hk
      | false => exact .inl (by simpa [hs] using hk)
    rcases hold with hold | rfl
    · rcases h.owing k hold with hready | hhandler | hsees | ⟨hlt, hle⟩ | ⟨_, hun⟩
      · exact .inl hready
      · exact .inr (.inl hhandler)
      · exact .inr (.inr (.inl hsees))
      · exact .inr (.inr (.inr (.inl ⟨hlt, Nat.le_succ_of_le hle⟩)))
      · exact absurd hun hunseen
    · exact .inr (.inr (.inr (.inl ⟨Nat.lt_succ_of_le h.queued.le, Nat.le_refl _⟩)))

theorem Announcing.comesUp (h : s.Announcing) : s.comesUp.Announcing := by
  unfold Mdns.comesUp
  by_cases hlink : s.link = true
  · rwa [if_pos hlink]
  · rw [if_neg hlink]
    exact h.newLink (fun hunseen => hlink hunseen.link) rfl fun _ => rfl

-- A link the responder is up on has been seen, or is the handler's to announce.
theorem not_unseen_of_calm (h : s.Raised)
    (hcalm : s.up = true → s.link = true → s.before < s.links ∨ s.seenBy ≠ none) : ¬ s.Unseen := by
  rintro ⟨hlink, hlinks, hseen, t, ht⟩
  have hup := h.past t (by rw [ht]; rfl)
  rcases hcalm hup hlink with hlt | hne
  · omega
  · exact hne hseen

theorem Announcing.moves (h : s.Announcing)
    (hcalm : s.up = true → s.link = true → s.before < s.links ∨ s.seenBy ≠ none) :
    s.moves.Announcing := by
  unfold Mdns.moves
  by_cases hlink : s.link = true
  · rw [if_pos hlink]
    exact h.newLink (not_unseen_of_calm h.raised hcalm) rfl fun _ => rfl
  · rwa [if_neg hlink]

theorem Announcing.goesDown (h : s.Announcing)
    (hcalm : s.up = true → s.link = true → s.before < s.links ∨ s.seenBy ≠ none) :
    s.goesDown.Announcing := by
  have hunseen := not_unseen_of_calm h.raised hcalm
  unfold Mdns.goesDown
  by_cases hlink : s.link = true
  · rw [if_pos hlink]
    have hsome : s.events ++ [.networkDown] ≠ [] := by simp
    refine ⟨⟨?_, h.queued.le, ?_⟩, ⟨h.raised.subscribed, h.raised.raises, h.raised.past,
      h.raised.fresh, h.raised.unheard⟩, ⟨h.once.before, h.once.nodup, h.once.ready,
      h.once.handler, h.once.starts⟩, fun k hk => ?_, fun _ => .inr hsome,
      fun _ _ => .inr (.inl hsome)⟩
    · change (s.events ++ [LinkEvent.networkDown]).filterMap LinkEvent.link? = _
      rw [List.filterMap_append, h.queued.ups]
      exact List.append_nil _
    · change (s.events ++ [LinkEvent.networkDown]).foldl _ _ = false
      rw [List.foldl_append]
      rfl
    · rcases h.owing k hk with hready | hhandler | hsees | hlater | ⟨_, hun⟩
      · exact .inl hready
      · exact .inr (.inl hhandler)
      · exact .inr (.inr (.inl hsees))
      · exact .inr (.inr (.inr (.inl hlater)))
      · exact absurd hun hunseen
  · rwa [if_neg hlink]

-- The event loop

theorem Queued.delivered (h : s.Queued) {e : LinkEvent} {rest : List LinkEvent}
    (hevents : s.events = e :: rest) :
    (s.delivered e rest).Queued ∧
      ∀ k, e.link? = some k → k = s.handled + 1 ∧ (s.delivered e rest).handled = s.handled + 1 := by
  have hups := h.ups
  have hlast := h.last
  have hle := h.le
  rw [hevents] at hups hlast
  cases e with
  | networkDown => exact ⟨⟨hups, hle, hlast⟩, nofun⟩
  | networkUp link =>
    obtain ⟨n, hn⟩ : ∃ n, s.links - s.handled = n + 1 := by
      cases hcount : s.links - s.handled with
      | zero =>
        rw [hcount] at hups
        cases hups
      | succ n => exact ⟨n, rfl⟩
    rw [hn, List.range'_succ] at hups
    obtain ⟨hlink, hrest⟩ := List.cons.inj hups
    refine ⟨⟨?_, ?_, hlast⟩, fun k hk => ⟨?_, rfl⟩⟩
    · change rest.filterMap LinkEvent.link? =
        List.range' (s.handled + 1 + 1) (s.links - (s.handled + 1))
      rw [show s.links - (s.handled + 1) = n by omega]
      exact hrest
    · change s.handled + 1 ≤ s.links
      omega
    · exact (Option.some.inj hk).symm.trans hlink

theorem le_handled_delivered (s : Mdns) (e : LinkEvent) (rest : List LinkEvent) :
    s.handled ≤ (s.delivered e rest).handled := by
  change s.handled ≤ if e.isUp then s.handled + 1 else s.handled
  cases e.isUp with
  | true => exact Nat.le_succ _
  | false => exact Nat.le_refl _

theorem Once.delivered (h : s.Once) (e : LinkEvent) (rest : List LinkEvent) :
    (s.delivered e rest).Once where
  before := Nat.le_trans h.before (le_handled_delivered s e rest)
  nodup := h.nodup
  ready k hk :=
    have ⟨hbefore, hle, hseen⟩ := h.ready k hk
    ⟨hbefore, Nat.le_trans hle (le_handled_delivered s e rest), hseen⟩
  handler k hk :=
    have ⟨hnot, hbefore, hle⟩ := h.handler k hk
    ⟨hnot, hbefore, Nat.le_trans hle (le_handled_delivered s e rest)⟩
  starts := h.starts

-- The handler is not there yet, and neither is the responder.
theorem Announcing.unheard (h : s.Announcing) {e : LinkEvent} {rest : List LinkEvent}
    (hevents : s.events = e :: rest) (hsub : s.subscribed = false) :
    (s.delivered e rest).Announcing := by
  have hdown : s.up = false := by
    by_contra hup
    have hheard := h.raised.subscribed (by simpa using hup)
    rw [hsub] at hheard
    cases hheard
  refine ⟨(h.queued.delivered hevents).1, ⟨h.raised.subscribed, h.raised.raises, h.raised.past,
    h.raised.fresh, h.raised.unheard⟩, h.once.delivered e rest, fun k hk => ?_,
    fun hnet => ?_, fun hup => ?_⟩
  · have howed : k ∈ s.owed := hk
    rw [(h.raised.fresh hdown).2.2.1] at howed
    cases howed
  · have hold : s.netUp = true := hnet
    rw [h.raised.unheard hsub] at hold
    cases hold
  · have hold : s.up = true := hup
    rw [hdown] at hold
    cases hold

theorem Announcing.heard (h : s.Announcing) {e : LinkEvent} {rest : List LinkEvent}
    (hhandler : s.handler = none) (hevents : s.events = e :: rest) (hsub : s.subscribed = true) :
    ((s.delivered e rest).onNetwork e).Announcing := by
  obtain ⟨hqueued, hlink⟩ := h.queued.delivered hevents
  have honce := h.once.delivered e rest
  refine ⟨⟨hqueued.ups, hqueued.le, hqueued.last⟩, ⟨h.raised.subscribed, h.raised.raises,
    h.raised.past, fun hdown => ?_, fun hno => ?_⟩, ⟨honce.before, honce.nodup, honce.ready,
    fun k hk => ?_, honce.starts⟩, fun k hk => ?_, fun hnet => .inl hnet,
    fun _ hlast => .inl hlast⟩
  · have hold : s.up = false := hdown
    obtain ⟨hready, _, howed, hseen⟩ := h.raised.fresh hold
    refine ⟨hready, ?_, howed, hseen⟩
    change (if s.up then e.link? else none) = none
    rw [if_neg (by simpa using hold)]
  · have hold : s.subscribed = false := hno
    rw [hsub] at hold
    cases hold
  · -- the event is of a later link than all that were announced
    have hnew : e.link? = some k := by
      change (if s.up then e.link? else none) = some k at hk
      cases hup : s.up with
      | false => simp [hup] at hk
      | true => simpa [hup] using hk
    obtain ⟨rfl, hhandled⟩ := hlink k hnew
    refine ⟨fun hmem => ?_, Nat.lt_succ_of_le h.once.before, Nat.le_of_eq hhandled.symm⟩
    have hle := (h.once.ready _ hmem).2.1
    omega
  · have howed : k ∈ s.owed := hk
    have hup : s.up = true := by
      by_contra hdown
      rw [(h.raised.fresh (by simpa using hdown)).2.2.1] at howed
      cases howed
    rcases h.owing k howed with hready | hmine | hsees | ⟨hlt, hle⟩ | ⟨hbefore, hun⟩
    · exact .inl hready
    · rw [hhandler] at hmine
      cases hmine
    · exact .inr (.inr (.inl hsees))
    · by_cases hnext : e.link? = some k
      · refine .inr (.inl ?_)
        change (if s.up then e.link? else none) = some k
        rwa [if_pos hup]
      · refine .inr (.inr (.inr (.inl ⟨?_, hle⟩)))
        cases e with
        | networkDown => exact hlt
        | networkUp link =>
          obtain ⟨rfl, _⟩ := hlink link rfl
          have hne : k ≠ s.handled + 1 := fun heq => hnext (congrArg some heq.symm)
          change s.handled + 1 < k
          omega
    · exact .inr (.inr (.inr (.inr ⟨hbefore, ⟨hun.link, hun.links, hun.seenBy, hun.looks⟩⟩)))

theorem Announcing.delivers (h : s.Announcing) : s.delivers.Announcing := by
  unfold Mdns.delivers
  cases hhandler : s.handler with
  | some k => exact h
  | none =>
    cases hevents : s.events with
    | nil => exact h
    | cons e rest =>
      change (if s.subscribed then (s.delivered e rest).onNetwork e
        else s.delivered e rest).Announcing
      cases hsub : s.subscribed with
      | true => exact h.heard hhandler hevents hsub
      | false => exact h.unheard hevents hsub

theorem nodup_ready_append {link : Nat} (h : s.Once) (hnew : link ∉ s.ready) :
    (s.ready ++ [link]).Nodup := by
  rw [← List.concat_eq_append]
  exact List.Nodup.concat hnew h.nodup

theorem Announcing.handlerPosts (h : s.Announcing) : s.handlerPosts.Announcing := by
  unfold Mdns.handlerPosts
  cases hhandler : s.handler with
  | none => exact h
  | some link =>
    obtain ⟨hnew, hbefore, hle⟩ := h.once.handler link hhandler
    refine ⟨⟨h.queued.ups, h.queued.le, h.queued.last⟩, ⟨h.raised.subscribed, h.raised.raises,
      h.raised.past, fun hdown => ?_, h.raised.unheard⟩, ⟨h.once.before,
      nodup_ready_append h.once hnew, fun k hk => ?_, nofun, fun t k ht => ?_⟩, fun k hk => ?_,
      h.following.behind, fun hup hlast => ?_⟩
    · rw [(h.raised.fresh hdown).2.1] at hhandler
      cases hhandler
    · rcases List.mem_append.mp hk with hold | hlast
      · exact h.once.ready k hold
      · obtain rfl := List.mem_singleton.mp hlast
        exact ⟨Nat.le_of_lt hbefore, hle, fun heq => absurd heq (Nat.ne_of_gt hbefore)⟩
    · obtain ⟨hseen, rfl, hnot⟩ := h.once.starts t k ht
      refine ⟨hseen, rfl, fun hmem => ?_⟩
      rcases List.mem_append.mp hmem with hold | hlast
      · exact hnot hold
      · exact absurd (List.mem_singleton.mp hlast) (Nat.ne_of_lt hbefore)
    · rcases h.owing k hk with hready | hmine | hsees | hlater | ⟨hk, hun⟩
      · exact .inl (List.mem_append_left _ hready)
      · obtain rfl := Option.some.inj (hhandler.symm.trans hmine)
        exact .inl (List.mem_append_right _ (List.mem_singleton.mpr rfl))
      · exact .inr (.inr (.inl hsees))
      · exact .inr (.inr (.inr (.inl hlater)))
      · exact .inr (.inr (.inr (.inr ⟨hk, ⟨hun.link, hun.links, hun.seenBy, hun.looks⟩⟩)))
    · rcases h.following.ahead hup hlast with hnet | hevents | hmarks | hun
      · exact .inl hnet
      · exact .inr (.inl hevents)
      · exact .inr (.inr (.inl hmarks))
      · exact .inr (.inr (.inr ⟨hun.link, hun.links, hun.seenBy, hun.looks⟩))

-- The starts

theorem Unseen.moved (h : s.Unseen) (hlooks : s.starts task ≠ .looks) : (s.place task pc).Unseen :=
  ⟨h.link, h.links, h.seenBy, exists_moved (P := (· = StartPc.looks)) h.looks hlooks⟩

-- A start goes on that has nothing to announce.
theorem Announcing.stay (h : s.Announcing) (hold : (s.starts task).sees = none)
    (hlooks : s.starts task = .looks → s.link = false) (hnew : pc.sees = none)
    (hpast : pc.past = true → s.up = true) (hraises : pc = .raises → s.subscribed = true) :
    (s.place task pc).Announcing := by
  have hunseen : s.Unseen → (s.place task pc).Unseen := by
    intro hun
    apply hun.moved
    intro hplace
    have hdown := hlooks hplace
    rw [hun.link] at hdown
    cases hdown
  refine ⟨⟨h.queued.ups, h.queued.le, h.queued.last⟩, ⟨h.raised.subscribed, fun t ht => ?_,
    fun t ht => ?_, h.raised.fresh, h.raised.unheard⟩, ⟨h.once.before, h.once.nodup, h.once.ready,
    h.once.handler, fun t k ht => ?_⟩, fun k hk => ?_, h.following.behind, fun hup hlast => ?_⟩
  · rcases of_moved (P := (· = StartPc.raises)) ht with ⟨_, hpc⟩ | ⟨_, hother⟩
    · exact hraises hpc
    · exact h.raised.raises t hother
  · rcases of_moved (P := fun pc : StartPc => pc.past = true) ht with ⟨_, hpc⟩ | ⟨_, hother⟩
    · exact hpast hpc
    · exact h.raised.past t hother
  · rcases of_moved (P := fun pc : StartPc => pc.sees = some k) ht with ⟨_, hpc⟩ | ⟨_, hother⟩
    · rw [hnew] at hpc
      cases hpc
    · exact h.once.starts t k hother
  · rcases h.owing k hk with hready | hhandler | hsees | hlater | ⟨hk, hun⟩
    · exact .inl hready
    · exact .inr (.inl hhandler)
    · refine .inr (.inr (.inl ?_))
      exact exists_moved (P := fun pc : StartPc => pc.sees = some k) hsees (by rw [hold]; nofun)
    · exact .inr (.inr (.inr (.inl hlater)))
    · exact .inr (.inr (.inr (.inr ⟨hk, hunseen hun⟩)))
  · rcases h.following.ahead hup hlast with hnet | hevents | hmarks | hun
    · exact .inl hnet
    · exact .inr (.inl hevents)
    · refine .inr (.inr (.inl ?_))
      apply exists_moved (P := fun pc : StartPc => pc.isMarks = true) hmarks
      intro hmark
      cases hplace : s.starts task <;> simp_all [StartPc.isMarks, StartPc.sees]
    · exact .inr (.inr (.inr (hunseen hun)))

theorem Announcing.subscribe (h : s.Announcing) : s.subscribe.Announcing := by
  have hunseen : s.Unseen → s.subscribe.Unseen := fun hun =>
    ⟨hun.link, hun.links, hun.seenBy, hun.looks⟩
  refine ⟨⟨h.queued.ups, h.queued.le, h.queued.last⟩, ⟨fun _ => rfl, fun _ _ => rfl,
    h.raised.past, h.raised.fresh, nofun⟩, ⟨h.once.before, h.once.nodup, h.once.ready,
    h.once.handler, h.once.starts⟩, fun k hk => ?_, h.following.behind, fun hup hlast => ?_⟩
  · exact (h.owing k hk).imp_right (.imp_right (.imp_right (.imp_right (.imp_right hunseen))))
  · exact (h.following.ahead hup hlast).imp_right (.imp_right (.imp_right hunseen))

theorem raise_of_up (hup : s.up = true) : s.raise = s := by
  cases s
  cases hup
  rfl

-- The first start to set `up`: what was delivered so far, no handler announces.
theorem Announcing.raise (h : s.Announcing) (hplace : s.starts task = .raises)
    (hup : s.up = false) : (s.raise.place task .looks).Announcing := by
  obtain ⟨hready, hhandler, howed, hseen⟩ := h.raised.fresh hup
  have hbefore : (s.raise.place task .looks).before = s.handled := by
    change (if s.up then s.before else s.handled) = s.handled
    rw [hup]
    rfl
  have hsub := h.raised.raises task hplace
  have hlook : ∃ t, (s.raise.place task .looks).starts t = .looks :=
    ⟨task, Function.update_self ..⟩
  have hunseen : s.link = true → s.handled = s.links → (s.raise.place task .looks).Unseen :=
    fun hlink hall => ⟨hlink, hall.symm.trans hbefore.symm, hseen, hlook⟩
  refine ⟨⟨h.queued.ups, h.queued.le, h.queued.last⟩, ⟨fun _ => hsub, fun _ _ => hsub,
    fun _ _ => rfl, nofun, h.raised.unheard⟩, ⟨Nat.le_of_eq hbefore, h.once.nodup,
    fun k hk => ?_, fun k hk => ?_, fun t k ht => ?_⟩, fun k hk => ?_, h.following.behind,
    fun _ hlast => ?_⟩
  · have hmem : k ∈ s.ready := hk
    rw [hready] at hmem
    cases hmem
  · have hmine : s.handler = some k := hk
    rw [hhandler] at hmine
    cases hmine
  · rcases of_moved (P := fun pc : StartPc => pc.sees = some k) ht with ⟨_, hpc⟩ | ⟨_, hother⟩
    · cases hpc
    · have hraised := h.raised.past t (StartPc.past_of_sees hother)
      rw [hup] at hraised
      cases hraised
  · change k ∈ (if !s.up && s.link then s.owed ++ [s.links] else s.owed) at hk
    cases hlink : s.link with
    | false => simp [hup, hlink, howed] at hk
    | true =>
      obtain rfl : k = s.links := by simpa [hup, hlink, howed] using hk
      rcases Nat.lt_or_eq_of_le h.queued.le with hlt | hall
      · exact .inr (.inr (.inr (.inl ⟨hlt, Nat.le_refl _⟩)))
      · exact .inr (.inr (.inr (.inr ⟨(hbefore.trans hall).symm, hunseen hlink hall⟩)))
  · by_cases hevents : s.events = []
    · have hend := h.queued.last
      have hups := h.queued.ups
      rw [hevents, List.foldl_nil] at hend
      rw [hevents, List.filterMap_nil, eq_comm, List.range'_eq_nil_iff] at hups
      have hle := h.queued.le
      exact .inr (.inr (.inr (hunseen (hend.symm.trans hlast) (by omega))))
    · exact .inr (.inl hevents)

theorem Announcing.see (h : s.Announcing) (hplace : s.starts task = .looks)
    (hlinks : s.links = s.before) (hseen : s.seenBy = none) :
    ((s.see task).place task (.marks s.links)).Announcing := by
  have hup := h.raised.past task (by rw [hplace]; rfl)
  refine ⟨⟨h.queued.ups, h.queued.le, h.queued.last⟩, ⟨h.raised.subscribed, fun t ht => ?_,
    fun _ _ => hup, fun hdown => ?_, h.raised.unheard⟩, ⟨h.once.before, h.once.nodup,
    fun k hk => ?_, h.once.handler, fun t k ht => ?_⟩, fun k hk => ?_, h.following.behind,
    fun _ _ => ?_⟩
  · rcases of_moved (P := (· = StartPc.raises)) ht with ⟨_, hpc⟩ | ⟨_, hother⟩
    · cases hpc
    · exact h.raised.raises t hother
  · have hold : s.up = false := hdown
    rw [hup] at hold
    cases hold
  · obtain ⟨hbefore, hle, _⟩ := h.once.ready k hk
    exact ⟨hbefore, hle, fun _ => nofun⟩
  · rcases of_moved (P := fun pc : StartPc => pc.sees = some k) ht with ⟨rfl, hpc⟩ | ⟨_, hother⟩
    · obtain rfl := Option.some.inj hpc
      exact ⟨rfl, hlinks, fun hmem => (h.once.ready _ hmem).2.2 hlinks hseen⟩
    · have hother := (h.once.starts t k hother).1
      rw [hseen] at hother
      cases hother
  · rcases h.owing k hk with hready | hhandler | ⟨t, ht⟩ | hlater | ⟨hk, _⟩
    · exact .inl hready
    · exact .inr (.inl hhandler)
    · have hother := (h.once.starts t k ht).1
      rw [hseen] at hother
      cases hother
    · exact .inr (.inr (.inr (.inl hlater)))
    · refine .inr (.inr (.inl ⟨task, ?_⟩))
      rw [hk, ← hlinks]
      exact moved_self (P := fun pc : StartPc => pc.sees = some s.links) rfl
  · exact .inr (.inr (.inl ⟨task, moved_self (P := fun pc : StartPc => pc.isMarks = true) rfl⟩))

theorem Announcing.mark (h : s.Announcing) {link : Nat} (hplace : s.starts task = .marks link)
    (hcalm : s.lastUp = true ∨ s.events ≠ []) :
    (s.mark.place task (.posts link)).Announcing := by
  have hup := h.raised.past task (by rw [hplace]; rfl)
  -- the start still has the same link in hand
  have hsees : ∀ t k, ((s.mark.place task (.posts link)).starts t).sees = some k ↔
      (s.starts t).sees = some k := by
    intro t k
    by_cases ht : t = task
    · subst ht
      change (Function.update s.starts t (.posts link) t).sees = some k ↔ _
      rw [Function.update_self, hplace]
      rfl
    · change (Function.update s.starts task (.posts link) t).sees = some k ↔ _
      rw [Function.update_of_ne ht]
  refine ⟨⟨h.queued.ups, h.queued.le, h.queued.last⟩, ⟨h.raised.subscribed, fun t ht => ?_,
    fun _ _ => hup, h.raised.fresh, fun hno => ?_⟩, ⟨h.once.before, h.once.nodup, h.once.ready,
    h.once.handler, fun t k ht => h.once.starts t k ((hsees t k).mp ht)⟩, fun k hk => ?_,
    fun _ => hcalm, fun _ _ => .inl rfl⟩
  · rcases of_moved (P := (· = StartPc.raises)) ht with ⟨_, hpc⟩ | ⟨_, hother⟩
    · cases hpc
    · exact h.raised.raises t hother
  · have hno : s.subscribed = false := hno
    rw [h.raised.subscribed hup] at hno
    cases hno
  · rcases h.owing k hk with hready | hhandler | ⟨t, ht⟩ | hlater | ⟨hk, hun⟩
    · exact .inl hready
    · exact .inr (.inl hhandler)
    · exact .inr (.inr (.inl ⟨t, (hsees t k).mpr ht⟩))
    · exact .inr (.inr (.inr (.inl hlater)))
    · have hnot : s.starts task ≠ .looks := by rw [hplace]; nofun
      refine .inr (.inr (.inr (.inr ⟨hk, hun.link, hun.links, hun.seenBy, ?_⟩)))
      exact exists_moved (P := (· = StartPc.looks)) hun.looks hnot

theorem Announcing.post (h : s.Announcing) {link : Nat} (hplace : s.starts task = .posts link) :
    ((s.post link).place task .out).Announcing := by
  have hup := h.raised.past task (by rw [hplace]; rfl)
  obtain ⟨hseen, rfl, hnew⟩ := h.once.starts task link (by rw [hplace]; rfl)
  have honly : ∀ t k, (s.starts t).sees = some k → t = task := by
    intro t k ht
    exact Option.some.inj ((h.once.starts t k ht).1.symm.trans hseen)
  refine ⟨⟨h.queued.ups, h.queued.le, h.queued.last⟩, ⟨h.raised.subscribed, fun t ht => ?_,
    fun _ _ => hup, fun hdown => ?_, h.raised.unheard⟩, ⟨h.once.before,
    nodup_ready_append h.once hnew, fun k hk => ?_, fun k hk => ?_, fun t k ht => ?_⟩,
    fun k hk => ?_, h.following.behind, fun _ hlast => ?_⟩
  · rcases of_moved (P := (· = StartPc.raises)) ht with ⟨_, hpc⟩ | ⟨_, hother⟩
    · cases hpc
    · exact h.raised.raises t hother
  · have hold : s.up = false := hdown
    rw [hup] at hold
    cases hold
  · rcases List.mem_append.mp hk with hold | hlast
    · exact h.once.ready k hold
    · obtain rfl := List.mem_singleton.mp hlast
      exact ⟨Nat.le_refl _, h.once.before, fun _ hnone => nomatch hseen.symm.trans hnone⟩
  · obtain ⟨hnot, hbefore, hle⟩ := h.once.handler k hk
    refine ⟨fun hmem => ?_, hbefore, hle⟩
    rcases List.mem_append.mp hmem with hold | hlast
    · exact hnot hold
    · exact absurd (List.mem_singleton.mp hlast) (Nat.ne_of_gt hbefore)
  · rcases of_moved (P := fun pc : StartPc => pc.sees = some k) ht with ⟨_, hpc⟩ | ⟨hne, hother⟩
    · cases hpc
    · exact absurd (honly t k hother) hne
  · rcases h.owing k hk with hready | hhandler | ⟨t, ht⟩ | hlater | ⟨_, hun⟩
    · exact .inl (List.mem_append_left _ hready)
    · exact .inr (.inl hhandler)
    · obtain rfl := (h.once.starts t k ht).2.1
      exact .inl (List.mem_append_right _ (List.mem_singleton.mpr rfl))
    · exact .inr (.inr (.inr (.inl hlater)))
    · exact nomatch hseen.symm.trans hun.seenBy
  · rcases h.following.ahead hup hlast with hnet | hevents | hmarks | hun
    · exact .inl hnet
    · exact .inr (.inl hevents)
    · have hnot : ¬ (s.starts task).isMarks = true := by rw [hplace]; nofun
      refine .inr (.inr (.inl ?_))
      exact exists_moved (P := fun pc : StartPc => pc.isMarks = true) hmarks hnot
    · exact nomatch hseen.symm.trans hun.seenBy

theorem Announcing.start (h : s.Announcing) (ok : Bool) (hcalm : s.Calm (.start task ok)) :
    (s.start task ok).Announcing := by
  unfold Mdns.start
  cases hplace : s.starts task with
  | out =>
    exact h.stay (by rw [hplace]; rfl) (by rw [hplace]; nofun) rfl nofun nofun
  | asksUp =>
    refine h.stay (by rw [hplace]; rfl) (by rw [hplace]; nofun) ?_ ?_ ?_ <;>
      cases s.up <;> first | rfl | nofun
  | inits =>
    refine h.stay (by rw [hplace]; rfl) (by rw [hplace]; nofun) ?_ ?_ ?_ <;>
      cases ok <;> first | rfl | nofun
  | subscribes =>
    have hplace' : s.subscribe.starts task = .subscribes := hplace
    exact h.subscribe.stay (by rw [hplace']; rfl) (by rw [hplace']; nofun) rfl nofun fun _ => rfl
  | raises =>
    cases hup : s.up with
    | true =>
      dsimp only
      rw [raise_of_up hup]
      exact h.stay (by rw [hplace]; rfl) (by rw [hplace]; nofun) rfl (fun _ => hup) nofun
    | false => exact h.raise hplace hup
  | looks =>
    dsimp only
    cases hlink : s.link with
    | true =>
      obtain ⟨hlinks, hseen⟩ := hcalm.1 hplace hlink
      rw [if_pos rfl]
      exact h.see hplace hlinks hseen
    | false =>
      rw [if_neg nofun]
      exact h.stay (by rw [hplace]; rfl) (fun _ => hlink) rfl nofun nofun
  | marks link =>
    exact h.mark hplace (hcalm.2 (by rw [hplace]; rfl))
  | posts link => exact h.post hplace

theorem announcing_boot : boot.Announcing where
  queued := ⟨rfl, Nat.le_refl _, rfl⟩
  raised := ⟨nofun, nofun, nofun, fun _ => ⟨rfl, rfl, rfl, rfl⟩, fun _ => rfl⟩
  once := ⟨Nat.le_refl _, List.nodup_nil, nofun, nofun, nofun⟩
  owing := nofun
  following := ⟨nofun, nofun⟩

theorem announcing_step (s : Mdns) (e : MdnsStep) (h : s.Announcing) (hcalm : s.Calm e) :
    (s.step e).Announcing := by
  cases e with
  | comesUp => exact h.comesUp
  | goesDown => exact h.goesDown hcalm
  | moves => exact h.moves hcalm
  | delivers => exact h.delivers
  | handlerPosts => exact h.handlerPosts
  | start task ok => exact h.start ok hcalm

end Mdns

theorem ready_once_of_calm (steps : List MdnsStep) (h : Along Mdns.step Mdns.Calm .boot steps) :
    Always Mdns.step Mdns.ReadyOnce .boot steps :=
  (always_of_along Mdns.announcing_step Mdns.announcing_boot h).imp fun _ h => h.readyOnce

-- All of a start that gets as far as the link it finds.
def startedBy (task : Nat) : List MdnsStep :=
  List.replicate 8 (.start task true)

theorem ready_once_on_two_links :
    Always Mdns.step Mdns.ReadyOnce .boot
      ([.comesUp, .delivers] ++ startedBy 0 ++ [.goesDown, .comesUp, .delivers, .delivers,
        .handlerPosts] ++ startedBy 1) :=
  ready_once_of_calm _ (by decide)

-- The link is up when the start looks, and its event is still in the queue.
theorem ready_twice :
    ¬ Always Mdns.step Mdns.ReadyOnce .boot
      ([.comesUp] ++ startedBy 0 ++ [.delivers, .handlerPosts]) := by
  intro h
  have honce := h.last.once
  revert honce
  decide

end Espos.Net
