import Espos.Platform
import Espos.Net.Route

-- `espos_net_report` in `espos_net.c`: the machine is asked under the lock, and
-- what it decided is posted after the lock was given back.

namespace Espos.Net

open Espos.Run Espos.Text

def ip6Max : Nat := 40
def hostnameMax : Nat := 33
def subscribersMax : Nat := 8

structure Status where
  up : Bool
  iface : Option Iface
  ip : Buf ipMax
  netmask : Buf ipMax
  gateway : Buf ipMax
  ip6Ll : Buf ip6Max
  mac : Vector UInt8 6
  hostname : Buf hostnameMax
  rssi : Int8
  upCount : UInt32
  upSinceMs : UInt32
deriving DecidableEq

-- A callback, which is not NULL, and its argument.
structure Subscriber where
  cb : Nat
  arg : Nat
deriving DecidableEq

inductive Event where
  | networkDown
  | networkUp (ip : Buf ipMax) (hostname : Buf hostnameMax)
deriving DecidableEq

-- What leaves the component.
inductive Out where
  | post (ev : Event)
  | call (sub : Subscriber) (st : Status)
  | sse (st : Status)
deriving DecidableEq

-- The two tasks that report.
inductive Task where
  | station
  | ethernet
deriving DecidableEq

-- The locals of a call that has given the lock back and has not returned.
structure Decided where
  edge : Edge
  st : Status
  subs : Vector (Option Subscriber) subscribersMax

structure Seam where
  sm : Sm
  mac : Vector UInt8 6
  hostname : Buf hostnameMax
  ip6Ll : Buf ip6Max
  netif : Iface → Option Nat
  subs : Vector (Option Subscriber) subscribersMax
  calls : Task → Option Decided
  outs : List Out
  -- History only, nothing below reads it: the call whose decision about the
  -- route is the newest, until that decision has been posted.
  newest : Option Task

def start (mac : Vector UInt8 6) (hostname : Buf hostnameMax) (netif : Iface → Option Nat)
    (subs : Vector (Option Subscriber) subscribersMax) : Seam where
  sm := smInit
  mac := mac
  hostname := hostname
  ip6Ll := .empty
  netif := netif
  subs := subs
  calls := fun _ => none
  outs := []
  newest := none

section Status

variable (now : UInt32)

-- RSSI is a WiFi notion.
def smStatus (sm : Sm) : Status :=
  let zero : Status :=
    ⟨false, sm.active, .empty, .empty, .empty, .empty, .replicate 6 0, .empty, 0, sm.upCount, 0⟩
  match sm.active with
  | none => zero
  | some i =>
    { zero with
      up := true
      ip := (sm.ifs i).ip
      netmask := (sm.ifs i).netmask
      gateway := (sm.ifs i).gateway
      rssi := if i = .wifiSta then (sm.ifs i).rssi else 0
      upSinceMs := now - sm.upSinceMs }

def snapshotLocked (net : Seam) : Status :=
  let st := smStatus now net.sm
  { st with
    mac := net.mac
    hostname := net.hostname
    ip6Ll := if st.up then net.ip6Ll else st.ip6Ll }

end Status

def getStatus (net : Seam) (now : UInt32) : Status :=
  snapshotLocked now net

def isUp (net : Seam) : Bool :=
  net.sm.active.isSome

-- Subscribing the same pair twice keeps it once.
def subscribe (net : Seam) (sub : Subscriber) : Seam × EspErr :=
  if some sub ∈ net.subs.toList then (net, .ok)
  else
    match net.subs.toList.idxOf? none with
    | none => (net, .noMem)
    | some i => ({ net with subs := net.subs.setIfInBounds i (some sub) }, .ok)

def unsubscribe (net : Seam) (sub : Subscriber) : Seam × EspErr :=
  ({ net with subs := net.subs.map fun s => if s = some sub then none else s },
    if some sub ∈ net.subs.toList then .ok else .notFound)

def registerIf (net : Seam) (iface : Int) (netif : Option Nat) : Seam × EspErr :=
  match Iface.ofInt? iface with
  | none => (net, .invalidArg)
  | some i => ({ net with netif := Function.update net.netif i netif }, .ok)

-- The link-local address of a netif, as the port reads it.
abbrev Port := Option Nat → Buf ip6Max

-- The part of a report under the lock. `changed` is false for a report that
-- repeats itself, which returns at once.
def decideRoute (port : Port) (net : Seam) (task : Task) (now : UInt32) (r : Report) : Seam :=
  let out := smReport now net.sm r
  let net := { net with sm := out.sm }
  let net :=
    if out.edge = .none then net
    else
      { net with
        ip6Ll := (out.sm.active.map fun i => port (net.netif i)).getD .empty
        newest := some task }
  if out.changed then
    { net with
      calls := Function.update net.calls task (some ⟨out.edge, snapshotLocked now net, net.subs⟩) }
  else net

def postings (d : Decided) : List Out :=
  (if d.edge = .down ∨ d.edge = .changed then [.post .networkDown] else []) ++
  (if d.edge = .up ∨ d.edge = .changed then
    [.post (.networkUp (.print d.st.ip.chars) (.print d.st.hostname.chars))] else []) ++
  (if d.edge = .none then [] else (d.subs.toList.filterMap id).map fun sub => .call sub d.st) ++
  [.sse d.st]

-- The rest of the report.
def postRoute (net : Seam) (task : Task) : Seam :=
  match net.calls task with
  | none => net
  | some d =>
    { net with
      calls := Function.update net.calls task none
      outs := net.outs ++ postings d
      newest := if net.newest = some task then none else net.newest }

inductive Input where
  | lock (task : Task) (now : UInt32) (r : Report)
  | post (task : Task)
  | subscribe (sub : Subscriber)
  | unsubscribe (sub : Subscriber)
  | registerIf (iface : Int) (netif : Option Nat)

-- A task reports again only after its last report has returned.
def step (port : Port) (net : Seam) : Input → Seam
  | .lock task now r =>
    match net.calls task with
    | none => decideRoute port net task now r
    | some _ => net
  | .post task => postRoute net task
  | .subscribe sub => (subscribe net sub).1
  | .unsubscribe sub => (unsubscribe net sub).1
  | .registerIf iface netif => (registerIf net iface netif).1

end Espos.Net

-- What the posted events tell of the route, for every interleaving of reports.

namespace Espos.Net

open Espos.Run Espos.Text

def Out.event? : Out → Option Event
  | .post ev => some ev
  | .call _ _ | .sse _ => none

def lastEventIn (outs : List Out) : Option Event :=
  (outs.filterMap Out.event?).getLast?

def lastEvent (net : Seam) : Option Event :=
  lastEventIn net.outs

-- Before the first event the network counts as down.
def Agrees (net : Seam) : Prop :=
  match lastEvent net with
  | some (.networkUp ip _) => isUp net = true ∧ ∀ now, ip = (getStatus net now).ip
  | some .networkDown | none => isUp net = false

def AllReturned (net : Seam) : Prop :=
  ∀ task, net.calls task = none

-- An edge is not posted after a newer decision about the route was.
def InTurn (net : Seam) : Input → Prop
  | .post task => ∀ d, net.calls task = some d → d.edge ≠ .none → net.newest ≠ none
  | _ => True

-- The event tells the route.
def Tells (ev : Option Event) (route : Option Route) : Prop :=
  match ev with
  | some (.networkUp ip _) => ∃ r, route = some r ∧ ip = r.ip
  | some .networkDown | none => route = none

def lastPosted (d : Decided) : Option Event :=
  lastEventIn (postings d)

variable {port : Port} {net : Seam} {task : Task} {d : Decided} {now : UInt32} {r : Report}

theorem lastEventIn_append (l m : List Out) :
    lastEventIn (l ++ m) = (lastEventIn m).or (lastEventIn l) := by
  rw [lastEventIn, List.filterMap_append, List.getLast?_append]
  rfl

theorem lastEventIn_calls (l : List Subscriber) (st : Status) :
    lastEventIn (l.map fun sub => .call sub st) = none := by
  induction l with
  | nil => rfl
  | cons sub l ih => simp [lastEventIn, Out.event?]

theorem lastPosted_eq : lastPosted d =
    match d.edge with
    | .none => none
    | .down => some .networkDown
    | .up | .changed => some (.networkUp d.st.ip d.st.hostname) := by
  have hrest : lastEventIn ((if d.edge = .none then []
      else (d.subs.toList.filterMap id).map fun sub => .call sub d.st) ++ [.sse d.st]) = none := by
    rw [lastEventIn_append]
    split
    next => rfl
    next => rw [lastEventIn_calls]; rfl
  rw [lastPosted, postings, List.append_assoc, lastEventIn_append, hrest, Option.none_or]
  cases d.edge with
  | none => rfl
  | up | down | changed => simp [lastEventIn, Out.event?]

theorem agrees_iff_tells : Agrees net ↔ Tells (lastEvent net) net.sm.route := by
  rw [Agrees, Tells.eq_def]
  cases hactive : net.sm.active with
  | none =>
    have hroute : net.sm.route = none := by rw [Sm.route, hactive]; rfl
    have hdown : isUp net = false := by rw [isUp, hactive]; rfl
    rw [hroute, hdown]
    cases lastEvent net with
    | none => simp
    | some ev => cases ev <;> simp
  | some i =>
    have hroute : net.sm.route = some ⟨i, (net.sm.ifs i).ip, (net.sm.ifs i).netmask,
        (net.sm.ifs i).gateway⟩ := by rw [Sm.route, hactive]; rfl
    have hup : isUp net = true := by rw [isUp, hactive]; rfl
    have hip : ∀ now, (getStatus net now).ip = (net.sm.ifs i).ip := by
      intro now
      simp [getStatus, snapshotLocked, smStatus, hactive]
    rw [hroute, hup]
    cases lastEvent net with
    | none => simp
    | some ev => cases ev <;> simp [hip]

theorem edgeOf_down (before : Option Route) (h : edgeOf before none ≠ .none) :
    edgeOf before none = .down := by
  cases before with
  | none => simp [edgeOf] at h
  | some r => simp [edgeOf]

theorem edgeOf_up (before : Option Route) (r : Route) (h : edgeOf before (some r) ≠ .none) :
    edgeOf before (some r) = .up ∨ edgeOf before (some r) = .changed := by
  cases before with
  | none => simp [edgeOf]
  | some b =>
    by_cases hb : b = r
    · simp [edgeOf, hb] at h
    · simp [edgeOf, hb]

theorem edgeOf_eq_none {before after : Option Route} (h : edgeOf before after = .none) :
    after = before := by
  by_contra hne
  cases after with
  | none =>
    cases before with
    | none => exact hne rfl
    | some b => simp [edgeOf] at h
  | some r =>
    cases before with
    | none => simp [edgeOf] at h
    | some b =>
      have hb : b ≠ r := fun hb => hne (by rw [hb])
      simp [edgeOf, hb] at h

theorem smStatus_ip {sm : Sm} {r : Route} (h : sm.route = some r) :
    (smStatus now sm).ip = r.ip := by
  rw [Sm.route, routeOf, Option.map_eq_some_iff] at h
  obtain ⟨i, hactive, rfl⟩ := h
  simp [smStatus, hactive]

-- The event a call posts last tells the route it decided on.
theorem tells_of_edge {before : Option Route} {sm : Sm}
    (hedge : d.edge = edgeOf before sm.route) (hst : d.st.ip = (smStatus now sm).ip)
    (hmoves : d.edge ≠ .none) : Tells (lastPosted d) sm.route := by
  rw [lastPosted_eq]
  cases hroute : sm.route with
  | none =>
    rw [hroute] at hedge
    rw [hedge, edgeOf_down before (hedge ▸ hmoves)]
    rfl
  | some r =>
    rw [hroute] at hedge
    have hip : d.st.ip = r.ip := hst.trans (smStatus_ip hroute)
    rcases edgeOf_up before r (hedge ▸ hmoves) with he | he
    · rw [hedge, he]
      exact ⟨r, rfl, hip⟩
    · rw [hedge, he]
      exact ⟨r, rfl, hip⟩

-- What a report does under the lock, in terms of the route: it leaves the route
-- as it is, or it becomes the newest decision.
structure Decides (net net' : Seam) (task : Task) : Prop where
  routed : Routed net'.sm
  outs : net'.outs = net.outs
  others : ∀ u, u ≠ task → net'.calls u = net.calls u
  route : (net'.sm.route = net.sm.route ∧ net'.newest = net.newest ∧
      ∀ d, net'.calls task = some d → d.edge = .none) ∨
    (net'.newest = some task ∧
      ∃ d, net'.calls task = some d ∧ d.edge ≠ .none ∧ Tells (lastPosted d) net'.sm.route)

theorem decides_decideRoute (h : Routed net.sm) (hidle : net.calls task = none) (now : UInt32)
    (r : Report) : Decides net (decideRoute port net task now r) task := by
  have hout : Selects net.sm (smReport now net.sm r) := selects_smReport h r
  rw [decideRoute]
  generalize smReport now net.sm r = out at hout
  by_cases hchanged : out.changed = true
  · by_cases hedge : out.edge = .none
    · have hroute : out.sm.route = net.sm.route := edgeOf_eq_none (hout.edge.symm.trans hedge)
      simp only [hchanged, hedge, if_true]
      refine ⟨hout.active, rfl, fun u hu => Function.update_of_ne hu _ _,
        .inl ⟨hroute, rfl, fun d hd => ?_⟩⟩
      dsimp only at hd
      rw [Function.update_self, Option.some.injEq] at hd
      rw [← hd]
    · simp only [hchanged, hedge, if_true, if_false]
      refine ⟨hout.active, rfl, fun u hu => Function.update_of_ne hu _ _, .inr ⟨rfl, ?_⟩⟩
      refine ⟨_, Function.update_self .., hedge, ?_⟩
      exact tells_of_edge hout.edge (rfl : _ = (smStatus now out.sm).ip) hedge
  · have hedge : out.edge = .none := hout.edge_of_unchanged (by simpa using hchanged)
    have hroute : out.sm.route = net.sm.route := edgeOf_eq_none (hout.edge.symm.trans hedge)
    simp only [hchanged, hedge, if_true, if_false, Bool.false_eq_true]
    refine ⟨hout.active, rfl, fun u _ => rfl, .inl ⟨hroute, rfl, fun d hd => ?_⟩⟩
    rw [hidle] at hd
    exact absurd hd nofun

-- The invariant: the newest decision tells the route, and it is either still to
-- be posted or was posted last.
structure Told (net : Seam) : Prop where
  routed : Routed net.sm
  pending : ∀ task, net.newest = some task →
    ∃ d, net.calls task = some d ∧ d.edge ≠ .none ∧ Tells (lastPosted d) net.sm.route
  posted : net.newest = none → Tells (lastEvent net) net.sm.route
  -- Of two tasks only one can be late.
  one : net.newest = none → ∀ t u d e, net.calls t = some d → d.edge ≠ .none →
    net.calls u = some e → e.edge ≠ .none → t = u

theorem told_start (mac : Vector UInt8 6) (hostname : Buf hostnameMax)
    (netif : Iface → Option Nat) (subs : Vector (Option Subscriber) subscribersMax) :
    Told (start mac hostname netif subs) := by
  refine ⟨routed_smInit, fun task h => ?_, fun _ => rfl, fun _ t u d e h => ?_⟩
  · simp [start] at h
  · simp [start] at h

theorem told_of_decides {net' : Seam} (h : Told net) (hidle : net.calls task = none)
    (hd : Decides net net' task) : Told net' := by
  have hlast : lastEvent net' = lastEvent net := by rw [lastEvent, hd.outs, lastEvent]
  rcases hd.route with ⟨hroute, hnewest, hquiet⟩ | ⟨hnewest, hown⟩
  · have hbusy {u : Task} {e : Decided} (he : net'.calls u = some e) (hmoves : e.edge ≠ .none) :
        u ≠ task := by
      rintro rfl
      exact hmoves (hquiet e he)
    refine ⟨hd.routed, fun u hu => ?_, fun hn => ?_, fun hn t u d e ht htm hu hum => ?_⟩
    · obtain ⟨e, he, hmoves, htells⟩ := h.pending u (hnewest ▸ hu)
      have hne : u ≠ task := by
        rintro rfl
        rw [hidle] at he
        exact absurd he nofun
      exact ⟨e, (hd.others u hne).trans he, hmoves, hroute ▸ htells⟩
    · rw [hlast, hroute]
      exact h.posted (hnewest ▸ hn)
    · rw [hd.others t (hbusy ht htm)] at ht
      rw [hd.others u (hbusy hu hum)] at hu
      exact h.one (hnewest ▸ hn) t u d e ht htm hu hum
  · refine ⟨hd.routed, fun u hu => ?_, fun hn => ?_, fun hn => ?_⟩
    · rw [hnewest, Option.some.injEq] at hu
      rw [← hu]
      exact hown
    · rw [hnewest] at hn
      exact absurd hn nofun
    · rw [hnewest] at hn
      exact absurd hn nofun

theorem Task.eq_of_ne {t u v : Task} (ht : t ≠ v) (hu : u ≠ v) : t = u := by
  cases t <;> cases u <;> cases v <;> simp_all

-- What posting does to a call that is under way.
structure Posts (net net' : Seam) (task : Task) (d : Decided) : Prop where
  sm : net'.sm = net.sm
  own : net'.calls task = none
  others : ∀ u, u ≠ task → net'.calls u = net.calls u
  last : lastEvent net' = (lastPosted d).or (lastEvent net)
  newest : net'.newest = if net.newest = some task then none else net.newest

theorem posts_postRoute (hcall : net.calls task = some d) :
    Posts net (postRoute net task) task d := by
  simp only [postRoute, hcall]
  refine ⟨rfl, Function.update_self .., fun u hu => Function.update_of_ne hu _ _, ?_, rfl⟩
  exact lastEventIn_append _ _

theorem postRoute_idle (hcall : net.calls task = none) : postRoute net task = net := by
  simp only [postRoute, hcall]

theorem lastPosted_eq_none_iff : lastPosted d = none ↔ d.edge = .none := by
  rw [lastPosted_eq]
  cases d.edge <;> simp

theorem Posts.last_of_moves {net' : Seam} (h : Posts net net' task d) (hmoves : d.edge ≠ .none) :
    lastEvent net' = lastPosted d := by
  rw [h.last]
  cases hp : lastPosted d with
  | none => exact absurd (lastPosted_eq_none_iff.mp hp) hmoves
  | some ev => rfl

theorem Posts.last_of_quiet {net' : Seam} (h : Posts net net' task d) (hquiet : d.edge = .none) :
    lastEvent net' = lastEvent net := by
  rw [h.last, lastPosted_eq_none_iff.mpr hquiet, Option.none_or]

theorem Posts.busy {net' : Seam} (h : Posts net net' task d) {u : Task} {e : Decided}
    (he : net'.calls u = some e) : u ≠ task ∧ net.calls u = some e := by
  have hne : u ≠ task := by
    rintro rfl
    rw [h.own] at he
    exact absurd he nofun
  exact ⟨hne, (h.others u hne).symm.trans he⟩

theorem told_postRoute (h : Told net) (hturn : InTurn net (.post task)) :
    Told (postRoute net task) := by
  cases hcall : net.calls task with
  | none => rwa [postRoute_idle hcall]
  | some d =>
    have hp := posts_postRoute hcall
    generalize postRoute net task = net' at hp
    have hkept (u : Task) (hu : u ≠ task) (hn : net.newest = some u) :
        ∃ e, net'.calls u = some e ∧ e.edge ≠ .none ∧ Tells (lastPosted e) net'.sm.route := by
      rw [hp.others u hu, hp.sm]
      exact h.pending u hn
    by_cases hown : net.newest = some task
    · obtain ⟨e, he, hmoves, htells⟩ := h.pending task hown
      obtain rfl : d = e := Option.some.inj (hcall.symm.trans he)
      have hnewest : net'.newest = none := by rw [hp.newest, if_pos hown]
      refine ⟨hp.sm ▸ h.routed, fun u hu => ?_, fun _ => ?_, fun _ t u d e ht _ hu _ => ?_⟩
      · rw [hnewest] at hu
        exact absurd hu nofun
      · rw [hp.last_of_moves hmoves, hp.sm]
        exact htells
      · exact Task.eq_of_ne (hp.busy ht).1 (hp.busy hu).1
    · have hnewest : net'.newest = net.newest := by rw [hp.newest, if_neg hown]
      refine ⟨hp.sm ▸ h.routed, fun u hu => ?_, fun hn => ?_, fun hn t u d e ht htm hu hum => ?_⟩
      · rw [hnewest] at hu
        refine hkept u ?_ hu
        rintro rfl
        exact hown hu
      · rw [hnewest] at hn
        -- Nothing newer is left to be posted, so this call has no edge.
        have hquiet : d.edge = .none := by
          by_contra hmoves
          exact hturn d hcall hmoves hn
        rw [hp.last_of_quiet hquiet, hp.sm]
        exact h.posted hn
      · rw [hnewest] at hn
        exact h.one hn t u d e (hp.busy ht).2 htm (hp.busy hu).2 hum

theorem told_step (h : Told net) (input : Input) (hturn : InTurn net input) :
    Told (step port net input) := by
  cases input with
  | lock task now r =>
    rw [step]
    split
    next hidle => exact told_of_decides h hidle (decides_decideRoute h.routed hidle now r)
    next => exact h
  | post task => exact told_postRoute h hturn
  | subscribe sub =>
    rw [step, subscribe]
    split
    next => exact h
    next =>
      split
      next => exact h
      next => exact ⟨h.routed, h.pending, h.posted, h.one⟩
  | unsubscribe sub => exact ⟨h.routed, h.pending, h.posted, h.one⟩
  | registerIf iface netif =>
    rw [step, registerIf]
    split
    next => exact h
    next => exact ⟨h.routed, h.pending, h.posted, h.one⟩

theorem Told.agrees (h : Told net) (hreturned : AllReturned net) : Agrees net := by
  rw [agrees_iff_tells]
  refine h.posted ?_
  cases hn : net.newest with
  | none => rfl
  | some task =>
    obtain ⟨d, hd, _⟩ := h.pending task hn
    rw [hreturned task] at hd
    exact absurd hd nofun

-- Both tasks return, in whatever order they got there.
def returnBoth : List Input :=
  [.post .station, .post .ethernet]

-- No edge is left to be posted.
structure Quiet (ev : Option Event) (sm : Sm) (net : Seam) : Prop where
  last : lastEvent net = ev
  sm : net.sm = sm
  calls : ∀ task d, net.calls task = some d → d.edge = .none

theorem quiet_postRoute {ev : Option Event} {sm : Sm} (h : Quiet ev sm net) (task : Task) :
    Quiet ev sm (postRoute net task) := by
  cases hcall : net.calls task with
  | none => rwa [postRoute_idle hcall]
  | some d =>
    have hp := posts_postRoute hcall
    refine ⟨?_, hp.sm.trans h.sm, fun u e he => h.calls u e (hp.busy he).2⟩
    rw [hp.last_of_quiet (h.calls task d hcall)]
    exact h.last

theorem postRoute_returned (task : Task) : (postRoute net task).calls task = none := by
  cases hcall : net.calls task with
  | none => rwa [postRoute_idle hcall]
  | some d => exact (posts_postRoute hcall).own

theorem postRoute_keeps_returned {task u : Task} (h : net.calls u = none) :
    (postRoute net task).calls u = none := by
  by_cases hu : u = task
  · rw [hu]
    exact postRoute_returned task
  · cases hcall : net.calls task with
    | none => rwa [postRoute_idle hcall]
    | some d => rwa [(posts_postRoute hcall).others u hu]

theorem quiet_returnBoth (port : Port) {ev : Option Event} {sm : Sm} (h : Quiet ev sm net) :
    Quiet ev sm (run (step port) net returnBoth) ∧ AllReturned (run (step port) net returnBoth) := by
  refine ⟨quiet_postRoute (quiet_postRoute h .station) .ethernet, fun task => ?_⟩
  cases task with
  | station => exact postRoute_keeps_returned (postRoute_returned .station)
  | ethernet => exact postRoute_returned .ethernet

-- A decision that is posted late is what the events tell from then on.
theorem quiet_of_late (h : Told net) (hcall : net.calls task = some d) (hmoves : d.edge ≠ .none)
    (hlate : net.newest = none) : Quiet (lastPosted d) net.sm (postRoute net task) := by
  have hp := posts_postRoute hcall
  refine ⟨hp.last_of_moves hmoves, hp.sm, fun u e he => ?_⟩
  obtain ⟨hne, he⟩ := hp.busy he
  by_contra hmoves'
  exact hne (h.one hlate u task e d he hmoves' hcall hmoves)

section Main

variable (port : Port) (mac : Vector UInt8 6) (hostname : Buf hostnameMax)
  (netif : Iface → Option Nat) (subs : Vector (Option Subscriber) subscribersMax)

-- The machine's route is the best interface that is up, and every edge is the
-- one between the routes before and after. The events tell the same once both
-- tasks have returned, as long as no edge is posted after a newer one; one that
-- is posted after a newer one is what they tell instead.
theorem route_events :
    (∀ reports, Always smStep (fun sm => BestUp sm.ifs sm.active) smInit reports ∧
      Along smStep (fun sm input => (smReport input.1 sm input.2).edge =
        edgeOf sm.route (smStep sm input).route) smInit reports) ∧
    ∀ inputs, Along (step port) InTurn (start mac hostname netif subs) inputs →
      Always (step port) (fun net => AllReturned net → Agrees net)
        (start mac hostname netif subs) inputs ∧
      ∀ task, ¬InTurn (run (step port) (start mac hostname netif subs) inputs) (.post task) →
        ∃ late, (run (step port) (start mac hostname netif subs) inputs).calls task = some late ∧
          let net := run (step port) (start mac hostname netif subs)
            (inputs ++ .post task :: returnBoth)
          AllReturned net ∧ (Agrees net ↔ Tells (lastPosted late) net.sm.route) := by
  refine ⟨fun reports => ⟨?_, ?_⟩, fun inputs hturn => ⟨?_, fun task hlate => ?_⟩⟩
  · exact (routed_always reports).imp fun sm h => h.bestUp
  · exact edges_along reports
  · have htold := always_of_along (P := Told) (fun net input h hi => told_step h input hi)
      (told_start mac hostname netif subs) hturn
    exact htold.imp fun net h => h.agrees
  · have htold : Told (run (step port) (start mac hostname netif subs) inputs) :=
      run_invariant_of_along (P := Told) (fun net input h hi => told_step h input hi)
        (told_start mac hostname netif subs) hturn
    simp only [InTurn, not_forall, not_not] at hlate
    obtain ⟨late, hcall, hmoves, hnewest⟩ := hlate
    have hrun : run (step port) (start mac hostname netif subs)
        (inputs ++ .post task :: returnBoth) = run (step port)
          (postRoute (run (step port) (start mac hostname netif subs) inputs) task) returnBoth := by
      rw [run, List.foldl_append]
      rfl
    refine ⟨late, hcall, ?_⟩
    rw [hrun]
    obtain ⟨hquiet, hreturned⟩ :=
      quiet_returnBoth port (quiet_of_late htold hcall hmoves hnewest)
    refine ⟨hreturned, ?_⟩
    rw [agrees_iff_tells, hquiet.last]

end Main

-- The station comes up, Ethernet comes up after it and is posted first.
def crossedInputs : List Input :=
  let up (iface : Int) (ip : String) : Report :=
    ⟨iface, true, some (lit ip), some (lit "255.255.255.0"), none, 0⟩
  [ .lock .station 1 (up 1 "10.0.0.2"),
    .lock .ethernet 2 (up 2 "10.0.1.3"),
    .post .ethernet,
    .post .station ]

theorem crossed_events_misreport :
    let net := run (step fun _ => .empty)
      (start (.replicate 6 0) .empty (fun _ => none) (.replicate 8 none)) crossedInputs
    AllReturned net ∧ (getStatus net 3).ip = .print (lit "10.0.1.3") ∧
      lastEvent net = some (.networkUp (.print (lit "10.0.0.2")) .empty) := by
  refine ⟨fun task => ?_, ?_, ?_⟩
  · cases task <;> decide +kernel
  · decide +kernel
  · decide +kernel

end Espos.Net
