import Espos.Lib.Run
import Espos.Lib.Text
import Mathlib.Logic.Function.Basic

-- The default-route machine of `net_sm.c`.

namespace Espos.Net

open Espos.Run Espos.Text

-- `ESPOS_NET_IF_NONE` is `none` of `Option Iface`.
inductive Iface where
  | wifiSta
  | eth
  | thread
deriving DecidableEq

-- The values that name an interface; any other report is ignored.
def Iface.ofInt? : Int → Option Iface
  | 1 => some .wifiSta
  | 2 => some .eth
  | 3 => some .thread
  | _ => none

inductive Edge where
  | none
  | up
  | down
  | changed
deriving DecidableEq

def ipMax : Nat := 16

-- One interface as last reported.
structure SmIf where
  up : Bool
  ip : Buf ipMax
  netmask : Buf ipMax
  gateway : Buf ipMax
  rssi : Int8
  upSinceMs : UInt32
deriving DecidableEq

def SmIf.zero : SmIf :=
  ⟨false, .empty, .empty, .empty, 0, 0⟩

structure Sm where
  ifs : Iface → SmIf
  active : Option Iface
  upCount : UInt32
  upSinceMs : UInt32

def smInit : Sm :=
  ⟨fun _ => .zero, none, 0, 0⟩

-- The arguments of a report. A missing string is NULL.
structure Report where
  iface : Int
  up : Bool
  ip : Option CStr
  netmask : Option CStr
  gateway : Option CStr
  rssi : Int8

def preference : List Iface := [.eth, .wifiSta, .thread]

def smSelect (ifs : Iface → SmIf) : Option Iface :=
  preference.find? fun i => (ifs i).up

def copyIp (src : Option CStr) : Buf ipMax :=
  .print (src.getD [])

section Report

variable (now : UInt32)

-- The record a report asks for. The up time survives address and RSSI refreshes.
def nextIf (cur : SmIf) (r : Report) : SmIf :=
  if r.up then
    { up := true
      ip := copyIp r.ip
      netmask := copyIp r.netmask
      gateway := copyIp r.gateway
      rssi := r.rssi
      upSinceMs := if cur.up then cur.upSinceMs else now }
  else .zero

def sameRoute (a b : SmIf) : Bool :=
  a.up == b.up && a.ip == b.ip && a.netmask == b.netmask && a.gateway == b.gateway

-- The selection after the record of `iface` was replaced.
def reselect (sm : Sm) (iface : Iface) (same : Bool) : Sm × Edge :=
  match sm.active, smSelect sm.ifs with
  | none, some sel =>
    ({ sm with active := some sel, upCount := sm.upCount + 1, upSinceMs := now }, .up)
  | some _, none => ({ sm with active := none, upSinceMs := 0 }, .down)
  | none, none => (sm, .none)
  | some was, some sel =>
    if was ≠ sel then
      ({ sm with active := some sel, upCount := sm.upCount + 1, upSinceMs := now }, .changed)
    else if iface = was ∧ same = false then
      ({ sm with upCount := sm.upCount + 1, upSinceMs := now }, .changed)
    else (sm, .none)

structure Reported where
  sm : Sm
  edge : Edge
  changed : Bool

def smReport (sm : Sm) (r : Report) : Reported :=
  match Iface.ofInt? r.iface with
  | none => ⟨sm, .none, false⟩
  | some iface =>
    let cur := sm.ifs iface
    let next := nextIf now cur r
    if sameRoute cur next && cur.rssi == next.rssi then ⟨sm, .none, false⟩
    else
      let out := reselect now { sm with ifs := Function.update sm.ifs iface next } iface
        (sameRoute cur next)
      ⟨out.1, out.2, true⟩

end Report

-- What the machine is for: the route is the best interface that is up, and an
-- edge tells how the route before and the route after differ.
structure Route where
  iface : Iface
  ip : Buf ipMax
  netmask : Buf ipMax
  gateway : Buf ipMax
deriving DecidableEq

def routeOf (ifs : Iface → SmIf) (active : Option Iface) : Option Route :=
  active.map fun i => ⟨i, (ifs i).ip, (ifs i).netmask, (ifs i).gateway⟩

def Sm.route (sm : Sm) : Option Route :=
  routeOf sm.ifs sm.active

def edgeOf (before after : Option Route) : Edge :=
  if before = after then .none
  else
    match before, after with
    | none, _ => .up
    | some _, none => .down
    | some _, some _ => .changed

-- Wired before wireless before mesh.
def Iface.rank : Iface → Nat
  | .eth => 0
  | .wifiSta => 1
  | .thread => 2

def BestUp (ifs : Iface → SmIf) : Option Iface → Prop
  | none => ∀ i, (ifs i).up = false
  | some i => (ifs i).up = true ∧ ∀ j, (ifs j).up = true → i.rank ≤ j.rank

def Routed (sm : Sm) : Prop :=
  sm.active = smSelect sm.ifs

theorem bestUp_smSelect (ifs : Iface → SmIf) : BestUp ifs (smSelect ifs) := by
  rw [smSelect, preference]
  by_cases he : (ifs .eth).up = true
  · simp only [List.find?_cons, he, BestUp, true_and]
    intro j _
    exact Nat.zero_le _
  · by_cases hw : (ifs .wifiSta).up = true
    · simp only [List.find?_cons, he, hw, BestUp, true_and]
      intro j hj
      cases j with
      | eth => exact absurd hj he
      | wifiSta | thread => simp [Iface.rank]
    · by_cases ht : (ifs .thread).up = true
      · simp only [List.find?_cons, he, hw, ht, BestUp, true_and]
        intro j hj
        cases j with
        | eth => exact absurd hj he
        | wifiSta => exact absurd hj hw
        | thread => exact Nat.le_refl _
      · simp only [List.find?_cons, List.find?_nil, he, hw, ht, BestUp]
        intro i
        cases i with
        | eth => simpa using he
        | wifiSta => simpa using hw
        | thread => simpa using ht

theorem up_of_smSelect {ifs : Iface → SmIf} {i : Iface} (h : smSelect ifs = some i) :
    (ifs i).up = true := by
  have hbest := bestUp_smSelect ifs
  rw [h] at hbest
  exact hbest.1

theorem sameRoute_iff {a b : SmIf} :
    sameRoute a b = true ↔
      a.up = b.up ∧ a.ip = b.ip ∧ a.netmask = b.netmask ∧ a.gateway = b.gateway := by
  simp [sameRoute, and_assoc]

section Reselect

variable {now : UInt32} {sm : Sm} {iface : Iface} {same : Bool}

@[simp] theorem reselect_ifs : (reselect now sm iface same).1.ifs = sm.ifs := by
  rw [reselect]
  split <;> try rfl
  split <;> try rfl
  split <;> rfl

theorem reselect_active : (reselect now sm iface same).1.active = smSelect sm.ifs := by
  rw [reselect]
  split
  next _ _ _ hsel => exact hsel.symm
  next _ _ _ hsel => exact hsel.symm
  next hwas hsel => rw [hsel, hwas]
  next was sel hwas hsel =>
    by_cases hmoved : was = sel
    · subst hmoved
      rw [if_neg (by simp), hsel]
      split <;> exact hwas
    · rw [if_pos hmoved, hsel]

-- The edge is the one between the routes, where `old` is what the record of
-- `iface` was before.
theorem reselect_edge {old : Iface → SmIf} (hactive : sm.active = smSelect old)
    (hold : ∀ i, i ≠ iface → old i = sm.ifs i)
    (hsame : same = sameRoute (old iface) (sm.ifs iface)) :
    (reselect now sm iface same).2 =
      edgeOf (routeOf old sm.active) (routeOf sm.ifs (smSelect sm.ifs)) := by
  rw [reselect]
  split
  next hwas hsel => simp [hwas, hsel, routeOf, edgeOf]
  next hwas hsel => simp [hwas, hsel, routeOf, edgeOf]
  next hwas hsel => simp [hwas, hsel, routeOf, edgeOf]
  next was sel hwas hsel =>
    rw [hwas, hsel]
    by_cases hmoved : was = sel
    · subst hmoved
      rw [if_neg (by simp)]
      by_cases hown : iface = was
      · subst hown
        by_cases hs : same = true
        · have hkept := sameRoute_iff.mp (hsame.symm.trans hs)
          simp [hs, routeOf, edgeOf, hkept]
        · have hup : (old iface).up = (sm.ifs iface).up :=
            (up_of_smSelect (hactive.symm.trans hwas)).trans (up_of_smSelect hsel).symm
          have hdiffers : ¬((old iface).ip = (sm.ifs iface).ip ∧
              (old iface).netmask = (sm.ifs iface).netmask ∧
              (old iface).gateway = (sm.ifs iface).gateway) := by
            intro heq
            exact hs (hsame.trans (sameRoute_iff.mpr ⟨hup, heq⟩))
          have hroute : routeOf old (some iface) ≠ routeOf sm.ifs (some iface) := by
            simpa [routeOf] using hdiffers
          rw [if_pos ⟨rfl, by simpa using hs⟩, edgeOf.eq_def, if_neg hroute]
          rfl
      · have hkept : old was = sm.ifs was := hold was (Ne.symm hown)
        simp [hown, routeOf, edgeOf, hkept]
    · simp [hmoved, routeOf, edgeOf]

end Reselect

section SmReport

variable {now : UInt32} {sm : Sm}

-- What a report does to the machine.
structure Selects (sm : Sm) (out : Reported) : Prop where
  active : out.sm.active = smSelect out.sm.ifs
  edge : out.edge = edgeOf sm.route out.sm.route
  edge_of_unchanged : out.changed = false → out.edge = .none

theorem selects_smReport (h : Routed sm) (r : Report) : Selects sm (smReport now sm r) := by
  have hidle : Selects sm ⟨sm, .none, false⟩ := ⟨h, by simp [edgeOf], fun _ => rfl⟩
  rw [smReport]
  split
  next => exact hidle
  next iface _ =>
    dsimp only
    split
    next => exact hidle
    next =>
      refine ⟨?_, ?_, nofun⟩
      · rw [reselect_ifs]
        exact reselect_active
      · rw [Sm.route, Sm.route, reselect_ifs, reselect_active]
        refine reselect_edge h (fun i hi => ?_) ?_
        · exact (Function.update_of_ne hi _ _).symm
        · simp

theorem routed_smInit : Routed smInit := rfl

theorem Routed.bestUp (h : Routed sm) : BestUp sm.ifs sm.active := by
  rw [h]
  exact bestUp_smSelect sm.ifs

end SmReport

def smStep (sm : Sm) (input : UInt32 × Report) : Sm :=
  (smReport input.1 sm input.2).sm

theorem routed_smStep {sm : Sm} (h : Routed sm) (input : UInt32 × Report) :
    Routed (smStep sm input) :=
  (selects_smReport h input.2).active

theorem routed_always (reports : List (UInt32 × Report)) : Always smStep Routed smInit reports := by
  have hall : Along smStep (fun _ _ => True) smInit reports := along_of_forall fun _ _ => trivial
  exact always_of_along (P := Routed) (fun _ input h _ => routed_smStep h input) routed_smInit hall

theorem edges_along (reports : List (UInt32 × Report)) :
    Along smStep (fun sm input => (smReport input.1 sm input.2).edge =
      edgeOf sm.route (smStep sm input).route) smInit reports := by
  have hall : Along smStep (fun _ _ => True) smInit reports := along_of_forall fun _ _ => trivial
  exact along_of_invariant (P := Routed) (fun _ input h _ => routed_smStep h input)
    (fun _ input h _ => (selects_smReport h input.2).edge) routed_smInit hall

end Espos.Net
