import Espos.Lib.Digits
import Espos.Lib.Orders
import Espos.Sk.Inbound.Frames
import Espos.Update.System

-- The version manifest of `manifest.c`: how versions compare, and which build is picked.

namespace Espos.Update

open Espos.Text Espos.Strtol Espos.Orders
open Espos.Sk.Inbound (Cjson getObjectItem strOf isObject)

def ESPOS_OTA_VERSION_MAX : Nat := 32
def ESPOS_OTA_NOTES_MAX : Nat := 128
def ESPOS_OTA_SIZE_MAX : Nat := 256 * 1024 * 1024

def startsNumber (text : CStr) : Bool :=
  text.head?.any Char.isDigit

-- The loop of `parse_core`, with room for as many numbers.
def parseNumbers : Nat → CStr → List Int × CStr
  | 0, s => ([], s)
  | room + 1, s =>
    if startsNumber s then
      let (n, s) := strtol s
      if s.head? = some '.' ∧ startsNumber s.tail then
        let (ns, rest) := parseNumbers room s.tail
        (n :: ns, rest)
      else ([n], s)
    else ([], s)

def parseCore (s : CStr) : List Int × CStr :=
  parseNumbers 4 (if s.head? = some 'v' ∨ s.head? = some 'V' then s.tail else s)

-- The four numbers, missing ones as 0: the first that differ decide.
def compareNumbers (na nb : List Int) : Ordering :=
  List.compareLex compare ((List.range 4).map (na.getD · 0)) ((List.range 4).map (nb.getD · 0))

def prerelease (rest : CStr) : Bool :=
  rest.head? == some '-'

def compareRest (ra rb : CStr) : Ordering :=
  let pa := prerelease ra
  let pb := prerelease rb
  if pa != pb then (if pa then .lt else .gt)
  else if pa then strcmp ra rb
  else .eq

-- The sign of `espos_ota_version_cmp(a, b)`.
def versionCmp (a b : CStr) : Ordering :=
  let (na, ra) := parseCore a
  let (nb, rb) := parseCore b
  if na.isEmpty || nb.isEmpty then strcmp a b
  else (compareNumbers na nb).then (compareRest ra rb)

-- Where the first `://` ends.
def schemeEnd (base : CStr) : Option Nat :=
  ((List.range base.length).find? fun i => (lit "://").isPrefixOf (base.drop i)).map (· + 3)

-- `strrchr(text, '/')`
def lastSlash (text : CStr) : Option Nat :=
  if '/' ∈ text then some (text.length - 1 - text.reverse.idxOf '/') else none

-- What `espos_ota_resolve_url` prints, cut off to the size of `out`.
def resolveUrl (base : Option CStr) (rel : CStr) : Option CStr :=
  if rel.isEmpty then none
  else if strstr rel (lit "://") then some rel
  else
    match base, base.bind schemeEnd with
    | some base, some schemeEnd =>
      if rel.head? = some '/' then
        some (base.take (schemeEnd + (base.drop schemeEnd).idxOf '/') ++ rel)
      else
        match lastSlash base with
        | none => some (base ++ '/' :: rel)
        | some last =>
          if last < schemeEnd then some (base ++ '/' :: rel)
          else some (base.take last ++ '/' :: rel)
    | _, _ => none

-- `espos_ota_build_t`
structure OtaBuild where
  version : Buf ESPOS_OTA_VERSION_MAX := .empty
  url : Buf ESPOS_OTA_URL_MAX := .empty
  sha256 : Buf 65 := .empty
  notes : Buf ESPOS_OTA_NOTES_MAX := .empty
  size : Nat := 0
  newer : Bool := false
deriving DecidableEq

-- Two names of an application, of which either may be missing.
def sameApp : Option CStr → Option CStr → Bool
  | some a, some b => a == b
  | _, _ => true

-- The builds of a manifest, up to the loop over them.
def manifestBuilds (c : Cjson) (json : CStr) (app : Option CStr) : Except EspErr (List Json) :=
  let root := c.parse json
  let otherSchema :=
    match getObjectItem root (lit "schema") with
    | some (.number x) => c.valueint x != 1
    | _ => false
  if !isObject root || otherSchema then .error .invalidArg
  else if !sameApp (strOf root (lit "app")) app then .error .notFound
  else
    match getObjectItem root (lit "builds") with
    | some (.array builds) => .ok builds
    | _ => .error .invalidArg

def eligible (app : Option CStr) (target channel : CStr) (b : Json) : Bool :=
  isObject (some b) && strOf (some b) (lit "target") == some target &&
    (strOf (some b) (lit "version")).isSome && (strOf (some b) (lit "url")).isSome &&
    (strOf (some b) (lit "channel")).getD (lit "stable") == channel &&
    sameApp (strOf (some b) (lit "app")) app

def versionOf (b : Json) : CStr :=
  (strOf (some b) (lit "version")).getD []

-- The loop over the builds: one takes the place of an older one.
def bestBuild (app : Option CStr) (target channel : CStr) (builds : List Json) : Option Json :=
  (Best.elect (eligible app target channel)
    (fun b best => versionCmp (versionOf b) (versionOf best) == .gt) builds).map Prod.snd

def chosen (c : Cjson) (json : CStr) (app : Option CStr) (target channel : CStr) :
    Except EspErr Json :=
  match manifestBuilds c json app with
  | .error e => .error e
  | .ok builds =>
    match bestBuild app target channel builds with
    | none => .error .notFound
    | some best => .ok best

-- An unusable size is 0.
def usableSize : Option Json → Nat
  | some (.number (.finite q)) => if 0 < q ∧ q ≤ ESPOS_OTA_SIZE_MAX then ⌊q⌋.toNat else 0
  | _ => 0

def manifestPick (c : Cjson) (json : CStr) (manifestUrl app : Option CStr)
    (target channel : CStr) (runningVersion : Option CStr) : EspErr × OtaBuild :=
  match chosen c json app target channel with
  | .error e => (e, {})
  | .ok best =>
    let out : OtaBuild := { version := .print (versionOf best) }
    match resolveUrl manifestUrl ((strOf (some best) (lit "url")).getD []) with
    | none => (.invalidArg, out)
    | some url =>
      let out := { out with url := .print url }
      if ESPOS_OTA_URL_MAX ≤ url.length then (.invalidArg, out)
      else
        let running := runningVersion.getD []
        (.ok, { out with
          sha256 := .print ((strOf (some best) (lit "sha256")).getD [])
          notes := .print ((strOf (some best) (lit "notes")).getD [])
          size := usableSize (getObjectItem (some best) (lit "size"))
          newer := running.isEmpty || versionCmp out.version.chars running == .gt })

section Order

-- Whether there is a number to compare.
def numeric (version : CStr) : Bool :=
  !(parseCore version).1.isEmpty

-- The order of versions with numbers.
def coreCmp (a b : CStr) : Ordering :=
  (compareNumbers (parseCore a).1 (parseCore b).1).then
    (compareRest (parseCore a).2 (parseCore b).2)

theorem versionCmp_eq_mixed : versionCmp = mixed numeric coreCmp strcmp := by
  funext a b
  simp only [versionCmp, mixed, numeric, coreCmp, ← Bool.not_or]
  by_cases h : ((parseCore a).1.isEmpty || (parseCore b).1.isEmpty) = true
  · rw [if_pos h, h]
    rfl
  · rw [if_neg h, Bool.eq_false_iff.mpr h]
    rfl

instance : Std.TransCmp compareNumbers where
  eq_swap := by
    unfold compareNumbers
    exact Std.OrientedCmp.eq_swap
  isLE_trans hab hbc := by
    unfold compareNumbers at hab hbc ⊢
    exact Std.TransCmp.isLE_trans hab hbc

instance : Std.TransCmp compareRest where
  eq_swap {ra rb} := by
    unfold compareRest
    cases prerelease ra with
    | false => cases prerelease rb <;> rfl
    | true =>
      cases prerelease rb with
      | false => rfl
      | true => exact Std.OrientedCmp.eq_swap
  isLE_trans {ra rb rc} hab hbc := by
    unfold compareRest at hab hbc ⊢
    cases ha : prerelease ra with
    | false =>
      cases hb : prerelease rb with
      | true =>
        rw [ha, hb] at hab
        cases hab
      | false =>
        cases hc : prerelease rc with
        | true =>
          rw [hb, hc] at hbc
          cases hbc
        | false => rfl
    | true =>
      cases hc : prerelease rc with
      | false => rfl
      | true =>
        cases hb : prerelease rb with
        | false =>
          rw [hb, hc] at hbc
          cases hbc
        | true =>
          rw [ha, hb] at hab
          rw [hb, hc] at hbc
          have hle : (strcmp ra rc).isLE := Std.TransCmp.isLE_trans hab hbc
          exact hle

instance : Std.TransCmp coreCmp where
  eq_swap {a b} := by
    unfold coreCmp
    rw [Ordering.swap_then, ← Std.OrientedCmp.eq_swap, ← Std.OrientedCmp.eq_swap]
  isLE_trans {a b c} hab hbc := by
    unfold coreCmp at hab hbc ⊢
    rw [Ordering.isLE_then_iff_and] at hab hbc ⊢
    refine ⟨Std.TransCmp.isLE_trans hab.1 hbc.1, ?_⟩
    rcases hab.2 with hlt | hrest
    · exact .inl (Std.TransCmp.lt_of_lt_of_isLE hlt hbc.1)
    · rcases hbc.2 with hlt | hrest'
      · exact .inl (Std.TransCmp.lt_of_isLE_of_lt hab.1 hlt)
      · exact .inr (Std.TransCmp.isLE_trans hrest hrest')

instance : Std.LawfulEqCmp strcmp where
  compare_self := strcmp_eq_iff.mpr rfl
  eq_of_compare := strcmp_eq_iff.mp

instance : Std.OrientedCmp versionCmp := by
  rw [versionCmp_eq_mixed]
  infer_instance

-- A version that is compared as a text has its place among those with numbers, and it lies
-- between two of them only where these are in the same order.
def Graded (V : Set CStr) : Prop :=
  Agrees numeric coreCmp strcmp V

theorem transOn_versionCmp_iff (V : Set CStr) : TransOn versionCmp V ↔ Graded V := by
  rw [versionCmp_eq_mixed]
  exact transOn_mixed_iff

end Order

section Newest

variable {c : Cjson} {app : Option CStr} {target channel json : CStr}

-- The builds a manifest has for the device.
def candidates (c : Cjson) (json : CStr) (app : Option CStr) (target channel : CStr) :
    List Json :=
  match manifestBuilds c json app with
  | .error _ => []
  | .ok builds => builds.filter (eligible app target channel)

theorem chosen_eq_ok {best : Json} (h : chosen c json app target channel = .ok best) :
    ∃ builds, manifestBuilds c json app = .ok builds ∧
      bestBuild app target channel builds = some best := by
  unfold chosen at h
  cases hbuilds : manifestBuilds c json app with
  | error e =>
    rw [hbuilds] at h
    cases h
  | ok builds =>
    cases hbest : bestBuild app target channel builds with
    | none =>
      simp only [hbuilds, hbest] at h
      cases h
    | some best' =>
      simp only [hbuilds, hbest] at h
      cases h
      exact ⟨builds, rfl, hbest⟩

theorem mem_candidates {builds : List Json} {b : Json}
    (h : manifestBuilds c json app = .ok builds) :
    b ∈ candidates c json app target channel ↔
      b ∈ builds ∧ eligible app target channel b = true := by
  simp only [candidates, h, List.mem_filter]

-- How builds compare.
def buildCmp (a b : Json) : Ordering :=
  versionCmp (versionOf a) (versionOf b)

instance : Std.OrientedCmp buildCmp where
  eq_swap := by
    unfold buildCmp
    exact Std.OrientedCmp.eq_swap

theorem bestBuild_eq_some {builds : List Json} {best : Json}
    (h : bestBuild app target channel builds = some best) :
    ∃ i, Best.elect (eligible app target channel) (fun a b => buildCmp a b == .gt) builds =
      some (i, best) := by
  obtain ⟨⟨i, best'⟩, helect, rfl⟩ := Option.map_eq_some_iff.mp h
  exact ⟨i, helect⟩

theorem transOn_buildCmp {V : Set CStr} {builds : List Json} (h : TransOn versionCmp V)
    (hV : ∀ b ∈ builds, eligible app target channel b = true → versionOf b ∈ V) :
    TransOn buildCmp {b | b ∈ builds ∧ eligible app target channel b = true} := by
  rintro a ⟨ha, ha'⟩ b ⟨hb, hb'⟩ d ⟨hd, hd'⟩ hab hbd
  exact h _ (hV a ha ha') _ (hV b hb hb') _ (hV d hd hd') hab hbd

theorem exists_chosen {builds : List Json} {b : Json} (h : manifestBuilds c json app = .ok builds)
    (hb : b ∈ builds) (hhit : eligible app target channel b = true) :
    ∃ best, chosen c json app target channel = .ok best := by
  cases hbest : bestBuild app target channel builds with
  | none =>
    have hnone := (Best.electFrom_eq_none (Option.map_eq_none_iff.mp hbest)).2 b hb
    rw [hhit] at hnone
    cases hnone
  | some best => exact ⟨best, by simp only [chosen, h, hbest]⟩

end Newest

-- For manifests whose builds have such versions: none of them is above the one chosen, and
-- the same builds in another order lead to one that ties with it.
def PicksNewest (V : Set CStr) : Prop :=
  ∀ (c : Cjson) (app : Option CStr) (target channel json : CStr) (best : Json),
    (∀ b ∈ candidates c json app target channel, versionOf b ∈ V) →
    chosen c json app target channel = .ok best →
    best ∈ candidates c json app target channel ∧
      (∀ b ∈ candidates c json app target channel, (buildCmp b best).isLE) ∧
      ∀ (json' : CStr) (builds builds' : List Json), manifestBuilds c json app = .ok builds →
        manifestBuilds c json' app = .ok builds' → builds.Perm builds' →
        ∃ best', chosen c json' app target channel = .ok best' ∧ buildCmp best best' = .eq

theorem picksNewest_of_transOn {V : Set CStr} (h : TransOn versionCmp V) : PicksNewest V := by
  intro c app target channel json best hV hbest
  obtain ⟨builds, hbuilds, hpick⟩ := chosen_eq_ok hbest
  obtain ⟨i, helect⟩ := bestBuild_eq_some hpick
  have htrans : TransOn buildCmp {b | b ∈ builds ∧ eligible app target channel b = true} :=
    transOn_buildCmp h fun b hb hhit => hV b ((mem_candidates hbuilds).mpr ⟨hb, hhit⟩)
  obtain ⟨⟨hmem, hhit⟩, hle⟩ := elect_isLE htrans helect
  refine ⟨(mem_candidates hbuilds).mpr ⟨hmem, hhit⟩, ?_, ?_⟩
  · intro b hb
    obtain ⟨hb, hbhit⟩ := (mem_candidates hbuilds).mp hb
    exact hle b hb hbhit
  · intro json' builds₀ builds' hbuilds₀ hbuilds' hperm
    cases hbuilds.symm.trans hbuilds₀
    obtain ⟨best', hbest'⟩ := exists_chosen hbuilds' (hperm.mem_iff.mp hmem) hhit
    obtain ⟨builds'', hbuilds'', hpick'⟩ := chosen_eq_ok hbest'
    cases hbuilds'.symm.trans hbuilds''
    obtain ⟨j, helect'⟩ := bestBuild_eq_some hpick'
    exact ⟨best', hbest', elect_perm htrans hperm helect helect'⟩

-- Swapping the versions swaps the answer. It is a total preorder on a set of versions, with
-- the newest of them picked, exactly where the set is graded.
theorem newest_wins_iff (V : Set CStr) :
    (∀ a b, versionCmp a b = (versionCmp b a).swap) ∧
      (TransOn versionCmp V ∧ PicksNewest V ↔ Graded V) := by
  refine ⟨fun a b => Std.OrientedCmp.eq_swap, ?_⟩
  rw [← transOn_versionCmp_iff]
  constructor
  · exact And.left
  · intro h
    exact ⟨h, picksNewest_of_transOn h⟩

def build (version : String) : Json :=
  .object [(lit "target", .string (lit "esp32c6")), (lit "version", .string (lit version)),
    (lit "url", .string (lit "app.bin"))]

-- cJSON on a manifest of three builds.
def mixedCjson : Cjson where
  parse _ := some (.object [(lit "schema", .number (.finite 1)),
    (lit "builds", .array [build "10.0.0", build "nightly", build "v9.0.0"])])
  print _ := []
  valueint _ := 1

-- The version without a number leads from one to the other.
theorem older_build_picked :
    (versionCmp (lit "10.0.0") (lit "nightly")).isLE ∧
      (versionCmp (lit "nightly") (lit "v9.0.0")).isLE ∧
      versionCmp (lit "10.0.0") (lit "v9.0.0") = .gt ∧
      (manifestPick mixedCjson [] (some (lit "http://host/manifest.json")) none (lit "esp32c6")
        (lit "stable") none).2.version.chars = lit "v9.0.0" := by
  decide +kernel

end Espos.Update
