import Espos.Config.Exact
import Espos.Config.ValidReads
import Espos.Sk.Inbound.Frames

-- The config endpoint of `espos_prov.c`: credentials or a whole document, over BLE.

namespace Espos.Config

open Espos.Text
open Espos.Sk.Inbound (strOf)

inductive Reply where
  | ok
  | badRequest
  | notJson
  | rejected
deriving DecidableEq

def Reply.text : Reply → CStr
  | .ok => lit "\x7b\"ok\":true\x7d"
  | .badRequest => lit "\x7b\"ok\":false,\"error\":\"bad_request\"\x7d"
  | .notJson => lit "\x7b\"ok\":false,\"error\":\"not_json\"\x7d"
  | .rejected => lit "\x7b\"ok\":false,\"error\":\"rejected\"\x7d"

-- What the handler finds: memory for the printed document, for the import and for the
-- reply, and how each write of the request goes.
structure Surroundings where
  docMem : Bool
  planMem : Bool
  blobMem : Nat → Bool
  replyMem : Bool
  faults : Nat → Fault

def Surroundings.options (env : Surroundings) : Options where
  ignoreUnknown := false
  planMem := env.planMem
  blobMem := env.blobMem

-- `deadline` is the timer that closes the window, where there is one, with what it has left.
structure Prov where
  registry : Registry
  gotCreds : Bool
  deadline : Option UInt64

structure Answer where
  err : EspErr
  outbuf : Option CStr
  prov : Prov

-- The two forms of a request.
inductive Form where
  | short (ssid psk : CStr)
  | whole (root : Json)

def formOf (root : Json) : Form :=
  match strOf (some root) (lit "ssid") with
  | some (c :: ssid) => .short (c :: ssid) ((strOf (some root) (lit "psk")).getD [])
  | _ => .whole root

section Handler

variable (lib : Lib) (env : Surroundings)

-- No buffer is NULL.
def requestRoot : Option CStr → Option Json
  | none => none
  | some inbuf => (lib.parse inbuf).map Prod.fst

-- The three writes of the short form, each behind one that went well.
def enableSta (r : Registry) : EspErr × Registry :=
  let d := r.setValue lib (env.faults 2) (lit "wifi") (lit "sta_enabled") (.bool true)
  (d.err, d.registry)

def setPsk (psk : CStr) (r : Registry) : EspErr × Registry :=
  let d := r.setValue lib (env.faults 1) (lit "wifi") (lit "psk0") (.string psk)
  if d.err = .ok then enableSta lib env d.registry else (d.err, d.registry)

def applyShort (ssid psk : CStr) (r : Registry) : EspErr × Registry :=
  let d := r.setValue lib (env.faults 0) (lit "wifi") (lit "ssid0") (.string ssid)
  if d.err = .ok then setPsk lib env psk d.registry else (d.err, d.registry)

def applyWhole (r : Registry) (root : Json) : EspErr × Registry :=
  if env.docMem then
    let d := r.importDoc lib env.options env.faults (some (lib.print root))
    (d.err, d.registry)
  else (.invalidArg, r)

def applyForm (r : Registry) : Form → EspErr × Registry
  | .short ssid psk => applyShort lib env ssid psk r
  | .whole root => applyWhole lib env r root

def respond (p : Prov) (reply : Reply) : Answer :=
  if env.replyMem then ⟨.ok, some reply.text, p⟩ else ⟨.noMem, none, p⟩

def configHandler (p : Prov) (inbuf : Option CStr) : Answer :=
  if inbuf.getD [] = [] then respond env p .badRequest
  else
    match requestRoot lib inbuf with
    | none => respond env p .notJson
    | some root =>
      let (err, registry) := applyForm lib env p.registry (formOf root)
      if err = .ok then
        respond env ⟨registry, true, p.deadline.map fun _ => 3 * 1000000⟩ .ok
      else respond env { p with registry := registry } .rejected

end Handler

-- The keys of `wifi.json` that the short form writes.
def ssid0Key : KeyDesc := ⟨lit "ssid0", .string [] 32 none, false, false, false⟩
def psk0Key : KeyDesc := ⟨lit "psk0", .string [] 64 none, true, false, false⟩
def staEnabledKey : KeyDesc := ⟨lit "sta_enabled", .bool true, false, false, false⟩

-- The namespace they are compiled in.
structure HasWifi (S : Schema) (nd : NsDesc) : Prop where
  mem : nd ∈ S.nss
  name : nd.name = lit "wifi"
  ssid0 : ssid0Key ∈ nd.keys
  psk0 : psk0Key ∈ nd.keys
  staEnabled : staEnabledKey ∈ nd.keys

section Spec

variable (lib : Lib) (env : Surroundings) (p : Prov) (inbuf : Option CStr)

def Asks (root : Json) : Prop :=
  inbuf.getD [] ≠ [] ∧ requestRoot lib inbuf = some root

-- Where it answers `"ok":false`, every key has the value it had.
def RefusedUnchanged : Prop :=
  (∃ reply : Reply, reply ≠ .ok ∧ (configHandler lib env p inbuf).outbuf = some reply.text) →
    ∀ nd ∈ p.registry.schema.nss, ∀ k ∈ nd.keys,
      effective lib (configHandler lib env p inbuf).prov.registry.store nd k =
        effective lib p.registry.store nd k

-- Where it answers `"ok":true` to the short form, the three keys have what was asked for.
def ShortApplied (nd : NsDesc) : Prop :=
  (configHandler lib env p inbuf).outbuf = some (Reply.text .ok) →
    ∀ root ssid psk, Asks lib inbuf root → formOf root = .short ssid psk →
      let st := (configHandler lib env p inbuf).prov.registry.store
      effective lib st nd ssid0Key = .string ssid ∧ effective lib st nd psk0Key = .string psk ∧
        effective lib st nd staEnabledKey = .bool true

end Spec

def Fault.lands : Fault → Bool
  | .refused _ => false
  | _ => true

-- The entries of a plan that reach the store.
def landed (faults : Nat → Fault) : Nat → List Entry → List Entry
  | _, [] => []
  | i, e :: plan =>
    if (faults i).lands then e :: landed faults (i + 1) plan else landed faults (i + 1) plan

-- An entry that is tried, and those behind it where it goes well.
def tried (valid : Prop) [Decidable valid] (fault : Fault) (e : Entry) (rest : List Entry) :
    List Entry :=
  if valid ∧ fault.lands then e :: if fault = .none then rest else [] else []

-- The entries of the short form that reach the store.
def landedShort (faults : Nat → Fault) (nd : NsDesc) (ssid psk : CStr) : List Entry :=
  tried (ssid.length ≤ 32) (faults 0) ⟨nd, ssid0Key, .write (.string ssid)⟩
    (tried (psk.length ≤ 64) (faults 1) ⟨nd, psk0Key, .write (.string psk)⟩
      (tried True (faults 2) ⟨nd, staEnabledKey, .write (.bool true)⟩ []))

-- The entry gives its key the value that it has.
def Entry.Vain (lib : Lib) (st : Store) (e : Entry) : Prop :=
  effective lib st e.ns e.key = readEffective lib e.key.kind e.toWrite.value

-- A request that is applied in full, or that stores nothing new before it is refused.
def WholeOrNothing (lib : Lib) (env : Surroundings) (r : Registry) (nd : NsDesc) : Form → Prop
  | .short ssid psk =>
    (ssid.length ≤ 32 ∧ psk.length ≤ 64 ∧ ∀ i < 3, env.faults i = .none) ∨
      ∀ e ∈ landedShort env.faults nd ssid psk, e.Vain lib r.store
  | .whole root => env.docMem = true →
    ∀ members plan, Accepted lib r.schema env.options (some (lib.print root)) members →
      planDoc lib r.schema env.options members = .ok plan →
      (∀ i < plan.length, env.faults i = .none) ∨
        ∀ e ∈ landed env.faults 0 plan, e.Vain lib r.store

section Store

variable {lib : Lib} {S : Schema} {st : Store} {plan : List Entry} {faults : Nat → Fault}

theorem effective_written (hnodup : (plan.map Entry.id).Nodup) {e : Entry} (he : e ∈ plan) :
    effective lib (Nvs.after st (plan.map Entry.toWrite)) e.ns e.key =
      readEffective lib e.key.kind e.toWrite.value := by
  have hkeys : ((plan.map Entry.toWrite).map Nvs.Write.key).Nodup := by
    rwa [List.map_map]
  have hafter : Nvs.after st (plan.map Entry.toWrite) e.toWrite.key = e.toWrite.value :=
    Nvs.after_of_mem hkeys (List.mem_map_of_mem he)
  exact congrArg (readEffective lib e.key.kind) hafter

-- Entries of different keys leave every value as it is exactly where each one does.
theorem effective_after_iff (hmem : ∀ e ∈ plan, e.ns ∈ S.nss ∧ e.key ∈ e.ns.keys)
    (hnodup : (plan.map Entry.id).Nodup) :
    (∀ nd ∈ S.nss, ∀ k ∈ nd.keys,
      effective lib (Nvs.after st (plan.map Entry.toWrite)) nd k = effective lib st nd k) ↔
      ∀ e ∈ plan, e.Vain lib st := by
  constructor
  · intro h e he
    obtain ⟨hns, hkey⟩ := hmem e he
    rw [Entry.Vain, ← effective_written hnodup he, h e.ns hns e.key hkey]
  · intro h nd hnd k hk
    by_cases hid : (nd.name, k.name) ∈ plan.map Entry.id
    · obtain ⟨e, he, hsame⟩ := List.mem_map.mp hid
      obtain ⟨hns, hkey⟩ := hmem e he
      obtain ⟨hnsSame, hkeySame⟩ := Schema.eq_of_names hns hnd hkey hk hsame
      rw [← hnsSame, ← hkeySame, effective_written hnodup he]
      exact (h e he).symm
    · have hnew : (nd.name, k.name) ∉ (plan.map Entry.toWrite).map Nvs.Write.key := by
        rwa [List.map_map]
      have hkept : Nvs.after st (plan.map Entry.toWrite) (nd.name, k.name) =
          st (nd.name, k.name) := Nvs.after_of_notMem hnew
      exact congrArg (readEffective lib k.kind) hkept

theorem sublist_landed (i : Nat) : (landed faults i plan).Sublist plan := by
  induction plan generalizing i with
  | nil => exact List.Sublist.refl _
  | cons e plan ih =>
    rw [landed]
    by_cases h : (faults i).lands = true
    · rw [if_pos h]
      exact (ih (i + 1)).cons_cons e
    · rw [if_neg h]
      exact (ih (i + 1)).cons e

theorem toEsp_ne_ok (err : BackendErr) : err.toEsp ≠ .ok := by
  cases err
  all_goals exact EspErr.noConfusion

theorem applyEntry_store (fault : Fault) (a : Applied) (e : Entry) :
    (applyEntry lib fault a e).store =
      if fault.lands then Nvs.apply a.store e.toWrite else a.store := by
  cases fault with
  | none =>
    simp only [applyEntry, Fault.lands, if_true]
    split_ifs
    all_goals rfl
  | refused err => rfl
  | uncommitted err => rfl

theorem applyEntry_err (fault : Fault) (a : Applied) (e : Entry) :
    (applyEntry lib fault a e).err = .ok ↔ a.err = .ok ∧ fault = .none := by
  have hfirst (err : BackendErr) : firstErr a.err err.toEsp ≠ .ok := by
    rw [firstErr]
    split_ifs with h
    · exact toEsp_ne_ok err
    · exact h
  cases fault with
  | none =>
    simp only [applyEntry, and_true]
    split_ifs
    all_goals rfl
  | refused err => simpa [applyEntry] using hfirst err
  | uncommitted err => simpa [applyEntry] using hfirst err

theorem applyFrom_store (a : Applied) (i : Nat) :
    (applyFrom lib faults a i plan).store =
      Nvs.after a.store ((landed faults i plan).map Entry.toWrite) := by
  induction plan generalizing a i with
  | nil => rfl
  | cons e plan ih =>
    rw [applyFrom, ih, applyEntry_store, landed]
    by_cases h : (faults i).lands = true
    · rw [if_pos h, if_pos h]
      rfl
    · rw [if_neg h, if_neg h]

theorem applyFrom_ok (a : Applied) (i : Nat) :
    (applyFrom lib faults a i plan).err = .ok ↔
      a.err = .ok ∧ ∀ j < plan.length, faults (i + j) = .none := by
  induction plan generalizing a i with
  | nil => simp [applyFrom]
  | cons e plan ih =>
    rw [applyFrom, ih, applyEntry_err, and_assoc, List.length_cons, Nat.forall_lt_succ_left]
    simp only [Nat.add_zero, Nat.add_assoc, Nat.add_comm 1]

end Store

section Forms

variable {lib : Lib} {env : Surroundings} {r : Registry} {nd : NsDesc} {k : KeyDesc} {v : Value}
  {fault : Fault}

theorem valid_string_iff {dflt s : CStr} {maxLen : Nat} :
    validate lib (.string dflt maxLen none) (.string s) = none ↔ s.length ≤ maxLen := by
  simp [validate]

-- What returns `ESP_OK` where `goes`, and stores the entries either way.
def Stores (r : Registry) (out : EspErr × Registry) (goes : Prop) (es : List Entry) : Prop :=
  (out.1 = .ok ↔ goes) ∧ out.2 = r.holding (Nvs.after r.store (es.map Entry.toWrite))

theorem setValue_valid (hinited : r.inited = true) (hnd : nd ∈ r.schema.nss) (hk : k ∈ nd.keys)
    (hro : k.readOnly = false) (hvalid : validate lib k.kind v = none) :
    let d := r.setValue lib fault nd.name k.name v
    Stores r (d.err, d.registry) (fault = .none)
      (if fault.lands then [⟨nd, k, .write v⟩] else []) := by
  have hset : r.setValue lib fault nd.name k.name v =
      r.applied lib (fun _ => fault) [⟨nd, k, .write v⟩] := by
    simp only [Registry.setValue, hinited, Registry.findKey_of_mem hnd hk, hro, hvalid, if_true,
      Bool.false_eq_true, if_false]
  intro d
  have hd : d = r.applied lib (fun _ => fault) [⟨nd, k, .write v⟩] := hset
  rw [hd]
  refine ⟨?_, ?_⟩
  · simp [Registry.applied, applyPlan, applyFrom_ok]
  · simp only [Registry.applied, applyPlan, applyFrom_store, landed, Registry.holding, hinited]

theorem setValue_invalid (hinited : r.inited = true) (hnd : nd ∈ r.schema.nss) (hk : k ∈ nd.keys)
    (hro : k.readOnly = false) (hvalid : validate lib k.kind v ≠ none) :
    r.setValue lib fault nd.name k.name v = r.refused .invalidArg := by
  obtain ⟨msg, hmsg⟩ := Option.ne_none_iff_exists'.mp hvalid
  simp only [Registry.setValue, hinited, Registry.findKey_of_mem hnd hk, hro, hmsg, if_true,
    Bool.false_eq_true, if_false]

-- A write, and what is behind it where it goes well.
theorem setValue_then {valid : Prop} [Decidable valid] (next : Registry → EspErr × Registry)
    {rest : List Entry} {goes : Prop} (hinited : r.inited = true) (hnd : nd ∈ r.schema.nss)
    (hk : k ∈ nd.keys) (hro : k.readOnly = false) (hvalid : validate lib k.kind v = none ↔ valid)
    (hnext : ∀ st, Stores (r.holding st) (next (r.holding st)) goes rest) :
    let d := r.setValue lib fault nd.name k.name v
    Stores r (if d.err = .ok then next d.registry else (d.err, d.registry))
      (valid ∧ fault = .none ∧ goes) (tried valid fault ⟨nd, k, .write v⟩ rest) := by
  intro d
  by_cases h : valid
  · obtain ⟨herr, hregistry⟩ : Stores r (d.err, d.registry) _ _ :=
      setValue_valid hinited hnd hk hro (hvalid.mpr h)
    simp only at herr hregistry
    simp only [tried, h, true_and]
    by_cases hnone : fault = .none
    · subst hnone
      obtain ⟨hgoes, hstore⟩ := hnext d.registry.store
      rw [hregistry] at hgoes hstore
      rw [if_pos (herr.mpr rfl), hregistry]
      simp only [Fault.lands, if_true, true_and]
      exact ⟨hgoes, hstore⟩
    · have hfail : d.err ≠ .ok := fun hok => hnone (herr.mp hok)
      rw [if_neg hfail]
      simp only [hnone, if_false, false_and]
      exact ⟨iff_false_intro hfail, hregistry⟩
  · have hd : d = r.refused .invalidArg :=
      setValue_invalid hinited hnd hk hro (fun hnone => h (hvalid.mp hnone))
    have hself : r = r.holding r.store := by
      rw [Registry.holding, ← hinited]
    simp only [hd, tried, h, false_and, if_false]
    exact ⟨by simp [Registry.refused], hself⟩

theorem enableSta_spec (hinited : r.inited = true) (h : HasWifi r.schema nd) :
    Stores r (enableSta lib env r) (env.faults 2 = .none)
      (tried True (env.faults 2) ⟨nd, staEnabledKey, .write (.bool true)⟩ []) := by
  have hvalid : validate lib staEnabledKey.kind (.bool true) = none := rfl
  rw [enableSta, ← h.name]
  simp only [tried, true_and, ite_self]
  exact setValue_valid hinited h.mem h.staEnabled rfl hvalid

theorem setPsk_spec (hinited : r.inited = true) (h : HasWifi r.schema nd) (psk : CStr) :
    Stores r (setPsk lib env psk r)
      (psk.length ≤ 64 ∧ env.faults 1 = .none ∧ env.faults 2 = .none)
      (tried (psk.length ≤ 64) (env.faults 1) ⟨nd, psk0Key, .write (.string psk)⟩
        (tried True (env.faults 2) ⟨nd, staEnabledKey, .write (.bool true)⟩ [])) := by
  rw [setPsk, ← h.name]
  exact setValue_then (enableSta lib env) hinited h.mem h.psk0 rfl valid_string_iff
    fun st => enableSta_spec rfl h

-- The short form, as the entries it stores.
theorem applyShort_spec (hinited : r.inited = true) (h : HasWifi r.schema nd) (ssid psk : CStr) :
    Stores r (applyShort lib env ssid psk r)
      (ssid.length ≤ 32 ∧ env.faults 0 = .none ∧ psk.length ≤ 64 ∧ env.faults 1 = .none ∧
        env.faults 2 = .none)
      (landedShort env.faults nd ssid psk) := by
  rw [applyShort, ← h.name]
  exact setValue_then (setPsk lib env psk) hinited h.mem h.ssid0 rfl valid_string_iff
    fun st => setPsk_spec (r := r.holding st) rfl h psk

-- The other form, as the entries it stores where it is accepted.
theorem applyWhole_spec (hinited : r.inited = true) {root : Json}
    {members : List (CStr × Json)} {plan : List Entry} (hmem : env.docMem = true)
    (h : Accepted lib r.schema env.options (some (lib.print root)) members)
    (hplan : planDoc lib r.schema env.options members = .ok plan) :
    Stores r (applyWhole lib env r root) (∀ i < plan.length, env.faults i = .none)
      (landed env.faults 0 plan) := by
  obtain ⟨plan', hplan', himport⟩ := @importJson_of_accepted _ _ _ r.store _ _ h
  obtain rfl : plan' = plan := Except.ok.inj (hplan'.symm.trans hplan)
  simp only [Stores, applyWhole, hmem, if_true, Registry.importDoc, hinited, himport, finish,
    applyPlan, applyFrom_store, applyFrom_ok, true_and, Nat.zero_add, Registry.holding]

theorem applyWhole_refused {root : Json}
    (h : env.docMem = true →
      ∀ members, ¬Accepted lib r.schema env.options (some (lib.print root)) members) :
    (applyWhole lib env r root).1 ≠ .ok ∧ (applyWhole lib env r root).2 = r := by
  unfold applyWhole
  by_cases hmem : env.docMem = true
  · obtain ⟨herr, hstore, -⟩ :=
      @importJson_of_not_accepted _ _ _ r.store _ env.faults (h hmem)
    rw [if_pos hmem, Registry.importDoc]
    by_cases hinited : r.inited = true
    · rw [if_pos hinited]
      refine ⟨herr, ?_⟩
      simp only [hstore]
    · rw [if_neg hinited]
      exact ⟨EspErr.noConfusion, rfl⟩
  · rw [if_neg hmem]
    exact ⟨EspErr.noConfusion, rfl⟩

-- Where the entries are of different keys, nothing changes that was not asked for in full
-- exactly where each one that is stored changes nothing.
theorem Stores.unchanged_iff {out : EspErr × Registry} {goes : Prop} {es : List Entry}
    (h : Stores r out goes es) (hmem : ∀ e ∈ es, e.ns ∈ r.schema.nss ∧ e.key ∈ e.ns.keys)
    (hnodup : (es.map Entry.id).Nodup) :
    (out.1 ≠ .ok → ∀ nd ∈ r.schema.nss, ∀ k ∈ nd.keys,
      effective lib out.2.store nd k = effective lib r.store nd k) ↔
      goes ∨ ∀ e ∈ es, e.Vain lib r.store := by
  rw [h.2, ← effective_after_iff hmem hnodup, Ne, h.1, or_iff_not_imp_left]
  rfl

def shortEntries (nd : NsDesc) (ssid psk : CStr) : List Entry :=
  [⟨nd, ssid0Key, .write (.string ssid)⟩, ⟨nd, psk0Key, .write (.string psk)⟩,
    ⟨nd, staEnabledKey, .write (.bool true)⟩]

theorem sublist_tried {valid : Prop} [Decidable valid] {e : Entry} {rest plan : List Entry}
    (h : rest.Sublist plan) : (tried valid fault e rest).Sublist (e :: plan) := by
  unfold tried
  split_ifs
  · exact h.cons_cons e
  · exact (List.nil_sublist plan).cons_cons e
  · exact List.nil_sublist _

theorem sublist_landedShort {faults : Nat → Fault} {ssid psk : CStr} :
    (landedShort faults nd ssid psk).Sublist (shortEntries nd ssid psk) :=
  sublist_tried (sublist_tried (sublist_tried (List.Sublist.refl [])))

theorem mem_shortEntries {S : Schema} (h : HasWifi S nd) {ssid psk : CStr} :
    ∀ e ∈ shortEntries nd ssid psk, e.ns ∈ S.nss ∧ e.key ∈ e.ns.keys := by
  simp only [shortEntries, List.forall_mem_cons]
  exact ⟨⟨h.mem, h.ssid0⟩, ⟨h.mem, h.psk0⟩, ⟨h.mem, h.staEnabled⟩, by simp⟩

theorem nodup_shortEntries {ssid psk : CStr} :
    ((shortEntries nd ssid psk).map Entry.id).Nodup := by
  have hnames : [ssid0Key.name, psk0Key.name, staEnabledKey.name].Nodup := by decide
  exact List.Nodup.of_map Prod.snd hnames

theorem form_iff (hinited : r.inited = true) (h : HasWifi r.schema nd) (form : Form) :
    ((applyForm lib env r form).1 ≠ .ok → ∀ nd ∈ r.schema.nss, ∀ k ∈ nd.keys,
      effective lib (applyForm lib env r form).2.store nd k = effective lib r.store nd k) ↔
      WholeOrNothing lib env r nd form := by
  cases form with
  | short ssid psk =>
    have hstores : Stores r (applyForm lib env r (.short ssid psk)) _ _ :=
      applyShort_spec hinited h ssid psk
    rw [hstores.unchanged_iff
      (fun e he => mem_shortEntries h e (sublist_landedShort.subset he))
      (nodup_shortEntries.sublist (sublist_landedShort.map Entry.id))]
    have hfaults : (∀ i < 3, env.faults i = .none) ↔
        env.faults 0 = .none ∧ env.faults 1 = .none ∧ env.faults 2 = .none := by
      constructor
      · intro h
        exact ⟨h 0 (by decide), h 1 (by decide), h 2 (by decide)⟩
      · intro ⟨h₀, h₁, h₂⟩ i hi
        obtain rfl | rfl | rfl : i = 0 ∨ i = 1 ∨ i = 2 := by omega
        · exact h₀
        · exact h₁
        · exact h₂
    rw [WholeOrNothing, hfaults]
    tauto
  | whole root =>
    rw [WholeOrNothing]
    by_cases haccepted : env.docMem = true ∧
        ∃ members, Accepted lib r.schema env.options (some (lib.print root)) members
    · obtain ⟨hmem, members, haccepted⟩ := haccepted
      obtain ⟨plan, hplan⟩ := haccepted.plan
      have hstores : Stores r (applyForm lib env r (.whole root)) _ _ :=
        applyWhole_spec hinited hmem haccepted hplan
      rw [hstores.unchanged_iff
        (fun e he => mem_plan hplan ((sublist_landed 0).subset he))
        ((plan_nodup hplan).sublist ((sublist_landed 0).map Entry.id))]
      constructor
      · intro hall _ members' plan' haccepted' hplan'
        obtain rfl := haccepted.unique haccepted'
        obtain rfl : plan' = plan := Except.ok.inj (hplan'.symm.trans hplan)
        exact hall
      · intro hall
        exact hall hmem members plan haccepted hplan
    · have hrefused : (applyWhole lib env r root).1 ≠ .ok ∧ (applyWhole lib env r root).2 = r :=
        applyWhole_refused fun hmem members ha => haccepted ⟨hmem, members, ha⟩
      constructor
      · intro _ hmem members plan ha
        exact absurd ⟨hmem, members, ha⟩ haccepted
      · intro _ _ nd' _ k _
        rw [applyForm, hrefused.2]

theorem applyForm_closed (hinited : r.inited = false) (form : Form) :
    (applyForm lib env r form).1 ≠ .ok ∧ (applyForm lib env r form).2 = r := by
  cases form with
  | short ssid psk =>
    have hset (ns key : CStr) (v : Value) (fault : Fault) :
        r.setValue lib fault ns key v = r.refused .invalidState := by
      simp [Registry.setValue, hinited]
    rw [applyForm, applyShort, hset]
    exact ⟨EspErr.noConfusion, rfl⟩
  | whole root =>
    have himport : r.importDoc lib env.options env.faults (some (lib.print root)) =
        r.refused .invalidState := by
      simp [Registry.importDoc, hinited]
    rw [applyForm, applyWhole, himport]
    by_cases hmem : env.docMem = true
    · rw [if_pos hmem]
      exact ⟨EspErr.noConfusion, rfl⟩
    · rw [if_neg hmem]
      exact ⟨EspErr.noConfusion, rfl⟩

end Forms

section Handler

variable {lib : Lib} {env : Surroundings} {p : Prov} {inbuf : Option CStr} {nd : NsDesc}

theorem text_inj {reply reply' : Reply} (h : reply.text = reply'.text) : reply = reply' := by
  cases reply
  all_goals
    cases reply'
    all_goals first | rfl | exact absurd h (by decide)

theorem respond_text {reply reply' : Reply} :
    (respond env p reply).outbuf = some reply'.text ↔ env.replyMem = true ∧ reply = reply' := by
  unfold respond
  by_cases hmem : env.replyMem = true
  · simp only [hmem, if_true, Option.some.injEq, true_and]
    exact ⟨text_inj, congrArg Reply.text⟩
  · simp [hmem]

theorem respond_refuses {reply : Reply} :
    (∃ reply' : Reply, reply' ≠ .ok ∧ (respond env p reply).outbuf = some reply'.text) ↔
      env.replyMem = true ∧ reply ≠ .ok := by
  simp only [respond_text]
  constructor
  · rintro ⟨reply', hne, hmem, rfl⟩
    exact ⟨hmem, hne⟩
  · rintro ⟨hmem, hne⟩
    exact ⟨reply, hne, hmem, rfl⟩

theorem respond_prov {reply : Reply} : (respond env p reply).prov = p := by
  unfold respond
  split_ifs
  all_goals rfl

-- A request that asks for something is answered by what becomes of it.
theorem handler_of_asks (env : Surroundings) (p : Prov) {root : Json} (h : Asks lib inbuf root) :
    let out := applyForm lib env p.registry (formOf root)
    (configHandler lib env p inbuf).prov.registry = out.2 ∧
      ((configHandler lib env p inbuf).outbuf = some (Reply.text .ok) ↔
        env.replyMem = true ∧ out.1 = .ok) ∧
      ((∃ reply : Reply, reply ≠ .ok ∧
        (configHandler lib env p inbuf).outbuf = some reply.text) ↔
        env.replyMem = true ∧ out.1 ≠ .ok) := by
  intro out
  by_cases hok : out.1 = .ok
  · have happly : configHandler lib env p inbuf =
        respond env ⟨out.2, true, p.deadline.map fun _ => 3 * 1000000⟩ .ok := by
      rw [configHandler, if_neg h.1, h.2]
      exact if_pos hok
    rw [happly, respond_prov, respond_text, respond_refuses]
    exact ⟨rfl, by simp [hok], by simp [hok]⟩
  · have happly : configHandler lib env p inbuf =
        respond env { p with registry := out.2 } .rejected := by
      rw [configHandler, if_neg h.1, h.2]
      exact if_neg hok
    rw [happly, respond_prov, respond_text, respond_refuses]
    exact ⟨rfl, by simp [hok], by simp [hok]⟩

theorem handler_of_not_asks (env : Surroundings) (p : Prov) (h : ∀ root, ¬Asks lib inbuf root) :
    ∃ reply : Reply, reply ≠ .ok ∧ configHandler lib env p inbuf = respond env p reply := by
  unfold configHandler
  by_cases hempty : inbuf.getD [] = []
  · exact ⟨.badRequest, by decide, if_pos hempty⟩
  · rw [if_neg hempty]
    cases hroot : requestRoot lib inbuf with
    | none => exact ⟨.notJson, by decide, rfl⟩
    | some root => exact absurd ⟨hempty, hroot⟩ (h root)

theorem shortApplied (h : HasWifi p.registry.schema nd) : ShortApplied lib env p inbuf nd := by
  intro hanswer root ssid psk hasks hform
  obtain ⟨hregistry, hok, -⟩ := handler_of_asks env p hasks
  rw [hform] at hregistry hok
  have hdone := (hok.mp hanswer).2
  have hinited : p.registry.inited = true := by
    by_contra hclosed
    exact (applyForm_closed (Bool.eq_false_iff.mpr hclosed) (.short ssid psk)).1 hdone
  have hstores : Stores p.registry (applyForm lib env p.registry (.short ssid psk)) _ _ :=
    applyShort_spec hinited h ssid psk
  obtain ⟨hssid, hfirst, hpsk, hsecond, hthird⟩ := hstores.1.mp hdone
  have hall : landedShort env.faults nd ssid psk = shortEntries nd ssid psk := by
    simp [landedShort, tried, hssid, hpsk, hfirst, hsecond, hthird, Fault.lands, shortEntries]
  have hread (k : KeyDesc) (v : Value) (he : ⟨nd, k, .write v⟩ ∈ shortEntries nd ssid psk)
      (hvalid : validate lib k.kind v = none) :
      effective lib (configHandler lib env p inbuf).prov.registry.store nd k = v := by
    rw [hregistry, hstores.2, hall]
    exact (effective_written nodup_shortEntries he).trans (readEffective_stored hvalid)
  refine ⟨hread _ _ (by simp [shortEntries]) ?_, hread _ _ (by simp [shortEntries]) ?_,
    hread _ _ (by simp [shortEntries]) rfl⟩
  · exact valid_string_iff.mpr hssid
  · exact valid_string_iff.mpr hpsk

-- A request that gets `"ok":false` changes nothing exactly where what it stored before it
-- was refused was there already; the short form gets `"ok":true` for what it asked for only.
theorem provision_iff (h : HasWifi p.registry.schema nd) :
    RefusedUnchanged lib env p inbuf ∧ ShortApplied lib env p inbuf nd ↔
      (env.replyMem = true → p.registry.inited = true → ∀ root, Asks lib inbuf root →
        WholeOrNothing lib env p.registry nd (formOf root)) := by
  rw [and_iff_left (shortApplied h), RefusedUnchanged]
  by_cases hasks : ∃ root, Asks lib inbuf root
  · obtain ⟨root, hasks⟩ := hasks
    obtain ⟨hregistry, -, hrefused⟩ := handler_of_asks env p hasks
    have hroot : (∀ root, Asks lib inbuf root →
        WholeOrNothing lib env p.registry nd (formOf root)) ↔
        WholeOrNothing lib env p.registry nd (formOf root) := by
      constructor
      · intro hall
        exact hall root hasks
      · intro hone root' hasks'
        obtain rfl : root' = root := Option.some.inj (hasks'.2.symm.trans hasks.2)
        exact hone
    rw [hrefused, hregistry, hroot, and_imp]
    by_cases hinited : p.registry.inited = true
    · rw [form_iff hinited h]
      simp only [hinited, true_imp_iff]
    · have hclosed : (applyForm lib env p.registry (formOf root)).2 = p.registry :=
        (applyForm_closed (Bool.eq_false_iff.mpr hinited) (formOf root)).2
      simp [hclosed, hinited]
  · obtain ⟨reply, -, hanswer⟩ := handler_of_not_asks env p (not_exists.mp hasks)
    constructor
    · intro _ _ _ root hroot
      exact absurd ⟨root, hroot⟩ hasks
    · intro _ _ nd' _ k _
      rw [hanswer, respond_prov]

def wifiDesc : NsDesc where
  name := lit "wifi"
  keys := [staEnabledKey, ssid0Key, psk0Key]
  nodup := by decide

-- A device without a network.
def newProv : Prov where
  registry := ⟨.fresh ⟨[wifiDesc], List.nodup_singleton _⟩ 4, true, 0, fun _ => none⟩
  gotCreds := false
  deadline := none

def quiet : Surroundings where
  docMem := true
  planMem := true
  blobMem _ := true
  replyMem := true
  faults := noFaults

def shortDoc (psk : CStr) : Json :=
  .object [(lit "ssid", .string (lit "Boat")), (lit "psk", .string psk)]

def shortText (psk : CStr) : CStr :=
  lit "\x7b\"ssid\":\"Boat\",\"psk\":\"" ++ psk ++ lit "\"\x7d"

def shortLib (psk : CStr) : Lib :=
  textLib (shortText psk) (shortDoc psk)

theorem provision_boat :
    RefusedUnchanged (shortLib (lit "secret12")) quiet newProv (some (shortText (lit "secret12"))) ∧
      ShortApplied (shortLib (lit "secret12")) quiet newProv (some (shortText (lit "secret12")))
        wifiDesc := by
  have hwifi : HasWifi newProv.registry.schema wifiDesc :=
    ⟨List.mem_singleton.mpr rfl, rfl, by decide, by decide, by decide⟩
  apply (provision_iff hwifi).mpr
  intro _ _ root hasks
  have hroot : requestRoot (shortLib (lit "secret12")) (some (shortText (lit "secret12"))) =
      some (shortDoc (lit "secret12")) := by rfl
  obtain rfl : shortDoc (lit "secret12") = root := Option.some.inj (hroot.symm.trans hasks.2)
  exact .inl ⟨by decide, by decide, fun i _ => rfl⟩

-- The password is refused, and the SSID is another one.
theorem refused_changes_ssid :
    let psk := List.replicate 65 'x'
    let a := configHandler (shortLib psk) quiet newProv (some (shortText psk))
    a.outbuf = some Reply.rejected.text ∧
      effective (shortLib psk) newProv.registry.store wifiDesc ssid0Key = .string [] ∧
      effective (shortLib psk) a.prov.registry.store wifiDesc ssid0Key = .string (lit "Boat") := by
  decide +kernel

-- Where the backend does not fail, it takes a password that is too long behind another SSID.
theorem refused_unchanged_iff (h : HasWifi p.registry.schema nd)
    (hinited : p.registry.inited = true) (hmem : env.replyMem = true)
    (hfaults : ∀ i, env.faults i = .none) :
    RefusedUnchanged lib env p inbuf ↔
      ∀ root ssid psk, Asks lib inbuf root → formOf root = .short ssid psk →
        ssid.length ≤ 32 → 64 < psk.length →
        effective lib p.registry.store nd ssid0Key = .string ssid := by
  have hiff : RefusedUnchanged lib env p inbuf ∧ ShortApplied lib env p inbuf nd ↔ _ :=
    provision_iff h
  rw [and_iff_left (shortApplied h)] at hiff
  rw [hiff]
  simp only [hinited, hmem, true_imp_iff]
  constructor
  · intro hall root ssid psk hasks hform hssid hpsk
    have hwhole := hall root hasks
    rw [hform] at hwhole
    rcases hwhole with ⟨-, hfits, -⟩ | hvain
    · omega
    · have hfirst := hvain ⟨nd, ssid0Key, .write (.string ssid)⟩
        (by simp [landedShort, tried, hssid, hfaults, Fault.lands])
      exact hfirst.trans (readEffective_stored (valid_string_iff.mpr hssid))
  · intro hall root hasks
    cases hform : formOf root with
    | whole doc =>
      intro _ members plan _ _
      exact .inl fun i _ => hfaults i
    | short ssid psk =>
      by_cases hssid : ssid.length ≤ 32
      · by_cases hpsk : psk.length ≤ 64
        · exact .inl ⟨hssid, hpsk, fun i _ => hfaults i⟩
        · have hsame := hall root ssid psk hasks hform hssid (Nat.lt_of_not_le hpsk)
          refine .inr ?_
          simp only [landedShort, tried, hssid, hpsk, hfaults, Fault.lands, and_true,
            if_true, if_false, List.forall_mem_singleton]
          exact hsame.trans (readEffective_stored (valid_string_iff.mpr hssid)).symm
      · refine .inr ?_
        simp [landedShort, tried, hssid]

end Handler

end Espos.Config
