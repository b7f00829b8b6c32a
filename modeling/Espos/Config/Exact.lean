import Espos.Config.Plan

-- What an import does to the effective values, and what it says about it.

namespace Espos.Config

open Espos.Text

-- The members of a document that passes the validation of the whole import.
structure Accepted (lib : Lib) (S : Schema) (opt : Options) (text : Option (List Char))
    (members : List (CStr × Json)) : Prop where
  document : ∃ chars, text = some chars ∧ document lib chars = some (.object members)
  memory : opt.planMem = true
  plan : ∃ plan, planDoc lib S opt members = .ok plan

-- Every key has the value its last occurrence asks for, and the keys that are
-- reported and notified are those whose effective value is another than before.
structure Exact (lib : Lib) (S : Schema) (st : Store) (members : List (CStr × Json))
    (out : Outcome) : Prop where
  values : ∀ nd ∈ S.nss, ∀ k ∈ nd.keys, effective lib out.store nd k =
    match wanted lib members nd k with
    | .keep => effective lib st nd k
    | .dflt => k.kind.default
    | .value v => v
  notified : ∀ nd ∈ S.nss, ∀ k ∈ nd.keys,
    (nd.name, k.name) ∈ out.notified ↔ effective lib out.store nd k ≠ effective lib st nd k
  declared : ∀ id ∈ out.notified, ∃ nd ∈ S.nss, ∃ k ∈ nd.keys, id = (nd.name, k.name)
  once : out.notified.Nodup
  reported : out.changed = out.notified.length ∧
    out.report = some (.changed (out.notified.map pathOf) out.restartRequired)
  restart : out.restartRequired = true ↔
    ∃ nd ∈ S.nss, ∃ k ∈ nd.keys, (nd.name, k.name) ∈ out.notified ∧ k.restartRequired = true

-- No key is set to its default that has it already and whose default is not
-- read as the descriptor spells it.
def NoVainReset (lib : Lib) (S : Schema) (st : Store) (members : List (CStr × Json)) : Prop :=
  ∀ nd ∈ S.nss, ∀ k ∈ nd.keys, wanted lib members nd k = .dflt →
    effective lib st nd k = k.kind.default → k.kind.keepsDefault = true

variable {lib : Lib} {S : Schema} {opt : Options} {st : Store} {plan : List Entry}
  {members : List (CStr × Json)} {nd : NsDesc} {k : KeyDesc}

section Apply

variable {a : Applied} {e f : Entry}

theorem entryChanges_apply (h : f.id ≠ e.id) :
    entryChanges lib (Nvs.apply st e.toWrite) f = entryChanges lib st f := by
  have hread : effective lib (Nvs.apply st e.toWrite) f.ns f.key = effective lib st f.ns f.key :=
    congrArg (readEffective lib f.key.kind) (Function.update_of_ne h _ _)
  rw [entryChanges, entryChanges, hread]

-- A backend that does not fail.
def noFaults : Nat → Fault :=
  fun _ => .none

structure AppliedAll (lib : Lib) (a : Applied) (plan : List Entry) (out : Applied) : Prop where
  store : out.store = Nvs.after a.store (plan.map Entry.toWrite)
  changed : out.changed = a.changed ++ plan.filter (entryChanges lib a.store)
  restart : out.restart =
    (a.restart || (plan.filter (entryChanges lib a.store)).any fun e => e.key.restartRequired)
  err : out.err = a.err

theorem appliedAll_cons {out : Applied} (hnew : ∀ f ∈ plan, f.id ≠ e.id)
    (h : AppliedAll lib (applyEntry lib .none a e) plan out) : AppliedAll lib a (e :: plan) out := by
  have hstore : (applyEntry lib .none a e).store = Nvs.apply a.store e.toWrite := by
    simp only [applyEntry]
    split <;> rfl
  have hsame : plan.filter (entryChanges lib (applyEntry lib .none a e).store) =
      plan.filter (entryChanges lib a.store) := by
    rw [hstore]
    exact List.filter_congr fun f hf => entryChanges_apply (hnew f hf)
  refine ⟨?_, ?_, ?_, ?_⟩
  · rw [h.store, hstore]
    rfl
  · rw [h.changed, hsame]
    by_cases hc : entryChanges lib a.store e = true
    · simp [applyEntry, hc]
    · simp [applyEntry, hc]
  · rw [h.restart, hsame]
    by_cases hc : entryChanges lib a.store e = true
    · simp [applyEntry, hc, Bool.or_assoc]
    · simp [applyEntry, hc]
  · rw [h.err]
    simp only [applyEntry]
    split <;> rfl

theorem applyFrom_noFaults (h : (plan.map Entry.id).Nodup) (i : Nat) :
    AppliedAll lib a plan (applyFrom lib noFaults a i plan) := by
  induction plan generalizing a i with
  | nil => exact ⟨rfl, by simp [applyFrom], by simp [applyFrom], rfl⟩
  | cons e plan ih =>
    obtain ⟨hnew, hrest⟩ := List.nodup_cons.mp h
    refine appliedAll_cons (fun f hf hid => ?_) (ih hrest (i + 1))
    exact hnew (hid ▸ List.mem_map_of_mem hf)

theorem firstErr_ne {old new : EspErr} (hold : old ≠ .invalidArg) (hnew : new ≠ .invalidArg) :
    firstErr old new ≠ .invalidArg := by
  rw [firstErr]
  split
  next => exact hnew
  next => exact hold

theorem toEsp_ne (err : BackendErr) : err.toEsp ≠ .invalidArg := by
  cases err <;> exact nofun

theorem applyFrom_err (faults : Nat → Fault) (h : a.err ≠ .invalidArg) (i : Nat) :
    (applyFrom lib faults a i plan).err ≠ .invalidArg := by
  induction plan generalizing a i with
  | nil => exact h
  | cons e plan ih =>
    refine ih ?_ (i + 1)
    rw [applyEntry.eq_def]
    split
    next err _ => exact firstErr_ne h (toEsp_ne err)
    next err _ => exact firstErr_ne h (toEsp_ne err)
    next =>
      dsimp only
      split <;> exact h

end Apply

section Outcome

-- The outcome of an accepted import with a backend that does not fail.
theorem finish_eq (st : Store) (h : planDoc lib S opt members = .ok plan) :
    let out := finish (applyPlan lib noFaults st plan)
    let changed := plan.filter (entryChanges lib st)
    out.err = .ok ∧ out.store = Nvs.after st (plan.map Entry.toWrite) ∧
      out.notified = changed.map Entry.id ∧
      out.restartRequired = (changed.any fun e => e.key.restartRequired) ∧
      out.changed = out.notified.length ∧
      out.report = some (.changed (out.notified.map pathOf) out.restartRequired) := by
  have happlied : AppliedAll lib ⟨st, [], false, .ok⟩ plan (applyPlan lib noFaults st plan) :=
    applyFrom_noFaults (plan_nodup h) 0
  have hchanged := happlied.changed
  rw [List.nil_append] at hchanged
  refine ⟨happlied.err, happlied.store, congrArg _ hchanged, happlied.restart, ?_, ?_⟩
  · exact (List.length_map _).symm
  · simp [finish, happlied.err]

theorem mem_of_find? {id : KeyId} {e : Entry} (h : plan.find? (·.id = id) = some e) :
    e ∈ plan ∧ e.id = id :=
  ⟨List.mem_of_find?_eq_some h, by simpa using List.find?_some h⟩

-- What the store holds for a key after the writes of the plan.
theorem written_of_planned (h : planDoc lib S opt members = .ok plan) {a : Action}
    (hplan : plan.find? (·.id = (nd.name, k.name)) = some ⟨nd, k, a⟩) :
    Nvs.after st (plan.map Entry.toWrite) (nd.name, k.name) = (Entry.toWrite ⟨nd, k, a⟩).value := by
  have hkeys : ((plan.map Entry.toWrite).map Nvs.Write.key).Nodup := by
    rw [List.map_map]
    exact plan_nodup h
  exact Nvs.after_of_mem hkeys (List.mem_map_of_mem (mem_of_find? hplan).1)

theorem kept_of_unplanned (h : planDoc lib S opt members = .ok plan)
    (hplan : plan.find? (·.id = (nd.name, k.name)) = none) :
    Nvs.after st (plan.map Entry.toWrite) (nd.name, k.name) = st (nd.name, k.name) := by
  refine Nvs.after_of_notMem ?_
  rw [List.map_map]
  intro hmem
  obtain ⟨e, he, hid⟩ := List.mem_map.mp hmem
  have hfound : plan.find? (·.id = e.id) = some e := find?_of_mem (plan_nodup h) he
  have hname : e.id = (nd.name, k.name) := hid
  rw [hname, hplan] at hfound
  exact absurd hfound nofun

theorem effective_after (h : planDoc lib S opt members = .ok plan) (hnd : nd ∈ S.nss)
    (hk : k ∈ nd.keys) :
    effective lib (Nvs.after st (plan.map Entry.toWrite)) nd k =
      match wanted lib members nd k with
      | .keep => effective lib st nd k
      | .dflt => k.kind.default
      | .value v => v := by
  have hplan := plan_wanted h hnd hk
  rw [effective]
  cases hw : wanted lib members nd k with
  | keep =>
    rw [hw] at hplan
    rw [kept_of_unplanned h hplan]
    rfl
  | dflt =>
    rw [hw] at hplan
    rw [written_of_planned h hplan]
    exact readEffective_none
  | value v =>
    rw [hw] at hplan
    rw [written_of_planned h hplan]
    exact readEffective_stored (valid_of_wanted hw)

theorem mem_changed_iff (h : planDoc lib S opt members = .ok plan) (hnd : nd ∈ S.nss)
    (hk : k ∈ nd.keys) :
    (nd.name, k.name) ∈ (plan.filter (entryChanges lib st)).map Entry.id ↔
      match wanted lib members nd k with
      | .keep => False
      | .dflt => valueEquals (effective lib st nd k) k.kind.rawDefault = false
      | .value v => valueEquals (effective lib st nd k) v = false := by
  have hplan := plan_wanted h hnd hk
  have hmem : (nd.name, k.name) ∈ (plan.filter (entryChanges lib st)).map Entry.id ↔
      ∃ e, plan.find? (·.id = (nd.name, k.name)) = some e ∧ entryChanges lib st e = true := by
    rw [List.mem_map]
    constructor
    · rintro ⟨e, he, hid⟩
      obtain ⟨he, hc⟩ := List.mem_filter.mp he
      exact ⟨e, hid ▸ find?_of_mem (plan_nodup h) he, hc⟩
    · rintro ⟨e, he, hc⟩
      obtain ⟨hmem, hid⟩ := mem_of_find? he
      exact ⟨e, List.mem_filter.mpr ⟨hmem, hc⟩, hid⟩
  rw [hmem, hplan]
  cases wanted lib members nd k with
  | keep => simp [Wanted.action]
  | dflt => simp [Wanted.action, entryChanges]
  | value v => simp [Wanted.action, entryChanges]

-- The comparison that decides about a key tells whether its value changes, where
-- it is not a vain reset.
theorem changed_iff (h : planDoc lib S opt members = .ok plan) (hnd : nd ∈ S.nss)
    (hk : k ∈ nd.keys) :
    ((nd.name, k.name) ∈ (plan.filter (entryChanges lib st)).map Entry.id ↔
        effective lib (Nvs.after st (plan.map Entry.toWrite)) nd k ≠ effective lib st nd k) ↔
      (wanted lib members nd k = .dflt → effective lib st nd k = k.kind.default →
        k.kind.keepsDefault = true) := by
  rw [mem_changed_iff h hnd hk, effective_after h hnd hk]
  cases hw : wanted lib members nd k with
  | keep => simp
  | dflt =>
    have hcur : (effective lib st nd k).Fits k.kind := fits_readEffective
    have hequal := valueEquals_rawDefault hcur
    by_cases hd : effective lib st nd k = k.kind.default
    · by_cases hkeeps : k.kind.keepsDefault = true
      · simp [hd, hkeeps] at hequal ⊢
        exact hequal
      · simp [hd, hkeeps] at hequal ⊢
        exact hequal
    · have hfalse : valueEquals (effective lib st nd k) k.kind.rawDefault = false := by
        rw [← Bool.not_eq_true, hequal]
        exact fun hboth => hd hboth.2
      simp [hfalse, hd, Ne.symm hd]
  | value v =>
    have hequal : valueEquals (effective lib st nd k) v = true ↔ effective lib st nd k = v :=
      valueEquals_iff (ne_nan_of_valid (valid_of_wanted hw))
    simp only [reduceCtorEq, false_implies, iff_true]
    rw [← Bool.not_eq_true, hequal, ne_comm]

theorem exact_iff (h : planDoc lib S opt members = .ok plan) :
    Exact lib S st members (finish (applyPlan lib noFaults st plan)) ↔
      NoVainReset lib S st members := by
  obtain ⟨_, hstore, hnotified, hrestart, hcount, hreport⟩ := finish_eq st h
  constructor
  · intro hexact nd hnd k hk
    have hkey := hexact.notified nd hnd k hk
    rw [hstore, hnotified] at hkey
    exact (changed_iff h hnd hk).mp hkey
  · intro hvain
    refine ⟨fun nd hnd k hk => ?_, fun nd hnd k hk => ?_, fun id hid => ?_, ?_, ⟨hcount, hreport⟩, ?_⟩
    · rw [hstore]
      exact effective_after h hnd hk
    · rw [hstore, hnotified]
      exact (changed_iff h hnd hk).mpr (hvain nd hnd k hk)
    · rw [hnotified] at hid
      obtain ⟨e, he, rfl⟩ := List.mem_map.mp hid
      obtain ⟨hns, hkey⟩ := mem_plan h (List.mem_filter.mp he).1
      exact ⟨e.ns, hns, e.key, hkey, rfl⟩
    · rw [hnotified]
      exact (plan_nodup h).sublist (List.filter_sublist.map _)
    · rw [hrestart, hnotified, List.any_eq_true]
      constructor
      · rintro ⟨e, he, hflag⟩
        obtain ⟨hns, hkey⟩ := mem_plan h (List.mem_filter.mp he).1
        exact ⟨e.ns, hns, e.key, hkey, List.mem_map_of_mem he, hflag⟩
      · rintro ⟨nd, hnd, k, hk, hmem, hflag⟩
        obtain ⟨e, he, hid⟩ := List.mem_map.mp hmem
        refine ⟨e, he, ?_⟩
        -- The entry of the key is the key's own.
        have hfound := find?_of_mem (plan_nodup h) (List.mem_filter.mp he).1
        rw [hid, plan_wanted h hnd hk, Option.map_eq_some_iff] at hfound
        obtain ⟨_, _, rfl⟩ := hfound
        exact hflag

end Outcome

variable {text : Option (List Char)} {faults : Nat → Fault}

theorem importJson_of_accepted (h : Accepted lib S opt text members) :
    ∃ plan, planDoc lib S opt members = .ok plan ∧
      ∀ faults, importJson lib S opt faults st text = finish (applyPlan lib faults st plan) := by
  obtain ⟨⟨chars, rfl, hdoc⟩, hmem, plan, hplan⟩ := h
  refine ⟨plan, hplan, fun faults => ?_⟩
  simp only [importJson, hdoc, hmem, if_true, hplan]

-- An import that is not accepted touches nothing and does not return `ESP_OK`.
theorem importJson_of_not_accepted (h : ∀ members, ¬Accepted lib S opt text members) :
    (importJson lib S opt faults st text).err ≠ .ok ∧
      (importJson lib S opt faults st text).store = st ∧
      (importJson lib S opt faults st text).notified = [] := by
  rw [importJson.eq_def]
  split
  next => exact ⟨nofun, rfl, rfl⟩
  next chars =>
    split
    next => exact ⟨nofun, rfl, rfl⟩
    next members hdoc =>
      split
      next hmem =>
        split
        next => exact ⟨nofun, rfl, rfl⟩
        next plan hplan =>
          exact absurd ⟨⟨chars, rfl, hdoc⟩, hmem, plan, hplan⟩ (h members)
      next => exact ⟨nofun, rfl, rfl⟩
    next => exact ⟨nofun, rfl, rfl⟩

theorem Accepted.unique {members' : List (CStr × Json)} (h : Accepted lib S opt text members)
    (h' : Accepted lib S opt text members') : members' = members := by
  obtain ⟨chars, rfl, hdoc⟩ := h.document
  obtain ⟨chars', hchars, hdoc'⟩ := h'.document
  obtain rfl := Option.some.inj hchars
  rw [hdoc] at hdoc'
  exact (Json.object.inj (Option.some.inj hdoc')).symm

-- The import is atomic and exact.
structure ImportExact (lib : Lib) (S : Schema) (opt : Options) (st : Store)
    (text : Option (List Char)) : Prop where
  atomic : ∀ faults, (importJson lib S opt faults st text).err = .invalidArg →
    (importJson lib S opt faults st text).store = st ∧
      (importJson lib S opt faults st text).notified = []
  exact : (importJson lib S opt noFaults st text).err = .ok →
    ∃ members, Accepted lib S opt text members ∧
      Exact lib S st members (importJson lib S opt noFaults st text)

theorem import_exact_iff (lib : Lib) (S : Schema) (opt : Options) (st : Store)
    (text : Option (List Char)) :
    ImportExact lib S opt st text ↔
      ∀ members, Accepted lib S opt text members → NoVainReset lib S st members := by
  constructor
  · intro himport members haccepted
    obtain ⟨plan, hplan, hout⟩ := importJson_of_accepted haccepted
    obtain ⟨hok, _⟩ := finish_eq st hplan
    obtain ⟨members', haccepted', hexact⟩ := himport.exact (by rw [hout]; exact hok)
    rw [haccepted.unique haccepted', hout] at hexact
    exact (exact_iff hplan).mp hexact
  · intro hvain
    by_cases h : ∃ members, Accepted lib S opt text members
    · obtain ⟨members, haccepted⟩ := h
      obtain ⟨plan, hplan, hout⟩ := importJson_of_accepted haccepted
      refine ⟨fun faults herr => ?_, fun _ => ⟨members, haccepted, ?_⟩⟩
      · rw [hout] at herr
        have hfresh : (⟨st, [], false, .ok⟩ : Applied).err ≠ .invalidArg := nofun
        exact absurd herr (applyFrom_err faults hfresh 0)
      · rw [hout]
        exact (exact_iff hplan).mpr (hvain members haccepted)
    · rw [not_exists] at h
      refine ⟨fun faults _ => (importJson_of_not_accepted h).2, fun hok => ?_⟩
      exact absurd hok (importJson_of_not_accepted h).1

-- A registered namespace whose default is longer than its key allows.
def longDefault : Schema where
  nss := [⟨lit "f_tank", [⟨lit "unit", .string (lit "litres") 4 none, false, false, false⟩],
    by decide +kernel⟩]
  nodup := by decide +kernel

def resetText : List Char := lit "\x7b\"f_tank\":\x7b\"unit\":null\x7d\x7d"

-- A library that reads and prints one text.
def textLib (text : List Char) (doc : Json) : Lib where
  printG := fun _ _ => []
  toFloat := id
  strtof := fun _ => .nan
  strtod := fun _ => .nan
  parse := fun input => if input = text then some (doc, text.length) else none
  print := fun _ => text

def resetLib : Lib :=
  textLib resetText (.object [(lit "f_tank", .object [(lit "unit", .null)])])

-- The key has its default before and after, and is notified.
theorem vain_reset_notified :
    let out := importJson resetLib longDefault ⟨false, true, fun _ => true⟩ noFaults (fun _ => none)
      (some resetText)
    out.err = .ok ∧ out.notified = [(lit "f_tank", lit "unit")] ∧ out.changed = 1 ∧
      ∀ nd ∈ longDefault.nss, ∀ k ∈ nd.keys,
        effective resetLib out.store nd k = effective resetLib (fun _ => none) nd k := by
  decide +kernel

end Espos.Config
