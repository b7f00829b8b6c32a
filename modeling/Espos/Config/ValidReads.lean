import Espos.Config.Exact
import Espos.Config.Registry
import Espos.Lib.Run

-- What is read passes the check of its key, and can be written back.

namespace Espos.Config

open Espos.Run Espos.Text Espos.Slots

-- The default as it is read is in the bounds of its own key.
def Kind.defaultWithin : Kind → Bool
  | .bool _ => true
  | .int dflt min max => min ≤ dflt && dflt ≤ max
  | .float dflt min max => dflt.isFinite && !min.any dflt.lt && !max.any fun max => max.lt dflt
  | .string dflt maxLen enum => enum.all fun allowed => dflt.take maxLen ∈ allowed
  | .blob _ => true

def NsDesc.DefaultsWithin (nd : NsDesc) : Prop :=
  ∀ k ∈ nd.keys, k.kind.defaultWithin = true

instance (nd : NsDesc) : Decidable nd.DefaultsWithin :=
  inferInstanceAs (Decidable (∀ k ∈ nd.keys, k.kind.defaultWithin = true))

theorem defaultWithin_iff {lib : Lib} {kind : Kind} :
    kind.defaultWithin = true ↔ validate lib kind kind.default = none := by
  cases kind with
  | bool dflt => simp [Kind.defaultWithin, validate, Kind.default, Kind.rawDefault]
  | int dflt min max =>
    simp [Kind.defaultWithin, validate, Kind.default, Kind.rawDefault, Int32.not_lt]
  | float dflt min max =>
    cases hfinite : dflt.isFinite <;> cases hmin : min.any dflt.lt <;>
      simp [Kind.defaultWithin, validate, Kind.default, Kind.rawDefault, hfinite, hmin]
  | string dflt maxLen enum =>
    cases enum <;> simp [Kind.defaultWithin, validate, Kind.default]
  | blob maxLen => simp [Kind.defaultWithin, validate, Kind.default, Kind.rawDefault]

namespace Registry

section Spec

variable (lib : Lib) (r : Registry)

-- Setting a key to `v` succeeds, changes nothing that is read and tells nobody.
structure SetsBack (nd : NsDesc) (k : KeyDesc) (v : Value) : Prop where
  succeeds : (r.setValue lib .none nd.name k.name v).err = .ok
  silent : (r.setValue lib .none nd.name k.name v).notified = []
  unchanged : ∀ nd' ∈ r.schema.nss, ∀ k' ∈ nd'.keys,
    (r.setValue lib .none nd.name k.name v).registry.read lib nd' k' = r.read lib nd' k'

def ReadsValid : Prop :=
  ∀ nd ∈ r.schema.nss, ∀ k ∈ nd.keys, ∀ v, r.read lib nd k = .ok v →
    validate lib k.kind v = none ∧ (k.readOnly = false → r.SetsBack lib nd k v)

-- The same tables over another content, set up.
def holding (content : Store) : Registry :=
  { r with inited := true, store := content }

-- Whatever the backend holds, what is read is valid.
def Sound : Prop :=
  ∀ content : Store, (r.holding content).ReadsValid lib

-- A namespace that is let in has its defaults in their bounds.
def AdmitsWithin : Call → Prop
  | .register wrote raw => ∀ nd, validateRuntimeDesc raw = .ok nd →
      (∃ r', r.registerNs wrote raw = .ok r') → nd.DefaultsWithin
  | _ => True

end Spec

variable {lib : Lib} {r r' : Registry} {nd : NsDesc} {k : KeyDesc}

section Values

theorem findKey_of_mem (hnd : nd ∈ r.schema.nss) (hk : k ∈ nd.keys) :
    r.findKey nd.name k.name = some (nd, k) := by
  simp [findKey, Schema.findNs_of_mem hnd, NsDesc.findKey_of_mem hk]

-- What is written back is what is there, so the entry changes nothing.
theorem setValue_effective (hinited : r.inited = true) (hnd : nd ∈ r.schema.nss)
    (hk : k ∈ nd.keys) (hro : k.readOnly = false)
    (hvalid : validate lib k.kind (effective lib r.store nd k) = none) :
    r.setValue lib .none nd.name k.name (effective lib r.store nd k) =
      ⟨.ok, [], { r with
        store := Function.update r.store (nd.name, k.name)
          (effective lib r.store nd k).stored }⟩ := by
  have hsame : entryChanges lib r.store ⟨nd, k, .write (effective lib r.store nd k)⟩ = false := by
    have heq : valueEquals (effective lib r.store nd k) (effective lib r.store nd k) = true :=
      (valueEquals_iff (ne_nan_of_valid hvalid)).mpr rfl
    simp [entryChanges, heq]
  simp only [setValue, hinited, findKey_of_mem hnd hk, hro, hvalid, applied, applyPlan, applyFrom,
    applyEntry, hsame]
  rfl

theorem effective_update {st : Store} (hnd : nd ∈ r.schema.nss) (hk : k ∈ nd.keys)
    (hvalid : validate lib k.kind (effective lib st nd k) = none)
    {nd' : NsDesc} {k' : KeyDesc} (hnd' : nd' ∈ r.schema.nss) (hk' : k' ∈ nd'.keys) :
    effective lib (Function.update st (nd.name, k.name) (effective lib st nd k).stored) nd' k' =
      effective lib st nd' k' := by
  by_cases hid : (nd'.name, k'.name) = (nd.name, k.name)
  · obtain ⟨rfl, rfl⟩ := Schema.eq_of_names hnd' hnd hk' hk hid
    rw [effective, Function.update_self, readEffective_stored hvalid]
  · rw [effective, Function.update_of_ne hid, ← effective]

theorem setsBack (hinited : r.inited = true) (hnd : nd ∈ r.schema.nss) (hk : k ∈ nd.keys)
    (hro : k.readOnly = false)
    (hvalid : validate lib k.kind (effective lib r.store nd k) = none) :
    r.SetsBack lib nd k (effective lib r.store nd k) := by
  have hset := setValue_effective hinited hnd hk hro hvalid
  refine ⟨by rw [hset], by rw [hset], fun nd' hnd' k' hk' => ?_⟩
  rw [hset]
  simp only [read, hinited, if_true]
  rw [effective_update hnd hk hvalid hnd' hk']

theorem readsValid_of_within (h : ∀ nd ∈ r.schema.nss, nd.DefaultsWithin) : r.ReadsValid lib := by
  intro nd hnd k hk v hread
  cases hinited : r.inited with
  | false =>
    rw [read, hinited] at hread
    exact absurd hread nofun
  | true =>
    have hvalue : effective lib r.store nd k = v := by
      rw [read, hinited] at hread
      exact Except.ok.inj hread
    subst hvalue
    have hvalid : validate lib k.kind (effective lib r.store nd k) = none :=
      valid_readEffective fun _ => defaultWithin_iff.mp (h nd hnd k hk)
    exact ⟨hvalid, fun hro => setsBack hinited hnd hk hro hvalid⟩

-- A store that holds nothing reads as the defaults.
theorem sound_iff : r.Sound lib ↔ ∀ nd ∈ r.schema.nss, nd.DefaultsWithin := by
  constructor
  · intro h nd hnd k hk
    have hread : (r.holding fun _ => none).read lib nd k = .ok k.kind.default := by
      simp only [read, holding, effective, readEffective_none, if_true]
    exact defaultWithin_iff.mpr (h _ nd hnd k hk _ hread).1
  · intro h content
    exact readsValid_of_within h

end Values

section Tables

theorem addNs_schema {wrote : Migrated} (h : r.addNs wrote nd = .ok r') :
    r'.schema.nss.Perm (nd :: r.schema.nss) := by
  rw [addNs] at h
  by_cases hcompiled : r.table.isCompiled nd.name = false
  · rw [dif_pos hcompiled] at h
    by_cases hregistered : r.table.isRegistered nd.name = false
    · rw [dif_pos hregistered] at h
      split at h
      next => exact absurd h nofun
      next slots hplace =>
        obtain rfl := Except.ok.inj h
        exact ((perm_of_place hplace).append_left _).trans List.perm_middle
    · rw [dif_neg hregistered] at h
      exact absurd h nofun
  · rw [dif_neg hcompiled] at h
    exact absurd h nofun

theorem registerNs_schema {wrote : Migrated} {raw : Option RawNs}
    (hdesc : validateRuntimeDesc raw = .ok nd) (h : r.registerNs wrote raw = .ok r') :
    r'.schema.nss.Perm (nd :: r.schema.nss) := by
  rw [registerNs, hdesc] at h
  exact addNs_schema h

theorem exists_of_registerNs {wrote : Migrated} {raw : Option RawNs}
    (h : r.registerNs wrote raw = .ok r') : ∃ nd, validateRuntimeDesc raw = .ok nd := by
  rw [registerNs] at h
  cases hdesc : validateRuntimeDesc raw with
  | error refusal =>
    rw [hdesc] at h
    exact absurd h nofun
  | ok nd => exact ⟨nd, rfl⟩

-- The calls that write values leave the tables as they are.
theorem table_applied {faults : Nat → Fault} {plan : List Entry} :
    (r.applied lib faults plan).registry.table = r.table := rfl

theorem table_setValue {fault : Fault} {ns key : CStr} {v : Value} :
    (r.setValue lib fault ns key v).registry.table = r.table := by
  rw [setValue]
  cases r.inited with
  | false => rfl
  | true =>
    cases r.findKey ns key with
    | none => rfl
    | some found =>
      obtain ⟨nd, k⟩ := found
      cases hro : k.readOnly with
      | true => simp [hro, refused]
      | false =>
        cases hvalid : validate lib k.kind v with
        | some msg => simp [hro, hvalid, refused]
        | none => simp [hro, hvalid, table_applied]

theorem table_resetKey {fault : Fault} {ns key : CStr} :
    (r.resetKey lib fault ns key).registry.table = r.table := by
  rw [resetKey]
  cases r.inited with
  | false => rfl
  | true => cases r.findKey ns key <;> rfl

theorem table_resetNs {faults : Nat → Fault} {ns : CStr} :
    (r.resetNs lib faults ns).registry.table = r.table := by
  rw [resetNs]
  cases r.inited with
  | false => rfl
  | true => cases r.schema.findNs ns <;> rfl

-- A namespace of the table after a call was there before, or is the one the call
-- registered.
theorem mem_step {c : Call} (h : nd ∈ (r.step lib c).schema.nss) :
    nd ∈ r.schema.nss ∨ ∃ wrote raw, c = .register wrote raw ∧
      validateRuntimeDesc raw = .ok nd ∧ ∃ r', r.registerNs wrote raw = .ok r' := by
  cases c with
  | init wrote =>
    left
    cases hinited : r.inited <;> simpa [step, init, refused, schema, hinited] using h
  | deinit =>
    left
    cases hinited : r.inited with
    | false => simpa [step, deinit, hinited] using h
    | true =>
      have hmem : nd ∈ r.table.compiled.nss := by
        simpa [step, deinit, hinited, schema, Table.schema, Table.fresh,
          List.reduceOption_replicate_none] using h
      exact List.mem_append_left _ hmem
  | register wrote raw =>
    cases hreg : r.registerNs wrote raw with
    | error refusal =>
      left
      simpa [step, hreg, Except.toOption] using h
    | ok r' =>
      obtain ⟨new, hdesc⟩ := exists_of_registerNs hreg
      have hmem : nd ∈ r'.schema.nss := by simpa [step, hreg, Except.toOption] using h
      rcases List.mem_cons.mp ((registerNs_schema hdesc hreg).mem_iff.mp hmem) with rfl | hold
      · exact .inr ⟨wrote, raw, rfl, hdesc, r', hreg⟩
      · exact .inl hold
  | unregister ns =>
    left
    have hsub : (r.table.remove ns).schema.nss.Sublist r.table.schema.nss :=
      clear_sublist.append_left _
    rw [step, unregisterNs] at h
    cases hcompiled : r.table.isCompiled ns with
    | true => simpa [hcompiled, refused] using h
    | false =>
      cases hregistered : r.table.isRegistered ns with
      | true => exact hsub.subset (by simpa [hcompiled, hregistered, schema] using h)
      | false => simpa [hcompiled, hregistered, refused] using h
  | set fault ns key v => exact .inl (by rwa [schema, step, table_setValue] at h)
  | resetKey fault ns key => exact .inl (by rwa [schema, step, table_resetKey] at h)
  | resetNs faults ns => exact .inl (by rwa [schema, step, table_resetNs] at h)
  | importDoc opt faults text =>
    left
    cases hinited : r.inited <;> simpa [step, importDoc, refused, schema, hinited] using h
  | factoryReset wrote =>
    left
    cases hinited : r.inited <;> simpa [step, factoryReset, refused, schema, hinited] using h
  | plant id stored => exact .inl h

end Tables

theorem sound_step (c : Call) (h : r.Sound lib) :
    (r.step lib c).Sound lib ↔ r.AdmitsWithin c := by
  rw [sound_iff] at h ⊢
  constructor
  · intro hnext
    cases c with
    | register wrote raw =>
      rintro nd hdesc ⟨r', hreg⟩
      have hstep : r.step lib (.register wrote raw) = r' := by
        simp [step, hreg, Except.toOption]
      rw [hstep] at hnext
      exact hnext nd ((registerNs_schema hdesc hreg).mem_iff.mpr List.mem_cons_self)
    | _ => trivial
  · intro hadmits nd hnd
    rcases mem_step hnd with hold | ⟨wrote, raw, rfl, hdesc, hreg⟩
    · exact h nd hold
    · exact hadmits nd hdesc hreg

theorem sound_start {compiled : Schema} {maxRuntimeNs : Nat} {st : Store}
    (h : ∀ nd ∈ compiled.nss, nd.DefaultsWithin) :
    (start compiled maxRuntimeNs st).Sound lib := by
  rw [sound_iff]
  intro nd hnd
  refine h nd ?_
  simpa [start, schema, Table.schema, Table.fresh, List.reduceOption_replicate_none] using hnd

-- From any content, over any calls: whatever the backend holds, what is read is
-- valid and can be written back, in every state, if and only if every namespace
-- that is let in has its defaults in the bounds of their keys.
theorem reads_valid_iff_admitted_within (lib : Lib) (compiled : Schema) (maxRuntimeNs : Nat)
    (st : Store) (hcompiled : ∀ nd ∈ compiled.nss, nd.DefaultsWithin) (calls : List Call) :
    Always (step lib) (Sound lib) (start compiled maxRuntimeNs st) calls ↔
      Along (step lib) AdmitsWithin (start compiled maxRuntimeNs st) calls :=
  always_iff_along (I := fun _ => True) (fun _ _ _ _ => trivial) (fun _ c _ h => sound_step c h)
    trivial (sound_start hcompiled) calls

def pumpOf (kind : RawKind) : RawNs :=
  ⟨lit "f_pump", lit "Pump", 1, some [⟨lit "speed", kind, false, false, false⟩]⟩

def pumpNsOf (kind : Kind) : NsDesc :=
  ⟨lit "f_pump", [⟨lit "speed", kind, false, false, false⟩], List.nodup_singleton _⟩

-- The key is 5 where nothing is stored, and may be from 10 to 20.
def slowKey : KeyDesc :=
  ⟨lit "speed", .int 5 10 20, false, false, false⟩

theorem default_refused_by_its_key :
    let r := run (step resetLib) (start longDefault 32 fun _ => none)
      [.init [], .register [] (some (pumpOf (.int 5 10 20)))]
    pumpNsOf slowKey.kind ∈ r.schema.nss ∧ slowKey ∈ (pumpNsOf slowKey.kind).keys ∧
      r.read resetLib (pumpNsOf slowKey.kind) slowKey = .ok (.int 5) ∧
      validate resetLib slowKey.kind (.int 5) = some (lit "out of range [10,20]") ∧
      (r.setValue resetLib .none (lit "f_pump") (lit "speed") (.int 5)).err = .invalidArg ∧
      ¬ r.ReadsValid resetLib := by
  intro r
  have hnd : pumpNsOf slowKey.kind ∈ r.schema.nss := by decide +kernel
  have hk : slowKey ∈ (pumpNsOf slowKey.kind).keys := by decide +kernel
  have hread : r.read resetLib (pumpNsOf slowKey.kind) slowKey = .ok (.int 5) := by rfl
  have hrefused : validate resetLib slowKey.kind (.int 5) = some (lit "out of range [10,20]") := by
    decide +kernel
  refine ⟨hnd, hk, hread, hrefused, by decide +kernel, fun hvalid => ?_⟩
  have hpasses := (hvalid (pumpNsOf slowKey.kind) hnd slowKey hk _ hread).1
  rw [hrefused] at hpasses
  exact absurd hpasses nofun

-- The same with a default in the bounds, a stored value out of them, and the key
-- registered again for a type the stored value does not have.
theorem pump_reads_valid :
    Always (step resetLib) (Sound resetLib) (start longDefault 32 fun _ => none)
      [.init [], .register [] (some (pumpOf (.int 12 10 20))),
        .plant (lit "f_pump", lit "speed") (some (.i32 99)), .unregister (lit "f_pump"),
        .register [] (some (pumpOf (.string (lit "slow") 4 (some [lit "slow", lit "fast"]))))] := by
  have hnumber : validateRuntimeDesc (some (pumpOf (.int 12 10 20))) =
      .ok (pumpNsOf (.int 12 10 20)) := by rfl
  have hname : validateRuntimeDesc
      (some (pumpOf (.string (lit "slow") 4 (some [lit "slow", lit "fast"])))) =
      .ok (pumpNsOf (.string (lit "slow") 4 (some [lit "slow", lit "fast"]))) := by rfl
  refine (reads_valid_iff_admitted_within resetLib longDefault 32 (fun _ => none) ?_ _).mpr
    ⟨trivial, ?_, trivial, trivial, ?_, trivial⟩
  · decide +kernel
  · intro nd hdesc _
    obtain rfl := Except.ok.inj (hnumber.symm.trans hdesc)
    decide +kernel
  · intro nd hdesc _
    obtain rfl := Except.ok.inj (hname.symm.trans hdesc)
    decide +kernel

end Registry

end Espos.Config
