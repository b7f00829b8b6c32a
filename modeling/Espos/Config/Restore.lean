import Espos.Config.Exact
import Espos.Config.Import

-- `espos_config_export_json`, and that the import decodes what it writes.

namespace Espos.Config

open Espos.Text

-- The shortest of the decimals with 6 to 9 digits that is read back as the same
-- `float`, as a `double`.
def floatForJson (lib : Lib) (x : Number) : Number :=
  let texts := [6, 7, 8, 9].map fun prec => lib.printG prec x
  lib.strtod ((texts.find? fun text => (lib.strtof text).feq x).getD (lib.printG 9 x))

def valueToJson (lib : Lib) (k : KeyDesc) (v : Value) (includeSecrets : Bool) : Json :=
  match v with
  | .bool b => .bool b
  | .int i => .number (.finite i.toInt)
  | .float x => .number (floatForJson lib x)
  | .string s =>
    if k.secret && !includeSecrets && s ≠ [] then .string sentinel else .string s
  | .blob bytes =>
    if k.secret && !includeSecrets && bytes ≠ [] then .string sentinel
    else .string (b64Encode bytes)

section Export

variable (lib : Lib) (st : Store) (includeSecrets : Bool)

def exportKey (nd : NsDesc) (k : KeyDesc) : CStr × Json :=
  (k.name, valueToJson lib k (effective lib st nd k) includeSecrets)

def exportNs (nd : NsDesc) : CStr × Json :=
  (nd.name, .object (nd.keys.map (exportKey lib st includeSecrets nd)))

def exportMembers (nss : List NsDesc) : List (CStr × Json) :=
  nss.map (exportNs lib st includeSecrets)

-- `mem` tells whether there is memory for all of it.
def exportJson (S : Schema) (mem : Bool) (only : Option CStr) : Except EspErr (List Char) :=
  let text (nss : List NsDesc) : Except EspErr (List Char) :=
    if mem then .ok (lib.print (.object (exportMembers lib st includeSecrets nss)))
    else .error .noMem
  match only with
  | none => text S.nss
  | some ns =>
    match S.findNs ns with
    | none => .error .notFound
    | some nd => text [nd]

end Export

def Kind.isFloat : Kind → Bool
  | .float _ _ _ => true
  | _ => false

variable {lib : Lib} {k : KeyDesc} {v : Value}

theorem toInt_int32 (i : Int32) :
    Number.toInt? (-2147483648) 2147483647 (.finite i.toInt) = some i.toInt :=
  Number.toInt?_intCast ⟨i.le_toInt, Int.lt_add_one_iff.mp i.toInt_lt⟩

-- With its secrets, a value is written in a way that it is read back from.
theorem decodeJson_valueToJson (hfloat : k.kind.isFloat = false) (hfits : v.Fits k.kind) :
    decodeJson lib true k.kind (valueToJson lib k v true) = .ok v := by
  obtain ⟨name, kind, secret, restartRequired, readOnly⟩ := k
  cases kind with
  | bool dflt =>
    cases v with
    | bool b => rfl
    | int | float | string | blob => exact hfits.elim
  | int dflt min max =>
    cases v with
    | int i =>
      simp only [valueToJson, decodeJson, toInt_int32, Int32.ofInt_toInt]
    | bool | float | string | blob => exact hfits.elim
  | float dflt min max => exact absurd hfloat nofun
  | string dflt maxLen enum =>
    cases v with
    | string s => simp [valueToJson, decodeJson]
    | bool | int | float | blob => exact hfits.elim
  | blob maxLen =>
    cases v with
    | blob bytes => simp [valueToJson, decodeJson, b64Decode_b64Encode]
    | bool | int | float | string => exact hfits.elim

-- No blob is written as the sentinel.
theorem b64Encode_ne_sentinel (bytes : List UInt8) : b64Encode bytes ≠ sentinel := by
  intro heq
  have hstar : '*' ∈ b64Encode bytes := by
    rw [heq]
    decide +kernel
  rw [b64Encode_eq, List.mem_append, List.mem_replicate] at hstar
  rcases hstar with hcore | ⟨_, hpad⟩
  · exact (mem_b64Core hcore).2 rfl
  · exact absurd hpad (by decide)

theorem isSentinel_valueToJson :
    isSentinel (valueToJson lib k v true) = true ↔ v = .string sentinel := by
  cases v with
  | string s => simp [valueToJson, isSentinel]
  | blob bytes => simp [valueToJson, isSentinel, b64Encode_ne_sentinel]
  | bool | int | float => simp [valueToJson, isSentinel]

theorem isNull_valueToJson : (valueToJson lib k v true).isNull = false := by
  cases v <;> simp [valueToJson, Json.isNull]

end Espos.Config

-- A backup: the import of what an export with the secrets wrote.

namespace Espos.Config

open Espos.Text

-- cJSON prints a text that it reads back, up to its end.
structure PrintsBack (lib : Lib) (doc : Json) : Prop where
  escaped : wellEscaped (lib.print doc) = true
  parsed : lib.parse (lib.print doc) = some (doc, (lib.print doc).length)

def Schema.NoFloats (S : Schema) : Prop :=
  ∀ nd ∈ S.nss, ∀ k ∈ nd.keys, k.kind.isFloat = false

-- The defaults that writable keys have as their value pass the check of the key.
def DefaultsPass (lib : Lib) (S : Schema) (st : Store) : Prop :=
  ∀ nd ∈ S.nss, ∀ k ∈ nd.keys, k.readOnly = false → effective lib st nd k = k.kind.default →
    validate lib k.kind k.kind.default = none

-- A secret that the import takes for a redacted one.
def looksRedacted (k : KeyDesc) (v : Value) : Bool :=
  k.secret && v = .string sentinel

section Nul

theorem ne_of_isHex {c : Char} (h : isHex c = true) : c ≠ '\\' ∧ '\x00' ≠ c := by
  constructor <;> (rintro rfl; revert h; decide)

theorem hasNulEscape_cons {c : Char} {rest : List Char} (h : c ≠ '\\') :
    hasNulEscape (c :: rest) = hasNulEscape rest := by
  rw [hasNulEscape.eq_def]
  split
  next heq => exact absurd (List.cons.inj heq).1 h
  next heq => exact absurd (List.cons.inj heq).1 h
  next heq => rw [(List.cons.inj heq).2]
  next heq => exact absurd heq nofun

theorem hasNulEscape_escape {c : Char} {rest : List Char}
    (h : ∀ rest', c :: rest ≠ 'u' :: '0' :: '0' :: '0' :: '0' :: rest') :
    hasNulEscape ('\\' :: c :: rest) = hasNulEscape rest := by
  rw [hasNulEscape.eq_def]
  split
  next rest' heq => exact absurd (List.cons.inj heq).2 (h rest')
  next heq => rw [(List.cons.inj (List.cons.inj heq).2).2]
  next hne heq =>
    obtain ⟨rfl, rfl⟩ := List.cons.inj heq
    exact absurd rfl (hne c rest rfl)
  next heq => exact absurd heq nofun

theorem hasNul_of_wellEscaped {text : List Char} (h : wellEscaped text = true) :
    '\x00' ∉ text ∧ hasNulEscape text = false := by
  induction text using wellEscaped.induct with
  | case1 => exact ⟨List.not_mem_nil, rfl⟩
  | case2 a b c d rest ih =>
    simp only [wellEscaped, List.all_cons, List.all_nil, Bool.and_eq_true, Bool.and_true,
      decide_eq_true_eq] at h
    obtain ⟨⟨⟨ha, hb, hc, hd⟩, hne⟩, hrest⟩ := h
    obtain ⟨hraw, hescaped⟩ := ih hrest
    refine ⟨by simp [ne_of_isHex, *], ?_⟩
    rw [hasNulEscape_escape, hasNulEscape_cons (ne_of_isHex ha).1,
      hasNulEscape_cons (ne_of_isHex hb).1, hasNulEscape_cons (ne_of_isHex hc).1,
      hasNulEscape_cons (ne_of_isHex hd).1, hescaped]
    rintro rest' heq
    simp only [List.cons.injEq, true_and] at heq
    exact hne (by simp [heq])
  | case3 c rest hu ih =>
    rw [wellEscaped] at h
    · simp only [Bool.and_eq_true, decide_eq_true_eq] at h
      obtain ⟨⟨hcu, hnul⟩, hrest⟩ := h
      obtain ⟨hraw, hescaped⟩ := ih hrest
      refine ⟨by simp [Ne.symm hnul, hraw], ?_⟩
      rw [hasNulEscape_escape, hescaped]
      rintro rest' heq
      exact hcu (List.cons.inj heq).1
    · exact hu
  | case4 c rest h1 h2 ih => 
      rw [wellEscaped] at h
      · simp only [Bool.and_eq_true, decide_eq_true_eq] at h
        obtain ⟨⟨hback, hnul⟩, hrest⟩ := h
        obtain ⟨hraw, hescaped⟩ := ih hrest
        exact ⟨by simp [Ne.symm hnul, hraw], by rw [hasNulEscape_cons hback, hescaped]⟩
      · exact h1
      · exact h2
end Nul

theorem document_print {lib : Lib} {doc : Json} (h : PrintsBack lib doc) :
    document lib (lib.print doc) = some doc := by
  obtain ⟨hraw, hescaped⟩ := hasNul_of_wellEscaped h.escaped
  have hnul : jsonHasNul (lib.print doc) = false := by
    simp [jsonHasNul, hraw, hescaped]
  simp [document, h.parsed, hnul]

variable {lib : Lib} {S : Schema} {opt : Options} {st : Store} {nd : NsDesc} {k : KeyDesc}
  {v : Value}

-- What the import makes of a key that the export wrote.
theorem decodeValue_exported (hfloat : k.kind.isFloat = false) (hfits : v.Fits k.kind)
    (hvalid : validate lib k.kind v = none) :
    decodeValue lib true k.kind (valueToJson lib k v true) = .ok v := by
  simp only [decodeValue, decodeJson_valueToJson hfloat hfits, hvalid]

theorem keyAction_exported (hro : k.readOnly = false) (hfloat : k.kind.isFloat = false)
    (hfits : v.Fits k.kind) (hvalid : validate lib k.kind v = none) :
    keyAction lib true k (valueToJson lib k v true) =
      .ok (if looksRedacted k v then none else some (.write v)) := by
  rw [keyAction, hro, isNull_valueToJson, decodeValue_exported hfloat hfits hvalid]
  by_cases hsecret : looksRedacted k v = true
  · have hecho := hsecret
    simp only [looksRedacted, Bool.and_eq_true, decide_eq_true_eq] at hecho
    simp [hsecret, hecho.1, isSentinel_valueToJson.mpr hecho.2]
  · have hecho : (k.secret && isSentinel (valueToJson lib k v true)) = false := by
      simp only [looksRedacted, Bool.and_eq_true, decide_eq_true_eq] at hsecret
      rw [← Bool.not_eq_true, Bool.and_eq_true, isSentinel_valueToJson]
      exact hsecret
    simp [hsecret, hecho]

theorem action_injective : Function.Injective Wanted.action := by
  intro a b h
  cases a <;> cases b <;> simp_all [Wanted.action]

theorem wantedBy_exported (hro : k.readOnly = false) (hfloat : k.kind.isFloat = false)
    (hfits : v.Fits k.kind) (hvalid : validate lib k.kind v = none) :
    wantedBy lib k (valueToJson lib k v true) =
      if looksRedacted k v then .keep else .value v := by
  apply action_injective
  rw [← keyAction_ok (keyAction_exported hro hfloat hfits hvalid)]
  split <;> rfl

section Document

theorem flatMap_if {α β : Type*} {p : α → Prop} [DecidablePred p] {g : α → List β} (l : List α) :
    (l.flatMap fun x => if p x then g x else []) = (l.filter (p ·)).flatMap g := by
  induction l with
  | nil => rfl
  | cons x l ih =>
    by_cases hx : p x
    · simp [hx, ih]
    · simp [hx, ih]

theorem occurrences_exported (hnd : nd ∈ S.nss) (hk : k ∈ nd.keys) :
    occurrences (exportMembers lib st true S.nss) nd.name k.name =
      [valueToJson lib k (effective lib st nd k) true] := by
  have hkeys : ((nd.keys.map (exportKey lib st true nd)).filter (·.1 = k.name)).map (·.2) =
      [valueToJson lib k (effective lib st nd k) true] := by
    have hname : nd.keys.filter ((fun m => decide (m.1 = k.name)) ∘ exportKey lib st true nd) =
        [k] := filter_of_mem nd.nodup hk
    rw [List.filter_map, hname]
    rfl
  have hns : S.nss.filter (·.name = nd.name) = [nd] := filter_of_mem S.nodup hnd
  have hmember (nd' : NsDesc) : occurrencesIn nd.name k.name (exportNs lib st true nd') =
      if nd'.name = nd.name then
        ((nd'.keys.map (exportKey lib st true nd')).filter (·.1 = k.name)).map (·.2)
      else [] := rfl
  rw [occurrences, exportMembers, List.flatMap_map]
  simp only [hmember]
  rw [flatMap_if, hns, List.flatMap_singleton, hkeys]

theorem wanted_exported (hnd : nd ∈ S.nss) (hk : k ∈ nd.keys) :
    wanted lib (exportMembers lib st true S.nss) nd k =
      wantedBy lib k (valueToJson lib k (effective lib st nd k) true) := by
  rw [wanted, occurrences_exported hnd hk]
  rfl

theorem foldlM_total {σ β ε : Type*} {f : σ → β → Except ε σ} {l : List β}
    (h : ∀ b ∈ l, ∀ s, ∃ s', f s b = .ok s') (s : σ) : ∃ s', l.foldlM f s = .ok s' := by
  induction l generalizing s with
  | nil => exact ⟨s, rfl⟩
  | cons b l ih =>
    obtain ⟨s₁, hs₁⟩ := h b List.mem_cons_self s
    obtain ⟨s₂, hs₂⟩ := ih (fun b hb => h b (List.mem_cons_of_mem _ hb)) s₁
    exact ⟨s₂, by rw [List.foldlM_cons, hs₁]; exact hs₂⟩

variable (hfloat : S.NoFloats) (hdefaults : DefaultsPass lib S st)
  (hmem : ∀ i, opt.blobMem i = true)

include hfloat hdefaults hmem

theorem planKey_exported (hnd : nd ∈ S.nss) (hk : k ∈ nd.keys) (p : Planning) :
    ∃ p', planKey lib opt nd p (exportKey lib st true nd k) = .ok p' := by
  have haction : ∃ action,
      keyAction lib true k (valueToJson lib k (effective lib st nd k) true) = .ok action := by
    cases hro : k.readOnly with
    | true => exact ⟨none, by rw [keyAction, if_pos hro]⟩
    | false =>
      exact ⟨_, keyAction_exported hro (hfloat nd hnd k hk) fits_readEffective
        (valid_readEffective (hdefaults nd hnd k hk hro))⟩
  obtain ⟨action, haction⟩ := haction
  simp only [planKey, exportKey, NsDesc.findKey_of_mem hk, hmem, haction]
  exact ⟨_, rfl⟩

theorem planDoc_exported :
    ∃ plan, planDoc lib S opt (exportMembers lib st true S.nss) = .ok plan := by
  have hfold : ∃ p,
      (exportMembers lib st true S.nss).foldlM (planNs lib S opt) ⟨[], 0⟩ = .ok p := by
    refine foldlM_total (fun m hm p => ?_) _
    obtain ⟨nd, hnd, rfl⟩ := List.mem_map.mp hm
    simp only [planNs, exportNs, Schema.findNs_of_mem hnd]
    refine foldlM_total (fun m hm p => ?_) p
    obtain ⟨k, hk, rfl⟩ := List.mem_map.mp hm
    exact planKey_exported hfloat hdefaults hmem hnd hk p
  obtain ⟨p, hp⟩ := hfold
  exact ⟨p.plan, by rw [planDoc, hp]; rfl⟩

end Document

-- A backup is taken back, and every writable key has the value again that it had
-- then, but for a secret that looks like a redacted one.
theorem restore_backup (opt : Options) (target : Store) {mem : Bool} {text : List Char}
    (hfloat : S.NoFloats) (hdefaults : DefaultsPass lib S st)
    (hprint : PrintsBack lib (.object (exportMembers lib st true S.nss)))
    (hplan : opt.planMem = true) (hmem : ∀ i, opt.blobMem i = true)
    (htext : exportJson lib st true S mem none = .ok text) :
    (importJson lib S opt noFaults target (some text)).err = .ok ∧
      ∀ nd ∈ S.nss, ∀ k ∈ nd.keys, k.readOnly = false →
        effective lib (importJson lib S opt noFaults target (some text)).store nd k =
          if looksRedacted k (effective lib st nd k) then effective lib target nd k
          else effective lib st nd k := by
  obtain rfl : text = lib.print (.object (exportMembers lib st true S.nss)) := by
    rw [exportJson] at htext
    dsimp only at htext
    split at htext
    next => exact (Except.ok.inj htext).symm
    next => exact absurd htext nofun
  obtain ⟨plan, hplanned⟩ := planDoc_exported hfloat hdefaults hmem
  have hout : importJson lib S opt noFaults target
      (some (lib.print (.object (exportMembers lib st true S.nss)))) =
        finish (applyPlan lib noFaults target plan) := by
    simp only [importJson, document_print hprint, hplan, if_true, hplanned]
  obtain ⟨hok, hstore, _⟩ := finish_eq target hplanned
  rw [hout]
  refine ⟨hok, fun nd hnd k hk hro => ?_⟩
  have hfits : (effective lib st nd k).Fits k.kind := fits_readEffective
  have hvalid : validate lib k.kind (effective lib st nd k) = none :=
    valid_readEffective (hdefaults nd hnd k hk hro)
  rw [hstore, effective_after hplanned hnd hk, wanted_exported hnd hk,
    wantedBy_exported hro (hfloat nd hnd k hk) hfits hvalid]
  by_cases hredacted : looksRedacted k (effective lib st nd k) = true
  · rw [if_pos hredacted, if_pos hredacted]
  · rw [if_neg hredacted, if_neg hredacted]

def passKey : KeyDesc :=
  ⟨lit "pass", .string [] 64 none, true, false, false⟩

def portKey : KeyDesc :=
  ⟨lit "port", .int 80 1 65535, false, true, false⟩

def certKey : KeyDesc :=
  ⟨lit "cert", .blob 16, true, false, false⟩

def deviceNs : NsDesc :=
  ⟨lit "device", [passKey, portKey, certKey], by decide +kernel⟩

def deviceSchema : Schema where
  nss := [deviceNs]
  nodup := by decide +kernel

def deviceStore (pass : CStr) : Store := fun id =>
  if id = (lit "device", lit "pass") then some (.str pass)
  else if id = (lit "device", lit "port") then some (.i32 8080)
  else if id = (lit "device", lit "cert") then some (.blob [1, 2])
  else none

def deviceLib (pass : CStr) : Lib :=
  textLib (lit "\x7b\"device\":\x7b\"pass\":\"" ++ pass ++
      lit "\",\"port\":8080,\"cert\":\"AQI=\"\x7d\x7d")
    (.object [(lit "device", .object [(lit "pass", .string pass),
      (lit "port", .number (.finite 8080)), (lit "cert", .string (lit "AQI="))])])

def enoughMemory : Options :=
  ⟨false, true, fun _ => true⟩

theorem restore_device :
    let lib := deviceLib (lit "hunter2")
    let st := deviceStore (lit "hunter2")
    let text := lib.print .null
    exportJson lib st true deviceSchema true none = .ok text ∧
      (importJson lib deviceSchema enoughMemory noFaults (fun _ => none) (some text)).err = .ok ∧
      effective lib (importJson lib deviceSchema enoughMemory noFaults (fun _ => none)
        (some text)).store deviceNs passKey = .string (lit "hunter2") := by
  intro lib st text
  have htext : exportJson lib st true deviceSchema true none = .ok text := rfl
  have hfloat : deviceSchema.NoFloats := by
    unfold Schema.NoFloats
    decide +kernel
  have hdefaults : DefaultsPass lib deviceSchema st := by
    unfold DefaultsPass
    decide +kernel
  have hprint : PrintsBack lib (.object (exportMembers lib st true deviceSchema.nss)) :=
    ⟨by decide +kernel, rfl⟩
  obtain ⟨hok, hvalues⟩ := restore_backup enoughMemory (fun _ => none) hfloat hdefaults hprint rfl
    (fun _ => rfl) htext
  refine ⟨htext, hok, ?_⟩
  rw [hvalues deviceNs (by decide +kernel) passKey (by decide +kernel) rfl]
  decide +kernel

-- The secret is the sentinel itself: the import leaves the key at its default.
theorem sentinel_secret_lost :
    let lib := deviceLib sentinel
    let st := deviceStore sentinel
    let text := lib.print .null
    deviceSchema.NoFloats ∧ exportJson lib st true deviceSchema true none = .ok text ∧
      PrintsBack lib (.object (exportMembers lib st true deviceSchema.nss)) ∧
      (importJson lib deviceSchema enoughMemory noFaults (fun _ => none) (some text)).err = .ok ∧
      effective lib st deviceNs passKey = .string sentinel ∧
      effective lib (importJson lib deviceSchema enoughMemory noFaults (fun _ => none)
        (some text)).store deviceNs passKey = .string [] := by
  intro lib st text
  refine ⟨?_, rfl, ⟨by decide +kernel, rfl⟩, ?_, ?_, ?_⟩
  · unfold Schema.NoFloats
    decide +kernel
  · decide +kernel
  · decide +kernel
  · decide +kernel

end Espos.Config
