import Espos.Config.Import

-- What a document asks for, and that the plan of an accepted document is that.

namespace Espos.Config

open Espos.Text

inductive Wanted where
  | keep
  | dflt
  | value (v : Value)
deriving DecidableEq

-- What one occurrence of a key asks for.
def wantedBy (lib : Lib) (k : KeyDesc) (j : Json) : Wanted :=
  if k.readOnly then .keep
  else if j.isNull then .dflt
  else if k.secret && isSentinel j then .keep
  else
    match decodeValue lib true k.kind j with
    | .ok v => .value v
    | .error _ => .keep

-- The values a document has for a key, in the order of the text.
def occurrencesIn (ns key : CStr) (m : CStr × Json) : List Json :=
  match m.2 with
  | .object keys => if m.1 = ns then (keys.filter (·.1 = key)).map (·.2) else []
  | _ => []

def occurrences (members : List (CStr × Json)) (ns key : CStr) : List Json :=
  members.flatMap (occurrencesIn ns key)

-- The last one counts.
def wanted (lib : Lib) (members : List (CStr × Json)) (nd : NsDesc) (k : KeyDesc) : Wanted :=
  match (occurrences members nd.name k.name).getLast? with
  | none => .keep
  | some j => wantedBy lib k j

-- An occurrence of a key that a descriptor declares.
structure Leaf where
  nd : NsDesc
  kd : KeyDesc
  j : Json

def Leaf.id (l : Leaf) : KeyId :=
  (l.nd.name, l.kd.name)

def leafOf (nd : NsDesc) (m : CStr × Json) : Option Leaf :=
  (nd.findKey m.1).map fun kd => ⟨nd, kd, m.2⟩

def leavesOf (S : Schema) (m : CStr × Json) : List Leaf :=
  match m.2 with
  | .object keys =>
    match S.findNs m.1 with
    | some nd => keys.filterMap (leafOf nd)
    | none => []
  | _ => []

def leaves (S : Schema) (members : List (CStr × Json)) : List Leaf :=
  members.flatMap (leavesOf S)

def Wanted.action : Wanted → Option Action
  | .keep => none
  | .dflt => some .reset
  | .value v => some (.write v)

def entryOf (lib : Lib) (l : Leaf) : Option Entry :=
  (wantedBy lib l.kd l.j).action.map fun a => ⟨l.nd, l.kd, a⟩

def addLeaf (lib : Lib) (plan : List Entry) (l : Leaf) : List Entry :=
  (plan.eraseP fun e => e.id = l.id) ++ (entryOf lib l).toList

variable {lib : Lib} {S : Schema} {opt : Options} {nd : NsDesc} {p p' : Planning}

theorem decodeValue_mem {mem : Bool} {kind : Kind} {j : Json} {v : Value}
    (h : decodeValue lib mem kind j = .ok v) : decodeValue lib true kind j = .ok v := by
  have hjson {w : Value} (h : decodeJson lib mem kind j = .ok w) :
      decodeJson lib true kind j = .ok w := by
    rw [decodeJson.eq_def] at h ⊢
    split at h <;> try exact h
    split at h
    next => exact h
    next => exact absurd h nofun
  rw [decodeValue] at h ⊢
  split at h
  next => exact absurd h nofun
  next w hw => rw [hjson hw]; exact h

theorem keyAction_ok {mem : Bool} {kd : KeyDesc} {j : Json} {action : Option Action}
    (h : keyAction lib mem kd j = .ok action) : action = (wantedBy lib kd j).action := by
  rw [keyAction] at h
  rw [wantedBy]
  split at h
  next hro =>
    rw [if_pos hro]
    exact (Except.ok.inj h).symm
  next hro =>
    rw [if_neg hro]
    split at h
    next hnull =>
      rw [if_pos hnull]
      exact (Except.ok.inj h).symm
    next hnull =>
      rw [if_neg hnull]
      split at h
      next hecho =>
        rw [if_pos hecho]
        exact (Except.ok.inj h).symm
      next hecho =>
        rw [if_neg hecho]
        split at h
        next => exact absurd h nofun
        next v hv =>
          rw [decodeValue_mem hv]
          exact (Except.ok.inj h).symm

theorem planKey_ok {m : CStr × Json} (h : planKey lib opt nd p m = .ok p') :
    p'.plan = (leafOf nd m).toList.foldl (addLeaf lib) p.plan := by
  rw [planKey] at h
  rw [leafOf]
  split at h
  next hkey =>
    rw [hkey]
    split at h
    next => obtain rfl := Except.ok.inj h; rfl
    next => exact absurd h nofun
  next kd hkey =>
    rw [hkey]
    split at h
    next => exact absurd h nofun
    next action haction =>
      obtain rfl := Except.ok.inj h
      rw [keyAction_ok haction]
      rfl

-- A fold that can fail, told by what it does to a part of the state.
theorem foldlM_ok {σ α β ε : Type*} (part : σ → α) (g : α → β → α) {f : σ → β → Except ε σ}
    (hf : ∀ s b s', f s b = .ok s' → part s' = g (part s) b) {l : List β} {s s' : σ}
    (h : l.foldlM f s = .ok s') : part s' = l.foldl g (part s) := by
  induction l generalizing s with
  | nil => rw [Except.ok.inj h]; rfl
  | cons b l ih =>
    rw [List.foldlM_cons] at h
    cases hb : f s b with
    | error e =>
      rw [hb] at h
      exact absurd h nofun
    | ok s₁ =>
      rw [hb] at h
      rw [List.foldl_cons, ← hf s b s₁ hb]
      exact ih h

theorem planNs_ok {m : CStr × Json} (h : planNs lib S opt p m = .ok p') :
    p'.plan = (leavesOf S m).foldl (addLeaf lib) p.plan := by
  obtain ⟨ns, j⟩ := m
  rw [planNs] at h
  cases hns : S.findNs ns with
  | none =>
    have hnone : leavesOf S (ns, j) = [] := by
      cases j <;> simp [leavesOf, hns]
    simp only [hns] at h
    rw [hnone]
    split at h
    next => obtain rfl := Except.ok.inj h; rfl
    next => exact absurd h nofun
  | some nd =>
    simp only [hns] at h
    cases j with
    | object keys =>
      rw [foldlM_ok Planning.plan (fun plan m => (leafOf nd m).toList.foldl (addLeaf lib) plan)
        (fun _ _ _ => planKey_ok) h, leavesOf, hns]
      dsimp only
      rw [List.filterMap_eq_flatMap_toList, List.foldl_flatMap]
    | null | bool | number | string | array => exact absurd h nofun

theorem planDoc_ok {members : List (CStr × Json)} {plan : List Entry}
    (h : planDoc lib S opt members = .ok plan) :
    plan = (leaves S members).foldl (addLeaf lib) [] := by
  rw [planDoc] at h
  cases hfold : members.foldlM (planNs lib S opt) ⟨[], 0⟩ with
  | error f =>
    rw [hfold] at h
    exact absurd h nofun
  | ok p =>
    rw [hfold] at h
    obtain rfl := Except.ok.inj h
    rw [foldlM_ok Planning.plan (fun plan m => (leavesOf S m).foldl (addLeaf lib) plan)
      (fun _ _ _ => planNs_ok) hfold, leaves, List.foldl_flatMap]

section Spec

variable {plan : List Entry} {id : KeyId}

theorem eraseP_eq_filter (h : (plan.map Entry.id).Nodup) (id : KeyId) :
    (plan.eraseP fun e => e.id = id) = plan.filter fun e => e.id ≠ id := by
  induction plan with
  | nil => rfl
  | cons e plan ih =>
    obtain ⟨hnew, hrest⟩ := List.nodup_cons.mp h
    by_cases he : e.id = id
    · have hall : ∀ f ∈ plan, f.id ≠ id := by
        intro f hf hid
        exact hnew (he ▸ hid ▸ List.mem_map_of_mem hf)
      have hkept : plan.filter (fun e => e.id ≠ id) = plan := by
        simpa [List.filter_eq_self] using hall
      rw [List.eraseP_cons_of_pos (by simpa using he), List.filter_cons_of_neg (by simpa using he),
        hkept]
    · simp [he, ih hrest]

theorem entryOf_id {l : Leaf} {e : Entry} (h : entryOf lib l = some e) : e.id = l.id := by
  rw [entryOf, Option.map_eq_some_iff] at h
  obtain ⟨a, _, rfl⟩ := h
  rfl

theorem nodup_addLeaf (h : (plan.map Entry.id).Nodup) (l : Leaf) :
    ((addLeaf lib plan l).map Entry.id).Nodup := by
  rw [addLeaf, eraseP_eq_filter h, List.map_append, List.nodup_append]
  refine ⟨h.sublist (List.filter_sublist.map _), ?_, ?_⟩
  · cases entryOf lib l <;> simp
  · intro a ha b hb hab
    obtain ⟨e, he, rfl⟩ := List.mem_map.mp ha
    obtain ⟨f, hf, rfl⟩ := List.mem_map.mp hb
    have hne : e.id ≠ l.id := by simpa using (List.mem_filter.mp he).2
    exact hne (hab.trans (entryOf_id (Option.mem_toList.mp hf)))

theorem find?_addLeaf (h : (plan.map Entry.id).Nodup) (l : Leaf) (id : KeyId) :
    (addLeaf lib plan l).find? (·.id = id) =
      if l.id = id then entryOf lib l else plan.find? (·.id = id) := by
  rw [addLeaf, eraseP_eq_filter h, List.find?_append]
  by_cases hid : l.id = id
  · subst hid
    have hgone : (plan.filter fun e => e.id ≠ l.id).find? (·.id = l.id) = none := by
      simp [List.find?_eq_none]
    rw [if_pos rfl, hgone, Option.none_or]
    cases he : entryOf lib l with
    | none => rfl
    | some e => simp [entryOf_id he]
  · have hkept : (plan.filter fun e => e.id ≠ l.id).find? (·.id = id) =
        plan.find? (·.id = id) := by
      rw [List.find?_filter]
      congr 1
      funext e
      by_cases he : e.id = id
      · simp [he, Ne.symm hid]
      · simp [he]
    have hnew : (entryOf lib l).toList.find? (·.id = id) = none := by
      cases he : entryOf lib l with
      | none => rfl
      | some e => simp [entryOf_id he, hid]
    rw [if_neg hid, hkept, hnew, Option.or_none]

-- The plan has one entry for each key, the one its last occurrence asks for.
theorem plan_spec (ls : List Leaf) :
    ((ls.foldl (addLeaf lib) []).map Entry.id).Nodup ∧
      ∀ id, (ls.foldl (addLeaf lib) []).find? (·.id = id) =
        ((ls.filter (·.id = id)).getLast?).bind (entryOf lib) := by
  induction ls using List.reverseRecOn with
  | nil => exact ⟨List.nodup_nil, fun _ => rfl⟩
  | append_singleton ls l ih =>
    rw [List.foldl_append]
    refine ⟨nodup_addLeaf ih.1 l, fun id => ?_⟩
    change (addLeaf lib _ l).find? _ = _
    rw [find?_addLeaf ih.1, ih.2, List.filter_append]
    by_cases hid : l.id = id
    · simp [hid]
    · simp [hid]

end Spec

variable {k : KeyDesc} {members : List (CStr × Json)}

theorem filter_leafOf (hk : k ∈ nd.keys) (keys : List (CStr × Json)) :
    (keys.filterMap (leafOf nd)).filter (·.id = (nd.name, k.name)) =
      ((keys.filter (·.1 = k.name)).map (·.2)).map fun j => ⟨nd, k, j⟩ := by
  induction keys with
  | nil => rfl
  | cons m keys ih =>
    obtain ⟨key, j⟩ := m
    by_cases hkey : key = k.name
    · subst hkey
      have hleaf : leafOf nd (k.name, j) = some ⟨nd, k, j⟩ := by
        rw [leafOf, NsDesc.findKey_of_mem hk, Option.map_some]
      rw [List.filterMap_cons_some hleaf, List.filter_cons_of_pos (by simp [Leaf.id]), ih]
      simp
    · rw [List.filter_cons_of_neg (by simpa using hkey), ← ih]
      cases hfound : nd.findKey key with
      | none => rw [List.filterMap_cons_none (by rw [leafOf, hfound, Option.map_none])]
      | some kd =>
        have hname := (NsDesc.findKey_eq_some hfound).2
        rw [List.filterMap_cons_some (by rw [leafOf, hfound, Option.map_some])]
        rw [List.filter_cons_of_neg]
        simpa [Leaf.id, hname] using hkey

theorem mem_leafOf {keys : List (CStr × Json)} {l : Leaf} (h : l ∈ keys.filterMap (leafOf nd)) :
    l.nd = nd ∧ l.kd ∈ nd.keys := by
  obtain ⟨m, _, hm⟩ := List.mem_filterMap.mp h
  rw [leafOf, Option.map_eq_some_iff] at hm
  obtain ⟨kd, hkd, rfl⟩ := hm
  exact ⟨rfl, (NsDesc.findKey_eq_some hkd).1⟩

theorem filter_leavesOf (hnd : nd ∈ S.nss) (hk : k ∈ nd.keys) (m : CStr × Json) :
    (leavesOf S m).filter (·.id = (nd.name, k.name)) =
      (occurrencesIn nd.name k.name m).map fun j => ⟨nd, k, j⟩ := by
  obtain ⟨ns, j⟩ := m
  cases j with
  | object keys =>
    rw [leavesOf, occurrencesIn]
    dsimp only
    by_cases hns : ns = nd.name
    · subst hns
      rw [Schema.findNs_of_mem hnd, if_pos rfl]
      exact filter_leafOf hk keys
    · rw [if_neg hns]
      cases hfound : S.findNs ns with
      | none => rfl
      | some nd' =>
        have hname := (Schema.findNs_eq_some hfound).2
        rw [List.map_nil, List.filter_eq_nil_iff]
        intro l hl
        rw [decide_eq_true_eq, Leaf.id, (mem_leafOf hl).1, hname]
        exact fun heq => hns (congrArg Prod.fst heq)
  | null | bool | number | string | array => rfl

theorem filter_leaves (hnd : nd ∈ S.nss) (hk : k ∈ nd.keys) :
    (leaves S members).filter (·.id = (nd.name, k.name)) =
      (occurrences members nd.name k.name).map fun j => ⟨nd, k, j⟩ := by
  induction members with
  | nil => rfl
  | cons m members ih =>
    rw [leaves, occurrences, List.flatMap_cons, List.flatMap_cons, List.filter_append,
      List.map_append, filter_leavesOf hnd hk]
    exact congrArg _ ih

-- The plan of an accepted document has an entry for a key exactly where the key's
-- last occurrence asks for something.
theorem plan_wanted {plan : List Entry} (h : planDoc lib S opt members = .ok plan)
    (hnd : nd ∈ S.nss) (hk : k ∈ nd.keys) :
    plan.find? (·.id = (nd.name, k.name)) =
      (wanted lib members nd k).action.map fun a => ⟨nd, k, a⟩ := by
  rw [planDoc_ok h, (plan_spec _).2, filter_leaves hnd hk, List.getLast?_map, wanted]
  cases (occurrences members nd.name k.name).getLast? with
  | none => rfl
  | some j => rfl

theorem plan_nodup {plan : List Entry} (h : planDoc lib S opt members = .ok plan) :
    (plan.map Entry.id).Nodup := by
  rw [planDoc_ok h]
  exact (plan_spec _).1

theorem mem_leaves {l : Leaf} (h : l ∈ leaves S members) : l.nd ∈ S.nss ∧ l.kd ∈ l.nd.keys := by
  rw [leaves, List.mem_flatMap] at h
  obtain ⟨m, _, hm⟩ := h
  rw [leavesOf] at hm
  split at hm
  next keys _ =>
    split at hm
    next nd hns =>
      obtain ⟨hl, hkd⟩ := mem_leafOf hm
      exact ⟨hl ▸ (Schema.findNs_eq_some hns).1, hl ▸ hkd⟩
    next => exact absurd hm List.not_mem_nil
  next => exact absurd hm List.not_mem_nil

-- Every entry of the plan is of a key that a descriptor declares.
theorem mem_plan {plan : List Entry} (h : planDoc lib S opt members = .ok plan) {e : Entry}
    (he : e ∈ plan) : e.ns ∈ S.nss ∧ e.key ∈ e.ns.keys := by
  have hfind : plan.find? (·.id = e.id) = some e := find?_of_mem (plan_nodup h) he
  rw [planDoc_ok h, (plan_spec _).2, Option.bind_eq_some_iff] at hfind
  obtain ⟨l, hl, hentry⟩ := hfind
  have hmem := (List.mem_filter.mp (List.mem_of_getLast? hl)).1
  rw [entryOf, Option.map_eq_some_iff] at hentry
  obtain ⟨a, _, rfl⟩ := hentry
  exact mem_leaves hmem

theorem valid_of_wantedBy {j : Json} {v : Value} (h : wantedBy lib k j = .value v) :
    validate lib k.kind v = none := by
  rw [wantedBy] at h
  split at h
  next => exact absurd h nofun
  next =>
    split at h
    next => exact absurd h nofun
    next =>
      split at h
      next => exact absurd h nofun
      next =>
        split at h
        next w hdecode =>
          obtain rfl := Wanted.value.inj h
          rw [decodeValue] at hdecode
          split at hdecode
          next => exact absurd hdecode nofun
          next =>
            split at hdecode
            next => exact absurd hdecode nofun
            next hvalid => exact Except.ok.inj hdecode ▸ hvalid
        next => exact absurd h nofun

theorem valid_of_wanted {v : Value} (h : wanted lib members nd k = .value v) :
    validate lib k.kind v = none := by
  rw [wanted] at h
  split at h
  next => exact absurd h nofun
  next => exact valid_of_wantedBy h

end Espos.Config
