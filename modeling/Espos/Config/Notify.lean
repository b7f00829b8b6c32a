import Espos.Config.Exact
import Espos.Config.Registry
import Espos.Lib.Lists
import Espos.Lib.Run

-- What subscribers are told while several tasks write the store at once.

namespace Espos.Config

open Espos.Run Espos.Slots Espos.Text

inductive Writing where
  | set (fault : Fault) (ns key : CStr) (v : Value)
  | resetKey (fault : Fault) (ns key : CStr)
  | resetNs (faults : Nat → Fault) (ns : CStr)
  | importDoc (opt : Options) (faults : Nat → Fault) (text : Option (List Char))

-- Nothing is stored whose commit fails.
def Writing.Committed : Writing → Prop
  | .set fault _ _ _ => ∀ err, fault ≠ .uncommitted err
  | .resetKey fault _ _ => ∀ err, fault ≠ .uncommitted err
  | .resetNs faults _ => ∀ i err, faults i ≠ .uncommitted err
  | .importDoc _ faults _ => ∀ i err, faults i ≠ .uncommitted err

-- Where a task is in telling the subscribers: those still to be told of a key,
-- and the keys behind it.
structure Telling (σ : Type*) where
  now : Option (KeyId × List σ)
  rest : List KeyId

def Telling.idle {σ : Type*} : Telling σ :=
  ⟨none, []⟩

inductive Move (τ σ : Type*) where
  | call (task : τ) (w : Writing)
  | turn (task : τ)
  | subscribe (cb : σ)
  | unsubscribe (cb : σ)
  | load (cb : σ)

-- `seen` is what a subscriber that reads a key anew when it is told has read last.
structure Tasks (τ σ : Type*) where
  registry : Registry
  subs : List (Option σ)
  tasks : τ → Telling σ
  seen : σ → KeyId → Option Value

section Moves

variable (lib : Lib)

def Registry.write (r : Registry) : Writing → Registry.Done
  | .set fault ns key v => r.setValue lib fault ns key v
  | .resetKey fault ns key => r.resetKey lib fault ns key
  | .resetNs faults ns => r.resetNs lib faults ns
  | .importDoc opt faults text => r.importDoc lib opt faults text

-- What a subscriber reads of a key.
def Registry.valueOf (r : Registry) (id : KeyId) : Option Value :=
  (r.findKey id.1 id.2).map fun found => effective lib r.store found.1 found.2

variable {τ σ : Type*} [DecidableEq τ] [DecidableEq σ]

-- The next step of `notify`: the table is copied for each key, and the copy is
-- gone through outside of the lock.
def Tasks.turn (s : Tasks τ σ) (task : τ) : Tasks τ σ :=
  match s.tasks task with
  | ⟨some (id, cb :: cbs), rest⟩ =>
    { s with
      tasks := Function.update s.tasks task ⟨some (id, cbs), rest⟩
      seen := Function.update s.seen cb
        (Function.update (s.seen cb) id (s.registry.valueOf lib id)) }
  | ⟨some (_, []), rest⟩ => { s with tasks := Function.update s.tasks task ⟨none, rest⟩ }
  | ⟨none, id :: rest⟩ =>
    { s with tasks := Function.update s.tasks task ⟨some (id, s.subs.reduceOption), rest⟩ }
  | ⟨none, []⟩ => s

-- A task that is still telling makes no other call.
def Tasks.move (s : Tasks τ σ) : Move τ σ → Tasks τ σ
  | .call task w =>
    match s.tasks task with
    | ⟨none, []⟩ =>
      let done := s.registry.write lib w
      { s with
        registry := done.registry
        tasks := Function.update s.tasks task ⟨none, done.notified⟩ }
    | _ => s
  | .turn task => s.turn lib task
  | .subscribe cb => { s with subs := (place cb s.subs).getD s.subs }
  | .unsubscribe cb => { s with subs := clear (fun other => decide (other = cb)) s.subs }
  | .load cb => { s with seen := Function.update s.seen cb (s.registry.valueOf lib) }

end Moves

section Writes

variable {lib : Lib} {S : Schema} {nd : NsDesc} {k : KeyDesc} {plan : List Entry} {a : Applied}
  {faults : Nat → Fault} {e : Entry}

-- An entry of a declared key, whose value has passed its check.
structure Entry.Sound (lib : Lib) (S : Schema) (e : Entry) : Prop where
  ns : e.ns ∈ S.nss
  key : e.key ∈ e.ns.keys
  valid : ∀ v, e.action = .write v → validate lib e.key.kind v = none

-- A write that changes what is read of its key says so.
theorem effective_of_not_changes {st : Store} (hvalid : ∀ v, e.action = .write v →
      validate lib e.key.kind v = none) (h : entryChanges lib st e = false) :
    effective lib (Nvs.apply st e.toWrite) e.ns e.key = effective lib st e.ns e.key := by
  have hstored : effective lib (Nvs.apply st e.toWrite) e.ns e.key =
      readEffective lib e.key.kind e.toWrite.value :=
    congrArg (readEffective lib e.key.kind) (Function.update_self ..)
  rw [hstored]
  obtain ⟨ns, key, action⟩ := e
  cases action with
  | reset =>
    have hequal : valueEquals (effective lib st ns key) key.kind.rawDefault = true := by
      simpa [entryChanges] using h
    have hcur : (effective lib st ns key).Fits key.kind := fits_readEffective
    rw [((valueEquals_rawDefault hcur).mp hequal).2]
    exact readEffective_none
  | write v =>
    have hequal : valueEquals (effective lib st ns key) v = true := by
      simpa [entryChanges] using h
    rw [(valueEquals_iff (ne_nan_of_valid (hvalid v rfl))).mp hequal]
    exact readEffective_stored (hvalid v rfl)

theorem changed_applyEntry {fault : Fault} (hfault : ∀ err, fault ≠ .uncommitted err)
    (he : e.Sound lib S) (hnd : nd ∈ S.nss) (hk : k ∈ nd.keys)
    (h : effective lib (applyEntry lib fault a e).store nd k ≠ effective lib a.store nd k) :
    (nd.name, k.name) ∈ (applyEntry lib fault a e).changed.map Entry.id := by
  cases fault with
  | refused err => exact absurd rfl h
  | uncommitted err => exact absurd rfl (hfault err)
  | none =>
    have hstore : (applyEntry lib .none a e).store = Nvs.apply a.store e.toWrite := by
      simp only [applyEntry]
      split <;> rfl
    rw [hstore] at h
    by_cases hid : (nd.name, k.name) = e.id
    · obtain ⟨rfl, rfl⟩ := Schema.eq_of_names hnd he.ns hk he.key hid
      cases hchanges : entryChanges lib a.store e with
      | false => exact absurd (effective_of_not_changes he.valid hchanges) h
      | true => simp [applyEntry, hchanges, Entry.id]
    · refine absurd ?_ h
      exact congrArg (readEffective lib k.kind) (Function.update_of_ne hid _ _)

theorem changed_sublist (fault : Fault) (a : Applied) (e : Entry) :
    a.changed.Sublist (applyEntry lib fault a e).changed := by
  cases fault with
  | refused err => exact List.Sublist.refl _
  | uncommitted err => exact List.Sublist.refl _
  | none =>
    simp only [applyEntry]
    split
    · exact List.sublist_append_left _ _
    · exact List.Sublist.refl _

theorem changed_sublist_from (i : Nat) :
    a.changed.Sublist (applyFrom lib faults a i plan).changed := by
  induction plan generalizing a i with
  | nil => exact List.Sublist.refl _
  | cons e plan ih => exact (changed_sublist _ a e).trans (ih (i + 1))

theorem changed_applyFrom (hfaults : ∀ i err, faults i ≠ .uncommitted err)
    (hplan : ∀ e ∈ plan, e.Sound lib S) (hnd : nd ∈ S.nss) (hk : k ∈ nd.keys) {i : Nat}
    (h : effective lib (applyFrom lib faults a i plan).store nd k ≠ effective lib a.store nd k) :
    (nd.name, k.name) ∈ (applyFrom lib faults a i plan).changed.map Entry.id := by
  induction plan generalizing a i with
  | nil => exact absurd rfl h
  | cons e plan ih =>
    rw [applyFrom] at h ⊢
    by_cases hfirst : effective lib (applyEntry lib (faults i) a e).store nd k =
        effective lib a.store nd k
    · rw [← hfirst] at h
      exact ih (fun f hf => hplan f (List.mem_cons_of_mem e hf)) h
    · have hmem := changed_applyEntry (hfaults i) (hplan e List.mem_cons_self) hnd hk hfirst
      exact ((changed_sublist_from (i + 1)).map Entry.id).subset hmem

theorem mem_of_findKey {r : Registry} {ns key : CStr} (h : r.findKey ns key = some (nd, k)) :
    nd ∈ r.schema.nss ∧ k ∈ nd.keys ∧ (nd.name, k.name) = (ns, key) := by
  rw [Registry.findKey] at h
  obtain ⟨nd', hns, hrest⟩ := Option.bind_eq_some_iff.mp h
  obtain ⟨k', hkey, hpair⟩ := Option.bind_eq_some_iff.mp hrest
  obtain ⟨rfl, rfl⟩ := Prod.mk.inj (Option.some.inj hpair)
  obtain ⟨hnd, hname⟩ := Schema.findNs_eq_some hns
  obtain ⟨hk, hkname⟩ := NsDesc.findKey_eq_some hkey
  exact ⟨hnd, hk, by rw [hname, hkname]⟩

-- A call is refused, or applies a plan of sound entries.
structure Applies (lib : Lib) (r : Registry) (done : Registry.Done) (faults : Nat → Fault)
    (plan : List Entry) : Prop where
  sound : ∀ e ∈ plan, e.Sound lib r.schema
  registry : done.registry = { r with store := (applyPlan lib faults r.store plan).store }
  notified : done.notified = (applyPlan lib faults r.store plan).changed.map Entry.id

theorem setValue_cases (fault : Fault) (r : Registry) (ns key : CStr) (v : Value) :
    (r.setValue lib fault ns key v).registry = r ∨
      ∃ plan, Applies lib r (r.setValue lib fault ns key v) (fun _ => fault) plan := by
  rw [Registry.setValue]
  split
  · split
    next => exact .inl rfl
    next nd k hfound =>
      split
      · exact .inl rfl
      · split
        next => exact .inl rfl
        next hvalid =>
          obtain ⟨hnd, hk, _⟩ := mem_of_findKey hfound
          refine .inr ⟨_, ?_, rfl, rfl⟩
          intro e he
          obtain rfl := List.mem_singleton.mp he
          refine ⟨hnd, hk, ?_⟩
          rintro v' ⟨⟩
          exact hvalid
  · exact .inl rfl

theorem resetKey_cases (fault : Fault) (r : Registry) (ns key : CStr) :
    (r.resetKey lib fault ns key).registry = r ∨
      ∃ plan, Applies lib r (r.resetKey lib fault ns key) (fun _ => fault) plan := by
  rw [Registry.resetKey]
  split
  · split
    next => exact .inl rfl
    next nd k hfound =>
      obtain ⟨hnd, hk, _⟩ := mem_of_findKey hfound
      refine .inr ⟨_, ?_, rfl, rfl⟩
      intro e he
      obtain rfl := List.mem_singleton.mp he
      exact ⟨hnd, hk, fun v hv => by cases hv⟩
  · exact .inl rfl

theorem resetNs_cases (faults : Nat → Fault) (r : Registry) (ns : CStr) :
    (r.resetNs lib faults ns).registry = r ∨
      ∃ plan, Applies lib r (r.resetNs lib faults ns) faults plan := by
  rw [Registry.resetNs]
  split
  · split
    next => exact .inl rfl
    next nd hfound =>
      refine .inr ⟨_, ?_, rfl, rfl⟩
      intro e he
      obtain ⟨k, hk, rfl⟩ := List.mem_map.mp he
      exact ⟨(Schema.findNs_eq_some hfound).1, hk, fun v hv => by cases hv⟩
  · exact .inl rfl

theorem sound_of_planned {members : List (CStr × Json)} {opt : Options}
    (h : planDoc lib S opt members = .ok plan) : ∀ e ∈ plan, e.Sound lib S := by
  intro e he
  obtain ⟨hns, hkey⟩ := mem_plan h he
  refine ⟨hns, hkey, ?_⟩
  intro v hv
  have hfind : plan.find? (·.id = (e.ns.name, e.key.name)) = some e :=
    find?_of_mem (plan_nodup h) he
  rw [plan_wanted h hns hkey, Option.map_eq_some_iff] at hfind
  obtain ⟨action, haction, hentry⟩ := hfind
  have hwrite : action = .write v := (congrArg Entry.action hentry).trans hv
  rw [hwrite] at haction
  apply valid_of_wanted
  cases hw : wanted lib members e.ns e.key with
  | keep => rw [hw] at haction; cases haction
  | dflt => rw [hw] at haction; cases haction
  | value w =>
    rw [hw] at haction
    obtain rfl := Action.write.inj (Option.some.inj haction)
    rfl

theorem importDoc_cases (opt : Options) (faults : Nat → Fault) (r : Registry)
    (text : Option (List Char)) : (r.importDoc lib opt faults text).registry = r ∨
      ∃ plan, Applies lib r (r.importDoc lib opt faults text) faults plan := by
  rw [Registry.importDoc]
  split
  · by_cases h : ∃ members, Accepted lib r.schema opt text members
    · obtain ⟨members, haccepted⟩ := h
      obtain ⟨plan, hplan, hout⟩ := @importJson_of_accepted _ _ _ r.store _ _ haccepted
      refine .inr ⟨plan, sound_of_planned hplan, ?_, ?_⟩
      · rw [hout]
        rfl
      · rw [hout]
        rfl
    · rw [not_exists] at h
      obtain ⟨_, hstore, _⟩ := @importJson_of_not_accepted _ _ _ r.store _ faults h
      exact .inl (congrArg (fun st => { r with store := st }) hstore)
  · exact .inl rfl

theorem write_cases (r : Registry) {w : Writing} (hcommit : w.Committed) :
    (r.write lib w).registry = r ∨ ∃ faults plan, (∀ i err, faults i ≠ .uncommitted err) ∧
      Applies lib r (r.write lib w) faults plan := by
  cases w with
  | set fault ns key v =>
    exact (setValue_cases fault r ns key v).imp_right
      fun ⟨plan, h⟩ => ⟨_, plan, fun _ => hcommit, h⟩
  | resetKey fault ns key =>
    exact (resetKey_cases fault r ns key).imp_right
      fun ⟨plan, h⟩ => ⟨_, plan, fun _ => hcommit, h⟩
  | resetNs faults ns =>
    exact (resetNs_cases faults r ns).imp_right fun ⟨plan, h⟩ => ⟨_, plan, hcommit, h⟩
  | importDoc opt faults text =>
    exact (importDoc_cases opt faults r text).imp_right fun ⟨plan, h⟩ => ⟨_, plan, hcommit, h⟩

-- Whatever key reads otherwise after a call is told of.
theorem notified_of_changed (r : Registry) {w : Writing} (hcommit : w.Committed) {id : KeyId}
    (h : (r.write lib w).registry.valueOf lib id ≠ r.valueOf lib id) :
    id ∈ (r.write lib w).notified := by
  rcases write_cases r hcommit with hsame | ⟨faults, plan, hfaults, happlies⟩
  · rw [hsame] at h
    exact absurd rfl h
  · rw [happlies.registry, Registry.valueOf, Registry.valueOf] at h
    rw [happlies.notified]
    cases hfound : r.findKey id.1 id.2 with
    | none =>
      change (r.findKey id.1 id.2).map _ ≠ _ at h
      rw [hfound] at h
      exact absurd rfl h
    | some found =>
      obtain ⟨nd, k⟩ := found
      change (r.findKey id.1 id.2).map _ ≠ _ at h
      rw [hfound] at h
      obtain ⟨hnd, hk, hid⟩ := mem_of_findKey hfound
      have hne : effective lib (applyPlan lib faults r.store plan).store nd k ≠
          effective lib r.store nd k := fun heq => h (congrArg some heq)
      have hmem := changed_applyFrom hfaults happlies.sound hnd hk hne
      rwa [hid] at hmem

end Writes

namespace Tasks

variable {τ σ : Type*} [DecidableEq τ] [DecidableEq σ] {lib : Lib} {s : Tasks τ σ} {cb : σ}

-- A task has still to tell a subscriber of a key.
def Owes (t : Telling σ) (cb : σ) (id : KeyId) : Prop :=
  (∃ cbs, t.now = some (id, cbs) ∧ cb ∈ cbs) ∨ id ∈ t.rest

-- Of each key the subscriber has read what is there, or is still to be told.
structure Current (lib : Lib) (cb : σ) (s : Tasks τ σ) : Prop where
  subscribed : cb ∈ s.subs.reduceOption
  seen : ∀ id, s.seen cb id = s.registry.valueOf lib id ∨ ∃ t, Owes (s.tasks t) cb id

-- A move that keeps the subscriber, and stores nothing whose commit fails.
def Fair (cb : σ) : Move τ σ → Prop
  | .call _ w => w.Committed
  | .unsubscribe other => other ≠ cb
  | _ => True

omit [DecidableEq σ] in
theorem owes_of_ne {t : τ} {tell : Telling σ} {id : KeyId} (h : ∃ t', Owes (s.tasks t') cb id)
    (ht : Owes (s.tasks t) cb id → Owes tell cb id) :
    ∃ t', Owes (Function.update s.tasks t tell t') cb id := by
  obtain ⟨t', howes⟩ := h
  by_cases heq : t' = t
  · subst heq
    refine ⟨t', ?_⟩
    rw [Function.update_self]
    exact ht howes
  · refine ⟨t', ?_⟩
    rw [Function.update_of_ne heq]
    exact howes

theorem Current.call (h : Current lib cb s) (task : τ) {w : Writing} (hcommit : w.Committed) :
    Current lib cb (s.move lib (.call task w)) := by
  rw [move]
  split
  next htask =>
    refine ⟨h.subscribed, ?_⟩
    intro id
    by_cases hsame : (s.registry.write lib w).registry.valueOf lib id = s.registry.valueOf lib id
    · refine (h.seen id).imp (fun hseen => hseen.trans hsame.symm) fun howes => ?_
      refine owes_of_ne howes fun hidle => ?_
      rw [htask] at hidle
      rcases hidle with ⟨_, hnow, _⟩ | hrest
      · cases hnow
      · cases hrest
    · refine .inr ⟨task, .inr ?_⟩
      change id ∈ (Function.update s.tasks task _ task).rest
      rw [Function.update_self]
      exact notified_of_changed s.registry hcommit hsame
  next => exact h

theorem Current.turn (h : Current lib cb s) (task : τ) : Current lib cb (s.turn lib task) := by
  rw [Tasks.turn]
  split
  next id other cbs rest htask =>
    refine ⟨h.subscribed, ?_⟩
    intro id'
    by_cases hread : cb = other ∧ id' = id
    · obtain ⟨rfl, rfl⟩ := hread
      left
      change Function.update s.seen cb _ cb id' = _
      rw [Function.update_self, Function.update_self]
    · have hseen : Function.update s.seen other (Function.update (s.seen other) id
          (s.registry.valueOf lib id)) cb id' = s.seen cb id' := by
        by_cases hcb : cb = other
        · subst hcb
          rw [Function.update_self, Function.update_of_ne fun hid => hread ⟨rfl, hid⟩]
        · rw [Function.update_of_ne hcb]
      refine (h.seen id').imp (fun hold => hseen.trans hold) fun howes => ?_
      refine owes_of_ne howes fun hnow => ?_
      rw [htask] at hnow
      rcases hnow with ⟨_, hnow, hmem⟩ | hrest
      · obtain ⟨rfl, rfl⟩ := Prod.mk.inj (Option.some.inj hnow)
        rcases List.mem_cons.mp hmem with rfl | hmem
        · exact absurd ⟨rfl, rfl⟩ hread
        · exact .inl ⟨cbs, rfl, hmem⟩
      · exact .inr hrest
  next id rest htask =>
    refine ⟨h.subscribed, fun id' => (h.seen id').imp_right fun howes => ?_⟩
    refine owes_of_ne howes fun hnow => ?_
    rw [htask] at hnow
    rcases hnow with ⟨_, hnow, hmem⟩ | hrest
    · obtain ⟨_, rfl⟩ := Prod.mk.inj (Option.some.inj hnow)
      cases hmem
    · exact .inr hrest
  next id rest htask =>
    refine ⟨h.subscribed, fun id' => (h.seen id').imp_right fun howes => ?_⟩
    refine owes_of_ne howes fun hnow => ?_
    rw [htask] at hnow
    rcases hnow with ⟨_, hnow, _⟩ | hrest
    · cases hnow
    · rcases List.mem_cons.mp hrest with rfl | hrest
      · exact .inl ⟨_, rfl, h.subscribed⟩
      · exact .inr hrest
  next => exact h

theorem Current.move (h : Current lib cb s) {m : Move τ σ} (hfair : Fair cb m) :
    Current lib cb (s.move lib m) := by
  cases m with
  | call task w => exact h.call task hfair
  | turn task => exact h.turn task
  | subscribe other =>
    refine ⟨?_, h.seen⟩
    change cb ∈ ((place other s.subs).getD s.subs).reduceOption
    cases hplace : place other s.subs with
    | none => exact h.subscribed
    | some subs => exact (perm_of_place hplace).mem_iff.mpr (List.mem_cons_of_mem _ h.subscribed)
  | unsubscribe other =>
    refine ⟨?_, h.seen⟩
    exact mem_clear (decide_eq_false (Ne.symm hfair)) h.subscribed
  | load other =>
    refine ⟨h.subscribed, ?_⟩
    intro id
    change Function.update s.seen other _ cb id = _ ∨ _
    by_cases hcb : cb = other
    · subst hcb
      rw [Function.update_self]
      exact .inl rfl
    · rw [Function.update_of_ne hcb]
      exact h.seen id

-- Once every call has returned, a subscriber has read what is there.
theorem seen_current (hsub : cb ∈ s.subs.reduceOption) (hload : s.seen cb = s.registry.valueOf lib)
    {moves : List (Move τ σ)} (hfair : ∀ m ∈ moves, Fair cb m)
    (hidle : ∀ t, (run (fun s => s.move lib) s moves).tasks t = .idle) :
    (run (fun s => s.move lib) s moves).seen cb =
      (run (fun s => s.move lib) s moves).registry.valueOf lib := by
  have hstart : Current lib cb s := ⟨hsub, fun id => .inl (congrFun hload id)⟩
  have hlast : Current lib cb (run (fun s => s.move lib) s moves) :=
    run_invariant_of_along (fun _ _ h hf => h.move hf) hstart (along_of_forall hfair)
  funext id
  refine (hlast.seen id).resolve_right ?_
  rintro ⟨t, howes⟩
  rw [hidle t] at howes
  rcases howes with ⟨_, hnow, _⟩ | hrest
  · cases hnow
  · cases hrest

-- One of two tasks sets the unit of a tank while a page listens.
def tankRegistry : Registry :=
  { Registry.start longDefault 0 fun _ => none with inited := true }

def tank : Tasks Bool Unit :=
  ⟨tankRegistry, [some ()], fun _ => .idle, fun _ => tankRegistry.valueOf resetLib⟩

def tankMoves : List (Move Bool Unit) :=
  [.call true (.set .none (lit "f_tank") (lit "unit") (.string (lit "gal"))), .call false
      (.resetKey .none (lit "f_tank") (lit "none")), .turn true, .turn true, .turn true]

theorem tank_seen : (run (fun s => s.move resetLib) tank tankMoves).seen () =
    (run (fun s => s.move resetLib) tank tankMoves).registry.valueOf resetLib :=
  seen_current (by decide) rfl (by simp [tankMoves, Fair, Writing.Committed])
    fun t => by cases t <;> rfl

end Tasks

end Espos.Config
