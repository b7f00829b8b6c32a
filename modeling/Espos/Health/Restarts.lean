import Mathlib.Data.List.Nodup
import Mathlib.Data.List.Perm.Subperm
import Espos.Health.Policy

-- Which ticks count against the device, told from what was reported last under
-- each key and from when each task was heard last, not from the tables.

namespace Espos.Health

open Espos.Text Espos.Clock Espos.Run Espos.Recent

section Latest

def Report.condition (r : Report) : Option Condition :=
  match checkReport r.key r.state r.message r.flags with
  | .error _ => none
  | .ok (key, shown) => if r.locked then some ⟨key, shown.1, shown.2, r.flags⟩ else none

-- What was reported last under a key.
def latest (rs : List Report) (key : Buf keyMax) : Option Condition :=
  newest (fun c => c.key = key) (rs.filterMap Report.condition)

variable {rs rs' : List Report} {key : Buf keyMax} {keys : List (Buf keyMax)}

theorem latest_append : latest (rs ++ rs') key = (latest rs' key).or (latest rs key) := by
  rw [latest, List.filterMap_append, newest_append]
  rfl

-- It reports under one of `keys`.
def Report.Of (keys : List (Buf keyMax)) (r : Report) : Prop :=
  ∀ c ∈ r.condition, c.key ∈ keys

instance (keys : List (Buf keyMax)) (r : Report) : Decidable (r.Of keys) :=
  inferInstanceAs (Decidable (∀ c ∈ r.condition, c.key ∈ keys))

theorem latest_eq_none (h : ∀ r ∈ rs, r.Of keys) (hkey : key ∉ keys) : latest rs key = none := by
  rw [latest, newest, List.getLast?_eq_none_iff, List.filter_eq_nil_iff]
  intro c hc
  obtain ⟨r, hr, hcond⟩ := List.mem_filterMap.mp hc
  rw [decide_eq_true_eq]
  rintro rfl
  exact hkey (h r hr c hcond)

end Latest

-- The table as a map from keys to conditions.

namespace Table

variable {K : Kconfig} {T : Table K} {key k : Buf keyMax} {shown : Shown} {flags : UInt32}
  {keys : List (Buf keyMax)} {c : Condition}

theorem find_of_mem (h : c ∈ T.conds) : T.find c.key = some c := by
  cases hfind : T.find c.key with
  | none => exact absurd (List.mem_map_of_mem h) (find_eq_none hfind)
  | some d =>
    obtain ⟨hd, hkey⟩ := find_some hfind
    rw [List.inj_on_of_nodup_map T.nodup hd h hkey]

theorem find_change {f : Condition → Condition} (hf : ∀ c, (f c).key = c.key) :
    (T.change f hf).find k = (T.find k).map f := by
  rw [find, change, List.find?_map, find]
  congr 2
  funext c
  simp [hf]

-- A report that finds a slot is what is there under its key afterwards.
theorem find_report (hroom : T.find key ≠ none ∨ T.conds.length < K.healthMaxConditions) :
    ((reportLocked T key shown flags).table T).find k =
      if k = key then some ⟨key, shown.1, shown.2, flags⟩ else T.find k := by
  rw [reportLocked]
  split
  next hfound =>
    have hlt : T.conds.length < K.healthMaxConditions := hroom.resolve_left fun h => h hfound
    rw [dif_pos hlt]
    change (T.conds ++ [_]).find? _ = _
    rw [List.find?_append, List.find?_singleton]
    by_cases hk : k = key
    · subst hk
      rw [if_pos rfl]
      change (T.find k).or _ = _
      rw [hfound]
      simp
    · rw [if_neg hk]
      change (T.find k).or _ = _
      simp [Ne.symm hk]
  next d hfound =>
    obtain ⟨-, hd⟩ := find_some hfound
    split
    next hsame =>
      change (T.change _ (withFlags_key key flags)).find k = _
      rw [find_change]
      by_cases hk : k = key
      · subst hk
        rw [if_pos rfl, hfound, Option.map_some, withFlags, if_pos hd]
        rw [← hsame, ← hd]
        rfl
      · rw [if_neg hk]
        cases hother : T.find k with
        | none => rfl
        | some e =>
          have hne : e.key ≠ key := fun h => hk ((find_some hother).2.symm.trans h)
          rw [Option.map_some, withFlags, if_neg hne]
    next =>
      change (T.change _ (withReport_key key shown flags)).find k = _
      rw [find_change]
      by_cases hk : k = key
      · subst hk
        rw [if_pos rfl, hfound, Option.map_some, withReport, if_pos hd, hd]
      · rw [if_neg hk]
        cases hother : T.find k with
        | none => rfl
        | some e =>
          have hne : e.key ≠ key := fun h => hk ((find_some hother).2.symm.trans h)
          rw [Option.map_some, withReport, if_neg hne]

-- There is a slot for each of `keys`, and no other key has one.
structure Within (T : Table K) (keys : List (Buf keyMax)) : Prop where
  few : keys.length ≤ K.healthMaxConditions
  keys : ∀ c ∈ T.conds, c.key ∈ keys

theorem Within.room (h : T.Within keys) (hkey : key ∈ keys) :
    T.find key ≠ none ∨ T.conds.length < K.healthMaxConditions := by
  by_cases hfound : T.find key = none
  · right
    have hnew := find_eq_none hfound
    have hnodup : (key :: T.conds.map Condition.key).Nodup := List.nodup_cons.mpr ⟨hnew, T.nodup⟩
    have hsub : key :: T.conds.map Condition.key ⊆ keys := by
      intro k hk
      rcases List.mem_cons.mp hk with rfl | hk
      · exact hkey
      · obtain ⟨c, hc, rfl⟩ := List.mem_map.mp hk
        exact h.keys c hc
    have hle := (List.subperm_of_subset hnodup hsub).length_le
    rw [List.length_cons, List.length_map] at hle
    exact Nat.lt_of_lt_of_le hle h.few
  · exact .inl hfound

theorem Within.find_report (h : T.Within keys) (hkey : key ∈ keys) :
    ((reportLocked T key shown flags).table T).find k =
      if k = key then some ⟨key, shown.1, shown.2, flags⟩ else T.find k :=
  Table.find_report (h.room hkey)

theorem Within.told (h : T.Within keys) (hkey : key ∈ keys) (shown : Shown) (flags : UInt32)
    (locked : Bool) : (T.told locked key shown flags).Within keys := by
  cases locked with
  | false => exact h
  | true =>
    refine ⟨h.few, ?_⟩
    intro c hc
    have hfind : T.told true key shown flags = (reportLocked T key shown flags).table T :=
      if_pos rfl
    rw [hfind] at hc
    have hc' := find_of_mem hc
    rw [h.find_report hkey] at hc'
    by_cases hk : c.key = key
    · rw [hk]
      exact hkey
    · rw [if_neg hk] at hc'
      exact h.keys c (find_some hc').1

theorem takes_eq (r : Report) : T.takes r = match r.condition with
    | none => T
    | some c => T.told true c.key c.shown c.flags := by
  unfold takes Report.condition
  cases checkReport r.key r.state r.message r.flags with
  | error err => rfl
  | ok checked =>
    cases hlocked : r.locked with
    | false => simp [Table.told]
    | true => simp [Condition.shown]

theorem Within.takes (h : T.Within keys) {r : Report} (hr : r.Of keys) :
    (T.takes r).Within keys ∧ ∀ k, (T.takes r).find k = (latest [r] k).or (T.find k) := by
  rw [takes_eq]
  unfold latest
  cases hcond : r.condition with
  | none =>
    refine ⟨h, ?_⟩
    intro k
    rw [List.filterMap_cons_none hcond]
    rfl
  | some c =>
    have hkey := hr c hcond
    refine ⟨h.told hkey c.shown c.flags true, ?_⟩
    intro k
    have htold : T.told true c.key c.shown c.flags =
        (reportLocked T c.key c.shown c.flags).table T := if_pos rfl
    rw [List.filterMap_cons_some hcond, List.filterMap_nil]
    change (T.told true c.key c.shown c.flags).find k = _
    rw [htold, h.find_report hkey]
    by_cases hk : k = c.key
    · subst hk
      rw [if_pos rfl]
      simp [newest, Condition.shown]
    · rw [if_neg hk]
      simp [newest, Ne.symm hk]

theorem Within.takesAll (h : T.Within keys) {rs : List Report} (hrs : ∀ r ∈ rs, r.Of keys) :
    (rs.foldl Table.takes T).Within keys ∧
      ∀ k, (rs.foldl Table.takes T).find k = (latest rs k).or (T.find k) := by
  induction rs generalizing T with
  | nil => exact ⟨h, fun _ => rfl⟩
  | cons r rs ih =>
    obtain ⟨hwithin, hfind⟩ := h.takes (hrs r (by simp))
    obtain ⟨hend, hall⟩ := ih hwithin fun r' hr' => hrs r' (by simp [hr'])
    refine ⟨hend, ?_⟩
    intro k
    have hsplit : latest (r :: rs) k = (latest rs k).or (latest [r] k) :=
      @latest_append [r] rs k
    rw [List.foldl_cons, hall k, hfind k, hsplit, Option.or_assoc]

end Table

-- One tick

section Tick

variable {K : Kconfig} {Task : Type} {T : Table K} {keys : List (Buf keyMax)} {p : Policy Task}
  {i : TickIn} {k : Buf keyMax}

-- The keys nobody but the policy reports under.
def own : List (Buf keyMax) :=
  [lowMemory, memoryTrough, taskStalled]

theorem own_distinct :
    lowMemory ≠ memoryTrough ∧ lowMemory ≠ taskStalled ∧ memoryTrough ≠ taskStalled := by
  decide

-- No call of the tick times out, and the others report under their own keys.
structure TickIn.Heard (keys : List (Buf keyMax)) (i : TickIn) : Prop where
  memory : i.memoryLocked = true
  tasks : i.tasksLocked = true
  fatal : i.fatalLocked = true
  others : ∀ r ∈ i.others, r.Of keys

instance (keys : List (Buf keyMax)) (i : TickIn) : Decidable (i.Heard keys) :=
  decidable_of_iff (i.memoryLocked = true ∧ i.tasksLocked = true ∧ i.fatalLocked = true ∧
    ∀ r ∈ i.others, r.Of keys)
    ⟨fun ⟨hm, ht, hf, ho⟩ => ⟨hm, ht, hf, ho⟩, fun ⟨hm, ht, hf, ho⟩ => ⟨hm, ht, hf, ho⟩⟩

-- A call of the policy, and what the others report until its next one.
theorem Table.Within.call (h : T.Within (own ++ keys)) (hkeys : ∀ k ∈ own, k ∉ keys)
    {key : Buf keyMax} (hkey : key ∈ own) (shown : Shown) (flags : UInt32) (locked : Bool)
    {rs : List Report} (hrs : ∀ r ∈ rs, r.Of keys) :
    (rs.foldl Table.takes (T.told locked key shown flags)).Within (own ++ keys) ∧
      ∀ k, (rs.foldl Table.takes (T.told locked key shown flags)).find k =
        if k ∉ own then (latest rs k).or (T.find k)
        else if k = key ∧ locked = true then some ⟨key, shown.1, shown.2, flags⟩
        else T.find k := by
  have hmem : key ∈ own ++ keys := List.mem_append_left _ hkey
  have hall : ∀ r ∈ rs, r.Of (own ++ keys) :=
    fun r hr c hc => List.mem_append_right _ (hrs r hr c hc)
  obtain ⟨hwithin, hfind⟩ := (h.told hmem shown flags locked).takesAll hall
  refine ⟨hwithin, ?_⟩
  intro k
  have htold : (T.told locked key shown flags).find k =
      if k = key ∧ locked = true then some ⟨key, shown.1, shown.2, flags⟩ else T.find k := by
    cases locked with
    | false => simp [Table.told]
    | true =>
      have hstep : T.told true key shown flags = (reportLocked T key shown flags).table T :=
        if_pos rfl
      rw [hstep, h.find_report hmem]
      simp
  rw [hfind k, htold]
  by_cases hk : k ∈ own
  · rw [if_neg (not_not_intro hk), latest_eq_none hrs (hkeys k hk)]
    rfl
  · rw [if_pos hk, if_neg]
    rintro ⟨rfl, -⟩
    exact hk hkey

-- What a tick leaves under each key.
structure Ticked (p : Policy Task) (i : TickIn) (keys : List (Buf keyMax)) (T T' : Table K) :
    Prop where
  within : T'.Within (own ++ keys)
  others : ∀ k ∉ own, T'.find k = (latest i.others k).or (T.find k)
  memory : T'.find lowMemory = some ⟨lowMemory, (policyMemory p.cfg i.heap).1.1,
    (policyMemory p.cfg i.heap).1.2, (policyMemory p.cfg i.heap).2⟩
  trough : ∀ c, T'.find memoryTrough = some c → c.flags = 0 ∨ T.find memoryTrough = some c
  tasks : T'.find taskStalled =
    if p.everWatched then
      some ⟨taskStalled, (checkTasks (UInt32.ofNat i.now) p.watched).1,
        (checkTasks (UInt32.ofNat i.now) p.watched).2, rebootOnAlarm⟩
    else T.find taskStalled

theorem ticked (h : T.Within (own ++ keys)) (hi : i.Heard keys) (hkeys : ∀ k ∈ own, k ∉ keys) :
    Ticked p i keys T (tickReports p i T) := by
  obtain ⟨hmt, hms, hts⟩ := own_distinct
  have hm : lowMemory ∈ own := by simp [own]
  have ht : memoryTrough ∈ own := by simp [own]
  have hs : taskStalled ∈ own := by simp [own]
  have hin1 : ∀ r ∈ i.afterMemory, r.Of keys :=
    fun r hr => hi.others r (by simp [TickIn.others, hr])
  have hin2 : ∀ r ∈ i.afterTrough, r.Of keys :=
    fun r hr => hi.others r (by simp [TickIn.others, hr])
  have hin3 : ∀ r ∈ i.afterTasks, r.Of keys := fun r hr => hi.others r (by simp [TickIn.others, hr])
  have hlast : ∀ T : Table K, (if p.everWatched then T.told i.tasksLocked taskStalled
      (checkTasks (UInt32.ofNat i.now) p.watched) rebootOnAlarm else T) =
      T.told p.everWatched taskStalled (checkTasks (UInt32.ofNat i.now) p.watched)
        rebootOnAlarm := by
    intro T
    rw [hi.tasks]
    cases p.everWatched <;> rfl
  unfold tickReports
  dsimp only
  rw [hlast, hi.memory]
  obtain ⟨h1, find1⟩ := h.call hkeys hm (policyMemory p.cfg i.heap).1
    (policyMemory p.cfg i.heap).2 true hin1
  obtain ⟨h2, find2⟩ := h1.call hkeys ht (policyTrough p.cfg i.heap) 0 i.troughLocked hin2
  obtain ⟨h3, find3⟩ := h2.call hkeys hs (checkTasks (UInt32.ofNat i.now) p.watched) rebootOnAlarm
    p.everWatched hin3
  refine ⟨h3, ?_, ?_, ?_, ?_⟩
  · intro k hk
    rw [find3, find2, find1]
    simp only [hk, not_false_eq_true, if_true]
    rw [TickIn.others, latest_append, latest_append, Option.or_assoc, Option.or_assoc]
  · rw [find3, find2, find1]
    simp [hm, hms, hmt]
  · intro c hc
    rw [find3, find2, find1] at hc
    simp only [ht, not_true_eq_false, if_false, hts, hmt.symm, false_and] at hc
    split at hc
    next =>
      obtain rfl := Option.some.inj hc
      exact .inl rfl
    next => exact .inr hc
  · rw [find3, find2, find1]
    simp [hs, hms.symm, hts.symm]

theorem policyMemory_flags (cfg : PolicyCfg) (h : Heap) :
    (policyMemory cfg h).2 = if (policyMemory cfg h).1.1 = .alarm then rebootOnAlarm else 0 := by
  unfold policyMemory
  split
  · rfl
  · split
    · rfl
    · split
      · rfl
      · split <;> rfl

theorem Table.fatalAlarm_isSome :
    T.fatalAlarm.isSome = true ↔ ∃ k c, T.find k = some c ∧ fatalCondition c = true := by
  rw [Table.fatalAlarm, List.find?_isSome]
  constructor
  · rintro ⟨c, hc, hfatal⟩
    exact ⟨c.key, c, Table.find_of_mem hc, hfatal⟩
  · rintro ⟨k, c, hc, hfatal⟩
    exact ⟨c, (Table.find_some hc).1, hfatal⟩

-- What makes a tick count: the memory, the tasks, or a component.
theorem Ticked.fatalAlarm {T' : Table K} (h : Ticked p i keys T T')
    (htrough : ∀ c, T.find memoryTrough = some c → c.flags = 0)
    (htasks : p.everWatched = false → T.find taskStalled = none) :
    T'.fatalAlarm.isSome = true ↔ (policyMemory p.cfg i.heap).1.1 = .alarm ∨
      (p.everWatched = true ∧ (checkTasks (UInt32.ofNat i.now) p.watched).1 = .alarm) ∨
      ∃ k ∉ own, ∃ c, (latest i.others k).or (T.find k) = some c ∧ fatalCondition c = true := by
  rw [Table.fatalAlarm_isSome]
  constructor
  · rintro ⟨k, c, hc, hfatal⟩
    by_cases hk : k ∈ own
    · have halarm : c.state = .alarm ∧ c.flags &&& rebootOnAlarm ≠ 0 := by
        simpa [fatalCondition] using hfatal
      simp only [own, List.mem_cons, List.not_mem_nil, or_false] at hk
      rcases hk with rfl | rfl | rfl
      · rw [h.memory] at hc
        obtain rfl := Option.some.inj hc
        exact .inl halarm.1
      · have hzero : c.flags = 0 := (h.trough c hc).elim id (htrough c)
        rw [hzero] at halarm
        exact absurd rfl halarm.2
      · rw [h.tasks] at hc
        cases hever : p.everWatched with
        | true =>
          rw [hever, if_pos rfl] at hc
          obtain rfl := Option.some.inj hc
          exact .inr (.inl ⟨rfl, halarm.1⟩)
        | false =>
          rw [hever, if_neg Bool.false_ne_true, htasks hever] at hc
          cases hc
    · rw [h.others k hk] at hc
      exact .inr (.inr ⟨k, hk, c, hc, hfatal⟩)
  · rintro (hmemory | ⟨hever, hstalled⟩ | ⟨k, hk, c, hc, hfatal⟩)
    · refine ⟨_, _, h.memory, ?_⟩
      simp [fatalCondition, policyMemory_flags, hmemory, rebootOnAlarm]
    · refine ⟨taskStalled, ⟨taskStalled, _, _, _⟩, h.tasks.trans (if_pos hever), ?_⟩
      simp [fatalCondition, hstalled, rebootOnAlarm]
    · exact ⟨k, c, (h.others k hk).trans hc, hfatal⟩

end Tick

-- The tasks watched, and when each was heard last.

section Roster

variable {Task : Type}

structure Member (Task : Type) where
  task : Task
  timeoutMs : UInt32
  since : Nat

def Member.overdue (now : Nat) (h : Member Task) : Bool :=
  h.since + h.timeoutMs.toNat < now

-- Within half a turn of the clock.
def Member.Near (now : Nat) (h : Member Task) : Prop :=
  h.since < now + 2 ^ 31 ∧ now < h.since + 2 ^ 31

instance (now : Nat) (h : Member Task) : Decidable (h.Near now) :=
  inferInstanceAs (Decidable (_ ∧ _))

def Member.mark (h : Member Task) : Task × UInt32 × UInt32 :=
  (h.task, h.timeoutMs, UInt32.ofNat h.since)

def Watched.mark (w : Watched Task) : Task × UInt32 × UInt32 :=
  (w.task, w.timeoutMs, w.lastKickMs)

theorem Member.Near.overdue_eq {now : Nat} {h : Member Task} (hnear : h.Near now)
    {w : Watched Task} (hmark : w.mark = h.mark) :
    w.overdue (UInt32.ofNat now) = h.overdue now := by
  obtain ⟨hlow, hhigh⟩ := hnear
  have htimeout : w.timeoutMs = h.timeoutMs := congrArg (fun m => m.2.1) hmark
  have hkick : w.lastKickMs = UInt32.ofNat h.since := congrArg (fun m => m.2.2) hmark
  have hdiff := toNat_sub_ofNat hlow hhigh
  have hahead := ahead_ofNat hlow hhigh
  rw [Watched.overdue, Member.overdue, Watched.age, htimeout, hkick, hahead]
  apply decide_eq_decide.mpr
  by_cases hle : h.since ≤ now
  · rw [if_neg (by omega), UInt32.lt_iff_toNat_lt, hdiff, if_pos hle]
    omega
  · rw [if_pos (by omega), UInt32.lt_iff_toNat_lt, UInt32.toNat_zero]
    omega

-- The loop ends with a task where one is overdue.
theorem foldl_worse_isSome (now : UInt32) (slots : List (Option (Watched Task)))
    (stalled : Option (Watched Task) × UInt32) (hstart : stalled.1 = none → stalled.2 = 0) :
    (slots.foldl (worse now) stalled).1.isSome = true ↔
      stalled.1.isSome = true ∨ ∃ w ∈ slots.reduceOption, w.overdue now = true := by
  induction slots generalizing stalled with
  | nil => simp
  | cons slot slots ih =>
    rw [List.foldl_cons]
    cases slot with
    | none =>
      rw [List.reduceOption_cons_of_none]
      exact ih stalled hstart
    | some w =>
      rw [List.reduceOption_cons_of_some]
      by_cases hworse : (w.overdue now && decide (stalled.2 ≤ w.age now)) = true
      · have hnext : worse now stalled (some w) = (some w, w.age now) := if_pos hworse
        rw [hnext, ih _ (fun h => by cases h)]
        have hover : w.overdue now = true := (Bool.and_eq_true_iff.mp hworse).1
        simp [hover]
      · have hnext : worse now stalled (some w) = stalled := if_neg hworse
        rw [hnext, ih _ hstart]
        -- a task that is passed over is not the first that is overdue
        have hpassed : w.overdue now = true → stalled.1.isSome = true := by
          intro hover
          by_contra hnone
          rw [Option.not_isSome_iff_eq_none] at hnone
          rw [hover, hstart hnone] at hworse
          simp at hworse
        constructor
        · rintro (h | ⟨v, hv, hover⟩)
          · exact .inl h
          · exact .inr ⟨v, by simp [hv], hover⟩
        · rintro (h | ⟨v, hv, hover⟩)
          · exact .inl h
          · rcases List.mem_cons.mp hv with rfl | hv
            · exact .inl (hpassed hover)
            · exact .inr ⟨v, hv, hover⟩

theorem checkTasks_alarm (now : UInt32) (slots : List (Option (Watched Task))) :
    (checkTasks now slots).1 = .alarm ↔ ∃ w ∈ slots.reduceOption, w.overdue now = true := by
  have h := foldl_worse_isSome now slots (none, 0) (fun _ => rfl)
  simp only [Option.isSome_none, Bool.false_eq_true, false_or] at h
  rw [← h, checkTasks]
  rcases slots.foldl (worse now) (none, 0) with ⟨_ | w, age⟩ <;> simp

-- The slots hold the roster.
structure Kept (p : Policy Task) (roster : List (Member Task)) : Prop where
  marks : (p.watched.reduceOption.map Watched.mark).Perm (roster.map Member.mark)
  nodup : (roster.map Member.task).Nodup
  slots : p.watched.length = watchedMax
  ever : p.everWatched = false → roster = []

variable {p : Policy Task} {roster : List (Member Task)}

theorem Kept.tasks (h : Kept p roster) :
    (p.watched.reduceOption.map Watched.task).Perm (roster.map Member.task) := by
  have hfirst := h.marks.map Prod.fst
  simpa [List.map_map, Function.comp_def, Watched.mark, Member.mark] using hfirst

theorem kept_init (cfg : PolicyCfg) : Kept (policyInit cfg : Policy Task) [] := by
  refine ⟨?_, List.nodup_nil, List.length_replicate, fun _ => rfl⟩
  simp [policyInit, List.reduceOption, watchedMax]

-- What is told of the tasks is what the roster says.
theorem Kept.checkTasks (h : Kept p roster) {now : Nat} (hnear : ∀ v ∈ roster, v.Near now) :
    (checkTasks (UInt32.ofNat now) p.watched).1 = .alarm ↔
      roster.any (Member.overdue now) = true := by
  rw [checkTasks_alarm, List.any_eq_true]
  constructor
  · rintro ⟨w, hw, hover⟩
    have hmark := h.marks.mem_iff.mp (List.mem_map_of_mem hw)
    obtain ⟨v, hv, hsame⟩ := List.mem_map.mp hmark
    exact ⟨v, hv, ((hnear v hv).overdue_eq hsame.symm).symm.trans hover⟩
  · rintro ⟨v, hv, hover⟩
    have hmark := h.marks.mem_iff.mpr (List.mem_map_of_mem hv)
    obtain ⟨w, hw, hsame⟩ := List.mem_map.mp hmark
    exact ⟨w, hw, ((hnear v hv).overdue_eq hsame).trans hover⟩

theorem tick_keeps {K : Kconfig} (d : Device K Task) (i : TickIn) :
    (d.tick i).policy.watched = d.policy.watched ∧
      (d.tick i).policy.everWatched = d.policy.everWatched ∧
      (d.tick i).policy.cfg = d.policy.cfg ∧
      (d.tick i).table = if d.policy.restarting then i.others.foldl Table.takes d.table
        else tickReports d.policy i d.table := by
  unfold Device.tick
  cases d.policy.restarting with
  | true => exact ⟨rfl, rfl, rfl, rfl⟩
  | false =>
    rw [if_neg Bool.false_ne_true, if_neg Bool.false_ne_true]
    cases d.verdict i with
    | none => exact ⟨rfl, rfl, rfl, rfl⟩
    | some c =>
      dsimp only
      split <;> exact ⟨rfl, rfl, rfl, rfl⟩

variable [DecidableEq Task] {task : Task} {slots : List (Option (Watched Task))}

theorem holds_iff : holds slots task = true ↔ task ∈ slots.reduceOption.map Watched.task := by
  induction slots with
  | nil => simp [holds]
  | cons slot slots ih =>
    rw [holds] at ih
    cases slot with
    | none =>
      rw [List.reduceOption_cons_of_none, ← ih, holds]
      simp
    | some w =>
      rw [List.reduceOption_cons_of_some, List.map_cons, List.mem_cons, ← ih, holds,
        eq_comm (a := task)]
      simp

theorem reduceOption_inSlot (f : Watched Task → Watched Task)
    (hnodup : (slots.reduceOption.map Watched.task).Nodup) :
    (inSlot task f slots).reduceOption =
      slots.reduceOption.map fun w => if w.task = task then f w else w := by
  induction slots with
  | nil => rfl
  | cons slot slots ih =>
    cases slot with
    | none =>
      rw [inSlot, List.reduceOption_cons_of_none, List.reduceOption_cons_of_none]
      exact ih hnodup
    | some w =>
      rw [List.reduceOption_cons_of_some, List.map_cons, List.nodup_cons] at hnodup
      rw [inSlot, List.reduceOption_cons_of_some, List.map_cons]
      by_cases htask : w.task = task
      · rw [if_pos htask, if_pos htask, List.reduceOption_cons_of_some]
        -- none behind it is of the task
        have hrest : ∀ v ∈ slots.reduceOption, (if v.task = task then f v else v) = v := by
          intro v hv
          refine if_neg fun h => hnodup.1 ?_
          rw [htask, ← h]
          exact List.mem_map_of_mem hv
        rw [List.map_congr_left hrest, List.map_id']
      · rw [if_neg htask, if_neg htask, List.reduceOption_cons_of_some, ih hnodup.2]

theorem reduceOption_clear (hnodup : (slots.reduceOption.map Watched.task).Nodup) :
    (Slots.clear (fun w : Watched Task => w.task = task) slots).reduceOption =
      slots.reduceOption.filter fun w => w.task ≠ task := by
  induction slots with
  | nil => rfl
  | cons slot slots ih =>
    cases slot with
    | none =>
      rw [Slots.clear, List.reduceOption_cons_of_none, List.reduceOption_cons_of_none]
      exact ih hnodup
    | some w =>
      rw [List.reduceOption_cons_of_some, List.map_cons, List.nodup_cons] at hnodup
      rw [Slots.clear, List.reduceOption_cons_of_some]
      by_cases htask : w.task = task
      · have hrest : slots.reduceOption.filter (fun v => decide (v.task ≠ task)) =
            slots.reduceOption := by
          rw [List.filter_eq_self]
          intro v hv
          refine decide_eq_true fun h => hnodup.1 ?_
          rw [htask, ← h]
          exact List.mem_map_of_mem hv
        rw [if_pos (decide_eq_true htask), List.reduceOption_cons_of_none,
          List.filter_cons_of_neg (by simp [htask]), hrest]
      · rw [if_neg (by simp [htask]), List.reduceOption_cons_of_some,
          List.filter_cons_of_pos (by simp [htask]), ih hnodup.2]

theorem length_inSlot (f : Watched Task → Watched Task) :
    (inSlot task f slots).length = slots.length := by
  induction slots with
  | nil => rfl
  | cons slot slots ih =>
    cases slot with
    | none => simp [inSlot, ih]
    | some w =>
      rw [inSlot]
      split
      · rfl
      · simp [ih]

-- The roster after an event. Eight tasks can be watched.
def rosterStep (roster : List (Member Task)) : PolicyEvent Task → List (Member Task)
  | .watch (some task) (some (_ :: _)) timeoutMs now =>
    if task ∈ roster.map Member.task then
      roster.map fun h => if h.task = task then ⟨task, timeoutMs, now⟩ else h
    else if roster.length < watchedMax then ⟨task, timeoutMs, now⟩ :: roster
    else roster
  | .unwatch (some task) => roster.filter fun h => h.task ≠ task
  | .kick task now => roster.map fun h => if h.task = task then { h with since := now } else h
  | _ => roster

theorem Kept.holds_mem (h : Kept p roster) :
    holds p.watched task = true ↔ task ∈ roster.map Member.task := by
  rw [holds_iff, h.tasks.mem_iff]

-- One task is written anew, in its slot and on the roster.
theorem Kept.inSlot (h : Kept p roster) (task : Task) (f : Watched Task → Watched Task)
    (r : Member Task → Member Task) (g : Task × UInt32 × UInt32 → Task × UInt32 × UInt32)
    (hf : ∀ w, w.task = task → (f w).mark = g w.mark)
    (hr : ∀ v, v.task = task → (r v).mark = g v.mark)
    (htask : ∀ v, v.task = task → (r v).task = task) :
    ((inSlot task f p.watched).reduceOption.map Watched.mark).Perm
        ((roster.map fun v => if v.task = task then r v else v).map Member.mark) ∧
      ((roster.map fun v => if v.task = task then r v else v).map Member.task).Nodup := by
  have hmarks := h.marks.map fun m => if m.1 = task then g m else m
  have hslots : ∀ w : Watched Task, (if w.task = task then f w else w).mark =
      if w.mark.1 = task then g w.mark else w.mark := by
    intro w
    change _ = if w.task = task then _ else _
    split
    next hw => exact hf w hw
    next => rfl
  have hroster : ∀ v : Member Task, (if v.task = task then r v else v).mark =
      if v.mark.1 = task then g v.mark else v.mark := by
    intro v
    change _ = if v.task = task then _ else _
    split
    next hv => exact hr v hv
    next => rfl
  have hsame : ∀ v : Member Task, (if v.task = task then r v else v).task = v.task := by
    intro v
    split
    next hv => rw [htask v hv, hv]
    next => rfl
  rw [reduceOption_inSlot f (h.tasks.nodup_iff.mpr h.nodup)]
  simp only [List.map_map, Function.comp_def, hslots, hroster, hsame] at hmarks ⊢
  exact ⟨hmarks, h.nodup⟩

theorem Kept.watch (h : Kept p roster) (c : Char) (name : CStr) (timeoutMs : UInt32) (now : Nat) :
    Kept (policyWatch p (some task) (some (c :: name)) timeoutMs (UInt32.ofNat now)).2
      (rosterStep roster (.watch (some task) (some (c :: name)) timeoutMs now)) := by
  rw [policyWatch, rosterStep]
  by_cases hheld : holds p.watched task = true
  · have hmem := h.holds_mem.mp hheld
    rw [if_pos hheld, if_pos hmem]
    obtain ⟨hmarks, hnodup⟩ := h.inSlot task
      (fun _ => ⟨task, .print (c :: name), timeoutMs, UInt32.ofNat now⟩)
      (fun _ => ⟨task, timeoutMs, now⟩) (fun _ => (task, timeoutMs, UInt32.ofNat now))
      (fun _ _ => rfl) (fun _ _ => rfl) (fun _ _ => rfl)
    exact ⟨hmarks, hnodup, (length_inSlot _).trans h.slots, nofun⟩
  · have hmem : task ∉ roster.map Member.task := fun hmem => hheld (h.holds_mem.mpr hmem)
    have hlen : p.watched.reduceOption.length = roster.length := by
      simpa using h.marks.length_eq
    rw [if_neg hheld, if_neg hmem]
    cases hplace : Slots.place
        (⟨task, .print (c :: name), timeoutMs, UInt32.ofNat now⟩ : Watched Task) p.watched with
    | none =>
      have hfull : ¬ roster.length < watchedMax := by
        rw [← hlen, ← h.slots, ← Slots.place_isSome, hplace]
        exact Bool.false_ne_true
      rw [if_neg hfull]
      exact h
    | some watched =>
      have hroom : roster.length < watchedMax := by
        rw [← hlen, ← h.slots, ← Slots.place_isSome, hplace]
        rfl
      rw [if_pos hroom]
      refine ⟨?_, List.nodup_cons.mpr ⟨hmem, h.nodup⟩,
        (Slots.length_of_place hplace).trans h.slots, nofun⟩
      exact ((Slots.perm_of_place hplace).map Watched.mark).trans (h.marks.cons _)

theorem Kept.unwatch (h : Kept p roster) :
    Kept (policyUnwatch p (some task)).2 (rosterStep roster (.unwatch (some task))) := by
  rw [policyUnwatch, rosterStep]
  by_cases hheld : holds p.watched task = true
  · rw [if_pos hheld]
    refine ⟨?_, h.nodup.sublist (List.filter_sublist.map _), Slots.length_clear.trans h.slots, ?_⟩
    · have hmarks := h.marks.filter fun m => m.1 ≠ task
      rw [List.filter_map, List.filter_map] at hmarks
      rw [reduceOption_clear (h.tasks.nodup_iff.mpr h.nodup)]
      exact hmarks
    · intro hever
      rw [h.ever hever, List.filter_nil]
  · rw [if_neg hheld]
    have hall : roster.filter (fun v => decide (v.task ≠ task)) = roster := by
      rw [List.filter_eq_self]
      intro v hv
      refine decide_eq_true fun heq => hheld (h.holds_mem.mpr ?_)
      rw [← heq]
      exact List.mem_map_of_mem hv
    rw [hall]
    exact h

theorem Kept.kick (h : Kept p roster) (now : Nat) :
    Kept (policyKick p task (UInt32.ofNat now)) (rosterStep roster (.kick task now)) := by
  obtain ⟨hmarks, hnodup⟩ := h.inSlot task (fun w => { w with lastKickMs := UInt32.ofNat now })
    (fun v => { v with since := now }) (fun m => (m.1, m.2.1, UInt32.ofNat now))
    (fun _ _ => rfl) (fun _ _ => rfl) (fun _ hv => hv)
  refine ⟨hmarks, hnodup, (length_inSlot _).trans h.slots, ?_⟩
  intro hever
  rw [rosterStep, h.ever hever, List.map_nil]

theorem policyWatch_ever {name : Option CStr} {task : Option Task} {timeoutMs nowMs : UInt32}
    (h : (policyWatch p task name timeoutMs nowMs).2.everWatched = false) :
    p.everWatched = false := by
  revert h
  unfold policyWatch
  split
  · split
    · simp
    · dsimp only
      split
      · simp
      · exact id
  · exact id

theorem policyUnwatch_ever (task : Option Task) :
    (policyUnwatch p task).2.everWatched = p.everWatched := by
  unfold policyUnwatch
  split
  · split <;> rfl
  · rfl

variable {K : Kconfig} {d : Device K Task}

theorem Kept.step (h : Kept d.policy roster) (e : PolicyEvent Task) :
    Kept (policyStep d e).policy (rosterStep roster e) := by
  cases e with
  | report r => exact h
  | watch task name timeoutMs now =>
    cases task with
    | none => exact h
    | some task =>
      cases name with
      | none => exact h
      | some name =>
        cases name with
        | nil => exact h
        | cons c name => exact h.watch c name timeoutMs now
  | unwatch task =>
    cases task with
    | none => exact h
    | some task => exact h.unwatch
  | kick task now => exact h.kick now
  | tick i =>
    obtain ⟨hwatched, hever, -, -⟩ := tick_keeps d i
    refine ⟨?_, h.nodup, ?_, ?_⟩
    · change ((d.tick i).policy.watched.reduceOption.map _).Perm _
      rw [hwatched]
      exact h.marks
    · exact (congrArg List.length hwatched).trans h.slots
    · intro hno
      exact h.ever (hever.symm.trans hno)

theorem kept_run (h : Kept d.policy roster) (events : List (PolicyEvent Task)) :
    Kept (run policyStep d events).policy (run rosterStep roster events) := by
  induction events generalizing d roster with
  | nil => exact h
  | cons e events ih => exact ih (h.step e)

-- A task is reported exactly where it is watched and has been silent too long,
-- whatever else was watched, released and kicked, and across the wrap of the
-- clock.
theorem stalled_iff_silent (K : Kconfig) (cfg : PolicyCfg) (events : List (PolicyEvent Task))
    (now : Nat) (hnear : ∀ h ∈ run rosterStep [] events, h.Near now) :
    (checkTasks (UInt32.ofNat now)
      (run policyStep (Device.boot cfg : Device K Task) events).policy.watched).1 = .alarm ↔
      ∃ h ∈ run rosterStep [] events, h.since + h.timeoutMs.toNat < now := by
  have hkept : Kept (run policyStep (Device.boot cfg : Device K Task) events).policy
      (run rosterStep [] events) := kept_run (kept_init cfg) events
  rw [hkept.checkTasks hnear, List.any_eq_true]
  simp only [Member.overdue, decide_eq_true_eq]

-- Two tasks; the one that was kicked half a second late is told from the one
-- that was not, around the wrap.
theorem stalled_across_wrap :
    (checkTasks (UInt32.ofNat 4294967796) (run policyStep
      (Device.boot ⟨3, 0, 0, 0, 0, 0⟩ : Device .default Bool)
      [.watch (some true) (some (lit "ui")) 1000 4294966000,
        .watch (some false) (some (lit "n2k")) 1000 4294966000,
        .kick false 4294967000]).policy.watched).1 = .alarm :=
  (stalled_iff_silent .default _ _ 4294967796 (by decide)).mpr (by decide)

end Roster

-- What the ticks are to be judged by.

section Ground

variable {Task : Type} {keys : List (Buf keyMax)}

structure Ground (Task : Type) where
  roster : List (Member Task)
  reports : List Report

def reportsOf : PolicyEvent Task → List Report
  | .report r => [r]
  | .tick i => i.others
  | _ => []

-- What was reported last under some key is a fatal alarm.
def fatalNow (rs : List Report) : Bool :=
  (rs.filterMap Report.condition).any fun c => fatalCondition c && latest rs c.key = some c

def cause (cfg : PolicyCfg) (g : Ground Task) (i : TickIn) : Bool :=
  (policyMemory cfg i.heap).1.1 = .alarm || g.roster.any (Member.overdue i.now) ||
    fatalNow (g.reports ++ i.others)

-- The other components keep to `keys`, no call of a tick times out, and every
-- watched task was heard within half a turn of the clock.
def Ground.Allows (keys : List (Buf keyMax)) (g : Ground Task) : PolicyEvent Task → Prop
  | .report r => r.Of keys
  | .tick i => i.Heard keys ∧ ∀ h ∈ g.roster, h.Near i.now
  | _ => True

instance (keys : List (Buf keyMax)) (g : Ground Task) :
    (e : PolicyEvent Task) → Decidable (g.Allows keys e)
  | .report r => inferInstanceAs (Decidable (r.Of keys))
  | .tick i => inferInstanceAs (Decidable (i.Heard keys ∧ ∀ h ∈ g.roster, h.Near i.now))
  | .watch .. | .unwatch _ | .kick .. => .isTrue trivial

theorem latest_some {rs : List Report} {key : Buf keyMax} {c : Condition}
    (h : latest rs key = some c) : c ∈ rs.filterMap Report.condition ∧ c.key = key := by
  have hmem := List.mem_of_getLast? h
  simpa using List.mem_filter.mp hmem

theorem fatalNow_iff {rs : List Report} :
    fatalNow rs = true ↔ ∃ k c, latest rs k = some c ∧ fatalCondition c = true := by
  rw [fatalNow, List.any_eq_true]
  constructor
  · rintro ⟨c, -, hc⟩
    obtain ⟨hfatal, hlatest⟩ := Bool.and_eq_true_iff.mp hc
    exact ⟨c.key, c, of_decide_eq_true hlatest, hfatal⟩
  · rintro ⟨k, c, hlatest, hfatal⟩
    obtain ⟨hmem, rfl⟩ := latest_some hlatest
    exact ⟨c, hmem, by simp [hfatal, hlatest]⟩

variable {K : Kconfig} {cfg : PolicyCfg} {d : Device K Task} {g : Ground Task}

-- The device is where the history has led it.
structure Agrees (cfg : PolicyCfg) (keys : List (Buf keyMax)) (d : Device K Task)
    (g : Ground Task) : Prop where
  cfg : d.policy.cfg = (policyInit cfg : Policy Task).cfg
  kept : Kept d.policy g.roster
  reports : ∀ r ∈ g.reports, r.Of keys
  within : d.table.Within (own ++ keys)
  others : ∀ k ∉ own, d.table.find k = latest g.reports k
  trough : ∀ c, d.table.find memoryTrough = some c → c.flags = 0
  tasks : d.policy.everWatched = false → d.table.find taskStalled = none

theorem agrees_boot (hroom : (own ++ keys).length ≤ K.healthMaxConditions) :
    Agrees cfg keys (Device.boot cfg : Device K Task) ⟨[], []⟩ := by
  refine ⟨rfl, kept_init cfg, nofun, ⟨hroom, nofun⟩, fun _ _ => rfl, nofun, fun _ => rfl⟩

theorem policyMemory_init (cfg : PolicyCfg) (h : Heap) :
    policyMemory (policyInit cfg : Policy Task).cfg h = policyMemory cfg h := by
  unfold policyInit
  dsimp only
  split <;> rfl

theorem Agrees.verdict (h : Agrees cfg keys d g) (hkeys : ∀ k ∈ own, k ∉ keys) {i : TickIn}
    (hi : i.Heard keys) (hnear : ∀ v ∈ g.roster, v.Near i.now) :
    (d.verdict i).isSome = cause cfg g i := by
  have hticked := ticked (p := d.policy) h.within hi hkeys
  rw [Device.verdict, hi.fatal, if_pos rfl, Bool.eq_iff_iff,
    hticked.fatalAlarm h.trough h.tasks, cause, h.cfg, policyMemory_init, h.kept.checkTasks hnear,
    Bool.or_eq_true, Bool.or_eq_true, decide_eq_true_eq, fatalNow_iff, or_assoc]
  apply or_congr_right
  have hever : (d.policy.everWatched = true ∧ g.roster.any (Member.overdue i.now) = true) ↔
      g.roster.any (Member.overdue i.now) = true := by
    refine and_iff_right_of_imp fun hany => ?_
    by_contra hno
    rw [h.kept.ever (Bool.eq_false_iff.mpr hno)] at hany
    cases hany
  rw [hever]
  apply or_congr_right
  constructor
  · rintro ⟨k, hk, c, hc, hfatal⟩
    rw [h.others k hk, ← latest_append] at hc
    exact ⟨k, c, hc, hfatal⟩
  · rintro ⟨k, c, hc, hfatal⟩
    have hk : k ∉ own := by
      intro hk
      have hnone : latest (g.reports ++ i.others) k = none := by
        refine latest_eq_none (fun r hr => ?_) (hkeys k hk)
        exact (List.mem_append.mp hr).elim (h.reports r) (hi.others r)
      cases hnone.symm.trans hc
    refine ⟨k, hk, c, ?_, hfatal⟩
    rw [h.others k hk, ← latest_append]
    exact hc

-- What the others report changes none of the policy's own conditions.
theorem Agrees.takes (h : Agrees cfg keys d g) (hkeys : ∀ k ∈ own, k ∉ keys) (rs : List Report)
    (hrs : ∀ r ∈ rs, r.Of keys) {d' : Device K Task} {roster : List (Member Task)}
    (hcfg : d'.policy.cfg = d.policy.cfg)
    (hever : d'.policy.everWatched = false → d.policy.everWatched = false)
    (hkept : Kept d'.policy roster) (htable : d'.table = rs.foldl Table.takes d.table) :
    Agrees cfg keys d' ⟨roster, g.reports ++ rs⟩ := by
  have hall : ∀ r ∈ rs, r.Of (own ++ keys) :=
    fun r hr c hc => List.mem_append_right _ (hrs r hr c hc)
  have hnone : ∀ k ∈ own, latest rs k = none := fun k hk => latest_eq_none hrs (hkeys k hk)
  obtain ⟨hwithin, hfind⟩ := h.within.takesAll hall
  refine ⟨hcfg.trans h.cfg, hkept, ?_, ?_, ?_, ?_, ?_⟩
  · intro r hr
    exact (List.mem_append.mp hr).elim (h.reports r) (hrs r)
  · rw [htable]
    exact hwithin
  · intro k hk
    rw [htable, hfind, h.others k hk, latest_append]
  · intro c hc
    rw [htable, hfind, hnone _ (by simp [own]), Option.none_or] at hc
    exact h.trough c hc
  · intro hno
    rw [htable, hfind, hnone _ (by simp [own]), Option.none_or]
    exact h.tasks (hever hno)

variable [DecidableEq Task]

def groundStep (g : Ground Task) (e : PolicyEvent Task) : Ground Task :=
  ⟨rosterStep g.roster e, g.reports ++ reportsOf e⟩

-- Which ticks of a run have a cause to count.
def causes (cfg : PolicyCfg) (g : Ground Task) : List (PolicyEvent Task) → List Bool
  | [] => []
  | .tick i :: es => cause cfg g i :: causes cfg (groundStep g (.tick i)) es
  | e :: es => causes cfg (groundStep g e) es

theorem Agrees.tick (h : Agrees cfg keys d g) (hkeys : ∀ k ∈ own, k ∉ keys) {i : TickIn}
    (hi : i.Heard keys) : Agrees cfg keys (d.tick i) (groundStep g (.tick i)) := by
  have hkept := h.kept.step (.tick i)
  obtain ⟨-, hever, hcfg, htable⟩ := tick_keeps d i
  cases hrestarting : d.policy.restarting with
  | true =>
    rw [hrestarting, if_pos rfl] at htable
    exact h.takes hkeys _ hi.others hcfg (fun hno => hever.symm.trans hno) hkept htable
  | false =>
    rw [hrestarting, if_neg Bool.false_ne_true] at htable
    have hticked := ticked (p := d.policy) h.within hi hkeys
    refine ⟨hcfg.trans h.cfg, hkept, ?_, ?_, ?_, ?_, ?_⟩
    · intro r hr
      exact (List.mem_append.mp hr).elim (h.reports r) (hi.others r)
    · rw [htable]
      exact hticked.within
    · intro k hk
      rw [htable, hticked.others k hk, h.others k hk]
      exact latest_append.symm
    · intro c hc
      rw [htable] at hc
      exact (hticked.trough c hc).elim id (h.trough c)
    · intro hno
      rw [htable, hticked.tasks, hever.symm.trans hno, if_neg Bool.false_ne_true]
      exact h.tasks (hever.symm.trans hno)

theorem Agrees.step (h : Agrees cfg keys d g) (hkeys : ∀ k ∈ own, k ∉ keys) {e : PolicyEvent Task}
    (he : g.Allows keys e) : Agrees cfg keys (policyStep d e) (groundStep g e) := by
  have hkept := h.kept.step e
  cases e with
  | report r =>
    refine h.takes hkeys [r] ?_ rfl id hkept rfl
    intro r' hr
    obtain rfl := List.mem_singleton.mp hr
    exact he
  | watch task name timeoutMs now =>
    exact h.takes hkeys [] nofun (policyWatch_keeps ..).1 policyWatch_ever hkept rfl
  | unwatch task =>
    exact h.takes hkeys [] nofun (policyUnwatch_keeps ..).1
      (fun hno => (policyUnwatch_ever task).symm.trans hno) hkept rfl
  | kick task now => exact h.takes hkeys [] nofun rfl id hkept rfl
  | tick i => exact h.tick hkeys he.1

-- There is nothing to be found any more.
theorem verdicts_restarting (h : d.policy.restarting = true) (events : List (PolicyEvent Task)) :
    verdicts d events = [] ∧ (run policyStep d events).policy.restarting = true := by
  induction events generalizing d with
  | nil => exact ⟨rfl, h⟩
  | cons e events ih =>
    have hnext : (policyStep d e).policy.restarting = true ∧ verdictOf d e = none := by
      cases e with
      | report r => exact ⟨h, rfl⟩
      | watch task name timeoutMs now => exact ⟨(policyWatch_keeps ..).2.2.trans h, rfl⟩
      | unwatch task => exact ⟨(policyUnwatch_keeps ..).2.2.trans h, rfl⟩
      | kick task now => exact ⟨h, rfl⟩
      | tick i =>
        refine ⟨?_, if_pos h⟩
        rw [policyStep, Device.tick, if_pos h]
        exact h
    rw [verdicts, hnext.2]
    exact ih hnext.1

-- Up to the restart the ticks find what there is a cause for.
theorem Agrees.found (h : Agrees cfg keys d g) (hkeys : ∀ k ∈ own, k ∉ keys)
    {events : List (PolicyEvent Task)} (hall : Along groundStep (Ground.Allows keys) g events) :
    (verdicts d events).map found <+: causes cfg g events ∧
      ((run policyStep d events).policy.restarting = false →
        (verdicts d events).map found = causes cfg g events) := by
  induction events generalizing d g with
  | nil => exact ⟨List.prefix_refl _, fun _ => rfl⟩
  | cons e events ih =>
    obtain ⟨hfront, hwhole⟩ := ih (h.step hkeys hall.1) hall.2
    rw [verdicts, run_cons]
    cases e with
    | tick i =>
      cases hrestarting : d.policy.restarting with
      | false =>
        have hv : verdictOf d (.tick i) = some (i, d.verdict i) :=
          if_neg (by simp [hrestarting])
        have hcause : Health.found (i, d.verdict i) = cause cfg g i :=
          h.verdict hkeys hall.1.1 hall.1.2
        rw [hv, causes, Option.toList_some, List.singleton_append, List.map_cons, hcause]
        refine ⟨List.cons_prefix_cons.mpr ⟨rfl, hfront⟩, ?_⟩
        intro hend
        rw [hwhole hend]
      | true =>
        obtain ⟨hnone, hrun⟩ := verdicts_restarting hrestarting (.tick i :: events)
        rw [verdicts] at hnone
        rw [hnone]
        refine ⟨List.nil_prefix, ?_⟩
        intro hend
        cases hend.symm.trans hrun
    | report r => exact ⟨hfront, hwhole⟩
    | watch task name timeoutMs now => exact ⟨hfront, hwhole⟩
    | unwatch task => exact ⟨hfront, hwhole⟩
    | kick task now => exact ⟨hfront, hwhole⟩

theorem streak_map (vs : List (TickIn × Option Condition)) :
    streak id (vs.map found) = streak found vs := by
  rw [streak, ← List.map_reverse, List.takeWhile_map, List.length_map]
  rfl

-- The watchdog restarts the device, and once at most, exactly when as many ticks
-- in a row as it is set to have each found the memory exhausted, a watched task
-- silent for too long, or a fatal alarm of another component.
theorem restarts_iff (cfg : PolicyCfg) (keys : List (Buf keyMax))
    (hroom : (own ++ keys).length ≤ K.healthMaxConditions) (hkeys : ∀ k ∈ own, k ∉ keys)
    (events : List (PolicyEvent Task))
    (hall : Along groundStep (Ground.Allows keys) ⟨[], []⟩ events) :
    (run policyStep (Device.boot cfg : Device K Task) events).restarts ≤ 1 ∧
      ((run policyStep (Device.boot cfg : Device K Task) events).restarts = 1 ↔
        ∃ k, needed cfg ≤ streak id ((causes cfg ⟨[], []⟩ events).take k)) := by
  have hcounted : Counted (needed cfg) (run policyStep (Device.boot cfg : Device K Task) events)
      (verdicts (Device.boot cfg : Device K Task) events) := counted_run (counted_boot cfg) events
  have hboot : Agrees cfg keys (Device.boot cfg : Device K Task) ⟨[], []⟩ := agrees_boot hroom
  obtain ⟨hfront, hwhole⟩ := hboot.found hkeys hall
  cases hend : (run policyStep (Device.boot cfg : Device K Task) events).policy.restarting with
  | true =>
    obtain ⟨hmany, hone, -⟩ := hcounted.restarting hend
    refine ⟨hone.le, fun _ => ?_, fun _ => hone⟩
    refine ⟨((verdicts (Device.boot cfg : Device K Task) events).map found).length, ?_⟩
    rw [← List.prefix_iff_eq_take.mp hfront, streak_map]
    exact hmany
  | false =>
    obtain ⟨hfew, hzero, -⟩ := hcounted.running hend
    have hcauses := hwhole hend
    refine ⟨by omega, fun hone => by omega, ?_⟩
    rintro ⟨k, hk⟩
    rw [← hcauses, ← List.map_take, streak_map] at hk
    by_cases hlt : k < (verdicts (Device.boot cfg : Device K Task) events).length
    · exact absurd (hcounted.before k hlt) (Nat.not_lt_of_le hk)
    · rw [List.take_of_length_le (Nat.le_of_not_lt hlt)] at hk
      exact absurd hfew (Nat.not_lt_of_le hk)

def starved : TickIn where
  now := 10000
  heap := ⟨900000, 4000, 5000, 4000, 4000⟩
  uptimeS := 10
  unixMs := 0
  memoryLocked := true
  afterMemory := [⟨true, some (lit "n2kSilent"), 1, some (lit "no frames"), 0⟩]
  troughLocked := true
  afterTrough := []
  tasksLocked := true
  afterTasks := []
  fatalLocked := true

-- Two ticks in a row, a component's warning between them.
theorem starved_restarts :
    (run policyStep (Device.boot ⟨2, 0, 16, 8, 6, 0⟩ : Device .default Bool)
      [.tick starved, .report ⟨true, some (lit "n2kSilent"), 1, some (lit "late"), 0⟩,
        .tick starved]).restarts = 1 := by
  exact (restarts_iff _ [.print (lit "n2kSilent")] (by decide) (by decide) _ (by decide)).2.mpr
    ⟨2, by decide⟩

end Ground

end Espos.Health
