import Espos.Ble.InitWrites

-- In which order the init writes run, and whose completions move them on.

namespace Espos.Ble

open Espos.Run Espos.Text

-- Each write from `k` on is issued, and ends, before the next.
def turns (k : Nat) : List Cause → List Event
  | [] => []
  | cause :: rest => .issued k :: .ended k cause :: turns (k + 1) rest

theorem turns_append_singleton (k : Nat) (causes : List Cause) (cause : Cause) :
    turns k (causes ++ [cause]) =
      turns k causes ++ [.issued (k + causes.length), .ended (k + causes.length) cause] := by
  induction causes generalizing k with
  | nil => simp [turns]
  | cons first rest ih =>
    simp only [List.cons_append, turns, ih, List.length_cons]
    rw [Nat.add_right_comm, Nat.add_assoc]

namespace Chain

variable {c : Chain}

-- The writes so far in list order, each once and each after the end of the one before;
-- `gatt_connected` once, behind the last.
inductive Shaped (c : Chain) : Prop where
  | before (hstarted : c.started = false) (hlog : c.log = []) (hindex : c.initIndex = 0)
      (hdeadline : c.deadline = 0) : Shaped c
  | waiting (causes : List Cause) (hstarted : c.started = true)
      (hlog : c.log = turns 0 causes ++ [.issued c.initIndex])
      (hindex : causes.length = c.initIndex) (hmore : c.initIndex < c.initWrites.length) : Shaped c
  | done (causes : List Cause) (hstarted : c.started = true)
      (hlog : c.log = turns 0 causes ++ [.gattConnected])
      (hindex : causes.length = c.initIndex) (hall : c.initIndex = c.initWrites.length) : Shaped c

-- A completion that has ended an init write was its own.
structure InOrder (c : Chain) : Prop where
  shaped : Shaped c
  own : ∀ k origin, .ended k (.completed origin) ∈ c.log → origin = .init k

-- Between two writes.
structure Between (c : Chain) (causes : List Cause) : Prop where
  started : c.started = true
  log : c.log = turns 0 causes
  index : causes.length = c.initIndex
  bound : c.initIndex ≤ c.initWrites.length

-- What the log has gained of completions.
def NoCompletion (c c' : Chain) : Prop :=
  ∀ k origin, .ended k (.completed origin) ∈ c'.log → .ended k (.completed origin) ∈ c.log

theorem runFrom_spec {causes : List Cause} (env : Env) (ws : List InitWrite)
    (h : Between c causes) (hws : c.initWrites.drop c.initIndex = ws) :
    Shaped (runFrom env c ws) ∧ NoCompletion c (runFrom env c ws) := by
  induction ws generalizing c causes with
  | nil =>
    have hall : c.initIndex = c.initWrites.length :=
      Nat.le_antisymm h.bound (List.drop_eq_nil_iff.mp hws)
    refine ⟨.done causes h.started ?_ h.index hall, fun k origin hmem => ?_⟩
    · simp [runFrom, record, h.log]
    · simpa [runFrom, record] using hmem
  | cons w ws ih =>
    have hmore : c.initIndex < c.initWrites.length := by
      by_contra hend
      rw [List.drop_eq_nil_iff.mpr (Nat.le_of_not_lt hend)] at hws
      exact absurd hws (by simp)
    have hrest : c.initWrites.drop (c.initIndex + 1) = ws := by
      rw [← List.tail_drop, hws]
      rfl
    -- a write that needs no answer is over at once, and the next one follows
    have hnext : ∀ cause, (∀ origin, cause ≠ .completed origin) →
        Shaped (runFrom env ((c.issue env).advance cause) ws) ∧
          NoCompletion c (runFrom env ((c.issue env).advance cause) ws) := by
      intro cause hcause
      have hbetween : Between ((c.issue env).advance cause) (causes ++ [cause]) := by
        refine ⟨h.started, ?_, by simp [advance, issue, record, h.index], hmore⟩
        rw [turns_append_singleton, h.index]
        simp [advance, issue, record, h.log]
      obtain ⟨hshaped, hnone⟩ := ih hbetween hrest
      refine ⟨hshaped, fun k origin hmem => ?_⟩
      have hold := hnone k origin hmem
      simpa [advance, issue, record, (hcause origin).symm] using hold
    unfold runFrom
    cases gattWrite c.connected c.chars w.charUuid w.mode (env.accepts c.initIndex) with
    | ok =>
      refine ⟨.waiting causes h.started ?_ h.index hmore, fun k origin hmem => ?_⟩
      · simp [issue, record, h.log]
      · simpa [issue, record] using hmem
    | notFinished => exact hnext .sent (by simp)
    | failed => exact hnext .refused (by simp)

theorem runInitWrites_spec {causes : List Cause} (env : Env) (h : Between c causes) :
    Shaped (c.runInitWrites env) ∧ NoCompletion c (c.runInitWrites env) :=
  runFrom_spec env _ h rfl

-- The write awaited is over, and the chain goes on.
theorem advance_spec {causes : List Cause} (env : Env) (cause : Cause)
    (hstarted : c.started = true) (hlog : c.log = turns 0 causes ++ [.issued c.initIndex])
    (hindex : causes.length = c.initIndex) (hmore : c.initIndex < c.initWrites.length) :
    Shaped ((c.advance cause).runInitWrites env) ∧
      NoCompletion (c.advance cause) ((c.advance cause).runInitWrites env) := by
  have hbetween : Between (c.advance cause) (causes ++ [cause]) := by
    refine ⟨hstarted, ?_, by simp [advance, record, hindex], hmore⟩
    rw [turns_append_singleton, hindex]
    simp [advance, record, hlog]
  exact runInitWrites_spec env hbetween

-- `runFrom` keeps what is logged.
theorem mem_log_runFrom (env : Env) (ws : List InitWrite) {e : Event} (h : e ∈ c.log) :
    e ∈ (runFrom env c ws).log := by
  induction ws generalizing c with
  | nil => simp [runFrom, record, h]
  | cons w ws ih =>
    unfold runFrom
    cases gattWrite c.connected c.chars w.charUuid w.mode (env.accepts c.initIndex) with
    | ok => simp [issue, record, h]
    | notFinished => exact ih (by simp [advance, issue, record, h])
    | failed => exact ih (by simp [advance, issue, record, h])

-- A completion that ends the write awaited.
theorem onGattWriteDone_spec (uuid : CStr) (origin : Origin) (env : Env) (h : Shaped c)
    (hstarted : c.started = true) (hends : c.ends uuid = true) :
    Shaped (c.onGattWriteDone uuid origin env) ∧
      (InOrder c → (InOrder (c.onGattWriteDone uuid origin env) ↔ origin = .init c.initIndex)) := by
  have hmore : c.initIndex < c.initWrites.length := by
    by_contra hend
    rw [ends, List.getElem?_eq_none (Nat.le_of_not_lt hend)] at hends
    exact absurd hends (by simp)
  simp only [onGattWriteDone, hends, if_true]
  cases h with
  | before hnot _ _ _ => exact absurd (hnot.symm.trans hstarted) (by simp)
  | done causes _ _ _ hall => omega
  | waiting causes _ hlog hindex _ =>
    obtain ⟨hshaped, hnone⟩ := advance_spec env (.completed origin) hstarted hlog hindex hmore
    refine ⟨hshaped, fun hold => ⟨fun hnew => ?_, fun hown => ⟨hshaped, fun k o hmem => ?_⟩⟩⟩
    · refine hnew.own c.initIndex origin (mem_log_runFrom env _ ?_)
      simp [advance, record]
    · have hmem := hnone k o hmem
      simp only [advance, record, List.mem_append, List.mem_singleton, Event.ended.injEq,
        Cause.completed.injEq] at hmem
      rcases hmem with hmem | ⟨rfl, rfl⟩
      · exact hold.own k o hmem
      · exact hown

-- The stack answers the init write awaited, or a write that `on_gatt_write_done` can tell
-- from it.
def OwnCompletion (c : Chain) : Step → Prop
  | .completed i _ =>
    ∀ w uuid, c.started = true → c.outstanding[i]? = some w → c.reported w = some uuid →
      c.ends uuid = true → w.origin = .init c.initIndex
  | _ => True

theorem Shaped.of_eq {c' : Chain} (h : Shaped c) (hstarted : c'.started = c.started)
    (hlog : c'.log = c.log) (hindex : c'.initIndex = c.initIndex)
    (hdeadline : c'.deadline = c.deadline) (hwrites : c'.initWrites = c.initWrites) :
    Shaped c' := by
  cases h with
  | before hs hl hi hd =>
    exact .before (hstarted.trans hs) (hlog.trans hl) (hindex.trans hi) (hdeadline.trans hd)
  | waiting causes hs hl hi hm =>
    refine .waiting causes (hstarted.trans hs) ?_ (hi.trans hindex.symm) ?_
    · rw [hlog, hindex, hl]
    · rw [hindex, hwrites]
      exact hm
  | done causes hs hl hi ha =>
    refine .done causes (hstarted.trans hs) (hlog.trans hl) (hi.trans hindex.symm) ?_
    rw [hindex, hwrites, ha]

theorem InOrder.of_eq {c' : Chain} (h : InOrder c) (hshaped : Shaped c') (hlog : c'.log = c.log) :
    InOrder c' :=
  ⟨hshaped, hlog ▸ h.own⟩

theorem completed_cases (c : Chain) (i : Nat) (env : Env) :
    (∃ w uuid, c.started = true ∧ c.outstanding[i]? = some w ∧ c.reported w = some uuid ∧
        c.ends uuid = true ∧
        c.completed i env = (c.answered i).onGattWriteDone uuid w.origin env) ∨
      (OwnCompletion c (.completed i env) ∧
        (c.completed i env = c ∨ c.completed i env = c.answered i)) := by
  by_cases hstarted : c.started = true
  · cases hw : c.outstanding[i]? with
    | none =>
      refine .inr ⟨fun w uuid _ hsome => ?_, .inl (by simp only [completed, hstarted, hw])⟩
      simp [hw] at hsome
    | some w =>
      cases hreported : c.reported w with
      | none =>
        refine .inr ⟨fun w' uuid _ hsome hsays => ?_, .inr ?_⟩
        · obtain rfl : w = w' := by simpa [hw] using hsome
          simp [hreported] at hsays
        · simp only [completed, hstarted, hw, hreported]
      | some uuid =>
        have heq : c.completed i env = (c.answered i).onGattWriteDone uuid w.origin env := by
          simp only [completed, hstarted, hw, hreported]
        by_cases hends : c.ends uuid = true
        · exact .inl ⟨w, uuid, hstarted, rfl, hreported, hends, heq⟩
        · refine .inr ⟨fun w' uuid' _ hsome hsays hends' => ?_, .inr ?_⟩
          · obtain rfl : w = w' := by simpa [hw] using hsome
            obtain rfl : uuid = uuid' := by simpa [hreported] using hsays
            exact absurd hends' hends
          · rw [heq, onGattWriteDone]
            exact if_neg hends
  · refine .inr ⟨fun _ _ hyes => absurd hyes hstarted, .inl ?_⟩
    simp only [completed, Bool.not_eq_true] at hstarted ⊢
    simp only [hstarted]

theorem shaped_answered (h : Shaped c) (i : Nat) : Shaped (c.answered i) :=
  h.of_eq rfl rfl rfl rfl rfl

theorem completed_spec (i : Nat) (env : Env) (h : Shaped c) :
    Shaped (c.completed i env) ∧
      (InOrder c → (InOrder (c.completed i env) ↔ OwnCompletion c (.completed i env))) := by
  have herased := shaped_answered h i
  rcases c.completed_cases i env with ⟨w, uuid, hstarted, hw, hreported, hends, heq⟩ | ⟨hown, heq⟩
  · obtain ⟨hshaped, hiff⟩ := onGattWriteDone_spec uuid w.origin env herased hstarted hends
    rw [heq]
    refine ⟨hshaped, fun hold => (hiff (hold.of_eq herased rfl)).trans ⟨fun heq => ?_, fun h => ?_⟩⟩
    · intro w' uuid' _ hw' _ _
      obtain rfl : w = w' := by simpa [hw] using hw'
      exact heq
    · exact h w uuid hstarted hw hreported hends
  · rcases heq with heq | heq
    · rw [heq]
      exact ⟨h, fun hold => iff_of_true hold hown⟩
    · rw [heq]
      exact ⟨herased, fun hold => iff_of_true (hold.of_eq herased rfl) hown⟩

theorem discovered_spec (env : Env) (h : Shaped c) (hstarted : c.started = false) :
    Shaped (c.onGattConnected env) ∧ NoCompletion c (c.onGattConnected env) := by
  cases h with
  | before _ hlog hindex _ =>
    have hbetween : Between { c with started := true } [] :=
      ⟨rfl, hlog, hindex.symm, by rw [hindex]; exact Nat.zero_le _⟩
    exact runInitWrites_spec env hbetween
  | waiting _ hyes _ _ _ => exact absurd (hstarted.symm.trans hyes) (by simp)
  | done _ hyes _ _ _ => exact absurd (hstarted.symm.trans hyes) (by simp)

theorem watchdog_spec (now : Nat) (env : Env) (h : Shaped c) :
    Shaped (c.watchdog now env) ∧ NoCompletion c (c.watchdog now env) := by
  unfold watchdog
  by_cases hdue : c.initIndex < c.initWrites.length ∧ c.deadline ≠ 0 ∧ c.deadline < now
  · rw [if_pos hdue]
    cases h with
    | before _ _ _ hzero => exact absurd hzero hdue.2.1
    | done _ _ _ _ hall => omega
    | waiting causes hstarted hlog hindex hmore =>
      obtain ⟨hshaped, hnone⟩ := advance_spec env .deadline hstarted hlog hindex hmore
      refine ⟨hshaped, fun k origin hmem => ?_⟩
      simpa [advance, record] using hnone k origin hmem
  · rw [if_neg hdue]
    exact ⟨h, fun _ _ hmem => hmem⟩

theorem handleGattWrite_cases (c : Chain) (uuid : CStr) (mode : WriteMode) (accepted : Bool) :
    ∃ outstanding, c.handleGattWrite uuid mode accepted = { c with outstanding } := by
  unfold handleGattWrite
  cases gattWrite c.connected c.chars uuid mode accepted with
  | ok => exact ⟨_, rfl⟩
  | notFinished | failed => exact ⟨c.outstanding, rfl⟩

-- Every step but a completion leaves the completions logged as they are.
theorem step_spec (c : Chain) (e : Step) (h : Shaped c) :
    Shaped (c.step e) ∧ (InOrder c → (InOrder (c.step e) ↔ OwnCompletion c e)) := by
  have hquiet : Shaped (c.step e) ∧ NoCompletion c (c.step e) → OwnCompletion c e →
      Shaped (c.step e) ∧ (InOrder c → (InOrder (c.step e) ↔ OwnCompletion c e)) := by
    rintro ⟨hshaped, hnone⟩ hown
    refine ⟨hshaped, fun hold => iff_of_true ⟨hshaped, fun k origin hmem => ?_⟩ hown⟩
    exact hold.own k origin (hnone k origin hmem)
  cases e with
  | discovered env =>
    refine hquiet ?_ trivial
    by_cases hstarted : c.started = true
    · simp only [step, if_pos hstarted]
      exact ⟨h, fun _ _ hmem => hmem⟩
    · simp only [step, if_neg hstarted]
      exact discovered_spec env h (by simpa using hstarted)
  | completed i env => exact completed_spec i env h
  | serverWrite uuid mode accepted =>
    refine hquiet ?_ trivial
    obtain ⟨outstanding, heq⟩ := c.handleGattWrite_cases uuid mode accepted
    simp only [step, heq]
    exact ⟨h.of_eq rfl rfl rfl rfl rfl, fun _ _ hmem => hmem⟩
  | watchdog now env => exact hquiet (watchdog_spec now env h) trivial
  | lost => exact hquiet ⟨h.of_eq rfl rfl rfl rfl rfl, fun _ _ hmem => hmem⟩ trivial

theorem inOrder_opened (chars : List CharEntry) (initWrites : List InitWrite) :
    InOrder { chars, initWrites } :=
  ⟨.before rfl rfl rfl rfl, nofun⟩

theorem in_order_iff_own_completions (chars : List CharEntry) (initWrites : List InitWrite)
    (es : List Step) :
    Always step InOrder { chars, initWrites } es ↔
      Along step OwnCompletion { chars, initWrites } es :=
  always_iff_along (fun c e h _ => (step_spec c e h).1) (fun c e h hp => (step_spec c e h).2 hp)
    (inOrder_opened chars initWrites).shaped (inOrder_opened chars initWrites) es

-- The server writes the characteristic of the init writes between the two: its completion
-- ends the second one, and `gatt_connected` goes out before that one is answered.
theorem server_completion_ends_init_write :
    let writes : List InitWrite :=
      [⟨lit "ffe1", [1], .withResponse⟩, ⟨lit "ffe1", [2], .withResponse⟩]
    let c := run step { chars := [⟨kBaseUuid, 7⟩, ⟨(uuidParse (lit "ffe1")).getD [], 9⟩],
                        initWrites := writes }
      [.discovered {}, .serverWrite (lit "FFE1") .withResponse true, .completed 0 {},
       .completed 0 {}]
    c.log = [.issued 0, .ended 0 (.completed (.init 0)), .issued 1, .ended 1 (.completed .server),
        .gattConnected] ∧
      c.outstanding = [⟨9, .init 1⟩] ∧ ¬ InOrder c := by
  refine ⟨by decide +kernel, by decide +kernel, fun h => ?_⟩
  have hown := h.own 1 .server (by decide +kernel)
  exact absurd hown (by decide)

end Chain

end Espos.Ble
