import Espos.Sk.Delta.Handing

-- What a message says each time it is taken.

namespace Espos.Sk.Delta

open Espos.Text
open Espos.Run
open Engine (Grows Handed)

-- The date stands in the update that had none, and nowhere else.
theorem Undated.render {msg : Msg} {stampAt : Nat} (h : Undated msg stampAt) :
    ∃ before u after, msg.doc.updates = before ++ u :: after ∧ u.date = none ∧
      (∀ v ∈ before ++ after, v.date.isSome) ∧ msg.text = msg.doc.render ∧
      ∀ iso, datedText msg.text stampAt iso = Doc.render
        { msg.doc with updates := before ++ { u with date := some iso } :: after } := by
  obtain ⟨htext, before, u, after, hsplit, hu, hdated, hoffset⟩ := h
  refine ⟨before, u, after, hsplit, hu, hdated, htext, fun iso => ?_⟩
  have hrender := render_split msg.doc hsplit
  rw [hu, dateText, Option.elim_none, List.nil_append, ← htext] at hrender
  rw [datedText, hoffset, hrender, List.take_left, List.drop_left, render_split _ rfl,
    List.append_assoc]
  rfl

namespace Sender

variable {maxMsgs : Nat}

-- The message at `a` has this text and is still to be dated.
structure Waiting (s : Sender maxMsgs) (a : Nat) (text : CStr) (batchMs : UInt32)
    (stampAt : Nat) : Prop where
  old : a < s.eng.nextAddr
  ring : ∀ q ∈ s.eng.ring.toList, q.msg.addr = a →
    q.msg.text = text ∧ q.batchMs = batchMs ∧ q.stampAt = stampAt
  out : ∀ m ∈ s.out, m.addr = a → m.text = text
  mark : s.last = some a → s.eng.unstamped = some a ∧ s.eng.unstampedAt = stampAt ∧
    s.eng.unstampedBatchMs = batchMs

-- The message at `a` has this text for good.
structure Settled (s : Sender maxMsgs) (a : Nat) (text : CStr) : Prop where
  old : a < s.eng.nextAddr
  ring : ∀ q ∈ s.eng.ring.toList, q.msg.addr = a → q.msg.text = text ∧ q.stampAt = 0
  out : ∀ m ∈ s.out, m.addr = a → m.text = text
  unmarked : s.eng.unstamped ≠ some a

end Sender

namespace Engine

variable {maxMsgs : Nat} {d d' : Engine maxMsgs} {env : Env} {q : Queued} {m : Msg} {a : Nat}

-- No message that comes in takes the address of an older one.
theorem Grows.forall_at {P : Queued → Prop} (h : Grows d d') (hold : a < d.nextAddr)
    (hring : ∀ q ∈ d.ring.toList, q.msg.addr = a → P q) :
    ∀ q ∈ d'.ring.toList, q.msg.addr = a → P q := by
  obtain ⟨new, hsub, _, hnew⟩ := h.ring
  intro q hq haddr
  rcases List.mem_append.mp (hsub.subset hq) with hmem | hmem
  · exact hring q hmem haddr
  · have hge := (hnew q hmem).1
    omega

theorem Handed.next (h : Handed env q d d' m) : d.nextAddr ≤ d'.nextAddr := by
  cases h with
  | dated _ _ hnext => exact Nat.le_of_eq hnext.symm
  | undated _ _ _ _ _ hnext => exact Nat.le_of_eq hnext.symm
  | stamped iso _ _ _ hnext =>
    rw [hnext]
    exact Nat.le_succ _

theorem Handed.addr_ne (h : Handed env q d d' m) (hq : q.msg.addr ≠ a) (hold : a < d.nextAddr) :
    m.addr ≠ a ∧ d'.unstamped ≠ some a := by
  cases h with
  | dated _ hunstamped =>
    rw [hunstamped]
    exact ⟨hq, nofun⟩
  | undated _ _ hunstamped =>
    rw [hunstamped]
    exact ⟨hq, fun heq => hq (Option.some.inj heq)⟩
  | stamped iso _ _ hunstamped =>
    rw [hunstamped]
    exact ⟨Nat.ne_of_gt hold, nofun⟩

end Engine

namespace Sender

variable {maxMsgs : Nat} {s s' : Sender maxMsgs} {call : Env × Op} {hand : Option (Nat × Msg)}
  {a : Nat} {text : CStr} {batchMs : UInt32} {stampAt : Nat} {m : Msg}

theorem Settled.moved (h : s.Settled a text) (hmoved : Moved call s s' hand)
    (hother : ∀ m, hand ≠ some (a, m)) : s'.Settled a text := by
  cases hmoved with
  | grown hgrows hout =>
    refine ⟨Nat.lt_of_lt_of_le h.old hgrows.next, hgrows.forall_at h.old h.ring, ?_, ?_⟩
    · rw [hout]
      exact h.out
    · rw [hgrows.unstamped]
      exact h.unmarked
  | @taken e q m rest hgrows hring hrest hhanded hout =>
    have hold : a < e.nextAddr := Nat.lt_of_lt_of_le h.old hgrows.next
    have hlater := hgrows.forall_at h.old h.ring
    rw [hring] at hlater
    have hq : q.msg.addr ≠ a := fun heq => hother m (by rw [heq])
    obtain ⟨hm, hunmarked⟩ := hhanded.addr_ne hq hold
    refine ⟨Nat.lt_of_lt_of_le hold hhanded.next, ?_, ?_, hunmarked⟩
    · rw [hrest]
      exact (List.forall_mem_cons.mp hlater).2
    · rw [hout]
      exact List.forall_mem_cons.mpr ⟨fun heq => absurd heq hm, h.out⟩
  | dropped hmem hdesk hout =>
    obtain ⟨hring, hunstamped, _, _, hnext⟩ := Engine.desk_eq_iff.mp hdesk
    refine ⟨?_, ?_, ?_, ?_⟩
    · rw [hnext]
      exact h.old
    · rw [hring]
      exact h.ring
    · rw [hout]
      exact fun m hm => h.out m (List.mem_of_mem_erase hm)
    · rw [hunstamped]
      exact h.unmarked
  | @putBack q _ hmem hring _ hplain hunstamped hnext hout =>
    refine ⟨?_, ?_, ?_, ?_⟩
    · rw [hnext]
      exact h.old
    · rw [hring]
      refine List.forall_mem_cons.mpr ⟨fun haddr => ?_, h.ring⟩
      refine ⟨h.out q.msg hmem haddr, hplain ?_⟩
      rw [haddr]
      exact h.unmarked
    · rw [hout]
      exact fun m hm => h.out m (List.mem_of_mem_erase hm)
    · rw [hunstamped]
      nofun

-- A message that was dated leaves the ring as it is.
theorem Settled.handed (h : s.Settled a text) (hmoved : Moved call s s' (some (a, m))) :
    m.text = text ∧ m.addr = a ∧ s'.Settled a text := by
  cases hmoved with
  | @taken e q m rest hgrows hring hrest hhanded hout =>
    have hold : q.msg.addr < e.nextAddr := Nat.lt_of_lt_of_le h.old hgrows.next
    have hlater := hgrows.forall_at h.old h.ring
    rw [hring] at hlater
    obtain ⟨hhead, htail⟩ := List.forall_mem_cons.mp hlater
    obtain ⟨htext, hat⟩ := hhead rfl
    have hnext := hhanded.next
    cases hhanded with
    | dated _ hunstamped =>
      refine ⟨htext, rfl, Nat.lt_of_lt_of_le hold hnext, ?_, ?_, ?_⟩
      · rw [hrest]
        exact htail
      · rw [hout]
        exact List.forall_mem_cons.mpr ⟨fun _ => htext, h.out⟩
      · rw [hunstamped]
        nofun
    | undated hne => exact absurd hat hne
    | stamped iso hne => exact absurd hat hne

theorem Waiting.moved (h : s.Waiting a text batchMs stampAt) (hmoved : Moved call s s' hand)
    (hturn : s.InTurn a call) (hother : ∀ m, hand ≠ some (a, m)) :
    s'.Waiting a text batchMs stampAt := by
  cases hmoved with
  | grown hgrows hout hlast =>
    refine ⟨Nat.lt_of_lt_of_le h.old hgrows.next, hgrows.forall_at h.old h.ring, ?_, ?_⟩
    · rw [hout]
      exact h.out
    · rw [hlast, hgrows.unstamped, hgrows.unstampedAt, hgrows.unstampedBatchMs]
      exact h.mark
  | @taken e q m rest hgrows hring hrest hhanded hout hlast =>
    have hold : a < e.nextAddr := Nat.lt_of_lt_of_le h.old hgrows.next
    have hlater := hgrows.forall_at h.old h.ring
    rw [hring] at hlater
    have hq : q.msg.addr ≠ a := fun heq => hother m (by rw [heq])
    obtain ⟨hm, _⟩ := hhanded.addr_ne hq hold
    refine ⟨Nat.lt_of_lt_of_le hold hhanded.next, ?_, ?_, ?_⟩
    · rw [hrest]
      exact (List.forall_mem_cons.mp hlater).2
    · rw [hout]
      exact List.forall_mem_cons.mpr ⟨fun heq => absurd heq hm, h.out⟩
    · rw [hlast]
      exact fun heq => absurd (Option.some.inj heq) hm
  | dropped hmem hdesk hout hlast =>
    obtain ⟨hring, _, _, _, hnext⟩ := Engine.desk_eq_iff.mp hdesk
    refine ⟨?_, ?_, ?_, ?_⟩
    · rw [hnext]
      exact h.old
    · rw [hring]
      exact h.ring
    · rw [hout]
      exact fun m hm => h.out m (List.mem_of_mem_erase hm)
    · rw [hlast]
      nofun
  | @putBack q hcall hmem hring hmark _ _ hnext hout hlast =>
    refine ⟨?_, ?_, ?_, ?_⟩
    · rw [hnext]
      exact h.old
    · rw [hring]
      refine List.forall_mem_cons.mpr ⟨fun haddr => ?_, h.ring⟩
      -- it is the one handed out last, and the engine still has its date
      have hlast' : s.last = some a := by
        unfold InTurn at hturn
        rw [hcall] at hturn
        exact hturn haddr
      obtain ⟨hunstamped, hat, hbatch⟩ := h.mark hlast'
      obtain ⟨hat', hbatch'⟩ := hmark (haddr.symm ▸ hunstamped)
      exact ⟨h.out q.msg hmem haddr, hbatch'.trans hbatch, hat'.trans hat⟩
    · rw [hout]
      exact fun m hm => h.out m (List.mem_of_mem_erase hm)
    · rw [hlast]
      nofun

theorem Waiting.handed_undated (h : s.Waiting a text batchMs stampAt)
    (hmoved : Moved call s s' (some (a, m))) (hat : stampAt ≠ 0)
    (hdate : call.1.dateOf batchMs = none) :
    m.text = text ∧ m.addr = a ∧ s'.Waiting a text batchMs stampAt := by
  cases hmoved with
  | @taken e q m rest hgrows hring hrest hhanded hout hlast =>
    have hold : q.msg.addr < e.nextAddr := Nat.lt_of_lt_of_le h.old hgrows.next
    have hlater := hgrows.forall_at h.old h.ring
    rw [hring] at hlater
    obtain ⟨hhead, htail⟩ := List.forall_mem_cons.mp hlater
    obtain ⟨rfl, rfl, rfl⟩ := hhead rfl
    have hnext := hhanded.next
    cases hhanded with
    | dated hzero => exact absurd hzero hat
    | undated _ _ hunstamped hunstampedAt hbatch =>
      refine ⟨rfl, rfl, Nat.lt_of_lt_of_le hold hnext, ?_, ?_, ?_⟩
      · rw [hrest]
        exact htail
      · rw [hout]
        exact List.forall_mem_cons.mpr ⟨fun _ => rfl, h.out⟩
      · exact fun _ => ⟨hunstamped, hunstampedAt, hbatch⟩
    | stamped iso _ hsome => cases hdate.symm.trans hsome

-- The copy with the timestamp has an address nothing else ever had.
theorem Waiting.handed_dated (h : s.Waiting a text batchMs stampAt) (hsound : s.Sound)
    (hmoved : Moved call s s' (some (a, m))) (hat : stampAt ≠ 0) {iso : CStr}
    (hdate : call.1.dateOf batchMs = some iso) :
    m.text = datedText text stampAt iso ∧ s'.Settled m.addr (datedText text stampAt iso) := by
  cases hmoved with
  | @taken e q m rest hgrows hring hrest hhanded hout hlast =>
    have hlater := hgrows.forall_at h.old h.ring
    have hfresh := hgrows.fresh hsound.fresh
    rw [hring] at hlater
    obtain ⟨rfl, rfl, rfl⟩ := (List.forall_mem_cons.mp hlater).1 rfl
    cases hhanded with
    | dated hzero => exact absurd hzero hat
    | undated _ hnone => cases hdate.symm.trans hnone
    | stamped iso' _ hsome hunstamped hnext =>
      obtain rfl := Option.some.inj (hdate.symm.trans hsome)
      refine ⟨rfl, ?_, ?_, ?_, ?_⟩
      · rw [hnext]
        exact Nat.lt_succ_self _
      · intro r hr haddr
        have hmem : r.msg.addr ∈ e.addrs := by
          rw [Engine.addrs, hring, ← hrest]
          exact List.mem_map.mpr ⟨r, List.mem_cons_of_mem _ hr, rfl⟩
        have hlt := hfresh _ (List.mem_append_left _ hmem)
        exact absurd haddr (Nat.ne_of_lt hlt)
      · rw [hout]
        refine List.forall_mem_cons.mpr ⟨fun _ => rfl, fun r hr haddr => ?_⟩
        have hmem : r.addr ∈ s.out.map Msg.addr := List.mem_map.mpr ⟨r, hr, rfl⟩
        have hlt := hfresh _ (List.mem_append_right _ hmem)
        exact absurd haddr (Nat.ne_of_lt hlt)
      · rw [hunstamped]
        simp

-- What a message says each time it is taken: the first take that can dates it.
def texts (text : CStr) (batchMs : UInt32) (stampAt : Nat) : List Env → List CStr
  | [] => []
  | env :: envs =>
    match env.dateOf batchMs with
    | none => text :: texts text batchMs stampAt envs
    | some iso => (env :: envs).map fun _ => datedText text stampAt iso

theorem takes_settled (K : Kconfig) {calls : List (Env × Op)} (hsound : s.Sound)
    (h : s.Settled a text) (howned : Along (step K) Owned s calls) :
    (takesOf K s a calls).map (fun t => t.2.text) = (takesOf K s a calls).map fun _ => text := by
  induction calls generalizing s with
  | nil => rfl
  | cons call calls ih =>
    have hmoved := moved_step hsound K call howned.1
    have hnext := sound_step K s call hsound howned.1
    unfold takesOf
    cases hhanding : s.handing call with
    | none =>
      rw [hhanding] at hmoved
      exact ih hnext (h.moved hmoved nofun) howned.2
    | some hand =>
      obtain ⟨b, m⟩ := hand
      rw [hhanding] at hmoved
      by_cases hb : b = a
      · subst hb
        obtain ⟨htext, haddr, hsettled⟩ := h.handed hmoved
        simp only [if_true, List.map_cons, htext, haddr, ih hnext hsettled howned.2]
      · simp only [if_neg hb]
        refine ih hnext (h.moved hmoved ?_) howned.2
        intro m' heq
        exact hb (congrArg Prod.fst (Option.some.inj heq))

theorem takes_waiting (K : Kconfig) {calls : List (Env × Op)} (hsound : s.Sound)
    (h : s.Waiting a text batchMs stampAt) (hat : stampAt ≠ 0)
    (hcalls : Along (step K) (fun s call => s.Owned call ∧ s.InTurn a call) s calls) :
    (takesOf K s a calls).map (fun t => t.2.text) =
      texts text batchMs stampAt ((takesOf K s a calls).map Prod.fst) := by
  induction calls generalizing s with
  | nil => rfl
  | cons call calls ih =>
    obtain ⟨⟨howned, hturn⟩, hcalls⟩ := hcalls
    have hmoved := moved_step hsound K call howned
    have hnext := sound_step K s call hsound howned
    unfold takesOf
    cases hhanding : s.handing call with
    | none =>
      rw [hhanding] at hmoved
      exact ih hnext (h.moved hmoved hturn nofun) hcalls
    | some hand =>
      obtain ⟨b, m⟩ := hand
      rw [hhanding] at hmoved
      by_cases hb : b = a
      · subst hb
        simp only [if_true, List.map_cons, texts]
        cases hdate : call.1.dateOf batchMs with
        | none =>
          obtain ⟨htext, haddr, hwaiting⟩ := h.handed_undated hmoved hat hdate
          simp only [htext, haddr, ih hnext hwaiting hcalls]
        | some iso =>
          obtain ⟨htext, hsettled⟩ := h.handed_dated hsound hmoved hat hdate
          have howned := along_of_invariant (P := fun _ => True) (fun _ _ _ _ => trivial)
            (fun _ _ _ hboth => hboth.1) trivial hcalls
          have hlater := takes_settled K hnext hsettled howned
          simp only [htext, hlater, List.map_map]
          rfl
      · simp only [if_neg hb]
        refine ih hnext (h.moved hmoved hturn ?_) hcalls
        intro m' heq
        exact hb (congrArg Prod.fst (Option.some.inj heq))

-- The sender once a call has closed the windows that it closes, and before it
-- takes a message.
def filled (K : Kconfig) (s : Sender maxMsgs) (call : Env × Op) : Sender maxMsgs :=
  match call.2 with
  | .take _ => { s with eng := s.eng.closeDue call.1 }
  | .requeue _ => s
  | _ => s.step K call

instance (s : Sender maxMsgs) (call : Env × Op) : Decidable (s.Owned call) :=
  match call with
  | (_, .requeue msg) => inferInstanceAs (Decidable (msg ∈ s.out))
  | (_, .publishAt ..) | (_, .flush) | (_, .take _) | (_, .setLabel _) | (_, .setTiming ..)
  | (_, .setNoDrop _) => .isTrue trivial

instance (a : Nat) (s : Sender maxMsgs) (call : Env × Op) : Decidable (s.InTurn a call) :=
  match call with
  | (_, .requeue msg) => inferInstanceAs (Decidable (msg.addr = a → s.last = some a))
  | (_, .publishAt ..) | (_, .flush) | (_, .take _) | (_, .setLabel _) | (_, .setTiming ..)
  | (_, .setNoDrop _) => .isTrue trivial

-- A sender that some run leads to.
def Reached (K : Kconfig) (cfg : Cfg) (s : Sender cfg.capacity) : Prop :=
  ∃ calls, Along (step K) Owned (start cfg) calls ∧ run (step K) (start cfg) calls = s

end Sender

namespace Engine

variable {maxMsgs : Nat} {d : Engine maxMsgs}

theorem Tidy.closeDue (h : d.Tidy) (env : Env) : (d.closeDue env).Tidy := by
  unfold Engine.closeDue
  by_cases hdue : d.batchDue env.now = true
  · rw [if_pos hdue]
    exact h.flushWindow env
  · rwa [if_neg hdue]

theorem closeDue_closeDue (d : Engine maxMsgs) (env : Env) :
    (d.closeDue env).closeDue env = d.closeDue env := by
  by_cases hdue : d.batchDue env.now = true
  · have hclosed : d.closeDue env = (d.flushWindow env).1 := by
      rw [closeDue, if_pos hdue]
    rw [hclosed]
    rcases d.flushWindow_window env with ⟨hsame, _⟩ | ⟨_, hpending, _⟩
    · rw [hsame, hclosed, hsame]
    · rw [closeDue, if_neg]
      simp [batchDue, hpending]
  · have hopen : d.closeDue env = d := by
      rw [closeDue, if_neg hdue]
    rw [hopen, hopen]

end Engine

namespace Sender

variable {maxMsgs : Nat} {s : Sender maxMsgs} {call : Env × Op} {q : Queued}

theorem Sound.filled (h : s.Sound) (K : Kconfig) (howned : s.Owned call) :
    (s.filled K call).Sound := by
  obtain ⟨env, op⟩ := call
  cases op with
  | take connected =>
    have hgrows := Engine.grows_closeDue h.tidy h.contexts env
    have hmoved : Moved (env, .take connected) s (s.filled K (env, .take connected)) none :=
      .grown hgrows rfl rfl
    exact h.moved hmoved (h.tidy.closeDue env) (Engine.length_ctx_closeDue env h.contexts)
  | requeue msg => exact h
  | publishAt context path value atMs =>
    exact sound_step K s (env, .publishAt context path value atMs) h howned
  | flush => exact sound_step K s (env, .flush) h howned
  | setLabel label => exact sound_step K s (env, .setLabel label) h howned
  | setTiming batchMs drainPerS => exact sound_step K s (env, .setTiming batchMs drainPerS) h howned
  | setNoDrop noDrop => exact sound_step K s (env, .setNoDrop noDrop) h howned

theorem Sound.grows_filled (h : s.Sound) (K : Kconfig) (call : Env × Op) :
    Grows s.eng (s.filled K call).eng ∧ (s.filled K call).out = s.out ∧
      (s.filled K call).last = s.last := by
  obtain ⟨env, op⟩ := call
  cases op with
  | publishAt context path value atMs =>
    exact ⟨Engine.grows_publishAt h.tidy h.contexts K env context path value atMs, rfl, rfl⟩
  | flush => exact ⟨Engine.grows_flushWindow h.tidy.orderly h.contexts env, rfl, rfl⟩
  | take connected => exact ⟨Engine.grows_closeDue h.tidy h.contexts env, rfl, rfl⟩
  | requeue msg => exact ⟨.of_desk rfl, rfl, rfl⟩
  | setLabel label => exact ⟨.of_desk rfl, rfl, rfl⟩
  | setTiming batchMs drainPerS => exact ⟨.of_desk rfl, rfl, rfl⟩
  | setNoDrop noDrop => exact ⟨.of_desk rfl, rfl, rfl⟩

-- A message the call's windows brought in is still to be dated where it has an
-- update without a date.
theorem Sound.waiting (h : s.Sound) (K : Kconfig) (howned : s.Owned call)
    (hq : q ∈ (s.filled K call).eng.ring.toList) (hnew : q ∉ s.eng.ring.toList)
    (hundated : ∃ u ∈ q.msg.doc.updates, u.date = none) :
    Undated q.msg q.stampAt ∧
      (s.filled K call).Waiting q.msg.addr q.msg.text q.batchMs q.stampAt := by
  have hfilled := h.filled K howned
  obtain ⟨hgrows, hout, hlast⟩ := h.grows_filled K call
  obtain ⟨new, hsub, _, hadded⟩ := hgrows.ring
  have hmem : q ∈ new := by
    rcases List.mem_append.mp (hsub.subset hq) with hold | hmem
    · exact absurd hold hnew
    · exact hmem
  obtain ⟨hge, _, hdatable⟩ := hadded q hmem
  have hdate : Undated q.msg q.stampAt := by
    rcases hdatable with ⟨_, hdated⟩ | hdate
    · obtain ⟨u, hu, hnone⟩ := hundated
      have hsome := hdated u hu
      rw [hnone] at hsome
      cases hsome
    · exact hdate
  have haddr : q.msg.addr ∈ (s.filled K call).eng.addrs := List.mem_map.mpr ⟨q, hq, rfl⟩
  obtain ⟨hring, _, hdisjoint⟩ := List.nodup_append.mp hfilled.nodup
  refine ⟨hdate, hfilled.fresh _ (List.mem_append_left _ haddr), ?_, ?_, ?_⟩
  · intro r hr heq
    rw [List.inj_on_of_nodup_map hring hr hq heq]
    exact ⟨rfl, rfl, rfl⟩
  · intro m hm heq
    exact absurd heq.symm (hdisjoint _ haddr _ (List.mem_map.mpr ⟨m, hm, rfl⟩))
  · intro heq
    have hlt := h.last _ (hlast.symm.trans heq)
    omega

theorem take_filled (K : Kconfig) (s : Sender maxMsgs) (env : Env) (connected : Bool) :
    (s.filled K (env, .take connected)).handing (env, .take connected) =
        s.handing (env, .take connected) ∧
      (s.filled K (env, .take connected)).step K (env, .take connected) =
        s.step K (env, .take connected) := by
  have hclosed : (s.filled K (env, .take connected)).eng.closeDue env = s.eng.closeDue env :=
    s.eng.closeDue_closeDue env
  have htake : (s.filled K (env, .take connected)).eng.take env connected =
      s.eng.take env connected := by
    rw [Engine.take, hclosed, Engine.take]
  have hhanding : (s.filled K (env, .take connected)).handing (env, .take connected) =
      s.handing (env, .take connected) := by
    simp only [handing, hclosed, htake]
  refine ⟨hhanding, ?_⟩
  simp only [step, hhanding, Delta.step, htake]
  rfl

theorem dated_by_first_take (K : Kconfig) (cfg : Cfg) {s : Sender cfg.capacity}
    (hreached : Reached K cfg s) {call : Env × Op} {q : Queued}
    (hqueued : q ∈ (s.filled K call).eng.ring.toList) (hnew : q ∉ s.eng.ring.toList)
    (hundated : ∃ u ∈ q.msg.doc.updates, u.date = none) (later : List (Env × Op))
    (hturn : Along (step K) (fun s call => s.Owned call ∧ s.InTurn q.msg.addr call) s
      (call :: later)) :
    (takesOf K s q.msg.addr (call :: later)).map (fun t => t.2.text) =
        texts q.msg.text q.batchMs q.stampAt
          ((takesOf K s q.msg.addr (call :: later)).map Prod.fst) ∧
      ∃ before u after, q.msg.doc.updates = before ++ u :: after ∧ u.date = none ∧
        (∀ v ∈ before ++ after, v.date.isSome) ∧ q.msg.text = q.msg.doc.render ∧
        ∀ iso, datedText q.msg.text q.stampAt iso = Doc.render
          { q.msg.doc with updates := before ++ { u with date := some iso } :: after } := by
  obtain ⟨calls, howned, rfl⟩ := hreached
  have hsound := run_invariant_of_along (sound_step K) (sound_start cfg) howned
  generalize run (step K) (start cfg) calls = s at hsound hqueued hnew hturn
  obtain ⟨hdate, hwaiting⟩ := hsound.waiting K hturn.1.1 hqueued hnew hundated
  refine ⟨?_, hdate.render⟩
  have hfilled := hsound.filled K hturn.1.1
  have hat := hdate.stampAt_ne_zero
  obtain ⟨env, op⟩ := call
  cases op with
  | take connected =>
    obtain ⟨hhanding, hstep⟩ := take_filled K s env connected
    have hfirst : Along (step K) (fun s call => s.Owned call ∧ s.InTurn q.msg.addr call)
        (s.filled K (env, .take connected)) ((env, .take connected) :: later) := by
      refine ⟨hturn.1, ?_⟩
      rw [hstep]
      exact hturn.2
    have htakes := takes_waiting K hfilled hwaiting hat hfirst
    simpa only [takesOf, hhanding, hstep] using htakes
  | requeue msg => exact absurd hqueued hnew
  | publishAt context path value atMs =>
    have htakes := takes_waiting K hfilled hwaiting hat hturn.2
    exact htakes
  | flush =>
    have htakes := takes_waiting K hfilled hwaiting hat hturn.2
    exact htakes
  | setLabel label =>
    have htakes := takes_waiting K hfilled hwaiting hat hturn.2
    exact htakes
  | setTiming batchMs drainPerS =>
    have htakes := takes_waiting K hfilled hwaiting hat hturn.2
    exact htakes
  | setNoDrop noDrop =>
    have htakes := takes_waiting K hfilled hwaiting hat hturn.2
    exact htakes

def publishOf (path : CStr) : Env × Op :=
  (.clockless 0, .publishAt none path (lit "1") 0)

def closeWindow : Env × Op :=
  (.clockless 0, .flush)

def takeAt (now : UInt32) : Env × Op :=
  (.clockless now, .take true)

-- A take at 22:13:20 on 14 November 2023.
def takeWithClock (now : UInt32) (allocStamp : Bool) : Env × Op :=
  ({ Env.clockless now with wall := 1700000000000, allocStamp := allocStamp }, .take true)

def published : Sender (Cfg.ofRing 8 0 false).capacity :=
  run (step .default) (start (.ofRing 8 0 false)) [publishOf (lit "a")]

-- The message of a window with one value.
def queuedOf (addr : Nat) (path : CStr) : Queued where
  msg :=
    { addr := addr
      text := lit "\x7b\"context\":\"vessels.self\",\"updates\":[\x7b" ++
        lit "\"source\":\x7b\"label\":\"d\"\x7d,\"values\":[\x7b\"path\":\"" ++ path ++
          lit "\",\"value\":1\x7d]\x7d]\x7d"
      doc := ⟨SELF_CONTEXT, lit "d", [⟨none, [(path, lit "1")]⟩]⟩ }
  batchMs := 0
  stampAt := 38

-- The send fails once before the clock is set, and once after.
def retried : List (Env × Op) :=
  let undated := (queuedOf 1 (lit "a")).msg
  [takeAt 500, (.clockless 600, .requeue undated), takeWithClock 1000 true,
    (.clockless 1100, .requeue ⟨5, datedText undated.text 38 (lit "2023-11-14T22:13:19.000Z"),
      undated.doc.stamp (lit "2023-11-14T22:13:19.000Z")⟩),
    takeWithClock 2000 true]

theorem retried_dated :
    (takesOf .default published 1 (closeWindow :: retried)).map (fun t => t.2.text) =
      texts (queuedOf 1 (lit "a")).msg.text 0 38
        ((takesOf .default published 1 (closeWindow :: retried)).map Prod.fst) ∧
    (takesOf .default published 1 (closeWindow :: retried)).map (fun t => t.2.text) =
      [(queuedOf 1 (lit "a")).msg.text,
        datedText (queuedOf 1 (lit "a")).msg.text 38 (lit "2023-11-14T22:13:19.000Z"),
        datedText (queuedOf 1 (lit "a")).msg.text 38 (lit "2023-11-14T22:13:19.000Z")] := by
  have hreached : Reached .default (.ofRing 8 0 false) published :=
    ⟨[publishOf (lit "a")], ⟨trivial, trivial⟩, rfl⟩
  refine ⟨?_, by decide +kernel⟩
  exact (dated_by_first_take .default (.ofRing 8 0 false) hreached (q := queuedOf 1 (lit "a"))
    (by decide +kernel) (by decide +kernel) (by decide +kernel) retried (by decide +kernel)).1

-- Two messages are out at once, and the later one is put back first.
def crossed : List (Env × Op) :=
  [publishOf (lit "b"), closeWindow, takeAt 500, takeAt 1000,
    (.clockless 1100, .requeue (queuedOf 5 (lit "b")).msg),
    (.clockless 1100, .requeue (queuedOf 1 (lit "a")).msg), takeWithClock 2000 true]

theorem left_undated :
    (∃ s call q later, Reached .default (.ofRing 8 0 false) s ∧
      q ∈ (s.filled .default call).eng.ring.toList ∧ q ∉ s.eng.ring.toList ∧
      (∃ u ∈ q.msg.doc.updates, u.date = none) ∧
      Along (step .default) Owned s (call :: later) ∧
      ∃ t ∈ takesOf .default s q.msg.addr (call :: later),
        (t.1.dateOf q.batchMs).isSome ∧ t.2.text = q.msg.text) ∧
    ∃ s call q later, Reached .default (.ofRing 8 0 false) s ∧
      q ∈ (s.filled .default call).eng.ring.toList ∧ q ∉ s.eng.ring.toList ∧
      (∃ u ∈ q.msg.doc.updates, u.date = none) ∧
      Along (step .default) (fun s call => s.Owned call ∧ s.InTurn q.msg.addr call) s
        (call :: later) ∧
      ∃ t ∈ takesOf .default s q.msg.addr (call :: later),
        0 < t.1.wall ∧ (iso8601 (t.1.wall - (t.1.now - q.batchMs).toNat)).isSome ∧
          t.2.text = q.msg.text := by
  have hreached : Reached .default (.ofRing 8 0 false) published :=
    ⟨[publishOf (lit "a")], ⟨trivial, trivial⟩, rfl⟩
  constructor
  · refine ⟨published, closeWindow, queuedOf 1 (lit "a"), crossed, hreached, ?_⟩
    decide +kernel
  · refine ⟨published, closeWindow, queuedOf 1 (lit "a"), [takeWithClock 1000 false], hreached, ?_⟩
    decide +kernel

end Sender

end Espos.Sk.Delta
