import Espos.Sk.Delta.Sender

-- The messages that are out at a sender: what one call does to them, and that
-- each is at an address of its own.

namespace Espos.Sk.Delta

open Espos.Text
open Espos.Run

namespace Engine

variable {maxMsgs : Nat} {d d' : Engine maxMsgs} {env : Env}

-- What becomes of a message that leaves the ring.
inductive Handed (env : Env) (q : Queued) (d d' : Engine maxMsgs) : Msg → Prop
  | dated (hat : q.stampAt = 0) (hunstamped : d'.unstamped = none)
      (hnext : d'.nextAddr = d.nextAddr) : Handed env q d d' q.msg
  | undated (hat : q.stampAt ≠ 0) (hdate : env.dateOf q.batchMs = none)
      (hunstamped : d'.unstamped = some q.msg.addr) (hunstampedAt : d'.unstampedAt = q.stampAt)
      (hbatch : d'.unstampedBatchMs = q.batchMs) (hnext : d'.nextAddr = d.nextAddr) :
      Handed env q d d' q.msg
  | stamped (iso : CStr) (hat : q.stampAt ≠ 0) (hdate : env.dateOf q.batchMs = some iso)
      (hunstamped : d'.unstamped = none) (hnext : d'.nextAddr = d.nextAddr + 1) :
      Handed env q d d' ⟨d.nextAddr, datedText q.msg.text q.stampAt iso, q.msg.doc.stamp iso⟩

theorem opening_getElem? (doc : Doc) (before : List Update) (rest : CStr) :
    (doc.opening before ++ rest)[(doc.opening before).length - 1]? = some '\x7b' := by
  have hbrace : (lit "\x7b").length = 1 := by decide
  have hlength : 0 < (doc.opening before).length := by
    simp only [Doc.opening, List.length_append, hbrace]
    omega
  rw [List.getElem?_append_left (by omega), ← List.getLast?_eq_getElem?]
  simp only [Doc.opening, ← List.append_assoc]
  exact List.getLast?_concat

-- The brace is where the insertion looks for it.
theorem stamp_undated {msg : Msg} {batchMs : UInt32} {stampAt : Nat} (h : Undated msg stampAt)
    (hat : stampAt ≠ 0) (d : Engine maxMsgs) : d.stamp env msg batchMs stampAt =
      (env.dateOf batchMs).map fun iso =>
        ⟨d.nextAddr, datedText msg.text stampAt iso, msg.doc.stamp iso⟩ := by
  obtain ⟨htext, before, u, after, hsplit, hu, _, hoffset⟩ := h
  have hrender := render_split msg.doc hsplit
  rw [hu, dateText, Option.elim_none, List.nil_append, ← htext] at hrender
  have hbrace : msg.text[stampAt - 1]? = some '\x7b' := by
    rw [hrender, hoffset]
    exact opening_getElem? _ _ _
  have hclosing : 0 < (msg.doc.closing u after).length := by
    have hend : (lit "]\x7d").length = 2 := by decide
    simp only [Doc.closing, List.length_append, hend]
    omega
  have hshort : stampAt < msg.text.length := by
    rw [hrender, List.length_append]
    omega
  have hguard : ¬ (stampAt = 0 ∨ msg.text.length ≤ stampAt ∨
      msg.text[stampAt - 1]? ≠ some '\x7b') := by
    rintro (hzero | hlong | hne)
    · exact hat hzero
    · omega
    · exact hne hbrace
  unfold stamp Env.dateOf
  by_cases hwall : env.wall ≤ 0
  · rw [if_pos hwall, if_pos (Or.inl hwall)]
    rfl
  · rw [if_neg hwall]
    cases hiso : iso8601 (env.wall - (env.now - batchMs).toNat) with
    | none =>
      simp only [ite_self, Option.map_none]
    | some iso =>
      simp only [if_neg hguard]
      cases halloc : env.allocStamp with
      | false => simp
      | true => simp [hwall, datedText]

theorem handOut_handed (env : Env) (hcount : d.ring.count ≠ 0)
    (hundated : ∀ q ∈ d.ring.toList, q.stampAt ≠ 0 → Undated q.msg q.stampAt) :
    ∃ q m rest, d.ring.toList = q :: rest ∧ (d.handOut env).2 = some m ∧
      (d.handOut env).1.ring.toList = rest ∧ Handed env q d (d.handOut env).1 m := by
  have hlist := d.ring.toList_dropFront hcount
  have hpop := ringPop_of_count_ne_zero hcount
  have hhead := hundated (d.ring.slots d.ring.head) (by rw [hlist]; exact List.mem_cons_self)
  generalize d.ring.slots d.ring.head = q at hlist hpop hhead
  unfold handOut
  rw [hpop]
  dsimp only
  by_cases hat : q.stampAt = 0
  · rw [if_pos hat]
    exact ⟨q, q.msg, _, hlist, rfl, rfl, .dated hat rfl rfl⟩
  · rw [if_neg hat, stamp_undated (hhead hat) hat]
    cases hdate : env.dateOf q.batchMs with
    | none => exact ⟨q, q.msg, _, hlist, rfl, rfl, .undated hat hdate rfl rfl rfl rfl⟩
    | some iso => exact ⟨q, _, _, hlist, rfl, rfl, .stamped iso hat hdate rfl rfl⟩

theorem Grows.undated (h : Grows d d')
    (hundated : ∀ q ∈ d.ring.toList, q.stampAt ≠ 0 → Undated q.msg q.stampAt) :
    ∀ q ∈ d'.ring.toList, q.stampAt ≠ 0 → Undated q.msg q.stampAt := by
  intro q hq
  obtain ⟨new, hsub, _, hnew⟩ := h.ring
  rcases List.mem_append.mp (hsub.subset hq) with hold | hq
  · exact hundated q hold
  · intro hat
    rcases (hnew q hq).2.2 with ⟨hzero, _⟩ | hundated
    · exact absurd hzero hat
    · exact hundated

theorem grows_closeDue (h : d.Tidy) (hctx : d.ctx.length ≤ CONTEXTS_MAX) (env : Env) :
    Grows d (d.closeDue env) := by
  unfold closeDue
  by_cases hdue : d.batchDue env.now = true
  · rw [if_pos hdue]
    exact grows_flushWindow h.orderly hctx env
  · rw [if_neg hdue]
    exact .of_desk rfl

end Engine

open Engine (Grows Handed)

-- The engine, the messages its sender has got, and which of them it got last,
-- as long as none has been put back since.
structure Sender (maxMsgs : Nat) where
  eng : Engine maxMsgs
  out : List Msg
  last : Option Nat

namespace Sender

variable {maxMsgs : Nat}

def start (cfg : Cfg) : Sender cfg.capacity :=
  ⟨create cfg, [], none⟩

-- The message a call hands out, with its address in the ring.
def handing (s : Sender maxMsgs) (call : Env × Op) : Option (Nat × Msg) :=
  match call.2 with
  | .take connected =>
    match (s.eng.closeDue call.1).ring.toList, (s.eng.take call.1 connected).2 with
    | q :: _, some m => some (q.msg.addr, m)
    | _, _ => none
  | _ => none

def step (K : Kconfig) (s : Sender maxMsgs) (call : Env × Op) : Sender maxMsgs where
  eng := Delta.step K s.eng call
  out :=
    match call.2 with
    | .requeue msg => s.out.erase msg
    | _ => ((s.handing call).map Prod.snd).toList ++ s.out
  last :=
    match call.2 with
    | .requeue _ => none
    | _ => ((s.handing call).map fun h => h.2.addr).or s.last

-- What is put back is a message that was handed out.
def Owned (s : Sender maxMsgs) (call : Env × Op) : Prop :=
  match call.2 with
  | .requeue msg => msg ∈ s.out
  | _ => True

-- The message at `a` is put back before any other is handed out or put back.
def InTurn (a : Nat) (s : Sender maxMsgs) (call : Env × Op) : Prop :=
  match call.2 with
  | .requeue msg => msg.addr = a → s.last = some a
  | _ => True

-- The takes of the message at `a`, with the copies they hand out.
def takesOf (K : Kconfig) : Sender maxMsgs → Nat → List (Env × Op) → List (Env × Msg)
  | _, _, [] => []
  | s, a, call :: calls =>
    match s.handing call with
    | none => takesOf K (s.step K call) a calls
    | some (b, m) =>
      if b = a then (call.1, m) :: takesOf K (s.step K call) m.addr calls
      else takesOf K (s.step K call) a calls

-- What one call does to the messages, those in the ring and those that are out.
inductive Moved (call : Env × Op) (s s' : Sender maxMsgs) : Option (Nat × Msg) → Prop
  | grown (hgrows : Grows s.eng s'.eng) (hout : s'.out = s.out) (hlast : s'.last = s.last) :
      Moved call s s' none
  | taken {e : Engine maxMsgs} {q : Queued} {m : Msg} {rest : List Queued}
      (hgrows : Grows s.eng e) (hring : e.ring.toList = q :: rest)
      (hrest : s'.eng.ring.toList = rest) (hhanded : Handed call.1 q e s'.eng m)
      (hout : s'.out = m :: s.out) (hlast : s'.last = some m.addr) :
      Moved call s s' (some (q.msg.addr, m))
  | dropped {msg : Msg} (hmem : msg ∈ s.out) (hdesk : s'.eng.desk = s.eng.desk)
      (hout : s'.out = s.out.erase msg) (hlast : s'.last = none) : Moved call s s' none
  | putBack {q : Queued} (hcall : call.2 = .requeue q.msg) (hmem : q.msg ∈ s.out)
      (hring : s'.eng.ring.toList = q :: s.eng.ring.toList)
      (hmark : s.eng.unstamped = some q.msg.addr →
        q.stampAt = s.eng.unstampedAt ∧ q.batchMs = s.eng.unstampedBatchMs)
      (hplain : s.eng.unstamped ≠ some q.msg.addr → q.stampAt = 0)
      (hunstamped : s'.eng.unstamped = none) (hnext : s'.eng.nextAddr = s.eng.nextAddr)
      (hout : s'.out = s.out.erase q.msg) (hlast : s'.last = none) : Moved call s s' none

theorem moved_take {s : Sender maxMsgs} (htidy : s.eng.Tidy)
    (hctx : s.eng.ctx.length ≤ CONTEXTS_MAX)
    (hundated : ∀ q ∈ s.eng.ring.toList, q.stampAt ≠ 0 → Undated q.msg q.stampAt)
    (K : Kconfig) (env : Env) (connected : Bool) :
    Moved (env, .take connected) s (s.step K (env, .take connected))
      (s.handing (env, .take connected)) := by
  have hgrows := Engine.grows_closeDue htidy hctx env
  have hlater := hgrows.undated hundated
  have hsend : (s.eng.take env connected) = (s.eng.closeDue env).send env connected := rfl
  -- no message: the ring is as closing the window left it
  have hnone (heng : ((s.eng.closeDue env).send env connected).1.desk = (s.eng.closeDue env).desk)
      (hmsg : ((s.eng.closeDue env).send env connected).2 = none) :
      Moved (env, .take connected) s (s.step K (env, .take connected))
        (s.handing (env, .take connected)) := by
    have hhanding : s.handing (env, .take connected) = none := by
      simp only [handing, hsend, hmsg]
      cases (s.eng.closeDue env).ring.toList <;> rfl
    rw [hhanding]
    refine .grown (hgrows.congr_right heng) ?_ ?_
    · simp only [step, hhanding, Option.map_none, Option.toList_none, List.nil_append]
    · simp only [step, hhanding, Option.map_none, Option.none_or]
  by_cases hidle : (!connected || decide ((s.eng.closeDue env).ring.count = 0)) = true
  · have hsent : (s.eng.closeDue env).send env connected =
        ((s.eng.closeDue env).setDraining false, none) := by
      rw [Engine.send, if_pos hidle]
    exact hnone (by rw [hsent]; rfl) (by rw [hsent])
  · by_cases hsoon : ((s.eng.closeDue env).backlog && (s.eng.closeDue env).tooSoon env.now) = true
    · have hsent : (s.eng.closeDue env).send env connected = (s.eng.closeDue env, none) := by
        rw [Engine.send, if_neg hidle, if_pos hsoon]
      exact hnone (by rw [hsent]) (by rw [hsent])
    · have hsent : (s.eng.closeDue env).send env connected =
          ((s.eng.closeDue env).setDraining ((s.eng.closeDue env).backlog &&
            decide (1 < (s.eng.closeDue env).ring.count))).handOut env := by
        rw [Engine.send, if_neg hidle, if_neg hsoon]
      have hcount : (s.eng.closeDue env).ring.count ≠ 0 := by
        intro hzero
        simp [hzero] at hidle
      obtain ⟨q, m, rest, hlist, hmsg, hrest, hhanded⟩ :=
        Engine.handOut_handed env (d := (s.eng.closeDue env).setDraining
          ((s.eng.closeDue env).backlog && decide (1 < (s.eng.closeDue env).ring.count)))
          hcount hlater
      rw [← hsent, ← hsend] at hmsg hrest hhanded
      have hring : (s.eng.closeDue env).ring.toList = q :: rest := hlist
      have hhanding : s.handing (env, .take connected) = some (q.msg.addr, m) := by
        simp only [handing, hring, hmsg]
      rw [hhanding]
      refine .taken (hgrows.congr_right ?_) hlist hrest hhanded ?_ ?_
      · rfl
      · simp only [step, hhanding, Option.map_some, Option.toList_some, List.singleton_append]
      · simp only [step, hhanding, Option.map_some, Option.some_or]

theorem moved_requeue {s : Sender maxMsgs} {msg : Msg} (hmem : msg ∈ s.out) (K : Kconfig)
    (env : Env) : Moved (env, .requeue msg) s (s.step K (env, .requeue msg)) none := by
  by_cases hfull : maxMsgs ≤ s.eng.ring.count
  · refine .dropped hmem ?_ rfl rfl
    change (s.eng.requeue msg).desk = _
    rw [Engine.requeue, if_pos hfull]
    rfl
  · have hrequeue : (s.step K (env, .requeue msg)).eng = s.eng.requeue msg := rfl
    unfold Engine.requeue at hrequeue
    rw [if_neg hfull] at hrequeue
    let q : Queued :=
      { msg := msg
        batchMs := if s.eng.unstamped = some msg.addr then s.eng.unstampedBatchMs else 0
        stampAt := if s.eng.unstamped = some msg.addr then s.eng.unstampedAt else 0 }
    have hring := s.eng.ring.toList_pushFront q (Nat.lt_of_not_le hfull)
    refine .putBack (q := q) rfl hmem ?_ ?_ ?_ ?_ ?_ rfl rfl
    · rw [hrequeue]
      exact hring
    · intro hmark
      exact ⟨if_pos hmark, if_pos hmark⟩
    · intro hplain
      exact if_neg hplain
    · rw [hrequeue]
    · rw [hrequeue]

-- The messages are at addresses of their own, and `unstamped` is that of one
-- the engine still knows how to date.
structure Sound (s : Sender maxMsgs) : Prop where
  tidy : s.eng.Tidy
  contexts : s.eng.ctx.length ≤ CONTEXTS_MAX
  undated : ∀ q ∈ s.eng.ring.toList, q.stampAt ≠ 0 → Undated q.msg q.stampAt
  mark : ∀ m ∈ s.out, s.eng.unstamped = some m.addr → Undated m s.eng.unstampedAt
  nodup : (s.eng.addrs ++ s.out.map Msg.addr).Nodup
  fresh : ∀ a ∈ s.eng.addrs ++ s.out.map Msg.addr, a < s.eng.nextAddr
  last : ∀ a, s.last = some a → a < s.eng.nextAddr

theorem sound_start (cfg : Cfg) : (start cfg).Sound := by
  constructor
  · exact tidy_create cfg
  · exact Nat.zero_le _
  · nofun
  · nofun
  · exact List.nodup_nil
  · nofun
  · nofun

theorem moved_step {s : Sender maxMsgs} (h : s.Sound) (K : Kconfig) (call : Env × Op)
    (howned : s.Owned call) : Moved call s (s.step K call) (s.handing call) := by
  obtain ⟨env, op⟩ := call
  cases op with
  | publishAt context path value atMs =>
    exact .grown (Engine.grows_publishAt h.tidy h.contexts K env context path value atMs) rfl rfl
  | flush => exact .grown (Engine.grows_flushWindow h.tidy.orderly h.contexts env) rfl rfl
  | take connected => exact moved_take h.tidy h.contexts h.undated K env connected
  | requeue msg => exact moved_requeue howned K env
  | setLabel label => exact .grown (.of_desk rfl) rfl rfl
  | setTiming batchMs drainPerS => exact .grown (.of_desk rfl) rfl rfl
  | setNoDrop noDrop => exact .grown (.of_desk rfl) rfl rfl

end Sender

namespace Engine

variable {maxMsgs : Nat} {d d' : Engine maxMsgs} {env : Env} {out : List Nat}

theorem Grows.nodup (h : Grows d d') (hnodup : (d.addrs ++ out).Nodup)
    (hfresh : ∀ a ∈ d.addrs ++ out, a < d.nextAddr) : (d'.addrs ++ out).Nodup := by
  obtain ⟨new, hsub, hnew, haddr⟩ := h.ring
  have hsub' : d'.addrs.Sublist (d.addrs ++ new.map fun q => q.msg.addr) := by
    have hmap := hsub.map fun q => q.msg.addr
    rwa [List.map_append] at hmap
  refine (hsub'.append (List.Sublist.refl out)).nodup ?_
  obtain ⟨hold, hout, hdisjoint⟩ := List.nodup_append.mp hnodup
  rw [List.append_assoc, List.nodup_append, List.nodup_append]
  have hge : ∀ a ∈ new.map (fun q => q.msg.addr), d.nextAddr ≤ a := by
    intro a ha
    obtain ⟨q, hq, rfl⟩ := List.mem_map.mp ha
    exact (haddr q hq).1
  refine ⟨hold, ⟨hnew, hout, ?_⟩, ?_⟩
  · intro a ha b hb heq
    have hlow := hge a ha
    have hhigh := hfresh b (List.mem_append_right _ hb)
    omega
  · intro a ha b hb heq
    rcases List.mem_append.mp hb with hb | hb
    · have hlow := hge b hb
      have hhigh := hfresh a (List.mem_append_left _ ha)
      omega
    · exact hdisjoint a ha b hb heq

theorem Grows.fresh (h : Grows d d') (hfresh : ∀ a ∈ d.addrs ++ out, a < d.nextAddr) :
    ∀ a ∈ d'.addrs ++ out, a < d'.nextAddr := by
  obtain ⟨new, hsub, _, haddr⟩ := h.ring
  have hnext := h.next
  intro a ha
  rcases List.mem_append.mp ha with ha | ha
  · obtain ⟨q, hq, rfl⟩ := List.mem_map.mp ha
    rcases List.mem_append.mp (hsub.subset hq) with hq | hq
    · have hlow := hfresh q.msg.addr (List.mem_append_left _ (List.mem_map.mpr ⟨q, hq, rfl⟩))
      omega
    · exact (haddr q hq).2.1
  · have hlow := hfresh a (List.mem_append_right _ ha)
    omega

end Engine

namespace Sender

variable {maxMsgs : Nat} {s s' : Sender maxMsgs} {call : Env × Op} {hand : Option (Nat × Msg)}

theorem perm_erase {out : List Msg} {msg : Msg} (hmem : msg ∈ out) (inside : List Nat) :
    (inside ++ out.map Msg.addr).Perm (msg.addr :: (inside ++ (out.erase msg).map Msg.addr)) :=
  calc
    (inside ++ out.map Msg.addr).Perm (inside ++ msg.addr :: (out.erase msg).map Msg.addr) :=
      ((List.perm_cons_erase hmem).map Msg.addr).append_left inside
    _ |>.Perm (msg.addr :: (inside ++ (out.erase msg).map Msg.addr)) := List.perm_middle

-- A message that moves is at one place, and a copy is at an address of its own.
theorem Moved.addrs (h : Moved call s s' hand)
    (hnodup : (s.eng.addrs ++ s.out.map Msg.addr).Nodup)
    (hfresh : ∀ a ∈ s.eng.addrs ++ s.out.map Msg.addr, a < s.eng.nextAddr) :
    (s'.eng.addrs ++ s'.out.map Msg.addr).Nodup ∧
      ∀ a ∈ s'.eng.addrs ++ s'.out.map Msg.addr, a < s'.eng.nextAddr := by
  cases h with
  | grown hgrows hout =>
    rw [hout]
    exact ⟨hgrows.nodup hnodup hfresh, hgrows.fresh hfresh⟩
  | @taken e q m rest hgrows hring hrest hhanded hout =>
    have hnodup' := hgrows.nodup hnodup hfresh
    have hfresh' := hgrows.fresh hfresh
    have haddrs : e.addrs = q.msg.addr :: rest.map fun q => q.msg.addr := by
      rw [Engine.addrs, hring, List.map_cons]
    have haddrs' : s'.eng.addrs = rest.map fun q => q.msg.addr := by
      rw [Engine.addrs, hrest]
    rw [haddrs, List.cons_append] at hnodup' hfresh'
    rw [haddrs', hout, List.map_cons]
    have hperm : ((rest.map fun q => q.msg.addr) ++ m.addr :: s.out.map Msg.addr).Perm
        (m.addr :: ((rest.map fun q => q.msg.addr) ++ s.out.map Msg.addr)) := List.perm_middle
    generalize (rest.map fun q => q.msg.addr) ++ s.out.map Msg.addr = others
      at hnodup' hfresh' hperm
    simp only [hperm.nodup_iff, hperm.mem_iff]
    cases hhanded with
    | dated _ _ hnext =>
      rw [hnext]
      exact ⟨hnodup', hfresh'⟩
    | undated _ _ _ _ _ hnext =>
      rw [hnext]
      exact ⟨hnodup', hfresh'⟩
    | stamped iso _ _ _ hnext =>
      obtain ⟨_, hothers⟩ := List.forall_mem_cons.mp hfresh'
      rw [hnext]
      constructor
      · refine List.nodup_cons.mpr ⟨?_, (List.nodup_cons.mp hnodup').2⟩
        intro hmem
        exact absurd (hothers _ hmem) (Nat.lt_irrefl _)
      · refine List.forall_mem_cons.mpr ⟨Nat.lt_succ_self _, ?_⟩
        intro a ha
        exact Nat.lt_succ_of_lt (hothers a ha)
  | dropped hmem hdesk hout =>
    obtain ⟨hring, _, _, _, hnext⟩ := Engine.desk_eq_iff.mp hdesk
    have haddrs : s'.eng.addrs = s.eng.addrs := by rw [Engine.addrs, hring, Engine.addrs]
    have hperm := perm_erase hmem s.eng.addrs
    rw [hout, haddrs, hnext]
    simp only [hperm.nodup_iff, hperm.mem_iff] at hnodup hfresh
    exact ⟨(List.nodup_cons.mp hnodup).2, (List.forall_mem_cons.mp hfresh).2⟩
  | @putBack q hcall hmem hring _ _ _ hnext hout =>
    have haddrs : s'.eng.addrs = q.msg.addr :: s.eng.addrs := by
      rw [Engine.addrs, hring, List.map_cons, Engine.addrs]
    have hperm := perm_erase hmem s.eng.addrs
    rw [hout, haddrs, hnext, List.cons_append]
    simp only [hperm.nodup_iff, hperm.mem_iff] at hnodup hfresh
    exact ⟨hnodup, hfresh⟩

theorem Moved.last_lt (h : Moved call s s' hand) (hlast : ∀ a, s.last = some a → a < s.eng.nextAddr)
    (hfresh : ∀ a ∈ s'.eng.addrs ++ s'.out.map Msg.addr, a < s'.eng.nextAddr) :
    ∀ a, s'.last = some a → a < s'.eng.nextAddr := by
  intro a ha
  cases h with
  | grown hgrows _ hsame => exact Nat.lt_of_lt_of_le (hlast a (hsame.symm.trans ha)) hgrows.next
  | @taken e q m rest _ _ _ _ hout hnew =>
    obtain rfl := Option.some.inj (hnew.symm.trans ha)
    apply hfresh
    rw [hout, List.map_cons]
    exact List.mem_append_right _ List.mem_cons_self
  | dropped _ _ _ hnone => cases hnone.symm.trans ha
  | putBack _ _ _ _ _ _ _ _ hnone => cases hnone.symm.trans ha

theorem Sound.moved (h : s.Sound) (hmoved : Moved call s s' hand) (htidy : s'.eng.Tidy)
    (hcontexts : s'.eng.ctx.length ≤ CONTEXTS_MAX) : s'.Sound := by
  obtain ⟨hnodup, hfresh⟩ := hmoved.addrs h.nodup h.fresh
  suffices hdates : (∀ q ∈ s'.eng.ring.toList, q.stampAt ≠ 0 → Undated q.msg q.stampAt) ∧
      ∀ m ∈ s'.out, s'.eng.unstamped = some m.addr → Undated m s'.eng.unstampedAt from
    ⟨htidy, hcontexts, hdates.1, hdates.2, hnodup, hfresh, hmoved.last_lt h.last hfresh⟩
  cases hmoved with
  | grown hgrows hout =>
    refine ⟨hgrows.undated h.undated, ?_⟩
    rw [hout, hgrows.unstamped, hgrows.unstampedAt]
    exact h.mark
  | @taken e q m rest hgrows hring hrest hhanded hout =>
    have hlater := hgrows.undated h.undated
    rw [hring] at hlater
    obtain ⟨hhead, htail⟩ := List.forall_mem_cons.mp hlater
    rw [hrest]
    refine ⟨htail, ?_⟩
    cases hhanded with
    | dated _ hunstamped =>
      rw [hunstamped]
      nofun
    | undated hat _ hunstamped hunstampedAt =>
      rw [hunstamped, hunstampedAt, hout]
      intro m hm haddr
      rw [hout] at hnodup
      have hsame : m = q.msg :=
        List.inj_on_of_nodup_map (List.nodup_append.mp hnodup).2.1 hm List.mem_cons_self
          (Option.some.inj haddr).symm
      rw [hsame]
      exact hhead hat
    | stamped iso _ _ hunstamped =>
      rw [hunstamped]
      nofun
  | dropped hmem hdesk hout =>
    obtain ⟨hring, hunstamped, hat, _, _⟩ := Engine.desk_eq_iff.mp hdesk
    rw [hring, hunstamped, hat, hout]
    exact ⟨h.undated, fun m hm => h.mark m (List.mem_of_mem_erase hm)⟩
  | @putBack q hcall hmem hring hmark hplain hunstamped _ _ =>
    rw [hring, hunstamped]
    refine ⟨List.forall_mem_cons.mpr ⟨?_, h.undated⟩, nofun⟩
    intro hat
    by_cases hknown : s.eng.unstamped = some q.msg.addr
    · rw [(hmark hknown).1]
      exact h.mark q.msg hmem hknown
    · exact absurd (hplain hknown) hat

theorem sound_step (K : Kconfig) (s : Sender maxMsgs) (call : Env × Op) (h : s.Sound)
    (howned : s.Owned call) : (s.step K call).Sound :=
  h.moved (moved_step h K call howned) (tidy_step K s.eng call h.tidy)
    (Engine.length_ctx_step K s.eng call h.contexts)

end Sender

end Espos.Sk.Delta
