import Espos.Wifi.Invariant

-- Every round tries every network: the networks handed to the driver, and where
-- the backoffs stand among them.

namespace Espos.Wifi

open Espos.Run

variable {port : Port} {ev : Event} {sm sm' sm'' : Machine} {cfg : Cfg} {l : List Net}

attribute [local simp] setState setPortal setPortalDue setInFlight setNetIndex setReason lost
  clearLink countDisconnect setDisconnectedSince setCfg

def Call.net? : Call → Option Net
  | .connect net _ => some net
  | .disconnect | .portalStart _ | .portalStop | .armTimer _ | .cancelTimer | .statusChanged => none

-- The networks the driver was called with, in order.
def tried (sm : Machine) : List Net :=
  sm.calls.reverse.filterMap Call.net?

-- Where the next attempt is made, once the one under way or the connection that
-- is up has ended.
def nextIndex (sm : Machine) : Nat :=
  match sm.st.state with
  | .connecting | .obtainingIp => sm.st.netIndex.toNat + 1
  | .connected => sm.st.netIndex.toNat
  | .backoff | .disabled | .unconfigured => 0

section Frame

theorem tried_called {c : Call} (hc : c.net? = none) (h : sm'.calls = c :: sm.calls) :
    tried sm' = tried sm := by
  simp [tried, h, hc]

theorem tried_congr (h : sm'.calls = sm.calls) : tried sm' = tried sm := by
  rw [tried, h, tried]

-- The networks go on as they do.
structure Kept (sm sm' : Machine) : Prop where
  cfg : sm'.cfg = sm.cfg
  netIndex : sm'.st.netIndex = sm.st.netIndex
  tried : tried sm' = tried sm

structure Quiet (sm sm' : Machine) : Prop extends Kept sm sm' where
  state : sm'.st.state = sm.st.state

theorem Kept.trans (h : Kept sm sm') (h' : Kept sm' sm'') : Kept sm sm'' :=
  ⟨h'.cfg.trans h.cfg, h'.netIndex.trans h.netIndex, h'.tried.trans h.tried⟩

theorem Quiet.trans (h : Quiet sm sm') (h' : Quiet sm' sm'') : Quiet sm sm'' :=
  ⟨h.toKept.trans h'.toKept, h'.state.trans h.state⟩

theorem Quiet.refl (sm : Machine) : Quiet sm sm :=
  ⟨⟨rfl, rfl, rfl⟩, rfl⟩

theorem quiet_policy : Quiet sm (portalPolicy port sm) := by
  refine ⟨⟨portalPolicy_cfg port sm, portalPolicy_netIndex port sm, ?_⟩,
    portalPolicy_state port sm⟩
  have hpolicy : PortalStep port sm (portalPolicy port sm) := portalStep_policy
  cases hpolicy with
  | same _ hcalls => exact tried_congr hcalls
  | start up _ _ _ _ hcalls => exact tried_called rfl hcalls
  | stop _ _ hcalls => exact tried_called rfl hcalls

theorem quiet_portalDown : Quiet sm (portalDown sm) := by
  unfold portalDown
  split_ifs
  · exact ⟨⟨rfl, rfl, tried_called (c := .portalStop) rfl rfl⟩, rfl⟩
  · exact ⟨⟨rfl, rfl, tried_congr rfl⟩, rfl⟩

theorem quiet_call {c : Call} (hc : c.net? = none) : Quiet sm (call sm c) :=
  ⟨⟨rfl, rfl, tried_called hc rfl⟩, rfl⟩

theorem quiet_notify : Quiet sm (notify sm) :=
  quiet_call rfl

theorem quiet_arm {ms : UInt32} {isDhcp : Bool} : Quiet sm (arm port sm ms isDhcp) :=
  ⟨⟨rfl, rfl, tried_called (c := .armTimer _) rfl rfl⟩, rfl⟩

theorem quiet_rearmState : Quiet sm (rearmState port sm) := by
  unfold rearmState
  split_ifs
  · exact .refl sm
  · exact ⟨⟨rfl, rfl, tried_called (c := .armTimer _) rfl rfl⟩, rfl⟩

theorem quiet_armPortalOnly : Quiet sm (armPortalOnly port sm) := by
  unfold armPortalOnly
  split_ifs
  · exact ⟨⟨rfl, rfl, tried_called (c := .armTimer _) rfl rfl⟩, rfl⟩
  · exact ⟨⟨rfl, rfl, tried_called (c := .cancelTimer) rfl rfl⟩, rfl⟩

theorem quiet_rearmAfterPolicy : Quiet sm (rearmAfterPolicy port sm) := by
  unfold rearmAfterPolicy
  split_ifs
  · exact quiet_rearmState
  · exact quiet_armPortalOnly

theorem quiet_reevaluate : Quiet sm (reevaluate port sm) := by
  unfold reevaluate
  split_ifs
  · exact .refl sm
  · exact (quiet_policy.trans quiet_rearmAfterPolicy).trans quiet_notify

-- What an event ends with that leads to a state with a timeout.
theorem Kept.settled (h : Kept sm sm') {ms : UInt32} {isDhcp : Bool} :
    Kept sm (notify (arm port (portalPolicy port sm') ms isDhcp)) :=
  h.trans ((quiet_policy.trans quiet_arm).trans quiet_notify).toKept

theorem quiet_goIdle {s : State} {reason : Int} : Quiet (setState (setInFlight (clearLink
    (setDisconnectedSince port (setNetIndex (setReason (dropStation sm) reason) (-1)))) false) s)
    (goIdle port sm s reason) :=
  (quiet_policy.trans quiet_armPortalOnly).trans quiet_notify

theorem state_goIdle {s : State} {reason : Int} : (goIdle port sm s reason).st.state = s :=
  quiet_goIdle.state

theorem kept_goIdle {s : State} {reason : Int} (h : sm.st.state = .disabled) :
    (goIdle port sm s reason).cfg = sm.cfg ∧ tried (goIdle port sm s reason) = tried sm := by
  have hdrop : dropStation sm = sm := by simp [dropStation, h, State.associating]
  refine ⟨quiet_goIdle.cfg.trans ?_, quiet_goIdle.tried.trans ?_⟩
  · rw [hdrop]
    rfl
  · rw [hdrop]
    exact tried_congr rfl

end Frame

section Chain

-- How a chain of attempts over these networks ends.
inductive Ends (cfg : Cfg) (l : List Net) (sm : Machine) : Prop where
  | attempting (hcfg : sm.cfg = cfg) (hstate : sm.st.state = .connecting)
      (hvalid : indexValid cfg sm.st.netIndex = true)
      (hl : l = tried sm ++ cfg.used.drop (sm.st.netIndex.toNat + 1))
  | backedOff (hcfg : sm.cfg = cfg) (hstate : sm.st.state = .backoff)
      (hindex : sm.st.netIndex = 0) (hl : l = tried sm)

-- What is still to be tried from here.
structure Onward (cfg : Cfg) (l : List Net) (sm : Machine) : Prop where
  rest : l = tried sm ++ cfg.used.drop (beginAttempt sm).st.netIndex.toNat
  cfg : sm.cfg = cfg

theorem drop_used {i : Int} (h : indexValid cfg i = true) :
    cfg.used.drop i.toNat = cfg.nets.getD i.toNat .zero :: cfg.used.drop (i.toNat + 1) := by
  simp only [indexValid, Bool.and_eq_true, decide_eq_true_eq] at h
  have hlt : i.toNat < cfg.netCount := by omega
  have hused : i.toNat < cfg.used.length := by
    rw [Cfg.used, List.length_take]
    have hle := cfg.netCount_le
    omega
  rw [List.drop_eq_getElem_cons hused]
  simp [Cfg.used, List.getD_eq_getElem?_getD, List.getElem?_eq_getElem
    (Nat.lt_of_lt_of_le hlt cfg.netCount_le)]

theorem drop_used_eq_nil {i : Nat} (h : cfg.netCount ≤ i) : cfg.used.drop i = [] := by
  apply List.drop_eq_nil_of_le
  rw [Cfg.used, List.length_take]
  omega

theorem used_ne_nil (h : cfg.netCount ≠ 0) : cfg.used ≠ [] := by
  have hle := cfg.netCount_le
  apply List.ne_nil_of_length_pos
  rw [Cfg.used, List.length_take]
  omega

theorem tried_issueConnect :
    tried (issueConnect port sm) = tried sm ++ [currentNet sm] := by
  simp [tried, issueConnect, call, Call.net?]

theorem tried_refuseConnect : tried (refuseConnect port (beginAttempt sm)) =
    tried sm ++ [sm.cfg.nets.getD (beginAttempt sm).st.netIndex.toNat .zero] := by
  have hcongr : tried (refuseConnect port (beginAttempt sm)) =
      tried (issueConnect port (beginAttempt sm)) := tried_congr rfl
  have hbegin : tried (beginAttempt sm) = tried sm := tried_congr (beginAttempt_calls sm)
  rw [hcongr, tried_issueConnect, hbegin, currentNet, beginAttempt_cfg]

theorem Onward.cons (h : Onward cfg l sm) (hcount : sm.cfg.netCount ≠ 0) :
    l = tried sm ++ cfg.nets.getD (beginAttempt sm).st.netIndex.toNat .zero ::
      cfg.used.drop ((beginAttempt sm).st.netIndex.toNat + 1) := by
  have hindex := beginAttempt_netIndex hcount
  rw [h.cfg] at hindex
  have hvalid : indexValid cfg (beginAttempt sm).st.netIndex = true := by
    simp [indexValid, hindex]
  rw [h.rest, drop_used hvalid]

theorem ends_associate (h : Onward cfg l sm) (hcount : sm.cfg.netCount ≠ 0) :
    Ends cfg l (associate port (issueConnect port (beginAttempt sm))) := by
  have hquiet : Quiet (setInFlight (issueConnect port (beginAttempt sm)) true)
      (associate port (issueConnect port (beginAttempt sm))) :=
    (quiet_policy.trans quiet_arm).trans quiet_notify
  have hindex := beginAttempt_netIndex hcount
  have hbegin : tried (beginAttempt sm) = tried sm := tried_congr (beginAttempt_calls sm)
  have hnext : (associate port (issueConnect port (beginAttempt sm))).st.netIndex =
      (beginAttempt sm).st.netIndex := hquiet.netIndex
  refine .attempting ?_ ?_ ?_ ?_
  · rw [hquiet.cfg, ← h.cfg]
    exact beginAttempt_cfg sm
  · rw [hquiet.state]
    exact beginAttempt_state sm
  · rw [hnext, ← h.cfg]
    simp [indexValid, hindex]
  · have htried : tried (setInFlight (issueConnect port (beginAttempt sm)) true) =
        tried (issueConnect port (beginAttempt sm)) := tried_congr rfl
    rw [hnext, hquiet.tried, htried, tried_issueConnect, hbegin, h.cons hcount, currentNet,
      beginAttempt_cfg, h.cfg, List.append_assoc]
    rfl

theorem ends_backOff (hcfg : sm.cfg = cfg) (hl : l = tried sm) : Ends cfg l (backOff port sm) := by
  unfold backOff
  dsimp only
  have hquiet : ∀ (sm : Machine) (ms : UInt32),
      Quiet sm (notify (arm port (portalPolicy port sm) ms false)) :=
    fun _ _ => (quiet_policy.trans quiet_arm).trans quiet_notify
  refine .backedOff ?_ ?_ ?_ ?_
  · rw [(hquiet _ _).cfg, ← hcfg]
  · rw [(hquiet _ _).state]
  · rw [(hquiet _ _).netIndex]
  · rw [(hquiet _ _).tried, hl]
    exact (tried_congr rfl).symm

theorem quiet_nextNet : tried (nextNet port sm) = tried sm ∧ (nextNet port sm).cfg = sm.cfg := by
  unfold nextNet
  rw [quiet_policy.tried, quiet_policy.cfg]
  exact ⟨tried_congr rfl, rfl⟩

theorem ends_startAttempt (h : Onward cfg l sm) (hcount : sm.cfg.netCount ≠ 0) :
    Ends cfg l (startAttempt port sm) := by
  refine startAttempt_rule (R := fun sm => Onward cfg l sm ∧ sm.cfg.netCount ≠ 0)
    ?_ ?_ ?_ ?_ ⟨h, hcount⟩
  · rintro sm ⟨-, hcount⟩ hzero
    exact absurd hzero hcount
  · rintro sm ⟨h, -⟩ hcount -
    exact ends_associate h hcount
  · rintro sm ⟨h, -⟩ hcount - hlast
    have hindex := beginAttempt_netIndex hcount
    refine ends_backOff ?_ ?_
    · rw [← h.cfg]
      exact beginAttempt_cfg sm
    · rw [h.cons hcount, tried_refuseConnect, h.cfg, drop_used_eq_nil]
      rw [← h.cfg]
      omega
  · rintro sm ⟨h, -⟩ hcount - hlt
    have hindex := beginAttempt_netIndex hcount
    obtain ⟨htried, hcfg⟩ := @quiet_nextNet port (refuseConnect port (beginAttempt sm))
    have hsame : (nextNet port (refuseConnect port (beginAttempt sm))).cfg = sm.cfg :=
      hcfg.trans (beginAttempt_cfg sm)
    refine ⟨⟨?_, hsame.trans h.cfg⟩, by rwa [hsame]⟩
    rw [beginAttempt_nextNet hindex.1 hlt, htried, tried_refuseConnect, h.cons hcount, h.cfg,
      Int.toNat_add hindex.1 (by decide), List.append_assoc]
    rfl

end Chain

section Moves

-- The network in use is one of the list, and a round begins with the first.
structure Indexed (sm : Machine) : Prop where
  valid : sm.st.state.associating = true → indexValid sm.cfg sm.st.netIndex = true
  first : sm.st.state = .backoff → sm.st.netIndex = 0

-- What an event does to a round.
inductive Moved (ev : Event) (sm sm' : Machine) : Prop where
  | still (h : Quiet sm sm')
  | associated (h : Kept sm sm') (hfrom : sm.st.state = .connecting)
      (hto : sm'.st.state = .obtainingIp)
  | addressed (h : Kept sm sm') (hfrom : sm.st.state = .obtainingIp ∨ sm.st.state = .connected)
      (hto : sm'.st.state = .connected)
  | lostIp (hev : ev = .lostIp) (h : Kept sm sm') (hfrom : sm.st.state = .connected)
      (hto : sm'.st.state = .obtainingIp)
  | idles (hcfg : sm'.cfg = sm.cfg) (hfrom : sm.st.state = .disabled)
      (htried : tried sm' = tried sm) (hto : sm'.st.state.trying = false)
  | tries (h : Ends sm.cfg (tried sm ++ sm.cfg.used.drop (nextIndex sm)) sm')

theorem Quiet.indexed (h : Quiet sm sm') (hindexed : Indexed sm) : Indexed sm' := by
  refine ⟨?_, ?_⟩
  · rw [h.state, h.cfg, h.netIndex]
    exact hindexed.valid
  · rw [h.state, h.netIndex]
    exact hindexed.first

theorem Quiet.nextIndex (h : Quiet sm sm') : nextIndex sm' = nextIndex sm := by
  rw [Wifi.nextIndex, Wifi.nextIndex, h.state, h.netIndex]

theorem Ends.quiet (h : Ends cfg l sm) (hquiet : Quiet sm sm') : Ends cfg l sm' := by
  cases h with
  | attempting hcfg hstate hvalid hl =>
    refine .attempting (hquiet.cfg.trans hcfg) (hquiet.state.trans hstate) ?_ ?_
    · rwa [hquiet.netIndex]
    · rwa [hquiet.tried, hquiet.netIndex]
  | backedOff hcfg hstate hindex hl =>
    refine .backedOff (hquiet.cfg.trans hcfg) (hquiet.state.trans hstate)
      (hquiet.netIndex.trans hindex) ?_
    rwa [hquiet.tried]

theorem Ends.indexed (h : Ends cfg l sm) : Indexed sm := by
  cases h with
  | attempting hcfg hstate hvalid _ =>
    refine ⟨fun _ => by rw [hcfg, hvalid], fun hback => ?_⟩
    rw [hstate] at hback
    cases hback
  | backedOff _ hstate hindex _ =>
    refine ⟨fun hassociating => ?_, fun _ => hindex⟩
    rw [hstate] at hassociating
    cases hassociating

theorem indexed_of_idle (h : sm.st.state.trying = false) : Indexed sm := by
  refine ⟨fun hassociating => ?_, fun hback => ?_⟩
  · rw [State.trying_of_associating hassociating] at h
    cases h
  · rw [hback] at h
    cases h

theorem Moved.indexed (h : Moved ev sm sm') (hindexed : Indexed sm) : Indexed sm' := by
  have hkept : ∀ {s : State}, Kept sm sm' → sm.st.state.associating = true → sm'.st.state = s →
      s ≠ .backoff → Indexed sm' := by
    intro s h hfrom hto hback
    refine ⟨fun _ => ?_, fun hstate => absurd (hto.symm.trans hstate) hback⟩
    rw [h.cfg, h.netIndex]
    exact hindexed.valid hfrom
  cases h with
  | still h => exact h.indexed hindexed
  | associated h hfrom hto => exact hkept h (by rw [hfrom]; rfl) hto (by decide)
  | addressed h hfrom hto =>
    refine hkept h ?_ hto (by decide)
    rcases hfrom with hfrom | hfrom
    · rw [hfrom]
      rfl
    · rw [hfrom]
      rfl
  | lostIp _ h hfrom hto => exact hkept h (by rw [hfrom]; rfl) hto (by decide)
  | idles _ _ _ hto => exact indexed_of_idle hto
  | tries h => exact h.indexed

theorem Ends.same_cfg (h : Ends cfg l sm) : sm.cfg = cfg := by
  cases h with
  | attempting hcfg => exact hcfg
  | backedOff hcfg => exact hcfg

theorem Moved.same_cfg (h : Moved ev sm sm') : sm'.cfg = sm.cfg := by
  cases h with
  | still h => exact h.cfg
  | associated h => exact h.cfg
  | addressed h => exact h.cfg
  | lostIp _ h => exact h.cfg
  | idles hcfg => exact hcfg
  | tries h => exact h.same_cfg

-- An attempt that follows another one, or the end of a connection.
theorem ends_attemptFailed {reason : Int} (h : Indexed sm)
    (hstate : sm.st.state.associating = true) (hcount : sm.cfg.netCount ≠ 0) :
    Ends sm.cfg (tried sm ++ sm.cfg.used.drop (nextIndex sm))
      (attemptFailed port sm (startAttempt port) reason) := by
  have hvalid := h.valid hstate
  have hrange := hvalid
  simp only [indexValid, Bool.and_eq_true, decide_eq_true_eq] at hrange
  have hstays : (lost sm reason).st.state = sm.st.state := rfl
  have hvalidLost : ∀ i, indexValid (lost sm reason).cfg i = indexValid sm.cfg i := fun _ => rfl
  have hindexLost : (lost sm reason).st.netIndex = sm.st.netIndex := rfl
  unfold attemptFailed
  dsimp only
  rw [hstays, hvalidLost, hindexLost]
  by_cases hconn : sm.st.state = .connected
  · rw [if_pos hconn]
    refine ends_startAttempt ⟨?_, rfl⟩ hcount
    have hnext : nextIndex sm = sm.st.netIndex.toNat := by simp [nextIndex, hconn]
    have hbegin : (beginAttempt (setDisconnectedSince port
        (countDisconnect (lost sm reason)))).st.netIndex = sm.st.netIndex :=
      beginAttempt_of_valid hvalid
    rw [hbegin, hnext]
    rfl
  · rw [if_neg hconn]
    have hnext : nextIndex sm = sm.st.netIndex.toNat + 1 := by
      cases hs : sm.st.state <;> simp_all [nextIndex, State.associating]
    by_cases hmore : indexValid sm.cfg (sm.st.netIndex + 1) = true
    · obtain ⟨htried, hcfg⟩ := @quiet_nextNet port (lost sm reason)
      have hbegin : (beginAttempt (nextNet port (lost sm reason))).st.netIndex =
          sm.st.netIndex + 1 := by
        have hindex : (nextNet port (lost sm reason)).st.netIndex = sm.st.netIndex + 1 :=
          quiet_policy.netIndex
        rw [beginAttempt_of_valid, hindex]
        rw [hindex, hcfg]
        exact hmore
      rw [if_pos hmore]
      refine ends_startAttempt ⟨?_, hcfg⟩ (by rw [hcfg]; exact hcount)
      rw [hbegin, htried, hnext, Int.toNat_add hrange.1 (by decide)]
      rfl
    · rw [if_neg hmore]
      refine ends_backOff rfl ?_
      simp only [indexValid, Bool.and_eq_true, decide_eq_true_eq] at hmore
      rw [hnext, drop_used_eq_nil (by omega), List.append_nil]
      rfl

theorem ends_afresh (hbegin : sm.st.netIndex = 0) (hcount : sm.cfg.netCount ≠ 0) :
    Ends sm.cfg (tried sm ++ sm.cfg.used) (startAttempt port sm) := by
  refine ends_startAttempt ⟨?_, rfl⟩ hcount
  rw [beginAttempt_of_valid, hbegin]
  · rfl
  · simp [indexValid, hbegin]
    omega

theorem startAttempt_of_empty (h : sm.cfg.netCount = 0) :
    startAttempt port sm = unconfigure port sm := by
  rw [startAttempt, h, attempts, attempt, if_pos h]

theorem quiet_unconfigure : (unconfigure port sm).cfg = sm.cfg ∧
    tried (unconfigure port sm) = tried sm ∧ (unconfigure port sm).st.state = .unconfigured := by
  have hquiet : ∀ sm : Machine, Quiet sm (notify (armPortalOnly port (portalPolicy port sm))) :=
    fun _ => (quiet_policy.trans quiet_armPortalOnly).trans quiet_notify
  unfold unconfigure
  dsimp only
  rw [(hquiet _).cfg, (hquiet _).tried, (hquiet _).state]
  exact ⟨rfl, tried_congr rfl, rfl⟩

theorem moved_startAttempt (hstate : sm.st.state = .disabled) (hcfg : sm'.cfg = sm.cfg)
    (hindex : sm'.st.netIndex = 0) (htried : tried sm' = tried sm) :
    Moved ev sm (startAttempt port sm') := by
  by_cases hcount : sm'.cfg.netCount = 0
  · rw [startAttempt_of_empty hcount]
    obtain ⟨hsame, hkept, hto⟩ := @quiet_unconfigure port sm'
    refine .idles (hsame.trans hcfg) hstate (hkept.trans htried) ?_
    rw [hto]
    rfl
  · have hnext : nextIndex sm = 0 := by simp [nextIndex, hstate]
    have hends : Ends sm'.cfg (tried sm' ++ sm'.cfg.used) (startAttempt port sm') :=
      ends_afresh hindex hcount
    rw [hcfg, htried] at hends
    refine .tries ?_
    rw [hnext]
    exact hends

theorem moved_onStart (h : Sound sm) : Moved ev sm (onStart port sm) := by
  unfold onStart
  by_cases hstarted : sm.started = true
  · rw [if_pos hstarted]
    exact .still (.refl sm)
  rw [if_neg hstarted]
  have hstate := (h.stopped (by simpa using hstarted)).1
  dsimp only
  by_cases henabled : sm.cfg.staEnabled = true
  · rw [if_neg (by simp [henabled])]
    exact moved_startAttempt hstate rfl rfl (tried_congr rfl)
  · rw [if_pos (by simp [henabled])]
    refine .idles ?_ hstate ?_ ?_
    · exact Eq.trans (kept_goIdle (by exact hstate)).1 rfl
    · exact Eq.trans (kept_goIdle (by exact hstate)).2 (tried_congr rfl)
    · rw [state_goIdle]
      rfl

theorem moved_onStaConnected {link : Option Link} : Moved ev sm (onStaConnected port sm link) := by
  unfold onStaConnected
  by_cases hstate : sm.st.state ≠ .connecting
  · rw [if_pos hstate]
    exact .still (.refl sm)
  · rw [if_neg hstate]
    dsimp only
    refine .associated ?_ (not_not.mp hstate) ?_
    · refine Kept.settled ?_
      exact ⟨rfl, rfl, tried_congr rfl⟩
    · rw [quiet_notify.state, quiet_arm.state, quiet_policy.state]
      rfl

theorem moved_onStaDisconnected {reason : Int} (h : Sound sm) (hindexed : Indexed sm) :
    Moved ev sm (onStaDisconnected port sm (startAttempt port) reason) := by
  unfold onStaDisconnected
  by_cases hstate : sm.st.state.associating = true
  · rw [if_pos hstate]
    exact .tries (ends_attemptFailed hindexed hstate
      (h.trying (State.trying_of_associating hstate)).2)
  · rw [if_neg hstate]
    exact .still (.refl sm)

theorem firstIp_kept (port : Port) (sm : Machine) : Kept sm (firstIp port sm) := by
  unfold firstIp
  split_ifs <;> exact ⟨rfl, rfl, tried_congr rfl⟩

theorem moved_onGotIp {ip : Option Ip} : Moved ev sm (onGotIp port sm ip) := by
  unfold onGotIp
  by_cases hstate : sm.st.state ≠ .obtainingIp ∧ sm.st.state ≠ .connected
  · rw [if_pos hstate]
    exact .still (.refl sm)
  · rw [if_neg hstate]
    dsimp only
    have hkept := firstIp_kept port { sm with st := { sm.st with ip := ip.getD sm.st.ip } }
    generalize firstIp port { sm with st := { sm.st with ip := ip.getD sm.st.ip } } = first at hkept
    have hfirst : Kept sm first := ⟨hkept.cfg, hkept.netIndex, hkept.tried⟩
    refine .addressed ?_ (by tauto) ?_
    · refine hfirst.trans (Kept.trans ?_ (quiet_policy.trans quiet_notify).toKept)
      exact ⟨rfl, rfl, tried_called (c := .cancelTimer) rfl rfl⟩
    · rw [quiet_notify.state, quiet_policy.state]
      rfl

theorem moved_onLostIp : Moved .lostIp sm (onLostIp port sm) := by
  unfold onLostIp
  by_cases hstate : sm.st.state = .connected
  · rw [if_pos hstate]
    dsimp only
    refine .lostIp rfl ?_ hstate ?_
    · refine Kept.settled ?_
      exact ⟨rfl, rfl, tried_congr rfl⟩
    · rw [quiet_notify.state, quiet_arm.state, quiet_policy.state]
      rfl
  · rw [if_neg hstate]
    exact .still (.refl sm)

theorem moved_onPortalTimer (h : Sound sm) (hindexed : Indexed sm) :
    Moved ev sm (onPortalTimer port sm) := by
  have hfire : Quiet sm (firePortalTimer port sm) := by
    refine Quiet.trans ?_ quiet_policy
    exact ⟨⟨rfl, rfl, tried_congr rfl⟩, rfl⟩
  unfold onPortalTimer
  dsimp only
  generalize firePortalTimer port sm = fired at hfire
  have hstill : ∀ {sm' : Machine}, Quiet fired sm' → Moved ev sm (notify sm') :=
    fun hquiet => .still ((hfire.trans hquiet).trans quiet_notify)
  rw [hfire.state]
  cases hs : sm.st.state with
  | backoff =>
    by_cases hleft : backoffRemainingMs port fired = 0
    · have hcount := (h.trying (by rw [hs]; rfl)).2
      have hends : Ends fired.cfg (tried fired ++ fired.cfg.used) (startAttempt port fired) := by
        refine ends_afresh ?_ (by rw [hfire.cfg]; exact hcount)
        rw [hfire.netIndex, hindexed.first hs]
      have hnext : nextIndex sm = 0 := by simp [nextIndex, hs]
      dsimp only
      rw [if_pos hleft]
      rw [hfire.cfg, hfire.tried] at hends
      refine .tries ?_
      rw [hnext]
      exact hends.quiet quiet_notify
    · dsimp only
      rw [if_neg hleft]
      exact hstill quiet_rearmState
  | connecting => exact hstill quiet_rearmState
  | obtainingIp => exact hstill quiet_rearmState
  | disabled => exact hstill quiet_armPortalOnly
  | unconfigured => exact hstill quiet_armPortalOnly
  | connected => exact hstill quiet_armPortalOnly

theorem moved_onStateTimer (h : Sound sm) (hindexed : Indexed sm) :
    Moved ev sm (onStateTimer port sm) := by
  have hfire : ∀ {sm' : Machine}, sm' = { sm with timerDueMs := 0, stateDueMs := 0 } →
      Quiet sm sm' := by
    rintro sm' rfl
    exact ⟨⟨rfl, rfl, tried_congr rfl⟩, rfl⟩
  unfold onStateTimer
  dsimp only
  generalize hfired : { sm with timerDueMs := 0, stateDueMs := 0 } = fired
  have hquiet := hfire hfired.symm
  have hfails : ∀ reason, sm.st.state.associating = true →
      Moved ev sm (attemptFailed port (call fired .disconnect) (startAttempt port) reason) := by
    intro reason hstate
    have hgone : Quiet sm (call fired .disconnect) := hquiet.trans (quiet_call rfl)
    have hends := @ends_attemptFailed port (call fired .disconnect) reason (hgone.indexed hindexed)
      (by rw [hgone.state]; exact hstate)
      (by rw [hgone.cfg]; exact (h.trying (State.trying_of_associating hstate)).2)
    rw [hgone.cfg, hgone.tried, hgone.nextIndex] at hends
    exact .tries hends
  rw [← hquiet.state]
  cases hs : fired.st.state with
  | backoff =>
    have hback : sm.st.state = .backoff := hquiet.state.symm.trans hs
    have hends : Ends fired.cfg (tried fired ++ fired.cfg.used) (startAttempt port fired) := by
      refine ends_afresh ?_ (by rw [hquiet.cfg]; exact (h.trying (by rw [hback]; rfl)).2)
      rw [hquiet.netIndex, hindexed.first hback]
    have hnext : nextIndex sm = 0 := by simp [nextIndex, hback]
    rw [hquiet.cfg, hquiet.tried] at hends
    refine .tries ?_
    rw [hnext]
    exact hends
  | connecting => exact hfails _ (by rw [← hquiet.state, hs]; rfl)
  | obtainingIp => exact hfails _ (by rw [← hquiet.state, hs]; rfl)
  | disabled => exact .still hquiet
  | unconfigured => exact .still hquiet
  | connected => exact .still hquiet

theorem moved_onTimer (h : Sound sm) (hindexed : Indexed sm) : Moved ev sm (onTimer port sm) := by
  unfold onTimer
  split_ifs
  · exact .still (.refl sm)
  · exact .still (.refl sm)
  · exact moved_onPortalTimer h hindexed
  · exact moved_onStateTimer h hindexed

theorem moved_onPortalFailed : Moved ev sm (onPortalFailed port sm) := by
  by_cases hactive : sm.st.portalActive = true
  · rw [onPortalFailed_of_active hactive]
    refine .still (Quiet.trans ?_ (quiet_rearmAfterPolicy.trans quiet_notify))
    exact ⟨⟨rfl, rfl, tried_congr rfl⟩, rfl⟩
  · rw [onPortalFailed, if_neg hactive]
    exact .still (.refl sm)

-- Every event but the two that put an end to the rounds.
theorem moved_event (h : Sound sm) (hindexed : Indexed sm) (hstop : ev ≠ .stop)
    (hconfig : ∀ ncfg, ev = .config ncfg → ncfg = sm.cfg) : Moved ev sm (event port sm ev) := by
  cases ev with
  | start => exact moved_onStart h
  | stop => exact absurd rfl hstop
  | config ncfg =>
    rw [event, onConfig, if_pos (hconfig ncfg rfl)]
    exact .still (.refl sm)
  | staConnected link => exact moved_onStaConnected
  | staDisconnected reason => exact moved_onStaDisconnected h hindexed
  | gotIp ip => exact moved_onGotIp
  | lostIp => exact moved_onLostIp
  | timer => exact moved_onTimer h hindexed
  | portalClient count => exact .still ⟨⟨rfl, rfl, tried_called (c := .statusChanged) rfl rfl⟩, rfl⟩
  | portalFailed => exact moved_onPortalFailed
  | portalReconfig =>
    simp only [event, onPortalReconfig]
    split_ifs
    · exact .still ((quiet_portalDown.trans quiet_policy).trans quiet_notify)
    · exact .still (.refl sm)
  | otherNet up =>
    simp only [event, onOtherNet]
    split_ifs
    · exact .still (.refl sm)
    · refine .still (Quiet.trans ?_ quiet_reevaluate)
      exact ⟨⟨rfl, rfl, tried_congr rfl⟩, rfl⟩
  | portalForce want =>
    simp only [event, onPortalForce]
    cases PortalForce.ofNat? (want.getD 0) with
    | none => exact .still (.refl sm)
    | some want =>
      dsimp only
      split_ifs
      · exact .still (.refl sm)
      · refine .still (Quiet.trans ?_ quiet_reevaluate)
        exact ⟨⟨rfl, rfl, tried_congr rfl⟩, rfl⟩

theorem indexed_startAttempt (h : sm.st.netIndex = 0) : Indexed (startAttempt port sm) := by
  by_cases hcount : sm.cfg.netCount = 0
  · rw [startAttempt_of_empty hcount]
    refine indexed_of_idle ?_
    rw [(@quiet_unconfigure port sm).2.2]
    rfl
  · exact (ends_afresh h hcount).indexed

theorem indexed_onStop (hindexed : Indexed sm) : Indexed (onStop sm) := by
  unfold onStop
  dsimp only
  split_ifs
  · exact hindexed
  all_goals exact indexed_of_idle rfl

theorem indexed_onKnobs {ncfg : Cfg} (hindexed : Indexed sm)
    (hcount : ncfg.netCount = sm.cfg.netCount) : Indexed (onKnobs port sm ncfg) := by
  have hset : Indexed (setCfg sm ncfg) := by
    refine ⟨fun hstate => ?_, hindexed.first⟩
    change indexValid ncfg sm.st.netIndex = true
    rw [indexValid, hcount]
    exact hindexed.valid hstate
  unfold onKnobs
  dsimp only
  split_ifs
  · exact ((quiet_policy.trans quiet_armPortalOnly).trans quiet_notify).indexed hset
  · exact (quiet_policy.trans quiet_notify).indexed hset
  · exact hset

theorem lt_of_stillValid {ncfg : Cfg} {i : Nat} (h : currentNetStillValid sm ncfg = some i) :
    i < ncfg.netCount := by
  unfold currentNetStillValid at h
  split_ifs at h
  obtain ⟨hlt, -⟩ := List.findIdx?_eq_some_iff_getElem.mp h
  rw [Cfg.used, List.length_take] at hlt
  omega

theorem indexed_onConfig {ncfg : Cfg} (h : Sound sm) (hindexed : Indexed sm) :
    Indexed (onConfig port sm ncfg) := by
  unfold onConfig
  by_cases hsame : ncfg = sm.cfg
  · rw [if_pos hsame]
    exact hindexed
  rw [if_neg hsame]
  by_cases hknobs : (netsEqual ncfg sm.cfg && ncfg.staEnabled == sm.cfg.staEnabled) = true
  · rw [if_pos hknobs]
    simp only [Bool.and_eq_true, beq_iff_eq] at hknobs
    exact indexed_onKnobs hindexed (netCount_of_netsEqual hknobs.1)
  rw [if_neg hknobs]
  dsimp only
  by_cases hstarted : sm.started = true
  swap
  · have hstate := (h.stopped (by simpa using hstarted)).1
    rw [if_pos (by simpa using hstarted)]
    refine indexed_of_idle ?_
    simp [hstate, State.trying]
  rw [if_neg (by simpa using hstarted)]
  cases hkeep : keepIndex sm ncfg with
  | some i =>
    simp only [keepIndex] at hkeep
    split_ifs at hkeep with hcan
    have hlt := lt_of_stillValid hkeep
    have hback : sm.st.state ≠ .backoff := by
      intro hstate
      simp [hstate] at hcan
    refine (quiet_policy.trans quiet_notify).indexed ⟨fun _ => ?_, fun hstate => ?_⟩
    · simp [indexValid, hlt]
    · exact absurd hstate hback
  | none =>
    dsimp only
    split_ifs
    · refine indexed_of_idle ?_
      rw [state_goIdle]
      rfl
    · exact indexed_startAttempt rfl

theorem indexed_step (h : Sound sm) (hindexed : Indexed sm) (input : Port × Event) :
    Indexed (step sm input) := by
  obtain ⟨port, ev⟩ := input
  have hforgot : Indexed (forgetCalls sm) := ⟨hindexed.valid, hindexed.first⟩
  by_cases hstop : ev = .stop
  · subst hstop
    exact indexed_onStop hforgot
  by_cases hconfig : ∀ ncfg, ev = .config ncfg → ncfg = sm.cfg
  · exact (moved_event h.forgetCalls hforgot hstop hconfig).indexed hforgot
  · simp only [not_forall] at hconfig
    obtain ⟨ncfg, rfl, -⟩ := hconfig
    exact indexed_onConfig h.forgetCalls hforgot

theorem indexed_run (cfg : Cfg) (inputs : List (Port × Event)) :
    Sound (run step (init cfg) inputs) ∧ Indexed (run step (init cfg) inputs) := by
  refine run_invariant (P := fun sm => Sound sm ∧ Indexed sm) ?_ ⟨sound_init cfg, ?_⟩ inputs
  · rintro sm input ⟨h, hindexed⟩
    exact ⟨sound_step h input, indexed_step h hindexed input⟩
  · exact indexed_of_idle rfl

end Moves

section Log

-- What is seen of a run: the networks the driver was called with, and the
-- backoffs.
inductive Mark where
  | connect (net : Net)
  | backoff
deriving DecidableEq

-- An attempt leaves the backoff, so one that was made in this event and is over
-- again is a new one.
def entersBackoff (before after : Machine) : Bool :=
  after.st.state = .backoff && (before.st.state ≠ .backoff || tried after ≠ [])

def marks (before after : Machine) : List Mark :=
  (tried after).map .connect ++ if entersBackoff before after then [.backoff] else []

def log (sm : Machine) : List (Port × Event) → List Mark
  | [] => []
  | input :: inputs => marks sm (step sm input) ++ log (step sm input) inputs

-- A new configuration, a stop or a success puts an end to the rounds.
def Calm (sm : Machine) (input : Port × Event) : Prop :=
  input.2 ≠ .stop ∧ (∀ ncfg, input.2 = .config ncfg → ncfg = sm.cfg) ∧
    ((step sm input).st.state = .connected → sm.st.state = .connected)

-- Rounds through the networks, of which `l` are left in the first.
inductive Rounds (nets : List Net) : List Net → List Mark → Prop where
  | stop (l : List Net) : Rounds nets l []
  | connect (net : Net) (l : List Net) (marks : List Mark) :
      Rounds nets l marks → Rounds nets (net :: l) (.connect net :: marks)
  | backoff (marks : List Mark) : Rounds nets nets marks → Rounds nets [] (.backoff :: marks)

-- The index the round under way goes on at. A lost address costs the network
-- it was leased from.
def GoesOnAt (sm : Machine) (inputs : List (Port × Event)) (i : Nat) : Prop :=
  i = nextIndex sm ∨ sm.st.state = .connected ∧ (∃ input ∈ inputs, input.2 = .lostIp) ∧
    i = nextIndex sm + 1

variable {nets : List Net} {ms : List Mark}

theorem Rounds.connects (seg : List Net) (h : Rounds nets l ms) :
    Rounds nets (seg ++ l) (seg.map .connect ++ ms) := by
  induction seg with
  | nil => exact h
  | cons net seg ih => exact .connect net _ _ ih

theorem Rounds.segment {seg : List Net} {rest : List Mark}
    (h : Rounds nets l (seg.map .connect ++ .backoff :: rest)) :
    seg = l ∧ Rounds nets nets rest := by
  induction seg generalizing l with
  | nil =>
    cases h with
    | backoff _ h => exact ⟨rfl, h⟩
  | cons net seg ih =>
    cases h with
    | connect _ l _ h =>
      obtain ⟨rfl, hrest⟩ := ih h
      exact ⟨rfl, hrest⟩

theorem Rounds.tail {seg : List Net} (h : Rounds nets l (seg.map .connect)) : seg <+: l := by
  induction seg generalizing l with
  | nil => exact List.nil_prefix
  | cons net seg ih =>
    cases h with
    | connect _ l _ h => exact List.cons_prefix_cons.mpr ⟨rfl, ih h⟩

theorem Rounds.after {pre rest : List Mark} (h : Rounds nets l (pre ++ .backoff :: rest)) :
    Rounds nets nets rest := by
  induction pre generalizing l with
  | nil =>
    cases h with
    | backoff _ h => exact h
  | cons mark pre ih =>
    cases h with
    | connect _ l _ h => exact ih h
    | backoff _ h => exact ih h

theorem marks_of_none (h : tried sm' = [])
    (hback : sm'.st.state = .backoff → sm.st.state = .backoff) : marks sm sm' = [] := by
  have henters : entersBackoff sm sm' = false := by
    by_cases hstate : sm'.st.state = .backoff
    · simp [entersBackoff, h, hback hstate]
    · simp [entersBackoff, hstate]
  rw [marks, h, henters]
  rfl

theorem Calm.moved {input : Port × Event} (h : Calm sm input) (hs : Sound sm)
    (hindexed : Indexed sm) : Moved input.2 (forgetCalls sm) (step sm input) :=
  moved_event hs.forgetCalls ⟨hindexed.valid, hindexed.first⟩ h.1 h.2.1

-- One event of a run, the rounds after it given.
theorem rounds_step {input : Port × Event} {inputs : List (Port × Event)} (h : Sound sm)
    (hindexed : Indexed sm) (hcount : sm.cfg.netCount ≠ 0) (hcalm : Calm sm input) {i : Nat}
    (hat : GoesOnAt (step sm input) inputs i)
    (hrounds : Rounds sm.cfg.used (sm.cfg.used.drop i) ms) :
    ∃ j, GoesOnAt sm (input :: inputs) j ∧
      Rounds sm.cfg.used (sm.cfg.used.drop j) (marks sm (step sm input) ++ ms) := by
  have hmoved := hcalm.moved h hindexed
  -- an event that neither calls the driver nor moves on
  have hwaits : tried (step sm input) = [] →
      ((step sm input).st.state = .backoff → sm.st.state = .backoff) →
      GoesOnAt sm (input :: inputs) i → ∃ j, GoesOnAt sm (input :: inputs) j ∧
        Rounds sm.cfg.used (sm.cfg.used.drop j) (marks sm (step sm input) ++ ms) := by
    intro htried hback hgoes
    rw [marks_of_none htried hback]
    exact ⟨i, hgoes, hrounds⟩
  cases hmoved with
  | still hquiet =>
    refine hwaits hquiet.tried (fun hback => hquiet.state.symm.trans hback) ?_
    have hnext : nextIndex (step sm input) = nextIndex sm := hquiet.nextIndex
    have hstate : (step sm input).st.state = sm.st.state := hquiet.state
    rcases hat with hat | ⟨hconn, ⟨later, hmem, hlost⟩, hat⟩
    · exact .inl (hat.trans hnext)
    · exact .inr ⟨hstate.symm.trans hconn, ⟨later, List.mem_cons_of_mem _ hmem, hlost⟩,
        by rw [hat, hnext]⟩
  | associated hkept hfrom hto =>
    have hfrom : sm.st.state = .connecting := hfrom
    have hindex : (step sm input).st.netIndex = sm.st.netIndex := hkept.netIndex
    refine hwaits hkept.tried (by simp [hto]) ?_
    rcases hat with hat | ⟨hconn, -⟩
    · left
      simpa [nextIndex, hto, hfrom, hindex] using hat
    · cases hto.symm.trans hconn
  | addressed hkept _ hto =>
    have hfrom : sm.st.state = .connected := hcalm.2.2 hto
    have hindex : (step sm input).st.netIndex = sm.st.netIndex := hkept.netIndex
    have hnext : nextIndex (step sm input) = nextIndex sm := by
      simp [nextIndex, hto, hfrom, hindex]
    refine hwaits hkept.tried (by simp [hto]) ?_
    rcases hat with hat | ⟨-, ⟨later, hmem, hlost⟩, hat⟩
    · exact .inl (hat.trans hnext)
    · exact .inr ⟨hfrom, ⟨later, List.mem_cons_of_mem _ hmem, hlost⟩, by rw [hat, hnext]⟩
  | lostIp hev hkept hfrom hto =>
    have hfrom : sm.st.state = .connected := hfrom
    have hindex : (step sm input).st.netIndex = sm.st.netIndex := hkept.netIndex
    refine hwaits hkept.tried (by simp [hto]) ?_
    rcases hat with hat | ⟨hconn, -⟩
    · right
      refine ⟨hfrom, ⟨input, List.mem_cons_self, hev⟩, ?_⟩
      simpa [nextIndex, hto, hfrom, hindex] using hat
    · cases hto.symm.trans hconn
  | idles _ hfrom htried hto =>
    have hfrom : sm.st.state = .disabled := hfrom
    refine hwaits htried (fun hback => ?_) ?_
    · rw [hback] at hto
      cases hto
    · left
      rcases hat with hat | ⟨hconn, -⟩
      · cases hs : (step sm input).st.state <;> simp_all [nextIndex, State.trying]
      · rw [hconn] at hto
        cases hto
  | tries hends =>
    cases hends with
    | attempting hcfg hstate hvalid hl =>
      refine ⟨nextIndex sm, .inl rfl, ?_⟩
      have hi : i = (step sm input).st.netIndex.toNat + 1 := by
        rcases hat with hat | ⟨hconn, -⟩
        · simpa [nextIndex, hstate] using hat
        · cases hstate.symm.trans hconn
      have henters : entersBackoff sm (step sm input) = false := by
        simp [entersBackoff, hstate]
      have hrest : sm.cfg.used.drop (nextIndex sm) =
          tried (step sm input) ++ sm.cfg.used.drop i := by
        rw [hi]
        exact hl
      rw [marks, henters, hrest]
      simpa using hrounds.connects (tried (step sm input))
    | backedOff hcfg hstate hindex hl =>
      refine ⟨nextIndex sm, .inl rfl, ?_⟩
      have hi : i = 0 := by
        rcases hat with hat | ⟨hconn, -⟩
        · simpa [nextIndex, hstate] using hat
        · cases hstate.symm.trans hconn
      have hrest : sm.cfg.used.drop (nextIndex sm) = tried (step sm input) := hl
      have henters : entersBackoff sm (step sm input) = true := by
        by_cases hback : sm.st.state = .backoff
        · have hnext : nextIndex sm = 0 := by simp [nextIndex, hback]
          have hne : tried (step sm input) ≠ [] := by
            rw [← hrest, hnext, List.drop_zero]
            exact used_ne_nil hcount
          simp [entersBackoff, hstate, hne]
        · simp [entersBackoff, hstate, hback]
      rw [hi, List.drop_zero] at hrounds
      rw [marks, henters, hrest, List.append_assoc]
      simpa using (Rounds.backoff ms hrounds).connects (tried (step sm input))

theorem rounds_run (h : Sound sm) (hindexed : Indexed sm) (hcount : sm.cfg.netCount ≠ 0)
    {inputs : List (Port × Event)} (hcalm : Along step Calm sm inputs) :
    ∃ i, GoesOnAt sm inputs i ∧ Rounds sm.cfg.used (sm.cfg.used.drop i) (log sm inputs) := by
  induction inputs generalizing sm with
  | nil => exact ⟨nextIndex sm, .inl rfl, .stop _⟩
  | cons input inputs ih =>
    have hcfg : (step sm input).cfg = sm.cfg := (hcalm.1.moved h hindexed).same_cfg
    obtain ⟨i, hat, hrounds⟩ := ih (sound_step h input) (indexed_step h hindexed input)
      (by rwa [hcfg]) hcalm.2
    rw [hcfg] at hrounds
    exact rounds_step h hindexed hcount hcalm.1 hat hrounds

end Log

section Recursion

theorem attempt_congr {again again' : Machine → Machine}
    (h : sm.cfg.netCount ≠ 0 → (beginAttempt sm).st.netIndex + 1 < sm.cfg.netCount →
      again (nextNet port (refuseConnect port (beginAttempt sm))) =
        again' (nextNet port (refuseConnect port (beginAttempt sm)))) :
    attempt port sm again = attempt port sm again' := by
  by_cases hcount : sm.cfg.netCount = 0
  · rw [attempt, attempt, if_pos hcount, if_pos hcount]
  · rw [attempt_eq hcount, attempt_eq hcount]
    by_cases hvalid : indexValid sm.cfg ((beginAttempt sm).st.netIndex + 1) = true
    · rw [if_pos hvalid, if_pos hvalid]
      simp only [indexValid, Bool.and_eq_true, decide_eq_true_eq] at hvalid
      rw [h hcount hvalid.2]
    · rw [if_neg hvalid, if_neg hvalid]

theorem netCount_next :
    (nextNet port (refuseConnect port (beginAttempt sm))).cfg.netCount = sm.cfg.netCount := by
  rw [(@quiet_nextNet port (refuseConnect port (beginAttempt sm))).2]
  exact congrArg Cfg.netCount (beginAttempt_cfg sm)

-- As many attempts as there are networks left are enough.
theorem attempts_eq_of_enough {m n : Nat}
    (hm : (sm.cfg.netCount : Int) ≤ (beginAttempt sm).st.netIndex + m + 1)
    (hn : (sm.cfg.netCount : Int) ≤ (beginAttempt sm).st.netIndex + n + 1) :
    attempts port m sm = attempts port n sm := by
  induction m generalizing sm n with
  | zero =>
    cases n with
    | zero => rfl
    | succ n => exact attempt_congr fun _ hlt => by omega
  | succ m ih =>
    cases n with
    | zero => exact attempt_congr fun _ hlt => by omega
    | succ n =>
      refine attempt_congr fun hcount hlt => ih ?_ ?_
      all_goals
        rw [netCount_next, beginAttempt_nextNet (beginAttempt_netIndex hcount).1 hlt]
        omega

-- The recursion of the code, which no bound cuts short.
theorem startAttempt_eq (port : Port) (sm : Machine) :
    startAttempt port sm = attempt port sm (startAttempt port) := by
  have hone : startAttempt port sm = attempts port (sm.cfg.netCount + 1) sm := by
    by_cases hcount : sm.cfg.netCount = 0
    · rw [startAttempt_of_empty hcount, attempts, attempt, if_pos hcount]
    · have hindex := beginAttempt_netIndex hcount
      exact attempts_eq_of_enough (by omega) (by omega)
  rw [hone, attempts]
  refine attempt_congr fun _ _ => ?_
  rw [startAttempt, netCount_next]

end Recursion

-- Every round tries every network, and a chain of refusals ends in a backoff.
theorem rounds_try_every_network (cfg : Cfg) (before inputs : List (Port × Event)) :
    let sm := run step (init cfg) before
    sm.cfg.netCount ≠ 0 → Along step Calm sm inputs →
      (∀ seg rest, log sm inputs = seg.map .connect ++ .backoff :: rest →
        ∃ i, GoesOnAt sm inputs i ∧ seg = sm.cfg.used.drop i) ∧
      (∀ pre seg rest,
        log sm inputs = pre ++ .backoff :: (seg.map .connect ++ .backoff :: rest) →
        seg = sm.cfg.used) ∧
      (∀ pre seg, log sm inputs = pre ++ .backoff :: seg.map .connect → seg <+: sm.cfg.used) ∧
      ∀ (port : Port) (sm : Machine), sm.cfg.netCount ≠ 0 →
        startAttempt port sm = attempt port sm (startAttempt port) ∧
          ((∀ net, Call.connect net true ∉ (startAttempt port sm).calls) →
            (startAttempt port sm).st.state = .backoff) := by
  intro sm hcount hcalm
  obtain ⟨h, hindexed⟩ := indexed_run cfg before
  obtain ⟨i, hat, hrounds⟩ := rounds_run h hindexed hcount hcalm
  refine ⟨?_, ?_, ?_, ?_⟩
  · intro seg rest hlog
    rw [hlog] at hrounds
    exact ⟨i, hat, hrounds.segment.1⟩
  · intro pre seg rest hlog
    rw [hlog] at hrounds
    exact hrounds.after.segment.1
  · intro pre seg hlog
    rw [hlog] at hrounds
    exact hrounds.after.tail
  · intro port sm hcount
    refine ⟨startAttempt_eq port sm, fun hrefused => ?_⟩
    rcases attempted_startAttempt hcount with ⟨-, net, hmem⟩ | ⟨hback, -⟩
    · exact absurd hmem (hrefused net)
    · exact hback

def Cfg.pair : Cfg :=
  { Cfg.sample with nets := [Net.named 97, Net.named 98], netCount := 2, netCount_le := le_rfl }

def Port.refusing (now : UInt32) : Port :=
  { Port.granting now with connect := fun _ _ => false }

-- The driver refuses through two rounds.
def refusals : List (Port × Event) :=
  [(.refusing 0, .start), (.refusing 9000, .timer)]

theorem rounds_try_every_network_pair :
    log (init Cfg.pair) refusals =
        [.connect (.named 97), .connect (.named 98), .backoff, .connect (.named 97),
          .connect (.named 98), .backoff] ∧
      [Net.named 97, Net.named 98] = Cfg.pair.used :=
  ⟨by decide +kernel,
    (rounds_try_every_network Cfg.pair [] refusals (by decide)
      ⟨⟨nofun, nofun, nofun⟩, ⟨nofun, nofun, nofun⟩, trivial⟩).2.1
      [.connect (.named 97), .connect (.named 98)] [.named 97, .named 98] [] (by decide +kernel)⟩

end Espos.Wifi
