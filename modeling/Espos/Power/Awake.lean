import Espos.Power.Cycle

-- What a decision to sleep rests on still holds when the device sleeps, unless
-- something has begun since.

namespace Espos.Power

open Espos.Text
open Espos.Run
open Espos.Update (Build Sys OtaIn)

-- What the policy is to be asked, from the first look at it on.
def PowerPc.taken : PowerPc → Option PolicyIn
  | .countsHolds q | .asksOta q | .countsQueue q | .asksCoproc q | .decides q => some q
  | _ => none

-- The same, once the holds are in it.
def PowerPc.counted : PowerPc → Option PolicyIn
  | .asksOta q | .countsQueue q | .asksCoproc q | .decides q => some q
  | _ => none

-- The task has decided to sleep.
def PowerPc.bound : PowerPc → Bool
  | .goes | .flushes _ | .graces _ | .saves _ | .sleeps => true
  | _ => false

-- The task has seen no install, and is to sleep if the rest allows it.
def PowerPc.sawInstall : PowerPc → Bool
  | .countsQueue _ | .asksCoproc _ => true
  | .decides q => !q.otaBusy
  | pc => pc.bound

def PowerPc.sawUpdate : PowerPc → Bool
  | .decides q => !q.otaBusy
  | pc => pc.bound

theorem of_eq_none {α : Type} {P : α → Prop} {o : Option α} (h : o = none) (a : α)
    (ha : o = some a) : P a := by
  cases h.symm.trans ha

namespace Device

-- No update is in progress, the image is confirmed, and before the deadline
-- every hold has been released.
structure Safe (d : Device) : Prop where
  install : installing d.sys = false
  update : updating d.sys = false
  confirmed : d.sys.pendingVerify = false
  holds : d.time < d.deadlineMs.toNat → d.held = []

def SafeAsleep (d : Device) : Prop :=
  d.power.pc = .asleep → d.Safe

-- What began after it was last looked for is over when the device goes to
-- sleep, and the holds are fewer than their counter counts.
def Undisturbed (d : Device) : Event → Prop
  | .power i => d.power.pc = .sleeps → i.canSleep = true →
    (installing d.sys = true → d.installedSince = false) ∧
      (updating d.sys = true → d.updatedSince = false) ∧
      (d.time < d.deadlineMs.toNat → ∀ h ∈ d.held, h < d.mark)
  | .hold => d.held.length + 1 < 2 ^ 32
  | _ => True

instance (d : Device) (e : Event) : Decidable (d.Undisturbed e) := by
  cases e <;> unfold Undisturbed <;> infer_instance

structure Watched (d : Device) : Prop where
  apart : d.sys.Apart
  ready : d.sys.ota = .reboots → d.sys.state = .ready
  holds : d.power.holds = UInt32.ofNat d.held.length
  few : d.held.length < 2 ^ 32
  mark : d.mark ≤ d.nextHold
  image : d.power.pc ≠ .absent → d.power.unconfirmed = false → d.sys.pendingVerify = false
  taken : ∀ q, d.power.pc.taken = some q → q.imageUnconfirmed = d.power.unconfirmed ∧
    q.timerWake = d.power.timerWake ∧ q.uptimeMs.toNat ≤ d.time
  counted : ∀ q, d.power.pc.counted = some q → q.holds = 0 → ∀ h ∈ d.held, d.mark ≤ h
  bound : d.power.pc.bound = true → d.power.unconfirmed = false ∧
    ((∀ h ∈ d.held, d.mark ≤ h) ∨ d.deadlineMs.toNat ≤ d.time)
  install : d.power.pc.sawInstall = true → installing d.sys = true → d.installedSince = true
  update : d.power.pc.sawUpdate = true → updating d.sys = true → d.updatedSince = true
  safe : d.SafeAsleep

variable {d : Device}

theorem watched_boot (settings : Settings) (rtc : UInt32 × UInt32)
    (timerWake pendingVerify : Bool) : (boot settings rtc timerWake pendingVerify).Watched := by
  constructor
  · exact Sys.apart_boot pendingVerify
  · nofun
  · rfl
  · exact Nat.two_pow_pos 32
  · exact Nat.le_refl 0
  · exact fun hne => absurd rfl hne
  · exact of_eq_none rfl
  · exact of_eq_none rfl
  · nofun
  · nofun
  · nofun
  · nofun

-- An install that is claimed or waits for its reboot is seen.
theorem Watched.busy (h : d.Watched) (hinstall : installing d.sys = true) :
    d.sys.state.busy = true := by
  rcases Bool.or_eq_true_iff.mp hinstall with hclaimed | hwaits
  · rw [h.apart.seen.downloading hclaimed]
    rfl
  · rw [h.ready (of_decide_eq_true hwaits)]
    rfl

theorem Watched.lock (h : d.Watched) (hinstall : installing d.sys = true) : d.sys.lock = true := by
  apply h.apart.seen.lock
  intro habsent
  unfold installing at hinstall
  rw [habsent] at hinstall
  cases hinstall

end Device

-- The updates

-- Only a good install leads to the reboot.
theorem ready_otaStep (s : Sys) (i : OtaIn) :
    (s.otaStep i).ota = .reboots → (s.otaStep i).state = .ready := by
  unfold Sys.otaStep
  cases hpc : s.ota
  case absent =>
    dsimp only
    rw [hpc]
    nofun
  case receives =>
    unfold Sys.receive
    cases s.queue with
    | cons c rest => nofun
    | nil =>
      cases i.timeout with
      | true => nofun
      | false =>
        dsimp only
        rw [if_neg Bool.false_ne_true, hpc]
        nofun
  case obeys c =>
    cases c
    case installAvail =>
      unfold Sys.obey
      cases s.avail <;> nofun
    all_goals nofun
  case ticks => cases i.tick <;> nofun
  case schedules =>
    by_cases hdue : i.due = true ∧
        ¬ (s.state = .downloading ∨ s.state = .verifying ∨ s.state = .ready)
    · simp only [if_pos hdue]
      nofun
    · simp only [if_neg hdue]
      nofun
  case checks => cases i.obstacle <;> nofun
  case fetches =>
    unfold Sys.finishCheck
    cases i.checked
    case found url newer => cases newer <;> nofun
    all_goals nofun
  case offers => nofun
  case asks url =>
    cases s.running <;> nofun
  case asksRollback =>
    cases s.running <;> nofun
  case resumes error =>
    cases error with
    | none => exact fun _ => rfl
    | some text => nofun
  all_goals nofun

theorem pendingVerify_markValid {s : Sys} (h : s.pendingVerify = false) (marked : Bool) :
    (s.markValid marked).pendingVerify = false := by
  cases marked with
  | true => rfl
  | false => exact h

-- A confirmed image stays confirmed.
theorem pendingVerify_otaStep {s : Sys} (i : OtaIn) (h : s.pendingVerify = false) :
    (s.otaStep i).pendingVerify = false := by
  unfold Sys.otaStep
  cases s.ota
  case receives =>
    unfold Sys.receive
    cases s.queue with
    | cons c rest => exact h
    | nil => cases i.timeout <;> exact h
  case obeys c =>
    cases c
    case confirm => exact pendingVerify_markValid h i.marked
    case installAvail =>
      unfold Sys.obey
      cases s.avail <;> exact h
    all_goals exact h
  case ticks =>
    cases i.tick
    case confirm => exact pendingVerify_markValid h i.marked
    all_goals exact h
  case checks => cases i.obstacle <;> exact h
  case fetches =>
    unfold Sys.finishCheck
    cases i.checked
    case found url newer => cases newer <;> exact h
    all_goals exact h
  case offers => cases i.autoInstall <;> exact h
  case resumes error => cases error <;> exact h
  all_goals exact h

-- The tasks that ask for an update leave the OTA task and the image alone.
theorem startStep_ota (s : Sys) (task : Nat) (ok : Bool) :
    (s.startStep task ok).otaSide = s.otaSide ∧
      (s.startStep task ok).pendingVerify = s.pendingVerify := by
  unfold Sys.startStep
  cases s.starts task
  case creates url => cases ok <;> exact ⟨rfl, rfl⟩
  all_goals exact ⟨rfl, rfl⟩

theorem updateStep_ota (s : Sys) (ok : Bool) :
    (s.updateStep ok).otaSide = s.otaSide ∧
      (s.updateStep ok).pendingVerify = s.pendingVerify := by
  unfold Sys.updateStep
  cases s.update <;> cases ok <;> exact ⟨rfl, rfl⟩

theorem callStep_ota (s : Sys) (task : Nat) (call : Update.Call) :
    (s.callStep task call).otaSide = s.otaSide ∧
      (s.callStep task call).pendingVerify = s.pendingVerify := by
  cases call
  case installUrl url => cases url <;> exact ⟨rfl, rfl⟩
  all_goals exact ⟨rfl, rfl⟩

theorem sendStep_ota (s : Sys) (task : Nat) :
    (s.sendStep task).otaSide = s.otaSide ∧
      (s.sendStep task).pendingVerify = s.pendingVerify := by
  unfold Sys.sendStep
  cases s.requests task <;> exact ⟨rfl, rfl⟩

theorem otaStop_ota (s : Sys) :
    s.otaStop.otaSide = s.otaSide ∧ s.otaStop.pendingVerify = s.pendingVerify := by
  unfold Sys.otaStop
  by_cases hpresent : s.ota ≠ .absent
  · rw [if_pos hpresent]
    exact ⟨rfl, rfl⟩
  · rw [if_neg hpresent]
    exact ⟨rfl, rfl⟩

theorem update_step_ota (B : Build) (s : Sys) (e : Update.Event) (hstart : e ≠ .otaStart)
    (hota : ∀ i, e ≠ .ota i) (hrestart : ∀ b, e ≠ .restart b) :
    (Update.step B s e).otaSide = s.otaSide ∧
      (Update.step B s e).pendingVerify = s.pendingVerify := by
  cases e with
  | otaStart => exact absurd rfl hstart
  | otaStop => exact otaStop_ota s
  | ota i => exact absurd rfl (hota i)
  | calls task call =>
    have hcalls := callStep_ota s task call
    simp only [Update.step]
    cases s.requests task <;> first | exact hcalls | exact ⟨rfl, rfl⟩
  | sends task => exact sendStep_ota s task
  | posts task url =>
    simp only [Update.step]
    cases s.starts task <;> exact ⟨rfl, rfl⟩
  | starts task ok => exact startStep_ota s task ok
  | update ok => exact updateStep_ota s ok
  | restart b => exact absurd rfl (hrestart b)

-- What the updates keep of the OTA task's state and of the image.
theorem update_step_keeps (B : Build) (s : Sys) (e : Update.Event) (hrestart : ∀ b, e ≠ .restart b)
    (h : s.ota = .reboots → s.state = .ready) :
    ((Update.step B s e).ota = .reboots → (Update.step B s e).state = .ready) ∧
      (s.pendingVerify = false → (Update.step B s e).pendingVerify = false) := by
  by_cases hstart : e = .otaStart
  · subst hstart
    simp only [Update.step, Sys.otaStart]
    by_cases habsent : s.ota = .absent
    · rw [if_pos habsent]
      exact ⟨by simp, id⟩
    · rw [if_neg habsent]
      exact ⟨h, id⟩
  · by_cases hota : ∃ i, e = .ota i
    · obtain ⟨i, rfl⟩ := hota
      exact ⟨ready_otaStep s i, pendingVerify_otaStep i⟩
    · obtain ⟨hside, himage⟩ :=
        update_step_ota B s e hstart (fun i heq => hota ⟨i, heq⟩) hrestart
      obtain ⟨_, hstate, _, hpc⟩ := Sys.otaSide_eq_iff.mp hside
      rw [hstate, hpc, himage]
      exact ⟨h, id⟩

namespace Device

variable {d : Device}

theorem Watched.setSys (h : d.Watched) (hawake : d.power.pc ≠ .asleep) (B : Build)
    {e : Update.Event} (hrestart : ∀ b, e ≠ .restart b) :
    (d.setSys (Update.step B d.sys e)).Watched := by
  obtain ⟨hready, himage⟩ := update_step_keeps B d.sys e hrestart h.ready
  refine ⟨Update.apart_step B d.sys e h.apart, hready, h.holds, h.few, h.mark,
    fun hpc hconfirmed => himage (h.image hpc hconfirmed), h.taken, h.counted, h.bound,
    fun hsaw hnow => ?_, fun hsaw hnow => ?_, fun hpc => absurd hpc hawake⟩
  · change (d.installedSince || (!installing d.sys && installing (Update.step B d.sys e))) = true
    have hnow : installing (Update.step B d.sys e) = true := hnow
    rw [hnow]
    cases hbefore : installing d.sys with
    | true =>
      rw [h.install hsaw hbefore]
      rfl
    | false => simp
  · change (d.updatedSince || (!updating d.sys && updating (Update.step B d.sys e))) = true
    have hnow : updating (Update.step B d.sys e) = true := hnow
    rw [hnow]
    cases hbefore : updating d.sys with
    | true =>
      rw [h.update hsaw hbefore]
      rfl
    | false => simp

theorem Watched.passes (h : d.Watched) (hawake : d.power.pc ≠ .asleep) (ms : Nat) :
    (d.passes ms).Watched := by
  refine ⟨h.apart, h.ready, h.holds, h.few, h.mark, h.image, fun q hq => ?_, h.counted,
    fun hbound => ?_, h.install, h.update, fun hpc => absurd hpc hawake⟩
  · obtain ⟨himage, hwake, htime⟩ := h.taken q hq
    exact ⟨himage, hwake, Nat.le_trans htime (Nat.le_add_right _ _)⟩
  · obtain ⟨himage, hrests⟩ := h.bound hbound
    refine ⟨himage, hrests.imp id fun hlate => ?_⟩
    exact Nat.le_trans hlate (Nat.le_add_right _ _)

theorem Watched.configure (h : d.Watched) (hawake : d.power.pc ≠ .asleep) (settings : Settings) :
    (d.configure settings).Watched :=
  ⟨h.apart, h.ready, h.holds, h.few, h.mark, h.image, h.taken, h.counted, h.bound, h.install,
    h.update, fun hpc => absurd hpc hawake⟩

-- A hold has a number that none had when they were counted.
theorem Watched.hold (h : d.Watched) (hawake : d.power.pc ≠ .asleep)
    (hfew : d.held.length + 1 < 2 ^ 32) : d.hold.Watched := by
  have hnew (hold : ∀ k ∈ d.held, d.mark ≤ k) : ∀ k ∈ d.hold.held, d.mark ≤ k :=
    List.forall_mem_cons.mpr ⟨h.mark, hold⟩
  refine ⟨h.apart, h.ready, ?_, hfew, Nat.le_succ_of_le h.mark, h.image, h.taken,
    fun q hq hzero => hnew (h.counted q hq hzero), fun hbound => ?_, h.install, h.update,
    fun hpc => absurd hpc hawake⟩
  · change d.power.holds + 1 = UInt32.ofNat (d.held.length + 1)
    rw [h.holds, UInt32.ofNat_add]
    rfl
  · obtain ⟨himage, hrests⟩ := h.bound hbound
    exact ⟨himage, hrests.imp hnew id⟩

theorem Watched.release (h : d.Watched) (hawake : d.power.pc ≠ .asleep) (k : Nat) :
    (d.release k).Watched := by
  unfold Device.release
  by_cases hk : k ∈ d.held
  · rw [if_pos hk]
    have hfewer (hold : ∀ j ∈ d.held, d.mark ≤ j) : ∀ j ∈ d.held.erase k, d.mark ≤ j :=
      fun j hj => hold j (List.mem_of_mem_erase hj)
    have hlength := List.length_erase_of_mem hk
    have hpos := List.length_pos_of_mem hk
    have hfew := h.few
    refine ⟨h.apart, h.ready, ?_, ?_, h.mark, h.image, h.taken,
      fun q hq hzero => hfewer (h.counted q hq hzero), fun hbound => ?_, h.install, h.update,
      fun hpc => absurd hpc hawake⟩
    · change (if 0 < d.power.holds then d.power.holds - 1 else d.power.holds) =
        UInt32.ofNat (d.held.erase k).length
      have hcount : d.power.holds.toNat = d.held.length := by
        rw [h.holds]
        exact UInt32.toNat_ofNat_of_lt hfew
      have hsome : 0 < d.power.holds := by
        rw [UInt32.lt_iff_toNat_lt, hcount]
        exact hpos
      rw [if_pos hsome, hlength, UInt32.ofNat_sub hpos, h.holds]
      rfl
    · change (d.held.erase k).length < 2 ^ 32
      omega
    · obtain ⟨himage, hrests⟩ := h.bound hbound
      exact ⟨himage, hrests.imp hfewer id⟩
  · rwa [if_neg hk]

-- The power task

theorem Watched.start (h : d.Watched) : d.start.Watched := by
  unfold Device.start
  cases hpc : d.power.pc
  case absent =>
    exact ⟨h.apart, h.ready, h.holds, h.few, h.mark, fun _ => id, of_eq_none rfl, of_eq_none rfl,
      nofun, nofun, nofun, nofun⟩
  all_goals exact h

-- What the task moves on with, where it writes nothing else that matters.
theorem Watched.moves {d' : Device} {pc : PowerPc} (h : d.Watched)
    (hpresent : d.power.pc ≠ .absent) (hd : d' = d.goOn pc)
    (htaken : ∀ q, pc.taken = some q → d.power.pc.taken = some q)
    (hcounted : ∀ q, pc.counted = some q → d.power.pc.counted = some q)
    (hbound : pc.bound = true → d.power.pc.bound = true)
    (hinstall : pc.sawInstall = true → d.power.pc.sawInstall = true)
    (hupdate : pc.sawUpdate = true → d.power.pc.sawUpdate = true)
    (hawake : pc ≠ .asleep) : d'.Watched := by
  subst hd
  exact ⟨h.apart, h.ready, h.holds, h.few, h.mark, fun _ => h.image hpresent,
    fun q hq => h.taken q (htaken q hq), fun q hq => h.counted q (hcounted q hq),
    fun hb => h.bound (hbound hb), fun hb => h.install (hinstall hb),
    fun hb => h.update (hupdate hb), fun hpc => absurd hpc hawake⟩

-- Between two rounds the task has nothing in hand.
theorem Watched.idles {p : Cycle} (h : d.Watched) (hpresent : d.power.pc ≠ .absent)
    (hholds : p.holds = d.power.holds) (himage : p.unconfirmed = d.power.unconfirmed)
    (hpc : p.pc = .loads ∨ p.pc = .samples ∨ p.pc = .delays) : (d.setPower p).Watched := by
  have hidle : p.pc.taken = none ∧ p.pc.counted = none ∧ p.pc.bound = false ∧
      p.pc.sawInstall = false ∧ p.pc.sawUpdate = false ∧ p.pc ≠ .asleep := by
    rcases hpc with hpc | hpc | hpc <;> rw [hpc] <;> exact ⟨rfl, rfl, rfl, rfl, rfl, nofun⟩
  obtain ⟨htaken, hcounted, hbound, hinstall, hupdate, hawake⟩ := hidle
  refine ⟨h.apart, h.ready, hholds.trans h.holds, h.few, h.mark, fun _ hconfirmed => ?_,
    of_eq_none htaken, of_eq_none hcounted, fun hb => ?_, fun hb => ?_, fun hb => ?_,
    fun hpc => absurd hpc hawake⟩
  · exact h.image hpresent (himage.symm.trans hconfirmed)
  · cases hbound.symm.trans hb
  · cases hinstall.symm.trans hb
  · cases hupdate.symm.trans hb

theorem reload_keeps (p : Cycle) (c : Settings) :
    (p.reload c).holds = p.holds ∧ (p.reload c).unconfirmed = p.unconfirmed := by
  unfold Cycle.reload
  cases p.cfgDirty <;> exact ⟨rfl, rfl⟩

theorem Watched.loads (h : d.Watched) (hpresent : d.power.pc ≠ .absent) :
    (d.setPower ((d.power.reload d.settings).goOn
      (if (d.power.reload d.settings).simSlept then .delays else .samples))).Watched := by
  obtain ⟨hholds, himage⟩ := reload_keeps d.power d.settings
  cases (d.power.reload d.settings).simSlept with
  | true => exact h.idles hpresent hholds himage (.inr (.inr rfl))
  | false => exact h.idles hpresent hholds himage (.inr (.inl rfl))

theorem Watched.samples (h : d.Watched) (hpresent : d.power.pc ≠ .absent) (i : PowerIn) :
    (d.setPower ((d.power.sample d.uptimeMs d.sys.pendingVerify i).goOn (.countsHolds
      ((d.power.sample d.uptimeMs d.sys.pendingVerify i).policyIn d.uptimeMs i)))).Watched := by
  refine ⟨h.apart, h.ready, h.holds, h.few, h.mark, fun _ hconfirmed => ?_, fun q hq => ?_,
    of_eq_none rfl, nofun, nofun, nofun, nofun⟩
  · have hboth : (d.power.unconfirmed && d.sys.pendingVerify) = false := hconfirmed
    rcases Bool.and_eq_false_iff.mp hboth with hbefore | hnow
    · exact h.image hpresent hbefore
    · exact hnow
  · obtain rfl := Option.some.inj hq
    refine ⟨rfl, rfl, ?_⟩
    change (UInt32.ofNat d.time).toNat ≤ d.time
    rw [UInt32.toNat_ofNat']
    exact Nat.mod_le _ _

-- No hold is out where the counter says so.
theorem Watched.held_nil (h : d.Watched) (hzero : d.power.holds = 0) : d.held = [] := by
  have hcount : (UInt32.ofNat d.held.length).toNat = d.held.length :=
    UInt32.toNat_ofNat_of_lt h.few
  rw [← h.holds, hzero] at hcount
  exact List.length_eq_zero_iff.mp hcount.symm

theorem Watched.countsHolds {q : PolicyIn} (h : d.Watched) (hpc : d.power.pc = .countsHolds q) :
    (d.setMark.goOn (.asksOta { q with holds := d.power.holds })).Watched := by
  have htaken := h.taken q (by rw [hpc]; rfl)
  refine ⟨h.apart, h.ready, h.holds, h.few, Nat.le_refl _, fun _ => h.image (by simp [hpc]),
    fun r hr => ?_, fun r hr hzero => ?_, nofun, nofun, nofun, nofun⟩
  · obtain rfl := Option.some.inj hr
    exact htaken
  · obtain rfl := Option.some.inj hr
    have hnil : d.held = [] := h.held_nil hzero
    change ∀ k ∈ d.held, d.nextHold ≤ k
    rw [hnil]
    nofun

-- From here on an install that is in progress has begun since.
theorem Watched.asksOta {q : PolicyIn} {pc : PowerPc} (h : d.Watched)
    (hpc : d.power.pc = .asksOta q) (htaken : pc.taken = some q) (hcounted : pc.counted = some q)
    (hbound : pc.bound = false) (hupdate : pc.sawUpdate = false) (hawake : pc ≠ .asleep)
    (hnone : pc.sawInstall = true → installing d.sys = false) :
    (d.askInstall.goOn pc).Watched := by
  have hold := h.taken q (by rw [hpc]; rfl)
  have holds := h.counted q (by rw [hpc]; rfl)
  refine ⟨h.apart, h.ready, h.holds, h.few, h.mark, fun _ => h.image (by simp [hpc]),
    fun r hr => ?_, fun r hr => ?_, fun hb => ?_, fun hsaw hnow => ?_, fun hb => ?_,
    fun hpc => absurd hpc hawake⟩
  · obtain rfl := Option.some.inj (htaken.symm.trans hr)
    exact hold
  · obtain rfl := Option.some.inj (hcounted.symm.trans hr)
    exact holds
  · cases hbound.symm.trans hb
  · cases (hnone hsaw).symm.trans hnow
  · cases hupdate.symm.trans hb

-- An update that was seen keeps the device awake, whatever else is found.
theorem Watched.decidesBusy {q : PolicyIn} (h : d.Watched) (hpresent : d.power.pc ≠ .absent)
    (htaken : d.power.pc.taken = some q) (hcounted : d.power.pc.counted = some q) :
    (d.goOn (.decides { q with otaBusy := true })).Watched := by
  have hold := h.taken q htaken
  have holds := h.counted q hcounted
  refine ⟨h.apart, h.ready, h.holds, h.few, h.mark, fun _ => h.image hpresent, fun r hr => ?_,
    fun r hr => ?_, nofun, nofun, nofun, nofun⟩
  · obtain rfl := Option.some.inj hr
    exact hold
  · obtain rfl := Option.some.inj hr
    exact holds

theorem Watched.asksCoproc {q : PolicyIn} (h : d.Watched) (hpc : d.power.pc = .asksCoproc q) :
    (d.askUpdate.goOn (.decides { q with otaBusy := d.sys.running })).Watched := by
  have hold := h.taken q (by rw [hpc]; rfl)
  have holds := h.counted q (by rw [hpc]; rfl)
  have hinstall := h.install (by rw [hpc]; rfl)
  refine ⟨h.apart, h.ready, h.holds, h.few, h.mark, fun _ => h.image (by simp [hpc]),
    fun r hr => ?_, fun r hr => ?_, nofun, fun _ => hinstall, fun hsaw hnow => ?_, nofun⟩
  · obtain rfl := Option.some.inj hr
    exact hold
  · obtain rfl := Option.some.inj hr
    exact holds
  · have hfree : d.sys.running = false := by
      change (!d.sys.running) = true at hsaw
      simpa using hsaw
    have hnone : updating d.sys = false :=
      decide_eq_false fun hne => hne (h.apart.held.free hfree).1
    cases hnone.symm.trans hnow

theorem Watched.decides {q : PolicyIn} (h : d.Watched) (hpc : d.power.pc = .decides q)
    (hsleep : policyDecide d.power.cfg q = .sleep) : (d.goOn .goes).Watched := by
  obtain ⟨himage, hwake, htime⟩ := h.taken q (by rw [hpc]; rfl)
  obtain ⟨hconfirmed, hfree, hrests⟩ := sleep_of_policyDecide hsleep
  have hsaw : d.power.pc.sawInstall = true ∧ d.power.pc.sawUpdate = true := by
    rw [hpc]
    simp [PowerPc.sawInstall, PowerPc.sawUpdate, hfree]
  refine ⟨h.apart, h.ready, h.holds, h.few, h.mark, fun _ => h.image (by simp [hpc]),
    of_eq_none rfl, of_eq_none rfl, fun _ => ⟨himage.symm.trans hconfirmed, ?_⟩,
    fun _ => h.install hsaw.1, fun _ => h.update hsaw.2, nofun⟩
  rcases hrests with hlate | hzero
  · right
    rw [hwake] at hlate
    exact Nat.le_trans (UInt32.le_iff_toNat_le.mp hlate) htime
  · exact .inl (h.counted q (by rw [hpc]; rfl) hzero)

theorem Watched.sleeps {i : PowerIn} (h : d.Watched) (hpc : d.power.pc = .sleeps)
    (hsleeps : i.canSleep = true) (hcalm : d.Undisturbed (.power i)) :
    (d.goOn .asleep).Watched := by
  obtain ⟨hinstall, hupdate, hholds⟩ := hcalm hpc hsleeps
  have hbound : d.power.pc.bound = true := by rw [hpc]; rfl
  obtain ⟨hconfirmed, hrests⟩ := h.bound hbound
  refine ⟨h.apart, h.ready, h.holds, h.few, h.mark, fun _ => h.image (by simp [hpc]),
    of_eq_none rfl, of_eq_none rfl, nofun, nofun, nofun,
    fun _ => ⟨?_, ?_, h.image (by simp [hpc]) hconfirmed, fun hearly => ?_⟩⟩
  · cases hnow : installing d.sys with
    | false => exact hnow
    | true =>
      have hsince := h.install (by rw [hpc]; rfl) hnow
      cases (hinstall hnow).symm.trans hsince
  · cases hnow : updating d.sys with
    | false => exact hnow
    | true =>
      have hsince := h.update (by rw [hpc]; rfl) hnow
      cases (hupdate hnow).symm.trans hsince
  · rcases hrests with hnew | hlate
    · apply List.eq_nil_iff_forall_not_mem.mpr
      intro k hk
      exact absurd (hholds hearly k hk) (Nat.not_lt_of_le (hnew k hk))
    · exact absurd hearly (Nat.not_lt_of_le hlate)

theorem Watched.powerStep (h : d.Watched) (i : PowerIn) (hcalm : d.Undisturbed (.power i)) :
    (d.powerStep i).Watched := by
  unfold Device.powerStep
  cases hpc : d.power.pc with
  | absent => exact h
  | asleep => exact h
  | loads => exact h.loads (by simp [hpc])
  | samples => exact h.samples (by simp [hpc]) i
  | countsHolds q => exact h.countsHolds hpc
  | asksOta q =>
    cases hlock : d.sys.lock with
    | false =>
      refine h.asksOta hpc rfl rfl rfl rfl nofun fun _ => ?_
      cases hnow : installing d.sys with
      | false => rfl
      | true => cases hlock.symm.trans (h.lock hnow)
    | true =>
      cases hbusy : d.sys.state.busy || d.sys.rollingBack with
      | true =>
        have hsame : d.askInstall.power.pc = .asksOta q := hpc
        have hasked : d.askInstall.Watched :=
          ⟨h.apart, h.ready, h.holds, h.few, h.mark, h.image, h.taken, h.counted, h.bound,
            (fun hsaw => by rw [hsame] at hsaw; cases hsaw), h.update,
            fun hasleep => absurd (hpc.symm.trans hasleep) nofun⟩
        exact hasked.decidesBusy (by simp [hsame]) (by rw [hsame]; rfl) (by rw [hsame]; rfl)
      | false =>
        refine h.asksOta hpc rfl rfl rfl rfl nofun fun _ => ?_
        cases hnow : installing d.sys with
        | false => rfl
        | true => cases (Bool.or_eq_false_iff.mp hbusy).1.symm.trans (h.busy hnow)
  | countsQueue q =>
    dsimp only
    by_cases hqueue : d.sys.queue = []
    · rw [if_pos hqueue]
      exact h.moves (by simp [hpc]) rfl (fun _ hq => by rw [hpc]; exact hq)
        (fun _ hq => by rw [hpc]; exact hq) nofun (fun _ => by rw [hpc]; rfl) nofun nofun
    · rw [if_neg hqueue]
      exact h.decidesBusy (by simp [hpc]) (by rw [hpc]; rfl) (by rw [hpc]; rfl)
  | asksCoproc q => exact h.asksCoproc hpc
  | decides q =>
    dsimp only
    by_cases hsleep : policyDecide d.power.cfg q = .sleep
    · rw [if_pos hsleep]
      exact h.decides hpc hsleep
    · rw [if_neg hsleep]
      exact h.idles (by simp [hpc]) rfl rfl (.inr (.inr rfl))
  | goes =>
    dsimp only
    by_cases hflush : 0 < d.power.flushMs ∧ i.connected = true
    · rw [if_pos hflush]
      exact h.moves (by simp [hpc]) rfl (of_eq_none rfl) (of_eq_none rfl)
        (fun _ => by rw [hpc]; rfl) (fun _ => by rw [hpc]; rfl) (fun _ => by rw [hpc]; rfl) nofun
    · rw [if_neg hflush]
      exact h.moves (by simp [hpc]) rfl (of_eq_none rfl) (of_eq_none rfl)
        (fun _ => by rw [hpc]; rfl) (fun _ => by rw [hpc]; rfl) (fun _ => by rw [hpc]; rfl) nofun
  | flushes awakeMs =>
    exact h.moves (by simp [hpc]) rfl (of_eq_none rfl) (of_eq_none rfl)
      (fun _ => by rw [hpc]; rfl) (fun _ => by rw [hpc]; rfl) (fun _ => by rw [hpc]; rfl) nofun
  | graces awakeMs =>
    exact h.moves (by simp [hpc]) rfl (of_eq_none rfl) (of_eq_none rfl)
      (fun _ => by rw [hpc]; rfl) (fun _ => by rw [hpc]; rfl) (fun _ => by rw [hpc]; rfl) nofun
  | saves awakeMs =>
    have hsaved : (d.rtcSave (d.power.wakeCount + 1) awakeMs).Watched :=
      ⟨h.apart, h.ready, h.holds, h.few, h.mark, h.image, h.taken, h.counted, h.bound, h.install,
        h.update, fun hasleep => absurd (hpc.symm.trans hasleep) nofun⟩
    have hsame : (d.rtcSave (d.power.wakeCount + 1) awakeMs).power.pc = .saves awakeMs := hpc
    exact hsaved.moves (by simp [hsame]) rfl (of_eq_none rfl) (of_eq_none rfl)
      (fun _ => by rw [hsame]; rfl) (fun _ => by rw [hsame]; rfl)
      (fun _ => by rw [hsame]; rfl) nofun
  | sleeps =>
    cases hsleeps : i.canSleep with
    | true => exact h.sleeps hpc hsleeps hcalm
    | false => exact h.idles (by simp [hpc]) rfl rfl (.inr (.inr rfl))
  | delays => exact h.idles (by simp [hpc]) rfl rfl (.inl rfl)

end Device

theorem watched_step (B : Build) (d : Device) (e : Event) (h : d.Watched)
    (hcalm : d.Undisturbed e) : (step B d e).Watched := by
  unfold step
  by_cases hasleep : d.power.pc = .asleep
  · rw [if_pos hasleep]
    cases e
    case boots timerWake pendingVerify => exact Device.watched_boot _ _ _ _
    all_goals exact h
  · rw [if_neg hasleep]
    cases e with
    | update e =>
      cases e
      case restart pendingVerify => exact Device.watched_boot _ _ _ _
      all_goals exact h.setSys hasleep B nofun
    | start => exact h.start
    | power i => exact h.powerStep i hcalm
    | hold => exact h.hold hasleep hcalm
    | release k => exact h.release hasleep k
    | configure settings => exact h.configure hasleep settings
    | passes ms => exact h.passes hasleep ms
    | boots timerWake pendingVerify => exact Device.watched_boot _ _ _ _

-- Where nothing that begins after the task has looked goes on until it sleeps,
-- the device never sleeps through an update or a hold.
theorem safe_asleep_of_undisturbed (B : Build) (settings : Settings) (rtc : UInt32 × UInt32)
    (timerWake pendingVerify : Bool) {es : List Event}
    (hcalm : Along (step B) Device.Undisturbed (.boot settings rtc timerWake pendingVerify) es) :
    Always (step B) Device.SafeAsleep (.boot settings rtc timerWake pendingVerify) es :=
  (always_of_along (fun d e h hc => watched_step B d e h hc)
    (Device.watched_boot settings rtc timerWake pendingVerify) hcalm).imp fun _ h => h.safe

-- The cycle's own wake of a device whose stream is up.
def cycling : Settings where
  mode := some (lit "cycle")
  intervalS := none
  flushMs := none
  windowS := none
  awakeMaxS := none
  publishMs := none

def onLine : Event :=
  .power ⟨true, true, true, true⟩

-- Two rounds, the second of which decides to sleep while a hold is out no more.
def untilDecided : List Event :=
  [.update .otaStart, .start, .hold] ++ List.replicate 8 onLine ++ [.release 0, .passes 2000] ++
    List.replicate 7 onLine

-- The flush and what follows it.
def untilAsleep : List Event :=
  List.replicate 5 onLine

theorem asleep_safely :
    (run (step ⟨true⟩) (.boot cycling (0, 0) true false) (untilDecided ++ untilAsleep)).power.pc =
        .asleep ∧
      Always (step ⟨true⟩) Device.SafeAsleep (.boot cycling (0, 0) true false)
        (untilDecided ++ untilAsleep) :=
  ⟨by decide +kernel,
    safe_asleep_of_undisturbed ⟨true⟩ cycling (0, 0) true false (by decide +kernel)⟩

-- An install that a client asks for during the flush.
def asked : List Event :=
  let i : OtaIn := ⟨false, .nothing, false, none, .failed [], false, none, true⟩
  [.update (.calls 0 (.installUrl (some (lit "http://h/a")))), .update (.sends 0),
    .update (.sends 0), .update (.sends 0)] ++ List.replicate 5 (.update (.ota i))

theorem asleep_in_install :
    ¬ Always (step ⟨true⟩) Device.SafeAsleep (.boot cycling (0, 0) true false)
      (untilDecided ++ asked ++ untilAsleep) := by
  intro h
  have hsafe := h.last (by decide +kernel)
  exact absurd hsafe.install (by decide +kernel)

end Espos.Power
