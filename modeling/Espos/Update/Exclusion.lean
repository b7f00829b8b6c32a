import Espos.Update.System

-- Each side claims its update before it looks for the other's, so that one of
-- two that race sees the other.

namespace Espos.Update

open Espos.Text Espos.Tasks
open Espos.Run

-- The task holds an install it has claimed.
def OtaPc.downloading : OtaPc → Bool
  | .asks _ | .quiesces _ | .installs _ | .resumes _ => true
  | _ => false

-- The task holds a rollback it has claimed.
def OtaPc.rolling : OtaPc → Bool
  | .asksRollback | .unclaimsRollback | .rollsBack | .invalidates | .returns => true
  | _ => false

-- A requested rollback is past its check.
def OtaPc.rollsOn : OtaPc → Bool
  | .rollsBack | .invalidates | .returns => true
  | _ => false

-- `espos_ota_port_install` is in progress.
def OtaPc.inInstall : OtaPc → Bool
  | .installs _ => true
  | _ => false

-- An install or a rollback has seen no co-processor update.
def OtaPc.past : OtaPc → Bool
  | .quiesces _ | .installs _ | .resumes _ => true
  | .rollsBack | .invalidates | .returns => true
  | _ => false

-- The request holds the co-processor.
def StartPc.holds : StartPc → Bool
  | .asks _ | .reads _ | .counts _ | .unclaims | .records _ | .creates _ | .unrecords => true
  | _ => false

-- The request has seen neither an install nor a rollback.
def StartPc.past : StartPc → Bool
  | .counts _ | .records _ | .creates _ => true
  | _ => false

theorem StartPc.holds_of_past {pc : StartPc} (h : pc.past = true) : pc.holds = true := by
  cases pc <;> first | rfl | cases h

theorem OtaPc.claimed_of_past {pc : OtaPc} (h : pc.past = true) :
    pc.downloading = true ∨ pc.rolling = true := by
  cases pc <;> first | exact .inl rfl | exact .inr rfl | cases h

namespace Sys

-- The two updates exclude each other.
def Exclusive (s : Sys) : Prop :=
  s.update ≠ .none → s.ota.inInstall = false ∧ s.ota.rollsOn = false

-- The co-processor is held by one request, or by the update it has started.
structure Held (s : Sys) : Prop where
  update : s.update ≠ .none → s.running = true
  starts : ∀ t, (s.starts t).holds = true → s.running = true ∧ s.update = .none
  one : ∀ t u, (s.starts t).holds = true → (s.starts u).holds = true → t = u

-- What the OTA task has claimed is seen.
structure Seen (s : Sys) : Prop where
  lock : s.ota ≠ .absent → s.lock = true
  downloading : s.ota.downloading = true → s.state = .downloading
  rolling : s.ota.rolling = true → s.rollingBack = true

structure Apart (s : Sys) : Prop where
  held : s.Held
  seen : s.Seen
  apart : s.ota.past = true → s.update = .none ∧ ∀ t, (s.starts t).past = false

variable {s : Sys} {pc : OtaPc} {task : Nat}

theorem Apart.exclusive (h : s.Apart) : s.Exclusive := by
  intro hupdate
  constructor
  · cases hpc : s.ota.inInstall with
    | false => rfl
    | true =>
      have hpast : s.ota.past = true := by
        cases hota : s.ota <;> rw [hota] at hpc <;> first | rfl | cases hpc
      exact absurd (h.apart hpast).1 hupdate
  · cases hpc : s.ota.rollsOn with
    | false => rfl
    | true =>
      have hpast : s.ota.past = true := by
        cases hota : s.ota <;> rw [hota] at hpc <;> first | rfl | cases hpc
      exact absurd (h.apart hpast).1 hupdate

theorem apart_boot (pendingVerify : Bool) : (boot pendingVerify).Apart := by
  refine ⟨⟨?_, ?_, ?_⟩, ⟨?_, ?_, ?_⟩, ?_⟩
  · exact fun hne => absurd rfl hne
  · nofun
  · nofun
  · exact fun hne => absurd rfl hne
  · nofun
  · nofun
  · nofun

-- The OTA task

-- What the OTA task reads of the other side, and never writes.
def coproc (s : Sys) : Bool × (Nat → StartPc) × UpdatePc × Bool :=
  (s.running, s.starts, s.update, s.lock)

theorem coproc_eq_iff {s' : Sys} : s'.coproc = s.coproc ↔ s'.running = s.running ∧
    s'.starts = s.starts ∧ s'.update = s.update ∧ s'.lock = s.lock := by
  simp [coproc]

theorem Held.congr {s' : Sys} (h : s.Held) (hcoproc : s'.coproc = s.coproc) : s'.Held := by
  obtain ⟨hrunning, hstarts, hupdate, _⟩ := coproc_eq_iff.mp hcoproc
  constructor
  · rw [hrunning, hupdate]
    exact h.update
  · rw [hrunning, hstarts, hupdate]
    exact h.starts
  · rw [hstarts]
    exact h.one

-- While nobody holds the co-processor, no request is past its check.
theorem Held.free (h : s.Held) (hfree : s.running = false) :
    s.update = .none ∧ ∀ t, (s.starts t).past = false := by
  constructor
  · by_contra hne
    exact Bool.false_ne_true (hfree.symm.trans (h.update hne))
  · intro t
    cases hpast : (s.starts t).past with
    | false => rfl
    | true =>
      have hheld := (h.starts t (StartPc.holds_of_past hpast)).1
      exact absurd (hfree.symm.trans hheld) Bool.false_ne_true

-- A check that finds the co-processor free takes the task past it.
theorem Apart.otaMoves {s' : Sys} (h : s.Apart) (hlock : s.ota ≠ .absent)
    (hcoproc : s'.coproc = s.coproc) (hseen : s'.ota.downloading = true → s'.state = .downloading)
    (hrolls : s'.ota.rolling = true → s'.rollingBack = true)
    (hpast : s'.ota.past = true → s.ota.past = true ∨ s.running = false) : s'.Apart := by
  obtain ⟨_, hstarts, hupdate, hsame⟩ := coproc_eq_iff.mp hcoproc
  refine ⟨h.held.congr hcoproc, ⟨fun _ => hsame.trans (h.seen.lock hlock), hseen, hrolls⟩, ?_⟩
  intro hnow
  rw [hstarts, hupdate]
  rcases hpast hnow with hbefore | hfree
  · exact h.apart hbefore
  · exact h.held.free hfree

theorem Apart.otaRests {s' : Sys} (h : s.Apart) (hlock : s.ota ≠ .absent)
    (hcoproc : s'.coproc = s.coproc) (hdown : s'.ota.downloading = false)
    (hroll : s'.ota.rolling = false) : s'.Apart := by
  apply h.otaMoves hlock hcoproc
  · intro hclaimed
    exact absurd (hdown.symm.trans hclaimed) Bool.false_ne_true
  · intro hclaimed
    exact absurd (hroll.symm.trans hclaimed) Bool.false_ne_true
  · intro hpast
    rcases OtaPc.claimed_of_past hpast with hclaimed | hclaimed
    · exact absurd (hdown.symm.trans hclaimed) Bool.false_ne_true
    · exact absurd (hroll.symm.trans hclaimed) Bool.false_ne_true

theorem Apart.receive (h : s.Apart) (hlock : s.ota ≠ .absent) (timeout : Bool) :
    (s.receive timeout).Apart := by
  unfold Sys.receive
  cases s.queue with
  | cons c rest => exact h.otaRests hlock rfl rfl rfl
  | nil =>
    cases timeout with
    | true => exact h.otaRests hlock rfl rfl rfl
    | false => exact h

theorem Apart.obey (h : s.Apart) (hlock : s.ota ≠ .absent) (c : Cmd) (i : OtaIn) :
    (s.obey c i).Apart := by
  cases c with
  | check => exact h.otaRests hlock rfl rfl rfl
  | installUrl url => exact h.otaRests hlock rfl rfl rfl
  | installAvail =>
    unfold Sys.obey
    cases s.avail with
    | some url => exact h.otaRests hlock rfl rfl rfl
    | none => exact h.otaRests hlock rfl rfl rfl
  | confirm => exact h.otaRests hlock rfl rfl rfl
  | rollback => exact h.otaMoves hlock rfl nofun (fun _ => rfl) nofun
  | stop => exact h.otaRests hlock rfl rfl rfl

theorem Apart.finishCheck (h : s.Apart) (hlock : s.ota ≠ .absent) (e : CheckEnd) :
    (s.finishCheck e).Apart := by
  cases e with
  | failed text => exact h.otaRests hlock rfl rfl rfl
  | notFound text => exact h.otaRests hlock rfl rfl rfl
  | found url newer => cases newer <;> exact h.otaRests hlock rfl rfl rfl

theorem Apart.otaStep (h : s.Apart) (i : OtaIn) : (s.otaStep i).Apart := by
  have hdown := h.seen.downloading
  have hroll := h.seen.rolling
  unfold Sys.otaStep
  cases hpc : s.ota with
  | absent => exact h
  | receives => exact h.receive (by simp [hpc]) i.timeout
  | obeys c => exact h.obey (by simp [hpc]) c i
  | ticks => cases i.tick <;> exact h.otaRests (by simp [hpc]) rfl rfl rfl
  | schedules =>
    dsimp only
    by_cases hdue : i.due = true ∧
        ¬ (s.state = .downloading ∨ s.state = .verifying ∨ s.state = .ready)
    · rw [if_pos hdue]
      exact h.otaRests (by simp [hpc]) rfl rfl rfl
    · rw [if_neg hdue]
      exact h.otaRests (by simp [hpc]) rfl rfl rfl
  | checks => cases i.obstacle <;> exact h.otaRests (by simp [hpc]) rfl rfl rfl
  | fetches => exact h.finishCheck (by simp [hpc]) i.checked
  | offers => cases i.autoInstall <;> exact h.otaRests (by simp [hpc]) rfl rfl rfl
  | claims url => exact h.otaMoves (by simp [hpc]) rfl (fun _ => rfl) nofun nofun
  | asks url =>
    rw [hpc] at hdown
    cases hrunning : s.running with
    | true => exact h.otaRests (by simp [hpc]) rfl rfl rfl
    | false =>
      exact h.otaMoves (by simp [hpc]) rfl (fun _ => hdown rfl) nofun fun _ => .inr hrunning
  | quiesces url =>
    rw [hpc] at hdown
    have hpast : s.ota.past = true := by rw [hpc]; rfl
    exact h.otaMoves (by simp [hpc]) rfl (fun _ => hdown rfl) nofun fun _ => .inl hpast
  | installs url =>
    rw [hpc] at hdown
    have hpast : s.ota.past = true := by rw [hpc]; rfl
    exact h.otaMoves (by simp [hpc]) rfl (fun _ => hdown rfl) nofun fun _ => .inl hpast
  | resumes error => cases error <;> exact h.otaRests (by simp [hpc]) rfl rfl rfl
  | reboots => exact h.otaRests (by simp [hpc]) rfl rfl rfl
  | fails text => exact h.otaRests (by simp [hpc]) rfl rfl rfl
  | asksRollback =>
    rw [hpc] at hroll
    cases hrunning : s.running with
    | true => exact h.otaMoves (by simp [hpc]) rfl nofun (fun _ => hroll rfl) nofun
    | false =>
      exact h.otaMoves (by simp [hpc]) rfl nofun (fun _ => hroll rfl) fun _ => .inr hrunning
  | unclaimsRollback => exact h.otaRests (by simp [hpc]) rfl rfl rfl
  | rollsBack =>
    rw [hpc] at hroll
    have hpast : s.ota.past = true := by rw [hpc]; rfl
    exact h.otaMoves (by simp [hpc]) rfl nofun (fun _ => hroll rfl) fun _ => .inl hpast
  | invalidates =>
    rw [hpc] at hroll
    have hpast : s.ota.past = true := by rw [hpc]; rfl
    exact h.otaMoves (by simp [hpc]) rfl nofun (fun _ => hroll rfl) fun _ => .inl hpast
  | returns => exact h.otaRests (by simp [hpc]) rfl rfl rfl
  | givesUp => exact h.otaRests (by simp [hpc]) rfl rfl rfl

-- The co-processor

variable {next : StartPc}

theorem Held.rests (h : s.Held) (hnext : next.holds = false) : (s.place task next).Held := by
  have hmoved {t : Nat} (ht : ((s.place task next).starts t).holds = true) :
      (s.starts t).holds = true := by
    rcases of_moved (P := fun pc : StartPc => pc.holds = true) ht with ⟨_, hnow⟩ | ⟨_, hold⟩
    · exact absurd (hnext.symm.trans hnow) Bool.false_ne_true
    · exact hold
  exact ⟨h.update, fun t ht => h.starts t (hmoved ht),
    fun t u ht hu => h.one t u (hmoved ht) (hmoved hu)⟩

theorem Held.moves (h : s.Held) (hin : (s.starts task).holds = true) :
    (s.place task next).Held := by
  have hmoved {t : Nat} (ht : ((s.place task next).starts t).holds = true) :
      (s.starts t).holds = true := by
    rcases of_moved (P := fun pc : StartPc => pc.holds = true) ht with ⟨rfl, _⟩ | ⟨_, hold⟩
    · exact hin
    · exact hold
  exact ⟨h.update, fun t ht => h.starts t (hmoved ht),
    fun t u ht hu => h.one t u (hmoved ht) (hmoved hu)⟩

theorem Held.claims (h : s.Held) (hfree : s.running = false) :
    ((s.setRunning true).place task next).Held := by
  have hnone (t : Nat) (ht : (s.starts t).holds = true) : False :=
    Bool.false_ne_true (hfree.symm.trans (h.starts t ht).1)
  have hmoved {t : Nat} (ht : (((s.setRunning true).place task next).starts t).holds = true) :
      t = task := by
    rcases of_moved (P := fun pc : StartPc => pc.holds = true) ht with ⟨rfl, _⟩ | ⟨_, hold⟩
    · rfl
    · exact (hnone t hold).elim
  exact ⟨fun _ => rfl, fun _ _ => ⟨rfl, (h.free hfree).1⟩,
    fun t u ht hu => (hmoved ht).trans (hmoved hu).symm⟩

-- Where the one that holds the co-processor lets it go, no request holds it.
theorem Held.nobody (h : s.Held) (hin : (s.starts task).holds = true)
    (hnext : next.holds = false) (t : Nat) :
    ¬ (Function.update s.starts task next t).holds = true := by
  intro ht
  rcases of_moved (P := fun pc : StartPc => pc.holds = true) ht with ⟨_, hnow⟩ | ⟨hne, hold⟩
  · exact Bool.false_ne_true (hnext.symm.trans hnow)
  · exact hne (h.one t task hold hin)

theorem Held.releases (h : s.Held) (hin : (s.starts task).holds = true)
    (hnext : next.holds = false) : ((s.setRunning false).place task next).Held :=
  ⟨fun hne => absurd (h.starts task hin).2 hne, fun t ht => absurd ht (h.nobody hin hnext t),
    fun t _ ht => absurd ht (h.nobody hin hnext t)⟩

theorem Held.creates (h : s.Held) (hin : (s.starts task).holds = true) (hnext : next.holds = false)
    (pc : UpdatePc) : ((s.setUpdate pc).place task next).Held :=
  ⟨fun _ => (h.starts task hin).1, fun t ht => absurd ht (h.nobody hin hnext t),
    fun t _ ht => absurd ht (h.nobody hin hnext t)⟩

-- What a request reads of the OTA task, and never writes.
def otaSide (s : Sys) : Bool × OtaState × Bool × OtaPc :=
  (s.lock, s.state, s.rollingBack, s.ota)

theorem otaSide_eq_iff {s' : Sys} : s'.otaSide = s.otaSide ↔ s'.lock = s.lock ∧
    s'.state = s.state ∧ s'.rollingBack = s.rollingBack ∧ s'.ota = s.ota := by
  simp [otaSide]

theorem Seen.congr {s' : Sys} (h : s.Seen) (hside : s'.otaSide = s.otaSide) : s'.Seen := by
  obtain ⟨hlock, hstate, hrolls, hota⟩ := otaSide_eq_iff.mp hside
  constructor
  · rw [hota, hlock]
    exact h.lock
  · rw [hota, hstate]
    exact h.downloading
  · rw [hota, hrolls]
    exact h.rolling

theorem Apart.startMoves {s' : Sys} (h : s.Apart) (hheld : s'.Held)
    (hside : s'.otaSide = s.otaSide) (hupdate : s'.update = s.update)
    (hstarts : s'.starts = Function.update s.starts task next)
    (hpast : next.past = true → (s.starts task).past = true ∨ s.ota.past = false) : s'.Apart := by
  obtain ⟨_, _, _, hota⟩ := otaSide_eq_iff.mp hside
  refine ⟨hheld, h.seen.congr hside, ?_⟩
  rw [hota, hupdate, hstarts]
  intro hnow
  obtain ⟨hnone, hbefore⟩ := h.apart hnow
  refine ⟨hnone, fun t => ?_⟩
  cases ht : ((Function.update s.starts task next) t).past with
  | false => rfl
  | true =>
    rcases of_moved (P := fun pc : StartPc => pc.past = true) ht with ⟨_, hnext⟩ | ⟨_, hold⟩
    · rcases hpast hnext with hold | hout
      · exact absurd ((hbefore task).symm.trans hold) Bool.false_ne_true
      · exact absurd (hout.symm.trans hnow) Bool.false_ne_true
    · exact absurd ((hbefore t).symm.trans hold) Bool.false_ne_true

-- A state that is not busy, with no rollback claimed, is that of a task that is
-- not past its check.
theorem Seen.not_past (h : s.Seen) (hbusy : (s.state.busy || s.rollingBack) = false) :
    s.ota.past = false := by
  obtain ⟨hstate, hrolls⟩ := Bool.or_eq_false_iff.mp hbusy
  cases hpast : s.ota.past with
  | false => rfl
  | true =>
    rcases OtaPc.claimed_of_past hpast with hclaimed | hclaimed
    · rw [h.downloading hclaimed] at hstate
      cases hstate
    · exact absurd (hrolls.symm.trans (h.rolling hclaimed)) Bool.false_ne_true

theorem Apart.startStep (h : s.Apart) (task : Nat) (ok : Bool) : (s.startStep task ok).Apart := by
  unfold Sys.startStep
  cases hpc : s.starts task with
  | out => exact h
  | answered e => exact h
  | inspects url =>
    cases s.pendingVerify with
    | true => exact h.startMoves (h.held.rests rfl) rfl rfl rfl nofun
    | false => exact h.startMoves (h.held.rests rfl) rfl rfl rfl nofun
  | claims url =>
    cases hrunning : s.running with
    | true =>
      have hsame : s.setRunning true = s := by
        unfold setRunning
        rw [← hrunning]
      rw [hsame]
      exact h.startMoves (h.held.rests rfl) rfl rfl rfl nofun
    | false => exact h.startMoves (h.held.claims hrunning) rfl rfl rfl nofun
  | asks url =>
    have hin : (s.starts task).holds = true := by rw [hpc]; rfl
    cases hlock : s.lock with
    | true => exact h.startMoves (h.held.moves hin) rfl rfl rfl nofun
    | false =>
      refine h.startMoves (h.held.moves hin) rfl rfl rfl fun _ => .inr ?_
      have habsent : s.ota = .absent := by
        by_contra hne
        exact Bool.false_ne_true (hlock.symm.trans (h.seen.lock hne))
      rw [habsent]
      rfl
  | reads url =>
    have hin : (s.starts task).holds = true := by rw [hpc]; rfl
    dsimp only
    cases hbusy : s.state.busy || s.rollingBack with
    | true => exact h.startMoves (h.held.moves hin) rfl rfl rfl nofun
    | false =>
      exact h.startMoves (h.held.moves hin) rfl rfl rfl fun _ => .inr (h.seen.not_past hbusy)
  | counts url =>
    have hin : (s.starts task).holds = true := by rw [hpc]; rfl
    have hpast : (s.starts task).past = true := by rw [hpc]; rfl
    dsimp only
    by_cases hqueue : s.queue = []
    · rw [if_pos hqueue]
      exact h.startMoves (h.held.moves hin) rfl rfl rfl fun _ => .inl hpast
    · rw [if_neg hqueue]
      exact h.startMoves (h.held.moves hin) rfl rfl rfl nofun
  | unclaims =>
    have hin : (s.starts task).holds = true := by rw [hpc]; rfl
    exact h.startMoves (h.held.releases hin rfl) rfl rfl rfl nofun
  | records url =>
    have hin : (s.starts task).holds = true := by rw [hpc]; rfl
    have hpast : (s.starts task).past = true := by rw [hpc]; rfl
    have hheld : (s.place task (.creates url)).Held := h.held.moves hin
    exact h.startMoves ⟨hheld.update, hheld.starts, hheld.one⟩ rfl rfl rfl fun _ => .inl hpast
  | creates url =>
    have hin : (s.starts task).holds = true := by rw [hpc]; rfl
    have hpast : (s.starts task).past = true := by rw [hpc]; rfl
    cases ok with
    | true =>
      refine ⟨h.held.creates hin rfl _, h.seen.congr rfl, fun hnow => ?_⟩
      exact absurd (((h.apart hnow).2 task).symm.trans hpast) Bool.false_ne_true
    | false => exact h.startMoves (h.held.moves hin) rfl rfl rfl nofun
  | unrecords =>
    have hin : (s.starts task).holds = true := by rw [hpc]; rfl
    have hheld : ((s.setRunning false).place task (.answered .noMem)).Held :=
      h.held.releases hin rfl
    exact h.startMoves ⟨hheld.update, hheld.starts, hheld.one⟩ rfl rfl rfl nofun

-- The update

theorem Apart.updateMoves {s' : Sys} (h : s.Apart) (hrunning : s'.running = s.running)
    (hstarts : s'.starts = s.starts) (hside : s'.otaSide = s.otaSide) (hbefore : s.update ≠ .none) :
    s'.Apart := by
  obtain ⟨_, _, _, hota⟩ := otaSide_eq_iff.mp hside
  have hnone (t : Nat) : ¬ (s.starts t).holds = true :=
    fun ht => hbefore (h.held.starts t ht).2
  refine ⟨⟨fun _ => hrunning.trans (h.held.update hbefore), ?_, ?_⟩, h.seen.congr hside, ?_⟩
  · rw [hstarts]
    exact fun t ht => absurd ht (hnone t)
  · rw [hstarts]
    exact fun t _ ht => absurd ht (hnone t)
  · rw [hota]
    exact fun hnow => absurd (h.apart hnow).1 hbefore

theorem Apart.updateStep (h : s.Apart) (ok : Bool) : (s.updateStep ok).Apart := by
  unfold Sys.updateStep
  cases hpc : s.update with
  | none => exact h
  | downloads => cases ok <;> exact h.updateMoves rfl rfl rfl (by simp [hpc])
  | verifies => cases ok <;> exact h.updateMoves rfl rfl rfl (by simp [hpc])
  | writes => cases ok <;> exact h.updateMoves rfl rfl rfl (by simp [hpc])
  | activates => cases ok <;> exact h.updateMoves rfl rfl rfl (by simp [hpc])
  | settles => exact h
  | finishes =>
    have hne : s.update ≠ .none := by simp [hpc]
    have hnone (t : Nat) : ¬ (s.starts t).holds = true :=
      fun ht => hne (h.held.starts t ht).2
    refine ⟨⟨fun hne => absurd rfl hne, fun t ht => absurd ht (hnone t),
      fun t _ ht => absurd ht (hnone t)⟩, h.seen.congr rfl, fun hnow => ?_⟩
    exact ⟨rfl, (h.apart hnow).2⟩

-- The rest sends commands and starts the task.
theorem Apart.congr {s' : Sys} (h : s.Apart) (hcoproc : s'.coproc = s.coproc)
    (hside : s'.otaSide = s.otaSide) : s'.Apart := by
  obtain ⟨_, hstarts, hupdate, _⟩ := coproc_eq_iff.mp hcoproc
  obtain ⟨_, _, _, hota⟩ := otaSide_eq_iff.mp hside
  refine ⟨h.held.congr hcoproc, h.seen.congr hside, ?_⟩
  rw [hota, hstarts, hupdate]
  exact h.apart

theorem callStep_sides (s : Sys) (task : Nat) (call : Call) :
    (s.callStep task call).coproc = s.coproc ∧ (s.callStep task call).otaSide = s.otaSide := by
  cases call with
  | installUrl url => cases url <;> exact ⟨rfl, rfl⟩
  | checkNow => exact ⟨rfl, rfl⟩
  | installAvailable => exact ⟨rfl, rfl⟩
  | confirm => exact ⟨rfl, rfl⟩
  | rollback => exact ⟨rfl, rfl⟩

theorem sendStep_sides (s : Sys) (task : Nat) :
    (s.sendStep task).coproc = s.coproc ∧ (s.sendStep task).otaSide = s.otaSide := by
  unfold sendStep
  cases s.requests task <;> exact ⟨rfl, rfl⟩

theorem Apart.otaStart (h : s.Apart) : s.otaStart.Apart := by
  unfold Sys.otaStart
  by_cases habsent : s.ota = .absent
  · rw [if_pos habsent]
    exact ⟨⟨h.held.update, h.held.starts, h.held.one⟩, ⟨fun _ => rfl, nofun, nofun⟩, nofun⟩
  · rwa [if_neg habsent]

theorem Apart.otaStop (h : s.Apart) : s.otaStop.Apart := by
  unfold Sys.otaStop
  by_cases hpresent : s.ota ≠ .absent
  · rw [if_pos hpresent]
    exact h.congr rfl rfl
  · rwa [if_neg hpresent]

end Sys

theorem apart_step (B : Build) (s : Sys) (e : Event) (h : s.Apart) : (step B s e).Apart := by
  cases e with
  | otaStart => exact h.otaStart
  | otaStop => exact h.otaStop
  | ota i => exact h.otaStep i
  | calls task call =>
    obtain ⟨hcoproc, hside⟩ := s.callStep_sides task call
    have hcalls := h.congr hcoproc hside
    simp only [step]
    cases s.requests task <;> first | exact h | exact hcalls
  | sends task =>
    obtain ⟨hcoproc, hside⟩ := s.sendStep_sides task
    exact h.congr hcoproc hside
  | posts task url =>
    have hposts : (s.postStep B task url).Apart := by
      unfold Sys.postStep
      generalize (if url.getD [] = [] then ESPOS_COPROC_FW_URL else url.getD []) = url
      dsimp only
      by_cases hcheck : Sys.startCheck B url = .ok
      · rw [if_pos hcheck]
        exact h.startMoves (h.held.rests rfl) rfl rfl rfl nofun
      · rw [if_neg hcheck]
        exact h.startMoves (h.held.rests rfl) rfl rfl rfl nofun
    simp only [step]
    cases s.starts task <;> first | exact h | exact hposts
  | starts task ok => exact h.startStep task ok
  | update ok => exact h.updateStep ok
  | restart pendingVerify => exact Sys.apart_boot pendingVerify

-- Whatever races, a co-processor update and an install or a requested rollback
-- never run at once.
theorem updates_exclude (B : Build) (pendingVerify : Bool) (es : List Event) :
    Always (step B) Sys.Exclusive (.boot pendingVerify) es := by
  have halways : Always (step B) Sys.Apart (.boot pendingVerify) es :=
    always_of_along (C := fun _ _ => True) (fun s e h _ => apart_step B s e h)
      (Sys.apart_boot pendingVerify) (along_of_forall fun _ _ => trivial)
  exact halways.imp fun _ h => h.exclusive

end Espos.Update
