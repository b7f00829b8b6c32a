import Espos.Sk.Inbound.PutsKept

namespace Espos.Sk.Inbound

open Espos.Text
open Espos.Run

namespace Puts

variable {t t' : Puts} {p q : Put}

-- The loop will come to slot `j` and find the PUT there to be ended.
def reaches (j : Nat) (p : Put) : Pass → Prop
  | .none => False
  | .tick now i => i ≤ j ∧ timedOut now p = true
  | .close i => i ≤ j

def passIndex : Pass → Nat
  | .none => 0
  | .tick _ i => i
  | .close i => i

-- The PUT's end is told by the time the stream task has gone on `n` times.
def Due (t : Puts) (p : Put) (n : Nat) : Prop :=
  ¬ t.Waits p ∨ (t.Called p ∧ 1 ≤ n) ∨
    ∃ j pass, t.slots[j]? = some (some p) ∧ reaches j p pass ∧
      ((t.task = .running pass ∧ 2 * (j - passIndex pass) + 2 ≤ n) ∨
        ∃ c, t.task = .calling c pass ∧ 2 * (j - passIndex pass) + 3 ≤ n)

theorem Due.mono {n m : Nat} (h : t.Due p n) (hle : n ≤ m) : t.Due p m := by
  rcases h with h | ⟨h, hn⟩ | ⟨j, pass, hslot, hreach, ⟨htask, hn⟩ | ⟨c, htask, hn⟩⟩
  · exact Or.inl h
  · exact Or.inr (Or.inl ⟨h, by omega⟩)
  · exact Or.inr (Or.inr ⟨j, pass, hslot, hreach, Or.inl ⟨htask, by omega⟩⟩)
  · exact Or.inr (Or.inr ⟨j, pass, hslot, hreach, Or.inr ⟨c, htask, by omega⟩⟩)

-- The loop ends a PUT at slot `i`: the one in question, or one before it.
theorem due_finish (h : t.Kept) {i j n : Nat} {c : Call} {pass : Pass}
    (hslot : t.slots[j]? = some (some p)) (hput : t.slots[i]? = some (some c.put)) (hij : i ≤ j)
    (hterminal : c.terminal = true) (hslots : t'.slots = t.slots.set i none)
    (hreach : i < j → reaches j p pass ∧ passIndex pass = i + 1) (hn : 2 * (j - i) + 1 ≤ n) :
    (t'.handOver c pass).Due p n := by
  by_cases heq : i = j
  · subst heq
    rw [hslot] at hput
    obtain rfl : p = c.put := Option.some.inj (Option.some.inj hput)
    cases hcb : c.put.cb.isSome with
    | true =>
      right
      left
      exact ⟨⟨c, pass, by simp [handOver, setTask, hcb], hterminal, rfl⟩, by omega⟩
    | false =>
      left
      rintro (hin | ⟨c', pass', htask, _⟩)
      · change some c.put ∈ t'.slots at hin
        rw [hslots] at hin
        exact ((mem_set_none h hslot).mp hin).1 rfl
      · have := (handOver_calling htask).2
        rw [hcb] at this
        cases this
  · right
    right
    obtain ⟨hreaches, hindex⟩ := hreach (by omega)
    refine ⟨j, pass, ?_, hreaches, ?_⟩
    · change t'.slots[j]? = some (some p)
      rw [hslots, List.getElem?_set_ne heq]
      exact hslot
    · rw [hindex]
      cases hcb : c.put.cb.isSome with
      | true =>
        right
        exact ⟨c, by simp [handOver, setTask, hcb], by omega⟩
      | false =>
        left
        exact ⟨by simp [handOver, setTask, hcb], by omega⟩

theorem due_goOn (h : t.Kept) {j n : Nat} {pass : Pass} (hslot : t.slots[j]? = some (some p))
    (hreach : reaches j p pass) (hn : 2 * (j - passIndex pass) + 1 ≤ n) :
    (t.goOn pass).Due p n := by
  cases pass with
  | none => cases hreach
  | tick now i =>
    obtain ⟨hij, hout⟩ := hreach
    simp only [Puts.goOn]
    split
    · rename_i hscan
      rw [scan_eq_none hscan hij hslot] at hout
      cases hout
    · rename_i k q hscan
      obtain ⟨hik, hput, _, hfirst⟩ := scan_eq_some hscan
      have hkj := hfirst j p hij hslot hout
      simp only [passIndex] at hn
      exact due_finish h (c := ⟨q, lit "TIMEOUT", 0, lit "no response"⟩) hslot hput hkj rfl rfl
        (fun hlt => ⟨⟨hlt, hout⟩, rfl⟩) (by omega)
  | close i =>
    have hij : i ≤ j := hreach
    simp only [Puts.goOn]
    split
    · rename_i hscan
      have := scan_eq_none hscan hij hslot
      cases this
    · rename_i k q hscan
      obtain ⟨hik, hput, _, hfirst⟩ := scan_eq_some hscan
      have hkj := hfirst j p hij hslot rfl
      simp only [passIndex] at hn
      exact due_finish h (c := ⟨q, lit "FAILED", 0, lit "stream closed"⟩) hslot hput hkj rfl rfl
        (fun hlt => ⟨hlt, rfl⟩) (by omega)

-- A PUT waits for its end from when it is accepted.
theorem waits_handOver {c : Call} {pass : Pass} (hslots : ∀ q, some q ∈ t'.slots → some q ∈ t.slots)
    (hput : some c.put ∈ t.slots) (h : (t'.handOver c pass).Waits q) : t.Waits q := by
  rcases h with h | ⟨c', pass', htask, _, rfl⟩
  · exact Or.inl (hslots q h)
  · obtain ⟨rfl, _⟩ := handOver_calling htask
    exact Or.inl hput

theorem mem_of_mem_set_none {slots : List (Option Put)} {i : Nat} (h : some q ∈ slots.set i none) :
    some q ∈ slots := by
  rcases List.mem_or_eq_of_mem_set h with h | h
  · exact h
  · cases h

theorem waits_goOn {pass : Pass} (h : (t.goOn pass).Waits q) : t.Waits q := by
  have hidle {s : Puts} (hslots : s.slots = t.slots) (h : (s.setTask .idle).Waits q) : t.Waits q := by
    rcases h with h | ⟨c, pass, htask, _⟩
    · left
      rw [← hslots]
      exact h
    · cases htask
  unfold Puts.goOn at h
  split at h
  · exact hidle rfl h
  · split at h
    · exact hidle rfl h
    · rename_i j p hscan
      obtain ⟨_, hslot, _, _⟩ := scan_eq_some hscan
      exact waits_handOver (fun q hq => mem_of_mem_set_none hq) (List.mem_of_getElem? hslot) h
  · split at h
    · exact hidle rfl h
    · rename_i j p hscan
      obtain ⟨_, hslot, _, _⟩ := scan_eq_some hscan
      exact waits_handOver (fun q hq => mem_of_mem_set_none hq) (List.mem_of_getElem? hslot) h

theorem waits_handleResponse {r : Response} (h : (t.handleResponse r).Waits q) : t.Waits q := by
  unfold Puts.handleResponse at h
  split at h
  · exact h
  · split at h
    · exact h
    · rename_i i p hscan
      obtain ⟨_, hslot, _, _⟩ := scan_eq_some hscan
      apply waits_handOver _ (List.mem_of_getElem? hslot) h
      intro q hq
      unfold settle at hq
      split at hq
      · exact hq
      · split at hq <;> exact mem_of_mem_set_none hq

theorem waits_step (h : t.Kept) (e : Event) (hq : (t.step e).Waits q) (hold : q ∈ t.accepted) :
    t.Waits q := by
  cases e with
  | put path value cb id now alloc =>
    simp only [step] at hq
    rcases t.put_cases path value cb id now alloc with ⟨_, _, hput⟩ | ⟨i, frame, hslot, hput⟩
    · rw [hput] at hq
      exact hq
    · rw [hput] at hq
      rcases hq with hq | hq
      · rcases (mem_set_some hslot).mp hq with rfl | hq
        · have := h.numbered _ hold
          exact absurd this (lt_irrefl _)
        · exact Or.inl hq
      · exact Or.inr hq
  | proceed =>
    simp only [step, Puts.proceed] at hq
    split at hq
    · exact hq
    · rcases hq with hq | ⟨c, pass, htask, _⟩
      · exact Or.inl hq
      · cases htask
    · exact waits_goOn hq
  | response r =>
    simp only [step] at hq
    split at hq
    · exact waits_handleResponse hq
    · exact hq
  | tick now =>
    simp only [step] at hq
    split at hq
    · exact waits_goOn hq
    · exact hq
  | setConnected connected =>
    simp only [step, Puts.setConnected] at hq
    split at hq
    · split at hq
      · exact hq
      · have hwaits := waits_goOn hq
        exact hwaits
    · exact hq
  | takeRaw =>
    simp only [step] at hq
    split at hq
    · exact hq
    · exact hq

theorem accepted_goOn (t : Puts) (pass : Pass) : (t.goOn pass).accepted = t.accepted := by
  unfold Puts.goOn
  split
  · rfl
  · split <;> rfl
  · split <;> rfl

theorem accepted_step (t : Puts) (e : Event) : t.accepted <+: (t.step e).accepted := by
  have hsame {s : Puts} (h : s.accepted = t.accepted) : t.accepted <+: s.accepted := by
    rw [h]
  cases e with
  | put path value cb id now alloc =>
    simp only [step]
    rcases t.put_cases path value cb id now alloc with ⟨_, _, hput⟩ | ⟨i, frame, _, hput⟩
    · rw [hput]
    · rw [hput]
      exact List.prefix_append _ _
  | proceed =>
    apply hsame
    simp only [step, Puts.proceed]
    split
    · rfl
    · rfl
    · exact t.accepted_goOn _
  | response r =>
    apply hsame
    simp only [step, Puts.handleResponse, settle]
    repeat' split
    all_goals rfl
  | tick now =>
    apply hsame
    simp only [step]
    split
    · exact t.accepted_goOn _
    · rfl
  | setConnected connected =>
    apply hsame
    simp only [step, Puts.setConnected]
    split
    · split
      · rfl
      · exact accepted_goOn _ _
    · rfl
  | takeRaw =>
    apply hsame
    simp only [step]
    split <;> rfl

theorem accepted_run (es : List Event) : t.accepted <+: (Run.run step t es).accepted := by
  induction es generalizing t with
  | nil => exact List.prefix_refl _
  | cons e es ih => exact (t.accepted_step e).trans ih

-- While the stream task is on its way only PUTs come in between.
theorem step_of_busy {e : Event} (hbusy : t.task ≠ .idle) (hproceed : e ≠ .proceed) :
    t.step e = t ∨ ∃ i frame p, t.slots[i]? = some none ∧ p.serial = t.accepted.length ∧
      t.step e = t.accept i frame p := by
  cases e with
  | put path value cb id now alloc =>
    simp only [step]
    rcases t.put_cases path value cb id now alloc with ⟨_, _, hput⟩ | ⟨i, frame, hslot, hput⟩
    · left
      rw [hput]
    · right
      exact ⟨i, frame, ⟨id, cb, now, t.accepted.length⟩, hslot, rfl, by rw [hput]⟩
  | proceed => exact absurd rfl hproceed
  | response r => exact Or.inl (if_neg hbusy)
  | tick now => exact Or.inl (if_neg hbusy)
  | setConnected connected => exact Or.inl (if_neg hbusy)
  | takeRaw => exact Or.inl (if_neg hbusy)

theorem Due.accept {n i : Nat} {frame : CStr} (hslot : t.slots[i]? = some none)
    (hnew : p ≠ q) (h : t.Due p n) : (t.accept i frame q).Due p n := by
  rcases h with h | ⟨h, hn⟩ | ⟨j, pass, hj, hreach, htask⟩
  · left
    rintro (hin | hcalled)
    · rcases (mem_set_some hslot).mp hin with heq | hin
      · exact hnew heq
      · exact h (Or.inl hin)
    · exact h (Or.inr hcalled)
  · exact Or.inr (Or.inl ⟨h, hn⟩)
  · refine Or.inr (Or.inr ⟨j, pass, ?_, hreach, htask⟩)
    change (t.slots.set i (some q))[j]? = some (some p)
    rw [List.getElem?_set_ne, hj]
    rintro rfl
    rw [hslot] at hj
    cases hj

theorem Due.proceed {n : Nat} (h : t.Kept) (hp : p ∈ t.accepted) (hdue : t.Due p n) :
    t.proceed.Due p (n - 1) := by
  rcases hdue with hnot | ⟨⟨c, pass, htask, hterminal, rfl⟩, hn⟩ |
    ⟨j, pass, hslot, hreach, ⟨htask, hn⟩ | ⟨c, htask, hn⟩⟩
  · left
    intro hwaits
    exact hnot (waits_step h .proceed hwaits hp)
  · left
    simp only [Puts.proceed, htask]
    rintro (hin | ⟨_, _, hcalling, _⟩)
    · exact h.gone c.put ⟨c, pass, htask, hterminal, rfl⟩ hin
    · cases hcalling
  · simp only [Puts.proceed, htask]
    exact due_goOn h hslot hreach (by omega)
  · right
    right
    refine ⟨j, pass, ?_, hreach, Or.inl ⟨?_, by omega⟩⟩
    · simpa only [Puts.proceed, htask] using hslot
    · simp only [Puts.proceed, htask]

theorem Due.step {n : Nat} (h : t.Kept) (hp : p ∈ t.accepted) (hdue : t.Due p n) (e : Event) :
    (t.step e).Due p (n - if e = .proceed then 1 else 0) := by
  by_cases hproceed : e = .proceed
  · rw [if_pos hproceed, hproceed]
    exact hdue.proceed h hp
  · rw [if_neg hproceed, Nat.sub_zero]
    by_cases hwaits : t.Waits p
    · have hbusy : t.task ≠ .idle := by
        intro hidle
        rcases hdue with hnot | ⟨⟨c, pass, htask, _⟩, _⟩ |
          ⟨j, pass, _, _, ⟨htask, _⟩ | ⟨c, htask, _⟩⟩
        · exact hnot hwaits
        all_goals
          rw [hidle] at htask
          cases htask
      rcases step_of_busy hbusy hproceed with heq | ⟨i, frame, q, hslot, hserial, heq⟩
      · rw [heq]
        exact hdue
      · rw [heq]
        refine hdue.accept hslot ?_
        rintro rfl
        have := h.numbered p hp
        omega
    · left
      intro hwaits'
      exact hwaits (waits_step h e hwaits' hp)

theorem Due.run {n : Nat} (h : t.Kept) (hp : p ∈ t.accepted) (hdue : t.Due p n)
    (es : List Event) : (Run.run Puts.step t es).Due p (n - es.count .proceed) := by
  induction es generalizing t n with
  | nil => simpa using hdue
  | cons e es ih =>
    have hnext := ih (kept_step t e h) ((t.accepted_step e).subset hp) (hdue.step h hp e)
    apply hnext.mono
    rw [List.count_cons]
    simp only [beq_iff_eq]
    omega

-- The event is one that ends the PUT: the last word of a response to it, a
-- tick past its time, or a disconnect. A response goes by the request id, so
-- the PUT is the only one in flight with it.
def Ends (t : Puts) (p : Put) (e : Event) : Prop :=
  t.task = .idle ∧
    match e with
    | .response r => r.requestId = some p.id ∧ r.pending = false ∧
        ∀ q, some q ∈ t.slots → q.id = p.id → q = p
    | .tick now => timedOut now p = true
    | .setConnected connected => connected = false
    | _ => False

theorem due_of_ends (h : t.Kept) {e : Event} (hp : some p ∈ t.slots) (hends : t.Ends p e) :
    (t.step e).Due p (2 * MAX_PUTS) := by
  obtain ⟨j, hslot⟩ := List.mem_iff_getElem?.mp hp
  have hlt : j < MAX_PUTS := by
    rw [← h.size]
    exact (List.getElem?_eq_some_iff.mp hslot).1
  obtain ⟨hidle, hends⟩ := hends
  cases e with
  | put path value cb id now alloc => cases hends
  | proceed => cases hends
  | takeRaw => cases hends
  | tick now =>
    simp only [step, hidle, if_true]
    exact due_goOn h hslot ⟨Nat.zero_le j, hends⟩ (by simp only [passIndex]; omega)
  | setConnected connected =>
    have hfree := free_of_idle hidle
    have hstate : Kept { t with s := { t.s.setConnected connected with raw := t.s.raw } } :=
      h.congr_of_free hfree hfree rfl rfl rfl rfl rfl
    simp only [step, hidle, if_true, Puts.setConnected]
    rw [if_neg (by simp [show connected = false from hends])]
    have hreach : reaches j p (.close 0) := Nat.zero_le j
    exact due_goOn hstate hslot hreach (by simp only [passIndex]; omega)
  | response r =>
    obtain ⟨hid, hfinal, honly⟩ := hends
    simp only [step, hidle, if_true, Puts.handleResponse, hid]
    split
    · rename_i hscan
      have := scan_eq_none hscan (Nat.zero_le j) hslot
      simp at this
    · rename_i i q hscan
      obtain ⟨_, hput, hq, _⟩ := scan_eq_some hscan
      obtain rfl := honly q (List.mem_of_getElem? hput) (by simpa using hq)
      obtain rfl := h.apart i j q hput hslot
      have hterminal :
          Call.terminal ⟨q, r.state.getD [], r.statusCode, r.message.getD []⟩ = true :=
        terminal_of_final hfinal
      have hslots : (t.settle r i).slots = t.slots.set i none := by
        simp only [settle, hfinal, Bool.false_eq_true, if_false]
        split <;> rfl
      exact due_finish h hslot hslot (le_refl i) hterminal hslots
        (fun hlt => absurd hlt (lt_irrefl i)) (by simp [MAX_PUTS])

end Puts

-- Every accepted PUT ends exactly once, whatever comes in between, and the
-- counters know of each.
theorem put_ends_once (es : List Puts.Event) :
    let t := run Puts.step Puts.start es
    (∀ path value cb id now alloc, (t.put path value cb id now alloc).2 = .ok →
      ∃ p, p.cb = cb ∧ p.id = id ∧ (t.put path value cb id now alloc).1.accepted = t.accepted ++ [p] ∧
        some p ∈ (t.put path value cb id now alloc).1.slots) ∧
    t.putsSent + t.putsFailed + UInt32.ofNat t.used = UInt32.ofNat t.accepted.length ∧
    (∀ p ∈ t.accepted, t.told p ≤ 1 ∧ (some p ∈ t.slots → t.told p = 0)) ∧
    ∀ p, some p ∈ t.slots → p.cb.isSome → ∀ e, t.Ends p e → ∀ later,
      2 * MAX_PUTS ≤ later.count .proceed →
      (run Puts.step (t.step e) later).told p = 1 ∧
        some p ∉ (run Puts.step (t.step e) later).slots := by
  intro t
  have hkept : t.Kept := Puts.kept_run es
  refine ⟨?_, hkept.balance, ?_, ?_⟩
  · intro path value cb id now alloc hok
    rcases t.put_cases path value cb id now alloc with ⟨err, herr, hput⟩ | ⟨i, frame, hslot, hput⟩
    · rw [hput] at hok
      exact absurd hok herr
    · rw [hput]
      exact ⟨_, rfl, rfl, rfl, (Puts.mem_set_some hslot).mpr (Or.inl rfl)⟩
  · intro p hp
    refine ⟨?_, fun hslot => hkept.silent p (Or.inl hslot)⟩
    by_cases hwaits : t.Waits p
    · rw [hkept.silent p hwaits]
      exact Nat.zero_le 1
    · rw [hkept.ended p hp hwaits]
      split <;> simp
  · intro p hslot hcb e hends later hlater
    have haccepted := hkept.listed p hslot
    have hdue := Puts.due_of_ends hkept hslot hends
    have hkept' := Puts.kept_step t e hkept
    have haccepted' := (t.accepted_step e).subset haccepted
    have hdone := (hdue.run hkept' haccepted' later).mono (Nat.sub_eq_zero_of_le hlater).le
    have hlast : (run Puts.step (t.step e) later).Kept := run_invariant Puts.kept_step hkept' later
    have hin : p ∈ (run Puts.step (t.step e) later).accepted :=
      (Puts.accepted_run later).subset haccepted'
    have hnot : ¬ (run Puts.step (t.step e) later).Waits p := by
      rcases hdone with hnot | ⟨_, hn⟩ | ⟨j, pass, _, _, ⟨_, hn⟩ | ⟨_, _, hn⟩⟩
      · exact hnot
      all_goals omega
    refine ⟨?_, fun hslot' => hnot (Or.inl hslot')⟩
    rw [hlast.ended p hin hnot, hcb]
    rfl

-- One PUT is answered, one times out and one is cut off with the stream.
example :
    let t := run Puts.step Puts.start
      [.setConnected true, .put (lit "a") (some (lit "1")) (some 1) (lit "x") 0 true,
        .put (lit "b") (some (lit "2")) (some 2) (lit "y") 5000 true,
        .put (lit "c") (some (lit "3")) (some 3) (lit "z") 9000 true,
        .response ⟨some (lit "x"), some (lit "COMPLETED"), 200, none⟩, .proceed, .proceed,
        .tick 16000, .proceed, .proceed, .setConnected false, .proceed, .proceed]
    t.calls.map Call.state = [lit "COMPLETED", lit "TIMEOUT", lit "FAILED"] ∧
      t.accepted.map t.told = [1, 1, 1] ∧ t.putsSent = 1 ∧ t.putsFailed = 2 := by
  decide +kernel

end Espos.Sk.Inbound
