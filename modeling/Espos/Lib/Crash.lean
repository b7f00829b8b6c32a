import Mathlib.Logic.Basic

-- Programs whose operations act on a store one at a time, and which may be cut
-- short between any two of them.

namespace Espos.Crash

variable {ο : Type} {ρ : ο → Type} {α β ι : Type}

-- An operation and what is done with its reply, or the end.
inductive Prog (ρ : ο → Type) (α : Type) where
  | done (a : α)
  | op (o : ο) (k : ρ o → Prog ρ α)

namespace Prog

def bind : Prog ρ α → (α → Prog ρ β) → Prog ρ β
  | .done a, f => f a
  | .op o k, f => .op o fun r => bind (k r) f

instance : Monad (Prog ρ) where
  pure := .done
  bind := bind

def perform (o : ο) : Prog ρ (ρ o) :=
  .op o .done

-- Whatever the replies, the program carries out operations that are in `R` only.
def Uses (R : ο → Prop) : Prog ρ α → Prop
  | .done _ => True
  | .op o k => R o ∧ ∀ r, Uses R (k r)

section Uses

variable {R : ο → Prop}

@[simp] theorem uses_pure (a : α) : (pure a : Prog ρ α).Uses R := trivial

theorem uses_perform {o : ο} (h : R o) : (perform o : Prog ρ (ρ o)).Uses R :=
  ⟨h, fun _ => trivial⟩

theorem uses_bind {p : Prog ρ α} {f : α → Prog ρ β} (hp : p.Uses R) (hf : ∀ a, (f a).Uses R) :
    (p >>= f).Uses R := by
  induction p with
  | done a => exact hf a
  | op o k ih => exact ⟨hp.1, fun r => ih r (hp.2 r)⟩

theorem uses_ite (P : Prop) [Decidable P] {p q : Prog ρ α} (hp : p.Uses R) (hq : q.Uses R) :
    (if P then p else q).Uses R := by
  by_cases hP : P
  · rw [if_pos hP]
    exact hp
  · rw [if_neg hP]
    exact hq

theorem uses_foldlM {f : β → ι → Prog ρ β} (hf : ∀ b i, (f b i).Uses R) (b : β) (is : List ι) :
    (is.foldlM f b).Uses R := by
  induction is generalizing b with
  | nil => exact trivial
  | cons i is ih =>
    rw [List.foldlM_cons]
    exact uses_bind (hf b i) fun b => ih b

theorem Uses.imp {R' : ο → Prop} (h : ∀ o, R o → R' o) {p : Prog ρ α} (hp : p.Uses R) :
    p.Uses R' := by
  induction p with
  | done a => trivial
  | op o k ih => exact ⟨h o hp.1, fun r => ih r (hp.2 r)⟩

end Uses

-- Whatever the replies, the program ends in `P`.
def Ends (P : α → Prop) : Prog ρ α → Prop
  | .done a => P a
  | .op _ k => ∀ r, Ends P (k r)

section Ends

variable {P : α → Prop}

theorem ends_bind {p : Prog ρ β} {f : β → Prog ρ α} (hf : ∀ b, (f b).Ends P) :
    (p >>= f).Ends P := by
  induction p with
  | done b => exact hf b
  | op o k ih => exact fun r => ih r

theorem Ends.imp {Q : α → Prop} (h : ∀ a, P a → Q a) {p : Prog ρ α} (hp : p.Ends P) :
    p.Ends Q := by
  induction p with
  | done a => exact h a hp
  | op o k ih => exact fun r => ih r (hp r)

theorem Ends.bind {P' : β → Prop} {p : Prog ρ β} {f : β → Prog ρ α} (hp : p.Ends P')
    (hf : ∀ b, P' b → (f b).Ends P) : (p >>= f).Ends P := by
  induction p with
  | done b => exact hf b hp
  | op o k ih => exact fun r => ih r (hp r)

-- What a program ends in, the one behind it starts from.
theorem Uses.bind_of_ends {R : ο → Prop} {P' : β → Prop} {p : Prog ρ β} {f : β → Prog ρ α}
    (hp : p.Uses R) (hends : p.Ends P') (hf : ∀ b, P' b → (f b).Uses R) : (p >>= f).Uses R := by
  induction p with
  | done b => exact hf b hends
  | op o k ih => exact ⟨hp.1, fun r => ih r (hp.2 r) (hends r)⟩

theorem ends_ite (T : Prop) [Decidable T] {p q : Prog ρ α} (hp : p.Ends P) (hq : q.Ends P) :
    (if T then p else q).Ends P := by
  by_cases hT : T
  · rw [if_pos hT]
    exact hp
  · rw [if_neg hT]
    exact hq

end Ends

section Run

-- `act o e s` is what the operation `o` replies and leaves, where `e` is what it
-- meets.
variable {ε σ : Type} (act : (o : ο) → ε → σ → ρ o × σ)

-- The program goes on for as long as there is input; where that ends first, it is
-- cut short. The input that is left is handed back.
def exec : Prog ρ α → List ε → σ → Option α × List ε × σ
  | .done a, es, s => (some a, es, s)
  | .op _ _, [], s => (none, [], s)
  | .op o k, e :: es, s => exec (k (act o e s).1) es (act o e s).2

-- The program to its end, where every operation meets `e`.
def complete (e : ε) : Prog ρ α → σ → α × σ
  | .done a, s => (a, s)
  | .op o k, s => complete e (k (act o e s).1) (act o e s).2

-- Every operation that is carried out meets `C`.
def AlongOps (C : ο → ε → σ → Prop) : Prog ρ α → List ε → σ → Prop
  | .done _, _, _ => True
  | .op _ _, [], _ => True
  | .op o k, e :: es, s => C o e s ∧ AlongOps C (k (act o e s).1) es (act o e s).2

instance AlongOps.decidable (C : ο → ε → σ → Prop) [∀ o e s, Decidable (C o e s)] :
    (p : Prog ρ α) → (es : List ε) → (s : σ) → Decidable (AlongOps act C p es s)
  | .done _, _, _ => .isTrue trivial
  | .op _ _, [], _ => .isTrue trivial
  | .op o k, e :: es, s =>
    have := AlongOps.decidable C (k (act o e s).1) es (act o e s).2
    inferInstanceAs (Decidable (_ ∧ _))

-- The program, each operation of which meets `C`, stays in `crash` in front of its
-- operations and ends in `Q`.
def wp (C : ο → ε → σ → Prop) (crash : σ → Prop) : Prog ρ α → (α → σ → Prop) → σ → Prop
  | .done a, Q, s => Q a s
  | .op o k, Q, s =>
    crash s ∧ ∀ e, C o e s → wp C crash (k (act o e s).1) Q (act o e s).2

variable {act} {C : ο → ε → σ → Prop} {crash : σ → Prop} {Q Q' : α → σ → Prop} {s : σ}

@[simp] theorem wp_pure (a : α) : wp act C crash (pure a : Prog ρ α) Q s ↔ Q a s := Iff.rfl

@[simp] theorem wp_bind (p : Prog ρ α) (f : α → Prog ρ β) {Q : β → σ → Prop} {s : σ} :
    wp act C crash (p >>= f) Q s ↔ wp act C crash p (fun a s => wp act C crash (f a) Q s) s := by
  induction p generalizing s with
  | done a => exact Iff.rfl
  | op o k ih =>
    show (crash s ∧ ∀ e, C o e s → wp act C crash (k (act o e s).1 >>= f) Q (act o e s).2) ↔ _
    simp only [wp, ih]

@[simp] theorem wp_perform (o : ο) {Q : ρ o → σ → Prop} :
    wp act C crash (perform o) Q s ↔
      crash s ∧ ∀ e, C o e s → Q (act o e s).1 (act o e s).2 := Iff.rfl

theorem wp_ite (P : Prop) [Decidable P] {p q : Prog ρ α} (hp : P → wp act C crash p Q s)
    (hq : ¬P → wp act C crash q Q s) : wp act C crash (if P then p else q) Q s := by
  by_cases hP : P
  · rw [if_pos hP]
    exact hp hP
  · rw [if_neg hP]
    exact hq hP

theorem wp_mono {p : Prog ρ α} (hq : ∀ a s, Q a s → Q' a s) (h : wp act C crash p Q s) :
    wp act C crash p Q' s := by
  induction p generalizing s with
  | done a => exact hq a s h
  | op o k ih => exact ⟨h.1, fun e he => ih _ (h.2 e he)⟩

-- What every operation keeps, the program keeps.
theorem wp_of_uses {R : ο → Prop} {I : σ → Prop}
    (hact : ∀ o e s, R o → C o e s → I s → I (act o e s).2)
    {p : Prog ρ α} (hp : p.Uses R) {s : σ} (hs : I s) : wp act C I p (fun _ => I) s := by
  induction p generalizing s with
  | done a => exact hs
  | op o k ih =>
    refine ⟨hs, ?_⟩
    intro e he
    exact ih _ (hp.2 _) (hact o e s hp.1 he hs)

theorem wp_trivial (p : Prog ρ α) (s : σ) :
    wp act C (fun _ => True) p (fun _ _ => True) s := by
  induction p generalizing s with
  | done a => trivial
  | op o k ih => exact ⟨trivial, fun e _ => ih _ _⟩

theorem wp_and {crash' : σ → Prop} {p : Prog ρ α} (h : wp act C crash p Q s)
    (h' : wp act C crash' p Q' s) :
    wp act C (fun s => crash s ∧ crash' s) p (fun a s => Q a s ∧ Q' a s) s := by
  induction p generalizing s with
  | done a => exact ⟨h, h'⟩
  | op o k ih => exact ⟨⟨h.1, h'.1⟩, fun e he => ih _ (h.2 e he) (h'.2 e he)⟩

theorem wp_and_ends {P : α → Prop} {p : Prog ρ α} (hp : p.Ends P) (h : wp act C crash p Q s) :
    wp act C crash p (fun a s => Q a s ∧ P a) s := by
  induction p generalizing s with
  | done a => exact ⟨h, hp⟩
  | op o k ih => exact ⟨h.1, fun e he => ih _ (hp _) (h.2 e he)⟩

theorem wp_crash_mono {crash' : σ → Prop} {p : Prog ρ α} (hcrash : ∀ s, crash s → crash' s)
    (h : wp act C crash p Q s) : wp act C crash' p Q s := by
  induction p generalizing s with
  | done a => exact h
  | op o k ih => exact ⟨hcrash s h.1, fun e he => ih _ (h.2 e he)⟩

theorem wp_cond_mono {C' : ο → ε → σ → Prop} (hcond : ∀ o e s, C' o e s → C o e s)
    {p : Prog ρ α} (h : wp act C crash p Q s) : wp act C' crash p Q s := by
  induction p generalizing s with
  | done a => exact h
  | op o k ih => exact ⟨h.1, fun e he => ih _ (h.2 e (hcond o e s he))⟩

-- The rule for a loop over a list: `I` sees what is still to be done.
theorem wp_foldlM {f : β → ι → Prog ρ β} {I : List ι → β → σ → Prop}
    (hstep : ∀ i is b s, I (i :: is) b s → wp act C crash (f b i) (I is) s)
    {is : List ι} {b : β} (h : I is b s) :
    wp act C crash (is.foldlM f b) (I []) s := by
  induction is generalizing b s with
  | nil => exact h
  | cons i is ih =>
    rw [List.foldlM_cons, wp_bind]
    exact wp_mono (fun b s hb => ih hb) (hstep i is b s h)

-- What is known of a program is so of its runs, whole or cut short.
theorem exec_of_wp {p : Prog ρ α} {es : List ε} (h : wp act C crash p Q s)
    (hc : AlongOps act C p es s) :
    (∀ a, (exec act p es s).1 = some a → Q a (exec act p es s).2.2) ∧
      ((exec act p es s).1 = none → crash (exec act p es s).2.2) := by
  induction p generalizing es s with
  | done a =>
    refine ⟨?_, nofun⟩
    intro a' ha
    obtain rfl := Option.some.inj ha
    exact h
  | op o k ih =>
    cases es with
    | nil => exact ⟨nofun, fun _ => h.1⟩
    | cons e es => exact ih _ (h.2 e hc.1) hc.2

@[simp] theorem complete_pure (e : ε) (a : α) (s : σ) :
    complete act e (pure a : Prog ρ α) s = (a, s) := rfl

@[simp] theorem complete_perform (e : ε) (o : ο) (s : σ) :
    complete act e (perform o) s = act o e s := rfl

@[simp] theorem complete_bind (e : ε) (p : Prog ρ α) (f : α → Prog ρ β) (s : σ) :
    complete act e (p >>= f) s = complete act e (f (complete act e p s).1) (complete act e p s).2 := by
  induction p generalizing s with
  | done a => rfl
  | op o k ih => exact ih _ _

theorem exec_bind (p : Prog ρ α) (f : α → Prog ρ β) (es : List ε) (s : σ) :
    exec act (p >>= f) es s =
      match exec act p es s with
      | (some a, es, s) => exec act (f a) es s
      | (none, es, s) => (none, es, s) := by
  induction p generalizing es s with
  | done a => rfl
  | op o k ih =>
    cases es with
    | nil => rfl
    | cons e es => exact ih _ es _

@[simp] theorem exec_perform_cons (o : ο) (f : ρ o → Prog ρ α) (e : ε) (es : List ε) (s : σ) :
    exec act (perform o >>= f) (e :: es) s =
      exec act (f (act o e s).1) es (act o e s).2 := rfl

theorem alongOps_bind {p : Prog ρ α} {f : α → Prog ρ β} {es : List ε}
    (h : AlongOps act C (p >>= f) es s) :
    AlongOps act C p es s ∧ ∀ a es' s', exec act p es s = (some a, es', s') →
      AlongOps act C (f a) es' s' := by
  induction p generalizing es s with
  | done a =>
    refine ⟨trivial, ?_⟩
    intro a' es' s' hrun
    cases hrun
    exact h
  | op o k ih =>
    cases es with
    | nil => exact ⟨trivial, nofun⟩
    | cons e es =>
      have hrest := ih _ h.2
      exact ⟨⟨h.1, hrest.1⟩, hrest.2⟩

theorem AlongOps.bind {p : Prog ρ α} {f : α → Prog ρ β} {es : List ε}
    (hp : AlongOps act C p es s)
    (hf : ∀ a es' s', exec act p es s = (some a, es', s') → AlongOps act C (f a) es' s') :
    AlongOps act C (p >>= f) es s := by
  induction p generalizing es s with
  | done a => exact hf a es s rfl
  | op o k ih =>
    cases es with
    | nil => trivial
    | cons e es => exact ⟨hp.1, ih _ hp.2 fun a es' s' hrun => hf a es' s' hrun⟩

theorem alongOps_true (p : Prog ρ α) (es : List ε) (s : σ) :
    AlongOps act (fun _ _ _ => True) p es s := by
  induction p generalizing es s with
  | done a => trivial
  | op o k ih =>
    cases es with
    | nil => trivial
    | cons e es => exact ⟨trivial, ih _ es _⟩

theorem alongOps_of_forall {p : Prog ρ α} {es : List ε} (h : ∀ e ∈ es, ∀ o s, C o e s) :
    AlongOps act C p es s := by
  induction p generalizing es s with
  | done a => trivial
  | op o k ih =>
    cases es with
    | nil => trivial
    | cons e es =>
      exact ⟨h e List.mem_cons_self o s, ih _ fun f hf => h f (List.mem_cons_of_mem e hf)⟩

-- What is known of a whole run of a program.
theorem post_of_exec {p : Prog ρ α} {es es' : List ε} {a : α} {s' : σ}
    (h : wp act (fun _ _ _ => True) crash p Q s)
    (hrun : p.exec act es s = (some a, es', s')) : Q a s' := by
  have hend := (exec_of_wp h (alongOps_true p es s)).1 a
  rw [hrun] at hend
  exact hend rfl

theorem AlongOps.imp {D : ο → ε → σ → Prop} (h : ∀ o e s, C o e s → D o e s) {p : Prog ρ α}
    {es : List ε} (hc : AlongOps act C p es s) : AlongOps act D p es s := by
  induction p generalizing es s with
  | done a => trivial
  | op o k ih =>
    cases es with
    | nil => trivial
    | cons e es => exact ⟨h o e s hc.1, ih _ hc.2⟩

-- What a program's operations keep, each of them meets.
theorem alongOps_of_uses {D : ο → ε → σ → Prop} {R : ο → Prop} {I : σ → Prop}
    (hact : ∀ o e s, R o → C o e s → I s → I (act o e s).2)
    (hgives : ∀ o e s, R o → I s → D o e s) {p : Prog ρ α} (hp : p.Uses R) {es : List ε}
    (hs : I s) (hc : AlongOps act C p es s) : AlongOps act D p es s := by
  induction p generalizing es s with
  | done a => trivial
  | op o k ih =>
    cases es with
    | nil => trivial
    | cons e es =>
      exact ⟨hgives o e s hp.1 hs, ih _ (hp.2 _) (hact o e s hp.1 hc.1 hs) hc.2⟩

end Run

end Prog

end Espos.Crash
