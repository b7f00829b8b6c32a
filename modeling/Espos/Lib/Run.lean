import Mathlib.Algebra.GroupWithZero.Nat
import Mathlib.Data.List.Basic

namespace Espos.Run

variable {σ ε : Type*} (step : σ → ε → σ)

-- The state a sequence of inputs leads to.
def run (s : σ) (es : List ε) : σ :=
  es.foldl step s

-- Every step of the run meets `C`, which sees the state the step starts from.
def Along (C : σ → ε → Prop) : σ → List ε → Prop
  | _, [] => True
  | s, e :: es => C s e ∧ Along C (step s e) es

instance Along.decidable (C : σ → ε → Prop) [∀ s e, Decidable (C s e)] :
    (s : σ) → (es : List ε) → Decidable (Along step C s es)
  | _, [] => .isTrue trivial
  | s, e :: es =>
    have := Along.decidable C (step s e) es
    inferInstanceAs (Decidable (_ ∧ _))

-- `P` holds in every state of the run, the first one included.
def Always (P : σ → Prop) : σ → List ε → Prop
  | s, [] => P s
  | s, e :: es => P s ∧ Always P (step s e) es

@[simp] theorem run_nil (s : σ) : run step s [] = s := rfl

@[simp] theorem run_cons (s : σ) (e : ε) (es : List ε) :
    run step s (e :: es) = run step (step s e) es := rfl

variable {step}

theorem run_invariant {P : σ → Prop} (hstep : ∀ s e, P s → P (step s e))
    {s : σ} (h : P s) (es : List ε) : P (run step s es) := by
  induction es generalizing s with
  | nil => exact h
  | cons e es ih => exact ih (hstep s e h)

-- The rule for runs that are promised something about each of their steps.
theorem run_invariant_of_along {P : σ → Prop} {C : σ → ε → Prop}
    (hstep : ∀ s e, P s → C s e → P (step s e)) {s : σ} (h : P s) {es : List ε}
    (hc : Along step C s es) : P (run step s es) := by
  induction es generalizing s with
  | nil => exact h
  | cons e es ih => exact ih (hstep s e h hc.1) hc.2

theorem along_append {C : σ → ε → Prop} {s : σ} {es fs : List ε} :
    Along step C s (es ++ fs) ↔ Along step C s es ∧ Along step C (run step s es) fs := by
  induction es generalizing s with
  | nil => simp [Along]
  | cons e es ih => simp [Along, ih, and_assoc]

theorem along_of_forall {C : ε → Prop} {s : σ} {es : List ε} (h : ∀ e ∈ es, C e) :
    Along step (fun _ => C) s es := by
  induction es generalizing s with
  | nil => trivial
  | cons e es ih => exact ⟨h e (by simp), ih fun f hf => h f (by simp [hf])⟩

theorem Along.imp {C D : σ → ε → Prop} (h : ∀ s e, C s e → D s e) {s : σ} {es : List ε}
    (hc : Along step C s es) : Along step D s es := by
  induction es generalizing s with
  | nil => trivial
  | cons e es ih => exact ⟨h s e hc.1, ih hc.2⟩

theorem along_and {C D : σ → ε → Prop} {s : σ} {es : List ε} (hc : Along step C s es)
    (hd : Along step D s es) : Along step (fun s e => C s e ∧ D s e) s es := by
  induction es generalizing s with
  | nil => trivial
  | cons e es ih => exact ⟨⟨hc.1, hd.1⟩, ih hc.2 hd.2⟩

-- What an invariant gives of each step holds of every step of the run.
theorem along_of_invariant {P : σ → Prop} {C D : σ → ε → Prop}
    (hstep : ∀ s e, P s → C s e → P (step s e)) (hgives : ∀ s e, P s → C s e → D s e)
    {s : σ} (h : P s) {es : List ε} (hc : Along step C s es) : Along step D s es := by
  induction es generalizing s with
  | nil => trivial
  | cons e es ih => exact ⟨hgives s e h hc.1, ih (hstep s e h hc.1) hc.2⟩

theorem Always.head {P : σ → Prop} {s : σ} {es : List ε} (h : Always step P s es) : P s := by
  cases es with
  | nil => exact h
  | cons e es => exact h.1

theorem Always.last {P : σ → Prop} {s : σ} {es : List ε} (h : Always step P s es) :
    P (run step s es) := by
  induction es generalizing s with
  | nil => exact h
  | cons e es ih => exact ih h.2

theorem Always.imp {P Q : σ → Prop} (h : ∀ s, P s → Q s) {s : σ} {es : List ε}
    (hp : Always step P s es) : Always step Q s es := by
  induction es generalizing s with
  | nil => exact h s hp
  | cons e es ih => exact ⟨h s hp.1, ih hp.2⟩

theorem always_of_along {P : σ → Prop} {C : σ → ε → Prop}
    (hstep : ∀ s e, P s → C s e → P (step s e)) {s : σ} (h : P s) {es : List ε}
    (hc : Along step C s es) : Always step P s es := by
  induction es generalizing s with
  | nil => exact h
  | cons e es ih => exact ⟨h, ih (hstep s e h hc.1) hc.2⟩

-- Where a step keeps `P` exactly when it meets `C`, a run never leaves `P`
-- exactly when all of its steps meet `C`. `I` is what else holds of its states.
theorem always_iff_along {I P : σ → Prop} {C : σ → ε → Prop}
    (hinv : ∀ s e, I s → P s → I (step s e))
    (hstep : ∀ s e, I s → P s → (P (step s e) ↔ C s e))
    {s : σ} (hi : I s) (hp : P s) (es : List ε) :
    Always step P s es ↔ Along step C s es := by
  induction es generalizing s with
  | nil => simpa [Always, Along] using hp
  | cons e es ih =>
    have hiff := hstep s e hi hp
    simp only [Always, Along]
    constructor
    · rintro ⟨_, halways⟩
      have hnext : P (step s e) := halways.head
      exact ⟨hiff.mp hnext, (ih (hinv s e hi hp) hnext).mp halways⟩
    · rintro ⟨hc, halong⟩
      exact ⟨hp, (ih (hinv s e hi hp) (hiff.mpr hc)).mpr halong⟩

section Answers

variable {τ ρ : Type*}

-- What is answered to a sequence of inputs, and the state they lead to.
def answers (act : σ → ε → ρ × σ) : σ → List ε → List ρ × σ
  | s, [] => ([], s)
  | s, e :: es => ((act s e).1 :: (answers act (act s e).2 es).1, (answers act (act s e).2 es).2)

-- Two machines that answer alike for as long as `R` holds between them.
theorem answers_simulation {act : σ → ε → ρ × σ} {act' : τ → ε → ρ × τ} {R : σ → τ → Prop}
    (hstep : ∀ s t e, R s t → (act s e).1 = (act' t e).1 ∧ R (act s e).2 (act' t e).2)
    {s : σ} {t : τ} (h : R s t) (es : List ε) :
    (answers act s es).1 = (answers act' t es).1 ∧
      R (answers act s es).2 (answers act' t es).2 := by
  induction es generalizing s t with
  | nil => exact ⟨rfl, h⟩
  | cons e es ih =>
    obtain ⟨hanswer, hnext⟩ := hstep s t e h
    obtain ⟨hanswers, hlast⟩ := ih hnext
    simp only [answers]
    rw [hanswer, hanswers]
    exact ⟨rfl, hlast⟩

-- What comes in and what goes out of a state balance over a run as they do at each step.
theorem answers_balance {act : σ → ε → ρ × σ} {gain : ε → Nat} {loss : ρ → Nat} {size : σ → Nat}
    (hstep : ∀ s e, size (act s e).2 + loss (act s e).1 = size s + gain e) (s : σ) (es : List ε) :
    size (answers act s es).2 + ((answers act s es).1.map loss).sum =
      size s + (es.map gain).sum := by
  induction es generalizing s with
  | nil => simp [answers]
  | cons e es ih =>
    have hnext := hstep s e
    have hrest := ih (act s e).2
    simp only [answers, List.map_cons, List.sum_cons]
    omega

end Answers

end Espos.Run
