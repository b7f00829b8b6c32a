import Mathlib.Data.List.Basic
import Mathlib.Data.List.TakeWhile

-- Readers of a text that ends at separators, and loops over what they read.

namespace Espos.Tokens

variable {α β : Type*}

-- What is behind a separator has no say in what is read in front of it.

theorem takeWhile_stops {p : α → Bool} {c : α} (hc : p c = false) (xs ys : List α) :
    (xs ++ c :: ys).takeWhile p = xs.takeWhile p := by
  induction xs with
  | nil => rw [List.nil_append, List.takeWhile_cons_of_neg (by simp [hc]), List.takeWhile_nil]
  | cons x xs ih => rw [List.cons_append, List.takeWhile_cons, List.takeWhile_cons, ih]

theorem dropWhile_stops {p : α → Bool} {c : α} (hc : p c = false) (xs ys : List α) :
    (xs ++ c :: ys).dropWhile p = xs.dropWhile p ++ c :: ys := by
  induction xs with
  | nil => rw [List.nil_append, List.dropWhile_cons_of_neg (by simp [hc]), List.dropWhile_nil,
      List.nil_append]
  | cons x xs ih =>
    rw [List.cons_append, List.dropWhile_cons, List.dropWhile_cons, ih]
    by_cases hx : p x = true
    · rw [if_pos hx, if_pos hx]
    · rw [if_neg hx, if_neg hx, List.cons_append]

-- A loop whose rounds end it, or leave a rest and perhaps something read.
section Rounds

variable {round : List α → Option (Option β × List α)}

variable (round) in
inductive Yields : List α → List β → Prop
  | stop {xs} (h : round xs = none) : Yields xs []
  | go {xs found rest read} (h : round xs = some (found, rest)) (more : Yields rest read) :
      Yields xs (found.toList ++ read)

variable (round) in
def Advances : Prop :=
  ∀ xs found rest, round xs = some (found, rest) → rest.length < xs.length

-- Rounds that do not look past a separator `c`. One that ends the loop there has read nothing.
variable (round) in
structure Apart (c : α) : Prop where
  next : ∀ ys, round (c :: ys) = round ys
  go : ∀ {xs found rest} ys, round xs = some (found, rest) →
    round (xs ++ c :: ys) = some (found, rest ++ c :: ys)
  stop : ∀ {xs} ys, round xs = none →
    round (xs ++ c :: ys) = round ys ∨ round (xs ++ c :: ys) = some (none, c :: ys)

theorem Yields.unique {xs : List α} {read : List β} (h : Yields round xs read) :
    ∀ {read'}, Yields round xs read' → read' = read := by
  induction h with
  | stop h =>
    intro read' h'
    cases h' with
    | stop => rfl
    | go hgo => exact absurd (hgo.symm.trans h) (Option.some_ne_none _)
  | go h more ih =>
    intro read' h'
    cases h' with
    | stop hstop => exact absurd (h.symm.trans hstop) (Option.some_ne_none _)
    | go hgo more' =>
      obtain ⟨rfl, rfl⟩ := Prod.mk.inj (Option.some.inj (hgo.symm.trans h))
      rw [ih more']

theorem Yields.of_advances (hround : Advances round) (xs : List α) :
    ∃ read, Yields round xs read := by
  induction hlen : xs.length using Nat.strong_induction_on generalizing xs with
  | _ n ih =>
    cases hxs : round xs with
    | none => exact ⟨[], .stop hxs⟩
    | some next =>
      obtain ⟨found, rest⟩ := next
      have hless : rest.length < n := hlen ▸ hround xs found rest hxs
      obtain ⟨read, hread⟩ := ih _ hless rest rfl
      exact ⟨found.toList ++ read, .go hxs hread⟩

-- A round that does the same on two texts.
theorem Yields.congr {xs xs' : List α} {read : List β} (h : round xs = round xs')
    (hread : Yields round xs' read) : Yields round xs read := by
  cases hread with
  | stop hstop => exact .stop (h.trans hstop)
  | go hgo more => exact .go (h.trans hgo) more

-- What is read in front of a separator, then what is read behind it.
theorem Apart.append {c : α} (hround : Apart round c) {xs ys : List α} {read read' : List β}
    (hread : Yields round xs read) (hread' : Yields round ys read') :
    Yields round (xs ++ c :: ys) (read ++ read') := by
  induction hread with
  | stop h =>
    cases hround.stop ys h with
    | inl hsame => exact hread'.congr hsame
    | inr hskip => exact .go hskip (hread'.congr (hround.next ys))
  | go h more ih =>
    rw [List.append_assoc]
    exact .go (hround.go ys h) ih

end Rounds

end Espos.Tokens
