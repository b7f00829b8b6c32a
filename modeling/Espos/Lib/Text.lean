import Mathlib.Data.List.Basic
import Mathlib.Data.List.Lex
import Mathlib.Data.Nat.Digits.Defs

namespace Espos.Text

-- A C string without its terminator. One character stands for one byte.
abbrev CStr := List Char

instance : LawfulBEq CStr := List.instLawfulBEq

-- A string literal of the source.
def lit (s : String) : CStr :=
  s.toList

-- The text a `char[size]` holds in front of its terminator.
structure Buf (size : Nat) where
  chars : CStr
  fits : chars.length ≤ size - 1
deriving DecidableEq

namespace Buf

variable {size : Nat}

-- `snprintf(dst, sizeof(dst), "%s", text)`: what does not fit is cut off.
def print (text : CStr) : Buf size :=
  ⟨text.take (size - 1), List.length_take_le _ _⟩

def empty : Buf size :=
  ⟨[], by simp⟩

def isEmpty (b : Buf size) : Bool :=
  b.chars.isEmpty

@[ext] theorem ext {a b : Buf size} (h : a.chars = b.chars) : a = b := by
  cases a
  cases b
  simpa using h

@[simp] theorem print_chars (b : Buf size) : print b.chars = b := by
  ext1
  simp only [print]
  exact List.take_of_length_le b.fits

@[simp] theorem isEmpty_empty : (empty : Buf size).isEmpty = true := rfl

theorem isEmpty_iff {b : Buf size} : b.isEmpty = true ↔ b = .empty := by
  rw [isEmpty, List.isEmpty_iff]
  constructor
  · intro h
    ext1
    exact h
  · rintro rfl
    rfl

theorem isEmpty_print (text : CStr) (h : 1 < size) :
    (print text : Buf size).isEmpty = text.isEmpty := by
  obtain ⟨n, rfl⟩ : ∃ n, size = n + 2 := ⟨size - 2, by omega⟩
  cases text <;> simp [print, isEmpty]

end Buf

-- `strstr(text, word) != NULL`
def strstr (text word : CStr) : Bool :=
  match text with
  | [] => word.isEmpty
  | c :: rest => word.isPrefixOf (c :: rest) || strstr rest word

-- Bytes as characters.
def ofBytes (bytes : List UInt8) : CStr :=
  bytes.map fun b => Char.ofNat b.toNat

-- The string that starts at `bytes`: a zero byte ends it.
def cString (bytes : List UInt8) : CStr :=
  (ofBytes bytes).takeWhile (· != '\x00')

-- `%02x` of a byte.
def hexByte (b : UInt8) : CStr :=
  [Nat.digitChar (b.toNat / 16), Nat.digitChar (b.toNat % 16)]

-- The sign of `strcmp(a, b)`.
def strcmp : CStr → CStr → Ordering
  | [], [] => .eq
  | [], _ :: _ => .lt
  | _ :: _, [] => .gt
  | a :: as, b :: bs =>
    if a.toNat < b.toNat then .lt else if b.toNat < a.toNat then .gt else strcmp as bs

-- `%u`, and `%d` for a value that may be negative.
def decimal (n : Nat) : CStr :=
  Nat.toDigits 10 n

def decimalInt : Int → CStr
  | .ofNat n => decimal n
  | .negSucc n => '-' :: decimal (n + 1)

-- `%0<width>u`
def padded (width n : Nat) : CStr :=
  List.replicate (width - (decimal n).length) '0' ++ decimal n

theorem length_padded {width n : Nat} (hw : 0 < width) (hn : n < 10 ^ width) :
    (padded width n).length = width := by
  have hlen : (decimal n).length ≤ width := Nat.toDigits_length 10 n width hw hn
  simp only [padded, List.length_append, List.length_replicate]
  omega

-- What a loop appends that writes a comma in front of every item but the first.
def listed (first : Bool) : List CStr → CStr
  | [] => []
  | item :: items => (if first then [] else [',']) ++ item ++ listed false items

-- A separator that is in neither of the first parts tells where they end.
theorem append_cons_inj {c : Char} {x y u v : CStr} (hx : c ∉ x) (hy : c ∉ y)
    (h : x ++ c :: u = y ++ c :: v) : x = y ∧ u = v := by
  induction x generalizing y with
  | nil =>
    cases y with
    | nil => exact ⟨rfl, (List.cons.inj h).2⟩
    | cons d y =>
      obtain rfl : c = d := (List.cons.inj h).1
      simp at hy
  | cons a x ih =>
    cases y with
    | nil =>
      obtain rfl : a = c := (List.cons.inj h).1
      simp at hx
    | cons d y =>
      obtain ⟨had, hrest⟩ := List.cons.inj h
      simp only [List.mem_cons, not_or] at hx hy
      obtain ⟨hxy, huv⟩ := ih hx.2 hy.2 hrest
      exact ⟨by rw [had, hxy], huv⟩

theorem append_listed_inj {x y : CStr} {xs ys : List CStr} (hx : ',' ∉ x) (hy : ',' ∉ y)
    (h : x ++ listed false xs = y ++ listed false ys) :
    x = y ∧ listed false xs = listed false ys := by
  cases xs with
  | nil =>
    cases ys with
    | nil => exact ⟨by simpa [listed] using h, rfl⟩
    | cons b ys =>
      simp only [listed, List.append_nil] at h
      rw [h] at hx
      simp at hx
  | cons a xs =>
    cases ys with
    | nil =>
      simp only [listed, List.append_nil] at h
      rw [← h] at hy
      simp at hy
    | cons b ys =>
      simp only [listed, Bool.false_eq_true, if_false, List.cons_append] at h ⊢
      obtain ⟨hxy, hrest⟩ := append_cons_inj hx hy h
      exact ⟨hxy, by rw [hrest]⟩

theorem listed_false_inj {xs ys : List CStr} (hx : ∀ x ∈ xs, ',' ∉ x) (hy : ∀ y ∈ ys, ',' ∉ y)
    (h : listed false xs = listed false ys) : xs = ys := by
  induction xs generalizing ys with
  | nil =>
    cases ys with
    | nil => rfl
    | cons y ys => simp [listed] at h
  | cons x xs ih =>
    cases ys with
    | nil => simp [listed] at h
    | cons y ys =>
      have h' : x ++ listed false xs = y ++ listed false ys := by simpa [listed] using h
      obtain ⟨rfl, hrest⟩ := append_listed_inj (hx x (by simp)) (hy y (by simp)) h'
      rw [ih (fun z hz => hx z (List.mem_cons_of_mem _ hz))
        (fun z hz => hy z (List.mem_cons_of_mem _ hz)) hrest]

theorem listed_true_inj {xs ys : List CStr} (hx : ∀ x ∈ xs, x ≠ [] ∧ ',' ∉ x)
    (hy : ∀ y ∈ ys, y ≠ [] ∧ ',' ∉ y) (h : listed true xs = listed true ys) : xs = ys := by
  cases xs with
  | nil =>
    cases ys with
    | nil => rfl
    | cons y ys =>
      have := (hy y (by simp)).1
      simp [listed, this] at h
  | cons x xs =>
    cases ys with
    | nil =>
      have := (hx x (by simp)).1
      simp [listed, this] at h
    | cons y ys =>
      have h' : x ++ listed false xs = y ++ listed false ys := by simpa [listed] using h
      obtain ⟨rfl, hrest⟩ := append_listed_inj (hx x (by simp)).2 (hy y (by simp)).2 h'
      rw [listed_false_inj (fun z hz => (hx z (List.mem_cons_of_mem _ hz)).2)
        (fun z hz => (hy z (List.mem_cons_of_mem _ hz)).2) hrest]

theorem length_listed_false (items : List CStr) :
    (listed false items).length = (items.map fun item => item.length + 1).sum := by
  induction items with
  | nil => rfl
  | cons item items ih =>
    simp only [listed, Bool.false_eq_true, if_false, List.length_append, List.length_singleton,
      List.map_cons, List.sum_cons, ih]
    omega

theorem length_listed_true {items : List CStr} (h : items ≠ []) :
    (listed true items).length + 1 = (items.map fun item => item.length + 1).sum := by
  cases items with
  | nil => exact absurd rfl h
  | cons item items =>
    simp only [listed, if_true, List.nil_append, List.length_append, length_listed_false,
      List.map_cons, List.sum_cons]
    omega

theorem length_listed_le (first : Bool) (items : List CStr) :
    (listed first items).length ≤ (items.map fun item => item.length + 1).sum := by
  induction items generalizing first with
  | nil => simp [listed]
  | cons item items ih =>
    have hrest := ih false
    have hcomma : (if first then ([] : CStr) else [',']).length ≤ 1 := by split <;> simp
    simp only [listed, List.length_append, List.map_cons, List.sum_cons]
    omega

-- Items that are longer make a list that is longer by as much.
theorem length_listed_map {α : Type*} {f g : α → CStr} {more : α → Nat} {l : List α}
    (h : ∀ x ∈ l, (f x).length = (g x).length + more x) (first : Bool) :
    (listed first (l.map f)).length = (listed first (l.map g)).length + (l.map more).sum := by
  induction l generalizing first with
  | nil => rfl
  | cons x l ih =>
    have hx := h x (by simp)
    have hrest := ih (fun y hy => h y (List.mem_cons_of_mem _ hy)) false
    simp only [List.map_cons, listed, List.length_append, List.sum_cons, hx, hrest]
    omega

end Espos.Text

-- `strcmp` is the order of the lists of character codes.

namespace Espos.Text

theorem strcmp_eq_iff {a b : CStr} : strcmp a b = .eq ↔ a = b := by
  induction a generalizing b with
  | nil => cases b <;> simp [strcmp]
  | cons x a ih =>
    cases b with
    | nil => simp [strcmp]
    | cons y b =>
      have hxy : x = y ↔ x.toNat = y.toNat := ⟨congrArg _, Char.toNat_inj.mp⟩
      rw [List.cons.injEq, hxy, ← ih]
      simp only [strcmp]
      split
      · simp only [reduceCtorEq, false_iff, not_and]
        omega
      · split
        · simp only [reduceCtorEq, false_iff, not_and]
          omega
        · have heq : x.toNat = y.toNat := by omega
          simp [heq]

theorem strcmp_lt_iff {a b : CStr} :
    strcmp a b = .lt ↔ a.map Char.toNat < b.map Char.toNat := by
  induction a generalizing b with
  | nil => cases b <;> simp [strcmp]
  | cons x a ih =>
    cases b with
    | nil => simp [strcmp]
    | cons y b =>
      simp only [strcmp, List.map_cons, List.cons_lt_cons_iff, ← ih]
      split
      · simp [*]
      · split
        · simp only [reduceCtorEq, false_iff]
          omega
        · have heq : x.toNat = y.toNat := by omega
          simp [heq]

theorem strcmp_gt_iff {a b : CStr} : strcmp a b = .gt ↔ strcmp b a = .lt := by
  induction a generalizing b with
  | nil => cases b <;> simp [strcmp]
  | cons x a ih =>
    cases b with
    | nil => simp [strcmp]
    | cons y b =>
      simp only [strcmp]
      by_cases hxy : x.toNat < y.toNat
      · simp [hxy, not_lt_of_gt hxy]
      · by_cases hyx : y.toNat < x.toNat
        · simp [hxy, hyx]
        · simpa [hxy, hyx] using ih

theorem strcmp_lt_trans {a b c : CStr} (hab : strcmp a b = .lt) (hbc : strcmp b c = .lt) :
    strcmp a c = .lt := by
  rw [strcmp_lt_iff] at hab hbc ⊢
  exact lt_trans hab hbc

theorem strcmp_lt_irrefl (a : CStr) : strcmp a a ≠ .lt := by
  rw [strcmp_eq_iff.mpr rfl]
  simp

instance : Std.TransCmp strcmp where
  eq_swap {a b} := by
    cases hab : strcmp a b with
    | eq => rw [strcmp_eq_iff.mpr (strcmp_eq_iff.mp hab).symm, Ordering.swap_eq]
    | lt => rw [strcmp_gt_iff.mpr hab, Ordering.swap_gt]
    | gt => rw [strcmp_gt_iff.mp hab, Ordering.swap_lt]
  isLE_trans {a b c} hab hbc := by
    rw [Ordering.isLE_iff_eq_lt_or_eq_eq, strcmp_eq_iff] at hab hbc ⊢
    rcases hab with hab | rfl
    · rcases hbc with hbc | rfl
      · exact .inl (strcmp_lt_trans hab hbc)
      · exact .inl hab
    · exact hbc

-- Two lists in strict order with the same strings are the same.
theorem eq_of_strcmp_sorted {xs ys : List CStr} (hx : xs.Pairwise fun a b => strcmp a b = .lt)
    (hy : ys.Pairwise fun a b => strcmp a b = .lt) (h : ∀ a, a ∈ xs ↔ a ∈ ys) : xs = ys := by
  have hnodup {l : List CStr} (hl : l.Pairwise fun a b => strcmp a b = .lt) : l.Nodup := by
    apply hl.imp
    rintro a b hab rfl
    exact strcmp_lt_irrefl a hab
  apply List.Perm.eq_of_pairwise _ hx hy
  · exact (List.perm_ext_iff_of_nodup (hnodup hx) (hnodup hy)).mpr h
  · intro a b _ _ hab hba
    exact absurd (strcmp_lt_trans hab hba) (strcmp_lt_irrefl a)

end Espos.Text
