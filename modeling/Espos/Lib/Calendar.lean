import Mathlib.Data.Nat.Basic
import Mathlib.Order.Monotone.Basic

-- The Gregorian calendar, counted in days. Years begin in March: the leap day is
-- the last of the year, and 400 years are an era of 146097 days.

namespace Espos.Calendar

@[ext]
structure Date where
  year : Int
  month : Nat
  day : Nat
deriving DecidableEq

def isLeap (year : Int) : Bool :=
  year % 4 = 0 && (year % 100 ≠ 0 || year % 400 = 0)

def monthLength (year : Int) (month : Nat) : Nat :=
  if month = 2 then if isLeap year then 29 else 28
  else if month = 4 ∨ month = 6 ∨ month = 9 ∨ month = 11 then 30
  else 31

-- A day that there is.
structure Date.Valid (d : Date) : Prop where
  month_pos : 1 ≤ d.month
  month_le : d.month ≤ 12
  day_pos : 1 ≤ d.day
  day_le : d.day ≤ monthLength d.year d.month

-- The day of the era that a year of it begins with, and the year a day is in.
def yearStart (yoe : Nat) : Nat :=
  365 * yoe + yoe / 4 - yoe / 100

def yearOf (doe : Nat) : Nat :=
  (doe - doe / 1460 + doe / 36524 - doe / 146096) / 365

-- The same for the months, from March on.
def monthStart (mp : Nat) : Nat :=
  (153 * mp + 2) / 5

def monthOf (doy : Nat) : Nat :=
  (5 * doy + 2) / 153

-- The days from the first of January 1970 on.
def days (d : Date) : Int :=
  let y := if d.month ≤ 2 then d.year - 1 else d.year
  let mp := if 2 < d.month then d.month - 3 else d.month + 9
  y / 400 * 146097 + (yearStart (y % 400).toNat + (monthStart mp + (d.day - 1)) : Nat) - 719468

def civil (z : Int) : Date :=
  let era := (z + 719468) / 146097
  let doe := ((z + 719468) % 146097).toNat
  let doy := doe - yearStart (yearOf doe)
  let mp := monthOf doy
  let month := if mp < 10 then mp + 3 else mp - 9
  { year := yearOf doe + era * 400 + if month ≤ 2 then 1 else 0
    month := month
    day := doy - monthStart mp + 1 }

-- The days of a year of the era; its last month is the February of the next.
def yearLength (yoe : Nat) : Nat :=
  if isLeap (yoe + 1) then 366 else 365

theorem yearOf_mono : Monotone yearOf := by
  refine monotone_nat_of_le_succ fun n => Nat.div_le_div_right ?_
  omega

theorem yearOf_yearStart : ∀ yoe < 400, yearOf (yearStart yoe) = yoe ∧
    yearOf (yearStart yoe + (yearLength yoe - 1)) = yoe := by
  decide +kernel

theorem yearLength_pos (yoe : Nat) : 365 ≤ yearLength yoe ∧ yearLength yoe ≤ 366 := by
  rw [yearLength]
  by_cases h : isLeap (yoe + 1) = true
  · rw [if_pos h]
    decide
  · rw [if_neg h]
    decide

-- The year is found on its first day and on its last, and so on all between.
theorem yearOf_eq {yoe d : Nat} (hyoe : yoe < 400) (hd : d < yearLength yoe) :
    yearOf (yearStart yoe + d) = yoe := by
  obtain ⟨hfirst, hlast⟩ := yearOf_yearStart yoe hyoe
  have hlow := yearOf_mono (Nat.le_add_right (yearStart yoe) d)
  have hhigh := yearOf_mono (Nat.add_le_add_left (Nat.le_sub_one_of_lt hd) (yearStart yoe))
  omega

theorem yearStart_succ : ∀ yoe < 399, yearStart (yoe + 1) = yearStart yoe + yearLength yoe := by
  decide +kernel

-- Every day of an era is in one of its years.
theorem exists_yearStart {doe : Nat} (h : doe < 146097) :
    ∃ yoe d, yoe < 400 ∧ d < yearLength yoe ∧ doe = yearStart yoe + d := by
  have hupto : ∀ n ≤ 400, doe < yearStart n + (if n = 400 then 1 else 0) →
      ∃ yoe d, yoe < 400 ∧ d < yearLength yoe ∧ doe = yearStart yoe + d := by
    intro n
    induction n with
    | zero => exact fun _ h => absurd h (by simp [yearStart])
    | succ n ih =>
      intro hn hdoe
      by_cases hbefore : doe < yearStart n
      · exact ih (by omega) (by rw [if_neg (by omega)]; exact hbefore)
      · refine ⟨n, doe - yearStart n, by omega, ?_, by omega⟩
        by_cases hend : n = 399
        · subst hend
          have hlen : yearLength 399 = 366 := rfl
          have hstart : yearStart 399 = 145731 := rfl
          omega
        · rw [if_neg (by omega), yearStart_succ n (by omega)] at hdoe
          omega
  refine hupto 400 (Nat.le_refl _) ?_
  have hstart : yearStart 400 = 146096 := rfl
  rw [if_pos rfl, hstart]
  omega

theorem yearStart_add_le : ∀ yoe < 400, yearStart yoe + yearLength yoe ≤ 146097 := by
  decide +kernel

theorem monthStart_succ : ∀ mp ≤ 10, monthStart (mp + 1) =
    monthStart mp + monthLength 0 (if mp < 10 then mp + 3 else mp - 9) := by
  decide

theorem monthLength_of_ne {month : Nat} (h : month ≠ 2) (year : Int) :
    monthLength year month = monthLength 0 month := by
  rw [monthLength, monthLength, if_neg h, if_neg h]

theorem monthStart_february : monthStart 11 = 337 := rfl

theorem yearLength_eq (yoe : Nat) : yearLength yoe = 337 + monthLength (yoe + 1) 2 := by
  rw [yearLength, monthLength, if_pos rfl]
  by_cases h : isLeap (yoe + 1) = true
  · rw [if_pos h, if_pos h]
  · rw [if_neg h, if_neg h]

theorem monthStart_mono : Monotone monthStart :=
  monotone_nat_of_le_succ fun n => Nat.div_le_div_right (by omega)

theorem monthOf_eq {mp d : Nat} (hd : monthStart mp + d < monthStart (mp + 1)) :
    monthOf (monthStart mp + d) = mp := by
  unfold monthStart at hd
  unfold monthOf monthStart
  omega

theorem isLeap_add_era (year era : Int) : isLeap (year + era * 400) = isLeap year := by
  have h4 : (year + era * 400) % 4 = year % 4 := by omega
  have h100 : (year + era * 400) % 100 = year % 100 := by omega
  have h400 : (year + era * 400) % 400 = year % 400 := by omega
  rw [isLeap, isLeap, h4, h100, h400]

-- A year of an era from March on, a month of it and a day of that, and the date
-- that is of the calendar.
structure Place where
  era : Int
  yoe : Nat
  mp : Nat
  dom : Nat

namespace Place

variable (p : Place)

def month : Nat :=
  if p.mp < 10 then p.mp + 3 else p.mp - 9

def date : Date where
  year := p.yoe + p.era * 400 + if p.month ≤ 2 then 1 else 0
  month := p.month
  day := p.dom + 1

def number : Int :=
  p.era * 146097 + (yearStart p.yoe + (monthStart p.mp + p.dom) : Nat) - 719468

-- There is that day.
structure Real : Prop where
  yoe_lt : p.yoe < 400
  mp_le : p.mp ≤ 11
  dom_lt : monthStart p.mp + p.dom < monthStart (p.mp + 1)
  doy_lt : monthStart p.mp + p.dom < yearLength p.yoe

variable {p}

@[simp] theorem date_month : p.date.month = p.month := rfl

theorem month_cases (h : p.mp ≤ 11) : (p.month = p.mp + 3 ∧ p.mp < 10) ∨
    (p.month + 9 = p.mp ∧ 10 ≤ p.mp) := by
  rw [month]
  by_cases hmp : p.mp < 10
  · exact .inl ⟨if_pos hmp, hmp⟩
  · rw [if_neg hmp]
    exact .inr ⟨by omega, by omega⟩

theorem days_date (h : p.Real) : days p.date = p.number := by
  have hyear : (if p.date.month ≤ 2 then p.date.year - 1 else p.date.year) =
      p.yoe + p.era * 400 := by
    by_cases hmonth : p.month ≤ 2
    · simp [date, hmonth]
    · simp [date, hmonth]
  have hmp : (if 2 < p.date.month then p.date.month - 3 else p.date.month + 9) = p.mp := by
    rcases month_cases h.mp_le with ⟨hmonth, _⟩ | ⟨hmonth, _⟩
    · rw [date_month, if_pos (by omega)]
      omega
    · have hle := h.mp_le
      rw [date_month, if_neg (by omega)]
      exact hmonth
  have hyoe := h.yoe_lt
  have hera : ((p.yoe : Int) + p.era * 400) / 400 = p.era := by omega
  have hof : (((p.yoe : Int) + p.era * 400) % 400).toNat = p.yoe := by omega
  simp only [days, hyear, hmp, hera, hof]
  rfl

theorem civil_number (h : p.Real) : civil p.number = p.date := by
  have hend := yearStart_add_le p.yoe h.yoe_lt
  have hdoy := h.doy_lt
  have hera : (p.number + 719468) / 146097 = p.era := by
    unfold number
    omega
  have hdoe : ((p.number + 719468) % 146097).toNat =
      yearStart p.yoe + (monthStart p.mp + p.dom) := by
    unfold number
    omega
  simp only [civil, hera, hdoe, yearOf_eq h.yoe_lt h.doy_lt, Nat.add_sub_cancel_left,
    monthOf_eq h.dom_lt]
  rfl

-- February is in the year that has begun since.
theorem monthLength_date (h : p.mp ≤ 11) : monthStart p.mp + monthLength p.date.year p.month =
    if p.mp = 11 then yearLength p.yoe else monthStart (p.mp + 1) := by
  by_cases hfebruary : p.mp = 11
  · have hmonth : p.month = 2 := by
      rw [month, hfebruary]
      rfl
    have hyear : p.date.year = (p.yoe + 1 : Int) + p.era * 400 := by
      rw [date]
      dsimp only
      rw [hmonth, if_pos (Nat.le_refl 2)]
      omega
    have hleap : monthLength p.date.year 2 = monthLength (p.yoe + 1) 2 := by
      rw [hyear, monthLength, monthLength, isLeap_add_era]
    rw [if_pos hfebruary, hmonth, hleap, yearLength_eq, hfebruary, monthStart_february]
  · have hne : p.month ≠ 2 := by
      rcases month_cases h with ⟨hmonth, _⟩ | ⟨hmonth, _⟩ <;> omega
    rw [if_neg hfebruary, monthLength_of_ne hne, monthStart_succ p.mp (by omega)]
    rfl

theorem date_valid (h : p.Real) : p.date.Valid := by
  have hmonth := month_cases h.mp_le
  have hlen := monthLength_date h.mp_le
  have hdom := h.dom_lt
  have hdoy := h.doy_lt
  have hle := h.mp_le
  refine ⟨?_, ?_, Nat.le_add_left 1 p.dom, ?_⟩
  · rw [date_month]
    omega
  · rw [date_month]
    omega
  · rw [date_month]
    change p.dom + 1 ≤ _
    by_cases hfebruary : p.mp = 11
    · rw [if_pos hfebruary] at hlen
      omega
    · rw [if_neg hfebruary] at hlen
      omega

end Place

theorem exists_number (z : Int) : ∃ p : Place, p.Real ∧ z = p.number := by
  have hdoe : ((z + 719468) % 146097).toNat < 146097 := by omega
  obtain ⟨yoe, d, hyoe, hd, hplace⟩ := exists_yearStart hdoe
  have hlen := (yearLength_pos yoe).2
  have hmonth : monthStart (monthOf d) ≤ d ∧ d < monthStart (monthOf d + 1) ∧ monthOf d ≤ 11 := by
    unfold monthStart monthOf
    omega
  obtain ⟨hlow, hhigh, hle⟩ := hmonth
  refine ⟨⟨(z + 719468) / 146097, yoe, monthOf d, d - monthStart (monthOf d)⟩,
    ⟨hyoe, hle, ?_, ?_⟩, ?_⟩
  · rwa [Nat.add_sub_cancel' hlow]
  · rwa [Nat.add_sub_cancel' hlow]
  · rw [Place.number, Nat.add_sub_cancel' hlow, ← hplace]
    dsimp only
    omega

theorem exists_date {d : Date} (h : d.Valid) : ∃ p : Place, p.Real ∧ d = p.date := by
  obtain ⟨year, month, day⟩ := d
  obtain ⟨hmonth, hmonth', hday, hday'⟩ := h
  dsimp only at hmonth hmonth' hday hday'
  obtain ⟨mp, hmp, hmpMonth⟩ : ∃ mp ≤ 11, (if mp < 10 then mp + 3 else mp - 9) = month := by
    by_cases hbefore : month ≤ 2
    · exact ⟨month + 9, by omega, by rw [if_neg (by omega)]; omega⟩
    · exact ⟨month - 3, by omega, by rw [if_pos (by omega)]; omega⟩
  obtain ⟨y, hy⟩ : ∃ y : Int, year = y + if month ≤ 2 then 1 else 0 :=
    ⟨year - if month ≤ 2 then 1 else 0, by omega⟩
  have hpos : 0 ≤ y % 400 := by omega
  let p : Place := ⟨y / 400, (y % 400).toNat, mp, day - 1⟩
  have hdate : Date.mk year month day = p.date := by
    have hpmonth : p.month = month := hmpMonth
    rw [Place.date, hpmonth, hy, Date.mk.injEq]
    refine ⟨?_, rfl, ?_⟩
    · change y + _ = ((y % 400).toNat : Int) + y / 400 * 400 + _
      rw [Int.toNat_of_nonneg hpos]
      omega
    · change day = day - 1 + 1
      omega
  have hlen := p.monthLength_date hmp
  have hpmp : p.mp ≤ 11 := hmp
  rw [← hdate, show p.month = month from hmpMonth] at hlen
  dsimp only at hlen
  have hstart : monthStart p.mp + p.dom < monthStart p.mp + monthLength year month := by
    change _ + (day - 1) < _
    omega
  have hyear := yearLength_pos p.yoe
  have hends : monthStart p.mp + p.dom < monthStart (p.mp + 1) ∧
      monthStart p.mp + p.dom < yearLength p.yoe := by
    by_cases hfebruary : p.mp = 11
    · have hnext : monthStart (11 + 1) = 367 := rfl
      rw [if_pos hfebruary] at hlen
      rw [hfebruary] at hlen hstart ⊢
      omega
    · have hlast := monthStart_mono (show p.mp + 1 ≤ 11 by omega)
      rw [if_neg hfebruary] at hlen
      rw [monthStart_february] at hlast
      omega
  refine ⟨p, ⟨?_, hmp, hends.1, hends.2⟩, hdate⟩
  change (y % 400).toNat < 400
  omega

theorem days_civil (z : Int) : days (civil z) = z := by
  obtain ⟨p, hp, rfl⟩ := exists_number z
  rw [Place.civil_number hp, Place.days_date hp]

theorem civil_valid (z : Int) : (civil z).Valid := by
  obtain ⟨p, hp, rfl⟩ := exists_number z
  rw [Place.civil_number hp]
  exact Place.date_valid hp

theorem civil_days {d : Date} (h : d.Valid) : civil (days d) = d := by
  obtain ⟨p, hp, rfl⟩ := exists_date h
  rw [Place.days_date hp, Place.civil_number hp]

end Espos.Calendar
