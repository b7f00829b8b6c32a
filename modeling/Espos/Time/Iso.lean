import Espos.Lib.Calendar
import Espos.Lib.Digits

-- ISO 8601 in `time_policy.c`: an instant as a text, and read back.

namespace Espos.Time

open Espos.Text Espos.Digits

def ISO_MAX : Nat := 25

-- The division of C rounds towards zero; the test makes it round down.
def daysFromCivil (year : Int) (m d : Nat) : Int :=
  let y := if m ≤ 2 then year - 1 else year
  let era := (if 0 ≤ y then y else y - 399).tdiv 400
  let yoe := (y - era * 400).toNat
  let doy := (153 * (if 2 < m then m - 3 else m + 9) + 2) / 5 + d - 1
  let doe := yoe * 365 + yoe / 4 - yoe / 100 + doy
  era * 146097 + doe - 719468

-- The year, the month and the day.
def civilFromDays (days : Int) : Int × Nat × Nat :=
  let z := days + 719468
  let era := (if 0 ≤ z then z else z - 146096).tdiv 146097
  let doe := (z - era * 146097).toNat
  let yoe := (doe - doe / 1460 + doe / 36524 - doe / 146096) / 365
  let yr := yoe + era * 400
  let doy := doe - (365 * yoe + yoe / 4 - yoe / 100)
  let mp := (5 * doy + 2) / 153
  let d := doy - (153 * mp + 2) / 5 + 1
  let m := if mp < 10 then mp + 3 else mp - 9
  (yr + if m ≤ 2 then 1 else 0, m, d)

-- What is written into a buffer of `n` bytes; nothing is an empty text. Behind the
-- guard no quotient and no year is negative.
def isoFormat (unixMs : Int) (n : Nat) : CStr :=
  if n < ISO_MAX ∨ unixMs ≤ 0 then []
  else
    let secs := unixMs / 1000
    let ms := (unixMs % 1000).toNat
    let sod := (secs % 86400).toNat
    let (y, mo, d) := civilFromDays (secs / 86400)
    let text :=
      padded 4 y.toNat ++ '-' :: padded 2 mo ++ '-' :: padded 2 d ++ 'T' :: padded 2 (sod / 3600) ++
        ':' :: padded 2 (sod / 60 % 60) ++ ':' :: padded 2 (sod % 60) ++ '.' :: padded 3 ms ++ ['Z']
    if text.length < n then text else []

-- The end of a timestamp: `Z`, an offset of hours and minutes, or nothing.
inductive Zone where
  | utc
  | offset (negative : Bool) (oh om : Nat)
  | none
deriving DecidableEq

def Zone.seconds : Zone → Int
  | .offset negative oh om => (if negative then -1 else 1) * ((oh * 3600 + om * 60 : Nat) : Int)
  | _ => 0

-- What a timestamp says, field by field.
structure Stamp where
  year : Nat
  month : Nat
  day : Nat
  hour : Nat
  minute : Nat
  second : Nat
  ms : Nat
  zone : Zone
deriving DecidableEq

def takeDigits (digits : Nat) (s : CStr) : Option (Nat × CStr) :=
  take 10 decimalValue digits 0 s

-- One character of these.
def expect (cs : CStr) : CStr → Option CStr
  | [] => none
  | c :: s => if c ∈ cs then some s else none

-- The digits of a fraction: the first three are milliseconds, the rest is
-- skipped.
def fractionLoop (ms seen : Nat) : CStr → Nat × CStr
  | [] => (ms * 10 ^ (3 - seen), [])
  | c :: s =>
    if c.isDigit then
      if seen < 3 then fractionLoop (ms * 10 + (c.toNat - 48)) (seen + 1) s
      else fractionLoop ms seen s
    else (ms * 10 ^ (3 - seen), c :: s)

def readFraction (s : CStr) : Option (Nat × CStr) :=
  match expect ['.', ','] s with
  | none => some (0, s)
  | some rest => if rest.head?.any Char.isDigit then some (fractionLoop 0 0 rest) else none

def readOffset (s : CStr) : Option (Nat × Nat × CStr) := do
  let (oh, s) ← takeDigits 2 s
  let (om, s) ← takeDigits 2 ((expect [':'] s).getD s)
  return (oh, om, s)

-- Nothing may stand behind it.
def readZone (s : CStr) : Option Zone :=
  match s with
  | [] => some .none
  | c :: s =>
    if c = 'Z' ∨ c = 'z' then if s = [] then some .utc else none
    else if c = '+' ∨ c = '-' then
      match readOffset s with
      | some (oh, om, []) => some (.offset (c = '-') oh om)
      | _ => none
    else none

-- Three numbers: the first of `width` digits, the others of two.
def readFields (width : Nat) (sep : Char) (s : CStr) : Option (Nat × Nat × Nat × CStr) := do
  let (x, s) ← takeDigits width s
  let s ← expect [sep] s
  let (y, s) ← takeDigits 2 s
  let s ← expect [sep] s
  let (z, s) ← takeDigits 2 s
  return (x, y, z, s)

def readStamp (s : CStr) : Option Stamp := do
  let (year, month, day, s) ← readFields 4 '-' s
  let s ← expect ['T', 't', ' '] s
  let (hour, minute, second, s) ← readFields 2 ':' s
  if month < 1 ∨ 12 < month ∨ day < 1 ∨ 31 < day ∨ 23 < hour ∨ 59 < minute ∨ 60 < second then
    none
  else
    let (ms, s) ← readFraction s
    let zone ← readZone s
    return ⟨year, month, day, hour, minute, second, ms, zone⟩

def Stamp.unixMs (f : Stamp) : Int :=
  let secs := daysFromCivil f.year f.month f.day * 86400 + f.hour * 3600 + f.minute * 60 +
    f.second - f.zone.seconds
  secs * 1000 + f.ms

-- Zero is no time.
def isoParse (s : Option CStr) : Int :=
  match s.bind readStamp with
  | none => 0
  | some f => if 0 < f.unixMs then f.unixMs else 0

theorem era_eq (period : Int) (hperiod : 0 < period) (z : Int) :
    (if 0 ≤ z then z else z - (period - 1)).tdiv period = z / period := by
  by_cases hz : 0 ≤ z
  · rw [if_pos hz, Int.tdiv_eq_ediv_of_nonneg hz]
  · have hneg : z - (period - 1) = -(period - 1 - z) := by omega
    have hrest := Int.emod_lt_of_pos (period - 1 - z) hperiod
    have hrest' := Int.emod_nonneg (period - 1 - z) hperiod.ne'
    have hsplit : z = period - 1 - (period - 1 - z) % period +
        -((period - 1 - z) / period) * period := by
      have hdiv := Int.emod_add_mul_ediv (period - 1 - z) period
      rw [Int.neg_mul, Int.mul_comm]
      omega
    rw [if_neg hz, hneg, Int.neg_tdiv, Int.tdiv_eq_ediv_of_nonneg (by omega)]
    conv_rhs => rw [hsplit, Int.add_mul_ediv_right _ _ hperiod.ne',
      Int.ediv_eq_zero_of_lt (by omega) (by omega), Int.zero_add]

theorem daysFromCivil_eq (date : Calendar.Date) (hday : 1 ≤ date.day) :
    daysFromCivil date.year date.month date.day = Calendar.days date := by
  unfold daysFromCivil Calendar.days
  dsimp only
  generalize (if date.month ≤ 2 then date.year - 1 else date.year) = y
  have hera : (if 0 ≤ y then y else y - 399).tdiv 400 = y / 400 := era_eq 400 (by decide) y
  have hyoe : y - y / 400 * 400 = y % 400 := by omega
  rw [hera, hyoe]
  unfold Calendar.yearStart Calendar.monthStart
  omega

theorem civilFromDays_eq (z : Int) : civilFromDays z =
    ((Calendar.civil z).year, (Calendar.civil z).month, (Calendar.civil z).day) := by
  have hera : (if 0 ≤ z + 719468 then z + 719468 else z + 719468 - 146096).tdiv 146097 =
      (z + 719468) / 146097 := era_eq 146097 (by decide) (z + 719468)
  have hdoe : z + 719468 - (z + 719468) / 146097 * 146097 = (z + 719468) % 146097 := by omega
  unfold civilFromDays
  simp only [hera, hdoe]
  rfl

-- Three numbers as they are written: a date, or a time of the day.
def fields (width : Nat) (sep : Char) (x y z : Nat) : CStr :=
  padded width x ++ sep :: padded 2 y ++ sep :: padded 2 z

def dateText (year month day : Nat) : CStr :=
  fields 4 '-' year month day

def timeText (hour minute second : Nat) : CStr :=
  fields 2 ':' hour minute second

-- The fields up to the seconds are within their ranges.
structure Stamp.Ranged (f : Stamp) : Prop where
  year : f.year < 10000
  month : 1 ≤ f.month ∧ f.month ≤ 12
  day : 1 ≤ f.day ∧ f.day ≤ 31
  hour : f.hour ≤ 23
  minute : f.minute ≤ 59
  second : f.second ≤ 60

-- A stamp as the formatter writes it.
def Stamp.text (f : Stamp) : CStr :=
  dateText f.year f.month f.day ++ 'T' :: timeText f.hour f.minute f.second ++
    ('.' :: padded 3 f.ms ++ ['Z'])

theorem length_fields {width x y z : Nat} (hw : 0 < width) (sep : Char) (hx : x < 10 ^ width)
    (hy : y < 100) (hz : z < 100) : (fields width sep x y z).length = width + 6 := by
  simp only [fields, List.length_append, List.length_cons]
  rw [length_padded hw hx, length_padded (by decide) hy, length_padded (by decide) hz]

theorem Stamp.Ranged.length_text {f : Stamp} (h : f.Ranged) (hms : f.ms < 1000) :
    f.text.length = 24 := by
  obtain ⟨hyear, hmonth, hday, hhour, hminute, hsecond⟩ := h
  simp only [Stamp.text, dateText, timeText, List.length_append, List.length_cons, List.length_nil]
  rw [length_fields (by decide) _ hyear (by omega) (by omega),
    length_fields (by decide) _ (by omega) (by omega) (by omega), length_padded (by decide) hms]

theorem fractionLoop_digit {d : Nat} (hd : d < 10) {ms seen : Nat} (hseen : seen < 3) (s : CStr) :
    fractionLoop ms seen (Nat.digitChar d :: s) = fractionLoop (ms * 10 + d) (seen + 1) s := by
  have hdigit : ∀ d < 10, (Nat.digitChar d).isDigit = true ∧ (Nat.digitChar d).toNat - 48 = d := by
    decide
  rw [fractionLoop, if_pos (hdigit d hd).1, if_pos hseen, (hdigit d hd).2]

theorem readFraction_ms {ms : Nat} (hms : ms < 1000) :
    readFraction ('.' :: padded 3 ms ++ ['Z']) = some (ms, ['Z']) := by
  have hfixed : padded 3 ms = [Nat.digitChar (ms / 100 % 10), Nat.digitChar (ms / 10 % 10),
      Nat.digitChar (ms % 10)] := by
    rw [padded_eq_fixed (by decide) hms, fixed_succ, fixed_succ, fixed_succ]
    norm_num [fixed]
  have hdigit : ∀ d < 10, (Nat.digitChar d).isDigit = true := by decide
  have hvalue : ((0 * 10 + ms / 100 % 10) * 10 + ms / 10 % 10) * 10 + ms % 10 = ms := by omega
  have hloop : fractionLoop 0 0 (padded 3 ms ++ ['Z']) = (ms, ['Z']) := by
    rw [hfixed, List.cons_append, List.cons_append, List.cons_append, List.nil_append,
      fractionLoop_digit (by omega) (by decide), fractionLoop_digit (by omega) (by decide),
      fractionLoop_digit (by omega) (by decide), hvalue, fractionLoop, if_neg (by decide),
      Nat.pow_zero, Nat.mul_one]
  have hhead : (padded 3 ms ++ ['Z']).head?.any Char.isDigit = true := by
    rw [hfixed]
    exact hdigit _ (Nat.mod_lt _ (by decide))
  rw [readFraction, List.cons_append, expect, if_pos (by decide)]
  dsimp only
  rw [if_pos hhead, hloop]

theorem takeDigits_eq_some {width n : Nat} (hw : 0 < width) {s s' : CStr} :
    takeDigits width s = some (n, s') ↔ n < 10 ^ width ∧ s = padded width n ++ s' := by
  constructor
  · exact padded_of_take hw
  · rintro ⟨hn, rfl⟩
    exact take_padded hw hn s'

theorem expect_eq_some {cs s s' : CStr} : expect cs s = some s' ↔ ∃ c ∈ cs, s = c :: s' := by
  cases s with
  | nil => simp [expect]
  | cons c s =>
    rw [expect, Option.ite_none_right_eq_some, Option.some.injEq]
    constructor
    · rintro ⟨hc, rfl⟩
      exact ⟨c, hc, rfl⟩
    · rintro ⟨c', hc, h⟩
      obtain ⟨rfl, rfl⟩ := List.cons.inj h
      exact ⟨hc, rfl⟩

theorem readFields_eq_some {width x y z : Nat} (hw : 0 < width) {sep : Char} {s s' : CStr} :
    readFields width sep s = some (x, y, z, s') ↔ x < 10 ^ width ∧ y < 100 ∧ z < 100 ∧
      s = fields width sep x y z ++ s' := by
  constructor
  · intro h
    obtain ⟨⟨x', s₁⟩, hx, h⟩ := Option.bind_eq_some_iff.mp h
    obtain ⟨s₂, hsep, h⟩ := Option.bind_eq_some_iff.mp h
    obtain ⟨⟨y', s₃⟩, hy, h⟩ := Option.bind_eq_some_iff.mp h
    obtain ⟨s₄, hsep', h⟩ := Option.bind_eq_some_iff.mp h
    obtain ⟨⟨z', s₅⟩, hz, h⟩ := Option.bind_eq_some_iff.mp h
    cases h
    obtain ⟨hxlt, rfl⟩ := (takeDigits_eq_some hw).mp hx
    obtain ⟨_, hmem, rfl⟩ := expect_eq_some.mp hsep
    obtain ⟨hylt, rfl⟩ := (takeDigits_eq_some (by decide)).mp hy
    obtain ⟨_, hmem', rfl⟩ := expect_eq_some.mp hsep'
    obtain ⟨hzlt, rfl⟩ := (takeDigits_eq_some (by decide)).mp hz
    rw [List.mem_singleton.mp hmem, List.mem_singleton.mp hmem']
    exact ⟨hxlt, hylt, hzlt, by simp [fields]⟩
  · rintro ⟨hx, hy, hz, rfl⟩
    have hsep : ∀ s, expect [sep] (sep :: s) = some s :=
      fun _ => if_pos (List.mem_singleton_self sep)
    refine Option.bind_eq_some_iff.mpr ⟨(x, sep :: padded 2 y ++ sep :: padded 2 z ++ s'),
      (takeDigits_eq_some hw).mpr ⟨hx, by simp [fields]⟩, ?_⟩
    refine Option.bind_eq_some_iff.mpr ⟨_, hsep _, ?_⟩
    refine Option.bind_eq_some_iff.mpr ⟨(y, sep :: padded 2 z ++ s'),
      (takeDigits_eq_some (by decide)).mpr ⟨hy, by simp⟩, ?_⟩
    refine Option.bind_eq_some_iff.mpr ⟨_, hsep _, ?_⟩
    exact Option.bind_eq_some_iff.mpr ⟨(z, s'),
      (takeDigits_eq_some (by decide)).mpr ⟨hz, rfl⟩, rfl⟩

theorem readStamp_eq_some {f : Stamp} {s : CStr} : readStamp s = some f ↔ f.Ranged ∧
    ∃ sep ∈ ['T', 't', ' '], ∃ rest rest', readFraction rest = some (f.ms, rest') ∧
      readZone rest' = some f.zone ∧
      s = dateText f.year f.month f.day ++ sep :: timeText f.hour f.minute f.second ++ rest := by
  constructor
  · intro h
    obtain ⟨⟨year, month, day, s₁⟩, hdate, h⟩ := Option.bind_eq_some_iff.mp h
    obtain ⟨s₂, hsep, h⟩ := Option.bind_eq_some_iff.mp h
    obtain ⟨⟨hour, minute, second, s₃⟩, htime, h⟩ := Option.bind_eq_some_iff.mp h
    obtain ⟨hranges, h⟩ := Option.ite_none_left_eq_some.mp h
    obtain ⟨⟨ms, s₄⟩, hms, h⟩ := Option.bind_eq_some_iff.mp h
    obtain ⟨zone, hzone, h⟩ := Option.bind_eq_some_iff.mp h
    cases h
    obtain ⟨hyear, -, -, rfl⟩ := (readFields_eq_some (by decide)).mp hdate
    obtain ⟨sep, hmem, rfl⟩ := expect_eq_some.mp hsep
    obtain ⟨-, -, -, rfl⟩ := (readFields_eq_some (by decide)).mp htime
    refine ⟨⟨hyear, ?_, ?_, ?_, ?_, ?_⟩, sep, hmem, s₃, s₄, hms, hzone, ?_⟩
    case refine_6 => exact (List.append_assoc _ (sep :: fields 2 ':' hour minute second) s₃).symm
    all_goals dsimp only; omega
  · rintro ⟨⟨hyear, hmonth, hday, hhour, hminute, hsecond⟩, sep, hmem, rest, rest', hms, hzone, rfl⟩
    have hranges : ¬ (f.month < 1 ∨ 12 < f.month ∨ f.day < 1 ∨ 31 < f.day ∨ 23 < f.hour ∨
        59 < f.minute ∨ 60 < f.second) := by omega
    refine Option.bind_eq_some_iff.mpr ⟨(f.year, f.month, f.day, _),
      (readFields_eq_some (by decide)).mpr ⟨hyear, by omega, by omega, List.append_assoc _ _ _⟩, ?_⟩
    refine Option.bind_eq_some_iff.mpr ⟨_, expect_eq_some.mpr ⟨sep, hmem, rfl⟩, ?_⟩
    refine Option.bind_eq_some_iff.mpr ⟨(f.hour, f.minute, f.second, rest),
      (readFields_eq_some (by decide)).mpr ⟨by omega, by omega, by omega, rfl⟩, ?_⟩
    refine Option.ite_none_left_eq_some.mpr ⟨hranges, ?_⟩
    exact Option.bind_eq_some_iff.mpr ⟨_, hms, Option.bind_eq_some_iff.mpr ⟨_, hzone, rfl⟩⟩

-- 9999-12-31T23:59:59.999Z
def LAST_MS : Int := 253402300799999

-- The fields of an instant.
def stampOf (t : Int) : Stamp :=
  let date := Calendar.civil (t / 1000 / 86400)
  let sod := (t / 1000 % 86400).toNat
  { year := date.year.toNat
    month := date.month
    day := date.day
    hour := sod / 3600
    minute := sod / 60 % 60
    second := sod % 60
    ms := (t % 1000).toNat
    zone := .utc }

section Instant

variable {t : Int}

-- 2932896 is the last day of 9999.
theorem civil_year_bounds {z : Int} (h0 : 0 ≤ z) (h : z ≤ 2932896) :
    0 ≤ (Calendar.civil z).year ∧ (Calendar.civil z).year < 10000 := by
  obtain ⟨p, hp, rfl⟩ := Calendar.exists_number z
  have hyear : p.date.year = p.yoe + p.era * 400 + if p.month ≤ 2 then 1 else 0 := rfl
  have hnumber : p.number = p.era * 146097 +
    (Calendar.yearStart p.yoe + (Calendar.monthStart p.mp + p.dom) : Nat) - 719468 := rfl
  have hyoe := hp.yoe_lt
  have hend := Calendar.yearStart_add_le p.yoe hp.yoe_lt
  have hdoy := hp.doy_lt
  have hlast : p.yoe = 399 → p.era = 24 → ¬ p.month ≤ 2 := by
    intro h399 h24 hmonth
    have hstart : Calendar.yearStart 399 = 145731 := rfl
    have hmp : 10 ≤ p.mp := by
      rcases Calendar.Place.month_cases hp.mp_le with ⟨hcase, _⟩ | ⟨_, hcase⟩
      · omega
      · exact hcase
    have hjanuary := Calendar.monthStart_mono hmp
    have hten : Calendar.monthStart 10 = 306 := rfl
    rw [h399, hstart] at hnumber
    omega
  rw [Calendar.Place.civil_number hp, hyear]
  by_cases hmonth : p.month ≤ 2
  · rw [if_pos hmonth]
    have hnot : p.yoe = 399 → p.era ≠ 24 := fun h399 h24 => hlast h399 h24 hmonth
    omega
  · rw [if_neg hmonth]
    omega

theorem stampOf_ranged (h0 : 0 ≤ t) (h : t ≤ LAST_MS) : (stampOf t).Ranged := by
  unfold LAST_MS at h
  obtain ⟨hlow, hhigh⟩ := civil_year_bounds (z := t / 1000 / 86400) (by omega) (by omega)
  have hvalid := Calendar.civil_valid (t / 1000 / 86400)
  have hlen : ∀ y m, Calendar.monthLength y m ≤ 31 := by
    intro y m
    rw [Calendar.monthLength]
    grind
  have hday := hvalid.day_le.trans (hlen _ _)
  refine ⟨?_, ⟨hvalid.month_pos, hvalid.month_le⟩, ⟨hvalid.day_pos, hday⟩, ?_, ?_, ?_⟩ <;>
    simp only [stampOf] <;> omega

theorem unixMs_stampOf (h0 : 0 ≤ t) (h : t ≤ LAST_MS) : (stampOf t).unixMs = t := by
  unfold LAST_MS at h
  obtain ⟨hlow, -⟩ := civil_year_bounds (z := t / 1000 / 86400) (by omega) (by omega)
  have hdays : daysFromCivil ((stampOf t).year : Int) (stampOf t).month (stampOf t).day =
      t / 1000 / 86400 := by
    rw [stampOf]
    dsimp only
    rw [Int.toNat_of_nonneg hlow,
      daysFromCivil_eq _ (Calendar.civil_valid _).day_pos, Calendar.days_civil]
  rw [Stamp.unixMs, hdays]
  simp only [stampOf, Zone.seconds]
  omega

theorem stampOf_ms_lt (t : Int) : (stampOf t).ms < 1000 := by
  simp only [stampOf]
  omega

theorem isoFormat_eq (h0 : 0 < t) (h : t ≤ LAST_MS) {n : Nat} (hn : ISO_MAX ≤ n) :
    isoFormat t n = (stampOf t).text := by
  have hlen := (stampOf_ranged h0.le h).length_text (stampOf_ms_lt t)
  have hroom : 24 < n := hn
  rw [isoFormat, if_neg (by omega)]
  simp only [civilFromDays_eq]
  have htext : ∀ text text' : CStr, text = text' → text'.length = 24 →
      (if text.length < n then text else []) = text' := by
    rintro text _ rfl hshort
    rw [if_pos (by omega)]
  refine htext _ _ ?_ hlen
  simp only [Stamp.text, dateText, timeText, fields, stampOf, List.append_assoc, List.cons_append]

theorem isoParse_isoFormat (h0 : 0 < t) (h : t ≤ LAST_MS) {n : Nat} (hn : ISO_MAX ≤ n) :
    isoParse (some (isoFormat t n)) = t := by
  have hread := readStamp_eq_some.mpr ⟨stampOf_ranged h0.le h, 'T', by decide, _, _,
    readFraction_ms (stampOf_ms_lt t), rfl, rfl⟩
  rw [isoParse, isoFormat_eq h0 h hn, Option.bind_some, Stamp.text, hread]
  dsimp only
  rw [unixMs_stampOf h0.le h, if_pos h0]

end Instant

end Espos.Time
