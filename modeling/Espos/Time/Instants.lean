import Espos.Sk.Delta.Document
import Espos.Time.Iso

-- What the clock's formatter and the delta engine write of an instant, and
-- which timestamps name one.

namespace Espos.Time

open Espos.Text Espos.Digits

-- The delta engine's calendar counts in naturals.
theorem delta_civilFromDays (z : Nat) :
    (Calendar.civil z).year.toNat = (Sk.Delta.civilFromDays z).year ∧
      (Calendar.civil z).month = (Sk.Delta.civilFromDays z).mon ∧
      (Calendar.civil z).day = (Sk.Delta.civilFromDays z).day := by
  have hera : ((z : Int) + 719468) / 146097 = ((z + 719468) / 146097 : Nat) := by omega
  have hdoe : (((z : Int) + 719468) % 146097).toNat =
      z + 719468 - (z + 719468) / 146097 * 146097 := by omega
  have hyear : ∀ yoe era month : Nat, ((yoe : Int) + era * 400 + if month ≤ 2 then 1 else 0).toNat =
      yoe + era * 400 + if month ≤ 2 then 1 else 0 := by
    intro yoe era month
    by_cases hmonth : month ≤ 2
    · rw [if_pos hmonth, if_pos hmonth]
      omega
    · rw [if_neg hmonth, if_neg hmonth]
      omega
  rw [Calendar.civil, hera, hdoe]
  exact ⟨hyear _ _ _, rfl, rfl⟩

section Instant

variable {t : Int} {n : Nat}

theorem delta_iso8601 (h0 : 0 < t) (h : t ≤ LAST_MS) (hn : ISO_MAX ≤ n) :
    Sk.Delta.iso8601 t = some (isoFormat t n) := by
  have hsecs : t.toNat / 1000 % 86400 = (t / 1000 % 86400).toNat := by omega
  have hms : t.toNat % 1000 = (t % 1000).toNat := by omega
  have hday : ((t.toNat / 1000 / 86400 : Nat) : Int) = t / 1000 / 86400 := by omega
  obtain ⟨hyear, hmonth, hdom⟩ := delta_civilFromDays (t.toNat / 1000 / 86400)
  rw [hday] at hyear hmonth hdom
  have hlen := (stampOf_ranged h0.le h).length_text (stampOf_ms_lt t)
  have htext : ∀ text : CStr, text = (stampOf t).text →
      (if text.length < 25 then some text else none) = some (stampOf t).text := by
    rintro _ rfl
    rw [if_pos (by omega)]
  rw [Sk.Delta.iso8601, if_neg (by omega), isoFormat_eq h0 h hn]
  dsimp only
  rw [hsecs, hms, ← hyear, ← hmonth, ← hdom]
  refine htext _ ?_
  simp [lit, Stamp.text, dateText, timeText, fields, stampOf]

theorem iso_round_trip (h0 : 0 < t) (h : t ≤ LAST_MS) (hn : ISO_MAX ≤ n) :
    isoParse (some (isoFormat t n)) = t ∧ Sk.Delta.iso8601 t = some (isoFormat t n) :=
  ⟨isoParse_isoFormat h0 h hn, delta_iso8601 h0 h hn⟩

theorem iso_round_trip_last :
    isoParse (some (isoFormat LAST_MS 25)) = LAST_MS ∧
      Sk.Delta.iso8601 LAST_MS = some (isoFormat LAST_MS 25) :=
  iso_round_trip (by decide) (Int.le_refl LAST_MS) (Nat.le_refl ISO_MAX)

end Instant

-- The seconds of a stamp within its day.
def Stamp.sod (f : Stamp) : Nat :=
  f.hour * 3600 + f.minute * 60 + f.second

def Stamp.date (f : Stamp) : Calendar.Date where
  year := f.year
  month := f.month
  day := f.day

theorem fractionLoop_lt {ms seen : Nat} (s : CStr) (hseen : seen ≤ 3) (hms : ms < 10 ^ seen) :
    (fractionLoop ms seen s).1 < 1000 := by
  have hend : ∀ ms seen : Nat, seen ≤ 3 → ms < 10 ^ seen → ms * 10 ^ (3 - seen) < 1000 := by
    intro ms seen hseen hms
    have hpow : 10 ^ seen * 10 ^ (3 - seen) = 1000 := by
      rw [← Nat.pow_add, Nat.add_sub_cancel' hseen]
    calc ms * 10 ^ (3 - seen) < 10 ^ seen * 10 ^ (3 - seen) :=
          Nat.mul_lt_mul_of_pos_right hms (Nat.pow_pos (by decide))
      _ = 1000 := hpow
  induction s generalizing ms seen with
  | nil => exact hend ms seen hseen hms
  | cons c s ih =>
    rw [fractionLoop]
    by_cases hdigit : c.isDigit = true
    · rw [if_pos hdigit]
      by_cases hmore : seen < 3
      · have hvalue := (digitChar_of_decimalValue (if_pos hdigit)).1
        have hnext : ms * 10 + (c.toNat - 48) < 10 ^ (seen + 1) := by
          rw [Nat.pow_succ]
          omega
        rw [if_pos hmore]
        exact ih hmore hnext
      · rw [if_neg hmore]
        exact ih hseen hms
    · rw [if_neg hdigit]
      exact hend ms seen hseen hms

theorem readFraction_lt {s s' : CStr} {ms : Nat} (h : readFraction s = some (ms, s')) :
    ms < 1000 := by
  rw [readFraction] at h
  cases hsep : expect ['.', ','] s with
  | none =>
    rw [hsep] at h
    cases h
    decide
  | some rest =>
    rw [hsep] at h
    obtain ⟨-, h⟩ := Option.ite_none_right_eq_some.mp h
    have hlt := fractionLoop_lt rest (Nat.zero_le 3) (by decide : 0 < 10 ^ 0)
    rw [Option.some.inj h] at hlt
    exact hlt

-- Formatting what was read from `s` gives the date and the time of `s` back.
def GivesBack (s : CStr) : Prop :=
  (isoFormat (isoParse (some s)) ISO_MAX).take 10 = s.take 10 ∧
    ((isoFormat (isoParse (some s)) ISO_MAX).drop 11).take 8 = (s.drop 11).take 8

instance (s : CStr) : Decidable (GivesBack s) :=
  inferInstanceAs (Decidable (_ ∧ _))

-- An offset there can be.
def Zone.Within : Zone → Prop
  | .offset _ oh om => oh ≤ 23 ∧ om ≤ 59
  | _ => True

-- No date the parser lets through is behind the last the formatter can write.
theorem days_le {d : Calendar.Date} (hyear : 0 ≤ d.year ∧ d.year < 10000)
    (hmonth : 1 ≤ d.month ∧ d.month ≤ 12) (hday : 1 ≤ d.day ∧ d.day ≤ 31) :
    Calendar.days d ≤ 2932896 := by
  unfold Calendar.days
  dsimp only
  by_cases hcase : d.month ≤ 2
  · rw [if_pos hcase, if_neg (by omega)]
    unfold Calendar.yearStart Calendar.monthStart
    omega
  · rw [if_neg hcase, if_pos (by omega)]
    unfold Calendar.yearStart Calendar.monthStart
    omega

section Read

variable {f : Stamp}

theorem unixMs_utc (h : f.Ranged) (hzone : f.zone = .utc) :
    f.unixMs = (Calendar.days f.date * 86400 + f.sod) * 1000 + f.ms := by
  have hdays : daysFromCivil f.year f.month f.day = Calendar.days f.date :=
    daysFromCivil_eq f.date h.day.1
  rw [Stamp.unixMs, hdays, hzone, Stamp.sod]
  simp only [Zone.seconds]
  omega

theorem days_date_le (h : f.Ranged) : Calendar.days f.date ≤ 2932896 := by
  have hyear : 0 ≤ (f.year : Int) ∧ (f.year : Int) < 10000 := by
    have hlt := h.year
    omega
  exact days_le hyear h.month h.day

theorem sod_lt (h : f.Ranged) (hsecond : f.second < 60) : f.sod < 86400 := by
  have hhour := h.hour
  have hminute := h.minute
  unfold Stamp.sod
  omega

theorem unixMs_le (h : f.Ranged) (hms : f.ms < 1000) (hzone : f.zone = .utc)
    (hsecond : f.second < 60) : f.unixMs ≤ LAST_MS := by
  have hdays := days_date_le h
  have hsod := sod_lt h hsecond
  rw [unixMs_utc h hzone, LAST_MS]
  omega

-- The time of the day comes back as it was read, and so does a date there is.
theorem stampOf_unixMs (h : f.Ranged) (hms : f.ms < 1000) (hzone : f.zone = .utc)
    (hsecond : f.second < 60) :
    (stampOf f.unixMs).year = (Calendar.civil (Calendar.days f.date)).year.toNat ∧
      (stampOf f.unixMs).month = (Calendar.civil (Calendar.days f.date)).month ∧
      (stampOf f.unixMs).day = (Calendar.civil (Calendar.days f.date)).day ∧
      (stampOf f.unixMs).hour = f.hour ∧ (stampOf f.unixMs).minute = f.minute ∧
      (stampOf f.unixMs).second = f.second := by
  have hsod := sod_lt h hsecond
  have hminute := h.minute
  have hday : f.unixMs / 1000 / 86400 = Calendar.days f.date := by
    rw [unixMs_utc h hzone]
    omega
  have hrest : (f.unixMs / 1000 % 86400).toNat = f.sod := by
    rw [unixMs_utc h hzone]
    omega
  rw [stampOf, hday, hrest]
  refine ⟨rfl, rfl, rfl, ?_, ?_, ?_⟩ <;> simp only [Stamp.sod] <;> omega

-- Where the date and the time of the day stand in a timestamp.
theorem text_pieces (h : f.Ranged) (sep : Char) (rest : CStr) {s : CStr}
    (hs : s = dateText f.year f.month f.day ++ sep :: timeText f.hour f.minute f.second ++ rest) :
    s.take 10 = dateText f.year f.month f.day ∧
      (s.drop 11).take 8 = timeText f.hour f.minute f.second := by
  obtain ⟨hyear, hmonth, hday, hhour, hminute, hsecond⟩ := h
  have hdate : (dateText f.year f.month f.day).length = 10 :=
    length_fields (by decide) '-' hyear (by omega) (by omega)
  have htime : (timeText f.hour f.minute f.second).length = 8 :=
    length_fields (by decide) ':' (by omega) (by omega) (by omega)
  have hsplit : s = dateText f.year f.month f.day ++ [sep] ++
      (timeText f.hour f.minute f.second ++ rest) := by
    rw [hs]
    simp
  constructor
  · rw [hsplit, List.append_assoc, List.take_left' hdate]
  · rw [hsplit, List.drop_left' (by rw [List.length_append, hdate]; rfl), List.take_left' htime]

theorem fields_inj {width x y z x' y' z' : Nat} (hw : 0 < width) (sep : Char)
    (hx : x < 10 ^ width ∧ x' < 10 ^ width) (hy : y < 100 ∧ y' < 100) (hz : z < 100 ∧ z' < 100) :
    fields width sep x y z = fields width sep x' y' z' ↔ x = x' ∧ y = y' ∧ z = z' := by
  constructor
  · intro h
    have hread : readFields width sep (fields width sep x y z) = some (x, y, z, []) :=
      (readFields_eq_some hw).mpr ⟨hx.1, hy.1, hz.1, (List.append_nil _).symm⟩
    have hread' : readFields width sep (fields width sep x' y' z') = some (x', y', z', []) :=
      (readFields_eq_some hw).mpr ⟨hx.2, hy.2, hz.2, (List.append_nil _).symm⟩
    rw [h, hread'] at hread
    simp only [Option.some.injEq, Prod.mk.injEq] at hread
    exact ⟨hread.1.symm, hread.2.1.symm, hread.2.2.1.symm⟩
  · rintro ⟨rfl, rfl, rfl⟩
    rfl

theorem date_valid_iff (h : f.Ranged) :
    f.date.Valid ↔ f.day ≤ Calendar.monthLength f.year f.month :=
  ⟨fun hvalid => hvalid.day_le, fun hday => ⟨h.month.1, h.month.2, h.day.1, hday⟩⟩

theorem givesBack_iff {s : CStr} (hread : readStamp s = some f) (hpos : isoParse (some s) ≠ 0)
    (hzone : f.zone = .utc) (hsecond : f.second < 60) :
    GivesBack s ↔ f.day ≤ Calendar.monthLength f.year f.month := by
  obtain ⟨h, sep, -, rest, _, hms, -, hs⟩ := readStamp_eq_some.mp hread
  have hmsLt := readFraction_lt hms
  have hparse : isoParse (some s) = f.unixMs ∧ 0 < f.unixMs := by
    have hvalue : isoParse (some s) = if 0 < f.unixMs then f.unixMs else 0 := by
      rw [isoParse, Option.bind_some, hread]
    by_cases hcase : 0 < f.unixMs
    · exact ⟨by rw [hvalue, if_pos hcase], hcase⟩
    · exact absurd (by rw [hvalue, if_neg hcase]) hpos
  have hle := unixMs_le h hmsLt hzone hsecond
  have hranged := stampOf_ranged hparse.2.le hle
  obtain ⟨hyear, hmonth, hday, hhour, hminute, hsec⟩ := stampOf_unixMs h hmsLt hzone hsecond
  have htext := text_pieces hranged 'T' ('.' :: padded 3 (stampOf f.unixMs).ms ++ ['Z']) rfl
  obtain ⟨hdate, htime⟩ := text_pieces h sep rest hs
  rw [GivesBack, hparse.1, isoFormat_eq hparse.2 hle (Nat.le_refl _), Stamp.text, htext.1, htext.2,
    hdate, htime, hhour, hminute, hsec, and_iff_left rfl, ← date_valid_iff h]
  have hdays : 0 ≤ Calendar.days f.date := by
    have hfirst := hparse.2
    have hsod := sod_lt h hsecond
    rw [unixMs_utc h hzone] at hfirst
    omega
  obtain ⟨hlow, -⟩ := civil_year_bounds hdays (days_date_le h)
  have hmonthLt := hranged.month.2
  have hdayLt := hranged.day.2
  have hmonthLt' := h.month.2
  have hdayLt' := h.day.2
  rw [dateText, dateText, fields_inj (by decide) '-' ⟨hranged.year, h.year⟩ ⟨by omega, by omega⟩
    ⟨by omega, by omega⟩, hyear, hmonth, hday]
  constructor
  · rintro ⟨hy, hm, hd⟩
    have hsame : Calendar.civil (Calendar.days f.date) = f.date := by
      refine Calendar.Date.ext ?_ hm hd
      change _ = (f.year : Int)
      omega
    rw [← hsame]
    exact Calendar.civil_valid _
  · intro hvalid
    rw [Calendar.civil_days hvalid]
    exact ⟨rfl, rfl, rfl⟩

-- A day its month does not have comes back as one of the next month, and nothing
-- looks at the size of an offset.
theorem accepted_real_iff {s : CStr} (hread : readStamp s = some f) (hpos : isoParse (some s) ≠ 0) :
    ((f.zone = .utc → f.second < 60 → GivesBack s) ∧ f.zone.Within) ↔
      (f.zone = .utc → f.second < 60 → f.day ≤ Calendar.monthLength f.year f.month) ∧
        f.zone.Within := by
  have hsame : (f.zone = .utc → f.second < 60 → GivesBack s) ↔
      (f.zone = .utc → f.second < 60 → f.day ≤ Calendar.monthLength f.year f.month) :=
    forall_congr' fun hzone => forall_congr' fun hsecond => givesBack_iff hread hpos hzone hsecond
  rw [hsame]

theorem accepted_real_march :
    let f : Stamp := ⟨2026, 3, 1, 0, 0, 0, 0, .utc⟩
    ((f.zone = .utc → f.second < 60 → GivesBack (lit "2026-03-01T00:00:00Z")) ∧ f.zone.Within) ↔
      (f.zone = .utc → f.second < 60 → f.day ≤ Calendar.monthLength f.year f.month) ∧
        f.zone.Within :=
  accepted_real_iff (by decide +kernel) (by decide +kernel)

-- The 31st of February is the 3rd of March, and an offset of 99:99 is four days.
theorem accepted_unreal :
    (isoParse (some (lit "2026-02-31T00:00:00Z")) = 1772496000000 ∧
      readStamp (lit "2026-02-31T00:00:00Z") = some ⟨2026, 2, 31, 0, 0, 0, 0, .utc⟩ ∧
      isoFormat 1772496000000 ISO_MAX = lit "2026-03-03T00:00:00.000Z" ∧
      ¬ GivesBack (lit "2026-02-31T00:00:00Z")) ∧
    isoParse (some (lit "2026-03-01T00:00:00+99:99")) = 1771960860000 ∧
      readStamp (lit "2026-03-01T00:00:00+99:99") =
        some ⟨2026, 3, 1, 0, 0, 0, 0, .offset false 99 99⟩ ∧
      ¬ (Zone.offset false 99 99).Within := by
  refine ⟨by decide +kernel, by decide +kernel, by decide +kernel, ?_⟩
  rintro ⟨hhours, -⟩
  exact absurd hhours (by decide)

end Read

end Espos.Time
