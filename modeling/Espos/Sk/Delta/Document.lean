import Espos.Lib.Text

namespace Espos.Sk.Delta

open Espos.Text

-- 2000-01-01T00:00:00.000Z. Anything earlier is uptime or unix seconds passed
-- by mistake.
def AT_MS_MIN : Int := 946684800000

-- 9999-12-31T23:59:59.999Z, the last instant `iso8601` can write.
def AT_MS_MAX : Int := 253402300799999

-- A day of the civil calendar.
structure Civil where
  year : Nat
  mon : Nat
  day : Nat
deriving DecidableEq

-- March-based era arithmetic: the leap day is the last day of the year. The
-- day count starts in 1970, so no intermediate is negative.
def civilFromDays (days : Nat) : Civil :=
  let z := days + 719468
  let era := z / 146097
  let doe := z - era * 146097
  let yoe := (doe - doe / 1460 + doe / 36524 - doe / 146096) / 365
  let y := yoe + era * 400
  let doy := doe - (365 * yoe + yoe / 4 - yoe / 100)
  let mp := (5 * doy + 2) / 153
  let day := doy - (153 * mp + 2) / 5 + 1
  let mon := if mp < 10 then mp + 3 else mp - 9
  { year := y + (if mon ≤ 2 then 1 else 0), mon := mon, day := day }

-- ISO 8601 UTC with milliseconds. The caller's buffer holds 24 characters: a
-- longer text, which a year past 9999 makes, is not written at all.
def iso8601 (unixMs : Int) : Option CStr :=
  if unixMs ≤ 0 then none
  else
    let t := unixMs.toNat
    let secs := t / 1000
    let ms := t % 1000
    let sod := secs % 86400
    let date := civilFromDays (secs / 86400)
    let text :=
      padded 4 date.year ++ lit "-" ++ padded 2 date.mon ++ lit "-" ++ padded 2 date.day ++
        lit "T" ++ padded 2 (sod / 3600) ++ lit ":" ++ padded 2 (sod / 60 % 60) ++ lit ":" ++
        padded 2 (sod % 60) ++ lit "." ++ padded 3 ms ++ lit "Z"
    if text.length < 25 then some text else none

-- 2932896 is the last day of 9999.
theorem civilFromDays_bounds {days : Nat} (h : days ≤ 2932896) :
    (civilFromDays days).year < 10000 ∧ (civilFromDays days).mon < 100 ∧
      (civilFromDays days).day < 100 := by
  unfold civilFromDays
  dsimp only
  generalize hz : days + 719468 = z
  generalize hera : z / 146097 = era
  generalize hdoe : z - era * 146097 = doe
  have hdoeLt : doe < 146097 := by omega
  have heraLe : era ≤ 24 := by omega
  generalize hyoe : (doe - doe / 1460 + doe / 36524 - doe / 146096) / 365 = yoe
  have hyoeLt : yoe < 400 := by omega
  generalize hdoy : doe - (365 * yoe + yoe / 4 - yoe / 100) = doy
  have hdoyLt : doy ≤ 366 := by omega
  -- the last era of the range ends before the January that would be 10000's
  have hlast : era = 24 → yoe = 399 → doy ≤ 305 := by
    intro h24 h399
    omega
  generalize hmp : (5 * doy + 2) / 153 = mp
  have hmpLe : mp ≤ 11 := by omega
  refine ⟨?_, ?_, ?_⟩
  · by_cases h24 : era = 24
    · by_cases h399 : yoe = 399
      · have hdoy305 := hlast h24 h399
        split <;> split <;> omega
      · split <;> split <;> omega
    · split <;> split <;> omega
  · split <;> omega
  · omega

-- Every instant a caller may date a value with can be written.
theorem iso8601_isSome {t : Int} (hmin : AT_MS_MIN ≤ t) (hmax : t ≤ AT_MS_MAX) :
    (iso8601 t).isSome := by
  unfold AT_MS_MIN at hmin
  unfold AT_MS_MAX at hmax
  have hpos : ¬ t ≤ 0 := by omega
  obtain ⟨hyear, hmon, hday⟩ :=
    civilFromDays_bounds (show t.toNat / 1000 / 86400 ≤ 2932896 by omega)
  simp only [iso8601, hpos, if_false]
  rw [if_pos]
  · rfl
  · have hsep (s : String) (hs : s.toList.length = 1) : (lit s).length = 1 := hs
    simp only [List.length_append]
    rw [length_padded (by omega) (by omega), length_padded (by omega) (by omega),
      length_padded (by omega) (by omega), length_padded (by omega) (by omega),
      length_padded (by omega) (by omega), length_padded (by omega) (by omega),
      length_padded (by omega) (by omega), hsep "-" rfl, hsep "T" rfl, hsep ":" rfl,
      hsep "." rfl, hsep "Z" rfl]
    omega

example : iso8601 1789380733456 = some (lit "2026-09-14T10:12:13.456Z") := by decide

end Espos.Sk.Delta

namespace Espos.Sk.Delta

open Espos.Text

-- One member of a delta's `updates`: its timestamp, where it has one, and the
-- values with their paths.
structure Update where
  date : Option CStr
  values : List (CStr × CStr)
deriving DecidableEq

-- What a delta message says.
structure Doc where
  context : CStr
  label : CStr
  updates : List Update
deriving DecidableEq

-- The text between an update's opening brace and its source.
def timestamp (iso : CStr) : CStr :=
  lit "\"timestamp\":\"" ++ iso ++ lit "\","

def dateText (date : Option CStr) : CStr :=
  date.elim [] timestamp

def sourceText (label : CStr) : CStr :=
  lit "\"source\":\x7b\"label\":\"" ++ label ++ lit "\"\x7d,\"values\":["

def valueText (v : CStr × CStr) : CStr :=
  lit "\x7b\"path\":\"" ++ v.1 ++ lit "\",\"value\":" ++ v.2 ++ lit "\x7d"

def headText (context : CStr) : CStr :=
  lit "\x7b\"context\":\"" ++ context ++ lit "\",\"updates\":["

namespace Update

def body (label : CStr) (u : Update) : CStr :=
  sourceText label ++ listed true (u.values.map valueText) ++ lit "]\x7d"

def render (label : CStr) (u : Update) : CStr :=
  lit "\x7b" ++ dateText u.date ++ u.body label

def stamp (iso : CStr) (u : Update) : Update :=
  if u.date.isNone then { u with date := some iso } else u

-- The values an update has for a path, in order.
def valuesOf (path : CStr) (u : Update) : List CStr :=
  (u.values.filter fun v => v.1 == path).map Prod.snd

end Update

namespace Doc

def render (doc : Doc) : CStr :=
  headText doc.context ++ listed true (doc.updates.map (Update.render doc.label)) ++ lit "]\x7d"

-- The same document with what was undated dated.
def stamp (iso : CStr) (doc : Doc) : Doc :=
  { doc with updates := doc.updates.map (Update.stamp iso) }

-- The values a reader of the document finds for a path of a context: updates
-- in array order, values in order.
def valuesOf (context path : CStr) (doc : Doc) : List CStr :=
  if doc.context = context then doc.updates.flatMap (Update.valuesOf path) else []

end Doc

@[simp] theorem Update.values_stamp (iso : CStr) (u : Update) : (u.stamp iso).values = u.values := by
  unfold Update.stamp
  split <;> rfl

theorem Update.stamp_of_isSome (iso : CStr) {u : Update} (h : u.date.isSome) :
    u.stamp iso = u := by
  unfold Update.stamp
  rw [if_neg]
  rw [Option.isNone_iff_eq_none]
  intro hnone
  rw [hnone] at h
  cases h

-- Dating a document does not change what it says about any path.
@[simp] theorem Doc.valuesOf_stamp (context path iso : CStr) (doc : Doc) :
    (doc.stamp iso).valuesOf context path = doc.valuesOf context path := by
  have hupd (u : Update) : (u.stamp iso).valuesOf path = u.valuesOf path := by
    simp [Update.valuesOf]
  simp only [Doc.valuesOf, Doc.stamp, List.flatMap_map, hupd]

end Espos.Sk.Delta
