import Espos.Lib.JsonText
import Espos.Sk.Delta.Refused

-- A string handed to the engine as the JSON literal that says it.

namespace Espos.Sk.Delta

open Espos.Text
open Espos.Run

def escape (c : Char) : CStr :=
  if c = '"' ∨ c = '\\' then ['\\', c]
  else if c.toNat < 0x20 then lit "\\u00" ++ hexByte (UInt8.ofNat c.toNat)
  else [c]

-- The loop over the string, with what is written so far. It stops, and says
-- nothing, where the longest escape might not fit any more.
def escapeInto (size : Nat) : CStr → CStr → CStr
  | buf, [] => buf
  | buf, c :: s => if buf.length + 7 < size then escapeInto size (buf ++ escape c) s else buf

-- `espos_sk_json_string`; none where it returns 0.
def jsonString (size : Nat) (s : CStr) : Option CStr :=
  if size < 3 then none else some (escapeInto size ['"'] s ++ ['"'])

-- The text `publish_string` hands on, or its own error.
def stringText (value : Option CStr) : Except EspErr CStr :=
  match value with
  | none => .error .invalidArg
  | some s =>
    match jsonString VALUE_MAX s with
    | none => .error .invalidSize
    | some v => if VALUE_MAX ≤ s.length * 2 + 2 then .error .invalidSize else .ok v

def Engine.publishString {maxMsgs : Nat} (d : Engine maxMsgs) (K : Kconfig) (env : Env)
    (context : Option CStr) (path : CStr) (value : Option CStr) (atMs : Int) :
    Engine maxMsgs × EspErr :=
  match stringText value with
  | .error err => (d, err)
  | .ok v => d.publishAt K env context path v atMs

-- The part of a string the loop gets through when `o` bytes are written.
def escapable (size : Nat) : Nat → CStr → CStr
  | _, [] => []
  | o, c :: s => if o + 7 < size then c :: escapable size (o + (escape c).length) s else []

def escapedLength (s : CStr) : Nat :=
  (s.flatMap escape).length

theorem escapeInto_eq (size : Nat) (buf s : CStr) :
    escapeInto size buf s = buf ++ (escapable size buf.length s).flatMap escape := by
  induction s generalizing buf with
  | nil => simp [escapeInto, escapable]
  | cons c s ih =>
    rw [escapeInto, escapable]
    by_cases hroom : buf.length + 7 < size
    · rw [if_pos hroom, if_pos hroom, ih, List.flatMap_cons, List.length_append,
        List.append_assoc]
    · rw [if_neg hroom, if_neg hroom, List.flatMap_nil, List.append_nil]

-- All of a string is written where there is room in front of its last character.
theorem escapable_eq_self_iff (size o : Nat) (s : CStr) :
    escapable size o s = s ↔ s = [] ∨ o + escapedLength s.dropLast + 7 < size := by
  induction s generalizing o with
  | nil => simp [escapable]
  | cons c s ih =>
    rw [escapable]
    by_cases hroom : o + 7 < size
    · rw [if_pos hroom, List.cons.injEq, ih]
      cases s with
      | nil => simpa [escapedLength] using hroom
      | cons e s =>
        have hlength : escapedLength (c :: e :: s).dropLast =
            (escape c).length + escapedLength (e :: s).dropLast := by
          simp [escapedLength, List.dropLast]
        rw [hlength]
        simp only [true_and, reduceCtorEq, false_or]
        rw [Nat.add_assoc o]
    · rw [if_neg hroom]
      simp only [reduceCtorEq, false_or, false_iff]
      omega

theorem hexByte_value (b : UInt8) (hb : b.toNat < 0x20) :
    (hexValues ('0' :: '0' :: hexByte b)).bind asciiChar = some (Char.ofNat b.toNat) := by
  have hdigits : ∀ n < 0x20, (hexValues ('0' :: '0' ::
      [Nat.digitChar (n / 16), Nat.digitChar (n % 16)])).bind asciiChar = some (Char.ofNat n) := by
    decide
  exact hdigits b.toNat hb

theorem literalBody_escape (c : Char) (rest : CStr) :
    literalBody (escape c ++ rest) = (literalBody rest).map (c :: ·) := by
  unfold escape
  by_cases hmark : c = '"' ∨ c = '\\'
  · rw [if_pos hmark]
    have hshort : shorthand c = some c := by
      rw [shorthand, if_pos]
      exact hmark.imp_right .inl
    have hu : c ≠ 'u' := by
      rintro rfl
      simp at hmark
    exact literalBody_short hu hshort rest
  · obtain ⟨hquote, hslash⟩ := not_or.mp hmark
    rw [if_neg hmark]
    by_cases hcontrol : c.toNat < 0x20
    · rw [if_pos hcontrol]
      have hbyte : (UInt8.ofNat c.toNat).toNat = c.toNat := by
        rw [UInt8.toNat_ofNat']
        omega
      have hvalue := hexByte_value (UInt8.ofNat c.toNat) (by rwa [hbyte])
      rw [hbyte, Char.ofNat_toNat] at hvalue
      exact literalBody_unicode hvalue rest
    · rw [if_neg hcontrol]
      exact literalBody_plain hquote hslash (by omega) rest

theorem literalBody_escaped (s : CStr) : literalBody (s.flatMap escape ++ ['"']) = some s := by
  induction s with
  | nil => rfl
  | cons c s ih =>
    rw [List.flatMap_cons, List.append_assoc, literalBody_escape, ih, Option.map_some]

-- What the escaper writes says the part of the string it got through.
theorem literalValue_jsonString {size : Nat} {s v : CStr} (h : jsonString size s = some v) :
    literalValue v = some (escapable size 1 s) := by
  unfold jsonString at h
  by_cases hsize : size < 3
  · rw [if_pos hsize] at h
    cases h
  · rw [if_neg hsize, escapeInto_eq] at h
    obtain rfl := Option.some.inj h
    exact literalBody_escaped _

theorem length_escape (c : Char) : (escape c).length ≤ 6 := by
  unfold escape
  by_cases hmark : c = '"' ∨ c = '\\'
  · rw [if_pos hmark]
    simp
  · rw [if_neg hmark]
    by_cases hcontrol : c.toNat < 0x20
    · rw [if_pos hcontrol]
      exact Nat.le_refl 6
    · rw [if_neg hcontrol]
      simp

-- The buffer holds what is written, its closing quote and its terminator.
theorem length_escapeInto {size : Nat} {buf : CStr} (h : buf.length + 2 ≤ size) (s : CStr) :
    (escapeInto size buf s).length + 2 ≤ size := by
  induction s generalizing buf with
  | nil => exact h
  | cons c s ih =>
    rw [escapeInto]
    by_cases hroom : buf.length + 7 < size
    · rw [if_pos hroom]
      apply ih
      have := length_escape c
      rw [List.length_append]
      omega
    · rwa [if_neg hroom]

theorem length_jsonString {size : Nat} {s v : CStr} (h : jsonString size s = some v) :
    v ≠ [] ∧ v.length < size := by
  unfold jsonString at h
  by_cases hsize : size < 3
  · rw [if_pos hsize] at h
    cases h
  · rw [if_neg hsize] at h
    obtain rfl := Option.some.inj h
    have hlength : (escapeInto size ['"'] s).length + 2 ≤ size :=
      length_escapeInto (by simp; omega) s
    refine ⟨by simp, ?_⟩
    rw [List.length_append, List.length_singleton]
    omega

theorem stringText_of_long {s : CStr} (h : VALUE_MAX ≤ s.length * 2 + 2) :
    stringText (some s) = .error .invalidSize := by
  unfold stringText
  cases hjson : jsonString VALUE_MAX s with
  | none => simp only [hjson]
  | some v => simp only [hjson, if_pos h]

theorem stringText_of_short {s : CStr} (h : ¬ VALUE_MAX ≤ s.length * 2 + 2) :
    ∃ v, stringText (some s) = .ok v ∧ jsonString VALUE_MAX s = some v := by
  refine ⟨escapeInto VALUE_MAX ['"'] s ++ ['"'], ?_, rfl⟩
  have hjson : jsonString VALUE_MAX s = some (escapeInto VALUE_MAX ['"'] s ++ ['"']) := rfl
  simp only [stringText, hjson, if_neg h]

namespace Engine

variable {maxMsgs : Nat} {d : Engine maxMsgs} {K : Kconfig} {env : Env}
variable {context : Option CStr} {path v : CStr} {atMs : Int}

-- The call fails and publishes nothing, or the text handed to the engine says
-- the value.
def AllOrNothing (d : Engine maxMsgs) (K : Kconfig) (env : Env) (context : Option CStr)
    (path value : CStr) (atMs : Int) : Prop :=
  let answer := d.publishString K env context path (some value) atMs
  (answer.2 ≠ .ok ∧ answer.1.pending = d.pending ∧ answer.1.ring = d.ring) ∨
    ∃ v, stringText (some value) = .ok v ∧ literalValue v = some value

theorem contextSlot_pending (d : Engine maxMsgs) (context : CStr) :
    (d.contextSlot context).1.pending = d.pending := by
  rcases d.contextSlot_cases context with ⟨_, _, hslot⟩ | ⟨_, _, hslot⟩ | ⟨_, hslot⟩ <;>
    exact congrArg (fun r => r.1.pending) hslot

-- A closed window takes every value that passes the checks.
theorem publishAt_of_pending_nil (h : d.pending = [])
    (hcheck : publishCheck (context.getD SELF_CONTEXT) path v atMs = .ok) :
    (d.publishAt K env context path v atMs).2 = .ok := by
  simp only [publishAt, hcheck, ne_eq, not_true, if_false]
  generalize hslot : d.contextSlot (context.getD SELF_CONTEXT) = slot
  obtain ⟨e, ctx⟩ := slot
  have hnil : e.pending = [] := by
    have hpending := d.contextSlot_pending (context.getD SELF_CONTEXT)
    rwa [hslot, h] at hpending
  unfold publishInto
  cases e.coalesced ctx path v atMs with
  | some table => rfl
  | none =>
    dsimp only
    cases e.noPlace K ctx path atMs with
    | false => rfl
    | true =>
      have hclosed : e.flushWindow env = (e, true) := by rw [flushWindow, if_pos hnil]
      simp only [if_true, hclosed]

theorem publishString_error {value : CStr} {err : EspErr}
    (h : stringText (some value) = .error err) :
    d.publishString K env context path (some value) atMs = (d, err) := by
  simp only [publishString, h]

theorem publishString_ok {value : CStr} (h : stringText (some value) = .ok v) :
    d.publishString K env context path (some value) atMs =
      d.publishAt K env context path v atMs := by
  simp only [publishString, h]

end Engine

-- A string is handed over whole or not at all exactly when it is too long for
-- the buffer at two bytes a character, or its last character is reached with
-- room for the longest escape.
theorem string_whole_iff (value : CStr) :
    (∀ (K : Kconfig) (cfg : Cfg) (calls : List (Env × Op)) (env : Env) (context : Option CStr)
        (path : CStr) (atMs : Int),
      (run (step K) (create cfg) calls).AllOrNothing K env context path value atMs) ↔
      VALUE_MAX ≤ value.length * 2 + 2 ∨ escapedLength value.dropLast + 8 < VALUE_MAX := by
  by_cases hlong : VALUE_MAX ≤ value.length * 2 + 2
  · refine ⟨fun _ => .inl hlong, fun _ K cfg calls env context path atMs => .inl ?_⟩
    rw [Engine.publishString_error (stringText_of_long hlong)]
    exact ⟨nofun, rfl, rfl⟩
  · obtain ⟨v, htext, hjson⟩ := stringText_of_short hlong
    have hliteral := literalValue_jsonString hjson
    have hwhole := escapable_eq_self_iff VALUE_MAX 1 value
    constructor
    · intro hall
      have hfresh := hall .default (.ofRing 1 0 false) [] (.clockless 0) none (lit "a") 0
      have hcheck : Engine.publishCheck SELF_CONTEXT (lit "a") v 0 = .ok := by
        obtain ⟨hne, hfits⟩ := length_jsonString hjson
        have hself : Engine.contextCheck SELF_CONTEXT = .ok := by decide
        have hpath : ¬ PATH_MAX ≤ (lit "a").length := by decide
        have hgiven : lit "a" ≠ [] := by decide
        simp only [Engine.publishCheck, hgiven, hne, ne_eq, not_true, false_and, or_self, hself,
          hpath, Nat.not_le.mpr hfits, if_false]
      rcases hfresh with ⟨herr, _⟩ | ⟨w, hw, hvalue⟩
      · rw [Engine.publishString_ok htext] at herr
        exact absurd herr (not_not_intro (Engine.publishAt_of_pending_nil rfl hcheck))
      · obtain rfl : v = w := by simpa [htext] using hw
        rw [hliteral] at hvalue
        rcases hwhole.mp (Option.some.inj hvalue) with rfl | hroom
        · exact .inr (by decide)
        · exact .inr (by omega)
    · rintro (h | hroom) K cfg calls env context path atMs
      · exact absurd h hlong
      · refine .inr ⟨v, htext, ?_⟩
        rw [hliteral, hwhole.mpr (.inr (by omega))]

-- The value is cut behind its first 42 characters.
def controls : CStr :=
  List.replicate 43 '\x01'

theorem string_cut_short :
    ¬ (create (Cfg.ofRing 1 0 false)).AllOrNothing .default (Env.clockless 0) none (lit "a")
      controls 0 := by
  rintro (⟨herr, _⟩ | ⟨v, htext, hvalue⟩)
  · revert herr
    decide +kernel
  · have hcut : stringText (some controls) =
        .ok (['"'] ++ (List.replicate 42 '\x01').flatMap escape ++ ['"']) := by decide +kernel
    obtain rfl := Except.ok.inj (hcut.symm.trans htext)
    revert hvalue
    decide +kernel

end Espos.Sk.Delta
