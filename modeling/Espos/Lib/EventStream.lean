import Mathlib.Data.List.Basic
import Espos.Lib.Text

-- A stream of server-sent events, read the way a browser reads it.

namespace Espos.EventStream

open Espos.Text

structure Reader where
  line : CStr
  -- The last character was a carriage return, so a line feed belongs to it.
  cr : Bool
  kind : CStr
  data : CStr
  events : List (CStr × CStr)

-- Between two events.
def idle (events : List (CStr × CStr)) : Reader :=
  ⟨[], false, [], [], events⟩

-- What stands in front of the first colon, and what follows it without the
-- blank that may lead it.
def field (line : CStr) : CStr × CStr :=
  let value := (line.dropWhile (· ≠ ':')).drop 1
  (line.takeWhile (· ≠ ':'), if value.head? = some ' ' then value.tail else value)

namespace Reader

-- An event without data is forgotten, one without a name is a message.
def dispatch (r : Reader) : Reader :=
  if r.data = [] then { r with kind := [] }
  else { r with
    kind := []
    data := []
    events := r.events ++ [(if r.kind = [] then lit "message" else r.kind, r.data.dropLast)] }

def take (r : Reader) (name value : CStr) : Reader :=
  if name = lit "event" then { r with kind := value }
  else if name = lit "data" then { r with data := r.data ++ value ++ ['\n'] }
  else r

def endLine (r : Reader) : Reader :=
  let line := r.line
  let r := { r with line := [] }
  if line = [] then r.dispatch else r.take (field line).1 (field line).2

def read (r : Reader) (c : Char) : Reader :=
  if c = '\n' then if r.cr then { r with cr := false } else r.endLine
  else if c = '\r' then { r.endLine with cr := true }
  else { r with line := r.line ++ [c], cr := false }

end Reader

def reads (text : CStr) : Reader :=
  text.foldl Reader.read (idle [])

def events (text : CStr) : List (CStr × CStr) :=
  (reads text).events

-- Nothing in the text ends a line.
def OneLine (text : CStr) : Prop :=
  '\n' ∉ text ∧ '\r' ∉ text

instance (text : CStr) : Decidable (OneLine text) :=
  inferInstanceAs (Decidable (_ ∧ _))

variable {r : Reader} {text line name value : CStr} {evs : List (CStr × CStr)}

theorem OneLine.append (h : OneLine text) (h' : OneLine line) : OneLine (text ++ line) := by
  constructor
  · rw [List.mem_append, not_or]
    exact ⟨h.1, h'.1⟩
  · rw [List.mem_append, not_or]
    exact ⟨h.2, h'.2⟩

theorem foldl_read_text (h : OneLine text) (hcr : r.cr = false) :
    text.foldl Reader.read r = { r with line := r.line ++ text } := by
  induction text generalizing r with
  | nil => simp
  | cons c text ih =>
    obtain ⟨hlf, hret⟩ := h
    rw [List.mem_cons, not_or] at hlf hret
    have hread : r.read c = { r with line := r.line ++ [c], cr := false } := by
      rw [Reader.read, if_neg (Ne.symm hlf.1), if_neg (Ne.symm hret.1)]
    rw [List.foldl_cons, hread, ih ⟨hlf.2, hret.2⟩ rfl]
    simp [hcr]

-- A whole line, read from where a line starts.
theorem foldl_read_line (h : OneLine line) (hline : r.line = []) (hcr : r.cr = false) :
    (line ++ ['\n']).foldl Reader.read r = { r with line := line }.endLine := by
  rw [List.foldl_append, foldl_read_text h hcr, hline, List.nil_append, List.foldl_cons,
    List.foldl_nil, Reader.read, if_pos rfl, hcr, if_neg Bool.false_ne_true]

theorem field_eq (hname : ':' ∉ name) : field (name ++ ':' :: ' ' :: value) = (name, value) := by
  have hall : ∀ c ∈ name, decide (c ≠ ':') = true := by
    intro c hc
    exact decide_eq_true fun heq => hname (heq ▸ hc)
  rw [field, List.takeWhile_append_of_pos hall, List.dropWhile_append_of_pos hall]
  simp

theorem endLine_field (hname : ':' ∉ name) :
    { r with line := name ++ ':' :: ' ' :: value }.endLine =
      { r with line := [] }.take name value := by
  rw [Reader.endLine, if_neg (by simp), field_eq hname]

theorem foldl_read_field (hname : ':' ∉ name) (hone : OneLine name) (hvalue : OneLine value)
    (hline : r.line = []) (hcr : r.cr = false) :
    (name ++ ':' :: ' ' :: value ++ ['\n']).foldl Reader.read r = r.take name value := by
  have hwhole : OneLine (name ++ ':' :: ' ' :: value) := by
    refine hone.append ⟨?_, ?_⟩
    · simp [hvalue.1]
    · simp [hvalue.2]
  rw [foldl_read_line hwhole hline hcr, endLine_field hname, ← hline]

theorem foldl_read_blank (hline : r.line = []) (hcr : r.cr = false) :
    ['\n'].foldl Reader.read r = r.dispatch := by
  have hempty : OneLine [] := ⟨List.not_mem_nil, List.not_mem_nil⟩
  have h := foldl_read_line hempty hline hcr
  rw [List.nil_append] at h
  rw [h, Reader.endLine, if_pos rfl, ← hline]

-- A field that the reader has no use for, followed by a blank line.
theorem idle_skip (hname : ':' ∉ name) (hone : OneLine name) (hvalue : OneLine value)
    (hevent : name ≠ lit "event") (hdata : name ≠ lit "data") :
    (name ++ ':' :: ' ' :: value ++ ['\n'] ++ ['\n']).foldl Reader.read (idle evs) = idle evs := by
  rw [List.foldl_append, foldl_read_field hname hone hvalue rfl rfl, Reader.take, if_neg hevent,
    if_neg hdata, foldl_read_blank rfl rfl, Reader.dispatch]
  exact if_pos rfl

theorem idle_event {kind data : CStr} (hkind : OneLine kind) (hdata : OneLine data)
    (hne : kind ≠ []) :
    (lit "event" ++ ':' :: ' ' :: kind ++ ['\n'] ++
      (lit "data" ++ ':' :: ' ' :: data ++ ['\n']) ++ ['\n']).foldl Reader.read (idle evs) =
        idle (evs ++ [(kind, data)]) := by
  rw [List.foldl_append, List.foldl_append,
    foldl_read_field (by decide) (by decide) hkind rfl rfl, Reader.take, if_pos rfl,
    foldl_read_field (by decide) (by decide) hdata rfl rfl, Reader.take, if_neg (by decide),
    if_pos rfl, foldl_read_blank rfl rfl, Reader.dispatch, if_neg (by simp), if_neg hne]
  simp [idle]

end Espos.EventStream
