import Espos.Sk.Delta.Document
import Espos.Sk.Delta.Strings

-- The JSON text of a document, with every string escaped, and when the engine's
-- text, which escapes none, is the same.

namespace Espos.Sk.Delta

open Espos.Text

def literal (s : CStr) : CStr :=
  ['"'] ++ s.flatMap escape ++ ['"']

def jsonMember (name value : CStr) : CStr :=
  literal name ++ [':'] ++ value

def valueJson (v : CStr × CStr) : CStr :=
  jsonObject [jsonMember (lit "path") (literal v.1), jsonMember (lit "value") v.2]

def Update.json (label : CStr) (u : Update) : CStr :=
  jsonObject ((u.date.toList.map fun iso => jsonMember (lit "timestamp") (literal iso)) ++
    [jsonMember (lit "source") (jsonObject [jsonMember (lit "label") (literal label)]),
      jsonMember (lit "values") (jsonArray (u.values.map valueJson))])

def Doc.json (doc : Doc) : CStr :=
  jsonObject [jsonMember (lit "context") (literal doc.context),
    jsonMember (lit "updates") (jsonArray (doc.updates.map (Update.json doc.label)))]

def needsEscape (c : Char) : Bool :=
  decide (c.toNat < 0x20) || c == '"' || c == '\\'

-- A string that can be copied into a literal.
def Plain (s : CStr) : Prop :=
  ∀ c ∈ s, needsEscape c = false

instance (s : CStr) : Decidable (Plain s) :=
  List.decidableBAll _ s

-- What escaping adds to the length of a string.
def excess (s : CStr) : Nat :=
  (s.map fun c => (escape c).length - 1).sum

theorem escape_of_plain {c : Char} (h : needsEscape c = false) : escape c = [c] := by
  simp only [needsEscape, Bool.or_eq_false_iff, decide_eq_false_iff_not, beq_eq_false_iff_ne] at h
  rw [escape, if_neg (by simpa using ⟨h.1.2, h.2⟩), if_neg h.1.1]

theorem length_escape_of_not_plain {c : Char} (h : needsEscape c = true) :
    1 < (escape c).length := by
  unfold escape
  by_cases hmark : c = '"' ∨ c = '\\'
  · rw [if_pos hmark]
    exact Nat.lt_succ_self 1
  · have hcontrol : c.toNat < 0x20 := by
      obtain ⟨hquote, hslash⟩ := not_or.mp hmark
      simpa [needsEscape, hquote, hslash] using h
    rw [if_neg hmark, if_pos hcontrol]
    exact (by decide : 1 < 6)

theorem length_escape_pos (c : Char) : 0 < (escape c).length := by
  cases h : needsEscape c with
  | true => exact Nat.lt_of_succ_lt (length_escape_of_not_plain h)
  | false => rw [escape_of_plain h]; exact Nat.one_pos

theorem flatMap_escape_of_plain {s : CStr} (h : Plain s) : s.flatMap escape = s := by
  induction s with
  | nil => rfl
  | cons c s ih =>
    rw [List.flatMap_cons, escape_of_plain (h c (by simp)),
      ih fun e he => h e (List.mem_cons_of_mem _ he)]
    rfl

theorem length_literal (s : CStr) : (literal s).length = s.length + 2 + excess s := by
  have hbody : (s.flatMap escape).length = s.length + excess s := by
    induction s with
    | nil => rfl
    | cons c s ih =>
      have hpos := length_escape_pos c
      simp only [excess, List.map_cons, List.sum_cons] at ih ⊢
      rw [List.flatMap_cons, List.length_append, ih, List.length_cons]
      omega
  simp only [literal, List.length_append, List.length_singleton, hbody]
  omega

theorem excess_cons (c : Char) (s : CStr) :
    excess (c :: s) = (escape c).length - 1 + excess s := rfl

theorem excess_eq_zero_iff {s : CStr} : excess s = 0 ↔ Plain s := by
  induction s with
  | nil => exact ⟨fun _ => nofun, fun _ => rfl⟩
  | cons c s ih =>
    rw [excess_cons, Nat.add_eq_zero_iff, ih, Plain, Plain, List.forall_mem_cons]
    refine and_congr_left fun _ => ?_
    cases hneeds : needsEscape c with
    | true =>
      have hlong := length_escape_of_not_plain hneeds
      simp only [reduceCtorEq, iff_false]
      omega
    | false => simp [escape_of_plain hneeds]

-- What escaping adds to an update, and to a document.
def Update.excess (label : CStr) (u : Update) : Nat :=
  u.date.elim 0 Delta.excess + Delta.excess label + (u.values.map fun v => Delta.excess v.1).sum

def Doc.excess (doc : Doc) : Nat :=
  Delta.excess doc.context + (doc.updates.map (Update.excess doc.label)).sum

theorem valueJson_eq (v : CStr × CStr) :
    valueJson v = lit "\x7b\"path\":" ++ literal v.1 ++ lit ",\"value\":" ++ v.2 ++ lit "\x7d" := by
  have hpath : literal (lit "path") = lit "\"path\"" := by decide
  have hvalue : literal (lit "value") = lit "\"value\"" := by decide
  simp only [valueJson, jsonObject, jsonMember, listed, hpath, hvalue, if_true, Bool.false_eq_true,
    if_false, List.append_assoc, List.append_nil, List.nil_append]
  rfl

theorem dateJson_eq (iso : CStr) :
    jsonMember (lit "timestamp") (literal iso) = lit "\"timestamp\":" ++ literal iso := by
  have hname : literal (lit "timestamp") = lit "\"timestamp\"" := by decide
  rw [jsonMember, hname]
  rfl

-- The members of an update behind its timestamp.
def bodyJson (label : CStr) (u : Update) : CStr :=
  lit "\"source\":\x7b\"label\":" ++ literal label ++ lit "\x7d,\"values\":[" ++
    listed true (u.values.map valueJson) ++ lit "]\x7d"

theorem updateJson_eq (label : CStr) (u : Update) :
    u.json label = lit "\x7b" ++
      u.date.elim [] (fun iso => lit "\"timestamp\":" ++ literal iso ++ lit ",") ++
        bodyJson label u := by
  have hsource : literal (lit "source") = lit "\"source\"" := by decide
  have hlabel : literal (lit "label") = lit "\"label\"" := by decide
  have hvalues : literal (lit "values") = lit "\"values\"" := by decide
  have hbody : jsonMember (lit "source") (jsonObject [jsonMember (lit "label") (literal label)]) ++
      ([','] ++ jsonMember (lit "values") (jsonArray (u.values.map valueJson)) ++ lit "\x7d") =
        bodyJson label u := by
    simp only [bodyJson, jsonObject, jsonArray, jsonMember, listed, hsource, hlabel, hvalues,
      if_true, List.append_assoc, List.append_nil, List.nil_append]
    rfl
  rw [← hbody]
  cases hdate : u.date with
  | none =>
    simp only [Update.json, hdate, jsonObject, Option.toList_none, List.map_nil, listed, if_true,
      Bool.false_eq_true, if_false, Option.elim_none, List.append_assoc, List.append_nil,
      List.nil_append]
    rfl
  | some iso =>
    simp only [Update.json, hdate, jsonObject, Option.toList_some, List.map_cons, List.map_nil,
      dateJson_eq, List.cons_append, listed, if_true, Bool.false_eq_true, if_false,
      Option.elim_some, List.append_assoc, List.append_nil, List.nil_append]
    rfl

theorem docJson_eq (doc : Doc) :
    doc.json = lit "\x7b\"context\":" ++ literal doc.context ++ lit ",\"updates\":[" ++
      listed true (doc.updates.map (Update.json doc.label)) ++ lit "]\x7d" := by
  have hcontext : literal (lit "context") = lit "\"context\"" := by decide
  have hupdates : literal (lit "updates") = lit "\"updates\"" := by decide
  simp only [Doc.json, jsonObject, jsonArray, jsonMember, listed, hcontext, hupdates, if_true,
    Bool.false_eq_true, if_false, List.append_assoc, List.append_nil, List.nil_append]
  rfl

-- The engine's texts are the same with the strings copied

def quoted (s : CStr) : CStr :=
  ['"'] ++ s ++ ['"']

theorem length_quoted (s : CStr) : (quoted s).length = s.length + 2 := by
  simp [quoted]

theorem valueText_eq (v : CStr × CStr) :
    valueText v = lit "\x7b\"path\":" ++ quoted v.1 ++ lit ",\"value\":" ++ v.2 ++ lit "\x7d" := by
  simp only [valueText, quoted, List.append_assoc]
  rfl

theorem dateText_eq (date : Option CStr) :
    dateText date = date.elim [] fun iso => lit "\"timestamp\":" ++ quoted iso ++ lit "," := by
  cases date with
  | none => rfl
  | some iso =>
    simp only [dateText, Option.elim_some, timestamp, quoted, List.append_assoc]
    rfl

theorem body_eq (label : CStr) (u : Update) :
    u.body label = lit "\"source\":\x7b\"label\":" ++ quoted label ++ lit "\x7d,\"values\":[" ++
      listed true (u.values.map valueText) ++ lit "]\x7d" := by
  simp only [Update.body, sourceText, quoted, List.append_assoc]
  rfl

theorem render_eq (doc : Doc) :
    doc.render = lit "\x7b\"context\":" ++ quoted doc.context ++ lit ",\"updates\":[" ++
      listed true (doc.updates.map (Update.render doc.label)) ++ lit "]\x7d" := by
  simp only [Doc.render, headText, quoted, List.append_assoc]
  rfl

-- Escaping only makes the text longer

theorem length_valueJson (v : CStr × CStr) :
    (valueJson v).length = (valueText v).length + excess v.1 := by
  simp only [valueJson_eq, valueText_eq, List.length_append, length_literal, length_quoted]
  omega

theorem length_updateJson (label : CStr) (u : Update) :
    (u.json label).length = (u.render label).length + u.excess label := by
  have hvalues := length_listed_map (l := u.values) (fun v _ => length_valueJson v) true
  have hbody : (bodyJson label u).length =
      (u.body label).length + excess label + (u.values.map fun v => excess v.1).sum := by
    simp only [bodyJson, body_eq, List.length_append, length_literal, length_quoted, hvalues]
    omega
  cases hdate : u.date with
  | none =>
    simp only [updateJson_eq, Update.render, Update.excess, dateText_eq, hdate, Option.elim_none,
      List.length_append, hbody]
    omega
  | some iso =>
    simp only [updateJson_eq, Update.render, Update.excess, dateText_eq, hdate, Option.elim_some,
      List.length_append, length_literal, length_quoted, hbody]
    omega

theorem length_json (doc : Doc) : doc.json.length = doc.render.length + doc.excess := by
  have hupdates := length_listed_map (l := doc.updates)
    (fun u _ => length_updateJson doc.label u) true
  simp only [docJson_eq, render_eq, Doc.excess, List.length_append, length_literal, length_quoted,
    hupdates]
  omega

-- All strings of a document can be copied.
structure Doc.Plain (doc : Doc) : Prop where
  context : Delta.Plain doc.context
  label : doc.updates ≠ [] → Delta.Plain doc.label
  dates : ∀ u ∈ doc.updates, ∀ iso ∈ u.date, Delta.Plain iso
  paths : ∀ u ∈ doc.updates, ∀ v ∈ u.values, Delta.Plain v.1

theorem sum_map_eq_zero_iff {α : Type*} {f : α → Nat} {l : List α} :
    (l.map f).sum = 0 ↔ ∀ x ∈ l, f x = 0 := by
  induction l with
  | nil => simp
  | cons x l ih => simp [ih]

theorem updateExcess_eq_zero_iff {label : CStr} {u : Update} :
    u.excess label = 0 ↔
      (∀ iso ∈ u.date, Plain iso) ∧ Plain label ∧ ∀ v ∈ u.values, Plain v.1 := by
  have hdate : u.date.elim 0 excess = 0 ↔ ∀ iso ∈ u.date, Plain iso := by
    cases u.date with
    | none => simp
    | some iso => simp [excess_eq_zero_iff]
  rw [Update.excess, Nat.add_eq_zero_iff, Nat.add_eq_zero_iff, hdate, excess_eq_zero_iff,
    sum_map_eq_zero_iff, and_assoc]
  simp only [excess_eq_zero_iff]

theorem excess_eq_zero_iff_plain {doc : Doc} : doc.excess = 0 ↔ doc.Plain := by
  rw [Doc.excess, Nat.add_eq_zero_iff, excess_eq_zero_iff, sum_map_eq_zero_iff]
  simp only [updateExcess_eq_zero_iff]
  constructor
  · rintro ⟨hcontext, hupdates⟩
    refine ⟨hcontext, fun hne => ?_, fun u hu => (hupdates u hu).1, fun u hu => (hupdates u hu).2.2⟩
    obtain ⟨u, hu⟩ := List.exists_mem_of_ne_nil _ hne
    exact (hupdates u hu).2.1
  · intro h
    exact ⟨h.context, fun u hu => ⟨h.dates u hu, h.label (List.ne_nil_of_mem hu), h.paths u hu⟩⟩

theorem literal_eq_quoted {s : CStr} (h : Plain s) : literal s = quoted s := by
  rw [literal, flatMap_escape_of_plain h, quoted]

theorem updateJson_of_plain {label : CStr} {u : Update} (hdate : ∀ iso ∈ u.date, Plain iso)
    (hlabel : Plain label) (hpaths : ∀ v ∈ u.values, Plain v.1) :
    u.json label = u.render label := by
  have hvalues : u.values.map valueJson = u.values.map valueText := by
    apply List.map_congr_left
    intro v hv
    rw [valueJson_eq, valueText_eq, literal_eq_quoted (hpaths v hv)]
  rw [updateJson_eq, Update.render, dateText_eq, bodyJson, body_eq, hvalues,
    literal_eq_quoted hlabel]
  cases hd : u.date with
  | none => rfl
  | some iso => simp only [Option.elim_some, literal_eq_quoted (hdate iso hd)]

-- The engine's text is the document's JSON exactly when nothing in it needs an
-- escape.
theorem render_eq_json_iff (doc : Doc) : doc.render = doc.json ↔ doc.Plain := by
  constructor
  · intro h
    have hlength := length_json doc
    rw [← h] at hlength
    exact excess_eq_zero_iff_plain.mp (by omega)
  · intro h
    have hupdates : doc.updates.map (Update.json doc.label) =
        doc.updates.map (Update.render doc.label) := by
      apply List.map_congr_left
      intro u hu
      exact updateJson_of_plain (h.dates u hu) (h.label (List.ne_nil_of_mem hu)) (h.paths u hu)
    rw [docJson_eq, render_eq, hupdates, literal_eq_quoted h.context]

end Espos.Sk.Delta
