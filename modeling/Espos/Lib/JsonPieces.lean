import Espos.Lib.JsonText
import Mathlib.Data.List.Infix

-- Documents that are printed piece by piece, with strings that may not be escaped: what
-- such a text says is what it was meant to say only where all of them are.

namespace Espos.JsonText

open Espos.Text

-- The strings of a tree, in the order of its text. Names of members do not count.
mutual

def Tree.strings : Tree → List CStr
  | .string s => [s]
  | .array items => itemStrings items
  | .object members => memberStrings members
  | .null => []
  | .bool _ => []
  | .number _ => []

def itemStrings : List Tree → List CStr
  | [] => []
  | tree :: rest => tree.strings ++ itemStrings rest

def memberStrings : List (CStr × Tree) → List CStr
  | [] => []
  | (_, tree) :: rest => tree.strings ++ memberStrings rest

end

theorem itemStrings_append (items more : List Tree) :
    itemStrings (items ++ more) = itemStrings items ++ itemStrings more := by
  induction items with
  | nil => rfl
  | cons tree items ih => rw [List.cons_append, itemStrings, itemStrings, ih, List.append_assoc]

theorem memberStrings_append (members more : List (CStr × Tree)) :
    memberStrings (members ++ more) = memberStrings members ++ memberStrings more := by
  induction members with
  | nil => rfl
  | cons m members ih =>
    rw [List.cons_append, memberStrings, memberStrings, ih, List.append_assoc]

-- The strings read so far.
def Level.strings : Level → List CStr
  | .array items => itemStrings items
  | .object members _ => memberStrings members

def stackStrings : List Level → List CStr
  | [] => []
  | level :: stack => stackStrings stack ++ level.strings

def Config.strings (config : Config) : List CStr :=
  stackStrings config.stack ++
    match config.mode with
    | .done tree => tree.strings
    | _ => []

section Strings

variable {config config' : Config} {stack : List Level} {isKey : Bool}

theorem strings_attach (tree : Tree) (stack : List Level) :
    (attach tree stack).strings = stackStrings stack ++ tree.strings := by
  cases stack with
  | nil => rfl
  | cons level stack =>
    cases level with
    | array items =>
      simp [attach, Config.strings, stackStrings, Level.strings, itemStrings_append,
        itemStrings]
    | object members key =>
      simp [attach, Config.strings, stackStrings, Level.strings, memberStrings_append,
        memberStrings]

theorem strings_stepValue {c : Char} (h : stepValue stack c = some config) :
    config.strings = stackStrings stack := by
  unfold stepValue at h
  split_ifs at h
  all_goals
    cases h
    simp [Config.strings, stackStrings, Level.strings, itemStrings, memberStrings]

theorem strings_stepKey {c : Char} (h : stepKey stack c = some config) :
    config.strings = stackStrings stack := by
  unfold stepKey at h
  split_ifs at h
  all_goals
    cases h
    simp [Config.strings]

theorem strings_closeArray (h : closeArray stack = some config) :
    config.strings = stackStrings stack := by
  cases stack with
  | nil => cases h
  | cons level stack =>
    cases level with
    | array items =>
      cases h
      rw [strings_attach]
      rfl
    | object members key => cases h

theorem strings_closeObject (h : closeObject stack = some config) :
    config.strings = stackStrings stack := by
  cases stack with
  | nil => cases h
  | cons level stack =>
    cases level with
    | array items => cases h
    | object members key =>
      cases h
      rw [strings_attach]
      rfl

theorem strings_stepAfter {c : Char} (h : stepAfter stack c = some config) :
    config.strings = stackStrings stack := by
  unfold stepAfter at h
  split_ifs at h
  · cases h
    simp [Config.strings]
  · cases stack with
    | nil => cases h
    | cons level stack =>
      cases level with
      | array items =>
        cases h
        simp [Config.strings]
      | object members key =>
        cases h
        simp [Config.strings]
  · exact strings_closeArray h
  · exact strings_closeObject h

theorem strings_closeString {before : CStr} (h : closeString isKey before stack = some config) :
    config.strings = stackStrings stack ++ if isKey then [] else [before] := by
  unfold closeString at h
  cases isKey with
  | true =>
    cases stack with
    | nil => cases h
    | cons level stack =>
      cases level with
      | array items => cases h
      | object members key =>
        cases h
        simp [Config.strings, stackStrings, Level.strings]
  | false =>
    cases h
    exact strings_attach _ _

theorem strings_stepBehind {c : Char} (h : stepBehind config c = some config') :
    config'.strings = config.strings := by
  obtain ⟨mode, stack⟩ := config
  have hafter (hmode : ∀ tree, mode ≠ .done tree) (h : stepAfter stack c = some config') :
      config'.strings = (Config.mk mode stack).strings := by
    rw [strings_stepAfter h]
    cases mode with
    | done tree => exact absurd rfl (hmode tree)
    | _ => simp [Config.strings]
  cases mode with
  | done tree =>
    simp only [stepBehind] at h
    split_ifs at h
    cases h
    rfl
  | _ => exact hafter (by simp) h

-- A character adds to the strings that were read, or it changes nothing about them.
theorem strings_step {c : Char} (h : step config c = some config') :
    config.strings <+: config'.strings := by
  obtain ⟨mode, stack⟩ := config
  have hopen (hmode : ∀ tree, mode ≠ .done tree) :
      (Config.mk mode stack).strings = stackStrings stack := by
    cases mode with
    | done tree => exact absurd rfl (hmode tree)
    | _ => simp [Config.strings]
  cases mode with
  | value =>
    rw [hopen (by simp), strings_stepValue h]
  | firstValue =>
    simp only [step] at h
    split_ifs at h
    · cases h
      exact List.prefix_refl _
    · rw [hopen (by simp), strings_closeArray h]
    · rw [hopen (by simp), strings_stepValue h]
  | key =>
    rw [hopen (by simp), strings_stepKey h]
  | firstKey =>
    simp only [step] at h
    split_ifs at h
    · cases h
      exact List.prefix_refl _
    · rw [hopen (by simp), strings_closeObject h]
    · rw [hopen (by simp), strings_stepKey h]
  | colon =>
    simp only [step] at h
    split_ifs at h
    · cases h
      exact List.prefix_refl _
    · cases h
      simp [Config.strings]
  | after =>
    rw [hopen (by simp), strings_stepAfter h]
  | string isKey before =>
    simp only [step] at h
    split_ifs at h
    · rw [hopen (by simp), strings_closeString h]
      exact List.prefix_append _ _
    all_goals
      cases h
      simp [Config.strings]
  | escape isKey before =>
    simp only [step] at h
    split_ifs at h
    · cases h
      simp [Config.strings]
    · obtain ⟨char, -, rfl⟩ := Option.map_eq_some_iff.mp h
      simp [Config.strings]
  | unicode isKey before digits =>
    simp only [step] at h
    split_ifs at h
    · cases h
      simp [Config.strings]
    · obtain ⟨n, -, rfl⟩ := Option.map_eq_some_iff.mp h
      simp [Config.strings]
  | scalar before =>
    simp only [step] at h
    split_ifs at h
    · cases h
      simp [Config.strings]
    · obtain ⟨tree, -, hbehind⟩ := Option.bind_eq_some_iff.mp h
      rw [hopen (by simp), strings_stepBehind hbehind, strings_attach]
      exact List.prefix_append _ _
  | done tree =>
    have h : stepBehind ⟨.done tree, stack⟩ c = some config' := h
    rw [strings_stepBehind h]

theorem strings_read {text : CStr} (h : read config text = some config') :
    config.strings <+: config'.strings := by
  induction text generalizing config with
  | nil =>
    cases h
    exact List.prefix_refl _
  | cons c text ih =>
    rw [read_cons] at h
    obtain ⟨next, hstep, hrest⟩ := Option.bind_eq_some_iff.mp h
    exact (strings_step hstep).trans (ih hrest)

end Strings

section Closing

variable {config : Config} {stack : List Level} {isKey : Bool}

-- The digits of a `\u` escape, as far as they are still to come.
theorem exists_digits {text before digits : CStr} {final : Config} (hlen : digits.length < 4)
    (h : read ⟨.unicode isKey before digits, stack⟩ text = some final)
    (hfinish : finish final ≠ none) :
    ∃ more rest n, text = more ++ rest ∧ (digits ++ more).length = 4 ∧
      hexValues (digits ++ more) = some n ∧
      read ⟨.string isKey (before ++ unitBytes n), stack⟩ rest = some final := by
  induction text generalizing digits with
  | nil =>
    cases h
    exact absurd rfl hfinish
  | cons c text ih =>
    rw [read_cons] at h
    obtain ⟨next, hstep, hrest⟩ := Option.bind_eq_some_iff.mp h
    simp only [step] at hstep
    by_cases hhex : (hexValue c).isNone = true
    · rw [if_pos hhex] at hstep
      cases hstep
    rw [if_neg hhex] at hstep
    by_cases hfew : digits.length < 3
    · rw [if_pos hfew] at hstep
      cases hstep
      have hlen' : (digits ++ [c]).length < 4 := by
        rw [List.length_append, List.length_singleton]
        omega
      obtain ⟨more, rest, n, rfl, hfour, hvalue, hread⟩ := ih hlen' hrest
      rw [List.append_assoc] at hfour hvalue
      exact ⟨c :: more, rest, n, rfl, hfour, hvalue, hread⟩
    · rw [if_neg hfew] at hstep
      obtain ⟨n, hvalue, rfl⟩ := Option.map_eq_some_iff.mp hstep
      refine ⟨[c], text, n, rfl, ?_, hvalue, hrest⟩
      rw [List.length_append, List.length_singleton]
      omega

-- Where a string is read to the end of a document, it is closed in it.
theorem exists_body {text before : CStr} {final : Config}
    (h : read ⟨.string isKey before, stack⟩ text = some final) (hfinish : finish final ≠ none) :
    ∃ body s rest, text = body ++ '"' :: rest ∧ Body body s ∧
      (closeString isKey (before ++ s) stack).bind (fun next => read next rest) = some final := by
  induction hlen : text.length using Nat.strong_induction_on generalizing text before with
  | _ n' ih =>
    cases text with
    | nil =>
      cases h
      exact absurd rfl hfinish
    | cons c text =>
      rw [read_cons] at h
      by_cases hquote : c = '"'
      · subst hquote
        simp only [step, if_true] at h
        exact ⟨[], [], text, rfl, .nil, by rwa [List.append_nil]⟩
      by_cases hslash : c = '\\'
      · subst hslash
        simp only [step, if_neg hquote, if_true, Option.bind_some] at h
        cases text with
        | nil =>
          cases h
          exact absurd rfl hfinish
        | cons c text =>
          rw [read_cons] at h
          by_cases hu : c = 'u'
          · subst hu
            simp only [step, if_true, Option.bind_some] at h
            obtain ⟨more, tail, n, rfl, hfour, hvalue, hread⟩ :=
              exists_digits (by decide) h hfinish
            rw [List.nil_append] at hfour hvalue
            have hless : tail.length < n' := by
              rw [← hlen]
              simp only [List.length_cons, List.length_append]
              omega
            obtain ⟨body, s, rest, rfl, hbody, hclose⟩ := ih _ hless hread rfl
            rcases more with _ | ⟨h₁, _ | ⟨h₂, _ | ⟨h₃, _ | ⟨h₄, _ | ⟨h₅, more⟩⟩⟩⟩⟩
            all_goals simp only [List.length_cons, List.length_nil] at hfour
            all_goals try omega
            rw [List.append_assoc] at hclose
            exact ⟨_, _, rest, rfl, .unicode hvalue hbody, hclose⟩
          · obtain ⟨next, hstep, hrest⟩ := Option.bind_eq_some_iff.mp h
            simp only [step, if_neg hu] at hstep
            obtain ⟨char, hshort, rfl⟩ := Option.map_eq_some_iff.mp hstep
            have hless : text.length < n' := by
              rw [← hlen]
              simp only [List.length_cons]
              omega
            obtain ⟨body, s, rest, rfl, hbody, hclose⟩ := ih _ hless hrest rfl
            rw [List.append_assoc] at hclose
            exact ⟨_, _, rest, rfl, .short hu hshort hbody, hclose⟩
      · by_cases hcontrol : c.toNat < 0x20
        · simp only [step, if_neg hquote, if_neg hslash, if_pos hcontrol] at h
          cases h
        · simp only [step, if_neg hquote, if_neg hslash, if_neg hcontrol,
            Option.bind_some] at h
          obtain ⟨body, s, rest, rfl, hbody, hclose⟩ :=
            ih text.length (by rw [← hlen]; exact Nat.lt_succ_self _) h rfl
          refine ⟨c :: body, c :: s, rest, rfl,
            .plain hquote hslash (Nat.le_of_not_lt hcontrol) hbody, ?_⟩
          rwa [List.append_assoc] at hclose

end Closing

section Verbatim

-- A string as it is meant to be printed: with spaces in place of control characters.
def cleanChar (c : Char) : Char :=
  if c.toNat < 0x20 then ' ' else c

def clean (text : CStr) : CStr :=
  text.map cleanChar

-- Needs no escapes.
def Verbatim (text : CStr) : Prop :=
  ∀ c ∈ text, c ≠ '"' ∧ c ≠ '\\' ∧ 0x20 ≤ c.toNat

instance (text : CStr) : Decidable (Verbatim text) :=
  List.decidableBAll _ text

theorem cleanChar_of_le {c : Char} (h : 0x20 ≤ c.toNat) : cleanChar c = c :=
  if_neg (Nat.not_lt.mpr h)

theorem cleanChar_eq_quote {c : Char} (h : cleanChar c = '"') : c = '"' := by
  unfold cleanChar at h
  by_cases hc : c.toNat < 0x20
  · rw [if_pos hc] at h
    exact absurd h (by decide)
  · rwa [if_neg hc] at h

theorem Verbatim.clean {text : CStr} (h : Verbatim text) : clean text = text :=
  List.map_congr_left (fun c hc => cleanChar_of_le (h c hc).2.2) |>.trans (List.map_id text)

theorem Verbatim.body {text : CStr} (h : Verbatim text) : Body text text := by
  induction text with
  | nil => exact .nil
  | cons c text ih =>
    obtain ⟨hquote, hslash, hc⟩ := h c List.mem_cons_self
    exact .plain hquote hslash hc (ih fun d hd => h d (List.mem_cons_of_mem _ hd))

variable {body s text rest rest' : CStr}

-- The quote behind a text is not one of its other characters.
theorem exists_cons {c : Char} {t : CStr} (hc : c ≠ '"') (h : c :: t = text ++ '"' :: rest) :
    ∃ text', text = c :: text' ∧ t = text' ++ '"' :: rest := by
  cases text with
  | nil =>
    cases h
    exact absurd rfl hc
  | cons d text =>
    cases h
    exact ⟨text, rfl, rfl⟩

theorem exists_digits_cons {h₁ h₂ h₃ h₄ : Char} {n : Nat} {t : CStr}
    (hvalue : hexValues [h₁, h₂, h₃, h₄] = some n)
    (h : '\\' :: 'u' :: h₁ :: h₂ :: h₃ :: h₄ :: t = text ++ '"' :: rest) :
    ∃ text', text = ['\\', 'u', h₁, h₂, h₃, h₄] ++ text' ∧ t = text' ++ '"' :: rest ∧
      '"' ∉ ['\\', 'u', h₁, h₂, h₃, h₄] := by
  have hhex : '"' ∉ [h₁, h₂, h₃, h₄] := by
    intro hmem
    exact absurd (hexValue_of_foldlM hvalue _ hmem) (by decide)
  simp only [List.mem_cons, List.not_mem_nil, or_false, not_or] at hhex
  obtain ⟨text, rfl, hu⟩ := exists_cons (by decide) h
  obtain ⟨text, rfl, h₁'⟩ := exists_cons (by decide) hu
  obtain ⟨text, rfl, h₂'⟩ := exists_cons (Ne.symm hhex.1) h₁'
  obtain ⟨text, rfl, h₃'⟩ := exists_cons (Ne.symm hhex.2.1) h₂'
  obtain ⟨text, rfl, h₄'⟩ := exists_cons (Ne.symm hhex.2.2.1) h₃'
  obtain ⟨text, rfl, ht⟩ := exists_cons (Ne.symm hhex.2.2.2) h₄'
  exact ⟨text, rfl, ht, by simpa using hhex⟩

theorem length_unitBytes_le (n : Nat) : (unitBytes n).length ≤ 3 := by
  unfold unitBytes
  split_ifs <;> simp

-- What is said of a text so far comes of an earlier part of it.
theorem ne_quote_of_lag {front said tail : CStr} {c : Char} (hlag : said.length < front.length)
    (hfront : '"' ∉ front) (hsaid : clean (front ++ text) = said ++ c :: tail) : c ≠ '"' := by
  rintro rfl
  have hget := congrArg (·[said.length]?) hsaid
  simp only [clean, List.map_append, List.getElem?_append_right (Nat.le_refl _), Nat.sub_self,
    List.getElem?_cons_zero] at hget
  rw [List.getElem?_append_left (by simpa using hlag), List.getElem?_map,
    Option.map_eq_some_iff] at hget
  obtain ⟨c, hc, hquote⟩ := hget
  exact hfront (cleanChar_eq_quote hquote ▸ List.mem_of_getElem? hc)

-- Behind an escape more of the text has been read than of what it says. It never
-- catches up, and the quote that ends the text cannot be said.
theorem clean_ne_of_lag (h : Body body s) {front said : CStr}
    (htext : body ++ '"' :: rest' = text ++ '"' :: rest) (hlag : said.length < front.length)
    (hfront : '"' ∉ front) : clean (front ++ text) ≠ said ++ s := by
  induction h generalizing front said text with
  | nil =>
    intro hsaid
    have hlen := congrArg List.length hsaid
    simp only [clean, List.length_map, List.length_append, List.length_nil] at hlen
    omega
  | @plain c body s hquote hslash hc _ ih =>
    obtain ⟨text, rfl, hrest⟩ := exists_cons (t := body ++ '"' :: rest') hquote htext
    have hnext : clean (front ++ [c] ++ text) ≠ said ++ [c] ++ s :=
      ih hrest (by simpa using hlag) (by simp [hfront, Ne.symm hquote])
    simpa only [List.append_assoc, List.cons_append, List.nil_append] using hnext
  | @short c char body s hu hshort _ ih =>
    obtain ⟨text, rfl, hc⟩ := exists_cons (t := c :: body ++ '"' :: rest') (by decide) htext
    intro hsaid
    have hchar := ne_quote_of_lag hlag hfront hsaid
    have hquote : c ≠ '"' := by
      rintro rfl
      exact hchar (Option.some.inj hshort).symm
    obtain ⟨text, rfl, hrest⟩ := exists_cons (t := body ++ '"' :: rest') hquote hc
    have hnext : clean (front ++ ['\\', c] ++ text) ≠ said ++ [char] ++ s := by
      refine ih hrest ?_ (by simp [hfront, Ne.symm hquote])
      simp only [List.length_append, List.length_cons, List.length_nil]
      omega
    apply hnext
    simpa only [List.append_assoc, List.cons_append, List.nil_append] using hsaid
  | @unicode h₁ h₂ h₃ h₄ n body s hvalue _ ih =>
    obtain ⟨text, rfl, hrest, hdigits⟩ :=
      exists_digits_cons (t := body ++ '"' :: rest') hvalue htext
    have hnext : clean (front ++ ['\\', 'u', h₁, h₂, h₃, h₄] ++ text) ≠
        said ++ unitBytes n ++ s := by
      refine ih hrest ?_ (by simp only [List.mem_append, hfront, hdigits, or_self,
        not_false_eq_true])
      have hfew := length_unitBytes_le n
      simp only [List.length_append, List.length_cons, List.length_nil]
      omega
    simpa only [List.append_assoc] using hnext

-- What is printed as it is and read as it is meant needs no escapes.
theorem plain_of_body (h : Body body s) (hs : s = clean text)
    (htext : body ++ '"' :: rest' = text ++ '"' :: rest) : Verbatim text := by
  induction h generalizing text with
  | nil =>
    cases text with
    | nil => exact fun _ hc => absurd hc List.not_mem_nil
    | cons c text => cases hs
  | @plain c body s hquote hslash hc _ ih =>
    obtain ⟨text, rfl, hrest⟩ := exists_cons (t := body ++ '"' :: rest') hquote htext
    have htail : Verbatim text := ih (List.cons.inj hs).2 hrest
    exact List.forall_mem_cons.mpr ⟨⟨hquote, hslash, hc⟩, htail⟩
  | @short c char body s hu hshort hbody _ =>
    obtain ⟨text, rfl, hc⟩ := exists_cons (t := c :: body ++ '"' :: rest') (by decide) htext
    obtain rfl : char = '\\' := (List.cons.inj hs).1
    have hquote : c ≠ '"' := by
      rintro rfl
      exact absurd hshort (by decide)
    obtain ⟨text, rfl, hrest⟩ := exists_cons (t := body ++ '"' :: rest') hquote hc
    have hne : clean (['\\', c] ++ text) ≠ ['\\'] ++ s :=
      clean_ne_of_lag hbody hrest (Nat.lt_succ_self _) (by simp [Ne.symm hquote])
    exact absurd hs.symm hne
  | @unicode h₁ h₂ h₃ h₄ n body s hvalue hbody _ =>
    obtain ⟨text, rfl, hrest, hdigits⟩ :=
      exists_digits_cons (t := body ++ '"' :: rest') hvalue htext
    have hfew := length_unitBytes_le n
    have hlag : (unitBytes n).length < ['\\', 'u', h₁, h₂, h₃, h₄].length := by
      simp only [List.length_cons, List.length_nil]
      omega
    exact absurd hs.symm (clean_ne_of_lag hbody hrest hlag hdigits)

end Verbatim

section Pieces

-- A document as it is printed: names and numbers, strings with what they are meant to say,
-- and objects.
inductive Piece where
  | word (text : CStr) (tree : Tree)
  | string (text s : CStr)
  | object (members : List (CStr × Piece))

mutual

def Piece.text : Piece → CStr
  | .word text _ => text
  | .string text _ => '"' :: (text ++ ['"'])
  | .object members => '\x7b' :: membersText [] members

-- `sep` stands in front of the first one.
def membersText (sep : CStr) : List (CStr × Piece) → CStr
  | [] => ['\x7d']
  | (key, piece) :: rest =>
    sep ++ '"' :: (key ++ '"' :: ':' :: (piece.text ++ membersText [','] rest))

end

mutual

def Piece.tree : Piece → Tree
  | .word _ tree => tree
  | .string _ s => .string s
  | .object members => .object (membersTree members)

def membersTree : List (CStr × Piece) → List (CStr × Tree)
  | [] => []
  | (key, piece) :: rest => (key, piece.tree) :: membersTree rest

end

-- The strings as they are printed, with what they are meant to say.
mutual

def Piece.prints : Piece → List (CStr × CStr)
  | .word _ _ => []
  | .string text s => [(text, s)]
  | .object members => membersPrints members

def membersPrints : List (CStr × Piece) → List (CStr × CStr)
  | [] => []
  | (_, piece) :: rest => piece.prints ++ membersPrints rest

end

-- All but the strings is right.
mutual

def Piece.Sound : Piece → Prop
  | .word text tree => text ≠ [] ∧ (∀ c ∈ text, isScalar c = true) ∧ scalarTree text = some tree
  | .string _ _ => True
  | .object members => MembersSound members

def MembersSound : List (CStr × Piece) → Prop
  | [] => True
  | (key, piece) :: rest => Verbatim key ∧ piece.Sound ∧ MembersSound rest

end

variable {config : Config} {stack : List Level} {next : CStr}

theorem step_attach (tree : Tree) (stack : List Level) (c : Char) :
    step (attach tree stack) c = stepBehind (attach tree stack) c := by
  cases stack with
  | nil => rfl
  | cons level stack => cases level <;> rfl

theorem read_word {text : CStr} {tree : Tree} {c : Char} (hne : text ≠ [])
    (hscalar : ∀ c ∈ text, isScalar c = true) (htree : scalarTree text = some tree)
    (hc : isScalar c = false) :
    read ⟨.value, stack⟩ (text ++ c :: next) = read (attach tree stack) (c :: next) := by
  rw [read_append, read_value_scalar hne hscalar, Option.bind_some, read_cons, read_cons,
    step_attach]
  simp only [step, hc, Bool.false_eq_true, if_false, htree, Option.bind_some]

-- Where the name of a member may come, and what is in front of it.
def Opens (mode : Mode) (sep : CStr) : Prop :=
  mode = .firstKey ∧ sep = [] ∨ mode = .after ∧ sep = [',']

theorem read_key {mode : Mode} {sep key : CStr} {done : List (CStr × Tree)} {last : CStr}
    (h : Opens mode sep) (hkey : Verbatim key) :
    read ⟨mode, .object done last :: stack⟩ (sep ++ '"' :: (key ++ '"' :: ':' :: next)) =
      read ⟨.value, .object done key :: stack⟩ next := by
  have hopen : read ⟨mode, .object done last :: stack⟩ (sep ++ ['"']) =
      some ⟨.string true [], .object done last :: stack⟩ := by
    rcases h with ⟨rfl, rfl⟩ | ⟨rfl, rfl⟩
    · rfl
    · rfl
  have hclose : read ⟨.string true key, .object done last :: stack⟩ ['"', ':'] =
      some ⟨.value, .object done key :: stack⟩ := rfl
  have htext : sep ++ '"' :: (key ++ '"' :: ':' :: next) =
      (sep ++ ['"']) ++ (key ++ (['"', ':'] ++ next)) := by
    simp only [List.append_assoc, List.cons_append, List.nil_append]
  rw [htext, read_append, hopen, Option.bind_some, read_append, read_body hkey.body,
    Option.bind_some, List.nil_append, read_append, hclose, Option.bind_some]

theorem read_end {mode : Mode} {sep : CStr} {done : List (CStr × Tree)} {last : CStr}
    (h : Opens mode sep) :
    read ⟨mode, .object done last :: stack⟩ ('\x7d' :: next) =
      read (attach (.object done) stack) next := by
  rcases h with ⟨rfl, rfl⟩ | ⟨rfl, rfl⟩
  · rfl
  · rfl

theorem exists_membersText (members : List (CStr × Piece)) (next : CStr) :
    ∃ c tail, membersText [','] members ++ next = c :: tail ∧ isScalar c = false := by
  cases members with
  | nil => exact ⟨_, _, rfl, by decide⟩
  | cons m members => exact ⟨_, _, rfl, by decide⟩

-- Where every string is right, the whole is read as it is meant.
mutual

theorem read_piece : ∀ (piece : Piece) (stack : List Level) (next : CStr), piece.Sound →
    (∀ q ∈ piece.prints, Body q.1 q.2) → (∃ c tail, next = c :: tail ∧ isScalar c = false) →
    read ⟨.value, stack⟩ (piece.text ++ next) = read (attach piece.tree stack) next
  | .word text tree, stack, next, hsound, _, hnext => by
      obtain ⟨c, tail, rfl, hc⟩ := hnext
      exact read_word hsound.1 hsound.2.1 hsound.2.2 hc
  | .string text s, stack, next, _, hbody, _ => by
      have hbody : Body text s := hbody (text, s) List.mem_cons_self
      have hread : read ⟨.value, stack⟩ ('"' :: (text ++ ['"'])) =
          some (attach (.string s) stack) := read_literal ⟨text, rfl, hbody⟩
      rw [Piece.text, read_append, hread, Option.bind_some, Piece.tree]
  | .object members, stack, next, hsound, hbody, _ => by
      exact read_members members .firstKey [] stack next [] [] (.inl ⟨rfl, rfl⟩) hsound hbody

theorem read_members : ∀ (members : List (CStr × Piece)) (mode : Mode) (sep : CStr)
    (stack : List Level) (next : CStr) (done : List (CStr × Tree)) (last : CStr),
    Opens mode sep → MembersSound members → (∀ q ∈ membersPrints members, Body q.1 q.2) →
    read ⟨mode, .object done last :: stack⟩ (membersText sep members ++ next) =
      read (attach (.object (done ++ membersTree members)) stack) next
  | [], mode, sep, stack, next, done, last, hopens, _, _ => by
      rw [membersTree, List.append_nil]
      exact read_end hopens
  | (key, piece) :: rest, mode, sep, stack, next, done, last, hopens, hsound, hbody => by
      obtain ⟨hkey, hpiece, hrest⟩ := hsound
      have hfirst := fun q hq => hbody q (List.mem_append_left _ hq)
      have hothers := fun q hq => hbody q (List.mem_append_right _ hq)
      have htail := read_members rest .after [','] stack next (done ++ [(key, piece.tree)]) key
        (.inr ⟨rfl, rfl⟩) hrest hothers
      simp only [membersText, List.append_assoc, List.cons_append]
      rw [read_key hopens hkey,
        read_piece piece _ _ hpiece hfirst (exists_membersText rest next), membersTree,
        List.append_cons]
      exact htail

end

-- Whatever string begins with the text, it does not say `s` unless the text itself does.
def Honest (text s : CStr) : Prop :=
  ∀ body rest rest', Body body s → body ++ '"' :: rest' = text ++ '"' :: rest → Body text s

theorem honest_of_body {text s : CStr} (h : Body text s) : Honest text s :=
  fun _ _ _ _ _ => h

theorem honest_clean (text : CStr) : Honest text (clean text) := by
  intro body rest rest' hbody htext
  have hplain := plain_of_body hbody rfl htext
  rw [hplain.clean]
  exact hplain.body

theorem body_clean_iff {text : CStr} : Body text (clean text) ↔ Verbatim text := by
  constructor
  · intro h
    have htext : text ++ ['"'] = text ++ ['"'] := rfl
    exact plain_of_body h rfl htext
  · intro h
    rw [h.clean]
    exact h.body

-- Where the whole is read as it is meant, every string is right.
mutual

theorem bodies_of_read : ∀ (piece : Piece) (stack : List Level) (next : CStr) (final : Config),
    piece.Sound → (∀ q ∈ piece.prints, Honest q.1 q.2) →
    read ⟨.value, stack⟩ (piece.text ++ next) = some final → finish final ≠ none →
    stackStrings stack ++ piece.tree.strings <+: final.strings → ∀ q ∈ piece.prints, Body q.1 q.2
  | .word text tree, stack, next, final, _, _, _, _, _ => fun _ hq => absurd hq List.not_mem_nil
  | .string text s, stack, next, final, _, hhonest, hread, hfinish, hstrings => by
      have hopen : read ⟨.value, stack⟩ ['"'] = some ⟨.string false [], stack⟩ := rfl
      rw [Piece.text, List.cons_append, ← List.singleton_append, read_append, hopen,
        Option.bind_some, List.append_assoc, List.singleton_append] at hread
      obtain ⟨body, v, rest, htext, hbody, hclose⟩ := exists_body hread hfinish
      -- the string that was read is the one that was meant: it has the same place
      have hsame : stackStrings stack ++ [v] = stackStrings stack ++ [s] := by
        have hv := strings_read hclose
        rw [List.nil_append, strings_attach] at hv
        have hlen : (stackStrings stack ++ [v]).length = (stackStrings stack ++ [s]).length := by
          simp only [List.length_append, List.length_singleton]
        exact List.prefix_of_prefix_length_le hv hstrings hlen.le |>.eq_of_length hlen
      obtain rfl : v = s := by simpa using hsame
      have hright := hhonest (text, v) List.mem_cons_self body _ _ hbody htext.symm
      exact List.forall_mem_singleton.mpr hright
  | .object members, stack, next, final, hsound, hhonest, hread, hfinish, hstrings => by
      refine bodies_of_members members .firstKey [] stack next [] [] final (.inl ⟨rfl, rfl⟩)
        hsound hhonest hread hfinish ?_
      rw [memberStrings, List.append_nil]
      exact hstrings

theorem bodies_of_members : ∀ (members : List (CStr × Piece)) (mode : Mode) (sep : CStr)
    (stack : List Level) (next : CStr) (done : List (CStr × Tree)) (last : CStr) (final : Config),
    Opens mode sep → MembersSound members → (∀ q ∈ membersPrints members, Honest q.1 q.2) →
    read ⟨mode, .object done last :: stack⟩ (membersText sep members ++ next) = some final →
    finish final ≠ none →
    stackStrings stack ++ memberStrings done ++ memberStrings (membersTree members) <+:
      final.strings →
    ∀ q ∈ membersPrints members, Body q.1 q.2
  | [], mode, sep, stack, next, done, last, final, _, _, _, _, _, _ =>
    fun _ hq => absurd hq List.not_mem_nil
  | (key, piece) :: rest, mode, sep, stack, next, done, last, final, hopens, hsound, hhonest,
      hread, hfinish, hstrings => by
      obtain ⟨hkey, hpiece, hrest⟩ := hsound
      have hfirst := fun q hq => hhonest q (List.mem_append_left _ hq)
      have hothers := fun q hq => hhonest q (List.mem_append_right _ hq)
      simp only [membersText, List.append_assoc, List.cons_append] at hread
      rw [read_key hopens hkey] at hread
      rw [membersTree, memberStrings, ← List.append_assoc] at hstrings
      have hbodies := bodies_of_read piece (.object done key :: stack) _ final hpiece hfirst hread
        hfinish ((List.prefix_append _ _).trans hstrings)
      rw [read_piece piece _ _ hpiece hbodies (exists_membersText rest next)] at hread
      have hmore := bodies_of_members rest .after [','] stack next (done ++ [(key, piece.tree)])
        key final (.inr ⟨rfl, rfl⟩) hrest hothers hread hfinish (by
          rw [memberStrings_append, memberStrings, memberStrings, List.append_nil,
            ← List.append_assoc]
          exact hstrings)
      intro q hq
      rcases List.mem_append.mp hq with hq | hq
      · exact hbodies q hq
      · exact hmore q hq

end

-- Only an object without anything open ends a document that says one.
theorem finish_eq_object {config : Config} {members : List (CStr × Tree)}
    (h : finish config = some (.object members)) : config = ⟨.done (.object members), []⟩ := by
  obtain ⟨mode, stack⟩ := config
  cases stack with
  | cons level stack =>
    rw [finish_of_open (by simp)] at h
    cases h
  | nil =>
    cases mode with
    | done tree =>
      cases h
      rfl
    | scalar text =>
      simp only [finish, scalarTree] at h
      split_ifs at h
      all_goals cases h
    | _ => cases h

-- A printed object is read as it is meant exactly where every string is right.
theorem parse_object_iff {members : List (CStr × Piece)} (hsound : (Piece.object members).Sound)
    (hhonest : ∀ q ∈ (Piece.object members).prints, Honest q.1 q.2) :
    parse (Piece.object members).text = some (Piece.object members).tree ↔
      ∀ q ∈ (Piece.object members).prints, Body q.1 q.2 := by
  constructor
  · intro h
    obtain ⟨final, hread, hfinish⟩ := Option.bind_eq_some_iff.mp h
    obtain rfl := finish_eq_object hfinish
    rw [← List.append_nil (Piece.object members).text] at hread
    refine bodies_of_read _ [] [] _ hsound hhonest hread (by simp [finish]) ?_
    exact List.prefix_refl _
  · intro h
    have hread := read_members members .firstKey [] [] [] [] [] (.inl ⟨rfl, rfl⟩) hsound h
    rw [List.append_nil] at hread
    have hopen : read ⟨.value, []⟩ (Piece.object members).text =
        read ⟨.firstKey, [.object [] []]⟩ (membersText [] members) := rfl
    rw [parse, hopen, hread]
    rfl

end Pieces

end Espos.JsonText
