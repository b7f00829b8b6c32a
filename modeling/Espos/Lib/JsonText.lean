import Mathlib.Data.List.TakeWhile
import Espos.Lib.Text

-- String literals of JSON, and what they say. Of the `\u` escapes only those of
-- an ASCII character are read: the others stand for more than one byte.

namespace Espos

open Espos.Text

def hexValue (c : Char) : Option Nat :=
  if c.isDigit then some (c.toNat - 48)
  else if 'a' ≤ c ∧ c ≤ 'f' then some (c.toNat - 87)
  else if 'A' ≤ c ∧ c ≤ 'F' then some (c.toNat - 55)
  else none

def hexValues (digits : CStr) : Option Nat :=
  digits.foldlM (fun n c => (hexValue c).map (16 * n + ·)) 0

def asciiChar (n : Nat) : Option Char :=
  if n < 128 then some (Char.ofNat n) else none

-- The character a backslash and `c` stand for.
def shorthand (c : Char) : Option Char :=
  if c = '"' ∨ c = '\\' ∨ c = '/' then some c
  else if c = 'b' then some '\x08'
  else if c = 'f' then some '\x0c'
  else if c = 'n' then some '\n'
  else if c = 'r' then some '\r'
  else if c = 't' then some '\t'
  else none

-- What is between the quotes, and nothing behind them.
def literalBody : CStr → Option CStr
  | [] => none
  | c :: rest =>
    if c = '"' then if rest = [] then some [] else none
    else if c = '\\' then
      match rest with
      | [] => none
      | e :: rest =>
        if e = 'u' then
          match rest with
          | h₁ :: h₂ :: h₃ :: h₄ :: rest =>
            ((hexValues [h₁, h₂, h₃, h₄]).bind asciiChar).bind fun char =>
              (literalBody rest).map (char :: ·)
          | _ => none
        else (shorthand e).bind fun char => (literalBody rest).map (char :: ·)
    else if c.toNat < 0x20 then none
    else (literalBody rest).map (c :: ·)

def literalValue : CStr → Option CStr
  | [] => none
  | c :: rest => if c = '"' then literalBody rest else none

theorem literalBody_plain {c : Char} (hquote : c ≠ '"') (hslash : c ≠ '\\') (hc : 0x20 ≤ c.toNat)
    (rest : CStr) : literalBody (c :: rest) = (literalBody rest).map (c :: ·) := by
  rw [literalBody.eq_def]
  simp only [if_neg hquote, if_neg hslash, if_neg (by omega : ¬ c.toNat < 0x20)]

theorem literalBody_short {e char : Char} (hu : e ≠ 'u') (hshort : shorthand e = some char)
    (rest : CStr) :
    literalBody ('\\' :: e :: rest) = (literalBody rest).map (char :: ·) := by
  rw [literalBody.eq_def]
  simp only [if_neg (by decide : '\\' ≠ '"'), if_true, if_neg hu, hshort, Option.bind_some]

theorem literalBody_unicode {h₁ h₂ h₃ h₄ char : Char}
    (hchar : (hexValues [h₁, h₂, h₃, h₄]).bind asciiChar = some char) (rest : CStr) :
    literalBody ('\\' :: 'u' :: h₁ :: h₂ :: h₃ :: h₄ :: rest) =
      (literalBody rest).map (char :: ·) := by
  rw [literalBody.eq_def]
  simp only [if_neg (by decide : '\\' ≠ '"'), if_true, hchar, Option.bind_some]

-- Objects and arrays of texts that are written already.
def jsonObject (members : List CStr) : CStr :=
  ['\x7b'] ++ listed true members ++ ['\x7d']

def jsonArray (items : List CStr) : CStr :=
  ['['] ++ listed true items ++ [']']

end Espos

-- The texts that are JSON, read one character at a time with a stack of the
-- arrays and objects still open.

namespace Espos.JsonText

open Espos.Text

-- A number keeps its text.
inductive Tree where
  | null
  | bool (b : Bool)
  | number (text : CStr)
  | string (s : CStr)
  | array (items : List Tree)
  | object (members : List (CStr × Tree))

-- An array or an object that is not closed yet; `key` is the name of the member
-- that is being read.
inductive Level where
  | array (items : List Tree)
  | object (members : List (CStr × Tree)) (key : CStr)

inductive Mode where
  | value
  | firstValue
  | key
  | firstKey
  | colon
  | after
  | string (isKey : Bool) (read : CStr)
  | escape (isKey : Bool) (read : CStr)
  | unicode (isKey : Bool) (read digits : CStr)
  | scalar (read : CStr)
  | done (tree : Tree)

structure Config where
  mode : Mode
  stack : List Level

def isBlank (c : Char) : Bool :=
  c = ' ' || c = '\t' || c = '\n' || c = '\r'

-- The characters of numbers and of the three names.
def isScalar (c : Char) : Bool :=
  c.isAlphanum || c = '-' || c = '+' || c = '.'

def isExponent : CStr → Bool
  | [] => true
  | e :: rest =>
    let digits := if rest.head? = some '-' ∨ rest.head? = some '+' then rest.drop 1 else rest
    (e = 'e' || e = 'E') && digits ≠ [] && digits.all Char.isDigit

def isFraction : CStr → Bool
  | '.' :: rest => rest.takeWhile Char.isDigit ≠ [] && isExponent (rest.dropWhile Char.isDigit)
  | rest => isExponent rest

def isUnsigned (text : CStr) : Bool :=
  text.takeWhile Char.isDigit ≠ [] &&
    ((text.takeWhile Char.isDigit).length = 1 ||
      (text.takeWhile Char.isDigit).head? ≠ some '0') &&
    isFraction (text.dropWhile Char.isDigit)

def isNumber (text : CStr) : Bool :=
  isUnsigned (if text.head? = some '-' then text.drop 1 else text)

def scalarTree (text : CStr) : Option Tree :=
  if text = lit "null" then some .null
  else if text = lit "true" then some (.bool true)
  else if text = lit "false" then some (.bool false)
  else if isNumber text then some (.number text)
  else none

-- The bytes of the character a `\u` escape stands for; the halves of a surrogate
-- pair are taken one at a time.
def unitBytes (n : Nat) : CStr :=
  (if n < 0x80 then [n]
    else if n < 0x800 then [0xC0 + n / 64, 0x80 + n % 64]
    else [0xE0 + n / 4096, 0x80 + n / 64 % 64, 0x80 + n % 64]).map Char.ofNat

-- A value is complete.
def attach (tree : Tree) : List Level → Config
  | [] => ⟨.done tree, []⟩
  | .array items :: stack => ⟨.after, .array (items ++ [tree]) :: stack⟩
  | .object members key :: stack => ⟨.after, .object (members ++ [(key, tree)]) key :: stack⟩

def closeString (isKey : Bool) (read : CStr) (stack : List Level) : Option Config :=
  if isKey then
    match stack with
    | .object members _ :: stack => some ⟨.colon, .object members read :: stack⟩
    | _ => none
  else some (attach (.string read) stack)

def closeArray : List Level → Option Config
  | .array items :: stack => some (attach (.array items) stack)
  | _ => none

def closeObject : List Level → Option Config
  | .object members _ :: stack => some (attach (.object members) stack)
  | _ => none

def stepValue (stack : List Level) (c : Char) : Option Config :=
  if isBlank c then some ⟨.value, stack⟩
  else if c = '"' then some ⟨.string false [], stack⟩
  else if c = '[' then some ⟨.firstValue, .array [] :: stack⟩
  else if c = '\x7b' then some ⟨.firstKey, .object [] [] :: stack⟩
  else if isScalar c then some ⟨.scalar [c], stack⟩
  else none

def stepKey (stack : List Level) (c : Char) : Option Config :=
  if isBlank c then some ⟨.key, stack⟩
  else if c = '"' then some ⟨.string true [], stack⟩
  else none

def stepAfter (stack : List Level) (c : Char) : Option Config :=
  if isBlank c then some ⟨.after, stack⟩
  else if c = ',' then
    match stack with
    | .array _ :: _ => some ⟨.value, stack⟩
    | .object _ _ :: _ => some ⟨.key, stack⟩
    | [] => none
  else if c = ']' then closeArray stack
  else if c = '\x7d' then closeObject stack
  else none

-- Behind a value, which may have been the whole document.
def stepBehind (config : Config) (c : Char) : Option Config :=
  match config.mode with
  | .done tree => if isBlank c then some ⟨.done tree, config.stack⟩ else none
  | _ => stepAfter config.stack c

def step (config : Config) (c : Char) : Option Config :=
  match config.mode with
  | .value => stepValue config.stack c
  | .firstValue =>
    if isBlank c then some config
    else if c = ']' then closeArray config.stack
    else stepValue config.stack c
  | .key => stepKey config.stack c
  | .firstKey =>
    if isBlank c then some config
    else if c = '\x7d' then closeObject config.stack
    else stepKey config.stack c
  | .colon =>
    if isBlank c then some config
    else if c = ':' then some ⟨.value, config.stack⟩
    else none
  | .after => stepAfter config.stack c
  | .string isKey read =>
    if c = '"' then closeString isKey read config.stack
    else if c = '\\' then some ⟨.escape isKey read, config.stack⟩
    else if c.toNat < 0x20 then none
    else some ⟨.string isKey (read ++ [c]), config.stack⟩
  | .escape isKey read =>
    if c = 'u' then some ⟨.unicode isKey read [], config.stack⟩
    else (shorthand c).map fun char => ⟨.string isKey (read ++ [char]), config.stack⟩
  | .unicode isKey read digits =>
    if (hexValue c).isNone then none
    else if digits.length < 3 then some ⟨.unicode isKey read (digits ++ [c]), config.stack⟩
    else (hexValues (digits ++ [c])).map fun n =>
      ⟨.string isKey (read ++ unitBytes n), config.stack⟩
  | .scalar read =>
    if isScalar c then some ⟨.scalar (read ++ [c]), config.stack⟩
    else (scalarTree read).bind fun tree => stepBehind (attach tree config.stack) c
  | .done _ => stepBehind config c

def read (config : Config) (text : CStr) : Option Config :=
  text.foldlM step config

-- What a document that ends here says.
def finish (config : Config) : Option Tree :=
  match config with
  | ⟨.done tree, []⟩ => some tree
  | ⟨.scalar read, []⟩ => scalarTree read
  | _ => none

def parse (text : CStr) : Option Tree :=
  (read ⟨.value, []⟩ text).bind finish

section Reading

variable {config config' : Config} {stack : List Level} {isKey : Bool}

@[simp] theorem read_nil (config : Config) : read config [] = some config := rfl

@[simp] theorem read_cons (config : Config) (c : Char) (text : CStr) :
    read config (c :: text) = (step config c).bind fun next => read next text := rfl

theorem read_append (config : Config) (text rest : CStr) :
    read config (text ++ rest) = (read config text).bind fun next => read next rest := by
  simp only [read, List.foldlM_append]
  rfl

theorem finish_of_open (h : config.stack ≠ []) : finish config = none := by
  obtain ⟨mode, stack⟩ := config
  cases stack with
  | nil => exact absurd rfl h
  | cons level stack => cases mode <;> rfl

theorem stack_attach (tree : Tree) (stack : List Level) :
    (attach tree stack).stack.length = stack.length := by
  cases stack with
  | nil => rfl
  | cons level stack => cases level <;> rfl

-- What may stand between the quotes of a string, and what it says.
inductive Body : CStr → CStr → Prop where
  | nil : Body [] []
  | plain {c : Char} {text s : CStr} (hquote : c ≠ '"') (hslash : c ≠ '\\') (hc : 0x20 ≤ c.toNat) :
      Body text s → Body (c :: text) (c :: s)
  | short {c char : Char} {text s : CStr} (hu : c ≠ 'u') (hshort : shorthand c = some char) :
      Body text s → Body ('\\' :: c :: text) (char :: s)
  | unicode {h₁ h₂ h₃ h₄ : Char} {n : Nat} {text s : CStr}
      (hvalue : hexValues [h₁, h₂, h₃, h₄] = some n) :
      Body text s → Body ('\\' :: 'u' :: h₁ :: h₂ :: h₃ :: h₄ :: text) (unitBytes n ++ s)

-- A string literal.
def Literal (text s : CStr) : Prop :=
  ∃ body, text = ['"'] ++ body ++ ['"'] ∧ Body body s

theorem hexValue_of_foldlM {digits : CStr} {m n : Nat}
    (h : digits.foldlM (fun n c => (hexValue c).map (16 * n + ·)) m = some n) :
    ∀ c ∈ digits, (hexValue c).isNone = false := by
  induction digits generalizing m with
  | nil => exact nofun
  | cons d digits ih =>
    rw [List.foldlM_cons] at h
    intro c hc
    cases hd : hexValue d with
    | none =>
      rw [hd] at h
      cases h
    | some v =>
      rw [hd] at h
      rcases List.mem_cons.mp hc with rfl | hc
      · rw [hd]
        rfl
      · exact ih h c hc

theorem read_unicode {h₁ h₂ h₃ h₄ : Char} {n : Nat} (hvalue : hexValues [h₁, h₂, h₃, h₄] = some n)
    (before : CStr) :
    read ⟨.string isKey before, stack⟩ ['\\', 'u', h₁, h₂, h₃, h₄] =
      some ⟨.string isKey (before ++ unitBytes n), stack⟩ := by
  have hhex := hexValue_of_foldlM hvalue
  have h₁' := hhex h₁ (by simp)
  have h₂' := hhex h₂ (by simp)
  have h₃' := hhex h₃ (by simp)
  have h₄' := hhex h₄ (by simp)
  simp [step, h₁', h₂', h₃', h₄', hvalue]

theorem step_plain {c : Char} (hquote : c ≠ '"') (hslash : c ≠ '\\') (hc : 0x20 ≤ c.toNat)
    (before : CStr) :
    step ⟨.string isKey before, stack⟩ c = some ⟨.string isKey (before ++ [c]), stack⟩ := by
  simp only [step, if_neg hquote, if_neg hslash, if_neg (by omega : ¬c.toNat < 0x20)]

theorem read_short {c char : Char} (hu : c ≠ 'u') (hshort : shorthand c = some char)
    (before : CStr) :
    read ⟨.string isKey before, stack⟩ ['\\', c] =
      some ⟨.string isKey (before ++ [char]), stack⟩ := by
  simp [step, hu, hshort]

theorem read_body {body s : CStr} (h : Body body s) (before : CStr) :
    read ⟨.string isKey before, stack⟩ body = some ⟨.string isKey (before ++ s), stack⟩ := by
  induction h generalizing before with
  | nil => rw [read_nil, List.append_nil]
  | plain hquote hslash hc _ ih =>
    rw [read_cons, step_plain hquote hslash hc, Option.bind_some, ih, List.append_assoc]
    rfl
  | @short c char text s hu hshort _ ih =>
    rw [show '\\' :: c :: text = ['\\', c] ++ text from rfl, read_append,
      read_short hu hshort, Option.bind_some, ih, List.append_assoc]
    rfl
  | @unicode h₁ h₂ h₃ h₄ n text s hvalue _ ih =>
    rw [show '\\' :: 'u' :: h₁ :: h₂ :: h₃ :: h₄ :: text =
      ['\\', 'u', h₁, h₂, h₃, h₄] ++ text from rfl, read_append, read_unicode hvalue,
      Option.bind_some, ih, List.append_assoc]

-- Characters that close nothing but a string.
def isClosing (c : Char) : Bool :=
  c = ']' || c = '\x7d'

theorem depth_stepValue {c : Char} (h : stepValue stack c = some config) :
    stack.length ≤ config.stack.length := by
  unfold stepValue at h
  split_ifs at h
  all_goals
    cases h
    simp

theorem depth_stepKey {c : Char} (h : stepKey stack c = some config) :
    stack.length ≤ config.stack.length := by
  unfold stepKey at h
  split_ifs at h
  all_goals
    cases h
    simp

theorem depth_stepAfter {c : Char} (hc : isClosing c = false)
    (h : stepAfter stack c = some config) :
    stack.length ≤ config.stack.length := by
  simp only [isClosing, Bool.or_eq_false_iff, decide_eq_false_iff_not] at hc
  unfold stepAfter at h
  rw [if_neg hc.1, if_neg hc.2] at h
  split_ifs at h
  · cases h
    exact le_refl _
  · cases stack with
    | nil => cases h
    | cons level stack =>
      cases level with
      | array items =>
        cases h
        exact le_refl _
      | object members key =>
        cases h
        exact le_refl _

theorem depth_closeString {before : CStr} (h : closeString isKey before stack = some config) :
    stack.length ≤ config.stack.length := by
  unfold closeString at h
  split_ifs at h
  · cases stack with
    | nil => cases h
    | cons level stack =>
      cases level with
      | array items => cases h
      | object members key =>
        cases h
        simp
  · cases h
    rw [stack_attach]

theorem depth_stepBehind {c : Char} (hc : isClosing c = false)
    (h : stepBehind config c = some config') : config.stack.length ≤ config'.stack.length := by
  obtain ⟨mode, stack⟩ := config
  cases mode with
  | done tree =>
    simp only [stepBehind] at h
    split_ifs at h
    cases h
    exact le_refl _
  | _ => exact depth_stepAfter hc h

-- Only a closing bracket takes something off the stack.
theorem depth_step {c : Char} (hc : isClosing c = false) (h : step config c = some config') :
    config.stack.length ≤ config'.stack.length := by
  obtain ⟨mode, stack⟩ := config
  have hclosing := hc
  simp only [isClosing, Bool.or_eq_false_iff, decide_eq_false_iff_not] at hclosing
  cases mode with
  | value => exact depth_stepValue h
  | firstValue =>
    simp only [step, if_neg hclosing.1] at h
    split_ifs at h
    · cases h
      exact le_refl _
    · exact depth_stepValue h
  | key => exact depth_stepKey h
  | firstKey =>
    simp only [step, if_neg hclosing.2] at h
    split_ifs at h
    · cases h
      exact le_refl _
    · exact depth_stepKey h
  | colon =>
    simp only [step] at h
    split_ifs at h
    all_goals
      cases h
      exact le_refl _
  | after => exact depth_stepAfter hc h
  | string isKey before =>
    simp only [step] at h
    split_ifs at h
    · exact depth_closeString h
    all_goals
      cases h
      exact le_refl _
  | escape isKey before =>
    simp only [step] at h
    split_ifs at h
    · cases h
      exact le_refl _
    · obtain ⟨char, -, rfl⟩ := Option.map_eq_some_iff.mp h
      exact le_refl _
  | unicode isKey before digits =>
    simp only [step] at h
    split_ifs at h
    · cases h
      exact le_refl _
    · obtain ⟨n, -, rfl⟩ := Option.map_eq_some_iff.mp h
      exact le_refl _
  | scalar before =>
    simp only [step] at h
    split_ifs at h
    · cases h
      exact le_refl _
    · obtain ⟨tree, -, hbehind⟩ := Option.bind_eq_some_iff.mp h
      rw [← stack_attach tree stack]
      exact depth_stepBehind hc hbehind
  | done tree => exact depth_stepBehind hc h

theorem depth_read {text : CStr} (hc : ∀ c ∈ text, isClosing c = false)
    (h : read config text = some config') : config.stack.length ≤ config'.stack.length := by
  induction text generalizing config with
  | nil =>
    cases h
    exact le_refl _
  | cons c text ih =>
    rw [read_cons] at h
    obtain ⟨next, hstep, hrest⟩ := Option.bind_eq_some_iff.mp h
    have hfirst := depth_step (hc c List.mem_cons_self) hstep
    have hlater := ih (fun d hd => hc d (List.mem_cons_of_mem _ hd)) hrest
    omega

theorem read_within {body s part : CStr} (h : Body body s) (hpart : part <+: body) (before : CStr) :
    ∃ mode, read ⟨.string isKey before, stack⟩ part = some ⟨mode, stack⟩ := by
  induction h generalizing part before with
  | nil =>
    rw [List.prefix_nil.mp hpart]
    exact ⟨_, rfl⟩
  | plain hquote hslash hc _ ih =>
    cases part with
    | nil => exact ⟨_, rfl⟩
    | cons c rest =>
      obtain ⟨rfl, hrest⟩ := List.cons_prefix_cons.mp hpart
      rw [read_cons, step_plain hquote hslash hc, Option.bind_some]
      exact ih hrest _
  | short hu hshort _ ih =>
    rcases part with _ | ⟨c₁, _ | ⟨c₂, rest⟩⟩
    · exact ⟨_, rfl⟩
    all_goals simp only [List.cons_prefix_cons] at hpart
    · obtain ⟨rfl, -⟩ := hpart
      exact ⟨.escape isKey before, by simp [step]⟩
    · obtain ⟨rfl, rfl, hrest⟩ := hpart
      rw [show '\\' :: c₂ :: rest = ['\\', c₂] ++ rest from rfl, read_append,
        read_short hu hshort, Option.bind_some]
      exact ih hrest _
  | unicode hvalue _ ih =>
    have hhex := hexValue_of_foldlM hvalue
    simp only [List.forall_mem_cons] at hhex
    obtain ⟨h₁', h₂', h₃', -⟩ := hhex
    rcases part with _ | ⟨c₁, _ | ⟨c₂, _ | ⟨c₃, _ | ⟨c₄, _ | ⟨c₅, _ | ⟨c₆, rest⟩⟩⟩⟩⟩⟩
    · exact ⟨_, rfl⟩
    all_goals simp only [List.cons_prefix_cons] at hpart
    · obtain ⟨rfl, -⟩ := hpart
      exact ⟨.escape isKey before, by simp [step]⟩
    · obtain ⟨rfl, rfl, -⟩ := hpart
      exact ⟨.unicode isKey before [], by simp [step]⟩
    · obtain ⟨rfl, rfl, rfl, -⟩ := hpart
      exact ⟨.unicode isKey before [c₃], by simp [step, h₁']⟩
    · obtain ⟨rfl, rfl, rfl, rfl, -⟩ := hpart
      exact ⟨.unicode isKey before [c₃, c₄], by simp [step, h₁', h₂']⟩
    · obtain ⟨rfl, rfl, rfl, rfl, rfl, -⟩ := hpart
      exact ⟨.unicode isKey before [c₃, c₄, c₅], by simp [step, h₁', h₂', h₃']⟩
    · obtain ⟨rfl, rfl, rfl, rfl, rfl, rfl, hrest⟩ := hpart
      rw [show '\\' :: 'u' :: c₃ :: c₄ :: c₅ :: c₆ :: rest =
        ['\\', 'u', c₃, c₄, c₅, c₆] ++ rest from rfl, read_append, read_unicode hvalue,
        Option.bind_some]
      exact ih hrest _

theorem read_scalar {before text : CStr} (h : ∀ c ∈ text, isScalar c = true) :
    read ⟨.scalar before, stack⟩ text = some ⟨.scalar (before ++ text), stack⟩ := by
  induction text generalizing before with
  | nil => rw [read_nil, List.append_nil]
  | cons c text ih =>
    have hstep : step ⟨.scalar before, stack⟩ c = some ⟨.scalar (before ++ [c]), stack⟩ := by
      simp only [step, h c List.mem_cons_self, if_true]
    rw [read_cons, hstep, Option.bind_some, ih fun d hd => h d (List.mem_cons_of_mem _ hd),
      List.append_assoc]
    rfl

theorem not_blank_of_isScalar {c : Char} (h : isScalar c = true) : isBlank c = false := by
  rw [isBlank]
  by_contra hblank
  simp only [Bool.or_eq_false_iff, decide_eq_false_iff_not, not_and_or, not_not] at hblank
  rcases hblank with ((rfl | rfl) | rfl) | rfl
  all_goals exact absurd h (by decide)

theorem read_value_scalar {text : CStr} (hne : text ≠ []) (h : ∀ c ∈ text, isScalar c = true) :
    read ⟨.value, stack⟩ text = some ⟨.scalar text, stack⟩ := by
  cases text with
  | nil => exact absurd rfl hne
  | cons c text =>
    have hc := h c List.mem_cons_self
    have hquote : c ≠ '"' := by
      rintro rfl
      exact absurd hc (by decide)
    have harray : c ≠ '[' := by
      rintro rfl
      exact absurd hc (by decide)
    have hobject : c ≠ '\x7b' := by
      rintro rfl
      exact absurd hc (by decide)
    have hstep : step ⟨.value, stack⟩ c = some ⟨.scalar [c], stack⟩ := by
      simp [step, stepValue, not_blank_of_isScalar hc, hquote, harray, hobject, hc]
    rw [read_cons, hstep, Option.bind_some,
      read_scalar fun d hd => h d (List.mem_cons_of_mem _ hd)]
    rfl

theorem read_literal {text s : CStr} (h : Literal text s) :
    read ⟨.value, stack⟩ text = some (attach (.string s) stack) := by
  obtain ⟨body, rfl, hbody⟩ := h
  have hopen : read ⟨.value, stack⟩ ['"'] = some ⟨.string false [], stack⟩ := rfl
  have hclose : read ⟨.string false s, stack⟩ ['"'] = some (attach (.string s) stack) := rfl
  rw [read_append, read_append, hopen, Option.bind_some, read_body hbody, Option.bind_some,
    List.nil_append, hclose]

-- A value that is complete is followed by a comma or a closing bracket.
theorem step_attach_letter {tree : Tree} {c : Char} (hblank : isBlank c = false) (hcomma : c ≠ ',')
    (hclosing : isClosing c = false) : step (attach tree stack) c = none := by
  simp only [isClosing, Bool.or_eq_false_iff, decide_eq_false_iff_not] at hclosing
  have hafter : ∀ stack, stepAfter stack c = none := by
    intro stack
    simp [stepAfter, hblank, hcomma, hclosing]
  cases stack with
  | nil => simp [attach, step, stepBehind, hblank]
  | cons level stack =>
    cases level with
    | array items => exact hafter _
    | object members key => exact hafter _

theorem step_scalar_quote {before : CStr} : step ⟨.scalar before, stack⟩ '"' = none := by
  have hquote : isScalar '"' = false := by decide
  have hnone : ∀ tree, stepBehind (attach tree stack) '"' = none := by
    intro tree
    cases stack with
    | nil => rfl
    | cons level stack => cases level <;> rfl
  simp only [step, hquote, Bool.false_eq_true, if_false, hnone]
  cases scalarTree before <;> rfl

end Reading

section Numbers

theorem isDigit_of_mem_decimal {n : Nat} : ∀ c ∈ decimal n, c.isDigit = true :=
  fun _ hc => Nat.isDigit_of_mem_toDigits (by decide) (by decide) hc

theorem head?_decimal {n : Nat} (h : 0 < n) : (decimal n).head? ≠ some '0' := by
  induction n using Nat.strongRecOn with
  | ind n ih =>
    by_cases hsmall : n < 10
    · have hdigit : n.digitChar ≠ '0' := by
        rcases n with _ | _ | _ | _ | _ | _ | _ | _ | _ | _ | n
        · omega
        all_goals first | decide | omega
      rw [decimal, Nat.toDigits_of_lt_base hsmall, List.head?_cons]
      exact fun heq => hdigit (Option.some.inj heq)
    · have hrest := ih (n / 10) (by omega) (by omega)
      rw [decimal, Nat.toDigits_of_base_le (by decide) (by omega),
        List.head?_append_of_ne_nil _ Nat.toDigits_ne_nil]
      exact hrest

theorem takeWhile_decimal (n : Nat) : (decimal n).takeWhile Char.isDigit = decimal n ∧
    (decimal n).dropWhile Char.isDigit = [] := by
  refine ⟨List.takeWhile_eq_self_iff.mpr (@isDigit_of_mem_decimal n), ?_⟩
  exact List.dropWhile_eq_nil_iff.mpr (@isDigit_of_mem_decimal n)

theorem head?_decimal_ne (n : Nat) {c : Char} (hc : c.isDigit = false) :
    (decimal n).head? ≠ some c := by
  intro hhead
  have hmem : c ∈ decimal n := List.mem_of_mem_head? hhead
  rw [isDigit_of_mem_decimal c hmem] at hc
  cases hc

theorem isUnsigned_decimal (n : Nat) : isUnsigned (decimal n) = true := by
  have hne : decimal n ≠ [] := Nat.toDigits_ne_nil
  rw [isUnsigned, (takeWhile_decimal n).1, (takeWhile_decimal n).2]
  rcases Nat.eq_zero_or_pos n with rfl | hpos
  · decide
  · simp [hne, head?_decimal hpos, isFraction, isExponent]

theorem isNumber_decimalInt (i : Int) : isNumber (decimalInt i) = true := by
  cases i with
  | ofNat n =>
    rw [decimalInt, isNumber, if_neg (head?_decimal_ne n (by decide))]
    exact isUnsigned_decimal n
  | negSucc n =>
    rw [decimalInt, isNumber, List.head?_cons, if_pos rfl]
    exact isUnsigned_decimal (n + 1)

theorem scalarTree_decimalInt (i : Int) :
    scalarTree (decimalInt i) = some (.number (decimalInt i)) := by
  have hname : ∀ name : CStr, isNumber name = false → decimalInt i ≠ name := by
    rintro name hname rfl
    rw [isNumber_decimalInt] at hname
    cases hname
  rw [scalarTree, if_neg (hname _ (by decide)), if_neg (hname _ (by decide)),
    if_neg (hname _ (by decide)), if_pos (isNumber_decimalInt i)]

theorem isScalar_of_mem_decimalInt {i : Int} : ∀ c ∈ decimalInt i, isScalar c = true := by
  have hnat : ∀ n, ∀ c ∈ decimal n, isScalar c = true := by
    intro n c hc
    simp [isScalar, Char.isAlphanum, isDigit_of_mem_decimal c hc]
  cases i with
  | ofNat n => exact hnat n
  | negSucc n =>
    intro c hc
    rcases List.mem_cons.mp hc with rfl | hc
    · decide
    · exact hnat (n + 1) c hc

end Numbers

end Espos.JsonText
