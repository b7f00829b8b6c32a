import Espos.Lib.JsonText
import Espos.Sk.Delta.Wording

-- `espos_sk_put_response_frame`: the frame a PUT of the server is answered with,
-- and when it is one JSON object with the message in it.

namespace Espos.Sk.Inbound

open Espos.Text Espos.JsonText
open Espos.Sk.Delta (Plain needsEscape)

-- A buffer that is printed into with `w += snprintf(buf + w, size - w, ...)`. What
-- does not fit is cut off; once `w` is behind the end, so is what is written.
structure Printing where
  text : CStr
  w : Nat
  beyond : Bool
deriving DecidableEq

namespace Printing

def empty : Printing :=
  ⟨[], 0, false⟩

def print (size : Nat) (p : Printing) (piece : CStr) : Printing where
  text := if p.w < size then p.text ++ piece.take (size - p.w - 1) else p.text
  w := p.w + piece.length
  beyond := p.beyond || size < p.w

-- The buffer has what fits of the text printed so far.
structure Holds (size : Nat) (text : CStr) (p : Printing) : Prop where
  w : p.w = text.length
  text : p.text = text.take (size - 1)

variable {size : Nat} {text : CStr} {p : Printing}

theorem holds_empty (size : Nat) : Holds size [] empty :=
  ⟨rfl, List.take_nil.symm⟩

theorem Holds.print (h : Holds size text p) (piece : CStr) :
    Holds size (text ++ piece) (p.print size piece) := by
  refine ⟨?_, ?_⟩
  · rw [Printing.print]
    dsimp only
    rw [h.w, List.length_append]
  · rw [Printing.print]
    dsimp only
    by_cases hroom : p.w < size
    · have hlen : text.length ≤ size - 1 := by
        rw [← h.w]
        omega
      rw [if_pos hroom, h.text, h.w, List.take_append, List.take_of_length_le hlen,
        Nat.sub_right_comm]
    · have hlen : size ≤ text.length := by
        rw [← h.w]
        omega
      rw [if_neg hroom, h.text, List.take_append_of_le_length (by omega)]

end Printing

-- The part of the frame in front of the message.
def headText (requestId state : CStr) (statusCode : Int32) : CStr :=
  lit "\x7b\"requestId\":\"" ++ requestId ++ lit "\",\"state\":\"" ++ state ++
    lit "\",\"statusCode\":" ++ decimalInt statusCode.toInt

-- The member the message becomes. `printed` is what cJSON makes of it; none
-- where there is no memory.
def tailText (printed : Option CStr) (message : CStr) : CStr :=
  if message = [] then [] else (printed.map (lit ",\"message\":" ++ ·)).getD []

-- `malloc` is whether the buffer could be had. A missing message is an empty one.
def putResponseFrame (malloc : Bool) (printed : Option CStr) (requestId state : Option CStr)
    (statusCode : Int32) (message : CStr) : Option Printing :=
  match requestId, state with
  | some requestId, some state =>
    if requestId = [] ∨ malloc = false then none
    else
      let n := requestId.length + state.length + message.length + 128
      let p := Printing.empty.print n (headText requestId state statusCode)
      some ((p.print n (tailText printed message)).print n ['\x7d'])
  | _, _ => none

section Reading

variable {c : Config} {stack : List Level} {members : List (CStr × Tree)} {key acc : CStr}

-- A closing quote, and the text up to the code behind it.
def codeText (statusCode : Int32) : CStr :=
  lit "\",\"statusCode\":" ++ decimalInt statusCode.toInt

-- The reading is in the value of a member.
def inMember (acc : CStr) (members : List (CStr × Tree)) (key : CStr) (stack : List Level) :
    Config :=
  ⟨.string false acc, .object members key :: stack⟩

theorem read_decimal (statusCode : Int32) (stack : List Level) :
    read ⟨.value, stack⟩ (decimalInt statusCode.toInt) =
      some ⟨.scalar (decimalInt statusCode.toInt), stack⟩ := by
  refine read_value_scalar ?_ isScalar_of_mem_decimalInt
  intro hnil
  have hnumber := isNumber_decimalInt statusCode.toInt
  rw [hnil] at hnumber
  cases hnumber

-- Where no string ends that is a value, the text does not go on like this.
theorem read_quote_none {mode : Mode} (h : ∀ acc, mode ≠ .string false acc) :
    read ⟨mode, stack⟩ ['"', ',', '"', 's'] = none := by
  have hletter : ∀ tree, step (attach tree stack) 's' = none := fun _ =>
    step_attach_letter (by decide) (by decide) (by decide)
  cases mode with
  | value =>
    change (step (attach (.string [',']) stack) 's').bind _ = none
    rw [hletter]
    rfl
  | firstValue =>
    change (step (attach (.string [',']) stack) 's').bind _ = none
    rw [hletter]
    rfl
  | key =>
    cases stack with
    | nil => rfl
    | cons level stack => cases level <;> rfl
  | firstKey =>
    cases stack with
    | nil => rfl
    | cons level stack => cases level <;> rfl
  | colon => rfl
  | after => rfl
  | string isKey acc =>
    cases isKey with
    | false => exact absurd rfl (h acc)
    | true =>
      cases stack with
      | nil => rfl
      | cons level stack => cases level <;> rfl
  | escape isKey acc =>
    cases isKey with
    | false =>
      change (step (attach (.string (acc ++ ['"'] ++ [','])) stack) 's').bind _ = none
      rw [hletter]
      rfl
    | true =>
      cases stack with
      | nil => rfl
      | cons level stack => cases level <;> rfl
  | unicode => rfl
  | scalar acc =>
    rw [read_cons, step_scalar_quote]
    rfl
  | done => rfl

-- The code can be read only where a string that is a member's value ends.
theorem read_codeText (acc : CStr) (members : List (CStr × Tree)) (key : CStr)
    (stack : List Level) (statusCode : Int32) :
    read (inMember acc members key stack) (codeText statusCode) =
      some ⟨.scalar (decimalInt statusCode.toInt),
        .object (members ++ [(key, .string acc)]) (lit "statusCode") :: stack⟩ := by
  have hopen : read (inMember acc members key stack) (lit "\",\"statusCode\":") =
    some ⟨.value, .object (members ++ [(key, .string acc)]) (lit "statusCode") :: stack⟩ := rfl
  rw [codeText, read_append, hopen, Option.bind_some, read_decimal]

theorem read_codeText_none (statusCode : Int32)
    (h : ∀ acc members key stack, c ≠ inMember acc members key stack) :
    read c (codeText statusCode) = none := by
  obtain ⟨mode, stack⟩ := c
  rw [codeText, read_append]
  by_cases hstring : ∃ acc, mode = .string false acc
  · obtain ⟨acc, rfl⟩ := hstring
    cases stack with
    | nil => rfl
    | cons level stack =>
      cases level with
      | array items => rfl
      | object members key => exact absurd rfl (h acc members key stack)
  · have hnone := @read_quote_none stack mode fun acc hacc => hstring ⟨acc, hacc⟩
    rw [show lit "\",\"statusCode\":" =
      ['"', ',', '"', 's'] ++ lit "tatusCode\":" from rfl, read_append, hnone]
    rfl

theorem finish_attach_object (members : List (CStr × Tree)) (stack : List Level) (tree : Tree) :
    finish (attach (.object members) stack) = some tree ↔ stack = [] ∧ tree = .object members := by
  cases stack with
  | nil =>
    simp only [attach, finish, Option.some.injEq, true_and]
    exact eq_comm
  | cons level stack =>
    have hopen : finish (attach (.object members) (level :: stack)) = none := by
      apply finish_of_open
      cases level <;> simp [attach]
    simp [hopen]

theorem step_code (statusCode : Int32) (c : Char) (hc : isScalar c = false)
    (members : List (CStr × Tree)) (key : CStr) (stack : List Level) :
    step ⟨.scalar (decimalInt statusCode.toInt), .object members key :: stack⟩ c =
      stepAfter (.object (members ++ [(key, .number (decimalInt statusCode.toInt))]) key :: stack)
        c := by
  simp only [step, hc, Bool.false_eq_true, if_false, scalarTree_decimalInt, Option.bind_some]
  rfl

theorem read_brace (statusCode : Int32) (members : List (CStr × Tree)) (key : CStr)
    (stack : List Level) :
    read ⟨.scalar (decimalInt statusCode.toInt), .object members key :: stack⟩ ['\x7d'] =
      some (attach (.object (members ++ [(key, .number (decimalInt statusCode.toInt))]))
        stack) := by
  rw [read_cons, step_code _ _ (by decide)]
  rfl

theorem read_name (statusCode : Int32) (members : List (CStr × Tree)) (key : CStr)
    (stack : List Level) :
    read ⟨.scalar (decimalInt statusCode.toInt), .object members key :: stack⟩
        (lit ",\"message\":") =
      some ⟨.value, .object (members ++ [(key, .number (decimalInt statusCode.toInt))])
        (lit "message") :: stack⟩ := by
  rw [show lit ",\"message\":" = ',' :: lit "\"message\":" from rfl, read_cons,
    step_code _ _ (by decide)]
  rfl

end Reading

-- The frame up to the end of the state, and what the state makes of an object
-- that ends with it.
def frontText (requestId state : CStr) : CStr :=
  lit "\x7b\"requestId\":\"" ++ requestId ++ lit "\",\"state\":\"" ++ state

def spliced (requestId state : CStr) : CStr :=
  frontText requestId state ++ lit "\"\x7d"

-- The members the frame gets behind the state.
def tailMembers (printed : Option CStr) (message : CStr) : List (CStr × Tree) :=
  if message ≠ [] ∧ printed.isSome then [(lit "message", .string message)] else []

section Frames

variable {requestId state message : CStr} {statusCode : Int32} {printed : Option CStr}
  {members : List (CStr × Tree)}

theorem headText_eq (requestId state : CStr) (statusCode : Int32) :
    headText requestId state statusCode = frontText requestId state ++ codeText statusCode := by
  simp only [headText, frontText, codeText, List.append_assoc]

-- Only where the value of a member ends can an object end behind a quote.
theorem read_end_none {mode : Mode} {stack : List Level} (h : ∀ acc, mode ≠ .string false acc)
    (tree : Tree) : (read ⟨mode, stack⟩ ['"', '\x7d']).bind finish ≠ some tree := by
  have hnone : ∀ {o : Option Tree}, o = none → o ≠ some tree := by
    rintro o rfl
    exact nofun
  have hopen : ∀ isKey read, finish ⟨.string isKey read, stack⟩ = none := by
    intro isKey read
    cases stack <;> rfl
  apply hnone
  cases mode with
  | value => exact hopen false ['\x7d']
  | firstValue => exact hopen false ['\x7d']
  | key => exact hopen true ['\x7d']
  | firstKey => exact hopen true ['\x7d']
  | colon => rfl
  | after => rfl
  | string isKey acc =>
    cases isKey with
    | false => exact absurd rfl (h acc)
    | true =>
      cases stack with
      | nil => rfl
      | cons level stack => cases level <;> rfl
  | escape isKey acc => exact hopen isKey (acc ++ ['"'] ++ ['\x7d'])
  | unicode => rfl
  | scalar acc =>
    rw [read_cons, step_scalar_quote]
    rfl
  | done => rfl

theorem read_end (c : Config) (members : List (CStr × Tree)) :
    (read c ['"', '\x7d']).bind finish = some (.object members) ↔ ∃ acc before key,
      c = inMember acc before key [] ∧ members = before ++ [(key, .string acc)] := by
  obtain ⟨mode, stack⟩ := c
  by_cases hstring : ∃ acc, mode = .string false acc
  · obtain ⟨acc, rfl⟩ := hstring
    cases stack with
    | nil => simp [inMember, step, closeString, attach, stepBehind, isBlank]
    | cons level stack =>
      cases level with
      | array items =>
        have hnone : read ⟨.string false acc, .array items :: stack⟩ ['"', '\x7d'] = none := rfl
        simp [hnone, inMember]
      | object before key =>
        have hread : read ⟨.string false acc, .object before key :: stack⟩ ['"', '\x7d'] =
          some (attach (.object (before ++ [(key, .string acc)])) stack) := rfl
        rw [hread, Option.bind_some, finish_attach_object]
        constructor
        · rintro ⟨rfl, hmembers⟩
          exact ⟨acc, before, key, rfl, by injection hmembers⟩
        · rintro ⟨acc', before', key', heq, rfl⟩
          cases heq
          exact ⟨rfl, rfl⟩
  · constructor
    · intro hread
      exact absurd hread (read_end_none (fun acc hacc => hstring ⟨acc, hacc⟩) _)
    · rintro ⟨acc, before, key, heq, -⟩
      cases heq
      exact absurd ⟨acc, rfl⟩ hstring

-- The state ends an object just where it ends the value of a member.
theorem parse_spliced (requestId state : CStr) (members : List (CStr × Tree)) :
    parse (spliced requestId state) = some (.object members) ↔ ∃ acc before key,
      read ⟨.value, []⟩ (frontText requestId state) = some (inMember acc before key []) ∧
        members = before ++ [(key, .string acc)] := by
  rw [parse, spliced, read_append]
  cases read ⟨.value, []⟩ (frontText requestId state) with
  | none => simp
  | some c =>
    rw [Option.bind_some]
    refine (read_end c members).trans ?_
    simp only [Option.some.injEq]

theorem read_tail (hprint : ∀ text, printed = some text → Literal text message)
    (before : List (CStr × Tree)) (key : CStr) (stack : List Level) :
    read ⟨.scalar (decimalInt statusCode.toInt), .object before key :: stack⟩
        (tailText printed message ++ ['\x7d']) =
      some (attach (.object (before ++ (key, .number (decimalInt statusCode.toInt)) ::
        tailMembers printed message)) stack) := by
  by_cases hempty : message = []
  · rw [tailText, if_pos hempty, tailMembers, if_neg (by simp [hempty])]
    exact read_brace statusCode before key stack
  · cases hprinted : printed with
    | none =>
      rw [tailText, if_neg hempty, tailMembers, if_neg (by simp)]
      exact read_brace statusCode before key stack
    | some text =>
      rw [tailText, if_neg hempty, tailMembers, if_pos ⟨hempty, rfl⟩, Option.map_some,
        Option.getD_some, read_append, read_append, read_name, Option.bind_some,
        read_literal (hprint text hprinted), Option.bind_some]
      have hclose : read (attach (.string message) (.object (before ++
          [(key, .number (decimalInt statusCode.toInt))]) (lit "message") :: stack)) ['\x7d'] =
        some (attach (.object (before ++ [(key, .number (decimalInt statusCode.toInt))] ++
          [(lit "message", .string message)])) stack) := rfl
      rw [hclose, List.append_assoc]
      rfl

theorem parse_frame (hprint : ∀ text, printed = some text → Literal text message)
    (members : List (CStr × Tree)) :
    parse (headText requestId state statusCode ++ tailText printed message ++ ['\x7d']) =
        some (.object members) ↔
      ∃ before, parse (spliced requestId state) = some (.object before) ∧
        members = before ++ (lit "statusCode", .number (decimalInt statusCode.toInt)) ::
          tailMembers printed message := by
  rw [parse, headText_eq, List.append_assoc, List.append_assoc, read_append]
  cases hfront : read ⟨.value, []⟩ (frontText requestId state) with
  | none => simp [parse_spliced, hfront]
  | some c =>
    rw [Option.bind_some, read_append]
    by_cases hmember : ∃ acc before key stack, c = inMember acc before key stack
    · obtain ⟨acc, before, key, stack, rfl⟩ := hmember
      rw [read_codeText, Option.bind_some, read_tail hprint, Option.bind_some,
        finish_attach_object]
      constructor
      · rintro ⟨rfl, hmembers⟩
        refine ⟨_, (parse_spliced _ _ _).mpr ⟨acc, before, key, hfront, rfl⟩, ?_⟩
        injection hmembers
      · rintro ⟨members', hspliced, rfl⟩
        obtain ⟨acc', before', key', hfront', rfl⟩ := (parse_spliced _ _ _).mp hspliced
        rw [hfront] at hfront'
        cases hfront'
        exact ⟨rfl, rfl⟩
    · rw [read_codeText_none]
      · constructor
        · intro h
          cases h
        · rintro ⟨members', hspliced, -⟩
          obtain ⟨acc, before, key, hfront', -⟩ := (parse_spliced _ _ _).mp hspliced
          rw [hfront] at hfront'
          exact absurd ⟨acc, before, key, [], Option.some.inj hfront'⟩ hmember
      · intro acc before key stack hc
        exact hmember ⟨acc, before, key, stack, hc⟩

theorem prefix_append_cases {p a b : CStr} (h : p <+: a ++ b) :
    p <+: a ∨ ∃ q, p = a ++ q ∧ q <+: b := by
  rcases Nat.le_total p.length a.length with hle | hle
  · exact .inl (List.prefix_of_prefix_length_le h (List.prefix_append a b) hle)
  · obtain ⟨q, rfl⟩ := List.prefix_of_prefix_length_le (List.prefix_append a b) h hle
    exact .inr ⟨q, rfl, (List.prefix_append_right_inj a).mp h⟩

-- The object is open until its brace.
theorem read_part {text part : CStr} (hliteral : Literal text message)
    (hpart : part <+: lit ",\"message\":" ++ text) (before : List (CStr × Tree)) (key : CStr)
    (stack : List Level) :
    (read ⟨.scalar (decimalInt statusCode.toInt), .object before key :: stack⟩ part).bind finish =
      none := by
  obtain ⟨body, rfl, hbody⟩ := hliteral
  have hopen : read ⟨.scalar (decimalInt statusCode.toInt), .object before key :: stack⟩
      (lit ",\"message\":\"") = some ⟨.string false [], .object (before ++
        [(key, .number (decimalInt statusCode.toInt))]) (lit "message") :: stack⟩ := by
    rw [show lit ",\"message\":\"" = lit ",\"message\":" ++ ['"'] from rfl, read_append, read_name]
    rfl
  have hsame : lit ",\"message\":" ++ (['"'] ++ body ++ ['"']) =
      lit ",\"message\":\"" ++ (body ++ ['"']) := rfl
  rw [hsame] at hpart
  rcases prefix_append_cases hpart with hname | ⟨q, rfl, hq⟩
  · have hclosing : ∀ c ∈ part, isClosing c = false := by
      intro c hc
      have hall : (lit ",\"message\":\"").all (isClosing · == false) = true := rfl
      exact beq_iff_eq.mp (List.all_eq_true.mp hall c (hname.subset hc))
    cases hread :
        read ⟨.scalar (decimalInt statusCode.toInt), .object before key :: stack⟩ part with
    | none => rfl
    | some c =>
      have hdepth := depth_read hclosing hread
      refine finish_of_open fun hnil => ?_
      rw [hnil] at hdepth
      simp at hdepth
  · rw [read_append, hopen, Option.bind_some]
    rcases prefix_append_cases hq with hwithin | ⟨q', rfl, hq'⟩
    · obtain ⟨mode, hread⟩ := @read_within (.object (before ++
        [(key, .number (decimalInt statusCode.toInt))]) (lit "message") :: stack) false body message
        q hbody hwithin []
      rw [hread]
      exact finish_of_open nofun
    · rw [read_append, read_body hbody, Option.bind_some]
      rcases List.prefix_cons_iff.mp hq' with rfl | ⟨rest, rfl, hrest⟩
      · rfl
      · obtain rfl := List.prefix_nil.mp hrest
        rfl

theorem parse_cut (hprint : ∀ text, printed = some text → Literal text message) {part : CStr}
    (hpart : part <+: tailText printed message) :
    parse (headText requestId state statusCode ++ part) = none := by
  rw [parse, headText_eq, List.append_assoc, read_append]
  cases read ⟨.value, []⟩ (frontText requestId state) with
  | none => rfl
  | some c =>
    rw [Option.bind_some, read_append]
    by_cases hmember : ∃ acc before key stack, c = inMember acc before key stack
    · obtain ⟨acc, before, key, stack, rfl⟩ := hmember
      rw [read_codeText, Option.bind_some]
      rw [tailText] at hpart
      by_cases hempty : message = []
      · rw [if_pos hempty] at hpart
        rw [List.prefix_nil.mp hpart]
        rfl
      · rw [if_neg hempty] at hpart
        cases hprinted : printed with
        | none =>
          rw [hprinted] at hpart
          rw [List.prefix_nil.mp hpart]
          rfl
        | some text =>
          rw [hprinted] at hpart
          exact read_part (hprint text hprinted) hpart _ _ _
    · rw [read_codeText_none]
      · rfl
      · intro acc before key stack hc
        exact hmember ⟨acc, before, key, stack, hc⟩

theorem length_decimalInt (statusCode : Int32) : (decimalInt statusCode.toInt).length ≤ 11 := by
  have hdigits : ∀ n, n ≤ 2147483648 → (decimal n).length ≤ 10 := by
    intro n hn
    exact Nat.toDigits_length 10 n 10 (by decide) (by omega)
  have hlow := statusCode.le_toInt
  have hhigh := statusCode.toInt_lt
  cases hcode : statusCode.toInt with
  | ofNat n =>
    rw [hcode, Int.ofNat_eq_natCast] at hhigh
    have hlen := hdigits n (by omega)
    rw [decimalInt]
    omega
  | negSucc n =>
    have hlen := hdigits (n + 1) (by omega)
    rw [decimalInt, List.length_cons]
    omega

theorem length_headText (requestId state : CStr) (statusCode : Int32) :
    (headText requestId state statusCode).length =
      requestId.length + state.length + (decimalInt statusCode.toInt).length + 40 := by
  have hopen : (lit "\x7b\"requestId\":\"").length = 14 := rfl
  have hstate : (lit "\",\"state\":\"").length = 11 := rfl
  have hcode : (lit "\",\"statusCode\":").length = 15 := rfl
  simp only [headText, List.length_append, hopen, hstate, hcode]
  omega

end Frames

-- The members an object has for the message.
def messages (members : List (CStr × Tree)) : List Tree :=
  (members.filter fun m => m.1 = lit "message").map Prod.snd

-- One JSON object, whose message is this one.
def Complete (frame message : CStr) : Prop :=
  ∃ members, parse frame = some (.object members) ∧ messages members = [.string message]

-- The escaped message has room in the buffer.
def Fits (printed : Option CStr) (statusCode : Int32) (message : CStr) : Prop :=
  (tailText printed message).length + (decimalInt statusCode.toInt).length < message.length + 87

-- The state, which is not escaped, leaves an object whose message is this one.
def Blends (printed : Option CStr) (requestId state message : CStr) : Prop :=
  ∃ members, parse (spliced requestId state) = some (.object members) ∧
    messages (members ++ tailMembers printed message) = [.string message]

theorem putResponseFrame_eq {requestId : CStr} (hid : requestId ≠ []) (printed : Option CStr)
    (state : CStr) (statusCode : Int32) (message : CStr) :
    ∃ frame, putResponseFrame true printed (some requestId) (some state) statusCode message =
        some frame ∧
      frame.text = (headText requestId state statusCode ++ tailText printed message ++
        ['\x7d']).take (requestId.length + state.length + message.length + 127) ∧
      (Fits printed statusCode message → frame.beyond = false) := by
  have hhead := length_headText requestId state statusCode
  refine ⟨_, by rw [putResponseFrame, if_neg (by simp [hid])], ?_, ?_⟩
  · have hholds := (((Printing.holds_empty (requestId.length + state.length + message.length +
      128)).print (headText requestId state statusCode)).print (tailText printed message)).print
      ['\x7d']
    rw [hholds.text]
    rfl
  · intro hfits
    rw [Fits] at hfits
    simp only [Printing.print, Printing.empty, Bool.false_or, Bool.or_eq_false_iff,
      decide_eq_false_iff_not]
    exact ⟨⟨decide_eq_false (by omega), by omega⟩, by omega⟩

theorem messages_code (before after : List (CStr × Tree)) (tree : Tree) :
    messages (before ++ (lit "statusCode", tree) :: after) = messages (before ++ after) := by
  have hname : lit "statusCode" ≠ lit "message" := by decide
  simp [messages, List.filter_append, hname]

-- A frame that fits is all there, and any other is cut off in its message.
theorem text_of_fits {requestId state message : CStr} {printed : Option CStr} {statusCode : Int32}
    (h : Fits printed statusCode message) :
    (headText requestId state statusCode ++ tailText printed message ++ ['\x7d']).take
        (requestId.length + state.length + message.length + 127) =
      headText requestId state statusCode ++ tailText printed message ++ ['\x7d'] := by
  have hhead := length_headText requestId state statusCode
  rw [Fits] at h
  apply List.take_of_length_le
  simp only [List.length_append, List.length_singleton]
  omega

theorem text_of_not_fits {requestId state message : CStr} {printed : Option CStr}
    {statusCode : Int32} (h : ¬Fits printed statusCode message) :
    ∃ part, part <+: tailText printed message ∧
      (headText requestId state statusCode ++ tailText printed message ++ ['\x7d']).take
          (requestId.length + state.length + message.length + 127) =
        headText requestId state statusCode ++ part := by
  have hhead := length_headText requestId state statusCode
  have hcode := length_decimalInt statusCode
  rw [Fits] at h
  refine ⟨(tailText printed message).take (requestId.length + state.length + message.length +
    127 - (headText requestId state statusCode).length), List.take_prefix _ _, ?_⟩
  rw [List.append_assoc, List.take_append, List.take_of_length_le (by omega),
    List.take_append_of_le_length (by omega)]

-- The frame is returned, nothing is written behind its buffer, and it is complete.
def Answers (malloc : Bool) (printed : Option CStr) (requestId state : CStr) (statusCode : Int32)
    (message : CStr) : Prop :=
  ∃ frame, putResponseFrame malloc printed (some requestId) (some state) statusCode message =
    some frame ∧ frame.beyond = false ∧ Complete frame.text message

section Conditions

variable {malloc : Bool} {printed : Option CStr} {requestId state message : CStr}
  {statusCode : Int32}

theorem Answers.needs (h : Answers malloc printed requestId state statusCode message)
    (hprint : ∀ text, printed = some text → Literal text message) :
    malloc = true ∧ requestId ≠ [] ∧ Fits printed statusCode message ∧
      Blends printed requestId state message := by
  obtain ⟨frame, hframe, -, members, hparse, hmessages⟩ := h
  have hgiven : ¬(requestId = [] ∨ malloc = false) := by
    intro h
    rw [putResponseFrame, if_pos h] at hframe
    cases hframe
  rw [not_or, Bool.not_eq_false] at hgiven
  obtain ⟨hid, rfl⟩ := hgiven
  obtain ⟨frame', hframe', htext, -⟩ := putResponseFrame_eq hid printed state statusCode message
  obtain rfl := Option.some.inj (hframe.symm.trans hframe')
  rw [htext] at hparse
  by_cases hfits : Fits printed statusCode message
  · rw [text_of_fits hfits, parse_frame hprint] at hparse
    obtain ⟨before, hspliced, rfl⟩ := hparse
    rw [messages_code] at hmessages
    exact ⟨rfl, hid, hfits, before, hspliced, hmessages⟩
  · obtain ⟨part, hpart, hcut⟩ := @text_of_not_fits requestId state _ _ _ hfits
    rw [hcut, parse_cut hprint hpart] at hparse
    cases hparse

theorem answers_of_fits (hprint : ∀ text, printed = some text → Literal text message)
    (hid : requestId ≠ []) (hfits : Fits printed statusCode message)
    (hblends : Blends printed requestId state message) :
    Answers true printed requestId state statusCode message := by
  obtain ⟨before, hspliced, hmessages⟩ := hblends
  obtain ⟨frame, hframe, htext, hbeyond⟩ :=
    putResponseFrame_eq hid printed state statusCode message
  have hparse := (@parse_frame requestId state message statusCode printed hprint _).mpr
    ⟨before, hspliced, rfl⟩
  rw [← text_of_fits hfits, ← htext] at hparse
  exact ⟨frame, hframe, hbeyond hfits, _, hparse, (messages_code _ _ _).trans hmessages⟩

theorem body_of_plain {s : CStr} (h : Plain s) : Body s s := by
  induction s with
  | nil => exact .nil
  | cons c s ih =>
    have hc := h c List.mem_cons_self
    simp only [needsEscape, Bool.or_eq_false_iff, decide_eq_false_iff_not,
      beq_eq_false_iff_ne] at hc
    exact .plain hc.1.2 hc.2 (Nat.le_of_not_lt hc.1.1)
      (ih fun d hd => h d (List.mem_cons_of_mem _ hd))

theorem read_frontText (hid : Plain requestId) (hstate : Plain state) :
    read ⟨.value, []⟩ (frontText requestId state) =
      some (inMember state [(lit "requestId", .string requestId)] (lit "state") []) := by
  have hopen : read ⟨.value, []⟩ (lit "\x7b\"requestId\":\"") =
    some ⟨.string false [], [.object [] (lit "requestId")]⟩ := rfl
  have hnext : read ⟨.string false requestId, [.object [] (lit "requestId")]⟩
      (lit "\",\"state\":\"") = some ⟨.string false [],
        [.object [(lit "requestId", .string requestId)] (lit "state")]⟩ := rfl
  rw [frontText, List.append_assoc, List.append_assoc, read_append, hopen, Option.bind_some,
    read_append, read_body (body_of_plain hid), Option.bind_some, read_append, List.nil_append,
    hnext, Option.bind_some, read_body (body_of_plain hstate)]
  rfl

-- A state without characters that need an escape does no harm.
theorem blends_iff_of_plain (hid : Plain requestId) (hstate : Plain state) :
    Blends printed requestId state message ↔ message ≠ [] ∧ printed.isSome := by
  have hspliced : parse (spliced requestId state) = some (.object
      [(lit "requestId", .string requestId), (lit "state", .string state)]) :=
    (parse_spliced _ _ _).mpr ⟨_, _, _, read_frontText hid hstate, rfl⟩
  have hnames : lit "requestId" ≠ lit "message" ∧ lit "state" ≠ lit "message" := by decide
  have hmessages : messages ([(lit "requestId", .string requestId), (lit "state", .string state)] ++
      tailMembers printed message) = messages (tailMembers printed message) := by
    simp [messages, hnames]
  constructor
  · rintro ⟨members, hparse, hone⟩
    rw [hspliced] at hparse
    cases hparse
    rw [hmessages, tailMembers] at hone
    by_cases hwritten : message ≠ [] ∧ printed.isSome
    · exact hwritten
    · rw [if_neg hwritten] at hone
      cases hone
  · intro hwritten
    refine ⟨_, hspliced, ?_⟩
    rw [hmessages, tailMembers, if_pos hwritten]
    simp [messages]

end Conditions

-- When the frame is complete.
theorem response_complete_iff (malloc : Bool) (printed : Option CStr) (requestId state : CStr)
    (statusCode : Int32) (message : CStr)
    (hprint : ∀ text, printed = some text → Literal text message) :
    Answers malloc printed requestId state statusCode message ↔
      malloc = true ∧ requestId ≠ [] ∧ Fits printed statusCode message ∧
        Blends printed requestId state message := by
  constructor
  · exact fun h => h.needs hprint
  · rintro ⟨rfl, hid, hfits, hblends⟩
    exact answers_of_fits hprint hid hfits hblends

theorem hexValues_control : ∀ n < 0x20,
    hexValues ['0', '0', Nat.digitChar (n / 16), Nat.digitChar (n % 16)] = some n := by
  decide

-- A literal of cJSON: its escapes are those of the engine, but for the control
-- characters that have a shorter one.
theorem literal_literal (s : CStr) : Literal (Delta.literal s) s := by
  refine ⟨s.flatMap Delta.escape, rfl, ?_⟩
  induction s with
  | nil => exact .nil
  | cons c s ih =>
    rw [List.flatMap_cons]
    by_cases hmark : c = '"' ∨ c = '\\'
    · rw [Delta.escape, if_pos hmark]
      refine .short ?_ ?_ ih
      · rintro rfl
        simp at hmark
      · rw [shorthand, if_pos (hmark.imp_right .inl)]
    · obtain ⟨hquote, hslash⟩ := not_or.mp hmark
      rw [Delta.escape, if_neg hmark]
      by_cases hcontrol : c.toNat < 0x20
      · have hbyte : (UInt8.ofNat c.toNat).toNat = c.toNat := by
          rw [UInt8.toNat_ofNat']
          omega
        have hvalue := hexValues_control c.toNat hcontrol
        have hunicode := Body.unicode hvalue ih
        rw [if_pos hcontrol, hexByte, hbyte]
        rwa [unitBytes, if_pos (by omega), List.map_singleton, Char.ofNat_toNat] at hunicode
      · rw [if_neg hcontrol]
        exact .plain hquote hslash (Nat.le_of_not_lt hcontrol) ih

theorem response_complete_quoted :
    Answers true (some (Delta.literal (lit "bad value \"x\""))) (lit "r-11") (lit "COMPLETED") 400
      (lit "bad value \"x\"") :=
  (response_complete_iff true (some (Delta.literal (lit "bad value \"x\""))) (lit "r-11")
    (lit "COMPLETED") 400 (lit "bad value \"x\"") fun _ htext =>
      Option.some.inj htext ▸ literal_literal _).mpr
    ⟨rfl, by decide, show _ < _ by decide,
      (blends_iff_of_plain (by decide) (by decide)).mpr ⟨by decide, rfl⟩⟩

-- Fifteen control characters are a literal of 92 bytes.
theorem response_cut_off :
    ¬∀ (requestId state : CStr) (statusCode : Int32) (message text : CStr), Plain requestId →
      requestId ≠ [] → message ≠ [] → Literal text message →
      Answers true (some text) requestId state statusCode message := by
  intro h
  have hanswers := h (lit "r-12") (lit "COMPLETED") 400 (List.replicate 15 '\x01') _ (by decide)
    (by decide) (by decide) (literal_literal _)
  have hfits := (hanswers.needs fun _ htext => Option.some.inj htext ▸ literal_literal _).2.2.1
  exact absurd hfits (show ¬_ < _ by decide)

end Espos.Sk.Inbound
