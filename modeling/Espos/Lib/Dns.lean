import Mathlib.Algebra.GroupWithZero.Nat
import Mathlib.Data.List.Basic

-- Messages of the domain name system: a header with four counts, and so many questions and
-- records. A name ends in the root or in a pointer to a name earlier in the message.

namespace Espos.Dns

abbrev Bytes := List UInt8

abbrev Labels := List Bytes

def word (hi lo : UInt8) : Nat :=
  hi.toNat * 256 + lo.toNat

structure Question where
  name : Labels
  type : Nat
  cls : Nat
deriving DecidableEq

structure Record where
  name : Labels
  type : Nat
  cls : Nat
  ttl : Nat
  data : Bytes
deriving DecidableEq

structure Message where
  id : Nat
  flags : Nat
  questions : List Question
  answers : List Record
  authority : List Record
  additional : List Record
deriving DecidableEq

-- What is still to be read of a message, from which place on, and the names before it with
-- their places.
structure Reader where
  pos : Nat
  rest : Bytes
  known : List (Nat × Labels)
deriving DecidableEq

-- A pointer leads to one of the names that are known.
def pointed (known : List (Nat × Labels)) (pos : Nat) (l : UInt8) :
    Bytes → Option (Labels × List (Nat × Labels) × Bytes)
  | [] => none
  | lo :: rest =>
    (known.lookup (word (l - 192) lo)).map fun name => (name, [(pos, name)], rest)

-- A name and those it ends in.
def nameFrom (known : List (Nat × Labels)) :
    Nat → Nat → Bytes → Option (Labels × List (Nat × Labels) × Bytes)
  | 0, _, _ => none
  | _ + 1, _, [] => none
  | fuel + 1, pos, l :: rest =>
    if l = 0 then some ([], [(pos, [])], rest)
    else if l < 64 then
      if l.toNat ≤ rest.length then
        (nameFrom known fuel (pos + l.toNat + 1) (rest.drop l.toNat)).map fun found =>
          (rest.take l.toNat :: found.1, (pos, rest.take l.toNat :: found.1) :: found.2.1,
            found.2.2)
      else none
    else if 192 ≤ l then pointed known pos l rest
    else none

-- The length of a name that is written out.
def wireSize (name : Labels) : Nat :=
  (name.map fun label => label.length + 1).sum + 1

def readName (r : Reader) : Option (Labels × Reader) :=
  match nameFrom r.known r.rest.length r.pos r.rest with
  | none => none
  | some (name, found, rest) =>
    if wireSize name ≤ 255 then
      some (name, ⟨r.pos + (r.rest.length - rest.length), rest, r.known ++ found⟩)
    else none

def readQuestion (r : Reader) : Option (Question × Reader) :=
  (readName r).bind fun (name, r) =>
    match r.rest with
    | t₁ :: t₂ :: c₁ :: c₂ :: rest =>
      some (⟨name, word t₁ t₂, word c₁ c₂⟩, ⟨r.pos + 4, rest, r.known⟩)
    | _ => none

def readRecord (r : Reader) : Option (Record × Reader) :=
  (readName r).bind fun (name, r) =>
    match r.rest with
    | t₁ :: t₂ :: c₁ :: c₂ :: l₁ :: l₂ :: l₃ :: l₄ :: n₁ :: n₂ :: rest =>
      if word n₁ n₂ ≤ rest.length then
        some (⟨name, word t₁ t₂, word c₁ c₂, word l₁ l₂ * 65536 + word l₃ l₄,
          rest.take (word n₁ n₂)⟩, ⟨r.pos + 10 + word n₁ n₂, rest.drop (word n₁ n₂), r.known⟩)
      else none
    | _ => none

def readMany {α : Type} (read : Reader → Option (α × Reader)) :
    Nat → Reader → Option (List α × Reader)
  | 0, r => some ([], r)
  | n + 1, r =>
    (read r).bind fun (a, r) => (readMany read n r).map fun (as, r) => (a :: as, r)

-- The whole of it is a message.
def readMessage : Bytes → Option Message
  | i₁ :: i₂ :: f₁ :: f₂ :: q₁ :: q₂ :: a₁ :: a₂ :: n₁ :: n₂ :: x₁ :: x₂ :: body =>
    (readMany readQuestion (word q₁ q₂) ⟨12, body, []⟩).bind fun (questions, r) =>
      (readMany readRecord (word a₁ a₂) r).bind fun (answers, r) =>
        (readMany readRecord (word n₁ n₂) r).bind fun (authority, r) =>
          (readMany readRecord (word x₁ x₂) r).bind fun (additional, r) =>
            if r.rest = [] then
              some ⟨word i₁ i₂, word f₁ f₂, questions, answers, authority, additional⟩
            else none
  | _ => none

end Espos.Dns
