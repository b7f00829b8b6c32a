import Mathlib.Data.Rat.Floor
import Espos.Lib.Text

-- The numbers of a binary floating-point format, compared as C compares them.
-- Both zeros are one number here, as they are to `==`.

namespace Espos

inductive Number where
  | finite (q : Rat)
  | inf (negative : Bool)
  | nan
deriving DecidableEq

namespace Number

-- `a < b`
def lt : Number → Number → Bool
  | .finite a, .finite b => a < b
  | .finite _, .inf negative => !negative
  | .inf negative, .finite _ => negative
  | .inf a, .inf b => a && !b
  | .nan, _ | _, .nan => false

-- `a == b`
def feq : Number → Number → Bool
  | .nan, _ => false
  | a, b => a = b

def isFinite : Number → Bool
  | .finite _ => true
  | .inf _ | .nan => false

-- The integer a number in `[lo, hi]` is, `d == floor(d)`.
def toInt? (lo hi : Int) : Number → Option Int
  | .finite q => if lo ≤ q ∧ q ≤ hi ∧ q = ⌊q⌋ then some ⌊q⌋ else none
  | .inf _ | .nan => none

theorem feq_iff {a b : Number} (hb : b ≠ .nan) : feq a b = true ↔ a = b := by
  cases a with
  | nan => simpa [feq] using hb.symm
  | finite q => simp [feq]
  | inf negative => simp [feq]

theorem feq_nan (a : Number) : feq a .nan = false := by
  cases a <;> simp [feq]

theorem toInt?_intCast {lo hi i : Int} (h : lo ≤ i ∧ i ≤ hi) :
    toInt? lo hi (.finite i) = some i := by
  simp [toInt?, h]

end Number

end Espos

-- A parsed JSON document. An object keeps its members in the order of the text,
-- also those that have the same name.

namespace Espos

open Espos.Text

inductive Json where
  | null
  | bool (b : Bool)
  | number (x : Number)
  | string (s : CStr)
  | array (items : List Json)
  | object (members : List (CStr × Json))

def Json.isNull : Json → Bool
  | .null => true
  | _ => false

def isHex (c : Char) : Bool :=
  c.isDigit || 'a' ≤ c && c ≤ 'f'

-- A text without a raw U+0000 in which every backslash starts an escape, none of
-- them that of U+0000.
def wellEscaped : List Char → Bool
  | [] => true
  | '\\' :: 'u' :: a :: b :: c :: d :: rest =>
    [a, b, c, d].all isHex && [a, b, c, d] ≠ ['0', '0', '0', '0'] && wellEscaped rest
  | '\\' :: c :: rest => c ≠ 'u' && c ≠ '\x00' && wellEscaped rest
  | c :: rest => c ≠ '\\' && c ≠ '\x00' && wellEscaped rest

end Espos
