/-
# JSON values

A value keeps what a reader of the text may need to tell apart: numbers stay
numerals, digit by digit, and an object keeps all its members in order,
repeated keys included.

The value of a numeral is formed from the leading digits that fit into 64
bits. Whole digits beyond them raise the exponent, fraction digits beyond
them are dropped. The significand becomes a binary64 number and is then
multiplied or divided by the binary64 power of ten, each step rounded.

Key definitions: `Json`, `Numeral`, `Numeral.value?`, `Json.Fault`.
-/
import Chiptune.Binary64.Decimal

namespace Chiptune

/-- A number as written. Digits are values below ten. The fraction is empty
when there is no point. -/
structure Numeral where
  negative : Bool
  whole : List Nat
  fraction : List Nat
  exponent : Option Int
  deriving DecidableEq, Repr

/-- A JSON value. -/
inductive Json where
  | null
  | bool (value : Bool)
  | number (numeral : Numeral)
  | string (text : String)
  | array (items : List Json)
  | object (members : List (String × Json))

/-- What can be wrong with a JSON text: it ends too early, it is not JSON, or
it does not have the expected shape. -/
inductive Json.Fault where
  | ended
  | malformed
  | mismatch
  deriving DecidableEq, Repr

namespace Numeral

/-- The numeral of a whole number. -/
def ofInt (n : Int) : Numeral :=
  { negative := n < 0
    whole := (toString n.natAbs).toList.map fun c => c.toNat - 48
    fraction := []
    exponent := none }

/-- A numeral without sign, fraction and exponent, as a number. -/
def toNat? (n : Numeral) : Option Nat :=
  if n.negative || !n.fraction.isEmpty || n.exponent.isSome then none
  else some (n.whole.foldl (fun m d => 10 * m + d) 0)

/-- A numeral without fraction and exponent, as a number. -/
def toInt? (n : Numeral) : Option Int :=
  if n.negative then ({ n with negative := false } : Numeral).toNat?.map fun m => -(m : Int)
  else n.toNat?.map fun m => (m : Int)

/-- Significands stay below this number. -/
def significandLimit : Nat := 0x10000000000000000

/-- The leading digits that keep the significand within its limit, and the
number of digits left over. -/
def takeDigits (significand : Nat) : List Nat → Nat × Nat
  | [] => (significand, 0)
  | d :: ds =>
    if 10 * significand + d < significandLimit then takeDigits (10 * significand + d) ds
    else (significand, ds.length + 1)

/-- The significand of a numeral and its decimal exponent. -/
def parts (n : Numeral) : Nat × Int :=
  let (whole, dropped) := takeDigits 0 n.whole
  let (significand, ignored) := takeDigits whole n.fraction
  (significand, dropped - (n.fraction.length - ignored : Nat) + n.exponent.getD 0)

/-- A number times a power of ten, each step rounded; nothing when the result
is out of range. Powers below `10 ^ -308` are taken in steps. -/
def scale (x : Binary64) (e : Int) : Option Binary64 :=
  if 308 < e then
    if x.isZero then some x else none
  else if 0 ≤ e then
    let y := x * Binary64.ofNat (Nat.pow 10 e.toNat)
    if y.isInfinite then none else some y
  else if -308 ≤ e then some (x / Binary64.ofNat (Nat.pow 10 (-e).toNat))
  else if x.isZero then some x
  else scale (x / Binary64.ofNat (Nat.pow 10 308)) (e + 308)
termination_by (-e).toNat
decreasing_by omega

/-- The value of a numeral; nothing when it is out of range. -/
def value? (n : Numeral) : Option Binary64 :=
  let (significand, exponent) := n.parts
  (scale (Binary64.ofNat significand) exponent).map fun x => if n.negative then -x else x

/-- Whether a numeral has a value. Whole numbers that are significands
themselves always do. -/
def inRange (n : Numeral) : Bool :=
  n.toNat?.any (· < significandLimit) || n.value?.isSome

end Numeral

namespace Json

/-- A whole number. -/
def int (n : Int) : Json := .number (.ofInt n)

/-- A natural number. -/
def nat (n : Nat) : Json := .int n

/-- A value that may be absent. -/
def option {α : Type} (f : α → Json) : Option α → Json
  | none => .null
  | some a => f a

/-- An array of encoded elements. -/
def list {α : Type} (f : α → Json) (items : List α) : Json := .array (items.map f)

end Json
end Chiptune
