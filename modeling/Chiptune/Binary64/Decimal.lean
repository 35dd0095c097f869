/-
# Decimal text of binary64 numbers

A number is written with the fewest digits that read back to it. The reals
that round to a magnitude form an interval around it, half a spacing wide on
each side (a quarter below the least magnitude of a spacing), with its ends
if the magnitude is an even multiple of its spacing. For 1, 2, 3, ... digits
the two neighbours of the number on that decimal grid are tested in exact
arithmetic, and the first grid with a hit gives the digits; of two hits the
nearer one is taken, and of two equally near ones the larger. Seventeen
digits always suffice.

The text is positional for every exponent, has no point for a whole number,
and keeps the sign of zero.

Key definitions: `Binary64.Decimal`, `Binary64.Magnitude.shortest`,
`Binary64.toText`.
-/
import Chiptune.Binary64

namespace Chiptune
namespace Binary64

/-- The decimal `digits * 10 ^ exponent`. -/
structure Decimal where
  digits : Nat
  exponent : Int
  deriving DecidableEq, Repr

namespace Decimal

/-- The decimal as a fraction of natural numbers: numerator and denominator. -/
def fraction (d : Decimal) : Nat × Nat :=
  (d.digits * Nat.pow 10 d.exponent.toNat, Nat.pow 10 (-d.exponent).toNat)

/-- The least `k` with the decimal below `10 ^ k`, for a decimal that is not
zero. -/
def magnitude (d : Decimal) : Int := (toString d.digits).length + d.exponent

/-- The binary64 number nearest to the decimal. All numbers from `10 ^ 310` on
are infinite, and all below `10 ^ -330` are zero. -/
def nearest (d : Decimal) : Binary64 :=
  if d.digits = 0 ∨ d.magnitude < -330 then zero false
  else if 310 < d.magnitude then .infinite false
  else ofFraction d.fraction.1 d.fraction.2

/-- The same decimal without trailing zeros, as far as `fuel` zeros. -/
def trim : Nat → Decimal → Decimal
  | 0, d => d
  | fuel + 1, d =>
    if d.digits ≠ 0 ∧ d.digits % 10 = 0 then trim fuel ⟨d.digits / 10, d.exponent + 1⟩ else d

/-- Positional text: no exponent, and a point only before a digit. -/
def toText (d : Decimal) : String :=
  let ds := (toString d.digits).toList
  let places := (-d.exponent).toNat
  let chars :=
    if 0 ≤ d.exponent then ds ++ List.replicate d.exponent.toNat '0'
    else if places < ds.length then
      ds.take (ds.length - places) ++ '.' :: ds.drop (ds.length - places)
    else '0' :: '.' :: (List.replicate (places - ds.length) '0' ++ ds)
  String.ofList chars

end Decimal

namespace Magnitude

/-- The lower end of the interval that rounds to the magnitude, in quarter
units. -/
def lowerEnd (x : Magnitude) : Nat :=
  if x.units = Nat.pow 2 x.units.log2 ∧ 1 < spacing x.units then 4 * x.units - spacing x.units
  else 4 * x.units - 2 * spacing x.units

/-- The upper end of the interval that rounds to the magnitude, in quarter
units. -/
def upperEnd (x : Magnitude) : Nat := 4 * x.units + 2 * spacing x.units

/-- The ends round to the magnitude itself when it is an even multiple of its
spacing. -/
def endsIncluded (x : Magnitude) : Bool := x.units / spacing x.units % 2 = 0

/-- Whether a decimal reads back to the magnitude. -/
def readsBack (x : Magnitude) (d : Decimal) : Bool :=
  let (num, den) := d.fraction
  let value := 4 * unitsInOne * num
  if x.endsIncluded then x.lowerEnd * den ≤ value && value ≤ x.upperEnd * den
  else x.lowerEnd * den < value && value < x.upperEnd * den

/-- The number of digits before the point, negative for leading zeros after
it: the least `k` with the magnitude below `10 ^ k`. No positive magnitude is
below `10 ^ -400`. -/
def leading (x : Magnitude) : Int :=
  ((toString (x.units * Nat.pow 10 400 / unitsInOne)).length : Int) - 400

/-- The grid neighbour of the magnitude that reads back, when decimals have
exponent `e`. -/
def onGrid (x : Magnitude) (e : Int) : Option Decimal :=
  let num := x.units * Nat.pow 10 (-e).toNat
  let den := unitsInOne * Nat.pow 10 e.toNat
  let below : Decimal := ⟨num / den, e⟩
  let above : Decimal := ⟨num / den + 1, e⟩
  match x.readsBack below, x.readsBack above with
  | false, false => none
  | true, false => some below
  | false, true => some above
  | true, true => some (if 2 * (num % den) < den then below else above)

/-- The exact decimal of the magnitude. -/
def exactDecimal (x : Magnitude) : Decimal := ⟨x.units * Nat.pow 5 1074, -1074⟩

/-- The shortest decimal that reads back to the magnitude, the nearest one of
its length. -/
def shortest (x : Magnitude) : Decimal :=
  if x.units = 0 then ⟨0, 0⟩
  else
    let found := (List.range 17).findSome? fun n => x.onGrid (x.leading - (n + 1 : Nat))
    (found.getD x.exactDecimal).trim 1100

end Magnitude

/-- The text of a number. -/
def toText : Binary64 → String
  | .nan => "NaN"
  | .infinite false => "inf"
  | .infinite true => "-inf"
  | .finite false x => x.shortest.toText
  | .finite true x => "-" ++ x.shortest.toText

end Binary64
end Chiptune
