/-
# Hexadecimal text

Upper-case hexadecimal digits of natural numbers, with zeros in front up to a
least width. A number that needs more digits than the width keeps them all.

Key definitions: `Hex.digits`, `Hex.padded`.
-/

namespace Chiptune
namespace Hex

/-- The digit of a value below sixteen. -/
def digit (n : Nat) : Char :=
  if n < 10 then Char.ofNat (48 + n) else Char.ofNat (55 + n)

/-- The digits of a number, the highest first; zero has one digit. -/
def digits (n : Nat) : List Char :=
  if n < 16 then [digit n] else digits (n / 16) ++ [digit (n % 16)]

/-- The digits with zeros in front, `width` of them at least. -/
def paddedDigits (width n : Nat) : List Char :=
  List.replicate (width - (digits n).length) '0' ++ digits n

/-- The text of a number with at least `width` digits. -/
def padded (width n : Nat) : String := String.ofList (paddedDigits width n)

end Hex
end Chiptune
