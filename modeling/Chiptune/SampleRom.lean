/-
# Samples in V-ROM

Samples are addressed in units of 256 bytes and may not cross the border of a
bank of 4096 units. They are placed one after the other; a sample that would
cross a border starts at the last bank that it would have reached into. Every
sample takes at least one unit. Addresses are 64-bit numbers, and a placement
beyond them fails.

The image of placed samples starts at a given unit. Samples are written into
it one after the other, in any order of units: the image grows to the last
unit of each, with zeros, and the data of a sample replace what is there.

Key definitions: `PlacedSample`, `SampleRom.place`, `SampleRom.write`,
`SampleRom.image`.
-/
import Chiptune.Address
import Chiptune.Tracker.Module

namespace Chiptune

open Tracker

/-- A sample with its first and last unit. -/
structure PlacedSample where
  sample : Sample
  first : Nat
  last : Nat
  deriving DecidableEq, Repr

namespace SampleRom

/-- The bytes of a unit. -/
def unitSize : Nat := 256

/-- The units of a bank. -/
def bankSize : Nat := 4096

/-- Images stay below this number of bytes. -/
def imageLimit : Nat := 0x8000000000000000

/-- The units that a sample takes. -/
def unitsOf (sample : Sample) : Nat := max 1 ((sample.data.length + (unitSize - 1)) / unitSize)

/-- The first unit of a sample of `units` units when `start` is the first free
unit. -/
def firstUnit (start units : Nat) : Nat :=
  let last := start + units - 1
  if start / bankSize = last / bankSize then start else last / bankSize * bankSize

/-- Places samples from the first free unit on. -/
def place (start : Nat) : List Sample → Except Error (List PlacedSample)
  | [] => .ok []
  | sample :: rest => do
    let units := unitsOf sample
    let first := firstUnit start units
    if Address.limit ≤ start + units ∨ Address.limit ≤ first + units then .error .addressOverflow
    else
      let placed ← place (first + units) rest
      .ok (⟨sample, first, first + units - 1⟩ :: placed)

/-- The first free unit after placed samples. -/
def endUnit (start : Nat) (placed : List PlacedSample) : Nat :=
  match placed.getLast? with
  | none => start
  | some p => p.last + 1

end SampleRom

/-- The units of a placed sample. -/
def PlacedSample.units (p : PlacedSample) : Nat := p.last - p.first + 1

namespace SampleRom

/-- The image filled up to a size with zeros. -/
def extend (image : Array UInt8) (size : Nat) : Array UInt8 :=
  image ++ Array.replicate (size - image.size) 0

/-- Replaces the bytes of an image from a position on. -/
def store (image : Array UInt8) (position : Nat) : List UInt8 → Array UInt8
  | [] => image
  | byte :: rest => store (image.setIfInBounds position byte) (position + 1) rest

/-- Writes a placed sample into an image that starts at a unit. The sample may
not start before it, the image has a largest size, and the data have to end in
the image. -/
def write (start : Nat) (image : Array UInt8) (p : PlacedSample) : Except Error (Array UInt8) :=
  let position := (p.first - start) * unitSize
  let stop := position + p.units * unitSize
  if p.first < start ∨ p.last < p.first ∨ imageLimit ≤ stop then .error .addressOverflow
  else
    let image := extend image stop
    if image.size < position + p.sample.data.length then .error .addressOverflow
    else .ok (store image position p.sample.data)

/-- Writes placed samples one after the other. -/
def writeAll (start : Nat) (image : Array UInt8) : List PlacedSample → Except Error (Array UInt8)
  | [] => .ok image
  | p :: rest => do writeAll start (← write start image p) rest

/-- The image of placed samples from a unit on. -/
def image (start : Nat) (placed : List PlacedSample) : Except Error (List UInt8) := do
  let image ← writeAll start #[] placed
  .ok image.toList

end SampleRom
end Chiptune
