/-
# Driver instructions

The sound driver plays lists of instructions, each an opcode byte followed by
its operands. A note carries the ticks to wait after it in the low seven bits
of its opcode. Waits have three forms: up to 16 ticks in the opcode itself,
up to 256 in one operand byte, and a word. Opcodes without a meaning read as
`unknown` and have no operands.

A wait of any length is a sequence of word waits, each counted as `0xFFFF`
ticks, followed by one shorter wait for the last 256 ticks or less. A word
wait carries the low 16 bits of the ticks left.

Key definitions: `Instruction`, `Instruction.encode`,
`Instruction.operandCount`, `Instruction.waits`.
-/
import Chiptune.Word

namespace Chiptune

/-- An instruction of the sound driver. -/
inductive Instruction where
  | endList
  | noteOff (ticks : UInt8)
  | changeInstrument (instrument : UInt8)
  | waitByte (operand : UInt8)
  | waitWord (ticks : UInt16)
  | setVolume (volume : UInt8)
  | setPanning (panning : UInt8)
  | writeRegisterA (address data : UInt8)
  | writeRegisterB (address data : UInt8)
  | setTimer (counter : UInt16)
  | positionJump (address : UInt16)
  | positionJumpShort (offset : Int8)
  | pitchSlideUp (speed : UInt8)
  | pitchSlideDown (speed : UInt8)
  | portamento (speed : UInt8)
  | waitNibble (operand : Fin 16)
  | returnFromSubPattern
  | jumpToSubPattern (address : UInt16)
  | note (ticks : Fin 128) (pitch : UInt8)
  | unknown (opcode : UInt8)
  deriving DecidableEq, Repr

namespace Instruction

/-- The low seven bits of a number. -/
def lowSeven (n : Nat) : Fin 128 := Fin.ofNat 128 n

/-- The low four bits of a number. -/
def lowFour (n : Nat) : Fin 16 := Fin.ofNat 16 n

/-- The bytes of an instruction. -/
def encode : Instruction → List UInt8
  | .endList => [0x00]
  | .noteOff ticks => [0x01, ticks]
  | .changeInstrument instrument => [0x02, instrument]
  | .waitByte operand => [0x03, operand]
  | .waitWord ticks => 0x04 :: Word.bytes ticks
  | .setVolume volume => [0x05, volume]
  | .setPanning panning => [0x06, panning]
  | .writeRegisterA address data => [0x07, address, data]
  | .writeRegisterB address data => [0x08, address, data]
  | .setTimer counter => 0x09 :: Word.bytes counter
  | .positionJump address => 0x0A :: Word.bytes address
  | .positionJumpShort offset => [0x0B, offset.toUInt8]
  | .pitchSlideUp speed => [0x0C, speed]
  | .pitchSlideDown speed => [0x0D, speed]
  | .portamento speed => [0x0E, speed]
  | .waitNibble operand => [(0x10 + operand.val).toUInt8]
  | .returnFromSubPattern => [0x20]
  | .jumpToSubPattern address => 0x21 :: Word.bytes address
  | .note ticks pitch => [(0x80 + ticks.val).toUInt8, pitch]
  | .unknown opcode => [opcode]

/-- The bytes of a sequence of instructions. -/
def encodeAll (is : List Instruction) : List UInt8 := is.flatMap encode

/-- The number of operand bytes after an opcode. -/
def operandCount (opcode : UInt8) : Nat :=
  if 0x80 ≤ opcode then 1
  else if opcode ∈ [0x01, 0x02, 0x03, 0x05, 0x06, 0x0B, 0x0C, 0x0D, 0x0E] then 1
  else if opcode ∈ [0x04, 0x07, 0x08, 0x09, 0x0A, 0x21] then 2
  else 0

/-- The ticks of a wait instruction. -/
def waitTicks? : Instruction → Option Nat
  | .waitNibble operand => some (operand.val + 1)
  | .waitByte operand => some (operand.toNat + 1)
  | .waitWord ticks => some ticks.toNat
  | _ => none

/-- Whether the driver does not go on to the instruction after this one. -/
def endsList : Instruction → Bool
  | .endList => true
  | .returnFromSubPattern => true
  | .positionJump _ => true
  | .positionJumpShort _ => true
  | _ => false

/-- The instructions that wait a number of ticks; there are none for ticks that
have passed already. -/
def waits (ticks : Int) : List Instruction :=
  if ticks ≤ 0 then []
  else if 0x100 < ticks then .waitWord ticks.toNat.toUInt16 :: waits (ticks - 0xFFFF)
  else if 0x10 < ticks then [.waitByte (ticks - 1).toNat.toUInt8]
  else [.waitNibble (lowFour (ticks - 1).toNat)]
termination_by ticks.toNat
decreasing_by omega

end Instruction
end Chiptune
