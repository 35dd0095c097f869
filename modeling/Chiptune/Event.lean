/-
# Event lists

A list of events is what a channel plays before it has addresses: commands
that name sub-patterns and matrix rows by number, each followed by a number
of ticks. A channel has one main list and a sub list for each of its
patterns.

An event becomes driver instructions at an address. Notes carry a part of
their ticks themselves and wait for the rest; commands that leave the list
wait first; all others wait after. A jump to a sub-pattern refers to the label of
its list, which has to be defined. A jump to a matrix row that is already
placed refers to its label and is short when the distance from the jump fits
into a signed byte. A jump to a row that is not placed yet has the operand
zero, which is filled in later.

A reference that was made before an event fails stays in the label table.

Key definitions: `Command`, `Event`, `EventList`, `Event.body`,
`Event.instructions`, `Event.compile`.
-/
import Chiptune.Address
import Chiptune.Instruction
import Chiptune.Label.Table

namespace Chiptune

/-- The sides on which a channel sounds. -/
inductive Panning where
  | off
  | right
  | left
  | center
  deriving DecidableEq, Repr

namespace Panning

/-- The register value of a panning. -/
def toByte : Panning → UInt8
  | .off => 0x00
  | .right => 0x40
  | .left => 0x80
  | .center => 0xC0

/-- The panning of an effect value: left if its high half is not zero, right
if its low half is not. -/
def ofEffect (value : UInt8) : Panning :=
  match value >>> 4 != 0, value &&& 0x0F != 0 with
  | false, false => .off
  | false, true => .right
  | true, false => .left
  | true, true => .center

end Panning

/-- The direction of a pitch slide. -/
inductive Direction where
  | up
  | down
  deriving DecidableEq, Repr

/-- A command of an event list. -/
inductive Command where
  | wait
  | note (pitch : UInt8)
  | noteOff
  | changeInstrument (instrument : UInt8)
  | setVolume (volume : UInt8)
  | setPanning (panning : Panning)
  | jumpToSubPattern (index : Nat)
  | positionJump (row : Nat)
  | pitchSlide (direction : Direction) (speed : UInt8)
  | portamento (speed : UInt8)
  | writeRegisterA (address data : UInt8)
  | writeRegisterB (address data : UInt8)
  | setTimer (counter : UInt16)
  | endList
  | returnFromSubPattern
  deriving DecidableEq, Repr

/-- A command and the ticks that follow it. -/
structure Event where
  command : Command
  timing : Nat := 0
  deriving DecidableEq, Repr

/-- Whether a list is the main list of a channel or one of its sub-patterns. -/
inductive ListKind where
  | main
  | sub
  deriving DecidableEq, Repr

/-- A list of events. -/
structure EventList where
  kind : ListKind
  events : List Event := []
  deriving DecidableEq, Repr

namespace EventList

/-- The label of a list of a channel; the index counts sub-patterns. -/
def label (list : EventList) (channel index : Nat) : Label :=
  match list.kind with
  | .main => .mainList channel
  | .sub => .subPattern channel index

/-- The list with a command at its end. -/
def push (list : EventList) (command : Command) : EventList :=
  { list with events := list.events ++ [⟨command, 0⟩] }

/-- The list with other ticks after its last command. -/
def setLastTiming (list : EventList) (ticks : Nat) : EventList :=
  match list.events.getLast? with
  | none => list
  | some last => { list with events := list.events.dropLast ++ [{ last with timing := ticks }] }

end EventList

namespace Event

/-- The jump over a distance to an address: short if the distance fits into a
signed byte. -/
def jump (distance : Int) (target : Nat) : Instruction :=
  if -128 ≤ distance ∧ distance ≤ 127 then .positionJumpShort (Int8.ofInt distance)
  else .positionJump target.toUInt16

/-- The address of a label that an operand refers to, where the operand stands
`offset` bytes behind an address. -/
def refer (labels : LabelTable) (label : Label) (address offset : Nat) :
    Except Error (Nat × LabelTable) := do
  labels.reference label (← Address.advance address offset)

/-- The jump to a sub-pattern of a channel that stands `offset` bytes behind an
address. -/
def subPatternJump (channel index address offset : Nat) (labels : LabelTable) :
    Except Error Instruction × LabelTable :=
  -- the reference is the operand, after the opcode
  match refer labels (.subPattern channel index) address (offset + 1) with
  | .error e => (.error e, labels)
  | .ok (target, labels) => (.ok (.jumpToSubPattern target.toUInt16), labels)

/-- The jump to a matrix row of a channel that stands `offset` bytes behind an
address. -/
def rowJump (channel row address offset : Nat) (labels : LabelTable) :
    Except Error Instruction × LabelTable :=
  match Address.advance address offset with
  | .error e => (.error e, labels)
  | .ok origin =>
    if labels.contains (.matrixRow channel row) then
      match refer labels (.matrixRow channel row) origin 1 with
      | .error e => (.error e, labels)
      | .ok (target, labels) =>
        ((Address.distance origin target).map fun d => jump d target, labels)
    else (.ok (.positionJump 0), labels)

/-- The instructions of an event, less the jump of an event that jumps. -/
def body (event : Event) : List Instruction :=
  let ticks := event.timing
  let waited := Instruction.waits ticks
  match event.command with
  | .wait | .jumpToSubPattern _ | .positionJump _ => waited
  | .note pitch => .note (Instruction.lowSeven ticks) pitch :: Instruction.waits (ticks - 0x7F)
  | .noteOff => .noteOff ticks.toUInt8 :: Instruction.waits (ticks - 0xFF)
  | .changeInstrument instrument => .changeInstrument instrument :: waited
  | .setVolume volume => .setVolume volume :: waited
  | .setPanning panning => .setPanning panning.toByte :: waited
  | .pitchSlide .up speed => .pitchSlideUp speed :: waited
  | .pitchSlide .down speed => .pitchSlideDown speed :: waited
  | .portamento speed => .portamento speed :: waited
  | .writeRegisterA register data => .writeRegisterA register data :: waited
  | .writeRegisterB register data => .writeRegisterB register data :: waited
  | .setTimer counter => .setTimer counter :: waited
  | .endList => waited ++ [.endList]
  | .returnFromSubPattern => waited ++ [.returnFromSubPattern]

/-- The instructions of an event of a channel at an address, and the label
table with the references they make. -/
def instructions (channel address : Nat) (labels : LabelTable) (event : Event) :
    Except Error (List Instruction) × LabelTable :=
  let offset := (Instruction.encodeAll event.body).length
  match event.command with
  | .jumpToSubPattern index =>
    let (jump, labels) := subPatternJump channel index address offset labels
    (jump.map fun i => event.body ++ [i], labels)
  | .positionJump row =>
    let (jump, labels) := rowJump channel row address offset labels
    (jump.map fun i => event.body ++ [i], labels)
  | _ => (.ok event.body, labels)

/-- The bytes of an event of a channel at an address. -/
def compile (channel address : Nat) (labels : LabelTable) (event : Event) :
    Except Error (List UInt8) × LabelTable :=
  let (code, labels) := event.instructions channel address labels
  (code.map Instruction.encodeAll, labels)

end Event
end Chiptune
