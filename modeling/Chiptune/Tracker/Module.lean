/-
# Tracker modules

A module is a song as the tracker stores it. Each channel has a column of
pattern numbers, the rows of the pattern matrix, and patterns of rows; a row
may hold a note with its octave, a volume, an instrument and effects. Rows
last for a number of ticks that alternates between two values.

FM instruments have four operators. SSG instruments have three envelopes,
tables of values that are stepped once a tick. Samples are played on the
ADPCM-A channels.

Key definitions: `Tracker.Module`, `Tracker.Pattern`, `Tracker.Row`,
`Tracker.Instrument`, `Tracker.Sample`.
-/
import Chiptune.Binary64

namespace Chiptune
namespace Tracker

/-- The timing of a module. Tick counts are 32-bit numbers. -/
structure TimeInfo where
  frequency : Binary64 := Binary64.ofNat 60
  /-- Ticks of the rows with even index. -/
  evenTicks : Nat := 6
  /-- Ticks of the rows with odd index. -/
  oddTicks : Nat := 6
  timeBase : Nat := 1
  deriving DecidableEq

/-- An effect of a row; without a value it does nothing. -/
structure Effect where
  code : UInt8
  value : Option UInt8 := none
  deriving DecidableEq, Repr

namespace Effect

/-- Slides the pitch up. -/
def pitchSlideUp : UInt8 := 0x01

/-- Slides the pitch down. -/
def pitchSlideDown : UInt8 := 0x02

/-- Slides to the pitch of the next note. -/
def portamento : UInt8 := 0x03

/-- Sets the panning. -/
def setPanning : UInt8 := 0x08

/-- Goes on at a row of the pattern matrix. -/
def positionJump : UInt8 := 0x0B

/-- Selects the bank of samples that notes are counted in. -/
def setSampleBank : UInt8 := 0xEB

end Effect

/-- A row of a pattern. -/
structure Row where
  note : Option UInt8 := none
  octave : Option UInt8 := none
  volume : Option UInt8 := none
  instrument : Option UInt8 := none
  effects : List Effect := []
  deriving DecidableEq, Repr

namespace Row

/-- The note number that stops the note that sounds. -/
def noteOff : UInt8 := 100

/-- A row with a note. -/
def ofNote (note octave : UInt8) : Row := { note := some note, octave := some octave }

/-- Whether the row stops the note that sounds. -/
def isNoteOff (row : Row) : Bool := row.note == some noteOff

/-- Whether the row does nothing: an octave alone and effects without a value
count for nothing. -/
def isEmpty (row : Row) : Bool :=
  row.note.isNone && row.volume.isNone && row.instrument.isNone
    && row.effects.all fun fx => fx.value.isNone

end Row

/-- A pattern. -/
structure Pattern where
  rows : List Row
  deriving DecidableEq, Repr

namespace Pattern

/-- No pattern has this many rows: rows take 32 bytes each, and all of them less
than `2 ^ 63`. -/
def rowLimit : Nat := 0x400000000000000

/-- A pattern of empty rows, if it can be as long. -/
def empty? (length : Nat) : Option Pattern :=
  if length < rowLimit then some ⟨List.replicate length {}⟩ else none

end Pattern

/-- An operator of an FM instrument. -/
structure FmOperator where
  am : UInt8 := 0
  ar : UInt8 := 0
  dr : UInt8 := 0
  sr : UInt8 := 0
  rr : UInt8 := 0
  sl : UInt8 := 0
  tl : UInt8 := 0
  ks : UInt8 := 0
  mul : UInt8 := 0
  dt : UInt8 := 0
  ssgEg : UInt8 := 0
  deriving DecidableEq, Repr

/-- An FM instrument. -/
structure FmInstrument where
  algorithm : UInt8 := 0
  feedback : UInt8 := 0
  ams : UInt8 := 0
  fms : UInt8 := 0
  operators : Vector FmOperator 4 := Vector.replicate 4 {}
  deriving DecidableEq, Repr

/-- A table of values, stepped once a tick, which may return to a loop point. -/
structure Envelope where
  values : List UInt8 := []
  loopPoint : Option UInt8 := none
  deriving DecidableEq, Repr

/-- An SSG instrument. -/
structure SsgInstrument where
  tone : Bool := false
  noise : Bool := false
  volume : Option Envelope := none
  arpeggio : Option Envelope := none
  mixing : Option Envelope := none
  deriving DecidableEq, Repr

/-- An instrument. -/
inductive Instrument where
  | fm (instrument : FmInstrument)
  | ssg (instrument : SsgInstrument)
  deriving DecidableEq, Repr

/-- A sample. -/
structure Sample where
  name : String := ""
  data : List UInt8 := []
  deriving DecidableEq, Repr

/-- A tracker module. Columns and patterns are listed by tracker channel. -/
structure Module where
  timeInfo : TimeInfo := {}
  matrix : List (Option (List UInt8)) := []
  patterns : List (List Pattern) := []
  instruments : List Instrument := []
  samples : List Sample := []
  deriving DecidableEq

namespace Module

/-- The number of rows of the pattern matrix: the length of its longest
column. -/
def matrixRows (m : Module) : Nat :=
  m.matrix.foldl (fun rows column => max rows (column.getD []).length) 0

/-- A pattern of a channel. -/
def pattern? (m : Module) (channel : Nat) (number : UInt8) : Option Pattern := do
  (← m.patterns[channel]?)[number.toNat]?

end Module
end Tracker
end Chiptune
