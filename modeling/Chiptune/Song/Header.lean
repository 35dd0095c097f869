/-
# Song headers

A song is entered through a header of 31 bytes: the address of the main list
of each channel, zero for a channel that does not play, the timer A counter,
the time base and the address of the instrument records.

Key definitions: `SongHeader`, `SongHeader.encode`, `SongHeader.read`.
-/
import Chiptune.Instruction.Reader
import Chiptune.Voice

namespace Chiptune

/-- The header of a song. -/
structure SongHeader where
  channels : Vector (Option UInt16) channelCount := Vector.replicate channelCount none
  timerCounter : UInt16 := 0
  timeBase : UInt8 := 0
  instruments : UInt16 := 0
  deriving DecidableEq, Repr

namespace SongHeader

/-- The bytes of a header. -/
def encode (h : SongHeader) : List UInt8 :=
  (h.channels.toList.flatMap fun c => Word.bytes (c.getD 0))
    ++ Word.bytes h.timerCounter ++ [h.timeBase] ++ Word.bytes h.instruments

/-- A number of words from a position. -/
def readWords (data : Array UInt8) (pos : Nat) :
    (n : Nat) → Except Nat (Vector UInt16 n × Nat)
  | 0 => .ok (#v[], pos)
  | n + 1 => do
    let (words, pos) ← readWords data pos n
    let (word, pos) ← Reader.word data pos
    .ok (words.push word, pos)

/-- The entry of a channel that a word stands for; zero is no address. -/
def present (w : UInt16) : Option UInt16 := if w = 0 then none else some w

/-- The header at a position. -/
def read (data : Array UInt8) (pos : Nat) : Except Nat (SongHeader × Nat) := do
  let (channels, pos) ← readWords data pos channelCount
  let (timerCounter, pos) ← Reader.word data pos
  let (timeBase, pos) ← Reader.byte data pos
  let (instruments, pos) ← Reader.word data pos
  .ok (⟨channels.map present, timerCounter, timeBase, instruments⟩, pos)

end SongHeader
end Chiptune
