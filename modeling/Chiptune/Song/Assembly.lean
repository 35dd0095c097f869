/-
# Songs of modules

The song of a module plays, on each channel with a column in the pattern
matrix, one sub-pattern for each row of the column. Rows with the same
pattern share a sub-pattern; sub-patterns are listed by rising pattern
number. The records of the module's instruments are followed by one for the
ADPCM-A channels, which these select at the start of their lists.

Key definitions: `Song.patternNumbers`, `Song.mainList`, `Song.ofModule`.
-/
import Chiptune.Song.Basic
import Chiptune.SubPattern

namespace Chiptune
namespace Song

open Tracker

/-- The number of instruments that a module may have. -/
def instrumentLimit : Nat := 254

/-- The pattern numbers of a column, rising, each one once. -/
def patternNumbers (column : List UInt8) : List UInt8 :=
  ((List.range 256).map Nat.toUInt8).filter column.contains

/-- The main list of a tracker channel: a jump for each row of its column.
ADPCM-A channels first select `sampler`, the record of their samples. -/
def mainList (channel : Nat) (sampler : UInt8) (column : List UInt8) : EventList :=
  let numbers := patternNumbers column
  let select : List Event :=
    match voiceKind channel with
    | .adpcmA => [⟨.changeInstrument sampler, 0⟩]
    | _ => []
  let jumps := column.map fun p => (⟨.jumpToSubPattern (numbers.idxOf p), 0⟩ : Event)
  ⟨.main, select ++ jumps ++ [⟨.endList, 0⟩]⟩

/-- The sub-patterns with the given numbers, and whether a note was clamped. -/
def convertPatterns (m : Module) (channel : Nat) (clamped : Bool) :
    List UInt8 → Except Error (List EventList × Bool)
  | [] => .ok ([], clamped)
  | number :: rest => do
    match m.pattern? channel number with
    | none => .error (.missingPattern channel number)
    | some pattern =>
      let (list, clamped) := SubPattern.ofPattern channel m.timeInfo clamped pattern
      let list ← list
      let (lists, clamped) ← convertPatterns m channel clamped rest
      .ok (list :: lists, clamped)

/-- The track of a tracker channel, and whether a note was clamped in it. -/
def track (m : Module) (sampler : UInt8) (channel : Nat) (column : List UInt8) :
    Except Error (ChannelTrack × Bool) := do
  let (subPatterns, clamped) ← convertPatterns m channel false (patternNumbers column)
  .ok (⟨mainList channel sampler column, subPatterns⟩, clamped)

/-- The tracks of columns from a tracker channel on. -/
def tracksFrom (m : Module) (sampler : UInt8) (channel : Nat) :
    List (Option (List UInt8)) → Except Error (List (Option (ChannelTrack × Bool)))
  | [] => .ok []
  | none :: rest => do .ok (none :: (← tracksFrom m sampler (channel + 1) rest))
  | some column :: rest => do
    let first ← track m sampler channel column
    .ok (some first :: (← tracksFrom m sampler (channel + 1) rest))

/-- The song of a module, with its samples placed from a V-ROM unit on. -/
def ofModule (m : Module) (vromStart : Nat) : Except Error Song := do
  let timer ← Tempo.setup m.timeInfo.frequency
  let samples ← SampleRom.place vromStart m.samples
  if instrumentLimit < m.instruments.length then
    .error (.tooManyInstruments m.instruments.length)
  else
    let (records, tables) := InstrumentRecord.ofTrackerAll [] m.instruments
    let sampler := records.length.toUInt8
    let tracks ← tracksFrom m sampler 0 (m.matrix.take channelCount)
    let channels : Vector (Option ChannelTrack) channelCount :=
      Vector.ofFn fun i => (tracks[i.val]?).join.map Prod.fst
    .ok { channels := toDriverOrder channels
          instruments := records ++ [.adpcmA tables.length]
          tables := tables ++ [.sampleList (samples.map fun p => (p.first, p.last))]
          timer := timer
          samples := samples
          clamped := tracks.any fun t => t.any Prod.snd }

/-- The first free V-ROM unit after the samples of the song. -/
def vromEnd (song : Song) (vromStart : Nat) : Nat := SampleRom.endUnit vromStart song.samples

end Song
end Chiptune
