/-
# Songs

A song is what the driver plays, before it has addresses: for each channel
that plays a main list and its sub-patterns, the instrument records with
their tables, and the timer set-up. The placed samples are kept beside it.

Key definitions: `Song`, `ChannelTrack`.
-/
import Chiptune.Event
import Chiptune.Instrument
import Chiptune.SampleRom
import Chiptune.Tempo
import Chiptune.Voice

namespace Chiptune

/-- The event lists of a channel. -/
structure ChannelTrack where
  events : EventList
  subPatterns : List EventList := []
  deriving DecidableEq, Repr

/-- A song; channels are in the order of the driver. -/
structure Song where
  channels : Vector (Option ChannelTrack) channelCount := Vector.replicate channelCount none
  instruments : List InstrumentRecord := []
  tables : List Table := []
  timer : TimerSetup := {}
  samples : List PlacedSample := []
  /-- Whether a note was clamped to the range of its channel. -/
  clamped : Bool := false
  deriving DecidableEq, Repr

namespace Song

/-- The track of a tracker channel. -/
def trackerTrack? (song : Song) (channel : Nat) : Option ChannelTrack :=
  if h : channel < channelCount then song.channels[driverChannel ⟨channel, h⟩] else none

end Song
end Chiptune
