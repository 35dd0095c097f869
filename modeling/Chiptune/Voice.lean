/-
# Channels and their voices

A system has 13 channels of three kinds. The tracker orders them FM, SSG,
ADPCM-A, the driver ADPCM-A, FM, SSG; data of all channels are moved between
the two orders by permutations that undo each other.

Notes and volumes of the tracker are converted by the kind of the channel.
The tracker writes the note C as the twelfth of the octave below. On FM
channels a driver note holds the octave above the note in its high bits, on
SSG channels it counts semitones from octave 2 on, and lower notes are
clamped to the lowest one. On ADPCM-A channels the note is the number of a
sample.

Key definitions: `VoiceKind`, `toDriverOrder`, `toTrackerOrder`,
`VoiceKind.note?`, `VoiceKind.volume`.
-/

namespace Chiptune

/-- The kinds of channels. -/
inductive VoiceKind where
  | fm
  | ssg
  | adpcmA
  deriving DecidableEq, Repr

/-- The number of channels. -/
def channelCount : Nat := 13

/-- The kind of a tracker channel. -/
def voiceKind (channel : Nat) : VoiceKind :=
  if channel < 4 then .fm else if channel < 7 then .ssg else .adpcmA

/-- The driver channel of a tracker channel. -/
def driverChannel (tracker : Fin channelCount) : Fin channelCount :=
  if h : tracker.val < 7 then ⟨tracker.val + 6, by unfold channelCount; omega⟩
  else ⟨tracker.val - 7, by have := tracker.isLt; omega⟩

/-- The tracker channel of a driver channel. -/
def trackerChannel (driver : Fin channelCount) : Fin channelCount :=
  if h : driver.val < 6 then ⟨driver.val + 7, by unfold channelCount; omega⟩
  else ⟨driver.val - 6, by have := driver.isLt; omega⟩

/-- Data of all channels, from the order of the tracker to that of the driver. -/
def toDriverOrder {α : Type} (channels : Vector α channelCount) : Vector α channelCount :=
  Vector.ofFn fun driver => channels[trackerChannel driver]

/-- Data of all channels, from the order of the driver to that of the tracker. -/
def toTrackerOrder {α : Type} (channels : Vector α channelCount) : Vector α channelCount :=
  Vector.ofFn fun tracker => channels[driverChannel tracker]

/-- A note of the driver. -/
structure DriverNote where
  value : UInt8
  /-- Whether the note was below the range of its channel. -/
  clamped : Bool
  deriving DecidableEq, Repr

namespace VoiceKind

/-- The volume of a tracker channel on the scale of the driver. -/
def volume (kind : VoiceKind) (volume : UInt8) : UInt8 :=
  match kind with
  | .adpcmA => volume <<< 3
  | .fm => volume <<< 1
  | .ssg => volume <<< 4

/-- The lowest octave of the SSG channels. -/
def lowestOctave : Nat := 2

/-- A driver note of a value, if it fits into a byte. -/
def exactNote? (value : Nat) : Option DriverNote :=
  if value < 256 then some ⟨value.toUInt8, false⟩ else none

/-- The driver note of a note below 12, or of a note that the tracker does not
write. -/
def plainNote? (kind : VoiceKind) (note octave : Nat) : Option DriverNote :=
  match kind with
  | .fm => exactNote? (note ||| octave <<< 4)
  | .ssg =>
    if octave < lowestOctave then some ⟨0, true⟩
    else exactNote? ((octave - lowestOctave) * 12 + note)
  | .adpcmA => exactNote? note

/-- The driver note of a tracker note, if there is one. Octaves end at 255. -/
def note? (kind : VoiceKind) (note octave : UInt8) : Option DriverNote :=
  if note = 12 then
    if octave = 255 then none else kind.plainNote? 0 (octave.toNat + 1)
  else kind.plainNote? note.toNat octave.toNat

end VoiceKind
end Chiptune
