/-
# What can go wrong

The causes for which a module, a song or its data is refused, and their
texts. Faults of a JSON text and of files carry no text of their own.

Key definitions: `Error`, `Error.message`.
-/
import Chiptune.Json.Basic
import Chiptune.Label

namespace Chiptune

/-- A cause of refusal. -/
inductive Error where
  | unsupportedFrequency (hz : Binary64)
  | timerOverflow (counter : Binary64)
  | tooManyInstruments (count : Nat)
  | tooManySongs (count : Nat)
  | duplicateLabel (label : Label)
  | undefinedLabel (label : Label)
  | unresolvedJump (channel row : Nat)
  | unmappedEffect (channel : Nat) (code value : UInt8)
  | noteOutOfRange (channel : Nat) (note octave : UInt8)
  | tickOverflow (channel : Nat)
  | missingPattern (channel : Nat) (pattern : UInt8)
  | dataOverflow (size limit : Nat)
  | endOfData (position : Nat)
  | addressOverflow
  | json (fault : Json.Fault)
  | file
  deriving DecidableEq

namespace Error

/-- The text of a cause. -/
def message : Error → String
  | .unsupportedFrequency hz => s!"Unsupported tick frequency: {hz.toText}Hz"
  | .timerOverflow counter => s!"Timer A counter out of range: {counter.toText}"
  | .tooManyInstruments count =>
    s!"Too many instruments: {count} (maximum supported count is 254)"
  | .tooManySongs count => s!"Too many songs: {count} (maximum supported count is 255)"
  | .duplicateLabel label => s!"Symbol '{label.name}' already exists"
  | .undefinedLabel label => s!"Symbol '{label.name}' doesn't exist"
  | .unresolvedJump channel row =>
    s!"Position jump on channel {channel} targets missing matrix row {row}"
  | .unmappedEffect channel code value =>
    "Effect " ++ Hex.padded 2 code.toNat ++ Hex.padded 2 value.toNat
      ++ s!" on channel {channel} has no driver equivalent"
  | .noteOutOfRange channel note octave =>
    s!"Note {note.toNat} at octave {octave.toNat} on channel {channel} doesn't fit in a driver note"
  | .tickOverflow channel => s!"Tick count overflow on channel {channel}"
  | .missingPattern channel pattern =>
    "Pattern " ++ Hex.padded 2 pattern.toNat ++ s!" of channel {channel} is missing"
  | .dataOverflow size limit =>
    s!"Compiled sound data overflow: {size} bytes (maximum is {limit})"
  | .endOfData position =>
    "Bytecode decode error: unexpected end of data at 0x" ++ Hex.padded 4 position
  | .addressOverflow => "Address out of range"
  | .json _ => "Invalid module"
  | .file => "File not accessible"

end Error
end Chiptune
