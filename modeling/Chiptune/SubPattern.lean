/-
# Patterns as event lists

A pattern of a channel becomes a sub list. The list starts with a wait; each
row adds the commands that it needs, and ticks are given to the last command
before them. A row gives a note-off, a volume and an instrument that differ
from those before it, a note, and its effects, in this order. A bank selected
anywhere in a row counts for the note of the row. Rows that need no command
only let time pass. A position jump leaves the pattern at the end of its row;
otherwise the list returns to the main list.

A conversion also tells whether a note was clamped to the range of its
channel on the way, whether it succeeds or not.

Key definitions: `SubPattern.rowCommands`, `SubPattern.walk`,
`SubPattern.ofPattern`.
-/
import Chiptune.Event
import Chiptune.Tracker.Module
import Chiptune.Voice

namespace Chiptune
namespace SubPattern

open Tracker

/-- Tick counts stay below this number. -/
def tickLimit : Nat := 0x100000000

/-- The ticks of the row with an index. -/
def rowTicks (time : TimeInfo) (index : Nat) : Nat :=
  (if index % 2 = 0 then time.evenTicks else time.oddTicks) * time.timeBase

/-- What earlier rows have set. -/
structure Setting where
  volume : Option UInt8 := none
  instrument : Option UInt8 := none
  bank : UInt8 := 0
  deriving DecidableEq, Repr

/-- The sample bank after the effects of a row. -/
def bankAfter (bank : UInt8) (effects : List Effect) : UInt8 :=
  effects.foldl (fun b fx => if fx.code = Effect.setSampleBank then fx.value.getD b else b) bank

/-- The volume command of a row. -/
def volumeCommand (kind : VoiceKind) (setting : Setting) (row : Row) : List Command :=
  match row.volume with
  | none => []
  | some volume =>
    if setting.volume = some volume then [] else [.setVolume (kind.volume volume)]

/-- The instrument command of a row; ADPCM-A channels keep their instrument. -/
def instrumentCommand (kind : VoiceKind) (setting : Setting) (row : Row) : List Command :=
  match row.instrument with
  | none => []
  | some instrument =>
    if setting.instrument = some instrument ∨ kind = .adpcmA then []
    else [.changeInstrument instrument]

/-- The note and octave that a row plays. -/
def played? (row : Row) : Option (UInt8 × UInt8) :=
  match row.note, row.octave with
  | some note, some octave => if row.isNoteOff then none else some (note, octave)
  | _, _ => none

/-- Whether the note of a row is below the range of its channel. -/
def clamps (kind : VoiceKind) (row : Row) : Bool :=
  match played? row with
  | none => false
  | some (note, octave) =>
    match kind.note? note octave with
    | none => false
    | some converted => converted.clamped

/-- The pitch of a driver note: on ADPCM-A channels samples are counted in
banks of twelve. -/
def pitch? (kind : VoiceKind) (bank : UInt8) (note octave : UInt8) : Option UInt8 := do
  let converted ← kind.note? note octave
  match kind with
  | .adpcmA =>
    let value := converted.value.toNat + bank.toNat * 12
    if value < 256 then some value.toUInt8 else none
  | _ => some converted.value

/-- The note command of a row. -/
def noteCommand (channel : Nat) (bank : UInt8) (row : Row) : Except Error (List Command) :=
  match played? row with
  | none => .ok []
  | some (note, octave) =>
    match pitch? (voiceKind channel) bank note octave with
    | none => .error (.noteOutOfRange channel note octave)
    | some pitch => .ok [.note pitch]

/-- The command of an effect, if the driver has one. -/
def effectCommand? (code value : UInt8) : Option Command :=
  if code = Effect.pitchSlideUp then some (.pitchSlide .up value)
  else if code = Effect.pitchSlideDown then some (.pitchSlide .down value)
  else if code = Effect.portamento then some (.portamento value)
  else if code = Effect.setPanning then some (.setPanning (.ofEffect value))
  else if code = Effect.positionJump then some (.positionJump value.toNat)
  else none

/-- The commands of effects; those that select a bank or have no value give
none. -/
def effectCommands (channel : Nat) : List Effect → Except Error (List Command)
  | [] => .ok []
  | fx :: rest => do
    match fx.value with
    | none => effectCommands channel rest
    | some value =>
      if fx.code = Effect.setSampleBank then effectCommands channel rest
      else match effectCommand? fx.code value with
        | none => .error (.unmappedEffect channel fx.code value)
        | some command => .ok (command :: (← effectCommands channel rest))

/-- Whether an effect leaves the pattern. -/
def jumps (fx : Effect) : Bool := fx.code == Effect.positionJump && fx.value.isSome

/-- Whether a row leaves its pattern. -/
def leaves (row : Row) : Bool := row.effects.any jumps

/-- What is set after a row. -/
def Setting.after (kind : VoiceKind) (setting : Setting) (row : Row) : Setting :=
  { volume := row.volume.or setting.volume
    instrument := if kind = .adpcmA then setting.instrument else row.instrument.or setting.instrument
    bank := bankAfter setting.bank row.effects }

/-- The commands of a row. -/
def rowCommands (channel : Nat) (setting : Setting) (row : Row) : Except Error (List Command) := do
  let kind := voiceKind channel
  let note ← noteCommand channel (bankAfter setting.bank row.effects) row
  let effects ← effectCommands channel row.effects
  .ok ((if row.isNoteOff then [.noteOff] else []) ++ volumeCommand kind setting row
    ++ instrumentCommand kind setting row ++ note ++ effects)

/-- The events of a pattern from a row on. `last` is the last event so far,
whose ticks are still counted, and `clamped` whether a note was clamped. -/
def walk (channel : Nat) (time : TimeInfo) (index : Nat) (setting : Setting) (last : Event)
    (clamped : Bool) : List Row → Except Error (List Event) × Bool
  | [] => (.ok [last, ⟨.returnFromSubPattern, 0⟩], clamped)
  | row :: rest =>
    let kind := voiceKind channel
    let clamped := clamped || clamps kind row
    let ticks := rowTicks time index
    match rowCommands channel setting row with
    | .error e => (.error e, clamped)
    | .ok commands =>
      match commands.getLast? with
      | none =>
        if last.timing + ticks < tickLimit then
          walk channel time (index + 1) (setting.after kind row)
            { last with timing := last.timing + ticks } clamped rest
        else (.error (.tickOverflow channel), clamped)
      | some command =>
        if ticks < tickLimit then
          let before := last :: commands.dropLast.map fun c => ⟨c, 0⟩
          if leaves row then (.ok (before ++ [⟨command, ticks⟩]), clamped)
          else
            let (events, clamped) := walk channel time (index + 1) (setting.after kind row)
              ⟨command, ticks⟩ clamped rest
            (events.map (before ++ ·), clamped)
        else (.error (.tickOverflow channel), clamped)

/-- The event list of a pattern of a channel, and whether a note was clamped
in it or before. -/
def ofPattern (channel : Nat) (time : TimeInfo) (clamped : Bool) (pattern : Pattern) :
    Except Error EventList × Bool :=
  let (events, clamped) := walk channel time 0 {} ⟨.wait, 0⟩ clamped pattern.rows
  (events.map fun es => ⟨.sub, es⟩, clamped)

end SubPattern
end Chiptune
