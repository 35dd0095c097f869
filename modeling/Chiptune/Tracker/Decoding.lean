/-
# Reading modules from JSON

The readings of a module and its parts. All fields have defaults, except
those of the time information, the columns of the matrix, the rows of a
pattern and the code of an effect. Tick counts are below `2 ^ 32`, all other
integers below 256.

An instrument names its kind in the member `kind`, which may stand anywhere,
or as the first item of its array form. Its other members are read as values
before they are looked at, those that are no fields too; within them
containers nest no deeper than the text as a whole allows.

Key definitions: `Tracker.Module.parse`, `Tracker.Instrument.read`,
`Tracker.Row.read`.
-/
import Chiptune.Json.Decoder
import Chiptune.Json.Record
import Chiptune.Tracker.Module

namespace Chiptune
namespace Tracker

open Json

/-- A tick count. -/
def readTicks : Read Nat := readNat 0x100000000

/-- The time information. -/
def TimeInfo.read : Read TimeInfo :=
  readRecord {}
    [ (field "hz_value" readReal fun t x => { t with frequency := x }).required
    , (field "tick_time_1" readTicks fun t n => { t with evenTicks := n }).required
    , (field "tick_time_2" readTicks fun t n => { t with oddTicks := n }).required
    , (field "time_base" readTicks fun t n => { t with timeBase := n }).required ]

/-- An effect. -/
def Effect.read : Read Effect :=
  readRecord { code := 0 }
    [ (field "code" readByte fun fx n => { fx with code := n }).required
    , field "value" (readOption readByte) fun fx n => { fx with value := n } ]

/-- A row. -/
def Row.read : Read Row :=
  readRecord {}
    [ field "note" (readOption readByte) fun r n => { r with note := n }
    , field "octave" (readOption readByte) fun r n => { r with octave := n }
    , field "volume" (readOption readByte) fun r n => { r with volume := n }
    , field "instrument" (readOption readByte) fun r n => { r with instrument := n }
    , field "effects" (readList Effect.read) fun r fxs => { r with effects := fxs } ]

/-- A pattern. -/
def Pattern.read : Read Pattern :=
  readRecord { rows := [] }
    [ (field "rows" (readList Row.read) fun _ rows => { rows := rows }).required ]

/-- The columns of the pattern matrix. -/
def readMatrix : Read (List (Option (List UInt8))) :=
  readRecord []
    [ (field "matrix" (readList (readOption (readList readByte))) fun _ m => m).required ]

/-- An operator of an FM instrument. -/
def FmOperator.decode : Decoder FmOperator := fun json => do
  let names := ["am", "ar", "dr", "sr", "rr", "sl", "tl", "ks", "mul", "dt", "ssg_eg"]
  match ← fields names json with
  | [am, ar, dr, sr, rr, sl, tl, ks, mul, dt, ssgEg] =>
    let part := optional 0 decodeByte
    return { am := ← part am, ar := ← part ar, dr := ← part dr, sr := ← part sr
             rr := ← part rr, sl := ← part sl, tl := ← part tl, ks := ← part ks
             mul := ← part mul, dt := ← part dt, ssgEg := ← part ssgEg }
  | _ => .error .mismatch

/-- Four operators, no more and no less. -/
def decodeOperators : Decoder (Vector FmOperator 4) := fun json => do
  let operators ← decodeList FmOperator.decode json
  if h : operators.length = 4 then return ⟨operators.toArray, h⟩ else .error .mismatch

/-- The fields of an FM instrument. -/
def FmInstrument.decode : Decoder FmInstrument := fun json => do
  match ← fields ["algorithm", "feedback", "ams", "fms", "operators"] json with
  | [algorithm, feedback, ams, fms, operators] =>
    let part := optional 0 decodeByte
    return { algorithm := ← part algorithm
             feedback := ← part feedback
             ams := ← part ams
             fms := ← part fms
             operators := ← optional (Vector.replicate 4 {}) decodeOperators operators }
  | _ => .error .mismatch

/-- An envelope. -/
def Envelope.decode : Decoder Envelope := fun json => do
  match ← fields ["values", "loop_point"] json with
  | [values, loopPoint] =>
    return { values := ← optional [] (decodeList decodeByte) values
             loopPoint := ← optional none (decodeOption decodeByte) loopPoint }
  | _ => .error .mismatch

/-- The fields of an SSG instrument. -/
def SsgInstrument.decode : Decoder SsgInstrument := fun json => do
  let names := ["tone", "noise", "volume_macro", "arpeggio_macro", "mixing_macro"]
  match ← fields names json with
  | [tone, noise, volume, arpeggio, mixing] =>
    let flag := optional false decodeBool
    let envelope := optional none (decodeOption Envelope.decode)
    return { tone := ← flag tone
             noise := ← flag noise
             volume := ← envelope volume
             arpeggio := ← envelope arpeggio
             mixing := ← envelope mixing }
  | _ => .error .mismatch

namespace Instrument

/-- The kinds of instruments. -/
inductive Kind where
  | fm
  | ssg
  deriving DecidableEq, Repr

/-- Containers may nest this deep within a member of an instrument: the
instrument itself lies in a list within the module. -/
def nestingLimit : Nat := Json.nestingLimit - 3

/-- The name of a kind. -/
def Kind.read : Read Kind := fun cs => do
  let (name, cs) ← readText cs
  match name with
  | "fm" => .ok (.fm, cs)
  | "ssg" => .ok (.ssg, cs)
  | _ => .error .mismatch

/-- The instrument of a kind with the given fields. -/
def ofFields (fields : Json) : Kind → Except Fault Instrument
  | .fm => do return .fm (← FmInstrument.decode fields)
  | .ssg => do return .ssg (← SsgInstrument.decode fields)

/-- An item after the kind; the state holds the items before it, last first. -/
def readItem (items : List Json) : Read (List Json) := fun cs => do
  let (item, cs) ← value nestingLimit cs
  .ok (item :: items, cs)

/-- The member with a key; the state holds the kind, if it was there, and the
other members before it, last first. -/
def readMember (state : Option Kind × List (String × Json)) (key : String) :
    Read (Option Kind × List (String × Json)) := fun cs => do
  if key = "kind" then
    if state.1.isSome then .error .mismatch
    else
      let (kind, cs) ← Kind.read (← colon cs)
      .ok ((some kind, state.2), cs)
  else
    let (item, cs) ← value nestingLimit (← colon cs)
    .ok ((state.1, (key, item) :: state.2), cs)

/-- An instrument. -/
def read : Read Instrument := fun cs =>
  match Token.skipBlanks cs with
  | [] => .error .ended
  | '[' :: rest => do
    let (more, cs) ← nextItem true rest
    if more then
      let (kind, cs) ← Kind.read cs
      let (items, cs) ← walkItems readItem ('[' :: rest) [] false cs
      .ok (← ofFields (.array items.reverse) kind, cs)
    else .error .mismatch
  | '\x7b' :: rest => do
    match ← walkMembers readMember ('\x7b' :: rest) (none, []) true rest with
    | ((none, _), _) => .error .mismatch
    | ((some kind, members), cs) => .ok (← ofFields (.object members.reverse) kind, cs)
  | cs => refuse cs

end Instrument

/-- A sample. -/
def Sample.read : Read Sample :=
  readRecord {}
    [ field "name" readText fun s name => { s with name := name }
    , field "data" (readList readByte) fun s data => { s with data := data } ]

namespace Module

/-- A module. -/
def read : Read Module :=
  readRecord {}
    [ field "time_info" TimeInfo.read fun m t => { m with timeInfo := t }
    , field "pattern_matrix" readMatrix fun m columns => { m with matrix := columns }
    , field "patterns" (readList (readList Pattern.read)) fun m ps => { m with patterns := ps }
    , field "instruments" (readList Instrument.read) fun m is => { m with instruments := is }
    , field "samples" (readList Sample.read) fun m ss => { m with samples := ss } ]

/-- The module of a JSON text. -/
def parse (text : String) : Except Fault Module := readAll read text

end Module
end Tracker
end Chiptune
