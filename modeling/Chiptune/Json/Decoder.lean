/-
# Taking JSON values apart

A decoder takes a value to a datum; a value of another shape is a mismatch.

A record is written as an object, where members that are not fields are
passed over and a field may stand only once, or as an array of its fields in
order, whose last ones may be left out.

Key definitions: `Json.Decoder`, `Json.fields`, `Json.optional`.
-/
import Chiptune.Json.Basic

namespace Chiptune
namespace Json

/-- A reading of values of one shape. -/
abbrev Decoder (α : Type) := Json → Except Fault α

/-- A number below 256, written without fraction or exponent. -/
def decodeByte : Decoder UInt8
  | .number n =>
    match n.toNat? with
    | some k => if k < 256 then .ok k.toUInt8 else .error .mismatch
    | none => .error .mismatch
  | _ => .error .mismatch

/-- A truth value. -/
def decodeBool : Decoder Bool
  | .bool b => .ok b
  | _ => .error .mismatch

/-- A value or `null`. -/
def decodeOption {α : Type} (decode : Decoder α) : Decoder (Option α)
  | .null => .ok none
  | json => do return some (← decode json)

/-- An array. -/
def decodeList {α : Type} (decode : Decoder α) : Decoder (List α)
  | .array items => items.mapM decode
  | _ => .error .mismatch

/-- The one member with a key, if there is one. -/
def member? (members : List (String × Json)) (key : String) : Except Fault (Option Json) :=
  match members.filter fun m => m.1 == key with
  | [] => .ok none
  | [m] => .ok (some m.2)
  | _ => .error .mismatch

/-- The fields of a record, in the order of their names. -/
def fields (names : List String) : Json → Except Fault (List (Option Json))
  | .array items =>
    if names.length < items.length then .error .mismatch
    else .ok (items.map some ++ List.replicate (names.length - items.length) none)
  | .object members => names.mapM (member? members)
  | _ => .error .mismatch

/-- A field with a default. -/
def optional {α : Type} (default : α) (decode : Decoder α) : Option Json → Except Fault α
  | none => .ok default
  | some json => decode json

end Json
end Chiptune
