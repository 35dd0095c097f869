/-
# Reading data from JSON text

Readings of numbers, texts, lists and records straight from text, with the
first fault met from left to right. Where something else stands than what is
read, a number, string or word is taken in first, so that a fault within it
comes before the mismatch.

A record is written as an object or as an array of its fields in order. In an
object, members that are not fields are passed over, and a field may stand
only once. In an array, the last fields may be left out and nothing may
follow them. Fields that are left out keep their defaults, except those that
are required.

Key definitions: `Json.readNat`, `Json.readList`, `Json.Field`,
`Json.readRecord`.
-/
import Chiptune.Json.Parser

namespace Chiptune
namespace Json

open Token

/-- A reading that does not accept what stands here. -/
def refuse {α : Type} (cs : List Char) : Except Fault (α × List Char) :=
  match cs with
  | '[' :: _ => .error .mismatch
  | '\x7b' :: _ => .error .mismatch
  | cs => do
    let _ ← scalar cs
    .error .mismatch

/-- A number. -/
def readNumeral : Read Numeral := fun cs =>
  match skipBlanks cs with
  | [] => .error .ended
  | c :: rest => if startsNumber c then Token.number (c :: rest) else refuse (c :: rest)

/-- The value of a number. -/
def readReal : Read Binary64 := fun cs => do
  let (n, cs) ← readNumeral cs
  match n.value? with
  | none => .error .malformed
  | some x => .ok (x, cs)

/-- A natural number below a limit, written without fraction or exponent. -/
def readNat (limit : Nat) : Read Nat := fun cs => do
  let (n, cs) ← readNumeral cs
  match n.toNat? with
  | none => .error .mismatch
  | some k => if k < limit then .ok (k, cs) else .error .mismatch

/-- A number below 256. -/
def readByte : Read UInt8 := fun cs => do
  let (n, cs) ← readNat 256 cs
  .ok (n.toUInt8, cs)

/-- A text. -/
def readText : Read String := fun cs =>
  match skipBlanks cs with
  | [] => .error .ended
  | '\x22' :: rest => Token.string rest
  | cs => refuse cs

/-- A value or `null`. -/
def readOption {α : Type} (read : Read α) : Read (Option α) := fun cs =>
  match skipBlanks cs with
  | 'n' :: rest => do .ok (none, ← word ['u', 'l', 'l'] rest)
  | cs => do
    let (a, cs) ← read cs
    .ok (some a, cs)

/-- An array. -/
def readList {α : Type} (read : Read α) : Read (List α) := fun cs =>
  match skipBlanks cs with
  | [] => .error .ended
  | '[' :: rest => do
    let step (items : List α) : Read (List α) := fun cs => do
      let (item, cs) ← read cs
      .ok (item :: items, cs)
    let (items, rest) ← walkItems step ('[' :: rest) [] true rest
    .ok (items.reverse, rest)
  | cs => refuse cs

/-! ### Records -/

/-- A field of a record: its name, how reading it changes the record, and
whether it has to be there. -/
structure Field (σ : Type) where
  name : String
  read : σ → Read σ
  isRequired : Bool := false

/-- A field that is set to what a reading finds. -/
def field {σ α : Type} (name : String) (read : Read α) (set : σ → α → σ) : Field σ :=
  { name := name
    read := fun state cs => do
      let (a, cs) ← read cs
      .ok (set state a, cs) }

/-- The same field, which has to be there. -/
def Field.required {σ : Type} (f : Field σ) : Field σ := { f with isRequired := true }

/-- The fields of a record in their order, up to the end of the array. -/
def readInOrder {σ : Type} (state : σ) (first : Bool) (cs : List Char) :
    List (Field σ) → Except Fault (σ × List Char)
  | [] => do .ok (state, ← closeArray cs)
  | f :: rest => do
    let (more, cs) ← nextItem first cs
    if more then
      let (state, cs) ← f.read state cs
      readInOrder state false cs rest
    else if f.isRequired then .error .mismatch
    else readInOrder state first cs rest

/-- The member of a record with a key. The state also holds the names of the
fields read before it. -/
def readMember {σ : Type} (fields : List (Field σ)) (state : σ × List String) (key : String) :
    Read (σ × List String) := fun cs =>
  match fields.find? fun f => f.name == key with
  | none => do .ok (state, ← skip (← colon cs))
  | some f =>
    if state.2.contains key then .error .mismatch
    else do
      let (record, cs) ← f.read state.1 (← colon cs)
      .ok ((record, key :: state.2), cs)

/-- A record, whose fields have the given defaults. -/
def readRecord {σ : Type} (defaults : σ) (fields : List (Field σ)) : Read σ := fun cs =>
  match skipBlanks cs with
  | [] => .error .ended
  | '[' :: rest => readInOrder defaults true rest fields
  | '\x7b' :: rest => do
    let ((record, names), rest) ←
      walkMembers (readMember fields) ('\x7b' :: rest) (defaults, []) true rest
    if fields.all fun f => !f.isRequired || names.contains f.name then .ok (record, rest)
    else .error .mismatch
  | cs => refuse cs

end Json
end Chiptune
