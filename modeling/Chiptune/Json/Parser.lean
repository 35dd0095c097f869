/-
# Reading JSON text

Text is read from left to right, and the first fault met is the fault of the
text. The walks here go through arrays and objects and hand each item and
member to a step; whole values and records are read by such steps. A value
that nobody asked for is passed over, however deep it is.

The number of steps of a walk is bounded by the characters at its start: each
step takes one at least, so that after as many steps the text has ended.

Key definitions: `Json.walkItems`, `Json.walkMembers`, `Json.skip`,
`Json.value`, `Json.parse`.
-/
import Chiptune.Json.Token

namespace Chiptune
namespace Json

open Token

/-! ### Arrays and objects -/

/-- Whether another item follows within an array, and the text at it or at the
closing bracket. -/
def nextItem (first : Bool) (cs : List Char) : Except Fault (Bool × List Char) :=
  match skipBlanks cs, first with
  | [], _ => .error .ended
  | ']' :: rest, _ => .ok (false, ']' :: rest)
  | cs, true => .ok (true, cs)
  | ',' :: rest, false =>
    match skipBlanks rest with
    | [] => .error .ended
    | ']' :: _ => .error .malformed
    | cs => .ok (true, cs)
  | _, false => .error .malformed

/-- The rest after the bracket that closes an array. -/
def closeArray (cs : List Char) : Except Fault (List Char) :=
  match skipBlanks cs with
  | [] => .error .ended
  | ']' :: rest => .ok rest
  | _ => .error .malformed

/-- Goes through the items of an array, from after its opening bracket when
`first` is set and from after an item otherwise. -/
def walkItems {σ : Type} (step : σ → Read σ) (bound : List Char) (state : σ) (first : Bool)
    (cs : List Char) : Except Fault (σ × List Char) :=
  match bound with
  | [] => .error .ended
  | _ :: bound => do
    let (more, cs) ← nextItem first cs
    if more then
      let (state, cs) ← step state cs
      walkItems step bound state false cs
    else .ok (state, ← closeArray cs)

/-- The key of the next member of an object and the text after it, or the rest
after the object. -/
def nextKey (first : Bool) (cs : List Char) : Except Fault (Option String × List Char) :=
  match skipBlanks cs, first with
  | [], _ => .error .ended
  | '\x7d' :: rest, _ => .ok (none, rest)
  | '\x22' :: rest, true => do
    let (key, rest) ← Token.string rest
    .ok (some key, rest)
  | ',' :: rest, false =>
    match skipBlanks rest with
    | [] => .error .ended
    | '\x22' :: rest => do
      let (key, rest) ← Token.string rest
      .ok (some key, rest)
    | _ => .error .malformed
  | _, _ => .error .malformed

/-- The rest after the colon behind a key. -/
def colon (cs : List Char) : Except Fault (List Char) :=
  match skipBlanks cs with
  | [] => .error .ended
  | ':' :: rest => .ok rest
  | _ => .error .malformed

/-- Goes through the members of an object, from after its opening brace when
`first` is set. A step starts after the key, before its colon. -/
def walkMembers {σ : Type} (step : σ → String → Read σ) (bound : List Char) (state : σ)
    (first : Bool) (cs : List Char) : Except Fault (σ × List Char) :=
  match bound with
  | [] => .error .ended
  | _ :: bound => do
    let (key, cs) ← nextKey first cs
    match key with
    | none => .ok (state, cs)
    | some key =>
      let (state, cs) ← step state key cs
      walkMembers step bound state false cs

/-! ### Values that are passed over -/

/-- The containers around a place in a text. -/
inductive Container where
  | array
  | object
  deriving DecidableEq, Repr

/-- The character that closes a container. -/
def Container.close : Container → Char
  | .array => ']'
  | .object => '\x7d'

/-- The rest after what stands before the value of an item or a member: nothing
in an array, a key and its colon in an object. -/
def Container.skipKey (cs : List Char) : Container → Except Fault (List Char)
  | .array => .ok cs
  | .object =>
    match skipBlanks cs with
    | [] => .error .ended
    | '\x22' :: rest => do colon (← skipString rest)
    | _ => .error .malformed

/-- The rest after a value that is no container. -/
def skipScalar : List Char → Except Fault (List Char)
  | [] => .error .ended
  | c :: rest =>
    match c with
    | 'n' => word ['u', 'l', 'l'] rest
    | 't' => word ['r', 'u', 'e'] rest
    | 'f' => word ['a', 'l', 's', 'e'] rest
    | '\x22' => skipString rest
    | c => if startsNumber c then skipNumber (c :: rest) else .error .malformed

/-- The rest after a value and the containers around it, the innermost first.
`due` tells whether the value is still to come. -/
def skipWithin (bound : List Char) (due : Bool) (around : List Container) (cs : List Char) :
    Except Fault (List Char) :=
  match bound, due, around with
  | _, false, [] => .ok cs
  | [], _, _ => .error .ended
  | _ :: bound, true, around =>
    let enter (container : Container) (rest : List Char) : Except Fault (List Char) :=
      match skipBlanks rest with
      | [] => .error .ended
      | c :: rest => do
        if c = container.close then skipWithin bound false around rest
        else skipWithin bound true (container :: around) (← container.skipKey (c :: rest))
    match skipBlanks cs with
    | '[' :: rest => enter .array rest
    | '\x7b' :: rest => enter .object rest
    | cs => do skipWithin bound false around (← skipScalar cs)
  | _ :: bound, false, container :: around =>
    match skipBlanks cs with
    | [] => .error .ended
    | c :: rest => do
      if c = container.close then skipWithin bound false around rest
      else if c = ',' then
        skipWithin bound true (container :: around) (← container.skipKey rest)
      else .error .malformed

/-- The rest after a value that is passed over. -/
def skip (cs : List Char) : Except Fault (List Char) := skipWithin cs true [] cs

/-! ### Values that are kept -/

/-- A value that is no container. -/
def scalar : Read Json
  | [] => .error .ended
  | c :: rest => do
    match c with
    | 'n' => .ok (.null, ← word ['u', 'l', 'l'] rest)
    | 't' => .ok (.bool true, ← word ['r', 'u', 'e'] rest)
    | 'f' => .ok (.bool false, ← word ['a', 'l', 's', 'e'] rest)
    | '\x22' =>
      let (text, rest) ← Token.string rest
      .ok (.string text, rest)
    | c =>
      if startsNumber c then
        let (n, rest) ← Token.number (c :: rest)
        .ok (.number n, rest)
      else .error .malformed

/-- A value in which containers nest no deeper than `depth`. -/
def value (depth : Nat) : Read Json := fun cs =>
  match depth, skipBlanks cs with
  | 0, '[' :: _ => .error .malformed
  | 0, '\x7b' :: _ => .error .malformed
  | depth + 1, '[' :: rest => do
    let step (items : List Json) : Read (List Json) := fun cs => do
      let (item, cs) ← value depth cs
      .ok (item :: items, cs)
    let (items, rest) ← walkItems step ('[' :: rest) [] true rest
    .ok (.array items.reverse, rest)
  | depth + 1, '\x7b' :: rest => do
    let step (members : List (String × Json)) (key : String) : Read (List (String × Json)) :=
      fun cs => do
        let (item, cs) ← value depth (← colon cs)
        .ok ((key, item) :: members, cs)
    let (members, rest) ← walkMembers step ('\x7b' :: rest) [] true rest
    .ok (.object members.reverse, rest)
  | _, cs => scalar cs

/-- What a reading finds in a whole text. -/
def readAll {α : Type} (read : Read α) (text : String) : Except Fault α := do
  let (a, rest) ← read text.toList
  match skipBlanks rest with
  | [] => .ok a
  | _ => .error .malformed

/-- Containers nest this deep in a text, and no deeper. -/
def nestingLimit : Nat := 127

/-- The value of a whole text. -/
def parse (text : String) : Except Fault Json := readAll (value nestingLimit) text

end Json
end Chiptune
