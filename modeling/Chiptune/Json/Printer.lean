/-
# Writing JSON text

Two layouts: compact, with no blanks at all, and indented, with every item
and member on a line of its own, two spaces deeper than its container, and a
blank after each colon. Empty containers are closed at once in both. Strings
escape the quote, the backslash and control characters.

Key definitions: `Json.Layout`, `Json.render`.
-/
import Chiptune.Json.Basic
import Chiptune.Text.Hex

namespace Chiptune
namespace Json

/-- How values are laid out. -/
inductive Layout where
  | compact
  | indented
  deriving DecidableEq, Repr

namespace Printer

/-- The escaped form of a character. -/
def escape (c : Char) : String :=
  if c = '\x22' then "\\\""
  else if c = '\\' then "\\\\"
  else if c = '\x08' then "\\b"
  else if c = '\x0c' then "\\f"
  else if c = '\n' then "\\n"
  else if c = '\r' then "\\r"
  else if c = '\t' then "\\t"
  else if c.toNat < 0x20 then "\\u" ++ (Hex.padded 4 c.toNat).toLower
  else c.toString

/-- A text between quotes. -/
def quoted (text : String) : String :=
  text.foldl (fun out c => out ++ escape c) "\"" ++ "\""

/-- A numeral. -/
def numeral (n : Numeral) : String :=
  let shown (ds : List Nat) : String := String.ofList (ds.map fun d => Char.ofNat (48 + d))
  (if n.negative then "-" else "") ++ shown n.whole
    ++ (if n.fraction.isEmpty then "" else "." ++ shown n.fraction)
    ++ (match n.exponent with
      | none => ""
      | some e => "e" ++ toString e)

/-- The start of an item at a depth. -/
def freshLine (layout : Layout) (depth : Nat) (out : String) : String :=
  match layout with
  | .compact => out
  | .indented => out ++ "\n" ++ "".pushn ' ' (2 * depth)

/-- What stands between a key and its value. -/
def colon : Layout → String
  | .compact => ":"
  | .indented => ": "

mutual

/-- The text `out` followed by a value. -/
def value (layout : Layout) (depth : Nat) (out : String) : Json → String
  | .null => out ++ "null"
  | .bool b => out ++ (if b then "true" else "false")
  | .number n => out ++ numeral n
  | .string text => out ++ quoted text
  | .array [] => out ++ "[]"
  | .array (item :: rest) =>
    let first := value layout (depth + 1) (freshLine layout (depth + 1) (out ++ "[")) item
    freshLine layout depth (items layout (depth + 1) first rest) ++ "]"
  | .object [] => out ++ "\x7b\x7d"
  | .object (m :: rest) =>
    let first := member layout (depth + 1) (freshLine layout (depth + 1) (out ++ "\x7b")) m
    freshLine layout depth (members layout (depth + 1) first rest) ++ "\x7d"

/-- The text `out` followed by the later items of an array. -/
def items (layout : Layout) (depth : Nat) (out : String) : List Json → String
  | [] => out
  | item :: rest =>
    items layout depth (value layout depth (freshLine layout depth (out ++ ",")) item) rest

/-- The text `out` followed by a member. -/
def member (layout : Layout) (depth : Nat) (out : String) : String × Json → String
  | (key, item) => value layout depth (out ++ quoted key ++ colon layout) item

/-- The text `out` followed by the later members of an object. -/
def members (layout : Layout) (depth : Nat) (out : String) : List (String × Json) → String
  | [] => out
  | m :: rest =>
    members layout depth (member layout depth (freshLine layout depth (out ++ ",")) m) rest

end

end Printer

/-- The text of a value. -/
def render (layout : Layout) (json : Json) : String := Printer.value layout 0 "" json

end Json
end Chiptune
