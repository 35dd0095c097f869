/-
# Tokens of JSON text

Readers take a text to what stands at its start and the rest. A text that
stops in the middle of a token has `ended`; any other departure from the
grammar is `malformed`.

Numbers and strings can be read or passed over. A number that is read has to
be in range, and one that the end of the text cuts short has `ended`; passed
over, its form alone counts, and a cut number is `malformed`. A string that is
read has to have a text: a pair of surrogate escapes is one character, half a
pair is `malformed`. Passed over, its escapes count one by one.

Key definitions: `Json.Read`, `Json.Token.number`, `Json.Token.string`.
-/
import Chiptune.Json.Basic

namespace Chiptune
namespace Json

/-- A reading from the start of a text: what was read, and the rest. -/
abbrev Read (α : Type) := List Char → Except Fault (α × List Char)

namespace Token

/-- Blanks between tokens. -/
def isBlank (c : Char) : Bool := c == ' ' || c == '\n' || c == '\r' || c == '\t'

/-- The text from the next token on. -/
def skipBlanks (cs : List Char) : List Char := cs.dropWhile isBlank

/-- The rest after a fixed word. -/
def word : List Char → List Char → Except Fault (List Char)
  | [], cs => .ok cs
  | _ :: _, [] => .error .ended
  | w :: ws, c :: cs => if c = w then word ws cs else .error .malformed

/-! ### Numbers -/

/-- Whether a character starts a number. -/
def startsNumber (c : Char) : Bool := c == '-' || c.isDigit

/-- Leading digits and the rest. -/
def digits (cs : List Char) : List Nat × List Char :=
  ((cs.takeWhile Char.isDigit).map fun c => c.toNat - 48, cs.dropWhile Char.isDigit)

/-- Leading digits, one at least; `cut` is the fault when the text ends. -/
def someDigits (cut : Fault) (cs : List Char) : Except Fault (List Nat × List Char) :=
  match digits cs with
  | ([], []) => .error cut
  | ([], _) => .error .malformed
  | found => .ok found

/-- The whole part: no zero in front of other digits. -/
def wholePart (cut : Fault) (cs : List Char) : Except Fault (List Nat × List Char) := do
  match ← someDigits cut cs with
  | (0 :: _ :: _, _) => .error .malformed
  | found => .ok found

/-- The fraction, empty without a point. -/
def fractionPart (cut : Fault) : List Char → Except Fault (List Nat × List Char)
  | '.' :: cs => someDigits cut cs
  | cs => .ok ([], cs)

/-- The exponent, if there is one. -/
def exponentPart (cut : Fault) : List Char → Except Fault (Option Int × List Char)
  | [] => .ok (none, [])
  | c :: cs => do
    if c = 'e' ∨ c = 'E' then
      let (negative, cs) := match cs with
        | '-' :: cs => (true, cs)
        | '+' :: cs => (false, cs)
        | cs => (false, cs)
      let (ds, cs) ← someDigits cut cs
      let n : Nat := ds.foldl (fun m d => 10 * m + d) 0
      .ok (some (if negative then -(n : Int) else n), cs)
    else .ok (none, c :: cs)

/-- The form of a number; `cut` is the fault when the text ends within it. -/
def numeral (cut : Fault) (cs : List Char) : Except Fault (Numeral × List Char) := do
  let (negative, cs) := match cs with
    | '-' :: cs => (true, cs)
    | cs => (false, cs)
  let (whole, cs) ← wholePart cut cs
  let (fraction, cs) ← fractionPart cut cs
  let (exponent, cs) ← exponentPart cut cs
  .ok (⟨negative, whole, fraction, exponent⟩, cs)

/-- A number. -/
def number (cs : List Char) : Except Fault (Numeral × List Char) := do
  let (n, cs) ← numeral .ended cs
  if n.inRange then .ok (n, cs) else .error .malformed

/-- The rest after a number that is passed over. -/
def skipNumber (cs : List Char) : Except Fault (List Char) := do
  let (_, cs) ← numeral .malformed cs
  .ok cs

/-! ### Strings -/

/-- The value of a hexadecimal digit of either case. -/
def hexValue? (c : Char) : Option Nat :=
  if c.isDigit then some (c.toNat - 48)
  else if 'a' ≤ c ∧ c ≤ 'f' then some (c.toNat - 87)
  else if 'A' ≤ c ∧ c ≤ 'F' then some (c.toNat - 55)
  else none

/-- The 16-bit unit that four hexadecimal digits name. -/
def unit? (a b c d : Char) : Option Nat := do
  return ((16 * (← hexValue? a) + (← hexValue? b)) * 16 + (← hexValue? c)) * 16 + (← hexValue? d)

/-- Whether a unit is the first half of a surrogate pair. -/
def isHigh (u : Nat) : Bool := 0xD800 ≤ u && u < 0xDC00

/-- Whether a unit is the second half of a surrogate pair. -/
def isLow (u : Nat) : Bool := 0xDC00 ≤ u && u < 0xE000

/-- The character of a surrogate pair. -/
def pairChar (high low : Nat) : Char :=
  Char.ofNat (0x10000 + (high - 0xD800) * 0x400 + (low - 0xDC00))

/-- The character that a one-letter escape stands for. -/
def escape? : Char → Option Char
  | '\x22' => some '\x22'
  | '\\' => some '\\'
  | '/' => some '/'
  | 'b' => some '\x08'
  | 'f' => some '\x0c'
  | 'n' => some '\n'
  | 'r' => some '\r'
  | 't' => some '\t'
  | _ => none

/-- The number of bytes of a text in UTF-8. -/
def utf8Size (cs : List Char) : Nat := cs.foldl (fun n c => n + c.utf8Size) 0

/-- The fault of a `\u` escape with less than four characters after it: the
text has ended when they take less than four bytes. -/
def shortEscape (cs : List Char) : Fault := if utf8Size cs < 4 then .ended else .malformed

/-- The rest of a string after its opening quote: `done` holds the characters
so far, last first, and `high` a first surrogate that needs its second. -/
def stringFrom (done : List Char) (high : Option Nat) :
    List Char → Except Fault (String × List Char)
  | [] => .error .ended
  | '\\' :: 'u' :: a :: b :: c :: d :: rest =>
    match unit? a b c d, high with
    | none, _ => .error .malformed
    | some u, some h =>
      if isLow u then stringFrom (pairChar h u :: done) none rest else .error .malformed
    | some u, none =>
      if isHigh u then stringFrom done (some u) rest
      else if isLow u then .error .malformed
      else stringFrom (Char.ofNat u :: done) none rest
  | '\\' :: 'u' :: rest => .error (shortEscape rest)
  | ['\\'] => .error .ended
  | '\\' :: c :: rest =>
    match escape? c, high with
    | some e, none => stringFrom (e :: done) none rest
    | _, _ => .error .malformed
  | c :: rest =>
    if high.isSome || c.toNat < 0x20 then .error .malformed
    else if c = '\x22' then .ok (String.ofList done.reverse, rest)
    else stringFrom (c :: done) none rest

/-- A string, from after its opening quote. -/
def string (cs : List Char) : Except Fault (String × List Char) := stringFrom [] none cs

/-- The rest after a string that is passed over, from after its opening quote. -/
def skipString : List Char → Except Fault (List Char)
  | [] => .error .ended
  | '\\' :: 'u' :: a :: b :: c :: d :: rest =>
    if (unit? a b c d).isSome then skipString rest else .error .malformed
  | '\\' :: 'u' :: rest => .error (shortEscape rest)
  | ['\\'] => .error .ended
  | '\\' :: c :: rest => if (escape? c).isSome then skipString rest else .error .malformed
  | c :: rest =>
    if c.toNat < 0x20 then .error .malformed
    else if c = '\x22' then .ok rest
    else skipString rest

end Token
end Json
end Chiptune
