/-
# Command lines

Options have a long name and may have a letter; some take a value, a path or
a number. A long option is written `--name value` or `--name=value`. Letters
may be joined behind one dash, the last one with its value attached, attached
behind an equals sign, or as the next argument. A value that is an argument of
its own does not start with a dash, unless it is the dash alone. After `--`
all arguments are inputs. No option may be given twice.

Arguments are read from left to right, and reading stops at the first that is
wrong or asks for help. What is missing is found only at the end.

Key definitions: `Tool.OptionSpec`, `Tool.CommandLine`, `Tool.scan`.
-/

namespace Chiptune
namespace Tool

/-- A number below `2 ^ 64` in decimal digits, with an optional plus sign. -/
def number? (text : String) : Option Nat :=
  let digits := match text.toList with
    | '+' :: rest => rest
    | digits => digits
  if digits.isEmpty || !digits.all Char.isDigit then none
  else
    let n := digits.foldl (fun n c => 10 * n + (c.toNat - 48)) 0
    if n < 0x10000000000000000 then some n else none

/-- A path; the empty text is none. -/
def path? (text : String) : Option String := if text.isEmpty then none else some text

/-- The kinds of values that options take. -/
inductive ValueKind where
  | path
  | number
  deriving DecidableEq, Repr

/-- Whether a text is a value of a kind. -/
def ValueKind.accepts (text : String) : ValueKind → Bool
  | .path => (path? text).isSome
  | .number => (number? text).isSome

/-- An option of a tool, with the kind of its value if it takes one. -/
structure OptionSpec where
  long : String
  letter : Option Char := none
  value : Option ValueKind := none
  deriving DecidableEq, Repr

/-- What stands on a command line: options with their values, and inputs. -/
structure CommandLine where
  options : List (String × String) := []
  inputs : List String := []
  deriving DecidableEq, Repr

/-- The outcome of reading a command line: it may be wrong, or ask for help. -/
inductive Scan where
  | wrong
  | help
  | found (line : CommandLine)
  deriving DecidableEq, Repr

namespace CommandLine

/-- The value of an option. -/
def value? (line : CommandLine) (long : String) : Option String := line.options.lookup long

/-- Whether an option is given. -/
def has (line : CommandLine) (long : String) : Bool := (line.value? long).isSome

/-- The line with one more option, unless it is there already. -/
def add? (line : CommandLine) (long value : String) : Option CommandLine :=
  if line.has long then none
  else some { line with options := line.options ++ [(long, value)] }

/-- The line with more inputs, unless one of them is no path. -/
def addInputs? (line : CommandLine) (inputs : List String) : Option CommandLine :=
  if inputs.all fun input => (path? input).isSome then
    some { line with inputs := line.inputs ++ inputs }
  else none

end CommandLine

/-- Long names that every tool answers with a text of its own. -/
def helpNames : List String := ["help", "version"]

/-- Letters that every tool answers with a text of its own. -/
def helpLetters : List Char := ['h', 'V']

/-- Whether an argument can be the value of the option before it. -/
def isValue (argument : String) : Bool := argument == "-" || !argument.startsWith "-"

/-- How an argument goes on: it is read, it needs the next argument as a value,
or reading stops. -/
inductive Step where
  | next (line : CommandLine)
  | needsValue (long : String) (kind : ValueKind) (line : CommandLine)
  | stop (scan : Scan)

/-- Goes on with a line, if there is one. -/
def Step.ofOption : Option CommandLine → Step
  | none => .stop .wrong
  | some line => .next line

/-- The line with one more option that takes a value. -/
def addValue? (line : CommandLine) (long value : String) (kind : ValueKind) :
    Option CommandLine :=
  if kind.accepts value then line.add? long value else none

/-- A long option, given without its dashes. -/
def longStep (specs : List OptionSpec) (line : CommandLine) (argument : List Char) : Step :=
  let name := String.ofList (argument.takeWhile (· != '='))
  let attached := argument.dropWhile (· != '=')
  match specs.find? fun spec => spec.long == name with
  | none => .stop (if helpNames.contains name && attached.isEmpty then .help else .wrong)
  | some spec =>
    match spec.value, attached with
    | some kind, [] => .needsValue name kind line
    | some kind, _ :: value => .ofOption (addValue? line name (String.ofList value) kind)
    | none, [] => .ofOption (line.add? name "")
    | none, _ :: _ => .stop .wrong

/-- Joined letters, given without their dash. -/
def letterStep (specs : List OptionSpec) (line : CommandLine) : List Char → Step
  | [] => .next line
  | letter :: rest =>
    match specs.find? fun spec => spec.letter == some letter with
    | none => .stop (if helpLetters.contains letter then .help else .wrong)
    | some spec =>
      match spec.value with
      | some kind =>
        match rest with
        | [] => .needsValue spec.long kind line
        | '=' :: value => .ofOption (addValue? line spec.long (String.ofList value) kind)
        | value => .ofOption (addValue? line spec.long (String.ofList value) kind)
      | none =>
        match line.add? spec.long "" with
        | none => .stop .wrong
        | some line => letterStep specs line rest

/-- One argument. -/
def step (specs : List OptionSpec) (line : CommandLine) (argument : String) : Step :=
  match argument.toList with
  | '-' :: '-' :: rest => longStep specs line rest
  | '-' :: letter :: rest => letterStep specs line (letter :: rest)
  | _ => .ofOption (line.addInputs? [argument])

/-- The outcome of a line that has been read to its end. -/
def Scan.ofOption : Option CommandLine → Scan
  | none => .wrong
  | some line => .found line

/-- Reads arguments from left to right. -/
def scanFrom (specs : List OptionSpec) (line : CommandLine) : List String → Scan
  | [] => .found line
  | argument :: rest =>
    if argument = "--" then .ofOption (line.addInputs? rest)
    else match step specs line argument with
      | .stop scan => scan
      | .next line => scanFrom specs line rest
      | .needsValue long kind line =>
        match rest with
        | [] => .wrong
        | value :: rest =>
          if isValue value then
            match addValue? line long value kind with
            | none => .wrong
            | some line => scanFrom specs line rest
          else .wrong

/-- Reads a command line. There has to be an input. -/
def scan (specs : List OptionSpec) (arguments : List String) : Scan :=
  match scanFrom specs {} arguments with
  | .found line => if line.inputs.isEmpty then .wrong else .found line
  | other => other

end Tool
end Chiptune
