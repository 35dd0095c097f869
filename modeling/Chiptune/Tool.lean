/-
# The tools

Two tools work on module files. One builds the data of a sound bank and, if
asked, the V-ROM image of its samples. The other lists the songs of a bank as
JSON, into a file or on standard output.

A tool is a function from its command line and the contents of its inputs to
an outcome: the files it writes, in order, the text it prints, and its exit
code. The exit code is 2 for a wrong command line and 1 for an input that is
refused. An outcome with files that cannot be written ends with 1 at the
first of them.

Key definitions: `Tool.Job`, `Tool.Outcome`, `Tool.build`, `Tool.list`,
`Tool.Job.run`.
-/
import Chiptune.Json.Printer
import Chiptune.Song.Listing
import Chiptune.SoundBank
import Chiptune.Tool.Arguments
import Chiptune.Tracker.Decoding

namespace Chiptune
namespace Tool

open Tracker

/-- What a tool leaves behind. -/
structure Outcome where
  exitCode : UInt32 := 0
  /-- Paths and contents, in the order of writing. -/
  files : List (String × List UInt8) := []
  output : String := ""
  /-- Why an input was refused. -/
  problem : String := ""
  deriving DecidableEq, Repr

/-- The exit code of a wrong command line. -/
def wrongUsage : UInt32 := 2

/-- The exit code of a refused input. -/
def refusal : Error → UInt32
  | .addressOverflow => 101
  | _ => 1

/-- The work that a command line asks for. -/
inductive Job where
  | build (inputs : List String) (output : String) (vrom : Option String) (vromStart limit : Nat)
  | list (inputs : List String) (output : Option String) (layout : Json.Layout)
  deriving DecidableEq, Repr

/-- A command line as read: a job, or an exit code without one. -/
abbrev Request := Except UInt32 Job

/-- The options of the building tool. -/
def buildOptions : List OptionSpec :=
  [ { long := "output", letter := some 'o', value := some .path }
  , { long := "vrom", value := some .path }
  , { long := "vrom-offset", value := some .number }
  , { long := "max-size", value := some .number }
  , { long := "verbose", letter := some 'v' } ]

/-- The options of the listing tool. -/
def listOptions : List OptionSpec :=
  [ { long := "output", letter := some 'o', value := some .path }
  , { long := "compact", letter := some 'c' } ]

/-- An option that may be left out. -/
def optionWith {α : Type} (line : CommandLine) (long : String) (default : α)
    (read : String → Option α) : Option α :=
  match line.value? long with
  | none => some default
  | some text => read text

/-- The job of a line of the building tool. -/
def buildJob? (line : CommandLine) : Option Job := do
  let output ← path? (← line.value? "output")
  let vrom ← optionWith line "vrom" none fun text => (path? text).map some
  let vromStart ← optionWith line "vrom-offset" 0 number?
  let limit ← optionWith line "max-size" Song.defaultLimit number?
  return .build line.inputs output vrom vromStart limit

/-- The job of a line of the listing tool. -/
def listJob? (line : CommandLine) : Option Job := do
  let output ← optionWith line "output" none fun text => (path? text).map some
  return .list line.inputs output (if line.has "compact" then .compact else .indented)

/-- The request of a command line. -/
def request (specs : List OptionSpec) (job? : CommandLine → Option Job)
    (arguments : List String) : Request :=
  match scan specs arguments with
  | .wrong => .error wrongUsage
  | .help => .error 0
  | .found line =>
    match job? line with
    | none => .error wrongUsage
    | some job => .ok job

/-- The request of a command line of the building tool. -/
def build (arguments : List String) : Request := request buildOptions buildJob? arguments

/-- The request of a command line of the listing tool. -/
def list (arguments : List String) : Request := request listOptions listJob? arguments

/-- The module of the content of a file, which may be missing. -/
def loadModule : Option String → Except Error Module
  | none => .error .file
  | some text =>
    match Module.parse text with
    | .error fault => .error (.json fault)
    | .ok m => .ok m

/-- The modules of files. -/
def loadModules (contents : List (Option String)) : Except Error (List Module) :=
  contents.mapM loadModule

/-- The files of a sound bank. -/
def bankFiles (bank : SoundBank) (output : String) (vrom : Option String) :
    Except Error (List (String × List UInt8)) := do
  let image ← bank.image
  match vrom with
  | none => .ok [(output, image)]
  | some path => .ok [(output, image), (path, ← bank.vrom)]

/-- The listings of the songs of a bank, as text. -/
def listingText (bank : SoundBank) (layout : Json.Layout) : Except Error String := do
  let songs ← bank.compileSongs
  let listings ← songs.mapM Listing.ofSong
  .ok ((Json.list Listing.toJson listings).render layout ++ "\n")

namespace Job

/-- The files that a job reads. -/
def inputs : Job → List String
  | .build inputs _ _ _ _ => inputs
  | .list inputs _ _ => inputs

/-- What a job does with the contents of its inputs. -/
def effect (contents : List (Option String)) : Job → Except Error Outcome
  | .build _ output vrom vromStart limit => do
    let modules ← loadModules contents
    let bank ← SoundBank.ofModules modules limit vromStart
    .ok { files := ← bankFiles bank output vrom }
  | .list _ output layout => do
    let modules ← loadModules contents
    let bank ← SoundBank.ofModules modules Song.defaultLimit 0
    let text ← listingText bank layout
    match output with
    | none => .ok { output := text }
    | some path => .ok { files := [(path, text.toUTF8.toList)] }

/-- The outcome of a job. -/
def run (job : Job) (contents : List (Option String)) : Outcome :=
  match job.effect contents with
  | .ok outcome => outcome
  | .error e => { exitCode := refusal e, problem := e.message }

end Job
end Tool
end Chiptune
