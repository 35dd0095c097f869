/-
# Command line

The first argument names the tool, `build` or `list`; the others are its
command line.
-/
import Chiptune.Tool

open Chiptune Tool

/-- The content of a file, if it can be read as text. -/
def readInput (path : String) : IO (Option String) := do
  try
    return some (← IO.FS.readFile path)
  catch _ => return none

/-- Writes files in order and stops at the first one that cannot be written. -/
def writeFiles : List (String × List UInt8) → IO Bool
  | [] => return true
  | (path, bytes) :: rest => do
    let written ← try
      IO.FS.writeBinFile path ⟨bytes.toArray⟩
      pure true
    catch _ => pure false
    if written then writeFiles rest else return false

/-- Runs a request. -/
def perform : Request → IO UInt32
  | .error code => return code
  | .ok job => do
    let contents ← job.inputs.mapM readInput
    let outcome := job.run contents
    if ← writeFiles outcome.files then
      IO.print outcome.output
      unless outcome.problem.isEmpty do IO.eprintln outcome.problem
      return outcome.exitCode
    else
      IO.eprintln (Error.message .file)
      return 1

/-- Runs the tool that the first argument names. -/
def main : List String → IO UInt32
  | "build" :: arguments => perform (build arguments)
  | "list" :: arguments => perform (Tool.list arguments)
  | _ => return wrongUsage
