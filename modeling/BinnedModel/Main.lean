import BinnedModel.CommandLine.Run
import BinnedModel.Json.Printer

/-!
# The program

Reads the files that the command line names, runs the command on them and writes its
document. Exit code 2 means that the command line has no meaning, 1 that the command
failed.
-/

namespace BinnedModel.CommandLine

/-- How to call the program. -/
def usage : String :=
  "usage: hf-cli [--config FILE] [--log-level LEVEL] COMMAND\n" ++
  "  inspect  --input FILE [--output FILE]\n" ++
  "  expected --input FILE [--params X,Y,...] [--output FILE]\n" ++
  "  nll      --input FILE [--params X,Y,...] [--no-constraints] [--gradient]\n" ++
  "           [--threads N] [--output FILE]\n" ++
  "  priors   --input FILE [--draws N] [--seed N] [--output FILE]\n" ++
  "  version"

/-- The content of a file, if it can be read. -/
def content? (path : String) : IO (Option String) :=
  try
    return some (← IO.FS.readFile path)
  catch _ => return none

/-- Write a document to its file or to the standard output. -/
def write (r : Result) : IO Unit :=
  match r.output with
  | some path => IO.FS.writeFile path (Json.pretty r.document)
  | none => IO.println (Json.pretty r.document)

/-- Print what a command line leads to and return the exit code. -/
def finish : Outcome → IO UInt32
  | .unusable => do
    IO.eprintln usage
    return 2
  | .version => do
    IO.println versionLine
    return 0
  | .failed f => do
    IO.eprintln ("Error: " ++ f.headline)
    if f.step.isSome then IO.eprintln ("\nCaused by:\n    " ++ f.fault.message)
    return 1
  | .finished r => do
    if let some poi := r.undeclaredPoi then
      IO.eprintln ("WARN parameter of interest is not declared by any modifier poi=" ++ poi)
    try
      write r
      return 0
    catch e =>
      IO.eprintln ("Error: " ++ toString e)
      return 1

end BinnedModel.CommandLine

/-- Run the program on its arguments. -/
def main (args : List String) : IO UInt32 := do
  let contents ← (BinnedModel.CommandLine.inputs args).mapM fun path => do
    return (path, ← BinnedModel.CommandLine.content? path)
  let files (path : String) : Option String := (contents.lookup path).bind id
  BinnedModel.CommandLine.finish (BinnedModel.CommandLine.run args files)
