import Stagewise.Command.Arguments

/-!
# The command line

Reads the files of a command line, carries the command out, and prints its report.
-/

set_option autoImplicit false

open Stagewise

namespace Stagewise

def usage : String :=
  "usage: stagewise [-v] [-c FILE] stage PROGRAM [-i FILE] [-o FILE] [--format text|json]\n" ++
  "       stagewise [-v] [-c FILE] run PROGRAM [-i FILE]\n" ++
  "       stagewise [-v] [-c FILE] check PROGRAM... [-i FILE] [--deny-warnings]"

def placeAt (path : String) : IO (Option Place) := do
  try
    if ← (← IO.FS.realPath path).isDir then return some .folder
    else return some (.file (← IO.FS.readFile path))
  catch _ => return none

def readDirectory (paths : List String) : IO Directory :=
  (paths.flatMap pathParts).foldlM (fun dir path => do
    match ← placeAt path with
    | some place => return dir.add path place
    | none => return dir) []

def printReport (i : Invocation) (settings : Settings) (report : Report) : IO Unit := do
  if let some (path, text) := report.written then IO.FS.writeFile path text
  for line in report.lines settings i.command.name i.verbose do
    IO.eprintln line
  IO.print report.output

end Stagewise

def main (args : List String) : IO UInt32 := do
  match Invocation.ofArguments? args with
  | none =>
    IO.eprintln usage
    return 2
  | some i =>
    match i.execute (← readDirectory i.sources) with
    | .error failure =>
      IO.eprintln failure.text
      return 1
    | .ok (settings, report) =>
      try
        printReport i settings report
        return 0
      catch e =>
        IO.eprintln ("IO error: " ++ toString e)
        return 1
