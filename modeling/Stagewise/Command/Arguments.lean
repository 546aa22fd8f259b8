import Stagewise.Command.Basic

/-!
# Arguments

The words after the program's name: a command with its files, and switches that may stand anywhere.
-/

set_option autoImplicit false

namespace Stagewise

structure Invocation where
  command : Command
  settings : Option String
  verbose : Bool

structure Arguments where
  words : List String := []
  imports : Option String := none
  output : Option String := none
  format : Option Format := none
  settings : Option String := none
  denyWarnings : Bool := false
  verbose : Bool := false

namespace Arguments

def collect? : List String → Arguments → Option Arguments
  | [], a => some { a with words := a.words.reverse }
  | "-v" :: rest, a | "--verbose" :: rest, a => collect? rest { a with verbose := true }
  | "--deny-warnings" :: rest, a => collect? rest { a with denyWarnings := true }
  | "-i" :: path :: rest, a | "--imports" :: path :: rest, a =>
    collect? rest { a with imports := some path }
  | "-o" :: path :: rest, a | "--output" :: path :: rest, a =>
    collect? rest { a with output := some path }
  | "-c" :: path :: rest, a | "--config" :: path :: rest, a =>
    collect? rest { a with settings := some path }
  | "--format" :: name :: rest, a =>
    match Format.ofName? name with
    | some format => collect? rest { a with format := some format }
    | none => none
  | word :: rest, a =>
    if word.startsWith "-" then none else collect? rest { a with words := word :: a.words }

def command? (a : Arguments) : Option Command :=
  match a.words with
  | ["stage", input] => some (.stage input a.imports a.output a.format)
  | ["run", input] => some (.run input a.imports)
  | "check" :: input :: inputs => some (.check (input :: inputs) a.imports a.denyWarnings)
  | _ => none

end Arguments

namespace Invocation

def ofArguments? (args : List String) : Option Invocation := do
  let a ← Arguments.collect? args {}
  return ⟨← a.command?, a.settings, a.verbose⟩

def sources (i : Invocation) : List String :=
  let files := match i.command with
    | .stage input imports _ _ => input :: imports.toList
    | .run input imports => input :: imports.toList
    | .check inputs imports _ => inputs ++ imports.toList
  i.settings.getD Settings.fileName :: files

def execute (i : Invocation) (dir : Directory) : Except Failure (Settings × Report) := do
  let settings ← Settings.load dir i.settings
  return (settings, ← i.command.execute dir settings)

end Invocation

end Stagewise
