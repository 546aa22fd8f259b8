import Stagewise.Command.Directory
import Stagewise.Command.Settings
import Stagewise.Json.Writer
import Stagewise.Staging.Program
import Stagewise.Term.Reader

/-!
# Commands

The commands on program files: stage a program and print the residual program, run a program and
print its value, and check programs for findings.
-/

set_option autoImplicit false

namespace Stagewise

inductive Command where
  | stage (input : String) (imports output : Option String) (format : Option Format)
  | run (input : String) (imports : Option String)
  | check (inputs : List String) (imports : Option String) (denyWarnings : Bool)

inductive Failure where
  | unwritable (path : String)
  | unreadableSettings (path : String)
  | badSettings (path : String)
  | missing (path : String)
  | notAFile (path : String)
  | notAProgram (path : String)
  | notImports (path : String)
  | deniedWarnings (count : Nat)
  | evaluation (e : Error)

def Failure.message : Failure → String
  | unwritable path => s!"cannot write {path}"
  | unreadableSettings path => s!"Failed to read config file {path}"
  | badSettings path => s!"Failed to parse config file {path}"
  | missing path => s!"Input path does not exist: {path}"
  | notAFile path => s!"Input path is not a file: {path}"
  | notAProgram path => s!"{path} is not a core AST"
  | notImports path => s!"{path} is not an import table"
  | deniedWarnings count => s!"{count} warning(s) with --deny-warnings"
  | evaluation e => e.message

def Failure.text : Failure → String
  | evaluation e => e.text
  | unwritable path => "IO error: " ++ (unwritable path).message
  | unreadableSettings path => "Configuration error: " ++ (unreadableSettings path).message
  | badSettings path => "Configuration error: " ++ (badSettings path).message
  | failure => "Invalid input: " ++ failure.message

structure Report where
  output : String := ""
  diagnostics : List Diagnostic := []
  written : Option (String × String) := none

namespace Settings

def readFrom (dir : Directory) (path : String) : Except Failure Settings :=
  match dir.find? path with
  | some (.file text) =>
    match ofText? text with
    | some settings => .ok settings
    | none => .error (.badSettings path)
  | _ => .error (.unreadableSettings path)

def load (dir : Directory) (path : Option String) : Except Failure Settings :=
  match path with
  | some path => readFrom dir path
  | none =>
    match dir.find? fileName with
    | some (.file _) => readFrom dir fileName
    | _ => .ok {}

end Settings

namespace Directory

def read (dir : Directory) (path : String) : Except Failure String :=
  match dir.find? path with
  | none => .error (.missing path)
  | some .folder => .error (.notAFile path)
  | some (.file text) => .ok text

def readProgram (dir : Directory) (path : String) : Except Failure Term := do
  match (Json.parse? (← dir.read path)).bind Term.ofJson? with
  | some e => return e
  | none => .error (.notAProgram path)

def readImports (dir : Directory) (path : Option String) : Except Failure Imports :=
  match path with
  | none => .ok []
  | some path => do
    match (Json.parse? (← dir.read path)).bind (Imports.ofJson? .plain) with
    | some imports => return imports
    | none => .error (.notImports path)

end Directory

def Failure.ofOutcome {α : Type} : Outcome α → Except Failure α
  | .ok a => .ok a
  | .error e => .error (.evaluation e)

namespace StagedProgram

def toJson (p : StagedProgram) : Json :=
  Json.present [("residual", some p.residual.toJson), ("source", some (.string p.residual.text)),
    ("constraint", some (.string p.constraint.text)),
    ("value", p.value?.map fun v => .string v.repr),
    ("specializations", some (.count p.specializations)),
    ("diagnostics", some (.array (p.diagnostics.map Diagnostic.toJson)))]

def print (p : StagedProgram) (format : Format) (showConstraint : Bool) : String :=
  match format with
  | .json => p.toJson.pretty 0 ++ "\n"
  | .text =>
    p.residual.text ++ "\n" ++ if showConstraint then "// : " ++ p.constraint.text ++ "\n" else ""

end StagedProgram

namespace Command

def name : Command → String
  | stage .. => "stage"
  | run .. => "run"
  | check .. => "check"

def checkAll (dir : Directory) (settings : Settings) (imports : Imports) :
    List String → Report × Nat → Except Failure (Report × Nat)
  | [], state => .ok state
  | input :: inputs, (report, warnings) => do
    let e ← dir.readProgram input
    let p ← Failure.ofOutcome (e.staged imports settings.staging)
    let count := p.warnings.length
    let line := s!"{input}: ok, {count} warning(s), {p.specializations} specialization(s)\n"
    checkAll dir settings imports inputs
      ({ output := report.output ++ line, diagnostics := report.diagnostics ++ p.diagnostics },
        warnings + count)

def execute (dir : Directory) (settings : Settings) : Command → Except Failure Report
  | stage input imports output format => do
    let e ← dir.readProgram input
    let imports ← dir.readImports imports
    let p ← Failure.ofOutcome (e.staged imports settings.staging)
    let text := p.print (format.getD settings.output.format) settings.output.showConstraint
    match output with
    | some path => return { diagnostics := p.diagnostics, written := some (path, text) }
    | none => return { output := text, diagnostics := p.diagnostics }
  | run input imports => do
    let e ← dir.readProgram input
    let imports ← dir.readImports imports
    let v ← Failure.ofOutcome (e.run imports settings.staging)
    return { output := v.repr ++ "\n" }
  | check inputs imports denyWarnings => do
    let imports ← dir.readImports imports
    let (report, warnings) ← checkAll dir settings imports inputs ({}, 0)
    if denyWarnings && 0 < warnings then .error (.deniedWarnings warnings) else return report

end Command

namespace Report

def store (report : Report) (dir : Directory) : Except Failure Directory :=
  match report.written with
  | none => .ok dir
  | some (path, text) =>
    match dir.write? path text with
    | some dir => .ok dir
    | none => .error (.unwritable path)

def lines (report : Report) (settings : Settings) (context : String) (verbose : Bool) :
    List String :=
  report.diagnostics.flatMap fun d => settings.output.layout.render d context verbose

end Report

end Stagewise
