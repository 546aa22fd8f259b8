import Stagewise.Diagnostic
import Stagewise.Options
import Stagewise.Text.Quoted
import Stagewise.Toml.Reader

/-!
# Settings

What the commands take from a configuration file: the options of evaluation, and how results and
findings are printed.
-/

set_option autoImplicit false

namespace Stagewise

inductive Format where
  | text
  | json
deriving DecidableEq

namespace Format

def name : Format → String
  | text => "text"
  | json => "json"

def ofName? (name : String) : Option Format := [text, json].find? fun f => f.name == name

end Format

structure Output where
  format : Format := .text
  showConstraint : Bool := true
  layout : Layout := .pretty
deriving DecidableEq

structure Settings where
  staging : Options := {}
  output : Output := {}
deriving DecidableEq

namespace Output

def toJson (o : Output) : Json :=
  .object [("format", .string o.format.name), ("show_constraint", .bool o.showConstraint),
    ("diagnostics", .string o.layout.name)]

def ofJson? (d : Json.Dialect) (json : Json) : Option Output := do
  match ← d.parts? ["format", "show_constraint", "diagnostics"] json with
  | [format, showConstraint, layout] =>
    return {
      format := ← Json.orDefault? (fun tag => do Format.ofName? (← tag.bareTag? d)) .text
        format
      showConstraint := ← Json.orDefault? Json.bool? true showConstraint
      layout := ← Json.orDefault? (fun tag => do Layout.ofName? (← tag.bareTag? d)) .pretty
        layout }
  | _ => none

end Output

namespace Settings

def fileName : String := "refine.toml"

def toJson (s : Settings) : Json :=
  .object [("staging", s.staging.toJson), ("output", s.output.toJson)]

def ofJson? (d : Json.Dialect) (json : Json) : Option Settings := do
  match ← d.parts? ["staging", "output"] json with
  | [staging, output] =>
    return {
      staging := ← Json.orDefault? (Options.ofJson? d) {} staging
      output := ← Json.orDefault? (Output.ofJson? d) {} output }
  | _ => none

def entryLine (key value : String) : String := key ++ " = " ++ value ++ "\n"

def toText (s : Settings) : String :=
  "[staging]\n" ++
    entryLine "max_call_depth" (toString s.staging.maxCallDepth) ++
    entryLine "max_specializations" (toString s.staging.maxSpecializations) ++
    entryLine "warn_unreachable" (toString s.staging.warnUnreachable) ++
    "\n[output]\n" ++
    entryLine "format" (Text.quote s.output.format.name) ++
    entryLine "show_constraint" (toString s.output.showConstraint) ++
    entryLine "diagnostics" (Text.quote s.output.layout.name)

def ofText? (text : String) : Option Settings := do
  ofJson? .configuration (← Toml.parse? text).toJson

end Settings

end Stagewise
