import Stagewise.Value.Json

/-!
# Imports

The modules that programs can import names from. A name has a value, or only a constraint that
its value will satisfy at runtime.
-/

set_option autoImplicit false

namespace Stagewise

inductive Export where
  | value (v : Value)
  | declared (c : Constraint)

abbrev Imports := List (String × List (String × Export))

namespace Export

def ofJson? (d : Json.Dialect) (json : Json) : Option Export := do
  match ← json.variant? with
  | ("value", some payload) => return .value (← Value.ofJson? d payload)
  | ("declared", some payload) => return .declared (← Constraint.ofJson? d payload)
  | _ => none

end Export

namespace Imports

def resolve? (imports : Imports) (module name : String) : Option Export := do
  Association.find? name (← Association.find? module imports)

def tableOf? {α : Type} (read : Json → Option α) (json : Json) : Option (List (String × α)) := do
  let entries ← (← json.object?).mapM fun (name, entry) => do return (name, ← read entry)
  return Association.putAll [] entries

def ofJson? (d : Json.Dialect) (json : Json) : Option Imports :=
  tableOf? (tableOf? (Export.ofJson? d)) json

end Imports

end Stagewise
