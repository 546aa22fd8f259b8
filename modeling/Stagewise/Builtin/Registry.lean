import Stagewise.Builtin.Basic

/-!
# Names of the language

The names that stand for something in every program: the builtin functions and the constants for
the basic types.
-/

set_option autoImplicit false

namespace Stagewise.Registry

def constants : List (String × Constraint) :=
  [("number", .kind .number), ("string", .kind .string), ("boolean", .kind .bool),
    ("nullType", .kind .null), ("object", .kind .object), ("array", .kind .array),
    ("function", .kind .function), ("any", .any), ("never", .never)]

def find? (name : String) : Option Value :=
  match Association.find? name constants with
  | some c => some (.type c)
  | none => (Builtin.ofName? name).map fun b => .builtin b.name

def names : List String :=
  Association.names <| (Builtin.all.map Builtin.name ++ Association.names constants).foldr
    (fun name table => Association.putSorted name () table) []

end Stagewise.Registry
