import Stagewise.Json.Basic

/-!
# Records and variants in documents

A variant of a type is written as its name, or as a record whose one field is the name. The
parts of a record are written by name; a list of the parts in order is read as well. Documents
differ in how numbers, variants without payload and lists of parts may be written; that is their
dialect.
-/

set_option autoImplicit false

namespace Stagewise.Json

def variant? : Json → Option (String × Option Json)
  | .string name => some (name, none)
  | .object [(name, payload)] => some (name, some payload)
  | _ => none

structure Dialect where
  number : Json → Option Number
  isNothing : Json → Bool
  longLists : Bool

namespace Dialect

def plain : Dialect := ⟨number?, fun json => json matches .null, false⟩

def program : Dialect := ⟨number?, fun json => json matches .null | .object [], false⟩

def configuration : Dialect :=
  ⟨number?, fun json => json matches .object [] | .array [], true⟩

def isBare (d : Dialect) : Option Json → Bool
  | none => true
  | some payload => d.isNothing payload

end Dialect

def bareTag? (d : Dialect) (json : Json) : Option String :=
  match json.variant? with
  | some (name, payload) => if d.isBare payload then some name else none
  | none => none

def pair? : Json → Option (Json × Json)
  | .array [a, b] => some (a, b)
  | _ => none

def parts? (names : List String) : Json → Option (List (Option Json))
  | .object fields =>
    if names.all fun name => (fields.filter fun (key, _) => key == name).length ≤ 1 then
      some (names.map fun name => Association.find? name fields)
    else none
  | .array items =>
    if items.length ≤ names.length then
      some (items.map some ++ List.replicate (names.length - items.length) none)
    else none
  | _ => none

def Dialect.parts? (d : Dialect) (names : List String) : Json → Option (List (Option Json))
  | .array items =>
    Json.parts? names (.array (if d.longLists then items.take names.length else items))
  | json => Json.parts? names json

def optional? {α : Type} (read : Json → Option α) : Option Json → Option (Option α)
  | none | some .null => some none
  | some json => (read json).map some

/-- Read a part that has a default: only a missing one takes it. -/
def orDefault? {α : Type} (read : Json → Option α) (default : α) : Option Json → Option α
  | none => some default
  | some json => read json

end Stagewise.Json
