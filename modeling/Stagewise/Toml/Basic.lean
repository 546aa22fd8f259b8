import Stagewise.Json.Basic

/-!
# Configuration trees

What a configuration text says: a tree of tables with texts, numbers, booleans, moments and arrays
as values. Entries and headers of a text add to the tables one after the other. How a table came
about decides who may still add to it, so that nothing is defined twice.
-/

set_option autoImplicit false

namespace Stagewise

inductive Origin where
  | inline
  | header
  | implied
  | dotted
deriving DecidableEq

inductive Toml where
  | string (s : String)
  | integer (n : Int)
  | number (x : Number)
  | bool (b : Bool)
  | moment (text : String)
  | array (growing : Bool) (items : List Toml)
  | table (origin : Origin) (fields : List (String × Toml))

namespace Toml

mutual

def toJson : Toml → Json
  | .string s => .string s
  | .integer n => .integer n
  | .number x => .number x
  | .bool b => .bool b
  | .moment text => .object [("$moment", .string text)]
  | .array _ items => .array (itemsToJson items)
  | .table _ fields => .object (fieldsToJson fields)
termination_by structural toml => toml

def itemsToJson : List Toml → List Json
  | [] => []
  | item :: items => item.toJson :: itemsToJson items
termination_by structural items => items

def fieldsToJson : List (String × Toml) → List (String × Json)
  | [] => []
  | (name, value) :: fields => (name, value.toJson) :: fieldsToJson fields
termination_by structural fields => fields

end

inductive Route where
  | header
  | key

def Route.passes : Route → Origin → Bool
  | _, .inline | .key, .header => false
  | _, _ => true

def Route.leaves : Route → Origin
  | .header => .implied
  | .key => .dotted

/-- Change the table at the end of a path. In a growing array the path goes on in the last table. -/
def changeAt? (route : Route)
    (change : Origin → List (String × Toml) → Option (List (String × Toml))) :
    List String → Origin → List (String × Toml) → Option (List (String × Toml))
  | [], origin, fields => change origin fields
  | name :: path, _, fields =>
    match Association.find? name fields with
    | none =>
      (changeAt? route change path route.leaves []).map fun inner =>
        Association.put name (.table route.leaves inner) fields
    | some (.table origin inner) =>
      if route.passes origin then
        (changeAt? route change path origin inner).map fun inner =>
          Association.put name (.table origin inner) fields
      else none
    | some (.array true items) =>
      match items.getLast? with
      | some (.table origin inner) =>
        (changeAt? route change path origin inner).map fun inner =>
          Association.put name (.array true (items.dropLast ++ [.table origin inner])) fields
      | _ => none
    | some _ => none

/-- Add an entry under a key, which must be new. A key with points adds to tables that keys with
points have made, and to no others. -/
def addEntry? (value : Toml) (key : List String) (fields : List (String × Toml)) :
    Option (List (String × Toml)) :=
  match key.getLast? with
  | none => none
  | some name =>
    changeAt? .key (fun origin fields =>
        if (1 < key.length && origin ≠ .dotted) || Association.contains name fields then none
        else some (fields ++ [(name, value)]))
      key.dropLast .header fields

/-- Open a table by its header. Only a table that was passed by a longer header may be there. -/
def openTable? (path : List String) (fields : List (String × Toml)) :
    Option (List (String × Toml)) :=
  match path.getLast? with
  | none => none
  | some name =>
    changeAt? .header (fun _ fields =>
        match Association.find? name fields with
        | none => some (fields ++ [(name, .table .header [])])
        | some (.table .implied inner) => some (Association.put name (.table .header inner) fields)
        | some _ => none)
      path.dropLast .header fields

def openItem? (path : List String) (fields : List (String × Toml)) :
    Option (List (String × Toml)) :=
  match path.getLast? with
  | none => none
  | some name =>
    changeAt? .header (fun _ fields =>
        match Association.find? name fields with
        | none => some (fields ++ [(name, .array true [.table .header []])])
        | some (.array true items) =>
          some (Association.put name (.array true (items ++ [.table .header []])) fields)
        | some _ => none)
      path.dropLast .header fields

end Toml

end Stagewise
