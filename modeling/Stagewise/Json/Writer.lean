import Stagewise.Json.Basic
import Stagewise.Text.Quoted

/-!
# Writing documents

A document is written on one line, or laid out with two blanks for each level. Numbers without
a document form are written as null.
-/

set_option autoImplicit false

namespace Stagewise.Json

def scalarText : Json → String
  | .bool b => if b then "true" else "false"
  | .integer n => toString n
  | .number x => x.documentText?.getD "null"
  | .string s => Text.quote s
  | _ => "null"

mutual

def compact : Json → String
  | .array items => "[" ++ Text.join "," (compactList items) ++ "]"
  | .object fields => "\x7b" ++ Text.join "," (compactFields fields) ++ "\x7d"
  | json => scalarText json
termination_by structural json => json

def compactList : List Json → List String
  | [] => []
  | item :: items => item.compact :: compactList items
termination_by structural items => items

def compactFields : List (String × Json) → List String
  | [] => []
  | (name, value) :: fields => (Text.quote name ++ ":" ++ value.compact) :: compactFields fields
termination_by structural fields => fields

end

def indent (level : Nat) : String := String.ofList (List.replicate (2 * level) ' ')

mutual

def pretty (level : Nat) : Json → String
  | .array [] => "[]"
  | .object [] => "\x7b\x7d"
  | .array items =>
    "[\n" ++ Text.join ",\n" (prettyList (level + 1) items) ++ "\n" ++ indent level ++ "]"
  | .object fields =>
    "\x7b\n" ++ Text.join ",\n" (prettyFields (level + 1) fields) ++ "\n" ++ indent level ++ "\x7d"
  | json => scalarText json
termination_by structural json => json

def prettyList (level : Nat) : List Json → List String
  | [] => []
  | item :: items => (indent level ++ item.pretty level) :: prettyList level items
termination_by structural items => items

def prettyFields (level : Nat) : List (String × Json) → List String
  | [] => []
  | (name, value) :: fields =>
    (indent level ++ Text.quote name ++ ": " ++ value.pretty level) :: prettyFields level fields
termination_by structural fields => fields

end

end Stagewise.Json
