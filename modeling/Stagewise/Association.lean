/-!
# Named entries

Objects, environments and tables are lists of named entries. Looking a name up takes the first
entry of that name, so putting an entry in front shadows the older ones.
-/

set_option autoImplicit false

namespace Stagewise.Association

variable {κ α : Type}

def find? [DecidableEq κ] (name : κ) : List (κ × α) → Option α
  | [] => none
  | (key, value) :: rest => if key = name then some value else find? name rest

def contains [DecidableEq κ] (name : κ) (entries : List (κ × α)) : Bool :=
  (find? name entries).isSome

def names (entries : List (κ × α)) : List κ := entries.map Prod.fst

def put [DecidableEq κ] (name : κ) (value : α) : List (κ × α) → List (κ × α)
  | [] => [(name, value)]
  | (key, old) :: rest =>
    if key = name then (key, value) :: rest else (key, old) :: put name value rest

def putAll [DecidableEq κ] (entries more : List (κ × α)) : List (κ × α) :=
  more.foldl (fun acc (name, value) => put name value acc) entries

def erase [DecidableEq κ] (name : κ) (entries : List (κ × α)) : List (κ × α) :=
  entries.filter fun (key, _) => key ≠ name

def putSorted (name : String) (value : α) : List (String × α) → List (String × α)
  | [] => [(name, value)]
  | (key, old) :: rest =>
    if name < key then (name, value) :: (key, old) :: rest
    else if key = name then (name, value) :: rest
    else (key, old) :: putSorted name value rest

end Stagewise.Association
