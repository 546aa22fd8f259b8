import Stagewise.Association

/-!
# Directories

The files that a command can see. A path is read from the working directory, or from the root if it
starts with a stroke, name by name; every place it passes has to be a folder. A folder is there
when it is listed, when something is in it, or when the working directory is in it.
-/

set_option autoImplicit false

namespace Stagewise

inductive Place where
  | file (text : String)
  | folder
deriving DecidableEq

/-- A place by the names that lead to it. The first name is empty for a place below the root, and
leading double points lead above the working directory. -/
abbrev Location := List String

namespace Location

def start (path : String) : Location := if path.startsWith "/" then [""] else []

def outward (here : Location) : Location :=
  match here.getLast? with
  | none | some ".." => here ++ [".."]
  | some "" => here
  | some _ => here.dropLast

def step (here : Location) (name : String) : Location :=
  if name = "" || name = "." then here
  else if name = ".." then outward here
  else here ++ [name]

def ofPath (path : String) : Location := (path.splitOn "/").foldl step (start path)

end Location

def pathParts (path : String) : List String :=
  let names := path.splitOn "/"
  (List.range names.length).map fun n => "/".intercalate (names.take (n + 1))

abbrev Directory := List (Location × Place)

namespace Directory

def lookup? (dir : Directory) (here : Location) : Option Place :=
  match Association.find? here dir with
  | some place => some place
  | none =>
    if here = [""] || here.all (· == "..") || dir.any fun (other, _) => here.isPrefixOf other then
      some .folder
    else none

def walk? (dir : Directory) (here : Location) : List String → Option Location
  | [] => some here
  | name :: names =>
    match dir.lookup? here with
    | some .folder => walk? dir (here.step name) names
    | _ => none

def find? (dir : Directory) (path : String) : Option Place :=
  if path = "" then none
  else (dir.walk? (Location.start path) (path.splitOn "/")).bind dir.lookup?

def add (dir : Directory) (path : String) (place : Place) : Directory :=
  Association.put (Location.ofPath path) place dir

def write? (dir : Directory) (path text : String) : Option Directory := do
  let names := path.splitOn "/"
  let name ← names.getLast?
  let here ← dir.walk? (Location.start path) names.dropLast
  if name = "" || name = "." || name = ".." then none
  else
    match dir.lookup? here, dir.lookup? (here ++ [name]) with
    | some .folder, some .folder => none
    | some .folder, _ => some (Association.put (here ++ [name]) (.file text) dir)
    | _, _ => none

end Directory

end Stagewise
