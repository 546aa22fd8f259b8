import Stagewise.Toml.Numeral
import Stagewise.Toml.Quoted

/-!
# Reading configurations

A configuration text is read line by line: headers open tables, and entries go to the table that was
opened last. Only quoted texts and arrays go over several lines. Each step gives its result and the
characters not yet read.
-/

set_option autoImplicit false

namespace Stagewise.Toml

def lineEnd? (cs : List Char) : Option (List Char) :=
  let rest := match skipBlanks cs with
    | '#' :: cs => cs.dropWhile isText
    | cs => cs
  if rest.isEmpty then some [] else newLine? rest

def skipGap? : Nat → List Char → Option (List Char)
  | 0, _ => none
  | fuel + 1, cs =>
    match skipBlanks cs with
    | '#' :: cs => do skipGap? fuel (← newLine? (cs.dropWhile isText))
    | '\n' :: cs | '\r' :: '\n' :: cs => skipGap? fuel cs
    | '\r' :: _ => none
    | cs => some cs

def isBare (c : Char) : Bool := c.isAlphanum || c = '_' || c = '-'

def name? (cs : List Char) : Option (String × List Char) :=
  match quotedLine? cs with
  | some name => some name
  | none =>
    match cs.takeWhile isBare with
    | [] => none
    | word => some (String.ofList word, cs.dropWhile isBare)

def key? : Nat → List Char → Option (List String × List Char)
  | 0, _ => none
  | limit + 1, cs => do
    let (name, rest) ← name? (skipBlanks cs)
    match skipBlanks rest with
    | '.' :: rest =>
      let (names, rest) ← key? limit rest
      return (name :: names, rest)
    | rest => return ([name], rest)

def maxDepth : Nat := 79

def items? (value : List Char → Option (Toml × List Char)) (total : Nat) :
    Nat → List Char → List Toml → Option (List Toml × List Char)
  | 0, _, _ => none
  | fuel + 1, cs, acc => do
    match ← skipGap? total cs with
    | ']' :: cs => return (acc.reverse, cs)
    | cs =>
      let (item, cs) ← value cs
      match ← skipGap? total cs with
      | ',' :: cs => items? value total fuel cs (item :: acc)
      | ']' :: cs => return ((item :: acc).reverse, cs)
      | _ => none

def entry? (value : List Char → Option (Toml × List Char)) (cs : List Char) :
    Option ((List String × Toml) × List Char) := do
  match ← key? maxDepth cs with
  | (key, '=' :: cs) =>
    let (v, cs) ← value (skipBlanks cs)
    return ((key, v), cs)
  | _ => none

def entries? (value : List Char → Option (Toml × List Char)) :
    Nat → List Char → List (String × Toml) → Option (List (String × Toml) × List Char)
  | 0, _, _ => none
  | fuel + 1, cs, fields => do
    let ((key, v), cs) ← entry? value cs
    let fields ← addEntry? v key fields
    match skipBlanks cs with
    | ',' :: cs => entries? value fuel cs fields
    | '}' :: cs => return (fields, cs)
    | _ => none

/-- A value in which arrays and tables are nested at most `depth` deep; `total` is more than the
number of characters. -/
def value? (total depth : Nat) (cs : List Char) : Option (Toml × List Char) :=
  match cs with
  | [] => none
  | c :: rest =>
    if c = '"' || c = apostrophe then (quoted? cs).map fun (s, cs) => (.string s, cs)
    else if c = 't' then (Json.Reader.expect "rue".toList rest).map fun cs => (.bool true, cs)
    else if c = 'f' then (Json.Reader.expect "alse".toList rest).map fun cs => (.bool false, cs)
    else if c = '[' then
      match depth with
      | 0 => none
      | depth + 1 =>
        (items? (value? total depth) total total rest []).map fun (items, cs) =>
          (.array false items, cs)
    else if c = '{' then
      match depth with
      | 0 => none
      | depth + 1 =>
        match skipBlanks rest with
        | '}' :: cs => some (.table .inline [], cs)
        | cs =>
          (entries? (value? total depth) total cs []).map fun (fields, cs) =>
            (.table .inline fields, cs)
    else
      match moment? cs with
      | some found => some found
      | none => numeral? cs
termination_by structural depth

structure State where
  fields : List (String × Toml) := []
  path : List String := []

def State.add? (s : State) (key : List String) (v : Toml) : Option State := do
  let fields ← changeAt? .header (fun _ fields => addEntry? v key fields) s.path .header s.fields
  return { s with fields }

def lines (total : Nat) : Nat → List Char → State → Option State
  | 0, _, _ => none
  | fuel + 1, cs, s => do
    match skipBlanks cs with
    | [] => return s
    | '[' :: '[' :: cs =>
      match ← key? maxDepth cs with
      | (path, ']' :: ']' :: cs) =>
        lines total fuel (← lineEnd? cs) { fields := ← openItem? path s.fields, path }
      | _ => none
    | '[' :: cs =>
      match ← key? maxDepth cs with
      | (path, ']' :: cs) =>
        lines total fuel (← lineEnd? cs) { fields := ← openTable? path s.fields, path }
      | _ => none
    | c :: cs =>
      if c = '#' || c = '\n' || c = '\r' then lines total fuel (← lineEnd? (c :: cs)) s
      else
        let ((key, v), cs) ← entry? (value? total maxDepth) (c :: cs)
        lines total fuel (← lineEnd? cs) (← s.add? key v)

def parse? (text : String) : Option Toml := do
  let cs := match text.toList with
    | c :: cs => if c.toNat = 0xFEFF then cs else c :: cs
    | [] => []
  let s ← lines (cs.length + 1) (cs.length + 1) cs {}
  return .table .header s.fields

end Stagewise.Toml
