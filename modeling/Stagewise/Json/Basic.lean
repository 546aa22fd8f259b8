import Stagewise.Association
import Stagewise.Number.Decimal

/-!
# Documents

A document is a tree of null, booleans, numbers, texts, lists and records; records keep the
order in which their fields are written. Whole numbers that fit a machine word stay apart from
other numbers, because counts and indices are read from them only.
-/

set_option autoImplicit false

namespace Stagewise

inductive Json where
  | null
  | bool (b : Bool)
  | integer (n : Int)
  | number (x : Number)
  | string (s : String)
  | array (items : List Json)
  | object (fields : List (String × Json))
deriving Inhabited

namespace Json

mutual

def depth : Json → Nat
  | .array items => depthList items + 1
  | .object fields => depthFields fields + 1
  | _ => 0
termination_by structural json => json

def depthList : List Json → Nat
  | [] => 0
  | item :: items => max item.depth (depthList items)
termination_by structural items => items

def depthFields : List (String × Json) → Nat
  | [] => 0
  | (_, value) :: fields => max value.depth (depthFields fields)
termination_by structural fields => fields

end

def get? (name : String) : Json → Option Json
  | .object fields => Association.find? name fields
  | _ => none

def string? : Json → Option String
  | .string s => some s
  | _ => none

def bool? : Json → Option Bool
  | .bool b => some b
  | _ => none

def array? : Json → Option (List Json)
  | .array items => some items
  | _ => none

def object? : Json → Option (List (String × Json))
  | .object fields => some fields
  | _ => none

def natUpTo? (limit : Nat) : Json → Option Nat
  | .integer n => if 0 ≤ n ∧ n ≤ limit then some n.toNat else none
  | _ => none

def count? : Json → Option Nat := natUpTo? Number.maxCount

def number? : Json → Option Number
  | .integer n => some (Number.ofInt n)
  | .number x => some x
  | _ => none

end Json

end Stagewise
