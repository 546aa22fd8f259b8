/-!
# Kinds

Every value has one kind. Arrays and functions count as objects too, so the kinds are ordered
by refinement.
-/

set_option autoImplicit false

namespace Stagewise

inductive Kind where
  | number
  | string
  | bool
  | null
  | object
  | array
  | function
  | type
deriving DecidableEq, Inhabited

namespace Kind

def refines (k l : Kind) : Bool :=
  k == l || (l == .object && (k == .array || k == .function))

def meet (k l : Kind) : Option Kind :=
  if k.refines l then some k else if l.refines k then some l else none

def name : Kind → String
  | number => "number"
  | string => "string"
  | bool => "boolean"
  | null => "null"
  | object => "object"
  | array => "array"
  | function => "function"
  | type => "type"

def rank : Kind → Nat
  | number => 1
  | string => 2
  | bool => 3
  | null => 4
  | object => 5
  | array => 6
  | function => 7
  | type => 8

end Kind

end Stagewise
