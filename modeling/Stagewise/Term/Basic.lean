import Stagewise.Association
import Stagewise.Kind
import Stagewise.Number.Basic
import Stagewise.Operator
import Stagewise.Source.Span

/-!
# Values, constraints and terms

The three data types of the language refer to each other: a closure holds the lambda that made
it, a type is a constraint held as a value, a literal constraint holds the value it admits, and
a program may contain values. They are therefore declared together.
-/

set_option autoImplicit false

namespace Stagewise

inductive Literal where
  | number (n : Number)
  | string (s : String)
  | bool (b : Bool)
  | null
deriving DecidableEq, Inhabited

inductive Comparison where
  | gt
  | ge
  | lt
  | le
deriving DecidableEq, Inhabited

mutual

/-- A value that evaluation can produce. The fields of an object have an order, which shows when
the object is printed or listed, and different names. -/
inductive Value where
  | number (n : Number)
  | string (s : String)
  | bool (b : Bool)
  | null
  | object (fields : List (String × Value))
  | array (items : List Value)
  | closure (lambda : Lambda) (env : List (String × Value))
  | builtin (name : String)
  | type (c : Constraint)

inductive Constraint where
  | kind (k : Kind)
  | equals (v : Value)
  | bound (r : Comparison) (n : Number)
  | field (name : String) (c : Constraint)
  | elements (c : Constraint)
  | length (c : Constraint)
  | elementAt (index : Nat) (c : Constraint)
  | conj (cs : List Constraint)
  | disj (cs : List Constraint)
  | neg (c : Constraint)
  /-- A recursive constraint; `bvar 0` in the body stands for the whole. -/
  | fix (body : Constraint)
  | bvar (index : Nat)
  | ref (name : String)
  | var (id : Nat)
  | any
  | never

inductive Term where
  | mk (node : Node) (span : Option Span)

inductive Node where
  | literal (l : Literal)
  | var (name : String)
  | value (v : Value)
  | unary (op : UnaryOp) (operand : Term)
  | binary (op : BinaryOp) (lhs rhs : Term)
  | ifElse (test yes no : Term)
  | letIn (pattern : Pattern) (init body : Term)
  | lambda (fn : Lambda)
  | call (callee : Term) (args : List Term)
  | object (entries : List Entry)
  | array (items : List Item)
  | field (object : Term) (name : String)
  | index (object key : Term)
  | template (parts : List Part)
  | block (statements : List Statement) (result : Term)
  | await (e : Term)
  | throw (e : Term)
  | matchOn (subject : Term) (cases : List Case)

/-- A function literal. Its identity tells apart function literals that read alike; its name, if
it has one, is bound to the function inside the body. -/
inductive Lambda where
  | mk (id : Nat) (name : Option String) (params : List Param) (body : Term)

inductive Param where
  | mk (name : String) (type : Option Term)

inductive Entry where
  | field (name : String) (value : Term)
  | spread (source : Term)

inductive Item where
  | item (e : Term)
  | spread (source : Term)

inductive Part where
  | text (s : String)
  | interp (e : Term)

inductive Statement where
  | bind (pattern : Pattern) (init : Term)
  | eval (e : Term)
  | load (names : List String) (module : String)

inductive Case where
  | mk (pattern : Pattern) (guard : Option Term) (body : Term)

inductive Pattern where
  | wildcard
  | binding (name : String)
  | literal (l : Literal)
  | object (fields : List (String × Pattern))
  | array (items : List Pattern) (rest : Option String)
  | type (ty : Term) (inner : Pattern)

end

instance : Inhabited Value := ⟨.null⟩
instance : Inhabited Constraint := ⟨.any⟩
instance : Inhabited Term := ⟨.mk (.literal .null) none⟩
instance : Inhabited Pattern := ⟨.wildcard⟩

namespace Literal

def toValue : Literal → Value
  | number n => .number n
  | string s => .string s
  | bool b => .bool b
  | null => .null

def ofValue? : Value → Option Literal
  | .number n => some (.number n)
  | .string s => some (.string s)
  | .bool b => some (.bool b)
  | .null => some .null
  | _ => none

end Literal

namespace Lambda

def id : Lambda → Nat
  | mk id _ _ _ => id

def name : Lambda → Option String
  | mk _ name _ _ => name

def params : Lambda → List Param
  | mk _ _ params _ => params

def body : Lambda → Term
  | mk _ _ _ body => body

def arity (f : Lambda) : Nat := f.params.length

end Lambda

namespace Param

def name : Param → String
  | mk name _ => name

def type : Param → Option Term
  | mk _ type => type

end Param

def Lambda.paramNames (f : Lambda) : List String := f.params.map Param.name

namespace Case

def pattern : Case → Pattern
  | mk pattern _ _ => pattern

def guard : Case → Option Term
  | mk _ guard _ => guard

def body : Case → Term
  | mk _ _ body => body

end Case

namespace Term

def node : Term → Node
  | mk node _ => node

def span : Term → Option Span
  | mk _ span => span

def of (node : Node) : Term := mk node none

def asVar? : Term → Option String
  | mk (.var name) _ => some name
  | _ => none

def asLiteral? : Term → Option Literal
  | mk (.literal l) _ => some l
  | _ => none

end Term

namespace Pattern

mutual

def names : Pattern → List String
  | .wildcard | .literal _ => []
  | .binding name => [name]
  | .object fields => fieldNames fields
  | .array items rest => itemNames items ++ rest.toList
  | .type _ inner => inner.names
termination_by structural p => p

def fieldNames : List (String × Pattern) → List String
  | [] => []
  | (_, p) :: fields => p.names ++ fieldNames fields
termination_by structural fields => fields

def itemNames : List Pattern → List String
  | [] => []
  | p :: items => p.names ++ itemNames items
termination_by structural items => items

end

def asBinding? : Pattern → Option String
  | .binding name => some name
  | _ => none

def isIrrefutable : Pattern → Bool
  | .wildcard | .binding _ => true
  | _ => false

end Pattern

end Stagewise
