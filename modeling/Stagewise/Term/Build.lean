import Stagewise.Term.Basic

/-!
# Building programs

Constructors for programs without a span, and the program text of a known value.
-/

set_option autoImplicit false

namespace Stagewise

mutual

def Term.ofValue? : Value → Option Term
  | .number n => some (.of (.literal (.number n)))
  | .string s => some (.of (.literal (.string s)))
  | .bool b => some (.of (.literal (.bool b)))
  | .null => some (.of (.literal .null))
  | .object fields => (Term.entriesOfFields? fields).map fun entries => .of (.object entries)
  | .array items => (Term.itemsOfValues? items).map fun items => .of (.array items)
  | .closure _ _ => none
  | .builtin name => some (.of (.var name))
  | .type c => some (.of (.value (.type c)))
termination_by structural v => v

def Term.entriesOfFields? : List (String × Value) → Option (List Entry)
  | [] => some []
  | (name, v) :: fields =>
    match Term.ofValue? v, Term.entriesOfFields? fields with
    | some e, some entries => some (.field name e :: entries)
    | _, _ => none
termination_by structural fields => fields

def Term.itemsOfValues? : List Value → Option (List Item)
  | [] => some []
  | v :: items =>
    match Term.ofValue? v, Term.itemsOfValues? items with
    | some e, some items => some (.item e :: items)
    | _, _ => none
termination_by structural items => items

end

namespace Term

def ofLiteral (l : Literal) : Term := of (.literal l)

def number (n : Number) : Term := ofLiteral (.number n)

def string (s : String) : Term := ofLiteral (.string s)

def bool (b : Bool) : Term := ofLiteral (.bool b)

def null : Term := ofLiteral .null

def value (v : Value) : Term := of (.value v)

def type (c : Constraint) : Term := value (.type c)

def var (name : String) : Term := of (.var name)

def unary (op : UnaryOp) (e : Term) : Term := of (.unary op e)

def binary (op : BinaryOp) (a b : Term) : Term := of (.binary op a b)

def ifElse (test yes no : Term) : Term := of (.ifElse test yes no)

def letIn (p : Pattern) (init body : Term) : Term := of (.letIn p init body)

def lambda (f : Lambda) : Term := of (.lambda f)

def call (callee : Term) (args : List Term) : Term := of (.call callee args)

def callNamed (name : String) (args : List Term) : Term := call (var name) args

def object (entries : List Entry) : Term := of (.object entries)

def array (items : List Item) : Term := of (.array items)

def field (e : Term) (name : String) : Term := of (.field e name)

def index (e key : Term) : Term := of (.index e key)

def template (parts : List Part) : Term := of (.template parts)

def block (statements : List Statement) (result : Term) : Term := of (.block statements result)

def await (e : Term) : Term := of (.await e)

def throw (e : Term) : Term := of (.throw e)

def matchOn (subject : Term) (cases : List Case) : Term := of (.matchOn subject cases)

def comptime (e : Term) : Term := callNamed "comptime" [e]

def runtime (e : Term) (name : String) : Term := callNamed "runtime" [e, string name]

def typeOf (e : Term) : Term := callNamed "typeOf" [e]

def assertType (e type : Term) : Term := callNamed "assert" [e, type]

def assertThat (condition : Term) : Term := callNamed "assert" [condition]

def trust (e type : Term) : Term := callNamed "trust" [e, type]

end Term

def Lambda.untyped (id : Nat) (name : Option String) (params : List String) (body : Term) :
    Lambda :=
  .mk id name (params.map fun param => .mk param none) body

def Pattern.ofLiteral (e : Term) : Pattern :=
  match e.asLiteral? with
  | some l => .literal l
  | none => .wildcard

end Stagewise
