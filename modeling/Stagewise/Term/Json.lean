import Stagewise.Value.Json

/-!
# Documents of programs

A program is written as a record with one field for what it does and, if it was read from a
text, a field for its span.
-/

set_option autoImplicit false

namespace Stagewise

namespace UnaryOp

def tag : UnaryOp → String
  | neg => "Neg"
  | not => "Not"

def ofTag? (tag : String) : Option UnaryOp := [UnaryOp.neg, .not].find? (·.tag == tag)

end UnaryOp

namespace BinaryOp

def tag : BinaryOp → String
  | add => "Add"
  | sub => "Sub"
  | mul => "Mul"
  | div => "Div"
  | mod => "Mod"
  | eq => "Eq"
  | ne => "Ne"
  | lt => "Lt"
  | le => "Le"
  | gt => "Gt"
  | ge => "Ge"
  | and => "And"
  | or => "Or"

def all : List BinaryOp := [add, sub, mul, div, mod, eq, ne, lt, le, gt, ge, and, or]

def ofTag? (tag : String) : Option BinaryOp := all.find? (·.tag == tag)

end BinaryOp

namespace Span

def toJson (s : Span) : Json := .object [("lo", .count s.lo), ("hi", .count s.hi)]

def ofJson? (json : Json) : Option Span := do
  match ← json.parts? ["lo", "hi"] with
  | [some lo, some hi] => return ⟨← lo.natUpTo? 0xFFFFFFFF, ← hi.natUpTo? 0xFFFFFFFF⟩
  | _ => none

end Span

namespace Literal

def toJson : Literal → Json
  | number n => .tagged "Number" (.number n)
  | string s => .tagged "String" (.string s)
  | bool b => .tagged "Bool" (.bool b)
  | null => .string "Null"

def ofJson? (d : Json.Dialect) (json : Json) : Option Literal :=
  match json.variant? with
  | some ("Null", payload) => if d.isBare payload then some .null else none
  | some ("Number", some payload) => (d.number payload).map .number
  | some ("String", some payload) => payload.string?.map .string
  | some ("Bool", some payload) => payload.bool?.map .bool
  | _ => none

end Literal

def Json.present (fields : List (String × Option Json)) : Json :=
  .object (fields.filterMap fun (name, json) => json.map fun json => (name, json))

def Node.tag : Node → String
  | .literal _ => "Literal"
  | .var _ => "Var"
  | .value _ => "Value"
  | .unary _ _ => "Unary"
  | .binary _ _ _ => "Binary"
  | .ifElse _ _ _ => "If"
  | .letIn _ _ _ => "Let"
  | .lambda _ => "Lambda"
  | .call _ _ => "Call"
  | .object _ => "Object"
  | .array _ => "Array"
  | .field _ _ => "Field"
  | .index _ _ => "Index"
  | .template _ => "Template"
  | .block _ _ => "Block"
  | .await _ => "Await"
  | .throw _ => "Throw"
  | .matchOn _ _ => "Match"

mutual

def Term.toJson : Term → Json
  | .mk node span =>
    .present [(node.tag, some node.toJson), ("span", span.map Span.toJson)]
termination_by structural t => t

def Node.toJson : Node → Json
  | .literal l => l.toJson
  | .var name => .string name
  | .value v => v.toJson
  | .unary op e => .object [("op", .string op.tag), ("operand", e.toJson)]
  | .binary op a b => .object [("op", .string op.tag), ("lhs", a.toJson), ("rhs", b.toJson)]
  | .ifElse test yes no =>
    .object [("cond", test.toJson), ("then", yes.toJson), ("otherwise", no.toJson)]
  | .letIn p init body =>
    .object [("pattern", p.toJson), ("init", init.toJson), ("body", body.toJson)]
  | .lambda f => f.toJson
  | .call callee args =>
    .object [("callee", callee.toJson), ("args", .array (Term.listToJson args))]
  | .object entries => .array (Entry.listToJson entries)
  | .array items => .array (Item.listToJson items)
  | .field e name => .object [("object", e.toJson), ("name", .string name)]
  | .index e key => .object [("object", e.toJson), ("index", key.toJson)]
  | .template parts => .array (Part.listToJson parts)
  | .block statements result =>
    .object [("items", .array (Statement.listToJson statements)), ("result", result.toJson)]
  | .await e | .throw e => e.toJson
  | .matchOn e cases =>
    .object [("scrutinee", e.toJson), ("cases", .array (Case.listToJson cases))]
termination_by structural n => n

def Lambda.toJson : Lambda → Json
  | .mk _ name params body =>
    .present [("name", name.map .string), ("params", some (.array (Param.listToJson params))),
      ("body", some body.toJson)]
termination_by structural f => f

def Param.listToJson : List Param → List Json
  | [] => []
  | .mk name none :: ps => .object [("name", .string name)] :: Param.listToJson ps
  | .mk name (some ty) :: ps =>
    .object [("name", .string name), ("ty", ty.toJson)] :: Param.listToJson ps
termination_by structural ps => ps

def Term.listToJson : List Term → List Json
  | [] => []
  | e :: es => e.toJson :: Term.listToJson es
termination_by structural es => es

def Entry.listToJson : List Entry → List Json
  | [] => []
  | .field name e :: es =>
    .tagged "Field" (.object [("name", .string name), ("value", e.toJson)]) :: Entry.listToJson es
  | .spread e :: es => .tagged "Spread" e.toJson :: Entry.listToJson es
termination_by structural es => es

def Item.listToJson : List Item → List Json
  | [] => []
  | .item e :: es => .tagged "Item" e.toJson :: Item.listToJson es
  | .spread e :: es => .tagged "Spread" e.toJson :: Item.listToJson es
termination_by structural es => es

def Part.listToJson : List Part → List Json
  | [] => []
  | .text s :: es => .tagged "Text" (.string s) :: Part.listToJson es
  | .interp e :: es => .tagged "Expr" e.toJson :: Part.listToJson es
termination_by structural es => es

def Statement.listToJson : List Statement → List Json
  | [] => []
  | .bind p e :: ss =>
    .tagged "Let" (.object [("pattern", p.toJson), ("init", e.toJson)]) :: Statement.listToJson ss
  | .eval e :: ss => .tagged "Expr" e.toJson :: Statement.listToJson ss
  | .load names module :: ss =>
    .tagged "Import" (.object [("names", .strings names), ("module", .string module)]) ::
      Statement.listToJson ss
termination_by structural ss => ss

def Case.listToJson : List Case → List Json
  | [] => []
  | .mk p none body :: cs =>
    .object [("pattern", p.toJson), ("body", body.toJson)] :: Case.listToJson cs
  | .mk p (some guard) body :: cs =>
    .object [("pattern", p.toJson), ("guard", guard.toJson), ("body", body.toJson)] ::
      Case.listToJson cs
termination_by structural cs => cs

def Pattern.toJson : Pattern → Json
  | .wildcard => .string "Wildcard"
  | .binding name => .tagged "Binding" (.string name)
  | .literal l => .tagged "Literal" l.toJson
  | .object fields => .tagged "Object" (.array (Pattern.fieldsToJson fields))
  | .array items rest =>
    .tagged "Array"
      (.present [("items", some (.array (Pattern.listToJson items))), ("rest", rest.map .string)])
  | .type ty inner => .tagged "Type" (.object [("ty", ty.toJson), ("inner", inner.toJson)])
termination_by structural p => p

def Pattern.fieldsToJson : List (String × Pattern) → List Json
  | [] => []
  | (name, p) :: fields =>
    .object [("name", .string name), ("pattern", p.toJson)] :: Pattern.fieldsToJson fields
termination_by structural fields => fields

def Pattern.listToJson : List Pattern → List Json
  | [] => []
  | p :: ps => p.toJson :: Pattern.listToJson ps
termination_by structural ps => ps

end

end Stagewise
