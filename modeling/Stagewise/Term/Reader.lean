import Stagewise.Term.Json

/-!
# Reading programs

Reads the documents of programs. Every function literal gets an identity of its own.
-/

set_option autoImplicit false

namespace Stagewise

abbrev Decoder := StateT Nat Option

namespace Decoder

def freshId : Decoder Nat := modifyGet fun n => (n, n + 1)

def fail {α : Type} : Decoder α := fun _ => none

def required (names : List String) (json : Json) : Decoder (List Json) := do
  let parts ← json.parts? names
  parts.mapM fun part => (part : Option Json)

def optional {α : Type} (read : Json → Decoder α) : Option Json → Decoder (Option α)
  | none | some .null => pure none
  | some json => some <$> read json

def list {α : Type} (read : Json → Decoder α) (json : Json) : Decoder (List α) := do
  let items ← json.array?
  items.mapM read

end Decoder

def Node.tags : List String :=
  ["Literal", "Var", "Value", "Unary", "Binary", "If", "Let", "Lambda", "Call", "Object", "Array",
    "Field", "Index", "Template", "Block", "Await", "Throw", "Match"]

mutual

def Term.decode (depth : Nat) (json : Json) : Decoder Term :=
  match depth with
  | 0 => Decoder.fail
  | depth + 1 => do
    let fields ← json.object?
    let (tag, payload) ← fields.find? fun (name, _) => Node.tags.contains name
    let spans := fields.filter fun (name, _) => name == "span"
    if 1 < spans.length then Decoder.fail
    else
      let span ← Json.optional? Span.ofJson? (Association.find? "span" fields)
      return .mk (← Node.decode depth tag payload) span
termination_by structural depth

def Node.decode (depth : Nat) (tag : String) (json : Json) : Decoder Node :=
  match depth with
  | 0 => Decoder.fail
  | depth + 1 =>
    match tag with
    | "Literal" => do return .literal (← Literal.ofJson? .program json)
    | "Var" => do return .var (← json.string?)
    | "Value" => do return .value (← Value.ofJson? .program json)
    | "Unary" => do
      match ← Decoder.required ["op", "operand"] json with
      | [op, e] => return .unary (← UnaryOp.ofTag? (← op.bareTag? .program)) (← Term.decode depth e)
      | _ => Decoder.fail
    | "Binary" => do
      match ← Decoder.required ["op", "lhs", "rhs"] json with
      | [op, a, b] =>
        return .binary (← BinaryOp.ofTag? (← op.bareTag? .program)) (← Term.decode depth a)
          (← Term.decode depth b)
      | _ => Decoder.fail
    | "If" => do
      match ← Decoder.required ["cond", "then", "otherwise"] json with
      | [test, yes, no] =>
        return .ifElse (← Term.decode depth test) (← Term.decode depth yes)
          (← Term.decode depth no)
      | _ => Decoder.fail
    | "Let" => do
      match ← Decoder.required ["pattern", "init", "body"] json with
      | [p, init, body] =>
        return .letIn (← Pattern.decode .program depth p) (← Term.decode depth init)
          (← Term.decode depth body)
      | _ => Decoder.fail
    | "Lambda" => do
      match ← json.parts? ["name", "params", "body"] with
      | [name, some params, some body] =>
        let id ← Decoder.freshId
        return .lambda (.mk id (← Json.optional? Json.string? name)
          (← Decoder.list (Param.decode depth) params) (← Term.decode depth body))
      | _ => Decoder.fail
    | "Call" => do
      match ← Decoder.required ["callee", "args"] json with
      | [callee, args] =>
        return .call (← Term.decode depth callee) (← Decoder.list (Term.decode depth) args)
      | _ => Decoder.fail
    | "Object" => do return .object (← Decoder.list (Entry.decode depth) json)
    | "Array" => do return .array (← Decoder.list (Item.decode depth) json)
    | "Field" => do
      match ← Decoder.required ["object", "name"] json with
      | [e, name] => return .field (← Term.decode depth e) (← name.string?)
      | _ => Decoder.fail
    | "Index" => do
      match ← Decoder.required ["object", "index"] json with
      | [e, key] => return .index (← Term.decode depth e) (← Term.decode depth key)
      | _ => Decoder.fail
    | "Template" => do return .template (← Decoder.list (Part.decode depth) json)
    | "Block" => do
      match ← Decoder.required ["items", "result"] json with
      | [items, result] =>
        return .block (← Decoder.list (Statement.decode depth) items) (← Term.decode depth result)
      | _ => Decoder.fail
    | "Await" => do return .await (← Term.decode depth json)
    | "Throw" => do return .throw (← Term.decode depth json)
    | "Match" => do
      match ← Decoder.required ["scrutinee", "cases"] json with
      | [e, cases] =>
        return .matchOn (← Term.decode depth e) (← Decoder.list (Case.decode depth) cases)
      | _ => Decoder.fail
    | _ => Decoder.fail
termination_by structural depth

def Param.decode (depth : Nat) (json : Json) : Decoder Param :=
  match depth with
  | 0 => Decoder.fail
  | depth + 1 => do
    match ← json.parts? ["name", "ty"] with
    | [some name, ty] => return .mk (← name.string?) (← Decoder.optional (Term.decode depth) ty)
    | _ => Decoder.fail
termination_by structural depth

def Entry.decode (depth : Nat) (json : Json) : Decoder Entry :=
  match depth with
  | 0 => Decoder.fail
  | depth + 1 => do
    match ← json.variant? with
    | ("Field", some payload) =>
      match ← Decoder.required ["name", "value"] payload with
      | [name, e] => return .field (← name.string?) (← Term.decode depth e)
      | _ => Decoder.fail
    | ("Spread", some payload) => return .spread (← Term.decode depth payload)
    | _ => Decoder.fail
termination_by structural depth

def Item.decode (depth : Nat) (json : Json) : Decoder Item :=
  match depth with
  | 0 => Decoder.fail
  | depth + 1 => do
    match ← json.variant? with
    | ("Item", some payload) => return .item (← Term.decode depth payload)
    | ("Spread", some payload) => return .spread (← Term.decode depth payload)
    | _ => Decoder.fail
termination_by structural depth

def Part.decode (depth : Nat) (json : Json) : Decoder Part :=
  match depth with
  | 0 => Decoder.fail
  | depth + 1 => do
    match ← json.variant? with
    | ("Text", some payload) => return .text (← payload.string?)
    | ("Expr", some payload) => return .interp (← Term.decode depth payload)
    | _ => Decoder.fail
termination_by structural depth

def Statement.decode (depth : Nat) (json : Json) : Decoder Statement :=
  match depth with
  | 0 => Decoder.fail
  | depth + 1 => do
    match ← json.variant? with
    | ("Let", some payload) =>
      match ← Decoder.required ["pattern", "init"] payload with
      | [p, init] => return .bind (← Pattern.decode .program depth p) (← Term.decode depth init)
      | _ => Decoder.fail
    | ("Expr", some payload) => return .eval (← Term.decode depth payload)
    | ("Import", some payload) =>
      match ← Decoder.required ["names", "module"] payload with
      | [names, module] =>
        return .load (← Decoder.list (fun name => (name.string? : Option String)) names)
          (← module.string?)
      | _ => Decoder.fail
    | _ => Decoder.fail
termination_by structural depth

def Case.decode (depth : Nat) (json : Json) : Decoder Case :=
  match depth with
  | 0 => Decoder.fail
  | depth + 1 => do
    match ← json.parts? ["pattern", "guard", "body"] with
    | [some p, guard, some body] =>
      return .mk (← Pattern.decode .program depth p) (← Decoder.optional (Term.decode depth) guard)
        (← Term.decode depth body)
    | _ => Decoder.fail
termination_by structural depth

def Pattern.decode (d : Json.Dialect) (depth : Nat) (json : Json) : Decoder Pattern :=
  match depth with
  | 0 => Decoder.fail
  | depth + 1 => do
    match ← json.variant? with
    | ("Wildcard", payload) =>
      if d.isBare payload then return .wildcard else Decoder.fail
    | ("Binding", some payload) => return .binding (← payload.string?)
    | ("Literal", some payload) => return .literal (← Literal.ofJson? d payload)
    | ("Object", some payload) =>
      return .object (← Decoder.list (Pattern.decodeField d depth) payload)
    | ("Array", some payload) =>
      match ← payload.parts? ["items", "rest"] with
      | [some items, rest] =>
        return .array (← Decoder.list (Pattern.decode d depth) items)
          (← Json.optional? Json.string? rest)
      | _ => Decoder.fail
    | ("Type", some payload) =>
      match ← Decoder.required ["ty", "inner"] payload with
      | [ty, inner] => return .type (← Term.decode depth ty) (← Pattern.decode d depth inner)
      | _ => Decoder.fail
    | _ => Decoder.fail
termination_by structural depth

def Pattern.decodeField (d : Json.Dialect) (depth : Nat) (json : Json) :
    Decoder (String × Pattern) :=
  match depth with
  | 0 => Decoder.fail
  | depth + 1 => do
    match ← Decoder.required ["name", "pattern"] json with
    | [name, p] => return (← name.string?, ← Pattern.decode d depth p)
    | _ => Decoder.fail
termination_by structural depth

end

/-- What a decoder reads when function literals are counted from zero; each level of a document
takes at most two steps. -/
def Decoder.run? {α : Type} (decode : Nat → Json → Decoder α) (json : Json) : Option α :=
  (decode (2 * json.depth + 2) json 0).map Prod.fst

def Term.ofJson? (json : Json) : Option Term := Decoder.run? Term.decode json

def Pattern.ofJson? (json : Json) : Option Pattern := Decoder.run? (Pattern.decode .plain) json

end Stagewise
