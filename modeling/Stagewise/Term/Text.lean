import Stagewise.Value.Text

/-!
# Text of programs

A compact form of programs on one line, for messages and reports.
-/

set_option autoImplicit false

namespace Stagewise

def Literal.text : Literal → String
  | .number n => n.text
  | .string s => Text.quote s
  | .bool b => if b then "true" else "false"
  | .null => "null"

def Term.grouped (e : Term) (text : String) : String :=
  match e with
  | .mk (.binary _ _ _) _ | .mk (.unary _ _) _ | .mk (.ifElse _ _ _) _ | .mk (.letIn _ _ _) _
  | .mk (.lambda _) _ | .mk (.await _) _ | .mk (.throw _) _ => "(" ++ text ++ ")"
  | _ => text

def Text.braced (s : String) : String := "\x7b " ++ s ++ " \x7d"

def Text.inTemplate (s : String) : String :=
  String.ofList (s.toList.flatMap fun c => if c = '\x60' then ['\\', c] else [c])

mutual

def Term.text : Term → String
  | .mk node _ => node.text
termination_by structural e => e

def Node.text : Node → String
  | .literal l => l.text
  | .var name => name
  | .value v =>
    match v with
    | .type c => "type(" ++ c.text ++ ")"
    | v => v.repr
  | .unary op e => op.symbol ++ e.grouped e.text
  | .binary op a b => a.grouped a.text ++ " " ++ op.symbol ++ " " ++ b.grouped b.text
  | .ifElse test yes no => "if " ++ test.text ++ " then " ++ yes.text ++ " else " ++ no.text
  | .letIn p init body => "let " ++ p.text ++ " = " ++ init.text ++ " in " ++ body.text
  | .lambda f => f.text
  | .call callee args =>
    callee.grouped callee.text ++ "(" ++ Text.join ", " (Term.textList args) ++ ")"
  | .object [] => "\x7b\x7d"
  | .object entries => Text.braced (Text.join ", " (Entry.textList entries))
  | .array items => "[" ++ Text.join ", " (Item.textList items) ++ "]"
  | .field e name => e.grouped e.text ++ "." ++ name
  | .index e key => e.grouped e.text ++ "[" ++ key.text ++ "]"
  | .template parts => "`" ++ Text.join "" (Part.textList parts) ++ "`"
  | .block statements result =>
    Text.braced (Text.join "" (Statement.textList statements) ++ result.text)
  | .await e => "await " ++ e.grouped e.text
  | .throw e => "throw " ++ e.grouped e.text
  | .matchOn e cases =>
    "match " ++ e.text ++ " \x7b " ++ Text.join "" (Case.textList cases) ++ "\x7d"
termination_by structural n => n

def Lambda.text : Lambda → String
  | .mk _ name params body =>
    "fn" ++ (match name with
      | some name => " " ++ name
      | none => "") ++
    "(" ++ Text.join ", " (Param.textList params) ++ ") " ++ Text.braced body.text
termination_by structural f => f

def Param.textList : List Param → List String
  | [] => []
  | .mk name none :: ps => name :: Param.textList ps
  | .mk name (some ty) :: ps => (name ++ ": " ++ ty.text) :: Param.textList ps
termination_by structural ps => ps

def Term.textList : List Term → List String
  | [] => []
  | e :: es => e.text :: Term.textList es
termination_by structural es => es

def Entry.textList : List Entry → List String
  | [] => []
  | .field name e :: es => (name ++ ": " ++ e.text) :: Entry.textList es
  | .spread e :: es => ("..." ++ e.text) :: Entry.textList es
termination_by structural es => es

def Item.textList : List Item → List String
  | [] => []
  | .item e :: es => e.text :: Item.textList es
  | .spread e :: es => ("..." ++ e.text) :: Item.textList es
termination_by structural es => es

def Part.textList : List Part → List String
  | [] => []
  | .text s :: es => Text.inTemplate s :: Part.textList es
  | .interp e :: es => ("$\x7b" ++ e.text ++ "\x7d") :: Part.textList es
termination_by structural es => es

def Statement.textList : List Statement → List String
  | [] => []
  | .bind p e :: ss => ("let " ++ p.text ++ " = " ++ e.text ++ "; ") :: Statement.textList ss
  | .eval e :: ss => (e.text ++ "; ") :: Statement.textList ss
  | .load names module :: ss =>
    ("import " ++ Text.braced (Text.join ", " names) ++ " from " ++ Text.quote module ++ "; ") ::
      Statement.textList ss
termination_by structural ss => ss

def Case.textList : List Case → List String
  | [] => []
  | .mk p none body :: cs => (p.text ++ " => " ++ body.text ++ "; ") :: Case.textList cs
  | .mk p (some guard) body :: cs =>
    (p.text ++ " if " ++ guard.text ++ " => " ++ body.text ++ "; ") :: Case.textList cs
termination_by structural cs => cs

def Pattern.text : Pattern → String
  | .wildcard => "_"
  | .binding name => name
  | .literal l => l.text
  | .object fields => Text.braced (Text.join ", " (Pattern.fieldTexts fields))
  | .array items rest =>
    "[" ++ Text.join ", " (Pattern.textList items ++ (rest.map ("..." ++ ·)).toList) ++ "]"
  | .type ty inner =>
    match inner with
    | .wildcard => ty.text
    | inner => ty.text ++ " as " ++ inner.text
termination_by structural p => p

def Pattern.fieldTexts : List (String × Pattern) → List String
  | [] => []
  | (name, p) :: fields =>
    (match p with
      | .binding bound => if bound = name then name else name ++ ": " ++ bound
      | p => name ++ ": " ++ p.text) :: Pattern.fieldTexts fields
termination_by structural fields => fields

def Pattern.textList : List Pattern → List String
  | [] => []
  | p :: ps => p.text :: Pattern.textList ps
termination_by structural ps => ps

end

end Stagewise
