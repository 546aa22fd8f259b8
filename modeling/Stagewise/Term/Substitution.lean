import Stagewise.Term.Names

/-!
# Substitution

Puts a program in the place of a free name. Names that the program introduces are chosen so that
they do not capture, so no renaming takes place.
-/

set_option autoImplicit false

namespace Stagewise

structure Replacement where
  name : String
  term : Term

mutual

def Term.substitute (r : Replacement) : Term → Term
  | .mk node span =>
    if (Term.mk node span).mentions r.name then node.substitute r span else .mk node span
termination_by structural e => e

def Node.substitute (r : Replacement) (span : Option Span) : Node → Term
  | .literal l => .mk (.literal l) span
  | .var v => if v = r.name then r.term else .mk (.var v) span
  | .value v => .mk (.value v) span
  | .unary op e => .mk (.unary op (e.substitute r)) span
  | .binary op a b => .mk (.binary op (a.substitute r) (b.substitute r)) span
  | .ifElse test yes no =>
    .mk (.ifElse (test.substitute r) (yes.substitute r) (no.substitute r)) span
  | .letIn p init body =>
    .mk (.letIn p (init.substitute r)
      (if p.names.contains r.name then body else body.substitute r)) span
  | .lambda f => .mk (.lambda (f.substitute r)) span
  | .call callee args => .mk (.call (callee.substitute r) (Term.substituteList r args)) span
  | .object entries => .mk (.object (Entry.substituteList r entries)) span
  | .array items => .mk (.array (Item.substituteList r items)) span
  | .field e name => .mk (.field (e.substitute r) name) span
  | .index e key => .mk (.index (e.substitute r) (key.substitute r)) span
  | .template parts => .mk (.template (Part.substituteList r parts)) span
  | .block statements result =>
    .mk (.block (Statement.substituteList r statements) (result.substitute r)) span
  | .await e => .mk (.await (e.substitute r)) span
  | .throw e => .mk (.throw (e.substitute r)) span
  | .matchOn e cases => .mk (.matchOn (e.substitute r) (Case.substituteList r cases)) span
termination_by structural n => n

def Lambda.substitute (r : Replacement) : Lambda → Lambda
  | .mk id self params body =>
    if (Lambda.mk id self params body).boundNames.contains r.name then .mk id self params body
    else .mk id self params (body.substitute r)
termination_by structural f => f

def Term.substituteList (r : Replacement) : List Term → List Term
  | [] => []
  | e :: es => e.substitute r :: Term.substituteList r es
termination_by structural es => es

def Entry.substituteList (r : Replacement) : List Entry → List Entry
  | [] => []
  | .field name e :: es => .field name (e.substitute r) :: Entry.substituteList r es
  | .spread e :: es => .spread (e.substitute r) :: Entry.substituteList r es
termination_by structural es => es

def Item.substituteList (r : Replacement) : List Item → List Item
  | [] => []
  | .item e :: es => .item (e.substitute r) :: Item.substituteList r es
  | .spread e :: es => .spread (e.substitute r) :: Item.substituteList r es
termination_by structural es => es

def Part.substituteList (r : Replacement) : List Part → List Part
  | [] => []
  | .text text :: es => .text text :: Part.substituteList r es
  | .interp e :: es => .interp (e.substitute r) :: Part.substituteList r es
termination_by structural es => es

def Statement.substituteList (r : Replacement) : List Statement → List Statement
  | [] => []
  | .bind p e :: ss => .bind p (e.substitute r) :: Statement.substituteList r ss
  | .eval e :: ss => .eval (e.substitute r) :: Statement.substituteList r ss
  | .load names module :: ss => .load names module :: Statement.substituteList r ss
termination_by structural ss => ss

def Case.substituteList (r : Replacement) : List Case → List Case
  | [] => []
  | .mk p none body :: cs => .mk p none (body.substitute r) :: Case.substituteList r cs
  | .mk p (some guard) body :: cs =>
    .mk p (some (guard.substitute r)) (body.substitute r) :: Case.substituteList r cs
termination_by structural cs => cs

end

end Stagewise
