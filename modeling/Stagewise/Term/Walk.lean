import Stagewise.Term.Basic

/-!
# Walking programs

The programs inside a program, from the outside in and otherwise in the order in which they are
evaluated, and what can be read off them: whether a program is cheap and whether it is pure.
-/

set_option autoImplicit false

namespace Stagewise

namespace Term

mutual

def walk : Term → List Term
  | .mk node span => .mk node span :: walkNode node
termination_by structural e => e

def walkNode : Node → List Term
  | .literal _ | .var _ | .value _ => []
  | .unary _ e => e.walk
  | .binary _ a b => a.walk ++ b.walk
  | .ifElse test yes no => test.walk ++ yes.walk ++ no.walk
  | .letIn p init body => walkPattern p ++ init.walk ++ body.walk
  | .lambda f => walkLambda f
  | .call callee args => callee.walk ++ walkList args
  | .object entries => walkEntries entries
  | .array items => walkItems items
  | .field e _ => e.walk
  | .index e key => e.walk ++ key.walk
  | .template parts => walkParts parts
  | .block statements result => walkStatements statements ++ result.walk
  | .await e | .throw e => e.walk
  | .matchOn e cases => e.walk ++ walkCases cases
termination_by structural n => n

def walkLambda : Lambda → List Term
  | .mk _ _ params body => walkParams params ++ body.walk
termination_by structural f => f

def walkParams : List Param → List Term
  | [] => []
  | .mk _ none :: ps => walkParams ps
  | .mk _ (some ty) :: ps => ty.walk ++ walkParams ps
termination_by structural ps => ps

def walkList : List Term → List Term
  | [] => []
  | e :: es => e.walk ++ walkList es
termination_by structural es => es

def walkEntries : List Entry → List Term
  | [] => []
  | .field _ e :: es => e.walk ++ walkEntries es
  | .spread e :: es => e.walk ++ walkEntries es
termination_by structural es => es

def walkItems : List Item → List Term
  | [] => []
  | .item e :: es => e.walk ++ walkItems es
  | .spread e :: es => e.walk ++ walkItems es
termination_by structural es => es

def walkParts : List Part → List Term
  | [] => []
  | .text _ :: es => walkParts es
  | .interp e :: es => e.walk ++ walkParts es
termination_by structural es => es

def walkStatements : List Statement → List Term
  | [] => []
  | .bind p e :: ss => walkPattern p ++ e.walk ++ walkStatements ss
  | .eval e :: ss => e.walk ++ walkStatements ss
  | .load _ _ :: ss => walkStatements ss
termination_by structural ss => ss

def walkCases : List Case → List Term
  | [] => []
  | .mk p none body :: cs => walkPattern p ++ body.walk ++ walkCases cs
  | .mk p (some guard) body :: cs =>
    walkPattern p ++ guard.walk ++ body.walk ++ walkCases cs
termination_by structural cs => cs

def walkPattern : Pattern → List Term
  | .wildcard | .binding _ | .literal _ => []
  | .object fields => walkPatternFields fields
  | .array items _ => walkPatterns items
  | .type ty inner => ty.walk ++ walkPattern inner
termination_by structural p => p

def walkPatternFields : List (String × Pattern) → List Term
  | [] => []
  | (_, p) :: fields => walkPattern p ++ walkPatternFields fields
termination_by structural fields => fields

def walkPatterns : List Pattern → List Term
  | [] => []
  | p :: ps => walkPattern p ++ walkPatterns ps
termination_by structural ps => ps

end

def isTrivial (e : Term) : Bool :=
  match e.node with
  | .literal _ | .var _ => true
  | _ => false

/-- What evaluation can show apart from its result: throwing, waiting and asserting. -/
def isEffect (e : Term) : Bool :=
  match e.node with
  | .throw _ | .await _ => true
  | .call callee _ => callee.asVar? == some "assert"
  | _ => false

def isPure (e : Term) : Bool := !e.walk.any isEffect

end Term

end Stagewise
