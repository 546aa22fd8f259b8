import Stagewise.Staging.Term

/-!
# Staging of programs

Stages a whole program: its result, the residual program that computes the result from the
runtime inputs, and the findings on the way.
-/

set_option autoImplicit false

namespace Stagewise

/-- How many programs may be entered without a call, to evaluate declared types and to express
functions that functions return. -/
def entryAllowance : Nat := 4096

def Context.ofLevels (options : Options) (imports : Imports) : Nat → Context
  | 0 => {
      options, imports
      enter := fun e _ => .failAt e.span (.depthExceeded options.maxCallDepth)
      residualize := fun _ _ => .fail (.depthExceeded options.maxCallDepth) }
  | levels + 1 => {
      options, imports
      enter := fun e scope => e.stage (Context.ofLevels options imports levels) scope
      residualize := fun v scope =>
        v.residualize (Context.ofLevels options imports levels) scope }

def Context.ofOptions (options : Options) (imports : Imports) : Context :=
  .ofLevels options imports (options.maxCallDepth + entryAllowance)

def Node.outerNames : Node → List String
  | .call callee args =>
    if callee.asVar? = some "runtime" then
      match args[1]?.bind Term.asLiteral? with
      | some (.string name) => [name]
      | _ => [defaultInput]
    else []
  | .block statements _ => statements.flatMap fun s =>
    match s with
    | .load names _ => names
    | _ => []
  | _ => []

def Term.reservedNames (e : Term) : List String :=
  Registry.names ++ e.freeNames ++ e.walk.flatMap fun part => part.node.outerNames

def Term.nextLambda (e : Term) : Nat :=
  e.walk.foldl (fun next part =>
    match part.node with
    | .lambda f => max next (f.id + 1)
    | _ => next) 0

def Session.start (e : Term) : Session :=
  { reserved := e.reservedNames, nextLambda := e.nextLambda }

structure StagedProgram where
  residual : Term
  result : Staged
  diagnostics : List Diagnostic
  specializations : Nat

namespace StagedProgram

def value? (p : StagedProgram) : Option Value := p.result.value?

def constraint (p : StagedProgram) : Constraint := p.result.constraint

def hasErrors (p : StagedProgram) : Bool := p.diagnostics.any Diagnostic.isError

def warnings (p : StagedProgram) : List Diagnostic := p.diagnostics.filter fun d => !d.isError

end StagedProgram

def Term.stageWhole (ctx : Context) (e : Term) : Stage (Staged × Term) := do
  let result ← e.stage ctx .empty
  return (result, ← result.residualize ctx .empty)

def Term.staged (imports : Imports) (options : Options) (e : Term) : Outcome StagedProgram :=
  match e.stageWhole (.ofOptions options imports) (.start e) with
  | .ok (result, residual) session =>
    .ok ⟨residual, result, session.diagnostics, session.specializations⟩
  | .error error _ => .error error

end Stagewise
