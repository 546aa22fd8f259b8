import Stagewise.Staging.Call
import Stagewise.Staging.Operator

/-!
# Conditions and assertions

What staging does with conditions, assertions and runtime inputs once their parts are staged.
-/

set_option autoImplicit false

namespace Stagewise

def defaultInput : String := "input"

namespace Scope

def branch? (options : Options) (scope : Scope) (refinements : Refinements) (condition : Term) :
    Stage (Option Scope) := do
  let refined := scope.refine refinements
  let impossible := refinements.find? fun (name, _) =>
    ((refined.get? name).map fun v => v.constraint.isNever) == some true
  match impossible with
  | none => return some refined
  | some (name, _) =>
    if options.warnUnreachable then
      Stage.warn s!"unreachable branch: `{name}` cannot satisfy `{condition.text}`" condition.span
    return none

/-- Bind the names that are imported from a module; those that are only declared are bound in the
residual program too, and listed. -/
def load (imports : Imports) (module : String) :
    Scope → List String → Stage (Scope × List String)
  | scope, [] => pure (scope, [])
  | scope, name :: names =>
    match imports.resolve? module name with
    | some (.value v) => load imports module (scope.bind name (.ofValue v)) names
    | some (.declared c) => do
      let binding : Binding := ⟨name, ← Stage.freshId⟩
      let (scope, declared) ←
        load imports module ((scope.bind name (.later c (.var name))).bindResidual binding) names
      return (scope, name :: declared)
    | none => .fail (.noExport module name)

/-- The form that a name stands for unless the program binds the name. -/
def form? (scope : Scope) (callee : Term) : Option Form :=
  match callee.asVar? with
  | some name => if scope.contains name then none else Form.ofName? name
  | none => none

end Scope

namespace Staged

/-- Evaluate a condition before a value, where leaving it out would show. -/
def keepEffect (ctx : Context) (scope : Scope) (effect : Term) (v : Staged) : Stage Staged := do
  if effect.isPure then return v
  else return .later v.constraint (.letIn .wildcard effect (← v.residualize ctx scope))

def withImports (ctx : Context) (scope : Scope) (module : String) (declared : List String)
    (v : Staged) : Stage Staged := do
  if v.isNow || declared.isEmpty then return v
  else
    let residual ← v.residualize ctx scope
    match declared.filter residual.mentions with
    | [] => return v
    | used => return .later v.constraint (.block [.load used module] residual)

def asInput (name : String) (e : Term) : Staged → Stage Staged
  | .now _ c _ => pure (.later c (.var name))
  | _ => .failAt e.span (.inputNotKnown e)

def asInputName (e : Term) (v : Staged) : Stage String :=
  match v.value? with
  | some (.string name) => pure name
  | _ => .failAt e.span .inputNameNotKnown

def assertTrue (ctx : Context) (scope : Scope) (condition : Term) (v : Staged) : Stage Staged := do
  match v.value? with
  | some (.bool true) => return .ofValue (.bool true)
  | some (.bool false) => .failAt condition.span (.assertedFalse condition)
  | some other => .fail (.assertNotBoolean (.value other))
  | none =>
    let c := v.constraint
    Stage.ensure (c.isNever || !c.disjoint (.kind .bool)) (.assertNotBoolean (.known c))
    if c == .ofBool false then
      Stage.warn s!"assertion `{condition.text}` always fails" condition.span
    return .later (.ofBool true) (.callNamed "assert" [← v.residualize ctx scope])

def assertType (ctx : Context) (scope : Scope) (span : Option Span) (ty : Constraint)
    (v : Staged) : Stage Staged := do
  let c := v.constraint
  match v.value? with
  | some w =>
    if ty.admits w then return v.withConstraint (c.unify ty)
    else .failAt span (.notSatisfied w ty)
  | none =>
    if c.implies ty then return v
    else
      let narrowed ←
        if c.disjoint ty then do
          Stage.warn s!"{c.text} can never satisfy {ty.text}" span
          pure ty
        else pure (c.unify ty)
      return .later narrowed (.callNamed "assert" [← v.residualize ctx scope, .type ty])

/-- See a value as one of a constraint. Arrays, objects and functions keep their parts unless the
constraint tells more than these do. -/
def withTrust (ctx : Context) (scope : Scope) (c : Constraint) (v : Staged) : Stage Staged := do
  match v with
  | .now _ _ _ | .later _ _ => return v.withConstraint c
  | _ =>
    if v.constraint.implies c then return v
    else return .later c (← v.residualize ctx scope)

def trust (ctx : Context) (scope : Scope) (span : Option Span) (ty : Constraint) (v : Staged) :
    Stage Staged := do
  let trusted := v.constraint.unify ty
  if trusted.isNever then
    Stage.warn s!"trusting {v.constraint.text} as incompatible {ty.text}" span
    v.withTrust ctx scope ty
  else v.withTrust ctx scope trusted

def method? (receiver : Staged) (name : String) : Option Builtin :=
  if hasOwnField then none else Builtin.ofMethod? name
where
  hasOwnField : Bool :=
    match receiver with
    | .now (.object fields) _ _ => Association.contains name fields
    | .object fields _ => Association.contains name fields
    | .later c _ => !c.implies .sequence
    | _ => false

def asPatternType (ty : Term) : Staged → Stage Constraint
  | .now (.type c) _ _ => pure c
  | .now v _ _ => .fail (.notAType (.value v))
  | _ => .failAt ty.span (.typeNotKnown ty)

end Staged

def Term.assertedCondition? : Term → Option Term
  | .mk (.call callee [condition]) _ =>
    if callee.asVar? = some "assert" then some condition else none
  | _ => none

end Stagewise
