import Stagewise.Imports
import Stagewise.Staging.Session
import Stagewise.Term.Build
import Stagewise.Term.Names

/-!
# Residual programs

The program that computes a staged value at runtime. A function becomes a definition, which is
staged for unknown arguments.
-/

set_option autoImplicit false

namespace Stagewise

/-- What staging relies on beside the program. A call leaves the program for the body of a
function, so the ways to stage another program and to express another value are given. -/
structure Context where
  options : Options
  imports : Imports
  enter : Term → Scope → Stage Staged
  residualize : Staged → Scope → Stage Term

def Staged.asType (ty : Term) : Staged → Stage Constraint
  | .now (.type c) _ _ => pure c
  | .now v _ _ => .failAt ty.span (.notAType (.value v))
  | _ => .failAt ty.span (.typeNotKnown ty)

def Staged.asInhabitedType (ty : Term) (v : Staged) : Stage Constraint := do
  let c ← v.asType ty
  if c.simplify.isNever then .failAt ty.span (.emptyType ty) else return c

structure Slot where
  fixed : Option Staged := none
  hint : Option Constraint := none

structure Signature where
  params : List Param := []
  values : List (String × Staged) := []
  scope : Scope

namespace Context

def declaredType (ctx : Context) (ty : Term) (scope : Scope) : Stage Constraint := do
  (← ctx.enter ty scope).asInhabitedType ty

def declaredType? (ctx : Context) (ty : Option Term) (scope : Scope) :
    Stage (Option Constraint) :=
  match ty with
  | some ty => do return some (← ctx.declaredType ty scope)
  | none => pure none

def stageParams (ctx : Context) (definitionScope : Scope) :
    List Param → List Slot → Signature → Stage Signature
  | .mk name ty :: params, slot :: slots, signature =>
    match slot.fixed with
    | some v =>
      ctx.stageParams definitionScope params slots
        { signature with values := signature.values ++ [(name, v)] }
    | none => do
      let declared ← ctx.declaredType? ty definitionScope
      let c := (slot.hint.or declared).getD .any
      let binding ← Stage.freshBinding name signature.scope
      ctx.stageParams definitionScope params slots {
        params := signature.params ++ [.mk binding.name (declared.map Term.type)]
        values := signature.values ++ [(name, .later c (.var binding.name))]
        scope := signature.scope.bindResidual binding }
  | _, _, signature => pure signature

def definitionScope (f : Closure) (name : Option String) (self : Option Binding) :
    Stage Scope := do
  let scope := match self with
    | none => f.scope
    | some binding =>
      let scope := match f.lambda.name with
        | some own => f.scope.bind own (.closure (f.withBinding? (some binding)))
        | none => f.scope
      scope.bindResidual binding
  match name with
  | some name =>
    if self.map Binding.name = some name then return scope
    else return scope.bindResidual ⟨name, ← Stage.freshId⟩
  | none => return scope

def stageDefinition (ctx : Context) (f : Closure) (name : Option String) (self : Option Binding)
    (slots : List Slot) : Stage (Term × Constraint) := do
  if (← get).depth < ctx.options.maxCallDepth then
    let scope ← definitionScope f name self
    let signature ← ctx.stageParams f.scope f.lambda.params slots { scope }
    let scope := signature.scope.bind argumentsName (.ofItems (signature.values.map Prod.snd))
    let scope := signature.values.foldl (fun scope (name, v) => scope.bind name v) scope
    let body ← (ctx.enter f.lambda.body scope).deeper
    let residual ← ctx.residualize body scope
    return (.lambda (.mk (← Stage.freshLambda) name signature.params residual), body.constraint)
  else .failAt f.lambda.body.span (.depthExceeded ctx.options.maxCallDepth)

/-- Stage the definition of a binding for all arguments, once; the constraint of its results. A
definition that calls itself knows nothing of its results. -/
def ensureGeneral (ctx : Context) (f : Closure) (binding : Binding) : Stage Constraint := do
  match ((← get).definitionsOf binding.id).general with
  | some (.done _ result) => return result
  | some .started => return .any
  | none =>
    modify fun s => s.setGeneral binding.id .started
    let slots := f.lambda.params.map fun _ => ({} : Slot)
    let (lambda, result) ← ctx.stageDefinition f (some binding.name) (some binding) slots
    modify fun s => s.setGeneral binding.id (.done lambda result)
    return result

def selfBinding (f : Closure) : Stage Binding := do
  match Association.find? f.id (← get).selfBindings with
  | some binding => return binding
  | none =>
    let binding ← Stage.freshBinding (f.lambda.name.getD "f") f.scope
    modify fun s => { s with selfBindings := (f.id, binding) :: s.selfBindings }
    return binding

def generalLambda (binding : Binding) : Stage Term := do
  match ((← get).definitionsOf binding.id).general with
  | some (.done lambda _) => return lambda
  | _ => return .var binding.name

def closureLiteral (ctx : Context) (f : Closure) : Stage Term := do
  if f.lambda.name.isSome then
    let binding ← selfBinding f
    let _ ← ctx.ensureGeneral f binding
    generalLambda binding
  else
    match Association.find? f.id (← get).anonymous with
    | some lambda => return lambda
    | none =>
      let slots := f.lambda.params.map fun _ => ({} : Slot)
      let (lambda, _) ← ctx.stageDefinition f none none slots
      modify fun s => { s with anonymous := (f.id, lambda) :: s.anonymous }
      return lambda

end Context

namespace Staged

def byName (scope : Scope) (binding : Option Binding) (otherwise : Stage Term) : Stage Term :=
  match binding with
  | some binding => if scope.isVisible binding then pure (.var binding.name) else otherwise
  | none => otherwise

mutual

def residualize (ctx : Context) (scope : Scope) : Staged → Stage Term
  | .now v _ binding =>
    byName scope binding <|
      match Term.ofValue? v with
      | some e => pure e
      | none => .fail (.noRuntimeForm v)
  | .later _ residual => pure residual
  | .array items binding =>
    byName scope binding do return .array (← residualizeItems ctx scope items)
  | .object fields binding =>
    byName scope binding do return .object (← residualizeFields ctx scope fields)
  | .closure f =>
    match f.binding? with
    | some binding => do
      if scope.isVisible binding then
        let _ ← ctx.ensureGeneral f binding
        return .var binding.name
      else ctx.closureLiteral f
    | none => ctx.closureLiteral f
termination_by structural v => v

def residualizeItems (ctx : Context) (scope : Scope) : List Staged → Stage (List Item)
  | [] => pure []
  | v :: items => do
    let e ← v.residualize ctx scope
    return .item e :: (← residualizeItems ctx scope items)
termination_by structural items => items

def residualizeFields (ctx : Context) (scope : Scope) :
    List (String × Staged) → Stage (List Entry)
  | [] => pure []
  | (name, v) :: fields => do
    let e ← v.residualize ctx scope
    return .field name e :: (← residualizeFields ctx scope fields)
termination_by structural fields => fields

end

def residualizeAll (ctx : Context) (scope : Scope) : List Staged → Stage (List Term)
  | [] => pure []
  | v :: rest => do
    let e ← v.residualize ctx scope
    return e :: (← residualizeAll ctx scope rest)

end Staged

end Stagewise
