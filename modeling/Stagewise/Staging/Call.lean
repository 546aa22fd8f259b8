import Stagewise.Evaluation.Interpreter
import Stagewise.Staging.Binding
import Stagewise.Term.Sensitivity

/-!
# Calls

A call of a function with known arguments is evaluated in place. With runtime arguments the call
stays in the residual program: it calls the definition of the function for all arguments or,
where parameters are needed at compile time, the definition specialized for their values.
-/

set_option autoImplicit false

namespace Stagewise

namespace Context

def residualCall (ctx : Context) (scope : Scope) (callee : Term) (args : List Staged) :
    Stage Term := do
  return .call callee (← Staged.residualizeAll ctx scope args)

def checkArgs (ctx : Context) (scope : Scope) : List Param → List Staged → Stage (List Staged)
  | .mk _ none :: params, arg :: args => do return arg :: (← ctx.checkArgs scope params args)
  | .mk name (some ty) :: params, arg :: args => do
    let declared ← ctx.declaredType ty scope
    let c := arg.constraint
    Stage.ensure (c.isNever || !c.disjoint declared) (.parameter name declared (.known c))
    return arg.refine declared :: (← ctx.checkArgs scope params args)
  | _, _ => pure []

def bindParams (scope : Scope) : List String → List Staged → Stage (Scope × List Pending)
  | name :: names, arg :: args => do
    let pending ← Pending.prepare scope name name arg
    let (scope, rest) ← bindParams pending.inner names args
    return (scope, pending :: rest)
  | _, _ => pure (scope, [])

def invokeBody (ctx : Context) (f : Closure) (args : List Staged) (site : Scope) :
    Stage Staged := do
  let scope := f.scope.withResidualOf site
  let scope := match f.lambda.name with
    | some name => scope.bind name (.closure f)
    | none => scope
  let scope := scope.bind argumentsName (.ofItems args)
  let (scope, pending) ← bindParams scope f.lambda.paramNames args
  Pending.finishAll ctx pending (← ctx.enter f.lambda.body scope)

def invoke (ctx : Context) (f : Closure) (args : List Staged) (span : Option Span) (site : Scope) :
    Stage Staged := do
  if (← get).depth < ctx.options.maxCallDepth then
    ((ctx.invokeBody f args site).inlining f.id).deeper
  else .failAt span (.depthExceeded ctx.options.maxCallDepth)

def specialArg (sensitive : Bool) (arg : Staged) : SpecialArg :=
  if sensitive then
    match arg.value? with
    | some v => .value v
    | none => .type arg.constraint.simplify
  else .dynamic

def specialSlot (sensitive : Bool) (arg : Staged) : Slot where
  fixed := if sensitive && arg.isNow then some arg else none
  hint := if sensitive && !arg.isNow then some arg.constraint else none

def newSpecialization (ctx : Context) (f : Closure) (binding : Binding) (key : List SpecialArg)
    (slots : List Slot) (scope : Scope) : Stage (String × Constraint) := do
  let limit := ctx.options.maxSpecializations
  Stage.ensure ((← get).specializations < limit) (.tooManySpecializations limit binding.name)
  modify fun s => { s with specializations := s.specializations + 1 }
  let count := ((← get).definitionsOf binding.id).special.length
  let name ← Stage.freshName (binding.name ++ "_" ++ toString (count + 1)) scope
  modify fun s => { s with reserved := name :: s.reserved }
  modify fun s => s.addSpecial binding.id ⟨key, name, .started⟩
  let (lambda, result) ← ctx.stageDefinition f (some name) (some binding) slots
  modify fun s => s.setSpecial binding.id key (.done lambda result)
  return (name, result)

/-- The specialization for a key; one that calls itself knows nothing of its results. -/
def ensureSpecialization (ctx : Context) (f : Closure) (binding : Binding) (key : List SpecialArg)
    (slots : List Slot) (scope : Scope) : Stage (String × Constraint) := do
  match ((← get).definitionsOf binding.id).special.find? fun s => s.key == key with
  | some ⟨_, name, .done _ result⟩ => return (name, result)
  | some ⟨_, name, .started⟩ => return (name, .any)
  | none => ctx.newSpecialization f binding key slots scope

def specialize (ctx : Context) (f : Closure) (binding : Binding) (sensitivity : Sensitivity)
    (args : List Staged) (scope : Scope) : Stage Staged := do
  let flagged := (List.range args.length).map sensitivity.isSensitive |>.zip args
  let key := flagged.map fun (sensitive, arg) => specialArg sensitive arg
  let slots := flagged.map fun (sensitive, arg) => specialSlot sensitive arg
  let dynamic := (slots.zip args).filterMap fun (slot, arg) =>
    if slot.fixed.isSome then none else some arg
  let (name, result) ← ctx.ensureSpecialization f binding key slots scope
  return .later result (← ctx.residualCall scope (.var name) dynamic)

def callDefinition? (ctx : Context) (f : Closure) (sensitivity : Sensitivity)
    (args : List Staged) (scope : Scope) : Stage (Option Staged) := do
  match f.binding?.filter scope.isVisible with
  | some binding =>
    if sensitivity.any then return some (← ctx.specialize f binding sensitivity args scope)
    else
      let result ← ctx.ensureGeneral f binding
      return some (.later result (← ctx.residualCall scope (.var binding.name) args))
  | none =>
    if f.lambda.name.isSome && !sensitivity.any then
      let binding ← selfBinding f
      let result ← ctx.ensureGeneral f binding
      let callee ← generalLambda binding
      return some (.later result (← ctx.residualCall scope callee args))
    else return none

/-- Whether a call is left to the residual program: when an argument is not known, unless a
function has to be known for a sensitive parameter, and when evaluating in place might not end. -/
def defers (f : Closure) (sensitivity : Sensitivity) (args : List Staged) (session : Session) :
    Bool :=
  if args.all Staged.isKnown then session.recursesAtRuntime f.id
  else
    !((List.range args.length).zip args).any fun (index, arg) =>
      sensitivity.isSensitive index && arg.isClosure

def callClosure (ctx : Context) (f : Closure) (args : List Staged) (span : Option Span)
    (scope : Scope) : Stage Staged := do
  Stage.ensure (args.length == f.lambda.arity)
    (.arity (.thing "function") f.lambda.arity args.length)
  let args ← ctx.checkArgs f.scope f.lambda.params args
  let sensitivity := f.lambda.sensitivity
  if defers f sensitivity args (← get) then
    match ← ctx.callDefinition? f sensitivity args scope with
    | some v => return v
    | none => ctx.invoke f args span scope
  else ctx.invoke f args span scope

end Context

abbrev ApplyStaged := Staged → List Staged → Stage Staged

namespace Staged

def items? : Staged → Option (List Staged)
  | .now (.array items) _ _ => some (items.map ofValue)
  | .array items _ => some items
  | _ => none

def isCallable : Staged → Bool
  | .closure _ | .now (.builtin _) _ _ => true
  | _ => false

end Staged

namespace Builtin

def stageMap (apply : ApplyStaged) (callback : Staged) :
    List Staged → Stage (Option (List Staged))
  | [] => pure (some [])
  | v :: items => do
    let result ← apply callback [v]
    if result.isNow then return (← stageMap apply callback items).map (result :: ·)
    else return none

def stageFilter (apply : ApplyStaged) (callback : Staged) :
    List Staged → Stage (Option (List Staged))
  | [] => pure (some [])
  | v :: items => do
    match (← apply callback [v]).value? with
    | some (.bool true) => return (← stageFilter apply callback items).map (v :: ·)
    | some (.bool false) => stageFilter apply callback items
    | some other => .fail (.filterResult other)
    | none => return none

def stageFold (apply : ApplyStaged) (callback : Staged) :
    Staged → List Staged → Stage (Option Staged)
  | acc, [] => pure (some acc)
  | acc, v :: items => do
    let result ← apply callback [acc, v]
    if result.isNow then stageFold apply callback result items else return none

def stageType (apply : ApplyStaged) (builder : Staged) : Stage Staged := do
  let self := selfName (builder.closure?.map Closure.lambda)
  match (← apply builder [.ofValue (.type (.ref self))]).value? with
  | some v => return .ofValue (← Stage.lift (closeType self v))
  | none => .fail .builderNotKnown

def stageHigherOrder (apply : ApplyStaged) (b : Builtin) (args : List Staged) :
    Stage (Option Staged) := do
  match b, args with
  | recType, [builder] => return some (← stageType apply builder)
  | map, [receiver, callback] =>
    match receiver.items? with
    | some items =>
      if callback.isCallable then return (← stageMap apply callback items).map .ofItems
      else return none
    | none => return none
  | filter, [receiver, callback] =>
    match receiver.items? with
    | some items =>
      if callback.isCallable then return (← stageFilter apply callback items).map .ofItems
      else return none
    | none => return none
  | fold, [receiver, init, callback] =>
    match receiver.items? with
    | some items =>
      if callback.isCallable then stageFold apply callback init items else return none
    | none => return none
  | _, _ => return none

def residualCall (ctx : Context) (scope : Scope) (b : Builtin) (args : List Staged) :
    Stage Term := do
  match b.method?, args with
  | some method, receiver :: _ =>
    let receiver ← receiver.residualize ctx scope
    ctx.residualCall scope (.field receiver method) (b.methodArgs args)
  | _, _ => ctx.residualCall scope (.var b.name) args

def stageResidual (ctx : Context) (scope : Scope) (span : Option Span) (b : Builtin)
    (args : List Staged) : Stage Staged := do
  if b.isComptimeOnly then .failAt span (.functionArguments b.name)
  else
    let result := b.result (args.map Staged.constraint)
    match result.literal?, args.any Staged.hasLater with
    | some v, false => return .ofValue v
    | _, _ => return .later result (← b.residualCall ctx scope args)

def stage (ctx : Context) (apply : ApplyStaged) (span : Option Span) (scope : Scope)
    (b : Builtin) (args : List Staged) : Stage Staged := do
  Stage.lift (b.checkArgs (args.map Staged.constraint))
  if b.isComptimeOnly && !args.all Staged.isKnown then .failAt span (.argumentsNotKnown b.name)
  else
    match ← b.stageHigherOrder apply args with
    | some v => return v
    | none =>
      match Staged.values? args with
      | some known =>
        let setting := Setting.ofLimit ctx.imports ctx.options.maxCallDepth
        Staged.ofValue <$> (Stage.lift (b.run setting.apply known)).mapError (Error.withSpan span)
      | none => b.stageResidual ctx scope span args

end Builtin

namespace Context

def callLater (ctx : Context) (scope : Scope) (c : Constraint) (residual : Term)
    (args : List Staged) : Stage Staged := do
  if !c.isNever && c.disjoint (.kind .function) then .fail (.notAFunction (.known c))
  else return .later .any (← ctx.residualCall scope residual args)

def applyNested (ctx : Context) (span : Option Span) (scope : Scope) : Nat → ApplyStaged
  | _, .closure f, args => ctx.callClosure f args span scope
  | nesting + 1, .now (.builtin name) _ _, args =>
    match Builtin.ofName? name with
    | none => .fail (.unknownBuiltin name)
    | some b => b.stage ctx (ctx.applyNested span scope nesting) span scope args
  | 0, .now (.builtin name) _ _, _ => .fail (.unknownBuiltin name)
  | _, .later c residual, args => ctx.callLater scope c residual args
  | _, v, _ => .fail (.notAFunction (.known v.constraint))

def apply (ctx : Context) (span : Option Span) (scope : Scope) : ApplyStaged :=
  ctx.applyNested span scope maxNesting

def callBuiltin (ctx : Context) (span : Option Span) (scope : Scope) (b : Builtin)
    (args : List Staged) : Stage Staged :=
  b.stage ctx (ctx.applyNested span scope (maxNesting - 1)) span scope args

end Context

end Stagewise
