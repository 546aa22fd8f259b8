import Stagewise.Staging.Residual
import Stagewise.Term.Substitution
import Stagewise.Term.Walk

/-!
# Bindings of the residual program

A name of the program is bound to a staged value before what follows is staged. Afterwards it is
decided whether the residual program binds the value too: it does where it refers to the value
more than once, and never drops a computation that might fail or have an effect.
-/

set_option autoImplicit false

namespace Stagewise

inductive Emission where
  | nothing
  | later (name : String) (init : Term)
  | compound (binding : Binding) (v : Staged)
  | definitions (binding : Binding)

structure Pending where
  emission : Emission
  bound : Staged
  inner : Scope
  outer : Scope

def blankName : String := "_"

namespace Pending

def discard (scope : Scope) (v : Staged) : Pending :=
  match v with
  | .later _ residual =>
    if residual.isTrivial then ⟨.nothing, v, scope, scope⟩
    else ⟨.later blankName residual, v, scope, scope⟩
  | _ => ⟨.nothing, v, scope, scope⟩

def direct (scope : Scope) (source : String) (v : Staged) : Pending :=
  ⟨.nothing, v, scope.bind source v, scope⟩

def named (scope : Scope) (source : String) (v : Staged) (binding : Binding)
    (emission : Emission) : Pending :=
  ⟨emission, v, (scope.bind source v).bindResidual binding, scope⟩

def prepare (scope : Scope) (source hint : String) (v : Staged) : Stage Pending := do
  if source = blankName then return discard scope v
  else if (scope.visibleBinding? v).isSome then return direct scope source v
  else
    match v with
    | .now w _ _ =>
      if w.isCompound then
        let binding ← Stage.freshBinding hint scope
        return named scope source (v.withBinding binding) binding (.compound binding v)
      else return direct scope source v
    | .later c residual =>
      if residual.isTrivial then return direct scope source v
      else
        let binding ← Stage.freshBinding hint scope
        return named scope source (.later c (.var binding.name)) binding
          (.later binding.name residual)
    | .closure _ =>
      let binding ← Stage.freshBinding hint scope
      return named scope source (v.withBinding binding) binding (.definitions binding)
    | .array _ _ | .object _ _ =>
      let binding ← Stage.freshBinding hint scope
      return named scope source (v.withBinding binding) binding (.compound binding v)

end Pending

namespace Definitions

def finished : Progress → Option Term
  | .done lambda _ => some lambda
  | .started => none

def toList (definitions : Definitions) (binding : Binding) : List (String × Term) :=
  let general := (definitions.general.bind finished).map fun lambda => (binding.name, lambda)
  general.toList ++
    definitions.special.filterMap fun s => (finished s.progress).map fun lambda => (s.name, lambda)

def closeNames (defs : List (String × Term)) : Nat → List String → List String
  | 0, needed => needed
  | rounds + 1, needed =>
    let more := defs.filter fun (other, _) =>
      !needed.contains other &&
        defs.any fun (name, lambda) => needed.contains name && lambda.mentions other
    if more.isEmpty then needed else closeNames defs rounds (needed ++ Association.names more)

def needed (defs : List (String × Term)) (body : Term) : List (String × Term) :=
  let start := Association.names (defs.filter fun (name, _) => body.mentions name)
  let names := closeNames defs defs.length start
  defs.filter fun (name, _) => names.contains name

def innermost (defs : List (String × Term)) : Nat :=
  (defs.findIdx? fun (name, _) =>
    !defs.any fun (other, lambda) => other ≠ name && lambda.mentions name).getD 0

/-- Bind definitions around a program, each one outside those that mention it. -/
def wrap : Nat → List (String × Term) → Term → Term
  | fuel + 1, defs@(_ :: _), body =>
    let place := innermost defs
    match defs[place]? with
    | some (name, lambda) =>
      wrap fuel (defs.eraseIdx place) (.letIn (.binding name) lambda body)
    | none => body
  | _, _, body => body

def emit? (definitions : Definitions) (binding : Binding) (body : Term) : Option Term :=
  let defs := needed (definitions.toList binding) body
  if defs.isEmpty then none else some (wrap defs.length defs body)

end Definitions

namespace Pending

def takeDefinitions (binding : Binding) : Stage (Option Definitions) :=
  modifyGet fun s =>
    (Association.find? binding.id s.definitions,
      { s with definitions := Association.erase binding.id s.definitions })

def finishLater (ctx : Context) (inner : Scope) (name : String) (init : Term) (result : Staged) :
    Stage Staged := do
  if result.isNow && init.isPure then return result
  else
    let residual ← result.residualize ctx inner
    if name ≠ blankName && residual.mentions name then
      return .later result.constraint (.letIn (.binding name) init residual)
    else if init.isPure then return result
    else return .later result.constraint (.letIn .wildcard init residual)

def finishCompound (ctx : Context) (inner outer : Scope) (binding : Binding) (v result : Staged) :
    Stage Staged := do
  if result.isNow || (!result.hasLater && !result.isClosure) then
    return result.clearBinding binding.id
  else
    let residual ← result.residualize ctx inner
    match residual.uses binding.name with
    | 0 => return result.clearBinding binding.id
    | 1 =>
      let init ← v.residualize ctx outer
      return .later result.constraint (residual.substitute ⟨binding.name, init⟩)
    | _ =>
      let init ← v.residualize ctx outer
      return .later result.constraint (.letIn (.binding binding.name) init residual)

def finishDefinitions (ctx : Context) (inner : Scope) (binding : Binding) (result : Staged) :
    Stage Staged := do
  let same := (result.closure?.bind Closure.binding?) == some binding
  if same || result.isNow then
    let _ ← takeDefinitions binding
    return result.clearBinding binding.id
  else
    let residual ← result.residualize ctx inner
    let definitions? ← takeDefinitions binding
    match definitions?.bind fun definitions => definitions.emit? binding residual with
    | some wrapped => return .later result.constraint wrapped
    | none => return result.clearBinding binding.id

def finish (ctx : Context) (p : Pending) (result : Staged) : Stage Staged :=
  match p.emission with
  | .nothing => pure result
  | .later name init => finishLater ctx p.inner name init result
  | .compound binding v => finishCompound ctx p.inner p.outer binding v result
  | .definitions binding => finishDefinitions ctx p.inner binding result

def finishAll (ctx : Context) : List Pending → Staged → Stage Staged
  | [], result => pure result
  | p :: ps, result => do p.finish ctx (← finishAll ctx ps result)

end Pending

end Stagewise
