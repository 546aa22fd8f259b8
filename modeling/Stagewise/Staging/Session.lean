import Stagewise.Diagnostic
import Stagewise.Evaluation.Operation
import Stagewise.Options
import Stagewise.Staging.Staged

/-!
# Sessions

The state that staging threads through a program: the findings, the definitions that residual
calls need, and the supply of names and numbers.
-/

set_option autoImplicit false

namespace Stagewise

inductive Progress where
  | started
  | done (lambda : Term) (result : Constraint)

inductive SpecialArg where
  | value (v : Value)
  | type (c : Constraint)
  | dynamic

namespace SpecialArg

def same : SpecialArg → SpecialArg → Bool
  | value v, value w => v == w
  | type c, type d => c == d
  | dynamic, dynamic => true
  | _, _ => false

instance : BEq SpecialArg := ⟨same⟩

end SpecialArg

structure Specialization where
  key : List SpecialArg
  name : String
  progress : Progress

structure Definitions where
  general : Option Progress := none
  special : List Specialization := []

structure Session where
  diagnostics : List Diagnostic := []
  /-- The last number given to a function value or a binding, a machine word of 32 bits. -/
  lastId : UInt32 := 0
  nextLambda : Nat := 0
  depth : Nat := 0
  runtimeBranches : Nat := 0
  inlined : List (Nat × Nat) := []
  reserved : List String := []
  definitions : List (Nat × Definitions) := []
  anonymous : List (Nat × Term) := []
  selfBindings : List (Nat × Binding) := []
  specializations : Nat := 0

abbrev Stage := EStateM Error Session

namespace Session

def isTaken (session : Session) (scope : Scope) (name : String) : Bool :=
  scope.hasResidualName name || session.reserved.contains name

def numberedName (taken : String → Bool) (base : String) : Nat → Nat → String
  | 0, _ => base
  | fuel + 1, n =>
    let name := base ++ "_" ++ toString n
    if taken name then numberedName taken base fuel (n + 1) else name

/-- A name for the residual program that nothing in scope binds. There are fewer taken names than
candidates. -/
def freshName (session : Session) (base : String) (scope : Scope) : String :=
  if session.isTaken scope base then
    numberedName (session.isTaken scope) base
      (scope.residual.length + session.reserved.length + 1) 1
  else base

/-- Whether a function is being evaluated in place with a branch chosen at runtime in between, so
that evaluating it in place again might never end. -/
def recursesAtRuntime (session : Session) (id : Nat) : Bool :=
  session.inlined.any fun (other, branches) => other == id && branches < session.runtimeBranches

def definitionsOf (session : Session) (id : Nat) : Definitions :=
  (Association.find? id session.definitions).getD {}

def setDefinitions (session : Session) (id : Nat) (definitions : Definitions) : Session :=
  { session with definitions := Association.put id definitions session.definitions }

def setGeneral (session : Session) (id : Nat) (progress : Progress) : Session :=
  session.setDefinitions id { session.definitionsOf id with general := some progress }

def addSpecial (session : Session) (id : Nat) (special : Specialization) : Session :=
  let definitions := session.definitionsOf id
  session.setDefinitions id { definitions with special := definitions.special ++ [special] }

def setSpecial (session : Session) (id : Nat) (key : List SpecialArg) (progress : Progress) :
    Session :=
  match Association.find? id session.definitions with
  | none => session
  | some definitions =>
    session.setDefinitions id { definitions with special := update definitions.special }
where
  update : List Specialization → List Specialization
    | [] => []
    | s :: rest => if s.key == key then { s with progress } :: rest else s :: update rest

end Session

namespace Stage

def fail {α : Type} (cause : Cause) : Stage α := throw (.of cause)

def failAt {α : Type} (span : Option Span) (cause : Cause) : Stage α := throw (.located span cause)

def ensure (condition : Bool) (cause : Cause) : Stage Unit :=
  if condition then pure () else fail cause

def lift {α : Type} : Outcome α → Stage α
  | .ok a => pure a
  | .error e => throw e

def mapError {α : Type} (f : Error → Error) (step : Stage α) : Stage α := fun session =>
  match step session with
  | .ok a session => .ok a session
  | .error e session => .error (f e) session

def around {α : Type} (before after : Session → Session) (step : Stage α) : Stage α :=
  fun session =>
    match step (before session) with
    | .ok a session => .ok a (after session)
    | .error e session => .error e (after session)

def inBranch {α : Type} (runtime : Bool) (step : Stage α) : Stage α :=
  if runtime then
    around (fun s => { s with runtimeBranches := s.runtimeBranches + 1 })
      (fun s => { s with runtimeBranches := s.runtimeBranches - 1 }) step
  else step

def deeper {α : Type} (step : Stage α) : Stage α :=
  around (fun s => { s with depth := s.depth + 1 }) (fun s => { s with depth := s.depth - 1 }) step

def inlining {α : Type} (id : Nat) (step : Stage α) : Stage α :=
  around (fun s => { s with inlined := (id, s.runtimeBranches) :: s.inlined })
    (fun s => { s with inlined := s.inlined.drop 1 }) step

def freshId : Stage Nat :=
  modifyGet fun s => ((s.lastId + 1).toNat, { s with lastId := s.lastId + 1 })

def freshLambda : Stage Nat :=
  modifyGet fun s => (s.nextLambda, { s with nextLambda := s.nextLambda + 1 })

def freshName (base : String) (scope : Scope) : Stage String := do
  return (← get).freshName base scope

def freshBinding (base : String) (scope : Scope) : Stage Binding := do
  let name ← freshName base scope
  return ⟨name, ← freshId⟩

def warn (message : String) (span : Option Span) : Stage Unit :=
  modify fun s => { s with diagnostics := s.diagnostics ++ [.warning message span] }

end Stage

end Stagewise
