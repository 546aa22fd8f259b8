import Stagewise.Refinement

/-!
# Staged values

What staging knows about the result of a program: the value itself, a residual program with a
constraint on its value, or an array, an object or a function of which the parts are staged. A
scope holds the staged values of names.
-/

set_option autoImplicit false

namespace Stagewise

/-- The name under which the residual program binds a value. The number tells apart bindings that
share a name. -/
structure Binding where
  name : String
  id : Nat
deriving DecidableEq

mutual

inductive Staged where
  | now (v : Value) (c : Constraint) (binding : Option Binding)
  | later (c : Constraint) (residual : Term)
  | array (items : List Staged) (binding : Option Binding)
  | object (fields : List (String × Staged)) (binding : Option Binding)
  | closure (f : Closure)

inductive Closure where
  | mk (id : Nat) (lambda : Lambda) (scope : Scope) (binding : Option Binding)

/-- The staged values of names, innermost first, what conditions tell about the names, and the
names that the residual program binds. -/
inductive Scope where
  | mk (env : List (String × Staged)) (refinements : Refinements) (residual : List (String × Nat))

end

namespace Closure

def id : Closure → Nat
  | mk id _ _ _ => id

def lambda : Closure → Lambda
  | mk _ lambda _ _ => lambda

def scope : Closure → Scope
  | mk _ _ scope _ => scope

def binding? : Closure → Option Binding
  | mk _ _ _ binding => binding

def withBinding? (f : Closure) (binding : Option Binding) : Closure :=
  mk f.id f.lambda f.scope binding

end Closure

namespace Staged

def ofValue (v : Value) : Staged := now v (.ofValue v) none

def value? : Staged → Option Value
  | now v _ _ => some v
  | _ => none

def closure? : Staged → Option Closure
  | closure f => some f
  | _ => none

def isNow : Staged → Bool
  | now _ _ _ => true
  | _ => false

def isClosure : Staged → Bool
  | closure _ => true
  | _ => false

def isKnown : Staged → Bool
  | now _ _ _ | closure _ => true
  | _ => false

def values? : List Staged → Option (List Value)
  | [] => some []
  | now v _ _ :: rest => (values? rest).map (v :: ·)
  | _ :: _ => none

def fieldValues? : List (String × Staged) → Option (List (String × Value))
  | [] => some []
  | (name, now v _ _) :: rest => (fieldValues? rest).map ((name, v) :: ·)
  | _ :: _ => none

def ofItems (items : List Staged) : Staged :=
  match values? items with
  | some values => ofValue (.array values)
  | none => array items none

def ofFields (fields : List (String × Staged)) : Staged :=
  match fieldValues? fields with
  | some values => ofValue (.object values)
  | none => object fields none

mutual

def constraint : Staged → Constraint
  | now _ c _ | later c _ => c
  | array items _ => (Constraint.tuple (itemConstraints items)).simplify
  | object fields _ => (Constraint.record (fieldConstraints fields)).simplify
  | closure _ => .kind .function
termination_by structural v => v

def itemConstraints : List Staged → List Constraint
  | [] => []
  | v :: items => v.constraint :: itemConstraints items
termination_by structural items => items

def fieldConstraints : List (String × Staged) → List (String × Constraint)
  | [] => []
  | (name, v) :: fields => (name, v.constraint) :: fieldConstraints fields
termination_by structural fields => fields

end

def binding? : Staged → Option Binding
  | now _ _ binding | array _ binding | object _ binding => binding
  | closure f => f.binding?
  | later _ _ => none

def withBinding (binding : Binding) : Staged → Staged
  | now v c _ => now v c (some binding)
  | array items _ => array items (some binding)
  | object fields _ => object fields (some binding)
  | closure f => closure (f.withBinding? (some binding))
  | later c residual => later c residual

mutual

/-- Forget a binding, also in parts, when a value leaves the scope of the binding. -/
def clearBinding (id : Nat) : Staged → Staged
  | now v c binding => now v c (binding.filter fun b => b.id ≠ id)
  | array items binding => array (clearItems id items) (binding.filter fun b => b.id ≠ id)
  | object fields binding => object (clearFields id fields) (binding.filter fun b => b.id ≠ id)
  | closure f => closure (f.withBinding? (f.binding?.filter fun b => b.id ≠ id))
  | later c residual => later c residual
termination_by structural v => v

def clearItems (id : Nat) : List Staged → List Staged
  | [] => []
  | v :: items => v.clearBinding id :: clearItems id items
termination_by structural items => items

def clearFields (id : Nat) : List (String × Staged) → List (String × Staged)
  | [] => []
  | (name, v) :: fields => (name, v.clearBinding id) :: clearFields id fields
termination_by structural fields => fields

end

def withConstraint (c : Constraint) : Staged → Staged
  | now v _ binding => now v c binding
  | later _ residual => later c residual
  | v => v

def refine (c : Constraint) : Staged → Staged
  | now v known binding => now v (Constraint.conj [known, c]).simplify binding
  | later known residual => later (Constraint.conj [known, c]).simplify residual
  | v => v

mutual

def hasLater : Staged → Bool
  | later _ _ => true
  | array items _ => hasLaterItem items
  | object fields _ => hasLaterField fields
  | now _ _ _ | closure _ => false
termination_by structural v => v

def hasLaterItem : List Staged → Bool
  | [] => false
  | v :: items => v.hasLater || hasLaterItem items
termination_by structural items => items

def hasLaterField : List (String × Staged) → Bool
  | [] => false
  | (_, v) :: fields => v.hasLater || hasLaterField fields
termination_by structural fields => fields

end

end Staged

namespace Scope

def empty : Scope := mk [] [] []

def env : Scope → List (String × Staged)
  | mk env _ _ => env

def refinements : Scope → Refinements
  | mk _ refinements _ => refinements

def residual : Scope → List (String × Nat)
  | mk _ _ residual => residual

def bind (scope : Scope) (name : String) (v : Staged) : Scope :=
  mk ((name, v) :: scope.env) (scope.refinements.without name) scope.residual

def bindResidual (scope : Scope) (binding : Binding) : Scope :=
  mk scope.env scope.refinements ((binding.name, binding.id) :: scope.residual)

def get? (scope : Scope) (name : String) : Option Staged :=
  match Association.find? name scope.env with
  | none => none
  | some v =>
    match Association.find? name scope.refinements with
    | some c => some (v.refine c)
    | none => some v

def contains (scope : Scope) (name : String) : Bool := Association.contains name scope.env

def known? (scope : Scope) (name : String) : Option Value := (scope.get? name).bind Staged.value?

def refine (scope : Scope) (refinements : Refinements) : Scope :=
  mk scope.env (scope.refinements.refineAll refinements) scope.residual

def withResidualOf (scope site : Scope) : Scope := mk scope.env scope.refinements site.residual

def isVisible (scope : Scope) (binding : Binding) : Bool :=
  Association.find? binding.name scope.residual == some binding.id

def hasResidualName (scope : Scope) (name : String) : Bool :=
  Association.contains name scope.residual

def visibleBinding? (scope : Scope) (v : Staged) : Option Binding :=
  v.binding?.filter scope.isVisible

def branches (scope : Scope) (condition : Term) : Branches := condition.branches scope.known?

end Scope

end Stagewise
