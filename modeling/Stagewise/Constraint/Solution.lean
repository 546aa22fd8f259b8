import Stagewise.Constraint.Projection

/-!
# Variables of signatures

The signature of a builtin may relate its arguments and its result through variables. Matching
the parameters with the constraints of the arguments solves the variables; each variable is
widened to cover all that it meets.
-/

set_option autoImplicit false

namespace Stagewise.Constraint

abbrev Solution := List (Nat × Constraint)

namespace Solution

def get? (s : Solution) (id : Nat) : Option Constraint :=
  (List.find? (fun (i, _) => i == id) s).map Prod.snd

def insert (id : Nat) (c : Constraint) (s : Solution) : Solution :=
  (id, c) :: List.filter (fun (i, _) => i != id) s

mutual

def bind (s : Solution) (actual : Constraint) : Constraint → Solution
  | .var id =>
    match get? s id with
    | some known => insert id (union known actual) s
    | none => insert id actual.simplify s
  | .conj cs => bindList s actual cs
  | .field name c => bind s (actual.fieldOf name) c
  | .elements c => bind s actual.itemOf c
  | .elementAt i c => bind s (actual.itemAt i) c
  | .length c => bind s actual.lengthOf c
  | _ => s
termination_by structural c => c

def bindList (s : Solution) (actual : Constraint) : List Constraint → Solution
  | [] => s
  | c :: cs => bindList (bind s actual c) actual cs
termination_by structural cs => cs

end

mutual

def substitute (s : Solution) : Constraint → Constraint
  | .var id => (get? s id).getD .any
  | .field name c => .field name (substitute s c)
  | .elements c => .elements (substitute s c)
  | .length c => .length (substitute s c)
  | .elementAt i c => .elementAt i (substitute s c)
  | .conj cs => .conj (substituteList s cs)
  | .disj cs => .disj (substituteList s cs)
  | .neg c => .neg (substitute s c)
  | .fix c => .fix (substitute s c)
  | c => c
termination_by structural c => c

def substituteList (s : Solution) : List Constraint → List Constraint
  | [] => []
  | c :: cs => substitute s c :: substituteList s cs
termination_by structural cs => cs

end

def instantiate (s : Solution) (pattern : Constraint) : Constraint :=
  (substitute s pattern).simplify

end Solution

mutual

def hasVars : Constraint → Bool
  | .var _ => true
  | .field _ c | .elements c | .length c | .elementAt _ c | .neg c | .fix c => c.hasVars
  | .conj cs | .disj cs => hasVarsList cs
  | _ => false
termination_by structural c => c

def hasVarsList : List Constraint → Bool
  | [] => false
  | c :: cs => c.hasVars || hasVarsList cs
termination_by structural cs => cs

end

def eraseVars (c : Constraint) : Constraint := Solution.instantiate [] c

end Stagewise.Constraint
