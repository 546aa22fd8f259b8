import Stagewise.Constraint.Normal

/-!
# Projections

What a constraint on a value tells about a field of the value, about its items and about its
length. A projection goes through conjunctions, disjunctions and recursive constraints; the
latter are unrolled within a budget, past which nothing is known.
-/

set_option autoImplicit false

namespace Stagewise.Constraint

def maxProjectionUnrolls : Nat := 256

/-- A projection is given by what it takes from a single constraint and by what follows from the
members of a conjunction together. -/
structure Projection where
  atom : Constraint → Constraint
  joint : List Constraint → Option Constraint := fun _ => none

namespace Projection

mutual

def applyWith (p : Projection) (unrolled : Nat → Constraint → Constraint × Nat) (budget : Nat) :
    Constraint → Constraint × Nat
  | .conj cs =>
    match applyList p unrolled budget cs with
    | (ds, budget) => (.conj (ds ++ (p.joint cs).toList), budget)
  | .disj cs =>
    match applyList p unrolled budget cs with
    | (ds, budget) => (.disj ds, budget)
  | .fix body => unrolled budget (.fix body)
  | c => (p.atom c, budget)
termination_by structural c => c

def applyList (p : Projection) (unrolled : Nat → Constraint → Constraint × Nat) (budget : Nat) :
    List Constraint → List Constraint × Nat
  | [] => ([], budget)
  | c :: cs =>
    match applyWith p unrolled budget c with
    | (d, budget) =>
      match applyList p unrolled budget cs with
      | (ds, budget) => (d :: ds, budget)
termination_by structural cs => cs

end

def applyAt (p : Projection) : Nat → Nat → Constraint → Constraint × Nat
  | 0 => applyWith p fun budget _ => (.any, budget - 1)
  | depth + 1 => applyWith p fun budget c =>
    if budget = 0 then (.any, 0) else applyAt p depth (budget - 1) c.unfold

def apply (p : Projection) (c : Constraint) : Constraint :=
  (applyAt p maxProjectionUnrolls maxProjectionUnrolls c.simplify).1.simplify

def field (name : String) : Projection where
  atom
    | .never => .never
    | .equals (.object fields) => ((Association.find? name fields).map ofValue).getD .any
    | .field n c => if n = name then c else .any
    | _ => .any

def elementAt (index : Nat) : Projection where
  atom
    | .never => .never
    | .equals (.array items) => (items[index]?.map ofValue).getD .any
    | .elementAt i c => if i = index then c else .any
    | .elements c => c
    | _ => .any

def statementAt? (index : Nat) (cs : List Constraint) : Option Constraint :=
  cs.findSome? fun
    | .elementAt i c => if i = index then some c else none
    | _ => none

/-- The union of the items of an array of known length, if every item is described. A length
beyond the number of conjuncts leaves an item without description. -/
def tupleElements? (cs : List Constraint) : Option Constraint := do
  let n ← cs.findSome? fun
    | .length (.equals (.number n)) => some n.toCount
    | _ => none
  if n = 0 ∨ cs.length < n then none
  else return .disj (← (List.range n).mapM fun index => statementAt? index cs)

def element : Projection where
  atom
    | .never => .never
    | .equals (.array items) => if items.isEmpty then .any else .disj (items.map ofValue)
    | .elements c => c
    | _ => .any
  joint := tupleElements?

def length : Projection where
  atom
    | .never => .never
    | .equals (.array items) => .equals (Value.ofNat items.length)
    | .equals (.string s) => .equals (Value.ofNat s.length)
    | .length c => .conj [c, .kind .number, .bound .ge Number.zero]
    | .elementAt i _ => .conj [.kind .number, .bound .gt (Number.ofNat i)]
    | .kind .array | .kind .string | .elements _ => nonNegative
    | _ => .any

end Projection

def fieldOf (c : Constraint) (name : String) : Constraint := (Projection.field name).apply c

def itemAt (c : Constraint) (index : Nat) : Constraint := (Projection.elementAt index).apply c

def itemOf (c : Constraint) : Constraint := Projection.element.apply c

def lengthOf (c : Constraint) : Constraint := Projection.length.apply c

end Stagewise.Constraint
