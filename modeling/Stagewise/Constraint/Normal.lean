import Stagewise.Constraint.Entailment

/-!
# Normal form

The normal form of a constraint: conjunctions and disjunctions are flat, sorted and free of
repetitions, contradictions are `never`, and a conjunction is distributed over its disjunctions
so that impossible branches drop out. Normalising a disjunction asks for entailment, entailment
asks whether a conjunction is contradictory, and that asks for a normal form again; the depth of
this recursion is bounded by an allowance. A smaller allowance leaves more as it is and finds
fewer entailments, but never changes the meaning.
-/

set_option autoImplicit false

namespace Stagewise.Constraint

def negate : Constraint → Constraint
  | .neg c => c
  | .any => .never
  | .never => .any
  | c => .neg c

def finishFix (body : Constraint) : Constraint :=
  if body.isNever then .never
  else if !body.mentionsSelf then body.lift (-1)
  else .fix body

def finishPart (wrap : Constraint → Constraint) (inner : Constraint) : Constraint :=
  if inner.isNever then .never else wrap inner

def mergeBools (cs : List Constraint) : List Constraint :=
  if cs.any (· == ofBool true) && cs.any (· == ofBool false) then
    pushNew (cs.filter fun c => !(c == ofBool true) && !(c == ofBool false)) (.kind .bool)
  else cs

/-- The branches that no other branch covers; of branches that cover each other the first is
kept. -/
def uncovered (entails : Constraint → Constraint → Bool) (before : List Constraint) :
    List Constraint → List Constraint
  | [] => []
  | c :: after =>
    let covered := before.any (entails c) || after.any fun d => entails c d && !entails d c
    if covered then uncovered entails (before ++ [c]) after
    else c :: uncovered entails (before ++ [c]) after

mutual

def normalize : Nat → Constraint → Constraint
  | 0, c => c
  | n + 1, c =>
    match c with
    | .conj cs => conjunction n true (cs.map (normalize n))
    | .disj cs => disjunction n (cs.map (normalize n))
    | .neg c => negate (normalize n c)
    | .field name c => finishPart (.field name) (normalize n c)
    | .elementAt i c => finishPart (.elementAt i) (normalize n c)
    | .elements c => .elements (normalize n c)
    | .length c =>
      let inner := normalize n c
      if inner.isNever then .never
      else if (conjunction n false [inner, .kind .number, .bound .ge Number.zero]).isNever then
        .never
      else .length inner
    | .fix body => finishFix (normalize n body)
    | .bound r x => if x.isNaN then .never else .bound r x
    | c => c
termination_by structural n => n

/-- The normal form of a conjunction of normal constraints. A recursive constraint that meets
others is unrolled once, where that is allowed. Without allowance each conjunct stays apart, so
that nothing is concluded from several of them before they are merged. -/
def conjunction : Nat → Bool → List Constraint → Constraint
  | 0, _, cs => .conj (cs.map fun c => .conj [c])
  | n + 1, unroll, cs =>
    let flat := flattenConjList [] cs
    if flat.any isNever then .never
    else if flat.length ≤ 1 then finishConj flat
    else if unroll && flat.any isUnrollable then
      conjunction n false
        (flat.map fun c => if c.isUnrollable then normalize n c.unfold else c)
    else
      match distribute? (conjunction n unroll) (disjunction n) flat with
      | some c => c
      | none => conjoinFlat (conjunction n unroll) (conjunction n false) (entails n []) flat
termination_by structural n => n

def disjunction : Nat → List Constraint → Constraint
  | 0, cs => .disj cs
  | n + 1, cs =>
    let flat := flattenDisjList [] cs
    if flat.any isAny then .any
    else finishDisj (uncovered (entails n []) [] (mergeBools flat))
termination_by structural n => n

def entails : Nat → Assumptions → Constraint → Constraint → Bool
  | 0, _, _, _ => false
  | n + 1, assumed, a, b =>
    entailsStep (normalize n) (conjunction n false) (entails n) assumed a b
termination_by structural n => n

end

def allowance (size : Nat) : Nat := Nat.pow 2 (size + 20)

def simplify (c : Constraint) : Constraint := normalize (allowance c.size) c

def implies (a b : Constraint) : Bool :=
  let a := a.simplify
  let b := b.simplify
  entails (allowance (a.size + b.size)) [] a b

def unify (a b : Constraint) : Constraint := simplify (.conj [a, b])

def disjoint (a b : Constraint) : Bool := (unify a b).isNever

def union (a b : Constraint) : Constraint := simplify (.disj [a, b])

def branches (c : Constraint) : List Constraint :=
  match c.simplify with
  | .fix body => branchesOf (simplify (unfold (.fix body)))
  | c => branchesOf c

def narrow (union filter : Constraint) : Constraint :=
  simplify (.disj (union.branches.filter fun b => !b.disjoint filter))

def exclude (union c : Constraint) : Constraint :=
  simplify (.disj (union.branches.filter fun b => !b.implies c))

end Stagewise.Constraint
