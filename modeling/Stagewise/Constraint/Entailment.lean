import Stagewise.Constraint.Conjunction

/-!
# Entailment between normal constraints

Whether every value of one constraint belongs to another, decided by the form of the two. A
pair that contains a recursive constraint is assumed while its unrolling is examined, so that
meeting the pair again closes the cycle. The answer `false` only means that no proof was found.
-/

set_option autoImplicit false

namespace Stagewise.Constraint

def maxAssumptions : Nat := 64

abbrev Assumptions := List (Constraint × Constraint)

def isNumeric : Constraint → Bool
  | .bound _ _ => true
  | .equals (.number _) => true
  | _ => false

def tupleLength? : List Constraint → Option Nat
  | [] => none
  | .length (.equals (.number n)) :: cs =>
    if Number.zero.le n then some n.toCount else tupleLength? cs
  | _ :: cs => tupleLength? cs

def statementsAt (index : Nat) (cs : List Constraint) : List Constraint :=
  cs.filterMap fun
    | .elementAt i c => if i = index then some c else none
    | .elements c => some c
    | _ => none

/-- What a conjunction says about the length: it is a number and not negative, as stated, and
above each named index. -/
def lengthStatements (cs : List Constraint) : List Constraint :=
  .kind .number :: .bound .ge Number.zero :: cs.filterMap fun
    | .length c => some c
    | .elementAt i _ => some (.bound .gt (Number.ofNat i))
    | _ => none

/-- Facts that only follow from several conjuncts together. -/
def conjEntails (conj : List Constraint → Constraint) (entails : Constraint → Constraint → Bool)
    (cs : List Constraint) (goal : Constraint) : Bool :=
  match goal with
  | .elements d =>
    match tupleLength? cs with
    | none => false
    | some n =>
      -- one more index than there are conjuncts cannot be covered
      (List.range (min n (cs.length + 1))).all fun index =>
        cs.any fun
          | .elementAt i c => i == index && entails c d
          | _ => false
  | .elementAt index d =>
    let statements := statementsAt index cs
    2 ≤ statements.length && entails (conj (statements.filter fun c => !c.isAny)) d
  | .length d => entails (conj (lengthStatements cs)) d
  | goal =>
    goal.isNumeric && cs.any (·.kind? == some .number) &&
      match Interval.ofAtom? goal with
      | some want => (Interval.of (.conj cs)).isSubset want
      | none => false

def atomEntails (entails : Constraint → Constraint → Bool) : Constraint → Constraint → Bool
  | a, .kind want =>
    match a.kind? with
    | some have_ => have_.refines want
    | none => false
  | .field m c, .field n d => m == n && entails c d
  | .elements c, .elements d => entails c d
  | .length c, .length d => entails c d
  | .elementAt i c, .elementAt j d => i == j && entails c d
  | .bound r x, b =>
    match b.isNumeric, Interval.ofAtom? b with
    | true, some want => (Interval.ofBound r x).isSubset want
    | _, _ => false
  | _, _ => false

def entailsStep (normal : Constraint → Constraint) (conj : List Constraint → Constraint)
    (entails : Assumptions → Constraint → Constraint → Bool) (assumed : Assumptions)
    (a b : Constraint) : Bool :=
  if a == b then true
  else
    match a, b with
    | .never, _ => true
    | _, .any => true
    | _, .never => false
    | .disj xs, b => xs.all fun x => entails assumed x b
    | a, .conj ys => ys.all fun y => entails assumed a y
    | .equals v, b => b.admits v
    | .fix _, b => unrolled a b
    | a, .fix _ => unrolled a b
    | a, .disj ys => ys.any fun y => entails assumed a y
    | .conj xs, b =>
      xs.any (fun x => entails assumed x b) || conjEntails conj (entails assumed) xs b
    | .neg x, .neg y => entails assumed y x
    | a, .neg y => (normal (.conj [a, y])).isNever
    | .any, _ => false
    | .neg _, _ => false
    | a, b => atomEntails (entails assumed) a b
where
  unroll : Constraint → Constraint
    | .fix body => normal (unfold (.fix body))
    | c => c
  unrolled (a b : Constraint) : Bool :=
    if assumed.any fun (x, y) => x == a && y == b then true
    else if maxAssumptions ≤ assumed.length then false
    else entails (assumed ++ [(a, b)]) (unroll a) (unroll b)

end Stagewise.Constraint
