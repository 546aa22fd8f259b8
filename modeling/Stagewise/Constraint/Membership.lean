import Stagewise.Constraint.Recursion

/-!
# Membership

Whether a value belongs to a constraint. Values are finite, so unrolling a recursive constraint
reaches a part of the value or a branch that is not recursive; a budget of unrollings cuts off
constraints that never do. The budget is shared by the whole check: what one part spends is not
available to the next.
-/

set_option autoImplicit false

namespace Stagewise

def Comparison.holds (r : Comparison) (x bound : Number) : Bool :=
  match r with
  | .gt => bound.lt x
  | .ge => bound.le x
  | .lt => x.lt bound
  | .le => x.le bound

namespace Constraint

def maxUnrolls : Nat := 4096

def checkAll {α : Type} (check : Nat → α → Bool × Nat) : Nat → List α → Bool × Nat
  | budget, [] => (true, budget)
  | budget, x :: xs =>
    match check budget x with
    | (true, budget) => checkAll check budget xs
    | (false, budget) => (false, budget)

mutual

/-- Membership with the budget before and after; `unrolled` checks a value against a recursive
constraint. -/
def checkWith (unrolled : Nat → Value → Constraint → Bool × Nat) (budget : Nat) (v : Value) :
    Constraint → Bool × Nat
  | .any => (true, budget)
  | .never => (false, budget)
  | .kind k => (v.kind.refines k, budget)
  | .equals w => (v == w, budget)
  | .bound r n =>
    match v with
    | .number x => (r.holds x n, budget)
    | _ => (false, budget)
  | .field name c =>
    match v with
    | .object fields =>
      match Association.find? name fields with
      | some w => checkWith unrolled budget w c
      | none => (false, budget)
    | _ => (false, budget)
  | .elements c =>
    match v with
    | .array items => checkAll (fun budget w => checkWith unrolled budget w c) budget items
    | _ => (false, budget)
  | .length c =>
    match v with
    | .array items => checkWith unrolled budget (Value.ofNat items.length) c
    | _ => (false, budget)
  | .elementAt i c =>
    match v with
    | .array items =>
      match items[i]? with
      | some w => checkWith unrolled budget w c
      | none => (false, budget)
    | _ => (false, budget)
  | .conj cs => checkConj unrolled budget v cs
  | .disj cs => checkDisj unrolled budget v cs
  | .neg c =>
    match checkWith unrolled budget v c with
    | (b, budget) => (!b, budget)
  | .fix body => unrolled budget v (.fix body)
  | .bvar _ | .ref _ | .var _ => (true, budget)
termination_by structural c => c

def checkConj (unrolled : Nat → Value → Constraint → Bool × Nat) (budget : Nat) (v : Value) :
    List Constraint → Bool × Nat
  | [] => (true, budget)
  | c :: cs =>
    match checkWith unrolled budget v c with
    | (true, budget) => checkConj unrolled budget v cs
    | (false, budget) => (false, budget)
termination_by structural cs => cs

def checkDisj (unrolled : Nat → Value → Constraint → Bool × Nat) (budget : Nat) (v : Value) :
    List Constraint → Bool × Nat
  | [] => (false, budget)
  | c :: cs =>
    match checkWith unrolled budget v c with
    | (true, budget) => (true, budget)
    | (false, budget) => checkDisj unrolled budget v cs
termination_by structural cs => cs

end

def check : Nat → Nat → Value → Constraint → Bool × Nat
  | 0 => checkWith fun budget _ _ => (false, budget - 1)
  | depth + 1 => checkWith fun budget v c =>
    if budget = 0 then (false, 0) else check depth (budget - 1) v c.unfold

/-- Whether `v` belongs to `c`. No check unrolls deeper than its budget. -/
def admits (c : Constraint) (v : Value) : Bool := (check maxUnrolls maxUnrolls v c).1

end Constraint

end Stagewise
