import Stagewise.Constraint.Normal
import Stagewise.Evaluation.Operation

/-!
# Operators on what is known

The constraint of the result of an operator, from the constraints of its operands. Operands that
provably do not fit are an error.
-/

set_option autoImplicit false

namespace Stagewise

namespace Constraint

/-- Whether values described by `c` exist, but none that is also described by `required`. -/
def isIncompatible (c required : Constraint) : Bool := !c.isNever && c.disjoint required

def require (c required : Constraint) (what : String) : Outcome Unit :=
  if c.isIncompatible required then fail (.operand what required c) else .ok ()

def numberOrString : Constraint := .disj [.kind .number, .kind .string]

end Constraint

namespace UnaryOp

def resultOf (op : UnaryOp) (c : Constraint) : Outcome Constraint := do
  match c.literal? with
  | some v => return .ofValue (← op.apply v)
  | none =>
    match op with
    | neg =>
      c.require (.kind .number) "`-`"
      return (Interval.of c).neg.toConstraint
    | not =>
      c.require (.kind .bool) "`!`"
      return .kind .bool

end UnaryOp

namespace BinaryOp

def quoted (op : BinaryOp) : String := s!"`{op.symbol}`"

def decideOrdering (op : BinaryOp) (a b : Interval) : Constraint :=
  match op with
  | lt | le =>
    if a.isBelow b then .ofBool true else if b.isBelow a then .ofBool false else .kind .bool
  | _ =>
    if b.isBelow a then .ofBool true else if a.isBelow b then .ofBool false else .kind .bool

def resultOf (op : BinaryOp) (a b : Constraint) : Outcome Constraint := do
  match a.literal?, b.literal? with
  | some x, some y => return .ofValue (← op.apply x y)
  | _, _ =>
    match op with
    | add =>
      if a.implies (.kind .string) || b.implies (.kind .string) then return .kind .string
      else
        a.require .numberOrString op.quoted
        b.require .numberOrString op.quoted
        if a.disjoint (.kind .string) && b.disjoint (.kind .string) then
          return ((Interval.of a).add (Interval.of b)).toConstraint
        else return Constraint.numberOrString.simplify
    | sub =>
      a.require (.kind .number) op.quoted
      b.require (.kind .number) op.quoted
      return ((Interval.of a).sub (Interval.of b)).toConstraint
    | mul | div | mod =>
      a.require (.kind .number) op.quoted
      b.require (.kind .number) op.quoted
      return .kind .number
    | lt | le | gt | ge =>
      a.require .numberOrString op.quoted
      b.require .numberOrString op.quoted
      if a.implies (.kind .number) && b.implies (.kind .number) then
        return op.decideOrdering (Interval.of a) (Interval.of b)
      else return .kind .bool
    | eq | ne => return if a.disjoint b then .ofBool (op == ne) else .kind .bool
    | and | or =>
      a.require (.kind .bool) op.quoted
      b.require (.kind .bool) op.quoted
      return .kind .bool

def logicalResult (op : BinaryOp) (a b : Constraint) : Constraint :=
  let absorbing := Constraint.ofBool (op != and)
  let neutral := Constraint.ofBool (op == and)
  if a == absorbing || b == absorbing then absorbing
  else if a == neutral && b == neutral then neutral
  else .kind .bool

end BinaryOp

end Stagewise
