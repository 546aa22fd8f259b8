import Stagewise.Error
import Stagewise.Value.Basic

/-!
# Operations on values

What the operators, the reading of fields and items, and conditions do with known values.
-/

set_option autoImplicit false

namespace Stagewise

abbrev Outcome (α : Type) := Except Error α

def fail {α : Type} (cause : Cause) : Outcome α := .error (.of cause)

namespace UnaryOp

def apply : UnaryOp → Value → Outcome Value
  | neg, .number n => .ok (.number n.neg)
  | not, .bool b => .ok (.bool !b)
  | neg, v => fail (.cannotNegate v)
  | not, v => fail (.cannotInvert v)

end UnaryOp

namespace BinaryOp

def arithmetic (op : BinaryOp) (a b : Number) : Number :=
  match op with
  | sub => a.sub b
  | mul => a.mul b
  | div => a.div b
  | _ => a.rem b

/-- Whether an ordering operator holds of an outcome of comparing; no operator holds of numbers
that have no order. -/
def holdsOf (op : BinaryOp) : Option Ordering → Bool
  | none => false
  | some ordering =>
    match op with
    | lt => ordering.isLT
    | le => ordering.isLE
    | gt => ordering.isGT
    | _ => ordering.isGE

end BinaryOp

def Number.order? (a b : Number) : Option Ordering :=
  if a.lt b then some .lt else if b.lt a then some .gt else if a.eq b then some .eq else none

def Text.order (a b : String) : Ordering :=
  if a < b then .lt else if b < a then .gt else .eq

namespace BinaryOp

def apply (op : BinaryOp) (a b : Value) : Outcome Value :=
  match op with
  | add =>
    match a, b with
    | .number x, .number y => .ok (.number (x.add y))
    | .string _, _ | _, .string _ => .ok (.string (a.text ++ b.text))
    | _, _ => fail (.cannotAdd a b)
  | sub | mul | div | mod =>
    match a, b with
    | .number x, .number y => .ok (.number (op.arithmetic x y))
    | _, _ => fail (.notNumbers op a b)
  | lt | le | gt | ge =>
    match a, b with
    | .number x, .number y => .ok (.bool (op.holdsOf (x.order? y)))
    | .string s, .string t => .ok (.bool (op.holdsOf (some (Text.order s t))))
    | _, _ => fail (.cannotCompare a b)
  | eq => .ok (.bool (a.equals b))
  | ne => .ok (.bool !(a.equals b))
  | and =>
    match a, b with
    | .bool x, .bool y => .ok (.bool (x && y))
    | _, _ => fail (.notBooleans op a b)
  | or =>
    match a, b with
    | .bool x, .bool y => .ok (.bool (x || y))
    | _, _ => fail (.notBooleans op a b)

end BinaryOp

namespace Value

def condition : Value → Outcome Bool
  | .bool b => .ok b
  | v => fail (.conditionNotBoolean v)

def readField (v : Value) (name : String) : Outcome Value :=
  match v with
  | .object fields =>
    match Association.find? name fields with
    | some field => .ok field
    | none => fail (.noField (.value v) name)
  | .array items =>
    if name = "length" then .ok (.ofNat items.length) else fail (.cannotReadField (.value v) name)
  | .string s =>
    if name = "length" then .ok (.ofNat s.length) else fail (.cannotReadField (.value v) name)
  | _ => fail (.cannotReadField (.value v) name)

def asIndex? : Value → Option Nat
  | .number n => if n.isIntegral && Number.zero.le n then some n.toCount else none
  | _ => none

def readIndex (v key : Value) : Outcome Value :=
  match v with
  | .object _ =>
    match key with
    | .string name => v.readField name
    | _ => fail (.cannotIndexWith v key)
  | .array items =>
    match key.asIndex?.bind fun i => items[i]? with
    | some item => .ok item
    | none => fail (.outOfBounds key (.value v))
  | .string s =>
    match key.asIndex?.bind fun i => s.toList[i]? with
    | some c => .ok (.string c.toString)
    | none => fail (.outOfBounds key (.value v))
  | _ => fail (.cannotIndexWith v key)

end Value

end Stagewise
