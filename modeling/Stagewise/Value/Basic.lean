import Stagewise.Term.Basic

/-!
# Equality of values

Values have two equalities. Identity compares data: a NaN is identical to itself, closures are
identical when they come from the same function literal, and objects do not depend on the order
of their fields. The equality operator of the language differs from it on NaN only.
-/

set_option autoImplicit false

namespace Stagewise

mutual

def Value.same : Value → Value → Bool
  | .number a, .number b => a.same b
  | .string a, .string b => a == b
  | .bool a, .bool b => a == b
  | .null, .null => true
  | .object a, .object b => a.length == b.length && Value.sameFields a b
  | .array a, .array b => Value.sameItems a b
  | .closure f _, .closure g _ => f.id == g.id
  | .builtin a, .builtin b => a == b
  | .type a, .type b => a.same b
  | _, _ => false
termination_by structural v => v

def Value.sameFields : List (String × Value) → List (String × Value) → Bool
  | [], _ => true
  | (name, v) :: rest, other =>
    (match Association.find? name other with
      | some w => v.same w
      | none => false) && Value.sameFields rest other
termination_by structural fields => fields

def Value.sameItems : List Value → List Value → Bool
  | [], [] => true
  | v :: vs, w :: ws => v.same w && Value.sameItems vs ws
  | _, _ => false
termination_by structural items => items

/-- Identity of constraints: the same tree, with identical literals and equal bounds. -/
def Constraint.same : Constraint → Constraint → Bool
  | .kind k, .kind l => k == l
  | .equals v, .equals w => v.same w
  | .bound r a, .bound s b => r == s && a.eq b
  | .field m c, .field n d => m == n && c.same d
  | .elements c, .elements d => c.same d
  | .length c, .length d => c.same d
  | .elementAt i c, .elementAt j d => i == j && c.same d
  | .conj cs, .conj ds => Constraint.sameList cs ds
  | .disj cs, .disj ds => Constraint.sameList cs ds
  | .neg c, .neg d => c.same d
  | .fix c, .fix d => c.same d
  | .bvar i, .bvar j => i == j
  | .ref m, .ref n => m == n
  | .var i, .var j => i == j
  | .any, .any => true
  | .never, .never => true
  | _, _ => false
termination_by structural c => c

def Constraint.sameList : List Constraint → List Constraint → Bool
  | [], [] => true
  | c :: cs, d :: ds => c.same d && Constraint.sameList cs ds
  | _, _ => false
termination_by structural cs => cs

end

instance : BEq Value := ⟨Value.same⟩
instance : BEq Constraint := ⟨Constraint.same⟩

namespace Value

mutual

/-- The equality operator: identity, but NaN equals nothing. -/
def equals : Value → Value → Bool
  | .number a, .number b => a.eq b
  | .object a, .object b => a.length == b.length && equalsFields a b
  | .array a, .array b => equalsItems a b
  | v, w => v.same w
termination_by structural v => v

def equalsFields : List (String × Value) → List (String × Value) → Bool
  | [], _ => true
  | (name, v) :: rest, other =>
    (match Association.find? name other with
      | some w => v.equals w
      | none => false) && equalsFields rest other
termination_by structural fields => fields

def equalsItems : List Value → List Value → Bool
  | [], [] => true
  | v :: vs, w :: ws => v.equals w && equalsItems vs ws
  | _, _ => false
termination_by structural items => items

end

def kind : Value → Kind
  | .number _ => .number
  | .string _ => .string
  | .bool _ => .bool
  | .null => .null
  | .object _ => .object
  | .array _ => .array
  | .closure _ _ | .builtin _ => .function
  | .type _ => .type

def asNumber? : Value → Option Number
  | .number n => some n
  | _ => none

def asBool? : Value → Option Bool
  | .bool b => some b
  | _ => none

def isCompound : Value → Bool
  | .object _ | .array _ | .type _ => true
  | _ => false

def ofNat (n : Nat) : Value := .number (Number.ofNat n)

end Value

end Stagewise
