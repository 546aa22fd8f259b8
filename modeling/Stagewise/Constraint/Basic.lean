import Stagewise.Value.Text

/-!
# Shapes and order of constraints

Constructors for the common shapes of constraints, what a single constraint tells about the
kind of a value, and the canonical order in which conjunctions and disjunctions list their
parts.
-/

set_option autoImplicit false

namespace Stagewise.Constraint

def record (fields : List (String × Constraint)) : Constraint :=
  .conj (.kind .object :: fields.map fun (name, c) => .field name c)

def elementsFrom (start : Nat) : List Constraint → List Constraint
  | [] => []
  | c :: cs => .elementAt start c :: elementsFrom (start + 1) cs

def tuple (items : List Constraint) : Constraint :=
  .conj (.kind .array :: .length (.equals (Value.ofNat items.length)) :: elementsFrom 0 items)

def arrayOf (element : Constraint) : Constraint := .conj [.kind .array, .elements element]

def nonNegative : Constraint := .conj [.kind .number, .bound .ge Number.zero]

def sequence : Constraint := .disj [.kind .array, .kind .string]

mutual

def ofValue : Value → Constraint
  | .object fields => .conj (.kind .object :: ofFields fields)
  | .array items =>
    .conj (.kind .array :: .length (.equals (Value.ofNat items.length)) :: ofItems 0 items)
  | .closure _ _ | .builtin _ => .kind .function
  | v => .equals v
termination_by structural v => v

def ofFields : List (String × Value) → List Constraint
  | [] => []
  | (name, v) :: fields => .field name (ofValue v) :: ofFields fields
termination_by structural fields => fields

def ofItems (start : Nat) : List Value → List Constraint
  | [] => []
  | v :: items => .elementAt start (ofValue v) :: ofItems (start + 1) items
termination_by structural items => items

end

def ofBool (b : Bool) : Constraint := .equals (.bool b)

def isAny : Constraint → Bool
  | .any => true
  | _ => false

def isNever : Constraint → Bool
  | .never => true
  | _ => false

def isKind : Constraint → Bool
  | .kind _ => true
  | _ => false

def isBound : Constraint → Bool
  | .bound _ _ => true
  | _ => false

def isNeg : Constraint → Bool
  | .neg _ => true
  | _ => false

def isDisj : Constraint → Bool
  | .disj _ => true
  | _ => false

def literal? : Constraint → Option Value
  | .equals v => some v
  | _ => none

def kind? : Constraint → Option Kind
  | .kind k => some k
  | .bound _ _ => some .number
  | .field _ _ => some .object
  | .elements _ | .length _ | .elementAt _ _ => some .array
  | .equals v => some v.kind
  | _ => none

def children : Constraint → List Constraint
  | .field _ c | .elements c | .length c | .elementAt _ c | .neg c | .fix c => [c]
  | .conj cs | .disj cs => cs
  | _ => []

mutual

def size : Constraint → Nat
  | .field _ c | .elements c | .length c | .elementAt _ c | .neg c | .fix c => c.size + 1
  | .conj cs | .disj cs => sizeList cs + 1
  | _ => 1
termination_by structural c => c

def sizeList : List Constraint → Nat
  | [] => 0
  | c :: cs => c.size + sizeList cs
termination_by structural cs => cs

end

def rank : Constraint → Nat
  | .never => 0
  | .kind k => k.rank
  | .equals _ => 9
  | .bound .gt _ | .bound .ge _ => 10
  | .bound .lt _ | .bound .le _ => 11
  | .length _ => 12
  | .elements _ => 13
  | .elementAt _ _ => 14
  | .field _ _ => 15
  | .fix _ => 16
  | .bvar _ | .ref _ | .var _ => 17
  | .neg _ => 18
  | .conj _ => 19
  | .disj _ => 20
  | .any => 21

/-- The canonical order: by form, items by index, and by text within a form. -/
def compare (c d : Constraint) : Ordering :=
  (Ord.compare c.rank d.rank).then <|
    (match c, d with
      | .elementAt i _, .elementAt j _ => Ord.compare i j
      | _, _ => .eq).then <|
    Ord.compare c.text d.text

def insert (c : Constraint) : List Constraint → List Constraint
  | [] => [c]
  | d :: ds => if compare c d == .lt then c :: d :: ds else d :: insert c ds

def sort (cs : List Constraint) : List Constraint := cs.foldl (fun acc c => insert c acc) []

def dedupAfter (last : Constraint) : List Constraint → List Constraint
  | [] => []
  | c :: cs => if last == c then dedupAfter last cs else c :: dedupAfter c cs

def dedup : List Constraint → List Constraint
  | [] => []
  | c :: cs => c :: dedupAfter c cs

def pushNew (cs : List Constraint) (c : Constraint) : List Constraint :=
  if cs.any (· == c) then cs else cs ++ [c]

end Stagewise.Constraint
