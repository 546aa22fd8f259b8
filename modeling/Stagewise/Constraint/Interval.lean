import Stagewise.Constraint.Basic

/-!
# Intervals

The range of numbers that a conjunction of bounds leaves, and arithmetic on such ranges. Where
an end is NaN the comparisons with it fail, and the operations take the branch for that.
-/

set_option autoImplicit false

namespace Stagewise

structure Endpoint where
  value : Number
  inclusive : Bool
deriving DecidableEq

/-- A range of numbers; a missing end is unbounded. -/
structure Interval where
  lo : Option Endpoint
  hi : Option Endpoint
deriving DecidableEq

namespace Interval

def full : Interval := ⟨none, none⟩

def point (n : Number) : Interval := ⟨some ⟨n, true⟩, some ⟨n, true⟩⟩

def ofBound (r : Comparison) (n : Number) : Interval :=
  match r with
  | .gt => ⟨some ⟨n, false⟩, none⟩
  | .ge => ⟨some ⟨n, true⟩, none⟩
  | .lt => ⟨none, some ⟨n, false⟩⟩
  | .le => ⟨none, some ⟨n, true⟩⟩

def ofAtom? : Constraint → Option Interval
  | .bound r n => some (ofBound r n)
  | .equals (.number n) => some (point n)
  | .kind .number => some full
  | _ => none

def tighter (beyond : Number → Number → Bool) : Option Endpoint → Option Endpoint → Option Endpoint
  | some a, some b =>
    some <| if beyond a.value b.value then a
      else if beyond b.value a.value then b
      else ⟨a.value, a.inclusive && b.inclusive⟩
  | a, none => a
  | none, b => b

def looser (beyond : Number → Number → Bool) (a b : Endpoint) : Endpoint :=
  if beyond a.value b.value then a
  else if beyond b.value a.value then b
  else ⟨a.value, a.inclusive || b.inclusive⟩

def intersect (i j : Interval) : Interval :=
  ⟨tighter (fun x y => y.lt x) i.lo j.lo, tighter Number.lt i.hi j.hi⟩

def hull (i j : Interval) : Interval :=
  ⟨match i.lo, j.lo with
    | some a, some b => some (looser Number.lt a b)
    | _, _ => none,
  match i.hi, j.hi with
    | some a, some b => some (looser (fun x y => y.lt x) a b)
    | _, _ => none⟩

mutual

def of : Constraint → Interval
  | .conj cs => ofConj full cs
  | .disj [] => full
  | .disj (c :: cs) => ofDisj (of c) cs
  | c => (ofAtom? c).getD full
termination_by structural c => c

def ofConj (acc : Interval) : List Constraint → Interval
  | [] => acc
  | c :: cs => ofConj (acc.intersect (of c)) cs
termination_by structural cs => cs

def ofDisj (acc : Interval) : List Constraint → Interval
  | [] => acc
  | c :: cs => ofDisj (acc.hull (of c)) cs
termination_by structural cs => cs

end

def isFull (i : Interval) : Bool := i.lo.isNone && i.hi.isNone

def isEmpty (i : Interval) : Bool :=
  match i.lo, i.hi with
  | some a, some b =>
    b.value.lt a.value || (a.value.eq b.value && !(a.inclusive && b.inclusive))
  | _, _ => false

def point? (i : Interval) : Option Number :=
  match i.lo, i.hi with
  | some a, some b =>
    if a.value.eq b.value && a.inclusive && b.inclusive then some a.value else none
  | _, _ => none

def contains (i : Interval) (n : Number) : Bool :=
  (match i.lo with
    | some a => a.value.lt n || (a.inclusive && n.eq a.value)
    | none => true) &&
  (match i.hi with
    | some b => n.lt b.value || (b.inclusive && n.eq b.value)
    | none => true)

def isSubset (i j : Interval) : Bool :=
  i.isEmpty ||
  ((match i.lo, j.lo with
    | _, none => true
    | none, some _ => false
    | some a, some b =>
      b.value.lt a.value || (a.value.eq b.value && (b.inclusive || !a.inclusive))) &&
  (match i.hi, j.hi with
    | _, none => true
    | none, some _ => false
    | some a, some b =>
      a.value.lt b.value || (a.value.eq b.value && (b.inclusive || !a.inclusive))))

def isBelow (i j : Interval) : Bool :=
  match i.hi, j.lo with
  | some a, some b =>
    a.value.lt b.value || (a.value.eq b.value && !(a.inclusive && b.inclusive))
  | _, _ => false

def addEnds : Option Endpoint → Option Endpoint → Option Endpoint
  | some a, some b => some ⟨a.value.add b.value, a.inclusive && b.inclusive⟩
  | _, _ => none

def add (i j : Interval) : Interval := ⟨addEnds i.lo j.lo, addEnds i.hi j.hi⟩

def negEnd (e : Option Endpoint) : Option Endpoint :=
  e.map fun a => ⟨a.value.neg, a.inclusive⟩

def neg (i : Interval) : Interval := ⟨negEnd i.hi, negEnd i.lo⟩

def sub (i j : Interval) : Interval := i.add j.neg

def bounds (i : Interval) : List Constraint :=
  match i.point? with
  | some n => [.equals (.number n)]
  | none =>
    (match i.lo with
      | some a => [.bound (if a.inclusive then .ge else .gt) a.value]
      | none => []) ++
    (match i.hi with
      | some b => [.bound (if b.inclusive then .le else .lt) b.value]
      | none => [])

def toConstraint (i : Interval) : Constraint :=
  if i.isEmpty then .never
  else
    match i.point? with
    | some n => .equals (.number n)
    | none =>
      match i.bounds with
      | [] => .kind .number
      | bounds => .conj (.kind .number :: bounds)

end Interval

end Stagewise
