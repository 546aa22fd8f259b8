import Stagewise.Constraint.Interval
import Stagewise.Constraint.Membership

/-!
# Normal form of a conjunction

The steps that bring a conjunction of normal constraints into normal form: flattening,
distribution over disjunctions, merging what is said about the same field or item, collapsing
bounds, absorbing everything into a literal, and resolving negations. The steps are parameters
of each other through the functions that normalise the smaller conjunctions they meet.
-/

set_option autoImplicit false

namespace Stagewise

def Comparison.complement : Comparison → Comparison
  | .gt => .le
  | .ge => .lt
  | .lt => .ge
  | .le => .gt

namespace Constraint

def maxBranches : Nat := 32

mutual

def flattenConj (acc : List Constraint) : Constraint → List Constraint
  | .conj cs => flattenConjList acc cs
  | .any => acc
  | c => pushNew acc c
termination_by structural c => c

def flattenConjList (acc : List Constraint) : List Constraint → List Constraint
  | [] => acc
  | c :: cs => flattenConjList (flattenConj acc c) cs
termination_by structural cs => cs

end

mutual

def flattenDisj (acc : List Constraint) : Constraint → List Constraint
  | .disj cs => flattenDisjList acc cs
  | .never => acc
  | c => pushNew acc c
termination_by structural c => c

def flattenDisjList (acc : List Constraint) : List Constraint → List Constraint
  | [] => acc
  | c :: cs => flattenDisjList (flattenDisj acc c) cs
termination_by structural cs => cs

end

def finishConj (cs : List Constraint) : Constraint :=
  match dedup (sort cs) with
  | [] => .any
  | [c] => c
  | cs => .conj cs

def finishDisj (cs : List Constraint) : Constraint :=
  match dedup (sort cs) with
  | [] => .never
  | [c] => c
  | cs => .disj cs

def branchesOf : Constraint → List Constraint
  | .disj cs => cs
  | c => [c]

def combinations (start : List Constraint) (disjunctions : List Constraint) :
    List (List Constraint) :=
  disjunctions.foldl
    (fun combos d => combos.flatMap fun combo => (branchesOf d).map fun b => combo ++ [b]) [start]

def distribute? (conj disj : List Constraint → Constraint) (flat : List Constraint) :
    Option Constraint :=
  let disjunctions := flat.filter isDisj
  let rest := flat.filter fun c => !c.isDisj
  let product := disjunctions.foldl (fun acc d => acc * (branchesOf d).length) 1
  if disjunctions.isEmpty || maxBranches < product then none
  else some (disj ((combinations rest disjunctions).map conj))

structure Structure where
  fields : List (String × List Constraint) := []
  elements : List Constraint := []
  positions : List (Nat × List Constraint) := []
  lengths : List Constraint := []
  others : List Constraint := []

namespace Structure

def addField (name : String) (c : Constraint) :
    List (String × List Constraint) → List (String × List Constraint)
  | [] => [(name, [c])]
  | (key, cs) :: rest =>
    if key = name then (key, cs ++ [c]) :: rest else (key, cs) :: addField name c rest

def addPosition (index : Nat) (c : Constraint) :
    List (Nat × List Constraint) → List (Nat × List Constraint)
  | [] => [(index, [c])]
  | (i, cs) :: rest =>
    if index < i then (index, [c]) :: (i, cs) :: rest
    else if i = index then (i, cs ++ [c]) :: rest
    else (i, cs) :: addPosition index c rest

def add (s : Structure) : Constraint → Structure
  | .field name c => { s with fields := addField name c s.fields }
  | .elementAt index c => { s with positions := addPosition index c s.positions }
  | .elements c => { s with elements := s.elements ++ [c] }
  | .length c => { s with lengths := s.lengths ++ [c] }
  | c => { s with others := s.others ++ [c] }

def ofList (cs : List Constraint) : Structure := cs.foldl add {}

end Structure

def conjoin (conj : List Constraint → Constraint) : List Constraint → Constraint
  | [c] => c
  | cs => conj cs

def mergeParts {α : Type} (wrap : α → Constraint → Constraint)
    (conj : List Constraint → Constraint) (extra : List Constraint) :
    List (α × List Constraint) → Option (List Constraint)
  | [] => some []
  | (part, cs) :: rest =>
    let inner := conjoin conj (cs ++ extra)
    if inner.isNever then none
    else (mergeParts wrap conj extra rest).map (wrap part inner :: ·)

/-- Merge the statements about the same field, item and length; `none` on a contradiction. A
constraint on all items holds of each one named, and an array is longer than its last named
index. -/
def mergeStructure (conj conjPlain : List Constraint → Constraint) (flat : List Constraint) :
    Option (List Constraint) := do
  let s := Structure.ofList flat
  let fields ← mergeParts .field conj [] s.fields
  let element := if s.elements.isEmpty then [] else [conjoin conj s.elements]
  let positions ← mergeParts .elementAt conj element s.positions
  let lengths ←
    if s.lengths.isEmpty then some []
    else
      let length := conjoin conj s.lengths
      let reaches := match s.positions.getLast? with
        | some (last, _) =>
          !(conjPlain [length, .kind .number, .bound .gt (Number.ofNat last)]).isNever
        | none => true
      if length.isNever || !reaches then none else some [.length length]
  return s.others ++ fields ++ element.map .elements ++ positions ++ lengths

def commonKind (known : Option Kind) : List Constraint → Option (Option Kind)
  | [] => some known
  | c :: cs =>
    match known, c.kind? with
    | known, none => commonKind known cs
    | none, some k => commonKind (some k) cs
    | some k, some l =>
      match k.meet l with
      | some m => commonKind (some m) cs
      | none => none

structure NumericParts where
  range : Interval := .full
  bounded : Bool := false
  negated : List (Comparison × Number) := []
  excluded : List Number := []
  others : List Constraint := []

namespace NumericParts

def add (p : NumericParts) : Constraint → NumericParts
  | .bound r n => { p with range := p.range.intersect (.ofBound r n), bounded := true }
  | .neg (.bound r n) => { p with negated := p.negated ++ [(r, n)] }
  | .neg (.equals (.number n)) => { p with excluded := p.excluded ++ [n] }
  | c => { p with others := p.others ++ [c] }

def ofList (cs : List Constraint) : NumericParts := cs.foldl add {}

def openEnd (n : Number) : Option Endpoint → Option Endpoint
  | some e => if e.inclusive && e.value.eq n then some { e with inclusive := false } else some e
  | none => none

def endsAt (n : Number) : Option Endpoint → Bool
  | some e => e.inclusive && e.value.eq n
  | none => false

/-- Exclude numbers from a range: an inclusive end becomes exclusive, a number inside stays in
the list, one outside needs no mention. -/
def exclude (range : Interval) : List Number → Interval × List Number
  | [] => (range, [])
  | n :: ns =>
    let absorbed := endsAt n range.lo || endsAt n range.hi
    let opened : Interval := ⟨openEnd n range.lo, openEnd n range.hi⟩
    let (final, kept) := exclude opened ns
    (final, if !absorbed && opened.contains n then n :: kept else kept)

end NumericParts

/-- Bring the bounds of a conjunction on a number to the tightest pair; `none` for an empty
range. A bound excludes NaN and a negated bound admits it, so negated bounds turn into bounds
only beside a bound. -/
def collapseBounds (cs : List Constraint) : Option (List Constraint) :=
  let p := NumericParts.ofList cs
  let range :=
    if p.bounded then
      p.negated.foldl (fun range (r, n) => range.intersect (.ofBound r.complement n)) p.range
    else p.range
  let negated := if p.bounded then [] else p.negated.map fun (r, n) => .neg (.bound r n)
  let (range, excluded) := NumericParts.exclude range p.excluded
  if range.isEmpty then none
  else
    some (p.others ++ negated ++ range.bounds ++ excluded.map fun n => .neg (.equals (.number n)))

def isOpen : Constraint → Bool
  | .var _ | .bvar _ | .ref _ => true
  | _ => false

def absorb (v : Value) (cs : List Constraint) : Constraint :=
  let rest := cs.filter fun c => c.literal?.isNone
  let opened := rest.filter isOpen
  if (rest.filter fun c => !c.isOpen).all (admits · v) then finishConj (.equals v :: opened)
  else .never

/-- Drop the negations of what the other conjuncts exclude; `none` when they entail what is
negated. -/
def resolveNegations (conj : List Constraint → Constraint)
    (entails : Constraint → Constraint → Bool) (cs : List Constraint) :
    Option (List Constraint) :=
  let positive := cs.filter fun c => !c.isNeg
  if positive.isEmpty || positive.length == cs.length then some cs
  else
    let context := conj positive
    resolve context cs
where
  resolve (context : Constraint) : List Constraint → Option (List Constraint)
    | [] => some []
    | c :: cs =>
      match c with
      | .neg d =>
        if entails context d then none
        else if (conj [context, d]).isNever then resolve context cs
        else (resolve context cs).map (c :: ·)
      | c => (resolve context cs).map (c :: ·)

def conjoinFlat (conj conjPlain : List Constraint → Constraint)
    (entails : Constraint → Constraint → Bool) (flat : List Constraint) : Constraint :=
  match mergeStructure conj conjPlain flat with
  | none => .never
  | some cs =>
    match commonKind none cs with
    | none => .never
    | some common =>
      match if common == some .number then collapseBounds cs else some cs with
      | none => .never
      | some cs =>
        match cs.filterMap literal? with
        | v :: vs => if (v :: vs).all (· == v) then absorb v cs else .never
        | [] =>
          match resolveNegations conjPlain entails cs with
          | none => .never
          | some cs =>
            finishConj ((cs.filter fun c => !c.isKind) ++ (common.map .kind).toList)

end Constraint

end Stagewise
