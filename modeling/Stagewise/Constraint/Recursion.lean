import Stagewise.Constraint.Basic

/-!
# Recursive constraints

Bookkeeping for the bound variables of recursive constraints: closing a named reference,
shifting, substitution and unfolding.
-/

set_option autoImplicit false

namespace Stagewise.Constraint

mutual

def close (name : String) (depth : Nat) : Constraint → Constraint
  | .ref n => if n = name then .bvar depth else .ref n
  | .fix body => .fix (body.close name (depth + 1))
  | .field n c => .field n (c.close name depth)
  | .elements c => .elements (c.close name depth)
  | .length c => .length (c.close name depth)
  | .elementAt i c => .elementAt i (c.close name depth)
  | .conj cs => .conj (closeList name depth cs)
  | .disj cs => .disj (closeList name depth cs)
  | .neg c => .neg (c.close name depth)
  | c => c
termination_by structural c => c

def closeList (name : String) (depth : Nat) : List Constraint → List Constraint
  | [] => []
  | c :: cs => c.close name depth :: closeList name depth cs
termination_by structural cs => cs

end

def recursive (name : String) (body : Constraint) : Constraint := .fix (body.close name 0)

mutual

/-- Replace every variable `i` by `f d i`, where `d` counts the recursive constraints around it,
`depth` of them outside the whole. -/
def replaceVars (f : Nat → Nat → Constraint) (depth : Nat) : Constraint → Constraint
  | .bvar i => f depth i
  | .fix body => .fix (body.replaceVars f (depth + 1))
  | .field n c => .field n (c.replaceVars f depth)
  | .elements c => .elements (c.replaceVars f depth)
  | .length c => .length (c.replaceVars f depth)
  | .elementAt i c => .elementAt i (c.replaceVars f depth)
  | .conj cs => .conj (replaceVarsList f depth cs)
  | .disj cs => .disj (replaceVarsList f depth cs)
  | .neg c => .neg (c.replaceVars f depth)
  | c => c
termination_by structural c => c

def replaceVarsList (f : Nat → Nat → Constraint) (depth : Nat) :
    List Constraint → List Constraint
  | [] => []
  | c :: cs => c.replaceVars f depth :: replaceVarsList f depth cs
termination_by structural cs => cs

end

mutual

def anyVar (p : Nat → Nat → Bool) (depth : Nat) : Constraint → Bool
  | .bvar i => p depth i
  | .fix body => body.anyVar p (depth + 1)
  | .field _ c | .elements c | .length c | .elementAt _ c | .neg c => c.anyVar p depth
  | .conj cs | .disj cs => anyVarList p depth cs
  | _ => false
termination_by structural c => c

def anyVarList (p : Nat → Nat → Bool) (depth : Nat) : List Constraint → Bool
  | [] => false
  | c :: cs => c.anyVar p depth || anyVarList p depth cs
termination_by structural cs => cs

end

/-- The index `i` moved by `offset`. Indices are machine words that move as signed ones: the sum
wraps around, and what is negative then becomes zero. -/
def movedIndex (offset : Int) (i : Nat) : Nat := ((i + offset).bmod 0x10000000000000000).toNat

def lift (offset : Int) (c : Constraint) : Constraint :=
  c.replaceVars (fun depth i => .bvar (if depth ≤ i then movedIndex offset i else i)) 0

/-- Move the variables that are free by at least `cutoff` by `offset`. The cutoff is a machine
word and wraps around where recursive constraints raise it. -/
def shift (offset : Int) (cutoff : UInt64) (c : Constraint) : Constraint :=
  c.replaceVars (fun depth i =>
    .bvar (if (cutoff + UInt64.ofNat depth).toNat ≤ i then movedIndex offset i else i)) 0

def substitute (replacement body : Constraint) : Constraint :=
  body.replaceVars (fun depth i =>
    if i = depth then replacement.lift depth
    else .bvar (if depth < i then i - 1 else i)) 0

def unfold : Constraint → Constraint
  | .fix body => substitute (.fix body) body
  | c => c

def mentionsSelf (body : Constraint) : Bool := body.anyVar (fun depth i => i == depth) 0

/-- Whether the free variable `index` occurs. The index is a machine word and wraps around where
recursive constraints raise it. -/
def mentions (index : UInt64) (c : Constraint) : Bool :=
  c.anyVar (fun depth i => i == (index + UInt64.ofNat depth).toNat) 0

def hasFree (c : Constraint) : Bool := c.anyVar (fun depth i => depth ≤ i) 0

mutual

/-- Whether every occurrence of the variable `depth` stands below a field, an item or a length. -/
def isGuarded (depth : Nat) : Constraint → Bool
  | .bvar i => i != depth
  | .fix body => body.isGuarded (depth + 1)
  | .conj cs | .disj cs => isGuardedList depth cs
  | .neg c => c.isGuarded depth
  | _ => true
termination_by structural c => c

def isGuardedList (depth : Nat) : List Constraint → Bool
  | [] => true
  | c :: cs => c.isGuarded depth && isGuardedList depth cs
termination_by structural cs => cs

end

def isUnrollable : Constraint → Bool
  | .fix body => body.isGuarded 0
  | _ => false

end Stagewise.Constraint
