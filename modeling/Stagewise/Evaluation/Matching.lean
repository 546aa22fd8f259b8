import Stagewise.Constraint.Membership
import Stagewise.Evaluation.Operation

/-!
# Matching

A pattern takes a value apart: it accepts the value and names parts of it, or it does not accept.
The types in a pattern are programs; how they are evaluated is left open.
-/

set_option autoImplicit false

namespace Stagewise

abbrev Bindings := List (String × Value)

namespace Pattern

def fits (count : Nat) (rest : Option String) (length : Nat) : Bool :=
  if rest.isSome then count ≤ length else count == length

def restBindings (count : Nat) (rest : Option String) (items : List Value) : Bindings :=
  match rest with
  | some name => [(name, .array (items.drop count))]
  | none => []

mutual

def matchWith (types : Term → Outcome Constraint) : Pattern → Value → Outcome (Option Bindings)
  | .wildcard, _ => .ok (some [])
  | .binding name, v => .ok (some [(name, v)])
  | .literal l, v => .ok (if v == l.toValue then some [] else none)
  | .object fields, .object entries => matchFields types fields entries
  | .object _, _ => .ok none
  | .array ps rest, .array items =>
    if fits ps.length rest items.length then do
      match ← matchItems types ps items with
      | some bindings => return some (bindings ++ restBindings ps.length rest items)
      | none => return none
    else .ok none
  | .array _ _, _ => .ok none
  | .type ty inner, v => do
    let c ← types ty
    if c.admits v then inner.matchWith types v else return none
termination_by structural p => p

def matchFields (types : Term → Outcome Constraint) :
    List (String × Pattern) → List (String × Value) → Outcome (Option Bindings)
  | [], _ => .ok (some [])
  | (name, p) :: fields, entries =>
    match Association.find? name entries with
    | none => .ok none
    | some v => do
      match ← p.matchWith types v with
      | none => return none
      | some bindings =>
        match ← matchFields types fields entries with
        | none => return none
        | some more => return some (bindings ++ more)
termination_by structural fields => fields

def matchItems (types : Term → Outcome Constraint) :
    List Pattern → List Value → Outcome (Option Bindings)
  | [], _ => .ok (some [])
  | _, [] => .ok (some [])
  | p :: ps, v :: items => do
    match ← p.matchWith types v with
    | none => return none
    | some bindings =>
      match ← matchItems types ps items with
      | none => return none
      | some more => return some (bindings ++ more)
termination_by structural ps => ps

end

end Pattern

end Stagewise
