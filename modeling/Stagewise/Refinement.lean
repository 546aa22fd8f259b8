import Stagewise.Builtin.Basic

/-!
# Refinement by conditions

What a condition tells about the names in it: the constraints that hold where the condition is
true and those that hold where it is false.
-/

set_option autoImplicit false

namespace Stagewise

abbrev Refinements := List (String × Constraint)

namespace Refinements

def refine (r : Refinements) (name : String) (c : Constraint) : Refinements :=
  match Association.find? name r with
  | some known => Association.putSorted name (Constraint.conj [known, c]).simplify r
  | none => Association.putSorted name c.simplify r

def refineAll (r more : Refinements) : Refinements :=
  more.foldl (fun r (name, c) => r.refine name c) r

def without (r : Refinements) (name : String) : Refinements := Association.erase name r

def both (r s : Refinements) : Refinements :=
  s.foldl (fun r (name, c) =>
    match Association.find? name r with
    | some known => Association.putSorted name (Constraint.conj [known, c]).simplify r
    | none => Association.putSorted name c r) r

/-- One of them holds: only what both tell something about is known. -/
def either (r s : Refinements) : Refinements :=
  r.filterMap fun (name, c) =>
    (Association.find? name s).map fun other => (name, (Constraint.disj [c, other]).simplify)

end Refinements

structure Branches where
  yes : Refinements := []
  no : Refinements := []

namespace Branches

def swap (b : Branches) : Branches := ⟨b.no, b.yes⟩

def conj (a b : Branches) : Branches := ⟨a.yes.both b.yes, a.no.either b.no⟩

def disj (a b : Branches) : Branches := ⟨a.yes.either b.yes, a.no.both b.no⟩

end Branches

structure Path where
  root : String
  fields : List String

namespace Path

def wrap (p : Path) (c : Constraint) : Constraint :=
  p.fields.foldr (fun name inner => .field name inner) c

def branches (p : Path) (yes no : Constraint) : Branches :=
  ⟨[(p.root, p.wrap yes)], [(p.root, p.wrap no)]⟩

end Path

mutual

def Term.path? : Term → Option Path
  | .mk node _ => node.path?
termination_by structural e => e

def Node.path? : Node → Option Path
  | .var name => some ⟨name, []⟩
  | .field e name => e.path?.map fun p => ⟨p.root, p.fields ++ [name]⟩
  | _ => none
termination_by structural n => n

end

mutual

def Term.operand? (known : String → Option Value) : Term → Option Value
  | .mk node _ => node.operand? known
termination_by structural e => e

def Node.operand? (known : String → Option Value) : Node → Option Value
  | .literal l => some l.toValue
  | .value v => some v
  | .var name => (known name).filter fun v => !v.isCompound
  | .unary .neg e =>
    match e.operand? known with
    | some (.number n) => some (.number n.neg)
    | _ => none
  | _ => none
termination_by structural n => n

end

namespace BinaryOp

def comparison : BinaryOp → Comparison
  | lt => .lt
  | le => .le
  | gt => .gt
  | _ => .ge

/-- The constraints of a left operand where a comparison with a value holds and where it fails.
A failed ordering also admits NaN, so it stays a negated bound. Nothing compares with NaN. -/
def constraints? (op : BinaryOp) (v : Value) : Option (Constraint × Constraint) :=
  if v.asNumber?.any Number.isNaN then none
  else
    match op with
    | eq => some (.equals v, .neg (.equals v))
    | ne => some (.neg (.equals v), .equals v)
    | lt | le | gt | ge =>
      v.asNumber?.map fun n => (.bound op.comparison n, .neg (.bound op.comparison n))
    | _ => none

def branches? (known : String → Option Value) (op : BinaryOp) (subject other : Term) :
    Option Branches := do
  let path ← subject.path?
  if path.fields.isEmpty && (known path.root).isSome then none
  else
    let (yes, no) ← op.constraints? (← other.operand? known)
    return path.branches yes no

end BinaryOp

def Term.typeGuard? : Term → Option (Path × Kind)
  | .mk (.call callee [e]) _ => do
    let k ← Builtin.guardKind? (← callee.asVar?)
    return (← e.path?, k)
  | _ => none

mutual

def Term.branches (known : String → Option Value) : Term → Branches
  | .mk node span => node.branches known span
termination_by structural e => e

def Node.branches (known : String → Option Value) (span : Option Span) : Node → Branches
  | .binary .and a b => (a.branches known).conj (b.branches known)
  | .binary .or a b => (a.branches known).disj (b.branches known)
  | .binary op a b =>
    match op.branches? known a b with
    | some branches => branches
    | none => (op.flip.branches? known b a).getD {}
  | .unary .not e => (e.branches known).swap
  | .call callee args =>
    match (Term.mk (.call callee args) span).typeGuard? with
    | some (path, k) => path.branches (.kind k) (.neg (.kind k))
    | none => {}
  | node =>
    match node.path? with
    | none => {}
    | some path =>
      if path.fields.isEmpty && (known path.root).isSome then {}
      else path.branches (.ofBool true) (.ofBool false)
termination_by structural n => n

end

end Stagewise
