import Stagewise.Term.Names

/-!
# Parameters that must be known early

A parameter of a function is sensitive when a value computed from it reaches a position that is
evaluated at compile time: directly, through local bindings, through the array of all arguments,
or through a call of a local function in a sensitive position of its own. Calls of such
functions are specialised for each compile-time value.
-/

set_option autoImplicit false

namespace Stagewise

def comptimeForms : List String := ["comptime", "typeOf"]

structure Sensitivity where
  flags : List Bool
deriving DecidableEq

namespace Sensitivity

def isSensitive (s : Sensitivity) (index : Nat) : Bool := s.flags.getD index false

def any (s : Sensitivity) : Bool := s.flags.any id

def positions (s : Sensitivity) : List Nat := (List.range s.flags.length).filter s.isSensitive

def ofMarks (arity : Nat) (marks : List Nat) : Sensitivity :=
  ⟨(List.range arity).map marks.contains⟩

end Sensitivity

/-- What is known about a name: the parameters that its value may depend on and, if it is bound to
a function literal, the sensitivity of that function. -/
structure Dependence where
  name : String
  sources : List Nat
  callee : Option Sensitivity := none

namespace Dependence

def find? (scope : List Dependence) (name : String) : Option Dependence :=
  List.find? (fun d => d.name == name) scope

/-- The parameters that the value of a program may depend on. An item of the argument array at a
known index depends on that argument only. -/
def reach (scope : List Dependence) (e : Term) : List Nat :=
  match argumentIndex? e, find? scope argumentsName with
  | some index, some args => args.sources.filter (· == index)
  | _, _ => (e.freeNames.filterMap (find? scope)).flatMap Dependence.sources |>.eraseDups
where
  argumentIndex? : Term → Option Nat
    | .mk (.index (.mk (.var name) _) (.mk (.literal (.number n)) _)) _ =>
      if name = argumentsName then some n.toCount else none
    | _ => none

def hide (names : List String) (scope : List Dependence) : List Dependence :=
  names.foldl (fun scope name => ⟨name, [], none⟩ :: scope) scope

def bindAll (scope : List Dependence) (p : Pattern) (sources : List Nat)
    (callee : Option Sensitivity) : List Dependence :=
  let callee := if p.asBinding?.isSome then callee else none
  p.names.foldl (fun scope name => ⟨name, sources, callee⟩ :: scope) scope

def ofLambda (f : Lambda) : List Dependence :=
  let arity := f.arity
  let base := hide f.name.toList []
  let all : Dependence := ⟨argumentsName, List.range arity, none⟩
  ((f.paramNames.zip (List.range arity)).foldl
    (fun scope (name, index) => ⟨name, [index], none⟩ :: scope) (all :: base))

end Dependence

open Dependence in
mutual

def Term.marks (scope : List Dependence) : Term → List Nat
  | .mk node _ => node.marks scope
termination_by structural e => e

def Node.marks (scope : List Dependence) : Node → List Nat
  | .literal _ | .var _ | .value _ => []
  | .unary _ e => e.marks scope
  | .binary _ a b => a.marks scope ++ b.marks scope
  | .ifElse test yes no => test.marks scope ++ yes.marks scope ++ no.marks scope
  | .letIn p init body =>
    p.marks scope ++ init.marks scope ++
      body.marks (bindAll scope p (reach scope init) init.sensitivity?)
  | .lambda f => f.marks scope
  | .call callee args =>
    (match callee.asVar? with
      | none => []
      | some name =>
        if comptimeForms.contains name then args.flatMap (reach scope)
        else
          match (find? scope name).bind Dependence.callee with
          | none => []
          | some s =>
            (args.zip (List.range args.length)).flatMap fun (arg, index) =>
              if s.isSensitive index then reach scope arg else []) ++
    callee.marks scope ++ Term.marksList scope args
  | .object entries => Entry.marksList scope entries
  | .array items => Item.marksList scope items
  | .field e _ => e.marks scope
  | .index e key => e.marks scope ++ key.marks scope
  | .template parts => Part.marksList scope parts
  | .block statements result => Statement.marksList scope statements result.marks
  | .await e | .throw e => e.marks scope
  | .matchOn e cases => e.marks scope ++ Case.marksList scope (reach scope e) cases
termination_by structural n => n

def Lambda.marks (scope : List Dependence) : Lambda → List Nat
  | .mk id name params body =>
    Param.marksList scope params ++
      body.marks (hide (Lambda.mk id name params body).boundNames scope)
termination_by structural f => f

def Term.sensitivity? : Term → Option Sensitivity
  | .mk node _ => node.sensitivity?
termination_by structural e => e

def Node.sensitivity? : Node → Option Sensitivity
  | .lambda f => some f.sensitivity
  | _ => none
termination_by structural n => n

def Lambda.sensitivity : Lambda → Sensitivity
  | .mk id name params body =>
    .ofMarks params.length (body.marks (ofLambda (Lambda.mk id name params body)))
termination_by structural f => f

def Param.marksList (scope : List Dependence) : List Param → List Nat
  | [] => []
  | .mk _ none :: ps => Param.marksList scope ps
  | .mk _ (some ty) :: ps => ty.marks scope ++ Param.marksList scope ps
termination_by structural ps => ps

def Term.marksList (scope : List Dependence) : List Term → List Nat
  | [] => []
  | e :: es => e.marks scope ++ Term.marksList scope es
termination_by structural es => es

def Entry.marksList (scope : List Dependence) : List Entry → List Nat
  | [] => []
  | .field _ e :: es => e.marks scope ++ Entry.marksList scope es
  | .spread e :: es => e.marks scope ++ Entry.marksList scope es
termination_by structural es => es

def Item.marksList (scope : List Dependence) : List Item → List Nat
  | [] => []
  | .item e :: es => e.marks scope ++ Item.marksList scope es
  | .spread e :: es => e.marks scope ++ Item.marksList scope es
termination_by structural es => es

def Part.marksList (scope : List Dependence) : List Part → List Nat
  | [] => []
  | .text _ :: es => Part.marksList scope es
  | .interp e :: es => e.marks scope ++ Part.marksList scope es
termination_by structural es => es

def Statement.marksList (scope : List Dependence) : List Statement →
    (List Dependence → List Nat) → List Nat
  | [], result => result scope
  | .bind p e :: ss, result =>
    p.marks scope ++ e.marks scope ++
      Statement.marksList (bindAll scope p (reach scope e) e.sensitivity?) ss result
  | .eval e :: ss, result => e.marks scope ++ Statement.marksList scope ss result
  | .load names _ :: ss, result => Statement.marksList (hide names scope) ss result
termination_by structural ss => ss

def Case.marksList (scope : List Dependence) (subject : List Nat) : List Case → List Nat
  | [] => []
  | .mk p none body :: cs =>
    p.marks scope ++ body.marks (bindAll scope p subject none) ++ Case.marksList scope subject cs
  | .mk p (some guard) body :: cs =>
    p.marks scope ++ guard.marks (bindAll scope p subject none) ++
      body.marks (bindAll scope p subject none) ++ Case.marksList scope subject cs
termination_by structural cs => cs

def Pattern.marks (scope : List Dependence) : Pattern → List Nat
  | .wildcard | .binding _ | .literal _ => []
  | .object fields => Pattern.marksFields scope fields
  | .array items _ => Pattern.marksList scope items
  | .type ty inner => ty.marks scope ++ inner.marks scope
termination_by structural p => p

def Pattern.marksFields (scope : List Dependence) : List (String × Pattern) → List Nat
  | [] => []
  | (_, p) :: fields => p.marks scope ++ Pattern.marksFields scope fields
termination_by structural fields => fields

def Pattern.marksList (scope : List Dependence) : List Pattern → List Nat
  | [] => []
  | p :: ps => p.marks scope ++ Pattern.marksList scope ps
termination_by structural ps => ps

end

end Stagewise
