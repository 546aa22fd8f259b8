import Stagewise.Term.Basic

/-!
# Names in programs

Which names a program refers to without binding them, and how often. Every function body also
binds the name of the array of all arguments.
-/

set_option autoImplicit false

namespace Stagewise

def argumentsName : String := "args"

def Lambda.boundNames (f : Lambda) : List String :=
  f.name.toList ++ f.paramNames ++ [argumentsName]

def Statement.names : Statement → List String
  | .bind p _ => p.names
  | .eval _ => []
  | .load names _ => names

structure Occurrence where
  name : String
  inLambda : Bool

namespace Term

mutual

def occurrences (bound : List String) (inLambda : Bool) : Term → List Occurrence
  | .mk node _ => occurrencesNode bound inLambda node
termination_by structural e => e

def occurrencesNode (bound : List String) (inLambda : Bool) : Node → List Occurrence
  | .literal _ | .value _ => []
  | .var name => if bound.contains name then [] else [⟨name, inLambda⟩]
  | .unary _ e => e.occurrences bound inLambda
  | .binary _ a b => a.occurrences bound inLambda ++ b.occurrences bound inLambda
  | .ifElse test yes no =>
    test.occurrences bound inLambda ++ yes.occurrences bound inLambda ++
      no.occurrences bound inLambda
  | .letIn p init body =>
    occurrencesPattern bound inLambda p ++ init.occurrences bound inLambda ++
      body.occurrences (p.names ++ bound) inLambda
  | .lambda f => occurrencesLambda bound inLambda f
  | .call callee args =>
    callee.occurrences bound inLambda ++ occurrencesList bound inLambda args
  | .object entries => occurrencesEntries bound inLambda entries
  | .array items => occurrencesItems bound inLambda items
  | .field e _ => e.occurrences bound inLambda
  | .index e key => e.occurrences bound inLambda ++ key.occurrences bound inLambda
  | .template parts => occurrencesParts bound inLambda parts
  | .block statements result =>
    occurrencesStatements bound inLambda statements ++
      result.occurrences (statements.flatMap Statement.names ++ bound) inLambda
  | .await e | .throw e => e.occurrences bound inLambda
  | .matchOn e cases => e.occurrences bound inLambda ++ occurrencesCases bound inLambda cases
termination_by structural n => n

def occurrencesLambda (bound : List String) (inLambda : Bool) : Lambda → List Occurrence
  | .mk id name params body =>
    occurrencesParams bound inLambda params ++
      body.occurrences ((Lambda.mk id name params body).boundNames ++ bound) true
termination_by structural f => f

def occurrencesParams (bound : List String) (inLambda : Bool) : List Param → List Occurrence
  | [] => []
  | .mk _ none :: ps => occurrencesParams bound inLambda ps
  | .mk _ (some ty) :: ps => ty.occurrences bound inLambda ++ occurrencesParams bound inLambda ps
termination_by structural ps => ps

def occurrencesList (bound : List String) (inLambda : Bool) : List Term → List Occurrence
  | [] => []
  | e :: es => e.occurrences bound inLambda ++ occurrencesList bound inLambda es
termination_by structural es => es

def occurrencesEntries (bound : List String) (inLambda : Bool) : List Entry → List Occurrence
  | [] => []
  | .field _ e :: es => e.occurrences bound inLambda ++ occurrencesEntries bound inLambda es
  | .spread e :: es => e.occurrences bound inLambda ++ occurrencesEntries bound inLambda es
termination_by structural es => es

def occurrencesItems (bound : List String) (inLambda : Bool) : List Item → List Occurrence
  | [] => []
  | .item e :: es => e.occurrences bound inLambda ++ occurrencesItems bound inLambda es
  | .spread e :: es => e.occurrences bound inLambda ++ occurrencesItems bound inLambda es
termination_by structural es => es

def occurrencesParts (bound : List String) (inLambda : Bool) : List Part → List Occurrence
  | [] => []
  | .text _ :: es => occurrencesParts bound inLambda es
  | .interp e :: es => e.occurrences bound inLambda ++ occurrencesParts bound inLambda es
termination_by structural es => es

def occurrencesStatements (bound : List String) (inLambda : Bool) :
    List Statement → List Occurrence
  | [] => []
  | .bind p e :: ss =>
    occurrencesPattern bound inLambda p ++ e.occurrences bound inLambda ++
      occurrencesStatements (p.names ++ bound) inLambda ss
  | .eval e :: ss => e.occurrences bound inLambda ++ occurrencesStatements bound inLambda ss
  | .load names _ :: ss => occurrencesStatements (names ++ bound) inLambda ss
termination_by structural ss => ss

def occurrencesCases (bound : List String) (inLambda : Bool) : List Case → List Occurrence
  | [] => []
  | .mk p none body :: cs =>
    occurrencesPattern bound inLambda p ++ body.occurrences (p.names ++ bound) inLambda ++
      occurrencesCases bound inLambda cs
  | .mk p (some guard) body :: cs =>
    occurrencesPattern bound inLambda p ++ guard.occurrences (p.names ++ bound) inLambda ++
      body.occurrences (p.names ++ bound) inLambda ++ occurrencesCases bound inLambda cs
termination_by structural cs => cs

def occurrencesPattern (bound : List String) (inLambda : Bool) : Pattern → List Occurrence
  | .wildcard | .binding _ | .literal _ => []
  | .object fields => occurrencesFields bound inLambda fields
  | .array items _ => occurrencesPatterns bound inLambda items
  | .type ty inner => ty.occurrences bound inLambda ++ occurrencesPattern bound inLambda inner
termination_by structural p => p

def occurrencesFields (bound : List String) (inLambda : Bool) :
    List (String × Pattern) → List Occurrence
  | [] => []
  | (_, p) :: fields =>
    occurrencesPattern bound inLambda p ++ occurrencesFields bound inLambda fields
termination_by structural fields => fields

def occurrencesPatterns (bound : List String) (inLambda : Bool) : List Pattern → List Occurrence
  | [] => []
  | p :: ps => occurrencesPattern bound inLambda p ++ occurrencesPatterns bound inLambda ps
termination_by structural ps => ps

end

def free (e : Term) : List Occurrence := e.occurrences [] false

def insertName (name : String) : List String → List String
  | [] => [name]
  | n :: ns =>
    if name < n then name :: n :: ns else if n = name then n :: ns else n :: insertName name ns

def freeNames (e : Term) : List String :=
  e.free.foldl (fun acc o => insertName o.name acc) []

/-- The number of free uses of a name. A use inside a function counts twice: the function may run
many times, so a value used there is never cheaper to repeat than to name. -/
def uses (e : Term) (name : String) : Nat :=
  e.free.foldl (fun n o => if o.name = name then n + (if o.inLambda then 2 else 1) else n) 0

def mentions (e : Term) (name : String) : Bool := e.free.any fun o => o.name == name

end Term

end Stagewise
