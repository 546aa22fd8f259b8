import Stagewise.Constraint.Projection
import Stagewise.Staging.Residual

/-!
# Objects, arrays and templates of staged parts

A literal whose parts are all known, or are known to be objects or arrays of known shape, keeps
its shape. Otherwise it becomes a residual literal.
-/

set_option autoImplicit false

namespace Stagewise

inductive StagedEntry where
  | field (name : String) (v : Staged)
  | spread (v : Staged)

namespace StagedEntry

def ofSpread (v : Staged) : Outcome StagedEntry :=
  let c := v.constraint
  let unfit := c.disjoint (.kind .object) || c.implies (.kind .array) || c.implies (.kind .function)
  if !c.isNever && unfit then fail (.cannotSpreadIntoObject (.known c)) else .ok (spread v)

def fields? : StagedEntry → Option (List (String × Staged))
  | field name v => some [(name, v)]
  | spread (.now (.object fields) _ _) => some (fields.map fun (name, v) => (name, .ofValue v))
  | spread (.object fields _) => some fields
  | spread _ => none

def allFields? (fields : List (String × Staged)) :
    List StagedEntry → Option (List (String × Staged))
  | [] => some fields
  | e :: es =>
    match e.fields? with
    | some more => allFields? (Association.putAll fields more) es
    | none => none

def afterUnknown (entries : List StagedEntry) : List StagedEntry :=
  (entries.reverse.takeWhile fun e => e.fields?.isSome).reverse

def writtenFields (entries : List StagedEntry) : List (String × Constraint) :=
  entries.filterMap fun e =>
    match e with
    | field name v => some (name, v.constraint)
    | spread _ => none

def residualizeAll (ctx : Context) (scope : Scope) : List StagedEntry → Stage (List Entry)
  | [] => pure []
  | field name v :: es => do
    let e ← v.residualize ctx scope
    return .field name e :: (← residualizeAll ctx scope es)
  | spread v :: es => do
    let e ← v.residualize ctx scope
    return .spread e :: (← residualizeAll ctx scope es)

/-- The object of staged parts. Fields written after the last unknown part are still known. -/
def assemble (ctx : Context) (scope : Scope) (entries : List StagedEntry) : Stage Staged := do
  match allFields? [] entries with
  | some fields => return .ofFields fields
  | none =>
    let c := (Constraint.record (writtenFields (afterUnknown entries))).simplify
    return .later c (.object (← residualizeAll ctx scope entries))

end StagedEntry

inductive StagedItem where
  | item (v : Staged)
  | spread (v : Staged)

namespace StagedItem

def ofSpread (v : Staged) : Outcome StagedItem :=
  let c := v.constraint
  if !c.isNever && c.disjoint (.kind .array) then fail (.cannotSpreadIntoArray (.known c))
  else .ok (spread v)

def items? : StagedItem → Option (List Staged)
  | item v => some [v]
  | spread (.now (.array items) _ _) => some (items.map .ofValue)
  | spread (.array items _) => some items
  | spread _ => none

def constraint : StagedItem → Constraint
  | item v => v.constraint
  | spread v => v.constraint.itemOf

def residualizeAll (ctx : Context) (scope : Scope) : List StagedItem → Stage (List Item)
  | [] => pure []
  | item v :: is => do
    let e ← v.residualize ctx scope
    return .item e :: (← residualizeAll ctx scope is)
  | spread v :: is => do
    let e ← v.residualize ctx scope
    return .spread e :: (← residualizeAll ctx scope is)

def assemble (ctx : Context) (scope : Scope) (items : List StagedItem) : Stage Staged := do
  match items.mapM items? with
  | some parts => return .ofItems parts.flatten
  | none =>
    let c := (Constraint.arrayOf (.disj (items.map constraint))).simplify
    return .later c (.array (← residualizeAll ctx scope items))

end StagedItem

namespace Part

def mergeTexts : List Part → List Part
  | [] => []
  | .text s :: parts =>
    match mergeTexts parts with
    | .text t :: rest => .text (s ++ t) :: rest
    | rest => .text s :: rest
  | part :: parts => part :: mergeTexts parts

def residualizeAll (ctx : Context) (scope : Scope) : List Staged → Stage (List Part)
  | [] => pure []
  | v :: vs => do
    let part ← match v.value?.filter fun w => !w.isCompound with
      | some w => pure (Part.text w.text)
      | none => Part.interp <$> v.residualize ctx scope
    return part :: (← residualizeAll ctx scope vs)

def assemble (ctx : Context) (scope : Scope) (parts : List Staged) : Stage Staged := do
  match Staged.values? parts with
  | some values => return .ofValue (.string (Text.join "" (values.map Value.text)))
  | none =>
    let residual := mergeTexts (← residualizeAll ctx scope parts)
    return .later (.kind .string) (.template residual)

end Part

end Stagewise
