import Stagewise.Constraint.Projection
import Stagewise.Staging.Residual

/-!
# Parts of staged values

Fields, items and the rest of staged arrays and objects.
-/

set_option autoImplicit false

namespace Stagewise.Staged

def laterField (c : Constraint) (name : String) : Outcome Constraint :=
  if name = "length" && c.implies .sequence then .ok c.lengthOf
  else if !c.isNever && c.disjoint (.kind .object) then fail (.cannotReadField (.known c) name)
  else
    match c.literal? with
    | some (.object fields) =>
      if Association.contains name fields then .ok (c.fieldOf name)
      else fail (.noField (.known c) name)
    | _ => .ok (c.fieldOf name)

def readField (v : Staged) (name : String) : Outcome Staged :=
  match v with
  | .now v _ _ => ofValue <$> v.readField name
  | .object fields _ =>
    match Association.find? name fields with
    | some field => .ok field
    | none => fail (.noField (.thing "object") name)
  | .array items _ =>
    if name = "length" then .ok (ofValue (.ofNat items.length))
    else fail (.cannotReadField (.thing "an array") name)
  | .closure _ => fail (.cannotReadField (.thing "a function") name)
  | .later c residual => do return .later (← laterField c name) (.field residual name)

def laterIndex (c : Constraint) (key : Option Value) : Outcome Constraint :=
  if !c.isNever && c.disjoint (.disj [.kind .object, .kind .string]) then
    fail (.cannotIndex (.known c))
  else
    match key with
    | some (.string name) => .ok (c.fieldOf name)
    | some key =>
      match key.asIndex? with
      | some index => .ok (if c.implies (.kind .string) then .kind .string else c.itemAt index)
      | none => fail (.invalidIndex key)
    | none =>
      .ok (if c.implies (.kind .string) then .kind .string
        else if c.implies (.kind .array) then c.itemOf
        else .any)

def indexLater (ctx : Context) (scope : Scope) (v key : Staged) : Stage Staged := do
  let c ← Stage.lift (laterIndex v.constraint key.value?)
  let object ← v.residualize ctx scope
  return .later c (.index object (← key.residualize ctx scope))

def readIndex (ctx : Context) (scope : Scope) (v key : Staged) : Stage Staged :=
  match v, key.value? with
  | .now v _ _, some k => Stage.lift (ofValue <$> v.readIndex k)
  | .array items _, some k =>
    match k.asIndex?.bind fun index => items[index]? with
    | some item => pure item
    | none => .fail (.outOfBounds k (.thing s!"an array of {items.length}"))
  | .object _ _, some (.string name) => Stage.lift (v.readField name)
  | .closure _, _ => .fail (.cannotIndex (.thing "a function"))
  | _, _ => indexLater ctx scope v key

def rest (ctx : Context) (scope : Scope) (skip : Nat) : Staged → Stage Staged
  | .now (.array items) _ _ => pure (ofValue (.array (items.drop skip)))
  | .array items _ => pure (ofItems (items.drop skip))
  | .now v _ _ => .fail (.cannotTakeRest (.value v))
  | .later c residual => do
    let array ← (Staged.later c residual).residualize ctx scope
    let slice := Term.call (.field array "slice")
      [.number (Number.ofNat skip), .field array "length"]
    return .later (Constraint.arrayOf c.itemOf).simplify slice
  | v => .fail (.cannotTakeRest (.known v.constraint))

end Stagewise.Staged
