import Stagewise.Json.Record
import Stagewise.Value.Basic

/-!
# Documents of values and constraints

Values and constraints are variants. Closures cannot be written; numbers may be read from
documents in a stricter or in a wider form.
-/

set_option autoImplicit false

namespace Stagewise

def Kind.tag : Kind → String
  | .number => "IsNumber"
  | .string => "IsString"
  | .bool => "IsBool"
  | .null => "IsNull"
  | .object => "IsObject"
  | .array => "IsArray"
  | .function => "IsFunction"
  | .type => "IsType"

def Kind.ofTag? (tag : String) : Option Kind :=
  [Kind.number, .string, .bool, .null, .object, .array, .function, .type].find? (·.tag == tag)

def Comparison.tag : Comparison → String
  | .gt => "Gt"
  | .ge => "Gte"
  | .lt => "Lt"
  | .le => "Lte"

def Comparison.ofTag? (tag : String) : Option Comparison :=
  [Comparison.gt, .ge, .lt, .le].find? (·.tag == tag)

namespace Json

def tagged (tag : String) (payload : Json) : Json := .object [(tag, payload)]

def count (n : Nat) : Json := .integer n

def strings (texts : List String) : Json := .array (texts.map .string)

def extendedNumber? : Json → Option Number
  | .string "NaN" => some Number.nan
  | .string "Infinity" => some Number.infinity
  | .string "-Infinity" => some Number.infinity.neg
  | json => json.number?

def Dialect.extended : Dialect := { Dialect.plain with number := extendedNumber? }

end Json

mutual

def Value.hasClosure : Value → Bool
  | .closure _ _ => true
  | .object fields => Value.hasClosureFields fields
  | .array items => Value.hasClosureItems items
  | .type c => c.hasClosure
  | _ => false
termination_by structural v => v

def Value.hasClosureFields : List (String × Value) → Bool
  | [] => false
  | (_, v) :: fields => v.hasClosure || Value.hasClosureFields fields
termination_by structural fields => fields

def Value.hasClosureItems : List Value → Bool
  | [] => false
  | v :: items => v.hasClosure || Value.hasClosureItems items
termination_by structural items => items

def Constraint.hasClosure : Constraint → Bool
  | .equals v => v.hasClosure
  | .field _ c | .elements c | .length c | .elementAt _ c | .neg c | .fix c => c.hasClosure
  | .conj cs | .disj cs => Constraint.hasClosureList cs
  | _ => false
termination_by structural c => c

def Constraint.hasClosureList : List Constraint → Bool
  | [] => false
  | c :: cs => c.hasClosure || Constraint.hasClosureList cs
termination_by structural cs => cs

end

mutual

def Value.toJson : Value → Json
  | .number n => .tagged "Number" (.number n)
  | .string s => .tagged "String" (.string s)
  | .bool b => .tagged "Bool" (.bool b)
  | .null => .string "Null"
  | .object fields => .tagged "Object" (.object (Value.fieldsToJson fields))
  | .array items => .tagged "Array" (.array (Value.itemsToJson items))
  | .closure _ _ => .null
  | .builtin name => .tagged "Builtin" (.string name)
  | .type c => .tagged "Type" c.toJson
termination_by structural v => v

def Value.fieldsToJson : List (String × Value) → List (String × Json)
  | [] => []
  | (name, v) :: fields => (name, v.toJson) :: Value.fieldsToJson fields
termination_by structural fields => fields

def Value.itemsToJson : List Value → List Json
  | [] => []
  | v :: items => v.toJson :: Value.itemsToJson items
termination_by structural items => items

def Constraint.toJson : Constraint → Json
  | .kind k => .string k.tag
  | .equals v => .tagged "Equals" v.toJson
  | .bound r n => .tagged r.tag (.number n)
  | .field name c => .tagged "HasField" (.array [.string name, c.toJson])
  | .elements c => .tagged "Elements" c.toJson
  | .length c => .tagged "Length" c.toJson
  | .elementAt i c => .tagged "ElementAt" (.array [.count i, c.toJson])
  | .conj cs => .tagged "And" (.array (Constraint.listToJson cs))
  | .disj cs => .tagged "Or" (.array (Constraint.listToJson cs))
  | .neg c => .tagged "Not" c.toJson
  | .fix c => .tagged "Rec" c.toJson
  | .bvar i => .tagged "RecVar" (.count i)
  | .ref name => .tagged "RecRef" (.string name)
  | .var id => .tagged "Var" (.count id)
  | .any => .string "Any"
  | .never => .string "Never"
termination_by structural c => c

def Constraint.listToJson : List Constraint → List Json
  | [] => []
  | c :: cs => c.toJson :: Constraint.listToJson cs
termination_by structural cs => cs

end

def Value.toJson? (v : Value) : Option Json := if v.hasClosure then none else some v.toJson

mutual

def Value.ofJsonAt? (d : Json.Dialect) (depth : Nat) (json : Json) : Option Value :=
  match depth with
  | 0 => none
  | depth + 1 =>
    match json.variant? with
    | none => none
    | some ("Null", payload) => if d.isBare payload then some .null else none
    | some (_, none) => none
    | some (tag, some payload) =>
      match tag with
      | "Number" => (d.number payload).map .number
      | "String" => payload.string?.map .string
      | "Bool" => payload.bool?.map .bool
      | "Object" => do
        let fields ← payload.object?
        let fields ← fields.mapM fun (name, json) =>
          (Value.ofJsonAt? d depth json).map fun v => (name, v)
        return .object (Association.putAll [] fields)
      | "Array" => do
        let items ← payload.array?
        return .array (← items.mapM (Value.ofJsonAt? d depth))
      | "Builtin" => payload.string?.map .builtin
      | "Type" => (Constraint.ofJsonAt? d depth payload).map .type
      | _ => none
termination_by structural depth

def Constraint.ofJsonAt? (d : Json.Dialect) (depth : Nat) (json : Json) :
    Option Constraint :=
  match depth with
  | 0 => none
  | depth + 1 =>
    match json.variant? with
    | none => none
    | some (tag, payload) =>
      let bare : Option Constraint :=
        match tag with
        | "Any" => some .any
        | "Never" => some .never
        | tag => (Kind.ofTag? tag).map .kind
      match bare, payload with
      | some c, payload => if d.isBare payload then some c else none
      | none, none => none
      | none, some payload =>
        match Comparison.ofTag? tag with
        | some r => (d.number payload).map (.bound r)
        | none =>
          let inner := Constraint.ofJsonAt? d depth
          match tag with
          | "Equals" => (Value.ofJsonAt? d depth payload).map .equals
          | "HasField" => do
            let (name, c) ← payload.pair?
            return .field (← name.string?) (← inner c)
          | "Elements" => (inner payload).map .elements
          | "Length" => (inner payload).map .length
          | "ElementAt" => do
            let (index, c) ← payload.pair?
            return .elementAt (← index.count?) (← inner c)
          | "And" => do return .conj (← (← payload.array?).mapM inner)
          | "Or" => do return .disj (← (← payload.array?).mapM inner)
          | "Not" => (inner payload).map .neg
          | "Rec" => (inner payload).map .fix
          | "RecVar" => payload.count?.map .bvar
          | "RecRef" => payload.string?.map .ref
          | "Var" => (payload.natUpTo? 0xFFFFFFFF).map .var
          | _ => none
termination_by structural depth

end

def Value.ofJson? (d : Json.Dialect) (json : Json) : Option Value :=
  Value.ofJsonAt? d (json.depth + 1) json

def Constraint.ofJson? (d : Json.Dialect) (json : Json) : Option Constraint :=
  Constraint.ofJsonAt? d (json.depth + 1) json

end Stagewise
