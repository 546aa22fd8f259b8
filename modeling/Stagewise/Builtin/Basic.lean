import Stagewise.Constraint.Solution
import Stagewise.Evaluation.Operation

/-!
# Builtin functions

The functions that every program can call without defining them, with their signatures. A
parameter may hold variables, which relate it to other parameters and to the result.
-/

set_option autoImplicit false

namespace Stagewise

inductive Builtin where
  | guard (k : Kind)
  | length
  | keys
  | values
  | entries
  | concat
  | append
  | slice
  | includes
  | join
  | range
  | toText
  | abs
  | floor
  | min
  | max
  | map
  | filter
  | fold
  | fields
  | fieldType
  | objectType
  | unionType
  | intersectionType
  | recType
  | objectFromEntries
  | arrayType
  | tupleType
  | literalType
  | typeImplies
deriving DecidableEq

namespace Builtin

def guardedKinds : List Kind := [.number, .string, .bool, .null, .object, .array, .function]

def guardName : Kind → String
  | .number => "isNumber"
  | .string => "isString"
  | .bool => "isBool"
  | .null => "isNull"
  | .object => "isObject"
  | .array => "isArray"
  | .function => "isFunction"
  | .type => "isType"

def guardKind? (name : String) : Option Kind :=
  guardedKinds.find? fun k => guardName k == name

def name : Builtin → String
  | guard k => guardName k
  | length => "length"
  | keys => "keys"
  | values => "values"
  | entries => "entries"
  | concat => "concat"
  | append => "append"
  | slice => "slice"
  | includes => "includes"
  | join => "join"
  | range => "range"
  | toText => "toString"
  | abs => "abs"
  | floor => "floor"
  | min => "min"
  | max => "max"
  | map => "map"
  | filter => "filter"
  | fold => "fold"
  | fields => "fields"
  | fieldType => "fieldType"
  | objectType => "objectType"
  | unionType => "unionType"
  | intersectionType => "intersectionType"
  | recType => "recType"
  | objectFromEntries => "objectFromEntries"
  | arrayType => "arrayType"
  | tupleType => "tupleType"
  | literalType => "literalType"
  | typeImplies => "typeImplies"

def all : List Builtin :=
  guardedKinds.map guard ++
    [length, keys, values, entries, concat, append, slice, includes, join, range, toText, abs,
      floor, min, max, map, filter, fold, fields, fieldType, objectType, unionType,
      intersectionType, recType, objectFromEntries, arrayType, tupleType, literalType,
      typeImplies]

def ofName? (name : String) : Option Builtin := all.find? fun b => b.name == name

def someArray : Constraint := .arrayOf (.var 0)

def params : Builtin → List Constraint
  | guard _ | toText | literalType => [.any]
  | length => [.sequence]
  | keys | values | entries | objectType => [.kind .object]
  | concat => [someArray, someArray]
  | append => [someArray, .var 0]
  | slice => [someArray, .kind .number, .kind .number]
  | includes => [.kind .array, .any]
  | join => [.kind .array, .kind .string]
  | range | min | max => [.kind .number, .kind .number]
  | abs | floor => [.kind .number]
  | map => [.kind .array, .kind .function]
  | filter => [someArray, .kind .function]
  | fold => [.kind .array, .any, .kind .function]
  | fields | arrayType => [.kind .type]
  | fieldType => [.kind .type, .kind .string]
  | unionType | intersectionType | typeImplies => [.kind .type, .kind .type]
  | recType => [.kind .function]
  | objectFromEntries | tupleType => [.kind .array]

def arity (b : Builtin) : Nat := b.params.length

def isComptimeOnly : Builtin → Bool
  | fields | fieldType | objectType | unionType | intersectionType | recType
  | objectFromEntries | arrayType | tupleType | literalType | typeImplies => true
  | _ => false

def isHigherOrder : Builtin → Bool
  | map | filter | fold | recType => true
  | _ => false

def method? : Builtin → Option String
  | slice => some "slice"
  | includes => some "includes"
  | join => some "join"
  | map => some "map"
  | filter => some "filter"
  | fold => some "reduce"
  | _ => none

def ofMethod? (method : String) : Option Builtin := all.find? fun b => b.method? == some method

/-- The parameters that the arguments of the method after the receiver belong to, where they
come in another order. -/
def methodOrder? : Builtin → Option (List Nat)
  | fold => some [2, 1]
  | _ => none

def ofMethodArgs {α : Type} (b : Builtin) (receiver : α) (rest : List α) : List α :=
  match b.methodOrder? with
  | none => receiver :: rest
  | some order =>
    if order.length = rest.length then
      receiver :: (List.range rest.length).filterMap fun slot =>
        ((order.zip rest).find? fun (index, _) => index == slot + 1).map Prod.snd
    else receiver :: rest

def methodArgs {α : Type} (b : Builtin) (args : List α) : List α :=
  match b.methodOrder? with
  | none => args.drop 1
  | some order => order.filterMap fun index => args[index]?

/-- Check parameters from a position on; only a provable mismatch fails. -/
def checkFrom (b : Builtin) (position : Nat) : List Constraint → List Constraint → Outcome Unit
  | param :: params, arg :: args =>
    let expected := param.eraseVars
    if !arg.isNever && arg.disjoint expected then
      fail (.argument position b.name expected arg)
    else b.checkFrom (position + 1) params args
  | _, _ => .ok ()

def checkArgs (b : Builtin) (args : List Constraint) : Outcome Unit :=
  if args.length = b.arity then b.checkFrom 1 b.params args
  else fail (.arity (.thing s!"`{b.name}`") b.arity args.length)

def guardResult (k : Kind) (c : Constraint) : Constraint :=
  if c.implies (.kind k) then .ofBool true
  else if c.disjoint (.kind k) then .ofBool false
  else .kind .bool

def resultPattern : Builtin → Constraint
  | keys | fields => .arrayOf (.kind .string)
  | values | map => .kind .array
  | entries => .arrayOf (.tuple [.kind .string, .any])
  | concat | append | slice | filter => someArray
  | guard _ | includes | typeImplies => .kind .bool
  | join | toText => .kind .string
  | range => .arrayOf (.kind .number)
  | abs => .nonNegative
  | length | floor | min | max => .kind .number
  | fold => .any
  | fieldType | objectType | unionType | intersectionType | recType | arrayType | tupleType
  | literalType => .kind .type
  | objectFromEntries => .kind .object

def solve (b : Builtin) (args : List Constraint) : Constraint.Solution :=
  (b.params.zip args).foldl (fun s (param, arg) => Constraint.Solution.bind s arg param) []

def result (b : Builtin) (args : List Constraint) : Constraint :=
  match b, args with
  | guard k, c :: _ => guardResult k c
  | length, c :: _ => c.lengthOf
  | _, _ => Constraint.Solution.instantiate (b.solve args) b.resultPattern

end Builtin

end Stagewise
