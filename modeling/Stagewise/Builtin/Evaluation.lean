import Stagewise.Builtin.Basic

/-!
# Evaluation of builtin functions

What the builtin functions do with known arguments. A function that calls one of its arguments
gets the way to call it as a parameter.
-/

set_option autoImplicit false

namespace Stagewise

abbrev Apply := Value → List Value → Outcome Value

namespace Builtin

def arg (args : List Value) (index : Nat) : Outcome Value :=
  match args[index]? with
  | some v => .ok v
  | none => fail (.missingArgument (index + 1))

def numberArg (args : List Value) (index : Nat) : Outcome Number := do
  match ← arg args index with
  | .number n => return n
  | v => fail (.mismatch "a number" v)

def arrayArg (args : List Value) (index : Nat) : Outcome (List Value) := do
  match ← arg args index with
  | .array items => return items
  | v => fail (.mismatch "an array" v)

def objectArg (args : List Value) (index : Nat) : Outcome (List (String × Value)) := do
  match ← arg args index with
  | .object parts => return parts
  | v => fail (.mismatch "an object" v)

def typeArg (args : List Value) (index : Nat) : Outcome Constraint := do
  match ← arg args index with
  | .type c => return c
  | v => fail (.mismatch "a type" v)

def lengthOf : Value → Outcome Value
  | .array items => .ok (.ofNat items.length)
  | .string s => .ok (.ofNat s.length)
  | v => fail (.lengthOf v)

def offset (n : Number) (length : Nat) : Nat :=
  let n := n.trunc
  if n.lt Number.zero then (((Number.ofNat length).add n).max Number.zero).toCount
  else Nat.min n.toCount length

def slicePart (items : List Value) (start stop : Number) : List Value :=
  let start := offset start items.length
  (items.drop start).take (offset stop items.length - start)

/-- The numbers from `n` on in steps of one, before the end. There are none to be given where a step
leaves the number as it is: the steps never come to an end then. -/
def countUp (stop n : Number) : Option (List Number) :=
  if _ : n.lt stop then
    if _ : n.lt (n.add (Number.ofNat 1)) then
      (countUp stop (n.add (Number.ofNat 1))).map (n :: ·)
    else none
  else some []
termination_by (stop.place - n.place).toNat
decreasing_by
  rename_i h h'
  simp only [Number.lt, Bool.and_eq_true, decide_eq_true_eq] at h h'
  omega

def rangeOf (start stop : Number) : Outcome Value :=
  match countUp stop start with
  | some ns => .ok (.array (ns.map .number))
  | none => fail (.endlessRange start stop)

def joinTexts (separator : Value) (args : List Value) : Outcome Value := do
  match separator with
  | .string s => return .string (Text.join s ((← arrayArg args 0).map Value.text))
  | v => fail (.separator v)

def mapItems (apply : Apply) (callback : Value) : List Value → Outcome (List Value)
  | [] => .ok []
  | v :: items => do
    let result ← apply callback [v]
    return result :: (← mapItems apply callback items)

def filterItems (apply : Apply) (callback : Value) : List Value → Outcome (List Value)
  | [] => .ok []
  | v :: items => do
    match ← apply callback [v] with
    | .bool true => return v :: (← filterItems apply callback items)
    | .bool false => filterItems apply callback items
    | other => fail (.filterResult other)

def foldItems (apply : Apply) (callback : Value) : Value → List Value → Outcome Value
  | acc, [] => .ok acc
  | acc, v :: items => do foldItems apply callback (← apply callback [acc, v]) items

def requiredFields (c : Constraint) : List String :=
  match c.simplify with
  | .field name _ => [name]
  | .conj cs => cs.filterMap fun c =>
    match c with
    | .field name _ => some name
    | _ => none
  | .equals (.object parts) => Association.names parts
  | _ => []

def fieldTypes : List (String × Value) → Outcome (List (String × Constraint))
  | [] => .ok []
  | (name, .type c) :: parts => do return (name, c) :: (← fieldTypes parts)
  | (name, v) :: _ => fail (.notFieldType name v)

def itemTypes : List Value → Outcome (List Constraint)
  | [] => .ok []
  | .type c :: items => do return c :: (← itemTypes items)
  | v :: _ => fail (.notItemType v)

def collectEntries (parts : List (String × Value)) : List Value → Outcome (List (String × Value))
  | [] => .ok parts
  | .array [.string name, v] :: pairs => collectEntries (Association.put name v parts) pairs
  | v :: _ => fail (.notEntry v)

/-- The name of the self reference that a builder of a recursive type gets. The number has always
the same width and is another one for every builder, so that nested recursive types do not
capture each other. -/
def selfName : Option Lambda → String
  | some f => "Self" ++ toString (100000000000000 + f.id)
  | none => "Self"

def closeType (self : String) : Value → Outcome Value
  | .type c => .ok (.type (.recursive self c))
  | v => fail (.builderResult v)

def buildType (apply : Apply) (builder : Value) : Outcome Value := do
  let self := selfName (match builder with
    | .closure f _ => some f
    | _ => none)
  closeType self (← apply builder [.type (.ref self)])

def run (apply : Apply) (b : Builtin) (args : List Value) : Outcome Value := do
  match b with
  | guard k => return .bool ((← arg args 0).kind.refines k)
  | length => lengthOf (← arg args 0)
  | keys => return .array ((← objectArg args 0).map fun (name, _) => .string name)
  | values => return .array ((← objectArg args 0).map Prod.snd)
  | entries =>
    return .array ((← objectArg args 0).map fun (name, v) => .array [.string name, v])
  | concat => return .array ((← arrayArg args 0) ++ (← arrayArg args 1))
  | append => return .array ((← arrayArg args 0) ++ [← arg args 1])
  | slice => return .array (slicePart (← arrayArg args 0) (← numberArg args 1) (← numberArg args 2))
  | includes =>
    let needle ← arg args 1
    return .bool ((← arrayArg args 0).any fun v => v == needle)
  | join => joinTexts (← arg args 1) args
  | range => rangeOf (← numberArg args 0) (← numberArg args 1)
  | toText => return .string (← arg args 0).text
  | abs => return .number (← numberArg args 0).abs
  | floor => return .number (← numberArg args 0).floor
  | min => return .number ((← numberArg args 0).min (← numberArg args 1))
  | max => return .number ((← numberArg args 0).max (← numberArg args 1))
  | map =>
    let callback ← arg args 1
    return .array (← mapItems apply callback (← arrayArg args 0))
  | filter =>
    let callback ← arg args 1
    return .array (← filterItems apply callback (← arrayArg args 0))
  | fold =>
    let callback ← arg args 2
    let items ← arrayArg args 0
    foldItems apply callback (← arg args 1) items
  | fields => return .array ((requiredFields (← typeArg args 0)).map .string)
  | fieldType =>
    match ← arg args 1 with
    | .string name => return .type ((← typeArg args 0).fieldOf name)
    | _ => fail .fieldName
  | objectType =>
    match ← arg args 0 with
    | .object parts => return .type (Constraint.record (← fieldTypes parts)).simplify
    | _ => fail .notFieldTypes
  | unionType => return .type (Constraint.disj [← typeArg args 0, ← typeArg args 1]).simplify
  | intersectionType =>
    return .type (Constraint.conj [← typeArg args 0, ← typeArg args 1]).simplify
  | recType => buildType apply (← arg args 0)
  | objectFromEntries => return .object (← collectEntries [] (← arrayArg args 0))
  | arrayType => return .type (.arrayOf (← typeArg args 0))
  | tupleType => return .type (.tuple (← itemTypes (← arrayArg args 0)))
  | literalType => return .type (.ofValue (← arg args 0))
  | typeImplies => return .bool ((← typeArg args 0).implies (← typeArg args 1))

end Builtin

end Stagewise
