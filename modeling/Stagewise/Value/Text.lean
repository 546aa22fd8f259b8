import Stagewise.Number.Decimal
import Stagewise.Text.Quoted
import Stagewise.Value.Basic

/-!
# Text of values and constraints

Values and constraints are printed as they would be written in a program. Recursive constraints
name their variable after the number of enclosing recursive constraints.
-/

set_option autoImplicit false

namespace Stagewise

def Comparison.symbol : Comparison → String
  | .gt => ">"
  | .ge => ">="
  | .lt => "<"
  | .le => "<="

def Constraint.grouped (c : Constraint) (text : String) : String :=
  match c with
  | .conj _ | .disj _ | .fix _ => "(" ++ text ++ ")"
  | _ => text

mutual

def Value.repr : Value → String
  | .number n => n.text
  | .string s => Text.quote s
  | .bool b => if b then "true" else "false"
  | .null => "null"
  | .object [] => "\x7b\x7d"
  | .object fields => "\x7b " ++ Text.join ", " (Value.reprFields fields) ++ " \x7d"
  | .array items => "[" ++ Text.join ", " (Value.reprItems items) ++ "]"
  | .closure (.mk _ name _ _) _ =>
    match name with
    | some name => "<fn " ++ name ++ ">"
    | none => "<fn>"
  | .builtin name => "<builtin " ++ name ++ ">"
  | .type c => c.textAt 0
termination_by structural v => v

def Value.reprFields : List (String × Value) → List String
  | [] => []
  | (name, v) :: fields => (name ++ ": " ++ v.repr) :: Value.reprFields fields
termination_by structural fields => fields

def Value.reprItems : List Value → List String
  | [] => []
  | v :: items => v.repr :: Value.reprItems items
termination_by structural items => items

def Constraint.textAt (depth : Nat) : Constraint → String
  | .kind k => k.name
  | .equals v => v.repr
  | .bound r n => r.symbol ++ " " ++ n.text
  | .field name c => "\x7b " ++ name ++ ": " ++ c.textAt depth ++ " \x7d"
  | .elements c => "Array<" ++ c.textAt depth ++ ">"
  | .length c => "length(" ++ c.textAt depth ++ ")"
  | .elementAt i c => "[" ++ toString i ++ "]: " ++ c.grouped (c.textAt depth)
  | .conj cs => Text.join " & " (Constraint.textList depth cs)
  | .disj cs => Text.join " | " (Constraint.textList depth cs)
  | .neg c => "!" ++ c.grouped (c.textAt depth)
  | .fix body => "rec T" ++ toString depth ++ ". " ++ body.textAt (depth + 1)
  | .bvar i => if i < depth then "T" ++ toString (depth - 1 - i) else "^" ++ toString i
  | .ref name => name
  | .var id => "?" ++ toString id
  | .any => "any"
  | .never => "never"
termination_by structural c => c

def Constraint.textList (depth : Nat) : List Constraint → List String
  | [] => []
  | c :: cs => c.grouped (c.textAt depth) :: Constraint.textList depth cs
termination_by structural cs => cs

end

def Constraint.text (c : Constraint) : String := c.textAt 0

def Constraint.describe (cs : List Constraint) : String := Text.join ", " (cs.map Constraint.text)

namespace Value

def text : Value → String
  | .string s => s
  | v => v.repr

def inspect : Value → String
  | .closure f env =>
    let name := match f.name with
      | some name => "Some(" ++ Text.inspect name ++ ")"
      | none => "None"
    "Closure \x7b name: " ++ name ++ ", params: " ++ Text.inspectList f.paramNames ++
      ", env: " ++ Text.inspectList (Association.names env) ++ " \x7d"
  | .type c => "Type(" ++ c.text ++ ")"
  | v => v.repr

end Value

end Stagewise
