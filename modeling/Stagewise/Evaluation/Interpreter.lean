import Stagewise.Builtin.Evaluation
import Stagewise.Builtin.Registry
import Stagewise.Evaluation.Matching
import Stagewise.Form
import Stagewise.Imports
import Stagewise.Options
import Stagewise.Term.Names

/-!
# Direct evaluation

Evaluates a program to a value. Evaluation is by recursion on the program; a call leaves the
program for the body of the function, so calls are given as a parameter and counted apart.
-/

set_option autoImplicit false

namespace Stagewise

abbrev Environment := List (String × Value)

namespace Environment

def bindAll (env : Environment) (bindings : Bindings) : Environment :=
  bindings.foldl (fun env binding => binding :: env) env

def get (env : Environment) (name : String) : Outcome Value :=
  match Association.find? name env with
  | some v => .ok v
  | none =>
    match Registry.find? name with
    | some v => .ok v
    | none => fail (.unbound name)

def load (imports : Imports) (module : String) : Environment → List String → Outcome Environment
  | env, [] => .ok env
  | env, name :: names =>
    match imports.resolve? module name with
    | some (.value v) => load imports module ((name, v) :: env) names
    | some (.declared c) => fail (.onlyDeclared name module c)
    | none => fail (.noExport module name)

/-- The form that a name stands for unless the program binds the name. -/
def form? (env : Environment) (callee : Term) : Option Form :=
  match callee.asVar? with
  | some name => if Association.contains name env then none else Form.ofName? name
  | none => none

end Environment

structure Setting where
  apply : Apply
  imports : Imports

namespace Value

def asType : Value → Outcome Constraint
  | .type c => .ok c
  | v => fail (.notAType (.value v))

def spreadFields : Value → Outcome (List (String × Value))
  | .object fields => .ok fields
  | v => fail (.cannotSpreadIntoObject (.value v))

def spreadItems : Value → Outcome (List Value)
  | .array items => .ok items
  | v => fail (.cannotSpreadIntoArray (.value v))

/-- A call of a method or of a field: the method of a builtin, unless the receiver has a field of
that name. -/
def callee (receiver : Value) (name : String) : Outcome (Value ⊕ Builtin) :=
  let own := match receiver with
    | .object fields => Association.contains name fields
    | _ => false
  match Builtin.ofMethod? name with
  | some method => if own then .inl <$> receiver.readField name else .ok (.inr method)
  | none => .inl <$> receiver.readField name

end Value

mutual

def Term.eval (s : Setting) (env : Environment) : Term → Outcome Value
  | .mk node span => (node.eval s env).mapError (Error.withSpan span)
termination_by structural e => e

def Node.eval (s : Setting) (env : Environment) : Node → Outcome Value
  | .literal l => .ok l.toValue
  | .value v => .ok v
  | .var name => env.get name
  | .unary op e => do op.apply (← e.eval s env)
  | .binary .and a b => do
    if ← (← a.eval s env).condition then return .bool (← (← b.eval s env).condition)
    else return .bool false
  | .binary .or a b => do
    if ← (← a.eval s env).condition then return .bool true
    else return .bool (← (← b.eval s env).condition)
  | .binary op a b => do
    let x ← a.eval s env
    op.apply x (← b.eval s env)
  | .ifElse test yes no => do
    if ← (← test.eval s env).condition then yes.eval s env else no.eval s env
  | .letIn p init body => do
    let v ← init.eval s env
    match ← p.matchIn s env v with
    | some bindings => body.eval s (env.bindAll bindings)
    | none => fail (.notMatching v p)
  | .lambda f => .ok (.closure f env)
  | .call callee args =>
    match env.form? callee with
    | some form =>
      match form, args with
      | .comptime, [e] | .runtime, [e] | .runtime, [e, _] => e.eval s env
      | .typeOf, [e] => do return .type (.ofValue (← e.eval s env))
      | .trust, [e, ty] => do
        let _ ← (← ty.eval s env).asType
        e.eval s env
      | .assert, [e] => do
        match ← e.eval s env with
        | .bool true => return .bool true
        | .bool false => .error (.located e.span (.assertedFalse e))
        | v => fail (.assertNotBoolean (.value v))
      | .assert, [e, ty] => do
        let v ← e.eval s env
        let c ← (← ty.eval s env).asType
        if c.admits v then return v else .error (.located e.span (.notSatisfied v c))
      | _, _ => fail (.wrongArgumentCount form.name)
    | none =>
      match callee with
      | .mk (.field e name) _ => do
        let receiver ← e.eval s env
        match ← receiver.callee name with
        | .inl callee => s.apply callee (← Term.evalList s env args)
        | .inr method =>
          s.apply (.builtin method.name) (method.ofMethodArgs receiver (← Term.evalList s env args))
      | callee => do
        let f ← callee.eval s env
        s.apply f (← Term.evalList s env args)
  | .object entries => do return .object (← Entry.evalList s env [] entries)
  | .array items => do return .array (← Item.evalList s env items)
  | .field e name => do (← e.eval s env).readField name
  | .index e key => do
    let v ← e.eval s env
    v.readIndex (← key.eval s env)
  | .template parts => do return .string (← Part.evalList s env parts)
  | .block statements result => Statement.evalList s env statements fun env => result.eval s env
  | .await e => e.eval s env
  | .throw e => do throw (.thrown (← e.eval s env))
  | .matchOn e cases => do
    let v ← e.eval s env
    Case.evalList s env v cases
termination_by structural n => n

def Term.evalList (s : Setting) (env : Environment) : List Term → Outcome (List Value)
  | [] => .ok []
  | e :: es => do
    let v ← e.eval s env
    return v :: (← Term.evalList s env es)
termination_by structural es => es

def Entry.evalList (s : Setting) (env : Environment) (fields : List (String × Value)) :
    List Entry → Outcome (List (String × Value))
  | [] => .ok fields
  | .field name e :: es => do
    Entry.evalList s env (Association.put name (← e.eval s env) fields) es
  | .spread e :: es => do
    Entry.evalList s env (Association.putAll fields (← (← e.eval s env).spreadFields)) es
termination_by structural es => es

def Item.evalList (s : Setting) (env : Environment) : List Item → Outcome (List Value)
  | [] => .ok []
  | .item e :: es => do
    let v ← e.eval s env
    return v :: (← Item.evalList s env es)
  | .spread e :: es => do
    let items ← (← e.eval s env).spreadItems
    return items ++ (← Item.evalList s env es)
termination_by structural es => es

def Part.evalList (s : Setting) (env : Environment) : List Part → Outcome String
  | [] => .ok ""
  | .text text :: es => do return text ++ (← Part.evalList s env es)
  | .interp e :: es => do
    let v ← e.eval s env
    return v.text ++ (← Part.evalList s env es)
termination_by structural es => es

def Statement.evalList (s : Setting) (env : Environment) :
    List Statement → (Environment → Outcome Value) → Outcome Value
  | [], result => result env
  | .bind p e :: ss, result => do
    let v ← e.eval s env
    match ← p.matchIn s env v with
    | some bindings => Statement.evalList s (env.bindAll bindings) ss result
    | none => fail (.notMatching v p)
  | .eval e :: ss, result => do
    let _ ← e.eval s env
    Statement.evalList s env ss result
  | .load names module :: ss, result => do
    Statement.evalList s (← env.load s.imports module names) ss result
termination_by structural ss => ss

def Case.evalList (s : Setting) (env : Environment) (v : Value) : List Case → Outcome Value
  | [] => fail (.noCaseAccepts v)
  | .mk p none body :: cs => do
    match ← p.matchIn s env v with
    | some bindings => body.eval s (env.bindAll bindings)
    | none => Case.evalList s env v cs
  | .mk p (some guard) body :: cs => do
    match ← p.matchIn s env v with
    | some bindings =>
      if ← (← guard.eval s (env.bindAll bindings)).condition then
        body.eval s (env.bindAll bindings)
      else Case.evalList s env v cs
    | none => Case.evalList s env v cs
termination_by structural cs => cs

def Pattern.matchIn (s : Setting) (env : Environment) :
    Pattern → Value → Outcome (Option Bindings)
  | .wildcard, _ => .ok (some [])
  | .binding name, v => .ok (some [(name, v)])
  | .literal l, v => .ok (if v == l.toValue then some [] else none)
  | .object fields, .object entries => Pattern.matchFieldsIn s env fields entries
  | .object _, _ => .ok none
  | .array ps rest, .array items =>
    if Pattern.fits ps.length rest items.length then do
      match ← Pattern.matchItemsIn s env ps items with
      | some bindings => return some (bindings ++ Pattern.restBindings ps.length rest items)
      | none => return none
    else .ok none
  | .array _ _, _ => .ok none
  | .type ty inner, v => do
    let c ← (← ty.eval s env).asType
    if c.admits v then inner.matchIn s env v else return none
termination_by structural p => p

def Pattern.matchFieldsIn (s : Setting) (env : Environment) :
    List (String × Pattern) → List (String × Value) → Outcome (Option Bindings)
  | [], _ => .ok (some [])
  | (name, p) :: fields, entries =>
    match Association.find? name entries with
    | none => .ok none
    | some v => do
      match ← p.matchIn s env v with
      | none => return none
      | some bindings =>
        match ← Pattern.matchFieldsIn s env fields entries with
        | none => return none
        | some more => return some (bindings ++ more)
termination_by structural fields => fields

def Pattern.matchItemsIn (s : Setting) (env : Environment) :
    List Pattern → List Value → Outcome (Option Bindings)
  | [], _ => .ok (some [])
  | _, [] => .ok (some [])
  | p :: ps, v :: items => do
    match ← p.matchIn s env v with
    | none => return none
    | some bindings =>
      match ← Pattern.matchItemsIn s env ps items with
      | none => return none
      | some more => return some (bindings ++ more)
termination_by structural ps => ps

end

def Param.check (s : Setting) (env : Environment) : List Param → List Value → Outcome Unit
  | .mk name (some ty) :: ps, v :: args => do
    let c ← (← ty.eval s env).asType
    if c.admits v then Param.check s env ps args else fail (.parameter name c (.value v))
  | .mk _ none :: ps, _ :: args => Param.check s env ps args
  | _, _ => .ok ()

def Lambda.invoke (s : Setting) (f : Lambda) (env : Environment) (args : List Value) :
    Outcome Value := do
  if args.length = f.arity then
    Param.check s env f.params args
    let own : Environment := f.name.toList.map fun name => (name, .closure f env)
    f.body.eval s
      (Environment.bindAll ((argumentsName, .array args) :: own ++ env) (f.paramNames.zip args))
  else fail (.arity (.value (.closure f env)) f.arity args.length)

/-- How often a builtin function can be called by a builtin function directly: `fold` may call
`map`, that may call `recType`, and that only a function on types. -/
def maxNesting : Nat := 4

def Value.applyWith (call : Lambda → Environment → List Value → Outcome Value) : Nat → Apply
  | _, .closure f env, args => call f env args
  | nesting + 1, .builtin name, args =>
    match Builtin.ofName? name with
    | none => fail (.unknownBuiltin name)
    | some b => do
      b.checkArgs (args.map Constraint.ofValue)
      b.run (Value.applyWith call nesting) args
  | 0, .builtin name, _ => fail (.unknownBuiltin name)
  | _, v, _ => fail (.notAFunction (.value v))

def Lambda.call (imports : Imports) (limit : Nat) :
    Nat → Lambda → Environment → List Value → Outcome Value
  | 0, f, _, _ => .error (.located f.body.span (.depthExceeded limit))
  | depth + 1, f, env, args =>
    f.invoke ⟨Value.applyWith (Lambda.call imports limit depth) maxNesting, imports⟩ env args

def Setting.ofLimit (imports : Imports) (limit : Nat) : Setting :=
  ⟨Value.applyWith (Lambda.call imports limit limit) maxNesting, imports⟩

def Term.run (imports : Imports) (options : Options) (e : Term) : Outcome Value :=
  e.eval (.ofLimit imports options.maxCallDepth) []

end Stagewise
