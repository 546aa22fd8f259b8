import Stagewise.Proofs.Data
import Stagewise.Staging.Control

/-! Programs without runtime inputs in which functions are bound by name and only ever called, and
the values that are spread into objects and arrays while such a program runs. A scope agrees with
an environment when each name stands for the same known value or for the same function in both. -/

set_option autoImplicit false

namespace Stagewise

def Builtin.isRegistered (name : String) : Bool := (Builtin.ofName? name).isSome

inductive Role where
  | data
  | function
deriving DecidableEq

namespace Role

abbrev Names := List (String × Role)

def dataIf (b : Bool) : Option Role := if b then some .data else none

def bind? (names : Names) : Pattern → Option Role → Option Names
  | .wildcard, some _ => some names
  | .binding name, some role => if name = blankName then none else some ((name, role) :: names)
  | _, _ => none

def inBody (names : Names) (f : Lambda) : Names :=
  f.paramNames.foldl (fun names param => (param, data) :: names)
    ((argumentsName, data) :: f.name.toList.map (fun name => (name, function)) ++ names)

def isCallable (names : Names) (name : String) : Bool :=
  Association.contains name names || (Form.ofName? name).isNone

end Role

def Param.isPlain : Param → Bool
  | .mk name none => name ≠ blankName
  | .mk _ (some _) => false

open Role in
mutual

/-- What a program stands for, if it is first-order: data, or a function literal to be bound. -/
def Term.role? (names : Names) : Term → Option Role
  | .mk node _ => node.role? names
termination_by structural e => e

def Node.role? (names : Names) : Node → Option Role
  | .literal _ => some .data
  | .value v => dataIf (v.isData Builtin.isRegistered)
  | .var name => dataIf (Association.find? name names ≠ some .function)
  | .unary _ e => dataIf (e.role? names = some .data)
  | .binary _ a b => dataIf (a.role? names = some .data && b.role? names = some .data)
  | .ifElse test yes no =>
    dataIf (test.role? names = some .data && yes.role? names = some .data &&
      no.role? names = some .data)
  | .letIn p init body =>
    match bind? names p (init.role? names) with
    | some inner => dataIf (body.role? inner = some .data)
    | none => none
  | .lambda f => if f.isFirstOrder names then some .function else none
  | .call callee args =>
    match callee.asVar? with
    | some name => dataIf (isCallable names name && Term.areData names args)
    | none => dataIf (callee.role? names = some .data && Term.areData names args)
  | .object entries => dataIf (Entry.areData names entries)
  | .array items => dataIf (Item.areData names items)
  | .field e _ => dataIf (e.role? names = some .data)
  | .index e key => dataIf (e.role? names = some .data && key.role? names = some .data)
  | .template parts => dataIf (Part.areData names parts)
  | .block statements result =>
    match Statement.names? names statements with
    | some inner => dataIf (result.role? inner = some .data)
    | none => none
  | .await _ | .throw _ | .matchOn _ _ => none
termination_by structural n => n

def Lambda.isFirstOrder (names : Names) : Lambda → Bool
  | .mk id name params body =>
    params.all Param.isPlain && body.role? (inBody names (.mk id name params body)) = some .data
termination_by structural f => f

def Term.areData (names : Names) : List Term → Bool
  | [] => true
  | e :: es => e.role? names = some .data && Term.areData names es
termination_by structural es => es

def Entry.areData (names : Names) : List Entry → Bool
  | [] => true
  | .field _ e :: es | .spread e :: es => e.role? names = some .data && Entry.areData names es
termination_by structural es => es

def Item.areData (names : Names) : List Item → Bool
  | [] => true
  | .item e :: es | .spread e :: es => e.role? names = some .data && Item.areData names es
termination_by structural es => es

def Part.areData (names : Names) : List Part → Bool
  | [] => true
  | .text _ :: es => Part.areData names es
  | .interp e :: es => e.role? names = some .data && Part.areData names es
termination_by structural es => es

def Statement.names? (names : Names) : List Statement → Option Names
  | [] => some names
  | .bind p e :: ss =>
    match bind? names p (e.role? names) with
    | some inner => Statement.names? inner ss
    | none => none
  | .eval e :: ss =>
    if e.role? names = some .data && e.assertedCondition?.isNone then Statement.names? names ss
    else none
  | .load _ _ :: _ => none
termination_by structural ss => ss

end

def Term.isFirstOrder (e : Term) : Bool := e.role? [] = some .data

@[simp] lemma Role.dataIf_eq_some {b : Bool} {role : Role} :
    Role.dataIf b = some role ↔ b ∧ role = .data := by
  cases b <;> simp [Role.dataIf, eq_comm]

/-! ### Values that are spread -/

def BinaryOp.skips : BinaryOp → Outcome Value → Bool
  | .and, .ok (.bool false) | .or, .ok (.bool true) => true
  | _, _ => false

lemma BinaryOp.skips_of_not_isLogical {op : BinaryOp} (h : op.isLogical = false)
    (x : Outcome Value) : op.skips x = false := by
  cases op <;> first | rfl | simp [isLogical] at h

lemma Value.eq_bool_of_condition {v : Value} {c : Bool} (h : v.condition = .ok c) : v = .bool c := by
  cases v <;> simp_all [condition, fail]

lemma BinaryOp.skips_of_condition {op : BinaryOp} {x : Value} {c : Bool}
    (hc : x.condition = .ok c) (h : c = (op == .and)) : op.skips (.ok x) = false := by
  obtain rfl := Value.eq_bool_of_condition hc
  subst h
  cases op <;> rfl

mutual

/-- The values that are spread while a first-order program is evaluated. Those that are spread in
a call are given by `calls`. -/
def Term.spreads (s : Setting) (calls : Value → List Value → List Value) (env : Environment) :
    Term → List Value
  | .mk node _ => node.spreads s calls env
termination_by structural e => e

def Node.spreads (s : Setting) (calls : Value → List Value → List Value) (env : Environment) :
    Node → List Value
  | .literal _ | .value _ | .var _ | .lambda _ => []
  | .unary _ e | .field e _ => e.spreads s calls env
  | .binary op a b =>
    a.spreads s calls env ++ if op.skips (a.eval s env) then [] else b.spreads s calls env
  | .ifElse test yes no =>
    test.spreads s calls env ++
      match test.eval s env with
      | .ok (.bool true) => yes.spreads s calls env
      | .ok (.bool false) => no.spreads s calls env
      | _ => []
  | .letIn p init body =>
    init.spreads s calls env ++
      match init.eval s env >>= p.matchIn s env with
      | .ok (some bindings) => body.spreads s calls (env.bindAll bindings)
      | _ => []
  | .call callee args =>
    callee.spreads s calls env ++ Term.spreadsList s calls env args ++
      match callee.eval s env, Term.evalList s env args with
      | .ok f, .ok vs => calls f vs
      | _, _ => []
  | .object entries => Entry.spreads s calls env entries
  | .array items => Item.spreads s calls env items
  | .index e key => e.spreads s calls env ++ key.spreads s calls env
  | .template parts => Part.spreads s calls env parts
  | .block statements result =>
    Statement.spreads s calls env statements fun env => result.spreads s calls env
  -- not first-order
  | .await _ | .throw _ | .matchOn _ _ => []
termination_by structural n => n

def Term.spreadsList (s : Setting) (calls : Value → List Value → List Value) (env : Environment) :
    List Term → List Value
  | [] => []
  | e :: es => e.spreads s calls env ++ Term.spreadsList s calls env es
termination_by structural es => es

def Entry.spreads (s : Setting) (calls : Value → List Value → List Value) (env : Environment) :
    List Entry → List Value
  | [] => []
  | .field _ e :: es => e.spreads s calls env ++ Entry.spreads s calls env es
  | .spread e :: es =>
    e.spreads s calls env ++ (e.eval s env).toOption.toList ++ Entry.spreads s calls env es
termination_by structural es => es

def Item.spreads (s : Setting) (calls : Value → List Value → List Value) (env : Environment) :
    List Item → List Value
  | [] => []
  | .item e :: es => e.spreads s calls env ++ Item.spreads s calls env es
  | .spread e :: es =>
    e.spreads s calls env ++ (e.eval s env).toOption.toList ++ Item.spreads s calls env es
termination_by structural es => es

def Part.spreads (s : Setting) (calls : Value → List Value → List Value) (env : Environment) :
    List Part → List Value
  | [] => []
  | .text _ :: es => Part.spreads s calls env es
  | .interp e :: es => e.spreads s calls env ++ Part.spreads s calls env es
termination_by structural es => es

def Statement.spreads (s : Setting) (calls : Value → List Value → List Value) (env : Environment) :
    List Statement → (Environment → List Value) → List Value
  | [], result => result env
  | .bind p e :: ss, result =>
    e.spreads s calls env ++
      match e.eval s env >>= p.matchIn s env with
      | .ok (some bindings) => Statement.spreads s calls (env.bindAll bindings) ss result
      | _ => []
  | .eval e :: ss, result => e.spreads s calls env ++ Statement.spreads s calls env ss result
  | .load _ _ :: _, _ => []
termination_by structural ss => ss

end

def Value.spreads (imports : Imports) (limit : Nat) : Nat → Value → List Value → List Value
  | depth + 1, .closure f env, args =>
    f.body.spreads ⟨applyWith (Lambda.call imports limit depth) maxNesting, imports⟩
      (Value.spreads imports limit depth) (f.bodyEnvironment env args)
  | _, _, _ => []

def Term.spreadIn (imports : Imports) (options : Options) (e : Term) : List Value :=
  e.spreads (.ofLimit imports options.maxCallDepth)
    (Value.spreads imports options.maxCallDepth options.maxCallDepth) []

/-! ### Agreement of scopes and environments -/

/-- Each name stands for the same value, or for a first-order function whose scopes agree again. -/
inductive Scope.Agrees : Role.Names → Scope → Environment → Prop
  | empty {residual} : Agrees [] (.mk [] [] residual) []
  | data {names env staged residual inner name v binding} :
      Agrees names (.mk staged [] residual) env → v.isData Builtin.isRegistered →
      Agrees ((name, .data) :: names)
        (.mk ((name, .now v (.ofValue v) binding) :: staged) [] inner) ((name, v) :: env)
  | function {names env staged residual inner name names' scope' env' id f binding} :
      Agrees names (.mk staged [] residual) env → Agrees names' scope' env' →
      f.isFirstOrder names' →
      Agrees ((name, .function) :: names)
        (.mk ((name, .closure (.mk id f scope' binding)) :: staged) [] inner)
        ((name, .closure f env') :: env)

def Staged.Knows (v : Value) (s : Staged) : Prop :=
  v.isData Builtin.isRegistered ∧ ∃ binding, s = .now v (.ofValue v) binding

def Staged.Matches : Role → Staged → Value → Prop
  | .data, s, v => s.Knows v
  | .function, s, v => ∃ names id f scope env binding, scope.Agrees names env ∧
      f.isFirstOrder names ∧ s = .closure (.mk id f scope binding) ∧ v = .closure f env

namespace Scope.Agrees

variable {names : Role.Names} {scope : Scope} {env : Environment} {role : Role} {s : Staged}
  {v : Value}

lemma withResidual (h : scope.Agrees names env) (residual : List (String × Nat)) :
    (Scope.mk scope.env scope.refinements residual).Agrees names env := by
  cases h with
  | empty => exact .empty
  | data hs hv => exact .data hs hv
  | function hs hf hl => exact .function hs hf hl

lemma refinements_eq_nil (h : scope.Agrees names env) : scope.refinements = [] := by
  cases h <;> rfl

lemma bind (h : scope.Agrees names env) (hs : s.Matches role v) (name : String) :
    (scope.bind name s).Agrees ((name, role) :: names) ((name, v) :: env) := by
  obtain ⟨staged, refinements, residual⟩ := scope
  obtain rfl : refinements = [] := h.refinements_eq_nil
  cases role with
  | data =>
    obtain ⟨hv, binding, rfl⟩ := hs
    exact .data h hv
  | function =>
    obtain ⟨names', id, f, scope', env', binding, hf, hl, rfl, rfl⟩ := hs
    exact .function h hf hl

lemma bindResidual (h : scope.Agrees names env) (binding : Binding) :
    (scope.bindResidual binding).Agrees names env :=
  h.withResidual _

lemma find? (h : scope.Agrees names env) (name : String) :
    (∃ role s v, Association.find? name names = some role ∧
        Association.find? name scope.env = some s ∧ Association.find? name env = some v ∧
        s.Matches role v) ∨
      Association.find? name names = none ∧ Association.find? name scope.env = none ∧
        Association.find? name env = none := by
  induction h with
  | empty => exact Or.inr ⟨rfl, rfl, rfl⟩
  | @data names env staged residual inner key v binding hs hv ih =>
    by_cases hk : key = name
    · exact Or.inl ⟨.data, .now v (.ofValue v) binding, v, by simp [Association.find?, hk],
        by simp [Scope.env, Association.find?, hk], by simp [Association.find?, hk],
        hv, binding, rfl⟩
    · simpa [Scope.env, Association.find?, hk] using ih
  | @function names env staged residual inner key names' scope' env' id f binding hs hf hl ih _ =>
    by_cases hk : key = name
    · exact Or.inl ⟨.function, .closure (.mk id f scope' binding), .closure f env',
        by simp [Association.find?, hk], by simp [Scope.env, Association.find?, hk],
        by simp [Association.find?, hk], names', id, f, scope', env', binding, hf, hl, rfl, rfl⟩
    · simpa [Scope.env, Association.find?, hk] using ih

lemma get? (h : scope.Agrees names env) (name : String) :
    scope.get? name = Association.find? name scope.env := by
  unfold Scope.get?
  rw [h.refinements_eq_nil]
  cases Association.find? name scope.env <;> rfl

lemma contains_eq (h : scope.Agrees names env) (name : String) :
    scope.contains name = Association.contains name names ∧
      Association.contains name env = Association.contains name names := by
  unfold Scope.contains Association.contains
  rcases h.find? name with ⟨_, _, _, hn, hs, he, _⟩ | ⟨hn, hs, he⟩ <;> simp [hn, hs, he]

end Scope.Agrees

end Stagewise
