import Stagewise.Staging.Collection
import Stagewise.Staging.Control
import Stagewise.Staging.Part

/-!
# Staging of terms

Splits a program into what is known at compile time and a residual program. Staging is by
recursion on the program, in parallel to its evaluation.
-/

set_option autoImplicit false

namespace Stagewise

/-- The name that the subject of a match has in scope; no program can name it. -/
def subjectName : String := "#match"

def partsName (id : Nat) : String := "#" ++ toString id

def Pattern.lengthOf (count : Nat) (rest : Option String) : Constraint :=
  if rest.isSome then .conj [.kind .number, .bound .ge (Number.ofNat count)]
  else .equals (Value.ofNat count)

def Pattern.bindName (inline : Bool) (name : String) (v : Staged) (scope : Scope) :
    Stage (Scope × List Pending) := do
  if inline then return (scope.bind name v, [])
  else
    let pending ← Pending.prepare scope name name v
    return (pending.inner, [pending])

def Pattern.skip (inline : Bool) (v : Staged) (scope : Scope) : Scope × List Pending :=
  if inline then (scope, []) else (scope, [Pending.discard scope v])

def Pattern.subject (inline : Bool) (v : Staged) (scope : Scope) :
    Stage (Staged × Scope × List Pending) := do
  if inline then return (v, scope, [])
  else
    let pending ← Pending.prepare scope (partsName (← Stage.freshId)) "tmp" v
    return (pending.bound, pending.inner, [pending])

def Pattern.ensurePossible (p : Pattern) (c expected : Constraint) : Stage Unit :=
  .ensure (c.isNever || !c.disjoint expected) (.neverMatchesPattern c p)

def Scope.narrow (scope : Scope) (subject : Option String) (c : Constraint) : Scope :=
  let scope := scope.refine [(subjectName, c)]
  match subject with
  | some name => scope.refine [(name, c)]
  | none => scope

inductive Selection where
  | certain (v : Staged)
  | options (cases : List (Case × Constraint))

def Selection.result (ctx : Context) (scope : Scope) (subject : Staged) : Selection → Stage Staged
  | .certain v => pure v
  | .options [] => .fail (.notExhaustive subject.constraint)
  | .options cases => do
    let e ← subject.residualize ctx scope
    return .later (Constraint.disj (cases.map Prod.snd)).simplify
      (.matchOn e (cases.map Prod.fst))

mutual

def Term.stage (ctx : Context) (scope : Scope) : Term → Stage Staged
  | .mk node span => (node.stage ctx scope span).mapError (Error.withSpan span)
termination_by structural e => e

def Node.stage (ctx : Context) (scope : Scope) (span : Option Span) : Node → Stage Staged
  | .literal l => pure (.ofValue l.toValue)
  | .value v => pure (.ofValue v)
  | .var name =>
    match scope.get? name with
    | some v => pure v
    | none =>
      match Registry.find? name with
      | some v => pure (.ofValue v)
      | none => .fail (.unbound name)
  | .unary op e => do
    let v ← e.stage ctx scope
    match v.value? with
    | some w => return .ofValue (← Stage.lift (op.apply w))
    | none =>
      let c ← Stage.lift (op.resultOf v.constraint)
      return .later c (.unary op (← v.residualize ctx scope))
  | .binary op a b => do
    let v ← a.stage ctx scope
    if op.isLogical then
      match v.value? with
      | some w =>
        if (← Stage.lift w.condition) == (op == .and) then
          let r ← b.stage ctx scope
          match r.value? with
          | some w => return .ofValue (.bool (← Stage.lift w.condition))
          | none =>
            Stage.lift (r.constraint.require (.kind .bool) op.quoted)
            return r
        else return .ofValue (.bool (op != .and))
      | none =>
        let c := v.constraint
        Stage.lift (c.require (.kind .bool) op.quoted)
        let branches := scope.branches a
        let inner := scope.refine (if op == .and then branches.yes else branches.no)
        let r ← Stage.inBranch true (b.stage ctx inner)
        let d := r.constraint
        match r.value? with
        | some w =>
          let _ ← Stage.lift w.condition
        | none => Stage.lift (d.require (.kind .bool) op.quoted)
        let left ← v.residualize ctx scope
        return .later (op.logicalResult c d) (.binary op left (← r.residualize ctx inner))
    else
      let r ← b.stage ctx scope
      match v.value?, r.value? with
      | some x, some y => return .ofValue (← Stage.lift (op.apply x y))
      | _, _ =>
        let c ← Stage.lift (op.resultOf v.constraint r.constraint)
        let left ← v.residualize ctx scope
        return .later c (.binary op left (← r.residualize ctx scope))
  | .ifElse test yes no => do
    let v ← test.stage ctx scope
    match v.value? with
    | some w =>
      if ← Stage.lift w.condition then yes.stage ctx scope else no.stage ctx scope
    | none =>
      let c := v.constraint
      Stage.lift (c.require (.kind .bool) "`if` condition")
      let condition ← v.residualize ctx scope
      let branches := scope.branches test
      let decided := c.literal?.bind Value.asBool?
      let yesScope ←
        if decided = some false then pure none
        else scope.branch? ctx.options branches.yes test
      let noScope ←
        if decided = some true then pure none
        else scope.branch? ctx.options branches.no test
      match yesScope, noScope with
      | some yesScope, some noScope =>
        let a ← Stage.inBranch true (yes.stage ctx yesScope)
        let b ← Stage.inBranch true (no.stage ctx noScope)
        let left ← a.residualize ctx yesScope
        return .later (Constraint.disj [a.constraint, b.constraint]).simplify
          (.ifElse condition left (← b.residualize ctx noScope))
      | some yesScope, none => do
        (← yes.stage ctx yesScope).keepEffect ctx yesScope condition
      | none, some noScope => do
        (← no.stage ctx noScope).keepEffect ctx noScope condition
      | none, none =>
        (Staged.later .never (.throw (.string "unreachable"))).keepEffect ctx scope condition
  | .letIn p init body => do
    let v ← init.stage ctx scope
    let (inner, pending) ← p.destructure ctx false v scope
    Pending.finishAll ctx pending (← body.stage ctx inner)
  | .lambda f => do return .closure (.mk (← Stage.freshId) f scope none)
  | .call callee args =>
    match scope.form? callee with
    | some form =>
      match form, args with
      | .comptime, [e] => do
        let v ← e.stage ctx scope
        if v.isKnown then return v else .failAt e.span (.notKnown e)
      | .runtime, [e] => do (← e.stage ctx scope).asInput defaultInput e
      | .runtime, [e, input] => do
        let name ← (← input.stage ctx scope).asInputName input
        (← e.stage ctx scope).asInput name e
      | .typeOf, [e] => do
        return .ofValue (.type (← e.stage ctx scope).constraint.simplify)
      | .assert, [e] => do (← e.stage ctx scope).assertTrue ctx scope e
      | .assert, [e, ty] => do
        let v ← e.stage ctx scope
        let c ← (← ty.stage ctx scope).asType ty
        v.assertType ctx scope (e.span.or span) c
      | .trust, [e, ty] => do
        let v ← e.stage ctx scope
        let c ← (← ty.stage ctx scope).asType ty
        v.trust ctx scope span c
      | _, _ => .fail (.wrongArgumentCount form.name)
    | none =>
      match callee with
      | .mk (.field e name) _ => do
        let receiver ← e.stage ctx scope
        match receiver.method? name with
        | some method =>
          let rest ← Term.stageList ctx scope args
          ctx.callBuiltin span scope method (method.ofMethodArgs receiver rest)
        | none =>
          let f ← Stage.lift (receiver.readField name)
          ctx.apply span scope f (← Term.stageList ctx scope args)
      | callee => do
        let f ← callee.stage ctx scope
        ctx.apply span scope f (← Term.stageList ctx scope args)
  | .object entries => do StagedEntry.assemble ctx scope (← Entry.stageList ctx scope entries)
  | .array items => do StagedItem.assemble ctx scope (← Item.stageList ctx scope items)
  | .field e name => do Stage.lift ((← e.stage ctx scope).readField name)
  | .index e key => do
    let v ← e.stage ctx scope
    v.readIndex ctx scope (← key.stage ctx scope)
  | .template parts => do Part.assemble ctx scope (← Part.stageList ctx scope parts)
  | .block statements result =>
    Statement.stageList ctx scope statements fun scope => result.stage ctx scope
  | .await e => do
    return .later .any (.await (← (← e.stage ctx scope).residualize ctx scope))
  | .throw e => do
    return .later .never (.throw (← (← e.stage ctx scope).residualize ctx scope))
  | .matchOn e cases => do
    let v ← e.stage ctx scope
    let pending ← Pending.prepare scope subjectName "subject" v
    let name := e.asVar?.filter scope.contains
    let selection ← Case.stageList ctx pending.inner pending.bound name
      pending.bound.constraint.simplify [] cases
    pending.finish ctx (← selection.result ctx pending.inner pending.bound)
termination_by structural n => n

def Term.stageList (ctx : Context) (scope : Scope) : List Term → Stage (List Staged)
  | [] => pure []
  | e :: es => do
    let v ← e.stage ctx scope
    return v :: (← Term.stageList ctx scope es)
termination_by structural es => es

def Entry.stageList (ctx : Context) (scope : Scope) : List Entry → Stage (List StagedEntry)
  | [] => pure []
  | .field name e :: es => do
    let v ← e.stage ctx scope
    return .field name v :: (← Entry.stageList ctx scope es)
  | .spread e :: es => do
    let part ← Stage.lift (StagedEntry.ofSpread (← e.stage ctx scope))
    return part :: (← Entry.stageList ctx scope es)
termination_by structural es => es

def Item.stageList (ctx : Context) (scope : Scope) : List Item → Stage (List StagedItem)
  | [] => pure []
  | .item e :: es => do
    let v ← e.stage ctx scope
    return .item v :: (← Item.stageList ctx scope es)
  | .spread e :: es => do
    let part ← Stage.lift (StagedItem.ofSpread (← e.stage ctx scope))
    return part :: (← Item.stageList ctx scope es)
termination_by structural es => es

def Part.stageList (ctx : Context) (scope : Scope) : List Part → Stage (List Staged)
  | [] => pure []
  | .text text :: es => do return .ofValue (.string text) :: (← Part.stageList ctx scope es)
  | .interp e :: es => do
    let v ← e.stage ctx scope
    return v :: (← Part.stageList ctx scope es)
termination_by structural es => es

def Statement.stageList (ctx : Context) (scope : Scope) :
    List Statement → (Scope → Stage Staged) → Stage Staged
  | [], result => result scope
  | .bind p e :: ss, result => do
    let v ← e.stage ctx scope
    let (inner, pending) ← p.destructure ctx false v scope
    Pending.finishAll ctx pending (← Statement.stageList ctx inner ss result)
  | .eval e :: ss, result => do
    let v ← e.stage ctx scope
    let next := match e.assertedCondition? with
      | some condition => scope.refine (scope.branches condition).yes
      | none => scope
    (Pending.discard scope v).finish ctx (← Statement.stageList ctx next ss result)
  | .load names module :: ss, result => do
    let (inner, declared) ← scope.load ctx.imports module names
    let v ← Statement.stageList ctx inner ss result
    v.withImports ctx inner module declared
termination_by structural ss => ss

def Case.stageList (ctx : Context) (scope : Scope) (subject : Staged) (name : Option String)
    (remaining : Constraint) (staged : List (Case × Constraint)) : List Case → Stage Selection
  | [] => pure (.options staged)
  | .mk p guard body :: cs => do
    if remaining.isNever then return .options staged
    else
      let (tested, residual) ← p.lower ctx scope
      if remaining.disjoint tested then
        Case.stageList ctx scope subject name remaining staged cs
      else
        let always := remaining.implies tested
        let narrowed := (Constraint.conj [remaining, tested]).simplify
        let (inner, _) ←
          p.destructure ctx true (subject.refine narrowed) (scope.narrow name narrowed)
        let runtime := !always || !staged.isEmpty
        let accepted ← match guard with
          | none => pure (some (none, inner))
          | some guard => do
            let test ← Stage.inBranch runtime (guard.stage ctx inner)
            match test.value? with
            | some w => if ← Stage.lift w.condition then pure (some (none, inner)) else pure none
            | none =>
              Stage.lift (test.constraint.require (.kind .bool) "match guard")
              let condition ← test.residualize ctx inner
              pure (some (some condition, inner.refine (inner.branches guard).yes))
        match accepted with
        | none => Case.stageList ctx scope subject name remaining staged cs
        | some (condition, inner) =>
          let v ← Stage.inBranch (runtime || condition.isSome) (body.stage ctx inner)
          let settled := always && condition.isNone
          if settled && staged.isEmpty then return .certain v
          else
            let e ← v.residualize ctx inner
            let staged := staged ++ [(.mk residual condition e, v.constraint)]
            if settled then return .options staged
            else
              let remaining := if condition.isSome then remaining else remaining.exclude tested
              Case.stageList ctx scope subject name remaining staged cs
termination_by structural cs => cs

/-- Bind the names of a pattern to the parts of a value. Inline names stand for the parts
themselves; other names and the values on the way get bindings of the residual program. -/
def Pattern.destructure (ctx : Context) (inline : Bool) :
    Pattern → Staged → Scope → Stage (Scope × List Pending)
  | .binding name, v, scope => Pattern.bindName inline name v scope
  | .wildcard, v, scope => pure (Pattern.skip inline v scope)
  | .literal l, v, scope => do
    (Pattern.literal l).ensurePossible v.constraint (.equals l.toValue)
    return Pattern.skip inline v scope
  | .type ty inner, v, scope => do
    let declared ← (← ty.stage ctx scope).asInhabitedType ty
    let c := v.constraint
    Stage.ensure (c.isNever || !c.disjoint declared) (.neverMatchesType c declared)
    inner.destructure ctx inline (v.refine declared) scope
  | .object fields, v, scope => do
    let (subject, scope, pending) ← Pattern.subject inline v scope
    let (scope, more) ← Pattern.destructureFields ctx inline subject fields scope
    return (scope, pending ++ more)
  | .array ps rest, v, scope => do
    let (subject, scope, pending) ← Pattern.subject inline v scope
    (Pattern.array ps rest).ensurePossible subject.constraint
      (.conj [.kind .array, .length (Pattern.lengthOf ps.length rest)])
    let (scope, more) ← Pattern.destructureItems ctx inline subject 0 ps scope
    match rest with
    | none => return (scope, pending ++ more)
    | some name =>
      let part ← subject.rest ctx scope ps.length
      let (scope, last) ← Pattern.bindName inline name part scope
      return (scope, pending ++ more ++ last)
termination_by structural p => p

def Pattern.destructureFields (ctx : Context) (inline : Bool) (subject : Staged) :
    List (String × Pattern) → Scope → Stage (Scope × List Pending)
  | [], scope => pure (scope, [])
  | (name, p) :: fields, scope => do
    let part ← Stage.lift (subject.readField name)
    let (scope, pending) ← p.destructure ctx inline part scope
    let (scope, more) ← Pattern.destructureFields ctx inline subject fields scope
    return (scope, pending ++ more)
termination_by structural fields => fields

def Pattern.destructureItems (ctx : Context) (inline : Bool) (subject : Staged) (index : Nat) :
    List Pattern → Scope → Stage (Scope × List Pending)
  | [], scope => pure (scope, [])
  | p :: ps, scope => do
    let part ← subject.readIndex ctx scope (.ofValue (.ofNat index))
    let (scope, pending) ← p.destructure ctx inline part scope
    let (scope, more) ← Pattern.destructureItems ctx inline subject (index + 1) ps scope
    return (scope, pending ++ more)
termination_by structural ps => ps

/-- The constraint that a pattern tests, and the pattern as it stands in the residual program,
where names are replaced by the parts they stand for. -/
def Pattern.lower (ctx : Context) (scope : Scope) : Pattern → Stage (Constraint × Pattern)
  | .wildcard | .binding _ => pure (.any, .wildcard)
  | .literal l => pure (.equals l.toValue, .literal l)
  | .object fields => do
    let lowered ← Pattern.lowerFields ctx scope fields
    return (.record (lowered.map fun (name, c, _) => (name, c)),
      .object (lowered.map fun (name, _, p) => (name, p)))
  | .array ps rest => do
    let lowered ← Pattern.lowerItems ctx scope ps
    return (.conj (.kind .array :: .length (Pattern.lengthOf ps.length rest) ::
        Constraint.elementsFrom 0 (lowered.map Prod.fst)),
      .array (lowered.map Prod.snd) (rest.map fun _ => blankName))
  | .type ty inner => do
    let declared ← (← ty.stage ctx scope).asPatternType ty
    let (c, p) ← inner.lower ctx scope
    return (.conj [declared, c], .type (.type declared) p)
termination_by structural p => p

def Pattern.lowerFields (ctx : Context) (scope : Scope) :
    List (String × Pattern) → Stage (List (String × Constraint × Pattern))
  | [] => pure []
  | (name, p) :: fields => do
    let (c, lowered) ← p.lower ctx scope
    return (name, c, lowered) :: (← Pattern.lowerFields ctx scope fields)
termination_by structural fields => fields

def Pattern.lowerItems (ctx : Context) (scope : Scope) :
    List Pattern → Stage (List (Constraint × Pattern))
  | [] => pure []
  | p :: ps => do
    let lowered ← p.lower ctx scope
    return lowered :: (← Pattern.lowerItems ctx scope ps)
termination_by structural ps => ps

end

end Stagewise
