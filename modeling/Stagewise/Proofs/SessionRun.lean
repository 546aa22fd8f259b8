import Stagewise.Proofs.Mention
import Stagewise.Staging.Program

/-! What staging does to a session. Each step, whether it succeeds or fails, changes the session by
a run: a chain of changes of which one kind makes a specialization, under a name and a key that are
new, and the others keep the specializations apart from their progress, or drop those of a binding.
One rule for each way in which steps are put together gives this for every function of staging. -/

set_option autoImplicit false

namespace Stagewise

namespace Session

def create (s : Session) (id : Nat) (key : List SpecialArg) (name : String) : Session :=
  addSpecial { s with specializations := s.specializations + 1, reserved := name :: s.reserved }
    id ⟨key, name, .started⟩

/-- A change of the session, with the names of the specializations it makes. -/
inductive Change (limit : Nat) : Session → List String → Session → Prop where
  | other {s s' : Session} (hcount : s'.specializations = s.specializations)
      (hreserved : s'.reserved = s.reserved) (hdefs : s'.definitions = s.definitions) :
      Change limit s [] s'
  | create {s : Session} (id : Nat) (key : List SpecialArg) (name : String)
      (hlimit : s.specializations < limit) (hname : name ∉ s.reserved)
      (hkey : ∀ t ∈ (s.definitionsOf id).special, (t.key == key) = false) :
      Change limit s [name] (s.create id key name)
  | finish (s : Session) (id : Nat) (key : List SpecialArg) (progress : Progress) :
      Change limit s [] (s.setSpecial id key progress)
  | general (s : Session) (id : Nat) (progress : Progress) :
      Change limit s [] (s.setGeneral id progress)
  | take (s : Session) (id : Nat) :
      Change limit s [] { s with definitions := Association.erase id s.definitions }

inductive Run (limit : Nat) (s : Session) : List String → Session → Prop where
  | refl : Run limit s [] s
  | tail {names more : List String} {t u : Session} (h : Run limit s names t)
      (hstep : Change limit t more u) : Run limit s (names ++ more) u

variable {limit : Nat} {s t u : Session} {names more : List String}

lemma Change.run (h : Change limit s names t) : Run limit s names t := by
  simpa using Run.tail .refl h

lemma Run.trans (h : Run limit s names t) (h' : Run limit t more u) :
    Run limit s (names ++ more) u := by
  induction h' with
  | refl => simpa using h
  | tail _ hstep ih => simpa using ih.tail hstep

end Session

namespace Stage

variable {α β : Type} {limit : Nat}

def after (step : Stage α) (s : Session) : Session :=
  match step s with
  | .ok _ s' | .error _ s' => s'

def RunsFrom (limit : Nat) (step : Stage α) (s : Session) : Prop :=
  ∃ names, s.Run limit names (step.after s)

def Runs (limit : Nat) (step : Stage α) : Prop := ∀ s, RunsFrom limit step s

lemma after_bind (step : Stage α) (next : α → Stage β) (s : Session) :
    (step >>= next).after s = match step s with
      | .ok a s' => (next a).after s'
      | .error _ s' => s' := by
  change Stage.after (EStateM.bind step next) s = _
  unfold after EStateM.bind
  cases step s <;> rfl

@[simp] lemma after_get_bind (next : Session → Stage α) (s : Session) :
    (get >>= next).after s = (next s).after s := rfl

lemma RunsFrom.get_bind {next : Session → Stage α} {s : Session}
    (h : RunsFrom limit (next s) s) : RunsFrom limit (get >>= next) s := h

lemma RunsFrom.of_after {step : Stage α} {next : Stage β} {s t : Session} {names : List String}
    (h : s.Run limit names t) (hnext : ∀ s, RunsFrom limit next s)
    (heq : step.after s = next.after t) : RunsFrom limit step s := by
  obtain ⟨more, hmore⟩ := hnext t
  exact ⟨names ++ more, heq ▸ h.trans hmore⟩

lemma RunsFrom.bind {step : Stage α} {next : α → Stage β} {s : Session}
    (h : RunsFrom limit step s) (hnext : ∀ a s', step s = .ok a s' → RunsFrom limit (next a) s') :
    RunsFrom limit (step >>= next) s := by
  unfold RunsFrom at *
  rw [after_bind]
  unfold after at h
  cases hr : step s with
  | error e s' => simpa [hr] using h
  | ok a s' =>
    obtain ⟨names, hrun⟩ := h
    obtain ⟨more, hmore⟩ := hnext a s' hr
    rw [hr] at hrun
    exact ⟨_, hrun.trans hmore⟩

@[grind ←]
lemma Runs.bind {step : Stage α} {next : α → Stage β} (h : Runs limit step)
    (hnext : ∀ a, Runs limit (next a)) : Runs limit (step >>= next) :=
  fun s => (h s).bind fun a s' _ => hnext a s'

@[grind ←]
lemma Runs.pure (a : α) : Runs limit (pure a) := fun _ => ⟨[], .refl⟩

@[grind ←]
lemma Runs.throw (e : Error) : Runs limit (throw e : Stage α) := fun _ => ⟨[], .refl⟩

@[grind ←]
lemma Runs.map {step : Stage α} {f : α → β} (h : Runs limit step) : Runs limit (f <$> step) :=
  h.bind fun a => .pure (f a)

@[grind ←]
lemma Runs.fail (cause : Cause) : Runs limit (fail cause : Stage α) := .throw _

@[grind ←]
lemma Runs.failAt (span : Option Span) (cause : Cause) : Runs limit (failAt span cause : Stage α) :=
  .throw _

@[grind ←]
lemma Runs.ensure (b : Bool) (cause : Cause) : Runs limit (ensure b cause) := by
  unfold Stage.ensure
  split_ifs
  · exact .pure ()
  · exact .fail cause

@[grind ←]
lemma Runs.lift (outcome : Outcome α) : Runs limit (lift outcome) := by
  cases outcome with
  | ok a => exact .pure a
  | error e => exact .throw e

@[grind ←]
lemma Runs.mapError {step : Stage α} (h : Runs limit step) (f : Error → Error) :
    Runs limit (step.mapError f) := by
  intro s
  obtain ⟨names, hrun⟩ := h s
  refine ⟨names, ?_⟩
  unfold after Stage.mapError at *
  cases hr : step s <;> simpa [hr] using hrun

@[grind ←]
lemma Runs.get : Runs limit get := fun _ => ⟨[], .refl⟩

lemma Runs.modify {f : Session → Session} (h : ∀ s, ∃ names, Session.Change limit s names (f s)) :
    Runs limit (modify f) := fun s => (h s).imp fun _ => Session.Change.run

lemma Runs.modifyGet {f : Session → α × Session}
    (h : ∀ s, ∃ names, Session.Change limit s names (f s).2) : Runs limit (modifyGet f) :=
  fun s => (h s).imp fun _ => Session.Change.run

lemma Runs.around {before after : Session → Session} {step : Stage α}
    (hbefore : ∀ s, Session.Change limit s [] (before s))
    (hafter : ∀ s, Session.Change limit s [] (after s)) (h : Runs limit step) :
    Runs limit (around before after step) := by
  intro s
  obtain ⟨names, hrun⟩ := h (before s)
  have hboth := ((hbefore s).run.trans hrun).tail (hafter _)
  refine ⟨names, ?_⟩
  unfold Stage.after Stage.around at *
  cases hr : step (before s) <;> simpa [hr] using hboth

@[grind ←]
lemma Runs.inBranch {step : Stage α} (h : Runs limit step) (runtime : Bool) :
    Runs limit (step.inBranch runtime) := by
  unfold Stage.inBranch
  split_ifs
  · exact .around (fun _ => .other rfl rfl rfl) (fun _ => .other rfl rfl rfl) h
  · exact h

@[grind ←]
lemma Runs.deeper {step : Stage α} (h : Runs limit step) : Runs limit step.deeper :=
  .around (fun _ => .other rfl rfl rfl) (fun _ => .other rfl rfl rfl) h

@[grind ←]
lemma Runs.inlining {step : Stage α} (h : Runs limit step) (id : Nat) :
    Runs limit (step.inlining id) :=
  .around (fun _ => .other rfl rfl rfl) (fun _ => .other rfl rfl rfl) h

@[grind ←]
lemma Runs.freshId : Runs limit freshId := .modifyGet fun _ => ⟨[], .other rfl rfl rfl⟩

@[grind ←]
lemma Runs.freshLambda : Runs limit freshLambda := .modifyGet fun _ => ⟨[], .other rfl rfl rfl⟩

@[grind ←]
lemma Runs.freshName (base : String) (scope : Scope) : Runs limit (freshName base scope) :=
  Runs.get.bind fun _ => .pure _

@[grind ←]
lemma Runs.freshBinding (base : String) (scope : Scope) : Runs limit (freshBinding base scope) := by
  unfold Stage.freshBinding
  grind

@[grind ←]
lemma Runs.warn (message : String) (span : Option Span) : Runs limit (warn message span) :=
  .modify fun _ => ⟨[], .other rfl rfl rfl⟩

end Stage

namespace Context

structure Runs (limit : Nat) (ctx : Context) : Prop where
  limit_eq : ctx.options.maxSpecializations = limit
  enter : ∀ e scope, (ctx.enter e scope).Runs limit
  residualize : ∀ v scope, (ctx.residualize v scope).Runs limit

end Context

section

variable {limit : Nat} {ctx : Context}

/-! ### Expressing values -/

@[grind ←]
lemma Staged.runs_asType (ty : Term) (v : Staged) : (v.asType ty).Runs limit := by
  unfold Staged.asType
  grind

@[grind ←]
lemma Staged.runs_asInhabitedType (ty : Term) (v : Staged) :
    (v.asInhabitedType ty).Runs limit := by
  unfold Staged.asInhabitedType
  grind

namespace Context

@[grind ←]
lemma runs_definitionScope (f : Closure) (name : Option String) (self : Option Binding) :
    (definitionScope f name self).Runs limit := by
  unfold Context.definitionScope
  grind

@[grind ←]
lemma runs_generalLambda (binding : Binding) : (generalLambda binding).Runs limit := by
  unfold generalLambda
  grind

@[grind ←]
lemma runs_selfBinding (f : Closure) : (selfBinding f).Runs limit := by
  unfold selfBinding
  refine .bind .get fun s => ?_
  split
  · exact .pure _
  · refine .bind (.freshBinding _ _) fun binding => ?_
    exact .bind (.modify fun _ => ⟨[], .other rfl rfl rfl⟩) fun _ => .pure binding

section

variable (hctx : ctx.Runs limit)
include hctx

@[grind ←]
lemma Runs.declaredType (ty : Term) (scope : Scope) : (ctx.declaredType ty scope).Runs limit := by
  have := hctx.enter
  unfold Context.declaredType
  grind

@[grind ←]
lemma Runs.declaredType? (ty : Option Term) (scope : Scope) :
    (ctx.declaredType? ty scope).Runs limit := by
  unfold Context.declaredType?
  grind

@[grind ←]
lemma Runs.stageParams (scope : Scope) (params : List Param) (slots : List Slot)
    (signature : Signature) : (ctx.stageParams scope params slots signature).Runs limit := by
  fun_induction Context.stageParams ctx scope params slots signature <;> grind

@[grind ←]
lemma Runs.stageDefinition (f : Closure) (name : Option String) (self : Option Binding)
    (slots : List Slot) : (ctx.stageDefinition f name self slots).Runs limit := by
  have := hctx.enter
  have := hctx.residualize
  unfold Context.stageDefinition
  grind

@[grind ←]
lemma Runs.ensureGeneral (f : Closure) (binding : Binding) :
    (ctx.ensureGeneral f binding).Runs limit := by
  unfold Context.ensureGeneral
  refine .bind .get fun s => ?_
  split
  · exact .pure _
  · exact .pure _
  · refine .bind (.modify fun s => ⟨[], .general s _ _⟩) fun _ => ?_
    refine .bind (hctx.stageDefinition _ _ _ _) fun staged => ?_
    exact .bind (.modify fun s => ⟨[], .general s _ _⟩) fun _ => .pure _

@[grind ←]
lemma Runs.closureLiteral (f : Closure) : (ctx.closureLiteral f).Runs limit := by
  unfold Context.closureLiteral
  split_ifs
  · grind
  · refine .bind .get fun s => ?_
    split
    · exact .pure _
    · refine .bind (hctx.stageDefinition _ _ _ _) fun staged => ?_
      exact .bind (.modify fun _ => ⟨[], .other rfl rfl rfl⟩) fun _ => .pure _

end

end Context

namespace Staged

@[grind ←]
lemma runs_byName (scope : Scope) (binding : Option Binding) {otherwise : Stage Term}
    (h : otherwise.Runs limit) : (byName scope binding otherwise).Runs limit := by
  unfold byName
  grind

mutual

@[grind ←]
theorem runs_residualize (hctx : ctx.Runs limit) (scope : Scope) :
    ∀ v : Staged, (v.residualize ctx scope).Runs limit
  | .now v _ binding | .closure f => by
    rw [residualize]
    grind
  | .later _ residual => .pure residual
  | .array items binding => by
    have := runs_residualizeItems hctx scope items
    rw [residualize]
    grind
  | .object fields binding => by
    have := runs_residualizeFields hctx scope fields
    rw [residualize]
    grind

theorem runs_residualizeItems (hctx : ctx.Runs limit) (scope : Scope) :
    ∀ items : List Staged, (residualizeItems ctx scope items).Runs limit
  | [] => .pure []
  | v :: items =>
    .bind (runs_residualize hctx scope v) fun _ =>
      .bind (runs_residualizeItems hctx scope items) fun _ => .pure _

theorem runs_residualizeFields (hctx : ctx.Runs limit) (scope : Scope) :
    ∀ fields : List (String × Staged), (residualizeFields ctx scope fields).Runs limit
  | [] => .pure []
  | (_, v) :: fields =>
    .bind (runs_residualize hctx scope v) fun _ =>
      .bind (runs_residualizeFields hctx scope fields) fun _ => .pure _

end

@[grind ←]
lemma runs_residualizeAll (hctx : ctx.Runs limit) (scope : Scope) (vs : List Staged) :
    (residualizeAll ctx scope vs).Runs limit := by
  fun_induction residualizeAll ctx scope vs <;> grind

end Staged

/-! ### Bindings -/

namespace Pending

@[grind ←]
lemma runs_prepare (scope : Scope) (source hint : String) (v : Staged) :
    (prepare scope source hint v).Runs limit := by
  unfold prepare
  grind

@[grind ←]
lemma runs_takeDefinitions (binding : Binding) : (takeDefinitions binding).Runs limit :=
  .modifyGet fun s => ⟨[], .take s binding.id⟩

variable (hctx : ctx.Runs limit)
include hctx

@[grind ←]
lemma runs_finishLater (inner : Scope) (name : String) (init : Term) (result : Staged) :
    (finishLater ctx inner name init result).Runs limit := by
  unfold finishLater
  grind

@[grind ←]
lemma runs_finishCompound (inner outer : Scope) (binding : Binding) (v result : Staged) :
    (finishCompound ctx inner outer binding v result).Runs limit := by
  unfold finishCompound
  grind

@[grind ←]
lemma runs_finishDefinitions (inner : Scope) (binding : Binding) (result : Staged) :
    (finishDefinitions ctx inner binding result).Runs limit := by
  unfold finishDefinitions
  grind

@[grind ←]
lemma runs_finish (p : Pending) (result : Staged) : (p.finish ctx result).Runs limit := by
  unfold finish
  grind

@[grind ←]
lemma runs_finishAll (ps : List Pending) (result : Staged) :
    (finishAll ctx ps result).Runs limit := by
  induction ps with
  | nil => exact .pure result
  | cons p ps ih => exact ih.bind fun v => runs_finish hctx p v

end Pending

/-! ### Calls -/

namespace Context

lemma runs_bindParams (scope : Scope) (names : List String) (args : List Staged) :
    (bindParams scope names args).Runs limit := by
  fun_induction bindParams scope names args <;> grind

variable (hctx : ctx.Runs limit)
include hctx

@[grind ←]
lemma Runs.residualCall (scope : Scope) (callee : Term) (args : List Staged) :
    (ctx.residualCall scope callee args).Runs limit := by
  unfold Context.residualCall
  grind

@[grind ←]
lemma Runs.checkArgs (scope : Scope) (params : List Param) (args : List Staged) :
    (ctx.checkArgs scope params args).Runs limit := by
  fun_induction Context.checkArgs ctx scope params args <;> grind

@[grind ←]
lemma Runs.invokeBody (f : Closure) (args : List Staged) (site : Scope) :
    (ctx.invokeBody f args site).Runs limit := by
  have := hctx.enter
  unfold Context.invokeBody
  grind [runs_bindParams]

@[grind ←]
lemma Runs.invoke (f : Closure) (args : List Staged) (span : Option Span) (site : Scope) :
    (ctx.invoke f args span site).Runs limit := by
  unfold Context.invoke
  grind

lemma Runs.newSpecialization (f : Closure) (binding : Binding) (key : List SpecialArg)
    (slots : List Slot) (scope : Scope) {s : Session}
    (hkey : ∀ t ∈ (s.definitionsOf binding.id).special, (t.key == key) = false) :
    (ctx.newSpecialization f binding key slots scope).RunsFrom limit s := by
  unfold Context.newSpecialization
  rw [hctx.limit_eq]
  by_cases hlimit : s.specializations < limit
  · have hname := Session.freshName_notMem { s with specializations := s.specializations + 1 }
      (binding.name ++ "_" ++ toString ((s.definitionsOf binding.id).special.length + 1)) scope
    have hcreate := Session.Change.create binding.id key _ hlimit
      (fun h => hname (List.mem_append_right _ h)) hkey
    generalize hn : Session.freshName _ _ _ = name at hcreate
    have hrest : Stage.Runs limit do
        let staged ← ctx.stageDefinition f (some name) (some binding) slots
        modify fun s => s.setSpecial binding.id key (.done staged.1 staged.2)
        return (name, staged.2) :=
      .bind (hctx.stageDefinition _ _ _ _) fun staged =>
        .bind (.modify fun s => ⟨[], .finish s _ _ _⟩) fun _ => .pure _
    refine .of_after hcreate.run hrest ?_
    simp only [Stage.after_get_bind, Stage.ensure, hlimit, decide_true, if_true]
    subst hn
    rfl
  · refine ⟨[], ?_⟩
    simp only [Stage.after_get_bind, Stage.ensure, hlimit, decide_false]
    exact .refl

@[grind ←]
lemma Runs.ensureSpecialization (f : Closure) (binding : Binding) (key : List SpecialArg)
    (slots : List Slot) (scope : Scope) :
    (ctx.ensureSpecialization f binding key slots scope).Runs limit := by
  intro s
  unfold Context.ensureSpecialization
  refine .get_bind ?_
  split
  · exact Stage.Runs.pure _ s
  · exact Stage.Runs.pure _ s
  · next hnone =>
    refine hctx.newSpecialization f binding key slots scope fun t ht => ?_
    simpa using List.find?_eq_none.mp hnone t ht

@[grind ←]
lemma Runs.specialize (f : Closure) (binding : Binding) (sensitivity : Sensitivity)
    (args : List Staged) (scope : Scope) :
    (ctx.specialize f binding sensitivity args scope).Runs limit := by
  unfold Context.specialize
  grind

@[grind ←]
lemma Runs.callDefinition? (f : Closure) (sensitivity : Sensitivity) (args : List Staged)
    (scope : Scope) : (ctx.callDefinition? f sensitivity args scope).Runs limit := by
  unfold Context.callDefinition?
  grind

@[grind ←]
lemma Runs.callClosure (f : Closure) (args : List Staged) (span : Option Span) (scope : Scope) :
    (ctx.callClosure f args span scope).Runs limit := by
  unfold Context.callClosure
  grind

end Context

def ApplyStaged.Runs (limit : Nat) (apply : ApplyStaged) : Prop :=
  ∀ f args, (apply f args).Runs limit

namespace Builtin

section

variable {apply : ApplyStaged} (happly : apply.Runs limit)
include happly

lemma runs_stageMap (callback : Staged) (items : List Staged) :
    (stageMap apply callback items).Runs limit := by
  have := happly callback
  fun_induction stageMap apply callback items <;> grind

lemma runs_stageFilter (callback : Staged) (items : List Staged) :
    (stageFilter apply callback items).Runs limit := by
  have := happly callback
  induction items with
  | nil => exact .pure _
  | cons v items ih =>
    unfold stageFilter
    grind

lemma runs_stageFold (callback acc : Staged) (items : List Staged) :
    (stageFold apply callback acc items).Runs limit := by
  have := happly callback
  induction items generalizing acc with
  | nil => exact .pure _
  | cons v items ih =>
    refine (happly callback _).bind fun result => ?_
    split_ifs
    · exact ih result
    · exact .pure none

lemma runs_stageType (builder : Staged) : (stageType apply builder).Runs limit := by
  have := happly builder
  unfold stageType
  grind

lemma runs_stageHigherOrder (b : Builtin) (args : List Staged) :
    (b.stageHigherOrder apply args).Runs limit := by
  unfold stageHigherOrder
  grind [runs_stageMap, runs_stageFilter, runs_stageFold, runs_stageType]

end

variable (hctx : ctx.Runs limit)
include hctx

lemma runs_residualCall (scope : Scope) (b : Builtin) (args : List Staged) :
    (b.residualCall ctx scope args).Runs limit := by
  unfold residualCall
  grind

lemma runs_stageResidual (scope : Scope) (span : Option Span) (b : Builtin) (args : List Staged) :
    (b.stageResidual ctx scope span args).Runs limit := by
  unfold stageResidual
  grind [runs_residualCall]

lemma runs_stage {apply : ApplyStaged} (happly : apply.Runs limit) (span : Option Span)
    (scope : Scope) (b : Builtin) (args : List Staged) :
    (b.stage ctx apply span scope args).Runs limit := by
  unfold stage
  grind [runs_stageHigherOrder, runs_stageResidual]

end Builtin

namespace Context

variable (hctx : ctx.Runs limit)
include hctx

@[grind ←]
lemma Runs.callLater (scope : Scope) (c : Constraint) (residual : Term) (args : List Staged) :
    (ctx.callLater scope c residual args).Runs limit := by
  unfold Context.callLater
  grind

lemma Runs.applyNested (span : Option Span) (scope : Scope) (nesting : Nat) :
    (ctx.applyNested span scope nesting).Runs limit := by
  induction nesting with
  | zero =>
    intro f args
    unfold Context.applyNested
    grind
  | succ nesting ih =>
    intro f args
    unfold Context.applyNested
    grind [Builtin.runs_stage]

@[grind ←]
lemma Runs.apply (span : Option Span) (scope : Scope) (f : Staged) (args : List Staged) :
    (ctx.apply span scope f args).Runs limit :=
  hctx.applyNested span scope _ f args

@[grind ←]
lemma Runs.callBuiltin (span : Option Span) (scope : Scope) (b : Builtin) (args : List Staged) :
    (ctx.callBuiltin span scope b args).Runs limit :=
  Builtin.runs_stage hctx (hctx.applyNested span scope _) span scope b args

end Context

/-! ### Conditions, assertions and parts -/

@[grind ←]
lemma Scope.runs_branch? (options : Options) (scope : Scope) (refinements : Refinements)
    (condition : Term) : (scope.branch? options refinements condition).Runs limit := by
  unfold Scope.branch?
  grind

@[grind ←]
lemma Scope.runs_load (imports : Imports) (module : String) (scope : Scope)
    (names : List String) : (scope.load imports module names).Runs limit := by
  fun_induction Scope.load imports module scope names <;> grind

namespace Staged

@[grind ←]
lemma runs_asPatternType (ty : Term) (v : Staged) : (v.asPatternType ty).Runs limit := by
  unfold asPatternType
  grind

@[grind ←]
lemma runs_asInput (name : String) (e : Term) (v : Staged) : (v.asInput name e).Runs limit := by
  unfold asInput
  grind

@[grind ←]
lemma runs_asInputName (e : Term) (v : Staged) : (v.asInputName e).Runs limit := by
  unfold asInputName
  grind

variable (hctx : ctx.Runs limit)
include hctx

@[grind ←]
lemma runs_keepEffect (scope : Scope) (effect : Term) (v : Staged) :
    (v.keepEffect ctx scope effect).Runs limit := by
  unfold keepEffect
  grind

@[grind ←]
lemma runs_withImports (scope : Scope) (module : String) (declared : List String) (v : Staged) :
    (v.withImports ctx scope module declared).Runs limit := by
  unfold withImports
  grind

@[grind ←]
lemma runs_assertTrue (scope : Scope) (condition : Term) (v : Staged) :
    (v.assertTrue ctx scope condition).Runs limit := by
  unfold assertTrue
  grind

@[grind ←]
lemma runs_assertType (scope : Scope) (span : Option Span) (ty : Constraint) (v : Staged) :
    (v.assertType ctx scope span ty).Runs limit := by
  unfold assertType
  grind

@[grind ←]
lemma runs_withTrust (scope : Scope) (c : Constraint) (v : Staged) :
    (v.withTrust ctx scope c).Runs limit := by
  unfold withTrust
  grind

@[grind ←]
lemma runs_trust (scope : Scope) (span : Option Span) (ty : Constraint) (v : Staged) :
    (v.trust ctx scope span ty).Runs limit := by
  unfold trust
  grind

@[grind ←]
lemma runs_indexLater (scope : Scope) (v key : Staged) :
    (v.indexLater ctx scope key).Runs limit := by
  unfold indexLater
  grind

@[grind ←]
lemma runs_readIndex (scope : Scope) (v key : Staged) : (v.readIndex ctx scope key).Runs limit := by
  unfold readIndex
  grind

@[grind ←]
lemma runs_rest (scope : Scope) (skip : Nat) (v : Staged) : (v.rest ctx scope skip).Runs limit := by
  unfold rest
  grind

end Staged

section

variable (hctx : ctx.Runs limit)
include hctx

lemma StagedEntry.runs_residualizeAll (scope : Scope) (entries : List StagedEntry) :
    (residualizeAll ctx scope entries).Runs limit := by
  fun_induction residualizeAll ctx scope entries <;> grind

@[grind ←]
lemma StagedEntry.runs_assemble (scope : Scope) (entries : List StagedEntry) :
    (assemble ctx scope entries).Runs limit := by
  unfold assemble
  grind [StagedEntry.runs_residualizeAll]

lemma StagedItem.runs_residualizeAll (scope : Scope) (items : List StagedItem) :
    (residualizeAll ctx scope items).Runs limit := by
  fun_induction residualizeAll ctx scope items <;> grind

@[grind ←]
lemma StagedItem.runs_assemble (scope : Scope) (items : List StagedItem) :
    (assemble ctx scope items).Runs limit := by
  unfold assemble
  grind [StagedItem.runs_residualizeAll]

lemma Part.runs_residualizeAll (scope : Scope) (vs : List Staged) :
    (residualizeAll ctx scope vs).Runs limit := by
  fun_induction residualizeAll ctx scope vs <;> grind

@[grind ←]
lemma Part.runs_assemble (scope : Scope) (vs : List Staged) :
    (assemble ctx scope vs).Runs limit := by
  unfold assemble
  grind [Part.runs_residualizeAll]

@[grind ←]
lemma Selection.runs_result (scope : Scope) (subject : Staged) (selection : Selection) :
    (selection.result ctx scope subject).Runs limit := by
  unfold Selection.result
  grind

end

/-! ### Programs -/

namespace Pattern

@[grind ←]
lemma runs_bindName (inline : Bool) (name : String) (v : Staged) (scope : Scope) :
    (bindName inline name v scope).Runs limit := by
  unfold bindName
  grind

@[grind ←]
lemma runs_subject (inline : Bool) (v : Staged) (scope : Scope) :
    (subject inline v scope).Runs limit := by
  unfold subject
  grind

@[grind ←]
lemma runs_ensurePossible (p : Pattern) (c expected : Constraint) :
    (p.ensurePossible c expected).Runs limit := .ensure _ _

end Pattern

lemma Node.runs_call (hctx : ctx.Runs limit) {scope : Scope} {span : Option Span} {callee : Term}
    {args : List Term} (hcallee : (callee.stage ctx scope).Runs limit)
    (hreceiver : ∀ e name cspan, callee = .mk (.field e name) cspan →
      (e.stage ctx scope).Runs limit)
    (hargs : (Term.stageList ctx scope args).Runs limit)
    (hmem : ∀ e ∈ args, (e.stage ctx scope).Runs limit) :
    ((Node.call callee args).stage ctx scope span).Runs limit := by
  unfold Node.stage
  split
  · split
    · refine .bind (hmem _ (by simp)) fun v => ?_
      grind
    · exact .bind (hmem _ (by simp)) fun v => v.runs_asInput _ _
    · refine .bind (hmem _ (by simp)) fun input => ?_
      refine .bind (input.runs_asInputName _) fun name => ?_
      exact .bind (hmem _ (by simp)) fun v => v.runs_asInput _ _
    · exact .bind (hmem _ (by simp)) fun v => .pure _
    · exact .bind (hmem _ (by simp)) fun v => v.runs_assertTrue hctx scope _
    · refine .bind (hmem _ (by simp)) fun v => ?_
      refine .bind (hmem _ (by simp)) fun w => ?_
      exact .bind (w.runs_asType _) fun c => v.runs_assertType hctx scope _ c
    · refine .bind (hmem _ (by simp)) fun v => ?_
      refine .bind (hmem _ (by simp)) fun w => ?_
      exact .bind (w.runs_asType _) fun c => v.runs_trust hctx scope span c
    · exact .fail _
  · split
    · refine .bind (hreceiver _ _ _ rfl) fun receiver => ?_
      split
      · exact hargs.bind fun rest => hctx.callBuiltin _ _ _ _
      · exact .bind (.lift _) fun f => hargs.bind fun rest => hctx.apply _ _ f rest
    · exact hcallee.bind fun f => hargs.bind fun rest => hctx.apply _ _ f rest

mutual

theorem Term.runs_stage (hctx : ctx.Runs limit) (scope : Scope) :
    ∀ e : Term, (e.stage ctx scope).Runs limit
  | .mk node span => .mapError (node.runs_stage hctx scope span) _

theorem Node.runs_stage (hctx : ctx.Runs limit) (scope : Scope) (span : Option Span) :
    ∀ node : Node, (node.stage ctx scope span).Runs limit
  | .literal l => .pure _
  | .value v => .pure _
  | .var name => by
    rw [Node.stage]
    grind
  | .unary op e => by
    have := e.runs_stage hctx scope
    rw [Node.stage]
    grind
  | .binary op a b => by
    have hb := b.runs_stage hctx
    rw [Node.stage]
    refine .bind (a.runs_stage hctx scope) fun v => ?_
    split
    · split
      · refine .bind (.lift _) fun decided => ?_
        split_ifs
        · refine .bind (hb scope) fun r => ?_
          grind
        · exact .pure _
      · refine .bind (.lift _) fun _ => .bind (.inBranch (hb _) _) fun r => ?_
        grind
    · refine .bind (hb scope) fun r => ?_
      grind
  | .ifElse test yes no => by
    have hyes := yes.runs_stage hctx
    have hno := no.runs_stage hctx
    rw [Node.stage]
    refine .bind (test.runs_stage hctx scope) fun v => ?_
    split
    · refine .bind (.lift _) fun decided => ?_
      grind
    · refine .bind (.lift _) fun _ => .bind (v.runs_residualize hctx scope) fun condition => ?_
      -- both branches of each test go on with the scopes that are left
      dsimp only
      split <;> refine .bind (by grind) fun yesScope => ?_
      all_goals split <;> refine .bind (by grind) fun noScope => ?_
      all_goals grind
  | .letIn p init body => by
    have := body.runs_stage hctx
    have := p.runs_destructure hctx
    rw [Node.stage]
    refine .bind (init.runs_stage hctx scope) fun v => ?_
    grind
  | .lambda f => .bind .freshId fun _ => .pure _
  | .call callee args =>
    Node.runs_call hctx (callee.runs_stage hctx scope) (callee.runs_receiver hctx scope)
      (Term.runs_stageList hctx scope args) (Term.runs_stage_of_mem hctx scope args)
  | .object entries =>
    .bind (Entry.runs_stageList hctx scope entries) fun _ => StagedEntry.runs_assemble hctx scope _
  | .array items =>
    .bind (Item.runs_stageList hctx scope items) fun _ => StagedItem.runs_assemble hctx scope _
  | .field e name => .bind (e.runs_stage hctx scope) fun _ => .lift _
  | .index e key =>
    .bind (e.runs_stage hctx scope) fun v =>
      .bind (key.runs_stage hctx scope) fun _ => v.runs_readIndex hctx scope _
  | .template parts =>
    .bind (Part.runs_stageList hctx scope parts) fun _ => Part.runs_assemble hctx scope _
  | .block statements result =>
    Statement.runs_stageList hctx scope statements fun scope => result.runs_stage hctx scope
  | .await e | .throw e =>
    .bind (e.runs_stage hctx scope) fun v => .bind (v.runs_residualize hctx scope) fun _ => .pure _
  | .matchOn e cases => by
    rw [Node.stage]
    refine .bind (e.runs_stage hctx scope) fun v => ?_
    refine .bind (Pending.runs_prepare _ _ _ _) fun pending => ?_
    refine .bind (Case.runs_stageList hctx _ _ _ _ _ cases) fun selection => ?_
    refine .bind (selection.runs_result hctx _ _) fun _ => Pending.runs_finish hctx pending _

theorem Term.runs_receiver (hctx : ctx.Runs limit) (scope : Scope) :
    ∀ (callee e : Term) (name : String) (cspan : Option Span),
      callee = .mk (.field e name) cspan → (e.stage ctx scope).Runs limit
  | .mk (.field e _) _, _, _, _, rfl => e.runs_stage hctx scope

theorem Term.runs_guard (hctx : ctx.Runs limit) :
    ∀ (guard : Option Term) (e : Term), guard = some e → ∀ scope, (e.stage ctx scope).Runs limit
  | some e, _, rfl => e.runs_stage hctx

theorem Term.runs_stage_of_mem (hctx : ctx.Runs limit) (scope : Scope) :
    ∀ es : List Term, ∀ e ∈ es, (e.stage ctx scope).Runs limit
  | [] => by simp
  | e :: es => List.forall_mem_cons.mpr
    ⟨e.runs_stage hctx scope, Term.runs_stage_of_mem hctx scope es⟩

theorem Term.runs_stageList (hctx : ctx.Runs limit) (scope : Scope) :
    ∀ es : List Term, (Term.stageList ctx scope es).Runs limit
  | [] => .pure _
  | e :: es =>
    .bind (e.runs_stage hctx scope) fun _ =>
      .bind (Term.runs_stageList hctx scope es) fun _ => .pure _

theorem Entry.runs_stageList (hctx : ctx.Runs limit) (scope : Scope) :
    ∀ es : List Entry, (Entry.stageList ctx scope es).Runs limit
  | [] => .pure _
  | .field _ e :: es =>
    .bind (e.runs_stage hctx scope) fun _ =>
      .bind (Entry.runs_stageList hctx scope es) fun _ => .pure _
  | .spread e :: es =>
    .bind (e.runs_stage hctx scope) fun _ => .bind (.lift _) fun _ =>
      .bind (Entry.runs_stageList hctx scope es) fun _ => .pure _

theorem Item.runs_stageList (hctx : ctx.Runs limit) (scope : Scope) :
    ∀ es : List Item, (Item.stageList ctx scope es).Runs limit
  | [] => .pure _
  | .item e :: es =>
    .bind (e.runs_stage hctx scope) fun _ =>
      .bind (Item.runs_stageList hctx scope es) fun _ => .pure _
  | .spread e :: es =>
    .bind (e.runs_stage hctx scope) fun _ => .bind (.lift _) fun _ =>
      .bind (Item.runs_stageList hctx scope es) fun _ => .pure _

theorem Part.runs_stageList (hctx : ctx.Runs limit) (scope : Scope) :
    ∀ es : List Part, (Part.stageList ctx scope es).Runs limit
  | [] => .pure _
  | .text _ :: es => .bind (Part.runs_stageList hctx scope es) fun _ => .pure _
  | .interp e :: es =>
    .bind (e.runs_stage hctx scope) fun _ =>
      .bind (Part.runs_stageList hctx scope es) fun _ => .pure _

theorem Statement.runs_stageList (hctx : ctx.Runs limit) (scope : Scope) :
    ∀ (ss : List Statement) {result : Scope → Stage Staged},
      (∀ scope, (result scope).Runs limit) → (Statement.stageList ctx scope ss result).Runs limit
  | [], _, h => h scope
  | .bind p e :: ss, _, h =>
    .bind (e.runs_stage hctx scope) fun v => .bind (p.runs_destructure hctx false v scope) fun _ =>
      .bind (Statement.runs_stageList hctx _ ss h) fun _ => Pending.runs_finishAll hctx _ _
  | .eval e :: ss, _, h =>
    .bind (e.runs_stage hctx scope) fun _ =>
      .bind (Statement.runs_stageList hctx _ ss h) fun _ => Pending.runs_finish hctx _ _
  | .load names module :: ss, _, h =>
    .bind (scope.runs_load _ module names) fun _ =>
      .bind (Statement.runs_stageList hctx _ ss h) fun v => v.runs_withImports hctx _ _ _

theorem Case.runs_stageList (hctx : ctx.Runs limit) (scope : Scope) (subject : Staged)
    (name : Option String) : ∀ (remaining : Constraint) (staged : List (Case × Constraint))
      (cs : List Case), (Case.stageList ctx scope subject name remaining staged cs).Runs limit
  | _, _, [] => .pure _
  | remaining, staged, .mk p guard body :: cs => by
    have hcs := fun remaining staged =>
      Case.runs_stageList hctx scope subject name remaining staged cs
    have hbody := body.runs_stage hctx
    have hguard := Term.runs_guard hctx guard
    have hp := p.runs_destructure hctx
    rw [Case.stageList]
    split
    · exact .pure _
    refine .bind (p.runs_lower hctx scope) fun lowered => ?_
    dsimp only
    split
    · exact hcs _ _
    refine .bind (hp true _ _) fun inner => ?_
    cases guard with
    | none =>
      refine .bind (.pure _) fun accepted => ?_
      grind
    | some guard =>
      refine .bind (.inBranch (hguard guard rfl _) _) fun test => ?_
      split
      · refine .bind (.lift _) fun passed => ?_
        split <;> refine .bind (.pure _) fun accepted => ?_
        all_goals grind
      · refine .bind (.lift _) fun _ => .bind (test.runs_residualize hctx _) fun condition => ?_
        refine .bind (.pure _) fun accepted => ?_
        grind

theorem Pattern.runs_destructure (hctx : ctx.Runs limit) (inline : Bool) :
    ∀ (p : Pattern) (v : Staged) (scope : Scope), (p.destructure ctx inline v scope).Runs limit
  | .binding name, v, scope => Pattern.runs_bindName inline name v scope
  | .wildcard, v, scope => .pure _
  | .literal l, v, scope => .bind (Pattern.runs_ensurePossible _ _ _) fun _ => .pure _
  | .type ty inner, v, scope =>
    .bind (ty.runs_stage hctx scope) fun w => .bind (w.runs_asInhabitedType ty) fun _ =>
      .bind (.ensure _ _) fun _ => inner.runs_destructure hctx inline _ scope
  | .object fields, v, scope =>
    .bind (Pattern.runs_subject inline v scope) fun _ =>
      .bind (Pattern.runs_destructureFields hctx inline _ fields _) fun _ => .pure _
  | .array ps rest, v, scope => by
    rw [Pattern.destructure]
    refine .bind (Pattern.runs_subject inline v scope) fun subject => ?_
    refine .bind (Pattern.runs_ensurePossible _ _ _) fun _ => ?_
    refine .bind (Pattern.runs_destructureItems hctx inline _ 0 ps _) fun inner => ?_
    grind

theorem Pattern.runs_destructureFields (hctx : ctx.Runs limit) (inline : Bool) (subject : Staged) :
    ∀ (fields : List (String × Pattern)) (scope : Scope),
      (Pattern.destructureFields ctx inline subject fields scope).Runs limit
  | [], _ => .pure _
  | (_, p) :: fields, scope =>
    .bind (.lift _) fun part => .bind (p.runs_destructure hctx inline part scope) fun _ =>
      .bind (Pattern.runs_destructureFields hctx inline subject fields _) fun _ => .pure _

theorem Pattern.runs_destructureItems (hctx : ctx.Runs limit) (inline : Bool) (subject : Staged) :
    ∀ (index : Nat) (ps : List Pattern) (scope : Scope),
      (Pattern.destructureItems ctx inline subject index ps scope).Runs limit
  | _, [], _ => .pure _
  | index, p :: ps, scope =>
    .bind (subject.runs_readIndex hctx scope _) fun part =>
      .bind (p.runs_destructure hctx inline part scope) fun _ =>
        .bind (Pattern.runs_destructureItems hctx inline subject (index + 1) ps _) fun _ => .pure _

theorem Pattern.runs_lower (hctx : ctx.Runs limit) (scope : Scope) :
    ∀ p : Pattern, (p.lower ctx scope).Runs limit
  | .wildcard | .binding _ | .literal _ => .pure _
  | .object fields => .bind (Pattern.runs_lowerFields hctx scope fields) fun _ => .pure _
  | .array ps _ => .bind (Pattern.runs_lowerItems hctx scope ps) fun _ => .pure _
  | .type ty inner =>
    .bind (ty.runs_stage hctx scope) fun w => .bind (w.runs_asPatternType ty) fun _ =>
      .bind (inner.runs_lower hctx scope) fun _ => .pure _

theorem Pattern.runs_lowerFields (hctx : ctx.Runs limit) (scope : Scope) :
    ∀ fields : List (String × Pattern), (Pattern.lowerFields ctx scope fields).Runs limit
  | [] => .pure _
  | (_, p) :: fields =>
    .bind (p.runs_lower hctx scope) fun _ =>
      .bind (Pattern.runs_lowerFields hctx scope fields) fun _ => .pure _

theorem Pattern.runs_lowerItems (hctx : ctx.Runs limit) (scope : Scope) :
    ∀ ps : List Pattern, (Pattern.lowerItems ctx scope ps).Runs limit
  | [] => .pure _
  | p :: ps =>
    .bind (p.runs_lower hctx scope) fun _ =>
      .bind (Pattern.runs_lowerItems hctx scope ps) fun _ => .pure _

end

/-! ### Whole programs -/

lemma Context.runs_ofLevels (options : Options) (imports : Imports) (levels : Nat) :
    (Context.ofLevels options imports levels).Runs options.maxSpecializations := by
  induction levels with
  | zero => exact ⟨rfl, fun _ _ => .failAt _ _, fun _ _ => .fail _⟩
  | succ levels ih =>
    exact ⟨rfl, fun e scope => e.runs_stage ih scope, fun v scope => v.runs_residualize ih scope⟩

lemma Term.runs_stageWhole (hctx : ctx.Runs limit) (e : Term) :
    (e.stageWhole ctx).Runs limit := by
  refine .bind (e.runs_stage hctx _) fun result => ?_
  exact .bind (result.runs_residualize hctx _) fun _ => .pure _

end

end Stagewise
