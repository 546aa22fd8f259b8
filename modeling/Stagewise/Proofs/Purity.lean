import Stagewise.Proofs.Coincidence

/-! Evaluation of pure programs. A program in which nothing asserts, throws or waits may still call
functions that do, so it neither asserts nor throws as long as the functions within its reach are
pure: those in its environment, in the modules and in the values it contains. Evaluation gives such
values again. -/

set_option autoImplicit false

namespace Stagewise

open Association

def Error.isEffect : Error → Bool
  | failure cause _ => cause.category == .assertion
  | thrown _ => true
  | generic _ => false

def Outcome.Silent {α : Type} (x : Outcome α) (P : α → Prop) : Prop :=
  match x with
  | .ok a => P a
  | .error e => e.isEffect = false

/-! ### Pure values -/

def Term.asValue? : Term → Option Value
  | .mk (.value v) _ => some v
  | _ => none

/-- The functions inside, and those they captured, are pure. -/
inductive Value.IsPure : Value → Prop
  | atom {v : Value} : v.isAtom → IsPure v
  | object {fields : List (String × Value)} : (∀ p ∈ fields, IsPure p.2) → IsPure (.object fields)
  | array {items : List Value} : (∀ v ∈ items, IsPure v) → IsPure (.array items)
  | closure {f : Lambda} {env : Environment} :
      (∀ e ∈ Term.walkLambda f, e.isEffect = false) →
      (∀ v ∈ (Term.walkLambda f).filterMap Term.asValue?, IsPure v) →
      (∀ p ∈ env, IsPure p.2) → IsPure (.closure f env)

def Term.ArePure (es : List Term) : Prop :=
  (∀ e ∈ es, e.isEffect = false) ∧ ∀ v ∈ es.filterMap Term.asValue?, v.IsPure

def Environment.IsPure (env : Environment) : Prop := ∀ p ∈ env, p.2.IsPure

def Imports.ArePure (imports : Imports) : Prop :=
  ∀ module name v, imports.resolve? module name = some (.value v) → v.IsPure

lemma Environment.form?_ne_assert {env : Environment} {callee : Term} {args : List Term}
    {span : Option Span} (h : (Term.mk (.call callee args) span).isEffect = false) :
    env.form? callee ≠ some .assert := by
  intro hform
  unfold Environment.form? at hform
  split at hform
  · next name hname =>
    split_ifs at hform
    have hmem := List.find?_some hform
    simp only [Form.name, beq_iff_eq] at hmem
    subst hmem
    simp [Term.isEffect, Term.node, hname] at h
  · cases hform

/-! ### Evaluation -/

def Regime.pure : Regime where
  exact := false
  term t := t.isEffect = false ∧ ∀ v, t.asValue? = some v → v.IsPure
  error err := err.isEffect = false
  failure _ h := h
  withSpan {err} span h := by
    cases err with
    | failure cause old => cases old <;> exact h
    | _ => exact h
  assertion hform h := absurd hform (Environment.form?_ne_assert h.1)
  thrown h := by cases h.1
  lambda _ := rfl

lemma Term.ArePure.term {es : List Term} (h : ArePure es) : ∀ e ∈ es, Regime.pure.term e :=
  fun e he => ⟨h.1 e he, fun v hv => h.2 v (List.mem_filterMap.mpr ⟨e, he, hv⟩)⟩

lemma Value.IsPure.alike {v : Value} (h : v.IsPure) : v.AlikeIn .pure v := by
  induction h with
  | atom h => exact .atom h
  | object _ ih => exact .object rfl (List.forall₂_same.mpr (List.forall_mem_map.mpr ih))
  | array _ ih => exact .array (List.forall₂_same.mpr ih)
  | @closure f env he hv _ _ ih =>
    refine .closure rfl (Term.ArePure.term ⟨he, hv⟩) fun n _ => ?_
    cases hn : find? n env with
    | none => exact .none
    | some w => exact .some (ih _ (mem_of_find?_eq_some hn))

lemma Setting.isPure_ofLimit {imports : Imports} (himports : imports.ArePure) (limit : Nat) :
    (Setting.ofLimit imports limit).Respects .pure :=
  .ofLimit rfl (fun module name v hv => (himports module name v hv).alike)
    (fun v _ h => (h.2 v rfl).alike) limit

lemma Term.silent_eval {s : Setting} (hs : s.Respects .pure) {e : Term} {env : Environment}
    (he : ArePure e.walk) (henv : env.IsPure) :
    (e.eval s env).Silent fun _ => True := by
  have henv : Environment.Serves .pure e.free e.walk env env := by
    refine ⟨he.term, fun n _ => ?_⟩
    cases hn : find? n env with
    | none => exact .none
    | some v => exact .some (henv _ (mem_of_find?_eq_some hn)).alike
  have hagree := e.agree_eval hs henv
  unfold Outcome.Silent
  cases hx : e.eval s env with
  | ok v => trivial
  | error err =>
    rw [hx] at hagree
    exact hagree.1

/-- A pure program neither fails an assertion nor throws, if the functions within its reach are
pure: those in the values it contains, in its environment and in the modules it may import from. -/
theorem Term.eval_of_isPure {e : Term} (he : e.isPure)
    (hvalues : ∀ v ∈ e.walk.filterMap Term.asValue?, v.IsPure) {env : Environment}
    (henv : env.IsPure) {imports : Imports} (himports : imports.ArePure) (limit : Nat)
    {err : Error} (h : e.eval (.ofLimit imports limit) env = .error err) :
    err.isEffect = false := by
  have hwalk : Term.ArePure e.walk := ⟨by simpa [Term.isPure] using he, hvalues⟩
  have hsilent := e.silent_eval (Setting.isPure_ofLimit himports limit) hwalk henv
  rw [h] at hsilent
  exact hsilent

theorem Term.eval_of_isPure_twice :
    let f : Lambda := .untyped 0 none ["x"] (.binary .sub (.var "x") (.number (.ofNat 1)))
    let twice : Lambda := .untyped 1 none ["g", "x"] (.callNamed "g" [.callNamed "g" [.var "x"]])
    let env : Environment := [("twice", .closure twice [])]
    let e := Term.callNamed "twice" [.value (.closure f []), .null]
    ∃ err, e.eval (.ofLimit [] 3) env = .error err ∧ err.isEffect = false := by
  intro f twice env e
  have hf : (Value.closure f []).IsPure := .closure (by decide) (fun _ h => nomatch h) (by simp)
  have htwice : (Value.closure twice []).IsPure :=
    .closure (by decide) (fun _ h => nomatch h) (by simp)
  have henv : env.IsPure := List.forall_mem_singleton.mpr htwice
  have hvalues : ∀ v ∈ e.walk.filterMap Term.asValue?, v.IsPure := List.forall_mem_singleton.mpr hf
  have himports : Imports.ArePure [] := by simp [Imports.ArePure, Imports.resolve?, find?]
  exact ⟨_, rfl, Term.eval_of_isPure (by decide) hvalues henv himports 3 rfl⟩

/-- The call `f(x)` is pure, but throws where `f` is `fn(x) { throw x }`, and fails an assertion
where `f` is `fn(x) { assert(x > 0) }`. -/
theorem Term.eval_of_isPure_throws :
    let throws : Lambda := .untyped 0 none ["x"] (.throw (.var "x"))
    let asserts : Lambda := .untyped 0 none ["x"]
      (.assertThat (.binary .gt (.var "x") (.number .zero)))
    let e := Term.callNamed "f" [.var "x"]
    let env (f : Lambda) : Environment := [("f", .closure f []), ("x", .ofNat 0)]
    e.isPure ∧ e.eval (.ofLimit [] 1) (env throws) = .error (.thrown (.ofNat 0)) ∧
      ∃ err, e.eval (.ofLimit [] 1) (env asserts) = .error err ∧ err.isEffect :=
  ⟨rfl, rfl, _, rfl, rfl⟩

end Stagewise
