import Stagewise.Proofs.Known

/-! Staging a first-order program without runtime inputs evaluates it. Staging goes along with
evaluation step by step, and every call is evaluated in place. -/

set_option autoImplicit false

namespace Stagewise

open Stage

/-! ### Literals of known parts -/

abbrev Staged.KnowFields (ss : List (String × Staged)) (vs : List (String × Value)) : Prop :=
  List.Forall₂ (fun s v => s.1 = v.1 ∧ s.2.Knows v.2) ss vs

namespace Staged

variable {ss more : List (String × Staged)} {vs fields : List (String × Value)} {name : String}
  {s : Staged} {v : Value}

lemma KnowFields.put (h : KnowFields ss vs) (hs : s.Knows v) :
    KnowFields (Association.put name s ss) (Association.put name v vs) := by
  induction h with
  | nil => exact .cons ⟨rfl, hs⟩ .nil
  | @cons p q ss vs hp hrest ih =>
    obtain ⟨key, t⟩ := p
    obtain ⟨key', w⟩ := q
    obtain ⟨rfl, ht⟩ := hp
    simp only [Association.put]
    split_ifs
    · exact .cons ⟨rfl, hs⟩ hrest
    · exact .cons ⟨rfl, ht⟩ ih

lemma KnowFields.putAll (h : KnowFields ss vs) (hmore : KnowFields more fields) :
    KnowFields (Association.putAll ss more) (Association.putAll vs fields) := by
  induction hmore generalizing ss vs with
  | nil => exact h
  | @cons p q more fields hp _ ih =>
    obtain ⟨key, t⟩ := p
    obtain ⟨key', w⟩ := q
    obtain ⟨rfl, ht⟩ := hp
    exact ih (h.put ht)

lemma KnowFields.fieldValues? (h : KnowFields ss vs) : fieldValues? ss = some vs := by
  induction h with
  | nil => rfl
  | @cons p q ss vs hp _ ih =>
    obtain ⟨key, t⟩ := p
    obtain ⟨key', w⟩ := q
    obtain ⟨hkey, hw⟩ := hp
    obtain ⟨_, binding, ht⟩ := hw
    simp only at hkey ht
    subst hkey ht
    simp [Staged.fieldValues?, ih]

lemma knowFields_ofValue (h : ∀ p ∈ vs, p.2.isData Builtin.isRegistered) :
    KnowFields (vs.map fun (name, v) => (name, ofValue v)) vs := by
  induction vs with
  | nil => exact .nil
  | cons p vs ih =>
    rw [List.forall_mem_cons] at h
    exact .cons ⟨rfl, knows_ofValue h.1⟩ (ih h.2)

lemma KnowFields.ofFields (h : KnowFields ss vs)
    (hv : (Value.object vs).isData Builtin.isRegistered) : (ofFields ss).Knows (.object vs) := by
  simp only [Staged.ofFields, h.fieldValues?]
  exact knows_ofValue hv

end Staged

section Spreads

variable {depth : Nat} {s : Staged}

lemma StagedEntry.ofSpread_proceeds {fields : List (String × Value)}
    (hs : s.Knows (.object fields)) (hshort : (Value.object fields).isShort) :
    Proceeds depth (Stage.lift (StagedEntry.ofSpread s)) (· = .spread s) := by
  have hok : StagedEntry.ofSpread s = .ok (.spread s) := by
    simp [StagedEntry.ofSpread, hs.constraint, Constraint.not_disjoint_object hshort hs.1,
      Constraint.not_implies_kind_object (l := .array) rfl hshort hs.1,
      Constraint.not_implies_kind_object (l := .function) rfl hshort hs.1]
  rw [hok]
  exact .pure rfl

lemma StagedItem.ofSpread_proceeds {items : List Value} (hs : s.Knows (.array items))
    (hshort : (Value.array items).isShort) :
    Proceeds depth (Stage.lift (StagedItem.ofSpread s)) (· = .spread s) := by
  have hok : StagedItem.ofSpread s = .ok (.spread s) := by
    simp [StagedItem.ofSpread, hs.constraint, Constraint.not_disjoint_array hshort hs.1]
  rw [hok]
  exact .pure rfl

end Spreads

/-! ### Names of the language -/

lemma Registry.isData_find? {name : String} {v : Value} (h : Registry.find? name = some v) :
    v.isData Builtin.isRegistered := by
  unfold Registry.find? at h
  split at h
  · exact Option.some.inj h ▸ rfl
  · obtain ⟨b, hb, rfl⟩ := Option.map_eq_some_iff.mp h
    simp [Builtin.isRegistered, Builtin.ofName?_name (List.mem_of_find?_eq_some hb)]

/-! ### Calls of functions -/

/-- Staging in a context goes along with evaluation in a setting, as far as calls are concerned and
the values that are spread in them are short. -/
structure Context.Simulates (depth : Nat) (ctx : Context) (s : Setting)
    (calls : Value → List Value → List Value) : Prop where
  data : ∀ span scope, ApplyStaged.Simulates depth (ctx.apply span scope) s.apply
  method : ∀ {b : Builtin} {sargs args v}, b ∈ Builtin.all → Staged.KnowAll sargs args →
    s.apply (.builtin b.name) args = .ok v → ∀ span scope,
      Computes depth (ctx.callBuiltin span scope b sargs) v
  function : ∀ {sf f sargs args v}, Staged.Matches .function sf f → Staged.KnowAll sargs args →
    s.apply f args = .ok v → (∀ w ∈ calls f args, w.isShort) →
      ∀ span scope, Computes depth (ctx.apply span scope sf sargs) v

lemma Role.exists_of_bind?_eq_some {names inner : Role.Names} {p : Pattern} {role : Option Role}
    (h : Role.bind? names p role = some inner) : ∃ r, role = some r := by
  cases role with
  | none => cases p <;> simp [Role.bind?] at h
  | some r => exact ⟨r, rfl⟩

lemma Staged.lift_readField {depth : Nat} {s : Staged} {v w : Value} {name : String}
    (hs : s.Knows v) (h : v.readField name = .ok w) :
    Computes depth (Stage.lift (s.readField name)) w := by
  obtain ⟨hv, _, rfl⟩ := hs
  rw [Staged.readField, h]
  exact .pure (Staged.knows_ofValue (Value.isData_readField hv h))

lemma Value.callee_eq (v : Value) (name : String) (c : Constraint) (binding : Option Binding) :
    v.callee name =
      match (Staged.now v c binding).method? name with
      | some b => .ok (.inr b)
      | none => .inl <$> v.readField name := by
  unfold Value.callee Staged.method?
  cases hm : Builtin.ofMethod? name <;> cases v <;> simp [Staged.method?.hasOwnField]
  all_goals
    next fields => by_cases h : Association.contains name fields <;> simp [h]

lemma Staged.Knows.callee {s : Staged} {v : Value} {name : String} {target : Value ⊕ Builtin}
    (hs : s.Knows v) (h : v.callee name = .ok target) :
    (∃ f, target = .inl f ∧ s.method? name = none ∧ v.readField name = .ok f) ∨
      ∃ b ∈ Builtin.all, target = .inr b ∧ s.method? name = some b := by
  obtain ⟨_, binding, rfl⟩ := hs
  rw [Value.callee_eq v name (.ofValue v) binding] at h
  split at h
  · next b hm =>
    refine Or.inr ⟨b, ?_, (Except.ok.inj h).symm, hm⟩
    rw [Staged.method?] at hm
    split_ifs at hm
    exact List.mem_of_find?_eq_some hm
  · next hm =>
    cases hf : v.readField name with
    | ok f =>
      rw [hf] at h
      exact Or.inl ⟨f, (Except.ok.inj h).symm, hm, rfl⟩
    | error e =>
      rw [hf] at h
      cases h

lemma Builtin.ofMethodArgs_fold {α : Type} (receiver a b : α) :
    Builtin.ofMethodArgs .fold receiver [a, b] = [receiver, b, a] := by
  simp [Builtin.ofMethodArgs, Builtin.methodOrder?, List.range_succ]

lemma Builtin.ofMethodArgs_eq {α : Type} (b : Builtin) (receiver : α) {rest : List α}
    (h : b = .fold → rest.length ≠ 2) : b.ofMethodArgs receiver rest = receiver :: rest := by
  cases b <;> try rfl
  simp [Builtin.ofMethodArgs, Builtin.methodOrder?, (h rfl).symm]

lemma Staged.KnowAll.ofMethodArgs {s : Staged} {v : Value} {ss : List Staged} {vs : List Value}
    (hs : s.Knows v) (h : KnowAll ss vs) (b : Builtin) :
    KnowAll (b.ofMethodArgs s ss) (b.ofMethodArgs v vs) := by
  by_cases hb : b = .fold ∧ vs.length = 2
  · obtain ⟨rfl, hlen⟩ := hb
    obtain ⟨x, y, rfl⟩ := List.length_eq_two.mp hlen
    obtain _ | ⟨hx, _ | ⟨hy, _ | _⟩⟩ := h
    rw [Builtin.ofMethodArgs_fold, Builtin.ofMethodArgs_fold]
    exact .cons hs (.cons hy (.cons hx .nil))
  · rw [Builtin.ofMethodArgs_eq b v (by tauto), Builtin.ofMethodArgs_eq b s (by
      rw [h.length_eq]; tauto)]
    exact .cons hs h

lemma Staged.readIndex_knows {depth : Nat} (ctx : Context) (scope : Scope) {s t : Staged}
    {v key w : Value} (hs : s.Knows v) (ht : t.Knows key) (h : v.readIndex key = .ok w) :
    Computes depth (s.readIndex ctx scope t) w := by
  obtain ⟨hv, _, rfl⟩ := hs
  obtain ⟨_, _, rfl⟩ := ht
  change Computes depth (Stage.lift (Staged.ofValue <$> v.readIndex key)) w
  rw [h]
  exact .pure (Staged.knows_ofValue (Value.isData_readIndex hv h))

section Functions

variable {depth : Nat} {names : Role.Names} {scope : Scope} {env : Environment}
  {sargs : List Staged} {args : List Value}

lemma Context.bindParams_proceeds {params : List String} (hparams : ∀ p ∈ params, p ≠ blankName)
    (hscope : scope.Agrees names env) (hargs : Staged.KnowAll sargs args) :
    Proceeds depth (Context.bindParams scope params sargs) fun r =>
      (params.length = args.length →
        r.1.Agrees (params.foldl (fun names p => (p, .data) :: names) names)
          (env.bindAll (params.zip args))) ∧ ∀ p ∈ r.2, p.Closes depth := by
  induction params generalizing scope names env sargs args with
  | nil =>
    rw [Context.bindParams]
    · exact .pure ⟨fun _ => by simpa [Environment.bindAll] using hscope, by simp⟩
    · simp
  | cons name params ih =>
    cases hargs with
    | nil => exact .pure ⟨by simp, by simp⟩
    | @cons s v sargs args hs hrest =>
      rw [List.forall_mem_cons] at hparams
      have hs' : s.Matches .data v := hs
      refine (Pending.prepare_proceeds hscope hs' hparams.1 name).bind fun p hp => ?_
      refine (ih hparams.2 hp.1 hrest).bind fun r hr => .pure ⟨fun hlen => ?_, ?_⟩
      · exact hr.1 (by simpa using hlen)
      · exact List.forall_mem_cons.mpr ⟨hp.2, hr.2⟩

lemma Context.checkArgs_of_isPlain (ctx : Context) (scope : Scope) {params : List Param}
    (hparams : params.all Param.isPlain) (hlen : sargs.length = params.length) :
    ctx.checkArgs scope params sargs = pure sargs := by
  induction params generalizing sargs with
  | nil =>
    obtain rfl := List.length_eq_zero_iff.mp hlen
    rfl
  | cons p params ih =>
    obtain ⟨name, type⟩ := p
    cases sargs with
    | nil => simp at hlen
    | cons arg sargs =>
      rw [List.all_cons, Bool.and_eq_true] at hparams
      cases type with
      | some _ => simp [Param.isPlain] at hparams
      | none =>
        rw [Context.checkArgs, ih hparams.2 (by simpa using hlen)]
        rfl

end Functions

/-! ### Terms -/

section Terms

variable {depth : Nat} {ctx : Context} {s : Setting}

lemma Pattern.destructure_proceeds {names inner : Role.Names} {scope : Scope} {env : Environment}
    {role : Role} {p : Pattern} {sv : Staged} {v : Value} (ctx : Context) (s : Setting)
    (hp : Role.bind? names p (some role) = some inner) (hscope : scope.Agrees names env)
    (hv : sv.Matches role v) :
    ∃ bindings, p.matchIn s env v = .ok (some bindings) ∧
      Proceeds depth (p.destructure ctx false sv scope) fun r =>
        r.1.Agrees inner (env.bindAll bindings) ∧ ∀ q ∈ r.2, q.Closes depth := by
  cases p with
  | wildcard =>
    obtain rfl := Option.some.inj hp
    refine ⟨[], rfl, .pure ⟨hscope, ?_⟩⟩
    simpa [Pattern.skip] using Pending.closes_discard hv
  | binding name =>
    simp only [Role.bind?] at hp
    split_ifs at hp with hname
    obtain rfl := Option.some.inj hp
    refine ⟨[(name, v)], rfl, ?_⟩
    refine (Pending.prepare_proceeds hscope hv hname name).bind fun q hq => .pure ⟨hq.1, ?_⟩
    simpa using hq.2
  | _ => simp [Role.bind?] at hp

lemma Node.role?_call {names : Role.Names} {callee : Term} {args : List Term} {role : Role}
    (hrole : (Node.call callee args).role? names = some role) :
    role = .data ∧ Term.areData names args ∧
      (∀ name, callee.asVar? = some name → Role.isCallable names name) ∧
      (callee.asVar? = none → callee.role? names = some .data) := by
  rw [Node.role?] at hrole
  split at hrole <;> simp_all

lemma Scope.Agrees.form?_eq_none {names : Role.Names} {scope : Scope} {env : Environment}
    (hscope : scope.Agrees names env) {callee : Term}
    (hcallee : ∀ name, callee.asVar? = some name → Role.isCallable names name) :
    env.form? callee = none ∧ scope.form? callee = none := by
  unfold Environment.form? Scope.form?
  cases hvar : callee.asVar? with
  | none => exact ⟨rfl, rfl⟩
  | some name =>
    have hc := hcallee name hvar
    obtain ⟨hs, he⟩ := hscope.contains_eq name
    simp only [Role.isCallable, Bool.or_eq_true, Option.isNone_iff_eq_none] at hc
    simp only [hs, he]
    rcases hc with hc | hc <;> simp [hc]

lemma Scope.Agrees.var_proceeds {names : Role.Names} {scope : Scope} {env : Environment}
    (hscope : scope.Agrees names env) {name : String} {v : Value} (hv : env.get name = .ok v)
    (span : Option Span) :
    Proceeds depth ((Node.var name).stage ctx scope span) fun sv =>
      ∃ role, sv.Matches role v ∧
        (Association.find? name names ≠ some .function → role = .data) := by
  rw [Node.stage, hscope.get?]
  unfold Environment.get at hv
  rcases hscope.find? name with ⟨role, sv, w, hn, hs, he, hm⟩ | ⟨hn, hs, he⟩
  · rw [he] at hv
    obtain rfl := Except.ok.inj hv
    rw [hs]
    refine .pure ⟨role, hm, fun hf => ?_⟩
    cases role with
    | data => rfl
    | function => exact absurd hn hf
  · rw [he] at hv
    rw [hs]
    generalize hw : Registry.find? name = found at hv ⊢
    cases found with
    | none => cases hv
    | some w =>
      obtain rfl := Except.ok.inj hv
      exact .pure ⟨.data, Staged.knows_ofValue (Registry.isData_find? hw), fun _ => rfl⟩

lemma Scope.Agrees.callee_proceeds {names : Role.Names} {scope : Scope} {env : Environment}
    (hscope : scope.Agrees names env) {name : String} {span : Option Span} {v : Value}
    (hv : (Term.mk (.var name) span).eval s env = .ok v) :
    Proceeds depth ((Term.mk (.var name) span).stage ctx scope) fun sv =>
      ∃ role, sv.Matches role v := by
  rw [Term.stage]
  refine .mapError ?_ fun _ h => h
  exact (hscope.var_proceeds (Term.eval_mk_eq_ok.mp hv) span).mono
    fun sv ⟨role, hm, _⟩ => ⟨role, hm⟩

lemma Node.stage_call_field {scope : Scope} {span cspan : Option Span} {e : Term} {name : String}
    {args : List Term} :
    (Node.call (.mk (.field e name) cspan) args).stage ctx scope span = (do
      let receiver ← e.stage ctx scope
      match receiver.method? name with
      | some method =>
        let rest ← Term.stageList ctx scope args
        ctx.callBuiltin span scope method (method.ofMethodArgs receiver rest)
      | none =>
        let f ← Stage.lift (receiver.readField name)
        ctx.apply span scope f (← Term.stageList ctx scope args)) :=
  rfl

lemma Node.eval_call_field {env : Environment} {cspan : Option Span} {e : Term} {name : String}
    {args : List Term} :
    (Node.call (.mk (.field e name) cspan) args).eval s env = (do
      let receiver ← e.eval s env
      match ← receiver.callee name with
      | .inl callee => s.apply callee (← Term.evalList s env args)
      | .inr method =>
        s.apply (.builtin method.name)
          (method.ofMethodArgs receiver (← Term.evalList s env args))) :=
  rfl

lemma Node.stage_call {scope : Scope} {span : Option Span} {callee : Term} {args : List Term}
    (hform : scope.form? callee = none)
    (hfield : ∀ e name cspan, callee ≠ .mk (.field e name) cspan) :
    (Node.call callee args).stage ctx scope span = (do
      let f ← callee.stage ctx scope
      ctx.apply span scope f (← Term.stageList ctx scope args)) := by
  rw [Node.stage, hform]
  exact fun e name cspan h => hfield e name cspan h

lemma Node.role?_field {names : Role.Names} {e : Term} {name : String} {span : Option Span}
    (h : (Term.mk (.field e name) span).role? names = some .data) :
    e.role? names = some .data := by
  simpa [Term.role?, Node.role?] using h

variable {calls : Value → List Value → List Value} (h : ctx.Simulates depth s calls)
include h

set_option linter.unusedSectionVars false in
mutual

theorem Term.stage_eval : ∀ {e : Term} {names role env scope v}, e.role? names = some role →
    Scope.Agrees names scope env → e.eval s env = .ok v →
    (∀ w ∈ e.spreads s calls env, w.isShort) →
    Proceeds depth (e.stage ctx scope) fun sv => sv.Matches role v
  | .mk node span, names, role, env, scope, v, hrole, hscope, hv, hw => by
    rw [Term.role?] at hrole
    rw [Term.spreads] at hw
    rw [Term.stage]
    exact (Node.stage_eval hrole hscope (Term.eval_mk_eq_ok.mp hv) hw).mapError fun _ h => h
termination_by structural e => e

theorem Node.stage_eval : ∀ {node : Node} {span names role env scope v},
    node.role? names = some role → Scope.Agrees names scope env → node.eval s env = .ok v →
    (∀ w ∈ node.spreads s calls env, w.isShort) →
    Proceeds depth (node.stage ctx scope span) fun sv => sv.Matches role v
  | .literal l, span, names, role, env, scope, v, hrole, hscope, hv, hw => by
    obtain rfl := Option.some.inj hrole
    obtain rfl := Except.ok.inj hv
    exact .pure (Staged.knows_ofValue (Value.isData_of_literal l))
  | .value w, span, names, role, env, scope, v, hrole, hscope, hv, hw => by
    obtain ⟨hw, rfl⟩ := Role.dataIf_eq_some.mp hrole
    obtain rfl := Except.ok.inj hv
    exact .pure (Staged.knows_ofValue hw)
  | .var name, span, names, role, env, scope, v, hrole, hscope, hv, hw => by
    obtain ⟨hn, rfl⟩ := Role.dataIf_eq_some.mp hrole
    refine (hscope.var_proceeds hv span).mono fun sv ⟨role, hm, hr⟩ => ?_
    exact hr (by simpa using hn) ▸ hm
  | .unary op e, span, names, role, env, scope, v, hrole, hscope, hv, hw => by
    obtain ⟨he, rfl⟩ := Role.dataIf_eq_some.mp hrole
    rw [Node.eval] at hv
    obtain ⟨x, hx, hv⟩ := Outcome.bind_eq_ok.mp hv
    rw [Node.spreads] at hw
    rw [Node.stage]
    refine (Term.stage_eval (of_decide_eq_true he) hscope hx hw).bind fun sx hsx => ?_
    rw [Staged.Knows.value? hsx]
    exact .lift_bind hv (.pure (Staged.knows_ofValue (UnaryOp.isData_apply hv)))
  | .binary op a b, span, names, role, env, scope, v, hrole, hscope, hv, hw => by
    obtain ⟨hab, rfl⟩ := Role.dataIf_eq_some.mp hrole
    simp only [Bool.and_eq_true, decide_eq_true_eq] at hab
    rw [Node.spreads, List.forall_mem_append] at hw
    rw [Node.stage]
    by_cases hop : op.isLogical
    · obtain ⟨x, hx, c, hc, hrest⟩ := Node.eval_logical hop hv
      refine (Term.stage_eval hab.1 hscope hx hw.1).bind fun sx hsx => ?_
      rw [if_pos hop, Staged.Knows.value? hsx]
      refine .lift_bind hc ?_
      rcases hrest with ⟨hgo, y, hy, d, hd, rfl⟩ | ⟨hstop, rfl⟩
      · rw [hx, BinaryOp.skips_of_condition hc hgo, if_neg Bool.false_ne_true] at hw
        rw [hgo, beq_self_eq_true, if_pos rfl]
        refine (Term.stage_eval hab.2 hscope hy hw.2).bind fun sy hsy => ?_
        rw [Staged.Knows.value? hsy]
        exact .lift_bind hd (.pure (Staged.knows_ofValue rfl))
      · rw [if_neg (by simpa using hstop)]
        exact .pure (Staged.knows_ofValue rfl)
    · rw [Node.eval_binary (by simpa using hop)] at hv
      obtain ⟨x, hx, hv⟩ := Outcome.bind_eq_ok.mp hv
      obtain ⟨y, hy, hv⟩ := Outcome.bind_eq_ok.mp hv
      rw [BinaryOp.skips_of_not_isLogical (by simpa using hop), if_neg Bool.false_ne_true] at hw
      refine (Term.stage_eval hab.1 hscope hx hw.1).bind fun sx hsx => ?_
      rw [if_neg hop]
      refine (Term.stage_eval hab.2 hscope hy hw.2).bind fun sy hsy => ?_
      rw [Staged.Knows.value? hsx, Staged.Knows.value? hsy]
      exact .lift_bind hv (.pure (Staged.knows_ofValue (BinaryOp.isData_apply hv)))
  | .ifElse test yes no, span, names, role, env, scope, v, hrole, hscope, hv, hw => by
    obtain ⟨hab, rfl⟩ := Role.dataIf_eq_some.mp hrole
    simp only [Bool.and_eq_true, decide_eq_true_eq] at hab
    rw [Node.eval] at hv
    obtain ⟨x, hx, hv⟩ := Outcome.bind_eq_ok.mp hv
    obtain ⟨c, hc, hv⟩ := Outcome.bind_eq_ok.mp hv
    obtain rfl := Value.eq_bool_of_condition hc
    rw [Node.spreads, hx, List.forall_mem_append] at hw
    rw [Node.stage]
    refine (Term.stage_eval hab.1.1 hscope hx hw.1).bind fun sx hsx => ?_
    rw [Staged.Knows.value? hsx]
    refine .lift_bind hc ?_
    cases c with
    | true => exact Term.stage_eval hab.1.2 hscope hv hw.2
    | false => exact Term.stage_eval hab.2 hscope hv hw.2
  | .letIn p init body, span, names, role, env, scope, v, hrole, hscope, hv, hw => by
    rw [Node.role?] at hrole
    split at hrole
    · next inner hp =>
      obtain ⟨hbody, rfl⟩ := Role.dataIf_eq_some.mp hrole
      obtain ⟨irole, hinit⟩ := Role.exists_of_bind?_eq_some hp
      rw [hinit] at hp
      rw [Node.eval] at hv
      obtain ⟨x, hx, hv⟩ := Outcome.bind_eq_ok.mp hv
      rw [Node.spreads, hx, List.forall_mem_append] at hw
      rw [Node.stage]
      refine (Term.stage_eval hinit hscope hx hw.1).bind fun sx hsx => ?_
      obtain ⟨bindings, hmatch, hdes⟩ := Pattern.destructure_proceeds ctx s hp hscope hsx
      rw [hmatch] at hv
      rw [show (.ok x >>= p.matchIn s env) = .ok (some bindings) from hmatch] at hw
      refine hdes.bind fun r hr => ?_
      refine (Term.stage_eval (of_decide_eq_true hbody) hr.1 hv hw.2).bind fun t ht => ?_
      exact Pending.finishAll_closes hr.2 ctx ht
    · cases hrole
  | .lambda f, span, names, role, env, scope, v, hrole, hscope, hv, hw => by
    rw [Node.role?] at hrole
    split_ifs at hrole with hf
    obtain rfl := Option.some.inj hrole
    obtain rfl := Except.ok.inj hv
    rw [Node.stage]
    refine .bind (P := fun _ => True) (.modifyGet fun s hs => ⟨trivial, hs⟩) fun id _ => ?_
    exact .pure ⟨names, id, f, scope, env, none, hscope, hf, rfl, rfl⟩
  | .call callee args, span, names, role, env, scope, v, hrole, hscope, hv, hw => by
    obtain ⟨rfl, hargs, hname, hcallee⟩ := Node.role?_call hrole
    obtain ⟨he, hs⟩ := hscope.form?_eq_none hname
    rw [Node.spreads, List.forall_mem_append, List.forall_mem_append] at hw
    obtain ⟨⟨hwf, hwargs⟩, hwcall⟩ := hw
    cases callee with
    | mk node cspan =>
      cases node
      case field e name =>
        rw [Node.eval_call_field] at hv
        rw [Node.stage_call_field]
        obtain ⟨x, hx, hv⟩ := Outcome.bind_eq_ok.mp hv
        obtain ⟨target, ht, hv⟩ := Outcome.bind_eq_ok.mp hv
        rw [Term.spreads, Node.spreads] at hwf
        refine (Term.stage_eval (Node.role?_field (hcallee rfl)) hscope hx hwf).bind
          fun sx hsx => ?_
        rcases hsx.callee ht with ⟨f, rfl, hm, hf⟩ | ⟨b, hb, rfl, hm⟩
        · obtain ⟨vs, hvs, hv⟩ := Outcome.bind_eq_ok.mp hv
          rw [hm]
          refine (Staged.lift_readField hsx hf).bind fun sf hsf => ?_
          refine (Term.stage_evalList hargs hscope hvs hwargs).bind fun ss hss => ?_
          exact h.data span scope hsf hss hv
        · obtain ⟨vs, hvs, hv⟩ := Outcome.bind_eq_ok.mp hv
          rw [hm]
          refine (Term.stage_evalList hargs hscope hvs hwargs).bind fun ss hss => ?_
          exact h.method hb (hss.ofMethodArgs hsx b) hv span scope
      case var name =>
        rw [Node.eval_call he (by simp)] at hv
        rw [Node.stage_call hs (by simp)]
        obtain ⟨f, hf, hv⟩ := Outcome.bind_eq_ok.mp hv
        obtain ⟨vs, hvs, hv⟩ := Outcome.bind_eq_ok.mp hv
        refine (hscope.callee_proceeds hf).bind fun sf ⟨role, hsf⟩ => ?_
        refine (Term.stage_evalList hargs hscope hvs hwargs).bind fun ss hss => ?_
        cases role with
        | data => exact h.data span scope hsf hss hv
        | function =>
          rw [hf, hvs] at hwcall
          exact h.function hsf hss hv hwcall span scope
      all_goals
        rw [Node.eval_call he (by simp)] at hv
        rw [Node.stage_call hs (by simp)]
        obtain ⟨f, hf, hv⟩ := Outcome.bind_eq_ok.mp hv
        obtain ⟨vs, hvs, hv⟩ := Outcome.bind_eq_ok.mp hv
        refine (Term.stage_eval (hcallee rfl) hscope hf hwf).bind fun sf hsf => ?_
        refine (Term.stage_evalList hargs hscope hvs hwargs).bind fun ss hss => ?_
        exact h.data span scope hsf hss hv
  | .object entries, span, names, role, env, scope, v, hrole, hscope, hv, hw => by
    obtain ⟨hes, rfl⟩ := Role.dataIf_eq_some.mp hrole
    rw [Node.eval] at hv
    obtain ⟨fields, hfields, hv⟩ := Outcome.bind_eq_ok.mp hv
    obtain rfl := Except.ok.inj hv
    rw [Node.stage]
    have hnil : (Value.object []).isData Builtin.isRegistered := rfl
    rw [Node.spreads] at hw
    refine (Entry.stage_evalList hes hscope hnil hfields hw).bind fun ses hses => ?_
    obtain ⟨sfields, hs, hknow⟩ := hses.2 [] .nil
    simp only [StagedEntry.assemble, hs]
    exact .pure (hknow.ofFields hses.1)
  | .array items, span, names, role, env, scope, v, hrole, hscope, hv, hw => by
    obtain ⟨his, rfl⟩ := Role.dataIf_eq_some.mp hrole
    rw [Node.eval] at hv
    obtain ⟨vs, hvs, hv⟩ := Outcome.bind_eq_ok.mp hv
    obtain rfl := Except.ok.inj hv
    rw [Node.spreads] at hw
    rw [Node.stage]
    refine (Item.stage_evalList his hscope hvs hw).bind fun sis ⟨parts, hparts, hknow⟩ => ?_
    simp only [StagedItem.assemble, hparts]
    exact .pure hknow.ofItems
  | .field e name, span, names, role, env, scope, v, hrole, hscope, hv, hw => by
    obtain ⟨he, rfl⟩ := Role.dataIf_eq_some.mp hrole
    rw [Node.eval] at hv
    obtain ⟨x, hx, hv⟩ := Outcome.bind_eq_ok.mp hv
    rw [Node.spreads] at hw
    rw [Node.stage]
    refine (Term.stage_eval (of_decide_eq_true he) hscope hx hw).bind fun sx hsx => ?_
    exact Staged.lift_readField hsx hv
  | .index e key, span, names, role, env, scope, v, hrole, hscope, hv, hw => by
    obtain ⟨hab, rfl⟩ := Role.dataIf_eq_some.mp hrole
    simp only [Bool.and_eq_true, decide_eq_true_eq] at hab
    rw [Node.eval] at hv
    obtain ⟨x, hx, hv⟩ := Outcome.bind_eq_ok.mp hv
    obtain ⟨k, hk, hv⟩ := Outcome.bind_eq_ok.mp hv
    rw [Node.spreads, List.forall_mem_append] at hw
    rw [Node.stage]
    refine (Term.stage_eval hab.1 hscope hx hw.1).bind fun sx hsx => ?_
    refine (Term.stage_eval hab.2 hscope hk hw.2).bind fun sk hsk => ?_
    exact Staged.readIndex_knows ctx scope hsx hsk hv
  | .template parts, span, names, role, env, scope, v, hrole, hscope, hv, hw => by
    obtain ⟨hps, rfl⟩ := Role.dataIf_eq_some.mp hrole
    rw [Node.eval] at hv
    obtain ⟨text, htext, hv⟩ := Outcome.bind_eq_ok.mp hv
    obtain rfl := Except.ok.inj hv
    rw [Node.spreads] at hw
    rw [Node.stage]
    refine (Part.stage_evalList hps hscope htext hw).bind fun ss ⟨vs, hknow, hjoin⟩ => ?_
    simp only [Part.assemble, hknow.values?]
    exact .pure (hjoin ▸ Staged.knows_ofValue rfl)
  | .block statements result, span, names, role, env, scope, v, hrole, hscope, hv, hw => by
    rw [Node.role?] at hrole
    split at hrole
    · next inner hss =>
      obtain ⟨hresult, rfl⟩ := Role.dataIf_eq_some.mp hrole
      rw [Node.eval] at hv
      rw [Node.spreads] at hw
      rw [Node.stage]
      refine Statement.stage_evalList hss hscope (fun env' scope' hscope' hv' hw' => ?_) hv hw
      exact Term.stage_eval (of_decide_eq_true hresult) hscope' hv' hw'
    · cases hrole
  | .await _, _, _, _, _, _, _, hrole, _, _, _ | .throw _, _, _, _, _, _, _, hrole, _, _, _
  | .matchOn _ _, _, _, _, _, _, _, hrole, _, _, _ => by cases hrole
termination_by structural n => n

theorem Term.stage_evalList : ∀ {es : List Term} {names env scope vs}, Term.areData names es →
    Scope.Agrees names scope env → Term.evalList s env es = .ok vs →
    (∀ w ∈ Term.spreadsList s calls env es, w.isShort) →
    Proceeds depth (Term.stageList ctx scope es) fun ss => Staged.KnowAll ss vs
  | [], names, env, scope, vs, _, _, hv, _ => by
    obtain rfl := Except.ok.inj hv
    exact .pure .nil
  | e :: es, names, env, scope, vs, hes, hscope, hv, hw => by
    simp only [Term.areData, Bool.and_eq_true, decide_eq_true_eq] at hes
    rw [Term.evalList] at hv
    obtain ⟨x, hx, hv⟩ := Outcome.bind_eq_ok.mp hv
    obtain ⟨xs, hxs, hv⟩ := Outcome.bind_eq_ok.mp hv
    obtain rfl := Except.ok.inj hv
    rw [Term.spreadsList, List.forall_mem_append] at hw
    rw [Term.stageList]
    refine (Term.stage_eval hes.1 hscope hx hw.1).bind fun sx hsx => ?_
    refine (Term.stage_evalList hes.2 hscope hxs hw.2).bind fun sxs hsxs => ?_
    exact .pure (.cons hsx hsxs)
termination_by structural es => es

theorem Entry.stage_evalList : ∀ {es : List Entry} {names env scope acc fields},
    Entry.areData names es → Scope.Agrees names scope env →
    (Value.object acc).isData Builtin.isRegistered → Entry.evalList s env acc es = .ok fields →
    (∀ w ∈ Entry.spreads s calls env es, w.isShort) →
    Proceeds depth (Entry.stageList ctx scope es) fun ses =>
      (Value.object fields).isData Builtin.isRegistered ∧
        ∀ sacc, Staged.KnowFields sacc acc →
          ∃ sfields, StagedEntry.allFields? sacc ses = some sfields ∧
            Staged.KnowFields sfields fields
  | [], names, env, scope, acc, fields, _, _, hacc, hv, _ => by
    obtain rfl := Except.ok.inj hv
    exact .pure ⟨hacc, fun sacc hknow => ⟨sacc, rfl, hknow⟩⟩
  | .field name e :: es, names, env, scope, acc, fields, hes, hscope, hacc, hv, hw => by
    simp only [Entry.areData, Bool.and_eq_true, decide_eq_true_eq] at hes
    rw [Entry.evalList] at hv
    obtain ⟨x, hx, hv⟩ := Outcome.bind_eq_ok.mp hv
    rw [Entry.spreads, List.forall_mem_append] at hw
    rw [Entry.stageList]
    refine (Term.stage_eval hes.1 hscope hx hw.1).bind fun sx hsx => ?_
    refine (Entry.stage_evalList hes.2 hscope (Value.isData_put hacc hsx.1) hv hw.2).bind
      fun ses hses => .pure ⟨hses.1, fun sacc hknow => hses.2 _ (hknow.put hsx)⟩
  | .spread e :: es, names, env, scope, acc, fields, hes, hscope, hacc, hv, hw => by
    simp only [Entry.areData, Bool.and_eq_true, decide_eq_true_eq] at hes
    rw [Entry.evalList] at hv
    obtain ⟨x, hx, hv⟩ := Outcome.bind_eq_ok.mp hv
    obtain ⟨more, hmore, hv⟩ := Outcome.bind_eq_ok.mp hv
    obtain rfl : x = .object more := by
      cases x <;> simp_all [Value.spreadFields, fail]
    rw [Entry.spreads, List.forall_mem_append, List.forall_mem_append, hx] at hw
    obtain ⟨⟨hwe, hwx⟩, hwes⟩ := hw
    rw [Entry.stageList]
    refine (Term.stage_eval hes.1 hscope hx hwe).bind fun sx hsx => ?_
    refine (StagedEntry.ofSpread_proceeds hsx (hwx _ List.mem_cons_self)).bind fun part hpart => ?_
    have hdata := (Value.isData_object.mp hsx.1).2
    refine (Entry.stage_evalList hes.2 hscope (Value.isData_putAll hacc hdata) hv hwes).bind
      fun ses hses => .pure ⟨hses.1, fun sacc hknow => ?_⟩
    obtain ⟨_, _, rfl⟩ := hsx
    subst hpart
    exact hses.2 _ (hknow.putAll (Staged.knowFields_ofValue hdata))
termination_by structural es => es

theorem Item.stage_evalList : ∀ {es : List Item} {names env scope vs}, Item.areData names es →
    Scope.Agrees names scope env → Item.evalList s env es = .ok vs →
    (∀ w ∈ Item.spreads s calls env es, w.isShort) →
    Proceeds depth (Item.stageList ctx scope es) fun sis =>
      ∃ parts, sis.mapM StagedItem.items? = some parts ∧ Staged.KnowAll parts.flatten vs
  | [], names, env, scope, vs, _, _, hv, _ => by
    obtain rfl := Except.ok.inj hv
    exact .pure ⟨[], rfl, .nil⟩
  | .item e :: es, names, env, scope, vs, hes, hscope, hv, hw => by
    simp only [Item.areData, Bool.and_eq_true, decide_eq_true_eq] at hes
    rw [Item.evalList] at hv
    obtain ⟨x, hx, hv⟩ := Outcome.bind_eq_ok.mp hv
    obtain ⟨xs, hxs, hv⟩ := Outcome.bind_eq_ok.mp hv
    obtain rfl := Except.ok.inj hv
    rw [Item.spreads, List.forall_mem_append] at hw
    rw [Item.stageList]
    refine (Term.stage_eval hes.1 hscope hx hw.1).bind fun sx hsx => ?_
    refine (Item.stage_evalList hes.2 hscope hxs hw.2).bind fun sis ⟨parts, hparts, hknow⟩ => ?_
    exact .pure ⟨[sx] :: parts, by simp [StagedItem.items?, hparts], .cons hsx hknow⟩
  | .spread e :: es, names, env, scope, vs, hes, hscope, hv, hw => by
    simp only [Item.areData, Bool.and_eq_true, decide_eq_true_eq] at hes
    rw [Item.evalList] at hv
    obtain ⟨x, hx, hv⟩ := Outcome.bind_eq_ok.mp hv
    obtain ⟨more, hmore, hv⟩ := Outcome.bind_eq_ok.mp hv
    obtain ⟨xs, hxs, hv⟩ := Outcome.bind_eq_ok.mp hv
    obtain rfl := Except.ok.inj hv
    obtain rfl : x = .array more := by
      cases x <;> simp_all [Value.spreadItems, fail]
    rw [Item.spreads, List.forall_mem_append, List.forall_mem_append, hx] at hw
    obtain ⟨⟨hwe, hwx⟩, hwes⟩ := hw
    rw [Item.stageList]
    refine (Term.stage_eval hes.1 hscope hx hwe).bind fun sx hsx => ?_
    refine (StagedItem.ofSpread_proceeds hsx (hwx _ List.mem_cons_self)).bind fun part hpart => ?_
    refine (Item.stage_evalList hes.2 hscope hxs hwes).bind fun sis ⟨parts, hparts, hknow⟩ => ?_
    obtain ⟨hdata, _, rfl⟩ := hsx
    subst hpart
    refine .pure ⟨more.map Staged.ofValue :: parts, by simp [StagedItem.items?, hparts], ?_⟩
    exact List.rel_append (Staged.knowAll_ofValue (Value.isData_array.mp hdata)) hknow
termination_by structural es => es

theorem Part.stage_evalList : ∀ {es : List Part} {names env scope text}, Part.areData names es →
    Scope.Agrees names scope env → Part.evalList s env es = .ok text →
    (∀ w ∈ Part.spreads s calls env es, w.isShort) →
    Proceeds depth (Part.stageList ctx scope es) fun ss =>
      ∃ vs, Staged.KnowAll ss vs ∧ Text.join "" (vs.map Value.text) = text
  | [], names, env, scope, text, _, _, hv, _ => by
    obtain rfl := Except.ok.inj hv
    exact .pure ⟨[], .nil, rfl⟩
  | .text t :: es, names, env, scope, text, hes, hscope, hv, hw => by
    rw [Part.areData] at hes
    rw [Part.evalList] at hv
    obtain ⟨rest, hrest, hv⟩ := Outcome.bind_eq_ok.mp hv
    obtain rfl := Except.ok.inj hv
    rw [Part.spreads] at hw
    rw [Part.stageList]
    refine (Part.stage_evalList hes hscope hrest hw).bind fun ss ⟨vs, hknow, hjoin⟩ => ?_
    refine .pure ⟨.string t :: vs, .cons (Staged.knows_ofValue rfl) hknow, ?_⟩
    rw [List.map_cons, Text.join_cons, hjoin, Value.text]
  | .interp e :: es, names, env, scope, text, hes, hscope, hv, hw => by
    simp only [Part.areData, Bool.and_eq_true, decide_eq_true_eq] at hes
    rw [Part.evalList] at hv
    obtain ⟨x, hx, hv⟩ := Outcome.bind_eq_ok.mp hv
    obtain ⟨rest, hrest, hv⟩ := Outcome.bind_eq_ok.mp hv
    obtain rfl := Except.ok.inj hv
    rw [Part.spreads, List.forall_mem_append] at hw
    rw [Part.stageList]
    refine (Term.stage_eval hes.1 hscope hx hw.1).bind fun sx hsx => ?_
    refine (Part.stage_evalList hes.2 hscope hrest hw.2).bind fun ss ⟨vs, hknow, hjoin⟩ => ?_
    refine .pure ⟨x :: vs, .cons hsx hknow, ?_⟩
    rw [List.map_cons, Text.join_cons, hjoin]
termination_by structural es => es

theorem Statement.stage_evalList : ∀ {ss : List Statement} {names inner env scope v}
    {result : Environment → Outcome Value} {spreads : Environment → List Value}
    {sresult : Scope → Stage Staged},
    Statement.names? names ss = some inner → Scope.Agrees names scope env →
    (∀ env' scope', Scope.Agrees inner scope' env' → result env' = .ok v →
      (∀ w ∈ spreads env', w.isShort) → Computes depth (sresult scope') v) →
    Statement.evalList s env ss result = .ok v →
    (∀ w ∈ Statement.spreads s calls env ss spreads, w.isShort) →
    Computes depth (Statement.stageList ctx scope ss sresult) v
  | [], names, inner, env, scope, v, result, spreads, sresult, hnames, hscope, hresult, hv, hw => by
    obtain rfl := Option.some.inj hnames
    exact hresult env scope hscope hv hw
  | .bind p e :: ss, names, inner, env, scope, v, result, spreads, sresult, hnames, hscope, hresult,
    hv, hw => by
    rw [Statement.names?] at hnames
    split at hnames
    · next middle hp =>
      obtain ⟨irole, hinit⟩ := Role.exists_of_bind?_eq_some hp
      rw [hinit] at hp
      rw [Statement.evalList] at hv
      obtain ⟨x, hx, hv⟩ := Outcome.bind_eq_ok.mp hv
      rw [Statement.spreads, hx, List.forall_mem_append] at hw
      rw [Statement.stageList]
      refine (Term.stage_eval hinit hscope hx hw.1).bind fun sx hsx => ?_
      obtain ⟨bindings, hmatch, hdes⟩ := Pattern.destructure_proceeds ctx s hp hscope hsx
      rw [hmatch] at hv
      rw [show (.ok x >>= p.matchIn s env) = .ok (some bindings) from hmatch] at hw
      refine hdes.bind fun r hr => ?_
      refine (Statement.stage_evalList hnames hr.1 hresult hv hw.2).bind fun t ht => ?_
      exact Pending.finishAll_closes hr.2 ctx ht
    · cases hnames
  | .eval e :: ss, names, inner, env, scope, v, result, spreads, sresult, hnames, hscope, hresult,
    hv, hw => by
    rw [Statement.names?] at hnames
    split_ifs at hnames with hcond
    simp only [Bool.and_eq_true, decide_eq_true_eq, Option.isNone_iff_eq_none] at hcond
    rw [Statement.evalList] at hv
    obtain ⟨x, hx, hv⟩ := Outcome.bind_eq_ok.mp hv
    rw [Statement.spreads, List.forall_mem_append] at hw
    rw [Statement.stageList]
    refine (Term.stage_eval hcond.1 hscope hx hw.1).bind fun sx hsx => ?_
    rw [hcond.2]
    refine (Statement.stage_evalList hnames hscope hresult hv hw.2).bind fun t ht => ?_
    exact Pending.closes_discard hsx ctx t v ht
  | .load _ _ :: _, _, _, _, _, _, _, _, _, hnames, _, _, _, _ => by cases hnames
termination_by structural ss => ss

end

end Terms

/-! ### Levels of calls -/

lemma Session.IsAt.recursesAtRuntime {depth : Nat} {s : Session} (h : s.IsAt depth) (id : Nat) :
    s.recursesAtRuntime id = false := by
  simp [Session.recursesAtRuntime, h.2]

section Levels

variable {depth id : Nat} {names : Role.Names} {scope : Scope} {env : Environment} {f : Lambda}
  {binding : Option Binding} {sargs : List Staged} {args : List Value} {v : Value}

lemma Scope.Agrees.ofCall (hscope : scope.Agrees names env) (hf : f.isFirstOrder names)
    (hargs : Staged.KnowAll sargs args) (site : Scope) :
    ((match f.name with
      | some name => (scope.withResidualOf site).bind name (.closure (.mk id f scope binding))
      | none => scope.withResidualOf site).bind argumentsName (.ofItems sargs)).Agrees
      ((argumentsName, Role.data) :: f.name.toList.map (fun name => (name, Role.function)) ++ names)
      ((argumentsName, Value.array args) ::
        f.name.toList.map (fun name => (name, Value.closure f env)) ++ env) := by
  have hsite : (scope.withResidualOf site).Agrees names env := hscope.withResidual _
  have hitems : Staged.Matches .data (.ofItems sargs) (.array args) := hargs.ofItems
  cases f.name with
  | none => exact hsite.bind hitems argumentsName
  | some name =>
    have hown : Staged.Matches .function (.closure (.mk id f scope binding)) (.closure f env) :=
      ⟨names, id, f, scope, env, binding, hscope, hf, rfl, rfl⟩
    exact (hsite.bind hown name).bind hitems argumentsName

lemma Lambda.isFirstOrder_iff : f.isFirstOrder names ↔
    f.params.all Param.isPlain ∧ f.body.role? (Role.inBody names f) = some .data := by
  cases f
  simp [Lambda.isFirstOrder, Lambda.params, Lambda.body]

lemma Param.name_ne_blankName {params : List Param} (h : params.all Param.isPlain) :
    ∀ name ∈ params.map Param.name, name ≠ blankName := by
  intro name hname
  obtain ⟨p, hp, rfl⟩ := List.mem_map.mp hname
  have hplain := List.all_eq_true.mp h p hp
  obtain ⟨name, type⟩ := p
  cases type <;> simp_all [Param.isPlain, Param.name]

def Context.EntersInto (depth : Nat) (ctx : Context) (s : Setting)
    (calls : Value → List Value → List Value) : Prop :=
  ∀ e names env scope v, Term.role? names e = some .data → Scope.Agrees names scope env →
    e.eval s env = .ok v → (∀ w ∈ e.spreads s calls env, w.isShort) →
      Computes depth (ctx.enter e scope) v

variable {ctx : Context} {s : Setting} {calls : Value → List Value → List Value}

lemma Context.invokeBody_invoke (henter : ctx.EntersInto depth s calls)
    (hscope : scope.Agrees names env) (hf : f.isFirstOrder names) (hargs : Staged.KnowAll sargs args)
    (hv : f.invoke s env args = .ok v)
    (hw : ∀ w ∈ f.body.spreads s calls (f.bodyEnvironment env args), w.isShort) (site : Scope) :
    Computes depth (ctx.invokeBody (.mk id f scope binding) sargs site) v := by
  obtain ⟨hplain, hbody⟩ := Lambda.isFirstOrder_iff.mp hf
  rw [Lambda.invoke_eq] at hv
  split_ifs at hv with harity
  · obtain ⟨_, _, hv⟩ := Outcome.bind_eq_ok.mp hv
    refine (bindParams_proceeds (Param.name_ne_blankName hplain)
      (hscope.ofCall hf hargs site) hargs).bind fun r hr => ?_
    have hlen : f.paramNames.length = args.length := by
      simpa [Lambda.paramNames, Lambda.arity] using harity.symm
    refine (henter _ _ _ _ _ hbody (hr.1 hlen) hv hw).bind fun t ht => ?_
    exact Pending.finishAll_closes hr.2 ctx ht
  · cases hv

lemma Context.invoke_call (henter : ctx.EntersInto (depth + 1) s calls)
    (hdepth : depth < ctx.options.maxCallDepth) (hscope : scope.Agrees names env)
    (hf : f.isFirstOrder names) (hargs : Staged.KnowAll sargs args)
    (hv : f.invoke s env args = .ok v)
    (hw : ∀ w ∈ f.body.spreads s calls (f.bodyEnvironment env args), w.isShort)
    (span : Option Span) (site : Scope) :
    Computes depth (ctx.invoke (.mk id f scope binding) sargs span site) v := by
  refine .get_bind fun session hs => ?_
  rw [if_pos (hs.1.symm ▸ hdepth)]
  refine .around (J := Session.IsAt (depth + 1)) ?_ ?_ ?_
  · rintro session ⟨rfl, hbranches⟩
    exact ⟨rfl, hbranches⟩
  · rintro session ⟨hd, hbranches⟩
    exact ⟨by simp [hd], hbranches⟩
  · exact .around (fun _ h => h) (fun _ h => h)
      (invokeBody_invoke henter hscope hf hargs hv hw site)

lemma Context.callClosure_call (henter : ctx.EntersInto (depth + 1) s calls)
    (hdepth : depth < ctx.options.maxCallDepth) (hscope : scope.Agrees names env)
    (hf : f.isFirstOrder names) (hargs : Staged.KnowAll sargs args)
    (hv : f.invoke s env args = .ok v)
    (hw : ∀ w ∈ f.body.spreads s calls (f.bodyEnvironment env args), w.isShort)
    (span : Option Span) (site : Scope) :
    Computes depth (ctx.callClosure (.mk id f scope binding) sargs span site) v := by
  have harity : sargs.length = f.arity := by
    by_contra hne
    rw [hargs.length_eq] at hne
    simp [Lambda.invoke, hne, fail] at hv
  have hcheck : Proceeds depth (ctx.checkArgs scope f.params sargs) (· = sargs) := by
    rw [ctx.checkArgs_of_isPlain scope (Lambda.isFirstOrder_iff.mp hf).1 harity]
    exact .pure rfl
  have hdefers : ∀ session : Session, session.IsAt depth →
      defers (.mk id f scope binding) f.sensitivity sargs session = false := by
    intro session hs
    rw [defers, if_pos hargs.all_isKnown, hs.recursesAtRuntime]
  unfold callClosure
  refine .bind (P := fun _ => True) ?_ fun _ _ => ?_
  · simp only [Stage.ensure, Closure.lambda, harity, beq_self_eq_true, if_true]
    exact .pure trivial
  · refine hcheck.bind ?_
    rintro _ rfl
    refine .get_bind fun session hs => ?_
    rw [Closure.lambda, hdefers session hs]
    exact invoke_call henter hdepth hscope hf hargs hv hw span site

lemma Context.options_ofLevels (options : Options) (imports : Imports) (levels : Nat) :
    (Context.ofLevels options imports levels).options = options := by
  cases levels <;> rfl

theorem Context.simulates_ofLevels (options : Options) (imports : Imports) (spare : Nat) :
    ∀ {more depth : Nat}, depth + more = options.maxCallDepth →
      (Context.ofLevels options imports (more + spare)).Simulates depth
        ⟨Value.applyWith (Lambda.call imports options.maxCallDepth more) maxNesting, imports⟩
        (Value.spreads imports options.maxCallDepth more) := by
  intro more
  induction more with
  | zero =>
    intro depth _
    refine ⟨fun span scope => applyNested_simulates _ span scope _,
      fun hb hargs hv span scope => callBuiltin_apply _ span scope hb hargs hv, ?_⟩
    rintro sf f sargs args v ⟨names, id, f, scope, env, binding, hscope, hf, rfl, rfl⟩ hargs hv
    cases hv
  | succ more ih =>
    intro depth hdepth
    refine ⟨fun span scope => applyNested_simulates _ span scope _,
      fun hb hargs hv span scope => callBuiltin_apply _ span scope hb hargs hv, ?_⟩
    rintro sf f sargs args v ⟨names, id, f, scope, env, binding, hscope, hf, rfl, rfl⟩ hargs hv hw
    intro span site
    rw [Nat.succ_add]
    rw [Value.spreads] at hw
    refine callClosure_call ?_ ?_ hscope hf hargs hv hw span site
    · intro e names env scope v hrole hscope hv hw
      exact Term.stage_eval (ih (by omega)) hrole hscope hv hw
    · rw [options_ofLevels]
      omega

end Levels

/-! ### Whole programs -/

lemma Registry.find?_builtin {name : String} (h : Builtin.isRegistered name) :
    Registry.find? name = some (.builtin name) := by
  obtain ⟨b, hb⟩ := Option.isSome_iff_exists.mp h
  obtain rfl : b.name = name := by simpa using List.find?_some hb
  have hall : ∀ b ∈ Builtin.all, Association.find? b.name constants = none := by decide
  rw [Registry.find?, hall b (List.mem_of_find?_eq_some hb), hb]
  rfl

lemma Session.isAt_start (e : Term) : (Session.start e).IsAt 0 := ⟨rfl, rfl⟩

lemma Term.run_of_ofValue? {v : Value} {e : Term} (hv : v.isData Builtin.isRegistered)
    (he : Term.ofValue? v = some e) (imports : Imports) (options : Options) :
    e.run imports options = .ok v := by
  obtain ⟨e', he', hrun⟩ := Term.eval_ofValue? hv
  obtain rfl : e' = e := Option.some.inj (he'.symm.trans he)
  refine hrun _ _ fun name hname => ?_
  simp [Environment.get, Association.find?, Registry.find?_builtin hname]

section Whole

variable {I : Session → Prop} {builtins : String → Bool} {v : Value}

lemma Staged.residualize_empty {E : Error → Prop} {s : Staged} (hvalue : s.value? = some v)
    (hv : v.isData builtins) (ctx : Context) :
    Yields I E (s.residualize ctx .empty) (Term.ofValue? v = some ·) := by
  obtain ⟨e, he, _⟩ := Term.eval_ofValue? hv
  cases s <;> simp only [Staged.value?, reduceCtorEq, Option.some.injEq] at hvalue
  next w c binding =>
    subst hvalue
    rw [Staged.residualize, he]
    cases binding with
    | none => exact .pure rfl
    | some binding =>
      have hvisible : Scope.empty.isVisible binding = false := rfl
      rw [Staged.byName, hvisible]
      exact .pure rfl

lemma Term.staged_of_stage {e : Term} {imports : Imports} {options : Options}
    (hstart : I (.start e))
    (hstage : Yields I (fun _ => False) (e.stage (.ofOptions options imports) .empty) fun s =>
      s.value? = some v ∧ v.isData builtins) :
    ∃ p, e.staged imports options = .ok p ∧ p.value? = some v ∧ v.isData builtins ∧
      Term.ofValue? v = some p.residual := by
  have hwhole : Yields I (fun _ => False) (e.stageWhole (.ofOptions options imports)) fun r =>
      r.1.value? = some v ∧ v.isData builtins ∧ Term.ofValue? v = some r.2 :=
    hstage.bind fun s hs => (Staged.residualize_empty hs.1 hs.2 _).bind fun residual hr =>
      .pure ⟨hs.1, hs.2, hr⟩
  have hresult := hwhole (.start e) hstart
  unfold Term.staged
  cases hr : e.stageWhole (.ofOptions options imports) (.start e) with
  | ok r session =>
    rw [hr] at hresult
    exact ⟨_, rfl, hresult.1⟩
  | error error session =>
    rw [hr] at hresult
    exact hresult.elim

end Whole

/-- Staging a first-order program without runtime inputs gives the value that it evaluates to, and
the residual program has that value again. The arrays in what is spread are shorter than `2 ^ 53`:
the length of a longer one is no exact number, so that its description may contradict itself. -/
theorem Term.staged_of_run {e : Term} {imports : Imports} {options : Options} {v : Value}
    (h : e.isFirstOrder) (hrun : e.run imports options = .ok v)
    (hw : ∀ w ∈ e.spreadIn imports options, w.isShort) :
    ∃ p, e.staged imports options = .ok p ∧ p.value? = some v ∧
      ∀ imports options, p.residual.run imports options = .ok v := by
  have hcalls := Context.simulates_ofLevels options imports entryAllowance
    (Nat.zero_add options.maxCallDepth)
  have hstage : Proceeds 0 (e.stage (.ofOptions options imports) .empty) (Staged.Knows v) :=
    Term.stage_eval hcalls (of_decide_eq_true h) .empty hrun hw
  obtain ⟨p, hp, hvalue, hv, hresidual⟩ := Term.staged_of_stage (Session.isAt_start e)
    (hstage.mono fun _ hs => ⟨hs.value?, hs.1⟩)
  exact ⟨p, hp, hvalue, Term.run_of_ofValue? hv hresidual⟩

/-- The program `let down = fn down(n) { if n == 0 then [] else [n, ...down(n - 1)] } in down(2)`. -/
def Term.countdown : Term :=
  .letIn (.binding "down")
    (.lambda (.untyped 0 (some "down") ["n"]
      (.ifElse (.binary .eq (.var "n") (.number (.ofNat 0))) (.array [])
        (.array [.item (.var "n"),
          .spread (.callNamed "down" [.binary .sub (.var "n") (.number (.ofNat 1))])]))))
    (.callNamed "down" [.number (.ofNat 2)])

theorem Term.staged_countdown :
    Term.countdown.spreadIn [] {} = [.array [], .array [.ofNat 1]] ∧
      ∃ p, Term.countdown.staged [] {} = .ok p ∧
        p.value? = some (.array [.ofNat 2, .ofNat 1]) ∧
        ∀ imports options, p.residual.run imports options = .ok (.array [.ofNat 2, .ofNat 1]) := by
  have hspread : Term.countdown.spreadIn [] {} = [.array [], .array [.ofNat 1]] := rfl
  refine ⟨hspread, Term.staged_of_run (by decide) rfl ?_⟩
  rw [hspread]
  decide

/-- The program `{ let assert = fn(x) { 1 }; let y = { a: 1 }; assert(isArray(y)); { ...y } }`. -/
def Term.rebindsAssert : Term :=
  .block [.bind (.binding "assert") (.lambda (.untyped 0 none ["x"] (.number (.ofNat 1)))),
      .bind (.binding "y") (.object [.field "a" (.number (.ofNat 1))]),
      .eval (.callNamed "assert" [.callNamed "isArray" [.var "y"]])]
    (.object [.spread (.var "y")])

/-- A statement that calls the program's own `assert` is evaluated like any call, but staging takes
it for an assertion: it believes that `y` is an array and refuses to spread it. -/
theorem Term.staged_rebindsAssert :
    Term.rebindsAssert.run [] {} = .ok (.object [("a", .ofNat 1)]) ∧
      (Term.rebindsAssert.staged [] {}).isOk = false :=
  ⟨rfl, by decide +kernel⟩

end Stagewise
