import Stagewise.Proofs.FirstOrder
import Stagewise.Proofs.Portrait
import Stagewise.Proofs.Step
import Stagewise.Staging.Program

/-! Staging with known values. What is known of a result is the value itself; builtin functions
are run, and bindings are closed again without a trace. -/

set_option autoImplicit false

namespace Stagewise

def Session.IsAt (depth : Nat) (s : Session) : Prop := s.depth = depth ∧ s.runtimeBranches = 0

abbrev Stage.Proceeds {α : Type} (depth : Nat) (step : Stage α) (P : α → Prop) : Prop :=
  Stage.Yields (Session.IsAt depth) (fun _ => False) step P

abbrev Stage.Computes (depth : Nat) (step : Stage Staged) (v : Value) : Prop :=
  Stage.Proceeds depth step (Staged.Knows v)

open Stage

abbrev Staged.KnowAll (ss : List Staged) (vs : List Value) : Prop :=
  List.Forall₂ (fun s v => s.Knows v) ss vs

namespace Staged

variable {s : Staged} {v : Value} {ss : List Staged} {vs : List Value}

lemma knows_ofValue (h : v.isData Builtin.isRegistered) : (ofValue v).Knows v := ⟨h, none, rfl⟩

lemma Knows.value? (h : s.Knows v) : s.value? = some v := by
  obtain ⟨_, _, rfl⟩ := h
  rfl

lemma Knows.constraint (h : s.Knows v) : s.constraint = .ofValue v := by
  obtain ⟨_, _, rfl⟩ := h
  rfl

lemma Knows.isNow (h : s.Knows v) : s.isNow := by
  obtain ⟨_, _, rfl⟩ := h
  rfl

lemma Knows.isKnown (h : s.Knows v) : s.isKnown := by
  obtain ⟨_, _, rfl⟩ := h
  rfl

lemma Knows.clearBinding (h : s.Knows v) (id : Nat) : (s.clearBinding id).Knows v := by
  obtain ⟨hv, binding, rfl⟩ := h
  exact ⟨hv, _, rfl⟩

lemma KnowAll.values? (h : KnowAll ss vs) : values? ss = some vs := by
  induction h with
  | nil => rfl
  | cons h _ ih =>
    obtain ⟨_, _, rfl⟩ := h
    simp [Staged.values?, ih]

lemma KnowAll.constraints (h : KnowAll ss vs) :
    ss.map Staged.constraint = vs.map Constraint.ofValue := by
  induction h with
  | nil => rfl
  | cons h _ ih => rw [List.map_cons, List.map_cons, h.constraint, ih]

lemma KnowAll.all_isKnown (h : KnowAll ss vs) : ss.all isKnown := by
  induction h with
  | nil => rfl
  | cons h _ ih => rw [List.all_cons, h.isKnown, ih]; rfl

lemma KnowAll.isData (h : KnowAll ss vs) : ∀ v ∈ vs, v.isData Builtin.isRegistered := by
  induction h with
  | nil => simp
  | cons h _ ih => exact List.forall_mem_cons.mpr ⟨h.1, ih⟩

lemma knowAll_ofValue (h : ∀ v ∈ vs, v.isData Builtin.isRegistered) :
    KnowAll (vs.map ofValue) vs := by
  induction vs with
  | nil => exact .nil
  | cons v vs ih =>
    rw [List.forall_mem_cons] at h
    exact .cons (knows_ofValue h.1) (ih h.2)

lemma KnowAll.ofItems (h : KnowAll ss vs) : (ofItems ss).Knows (.array vs) := by
  simp only [Staged.ofItems, h.values?]
  exact knows_ofValue (Value.isData_array.mpr h.isData)

lemma Knows.items? (h : s.Knows (.array vs)) :
    ∃ items, s.items? = some items ∧ KnowAll items vs := by
  obtain ⟨hv, _, rfl⟩ := h
  exact ⟨_, rfl, knowAll_ofValue (Value.isData_array.mp hv)⟩

end Staged

/-! ### Builtin functions -/

def ApplyStaged.Simulates (depth : Nat) (staged : ApplyStaged) (apply : Apply) : Prop :=
  ∀ {sf sargs f args v}, Staged.Knows f sf → Staged.KnowAll sargs args → apply f args = .ok v →
    Computes depth (staged sf sargs) v

def Apply.CallsBuiltins (apply : Apply) : Prop :=
  ∀ f args v, f.isData Builtin.isRegistered → apply f args = .ok v → ∃ name, f = .builtin name

namespace Builtin

variable {depth : Nat} {staged : ApplyStaged} {apply apply' : Apply} {sf : Staged} {f : Value}
  {sitems sargs : List Staged} {items args : List Value}

lemma stageMap_mapItems (hsim : staged.Simulates depth apply) (hf : sf.Knows f)
    (hitems : Staged.KnowAll sitems items) {results : List Value}
    (h : mapItems apply f items = .ok results) :
    Proceeds depth (stageMap staged sf sitems)
      fun r => ∃ sresults, r = some sresults ∧ Staged.KnowAll sresults results := by
  induction hitems generalizing results with
  | nil =>
    obtain rfl := Except.ok.inj h
    exact .pure ⟨[], rfl, .nil⟩
  | cons hv _ ih =>
    obtain ⟨r, hr, h⟩ := Outcome.bind_eq_ok.mp h
    obtain ⟨rs, hrs, h⟩ := Outcome.bind_eq_ok.mp h
    obtain rfl := Except.ok.inj h
    refine (hsim hf (.cons hv .nil) hr).bind fun s hs => ?_
    rw [if_pos hs.isNow]
    refine (ih hrs).bind fun r hr => ?_
    obtain ⟨ss, rfl, hss⟩ := hr
    exact .pure ⟨_, rfl, .cons hs hss⟩

lemma stageFilter_filterItems (hsim : staged.Simulates depth apply) (hf : sf.Knows f)
    (hitems : Staged.KnowAll sitems items) {results : List Value}
    (h : filterItems apply f items = .ok results) :
    Proceeds depth (stageFilter staged sf sitems)
      fun r => ∃ sresults, r = some sresults ∧ Staged.KnowAll sresults results := by
  induction hitems generalizing results with
  | nil =>
    obtain rfl := Except.ok.inj h
    exact .pure ⟨[], rfl, .nil⟩
  | cons hv _ ih =>
    obtain ⟨r, hr, h⟩ := Outcome.bind_eq_ok.mp h
    refine (hsim hf (.cons hv .nil) hr).bind fun s hs => ?_
    rw [hs.value?]
    split at h
    · obtain ⟨rs, hrs, h⟩ := Outcome.bind_eq_ok.mp h
      obtain rfl := Except.ok.inj h
      refine (ih hrs).bind fun r hr => ?_
      obtain ⟨ss, rfl, hss⟩ := hr
      exact .pure ⟨_, rfl, .cons hv hss⟩
    · exact ih h
    · cases h

lemma stageFold_foldItems (hsim : staged.Simulates depth apply) (hf : sf.Knows f)
    (hitems : Staged.KnowAll sitems items) {sacc : Staged} {acc v : Value} (hacc : sacc.Knows acc)
    (h : foldItems apply f acc items = .ok v) :
    Proceeds depth (stageFold staged sf sacc sitems) fun r => ∃ s, r = some s ∧ s.Knows v := by
  induction hitems generalizing sacc acc with
  | nil =>
    obtain rfl := Except.ok.inj h
    exact .pure ⟨sacc, rfl, hacc⟩
  | cons hv _ ih =>
    obtain ⟨r, hr, h⟩ := Outcome.bind_eq_ok.mp h
    refine (hsim hf (.cons hacc (.cons hv .nil)) hr).bind fun s hs => ?_
    rw [if_pos hs.isNow]
    exact ih hs h

lemma stageType_buildType (hsim : staged.Simulates depth apply) (hf : sf.Knows f) {v : Value}
    (h : buildType apply f = .ok v) : Computes depth (stageType staged sf) v := by
  obtain ⟨hd, binding, rfl⟩ := hf
  have hv : v.isData isRegistered := isData_buildType h
  have hbuild : buildType apply f =
      apply f [.type (.ref (selfName none))] >>= closeType (selfName none) := by
    cases f <;> first | rfl | simp [Value.isData] at hd
  rw [hbuild] at h
  obtain ⟨r, hr, h⟩ := Outcome.bind_eq_ok.mp h
  have harg := Staged.knows_ofValue (v := .type (.ref (selfName none))) rfl
  refine (hsim ⟨hd, binding, rfl⟩ (.cons harg .nil) hr).bind fun s hs => ?_
  rw [hs.value?]
  exact .lift_bind h (.pure (Staged.knows_ofValue hv))

lemma isCallable_of_apply (hcalls : apply.CallsBuiltins) (hf : sf.Knows f) {v : Value}
    (h : apply f args = .ok v) : sf.isCallable := by
  obtain ⟨hd, binding, rfl⟩ := hf
  obtain ⟨name, rfl⟩ := hcalls _ _ _ hd h
  rfl

lemma run_of_not_isHigherOrder {b : Builtin} (h : b.isHigherOrder = false) :
    b.run apply args = b.run apply' args := by
  cases b <;> first | rfl | simp [isHigherOrder] at h

lemma stageHigherOrder_of_not_isHigherOrder {b : Builtin} (h : b.isHigherOrder = false) :
    b.stageHigherOrder staged sargs = pure none := by
  cases b <;> first | rfl | simp [isHigherOrder] at h

def Settles (b : Builtin) (args : List Value) (v : Value) : Option Staged → Prop
  | some s => s.Knows v
  | none => ∀ apply', b.run apply' args = .ok v

variable {sr si : Staged} {r i v : Value}

lemma run_map_eq_ok : run apply map [r, f] = .ok v ↔
    ∃ items results, r = .array items ∧ mapItems apply f items = .ok results ∧
      v = .array results := by
  cases r <;> simp [run, arg, arrayArg, fail, bind, Except.bind, pure, Except.pure]
  next items => cases mapItems apply f items <;> simp [eq_comm]

lemma run_filter_eq_ok : run apply filter [r, f] = .ok v ↔
    ∃ items results, r = .array items ∧ filterItems apply f items = .ok results ∧
      v = .array results := by
  cases r <;> simp [run, arg, arrayArg, fail, bind, Except.bind, pure, Except.pure]
  next items => cases filterItems apply f items <;> simp [eq_comm]

lemma run_fold_eq_ok : run apply fold [r, i, f] = .ok v ↔
    ∃ items, r = .array items ∧ foldItems apply f i items = .ok v := by
  cases r <;> simp [run, arg, arrayArg, fail, bind, Except.bind, pure, Except.pure]

lemma stageHigherOrder_map (hsim : staged.Simulates depth apply) (hcalls : apply.CallsBuiltins)
    (hr : sr.Knows r) (hf : sf.Knows f) (h : run apply map [r, f] = .ok v) :
    Proceeds depth (map.stageHigherOrder staged [sr, sf]) (Settles map [r, f] v) := by
  obtain ⟨items, results, rfl, hm, rfl⟩ := run_map_eq_ok.mp h
  obtain ⟨sitems, hs, hitems⟩ := hr.items?
  simp only [stageHigherOrder, hs]
  split_ifs with hc
  · refine (stageMap_mapItems hsim hf hitems hm).bind fun r hr => ?_
    obtain ⟨ss, rfl, hss⟩ := hr
    exact .pure hss.ofItems
  · cases items with
    | nil => exact .pure fun apply' => run_map_eq_ok.mpr ⟨[], results, rfl, hm, rfl⟩
    | cons w items =>
      obtain ⟨x, hx, _⟩ := Outcome.bind_eq_ok.mp hm
      exact absurd (isCallable_of_apply hcalls hf hx) hc

lemma stageHigherOrder_filter (hsim : staged.Simulates depth apply)
    (hcalls : apply.CallsBuiltins) (hr : sr.Knows r) (hf : sf.Knows f)
    (h : run apply filter [r, f] = .ok v) :
    Proceeds depth (filter.stageHigherOrder staged [sr, sf]) (Settles filter [r, f] v) := by
  obtain ⟨items, results, rfl, hm, rfl⟩ := run_filter_eq_ok.mp h
  obtain ⟨sitems, hs, hitems⟩ := hr.items?
  simp only [stageHigherOrder, hs]
  split_ifs with hc
  · refine (stageFilter_filterItems hsim hf hitems hm).bind fun r hr => ?_
    obtain ⟨ss, rfl, hss⟩ := hr
    exact .pure hss.ofItems
  · cases items with
    | nil => exact .pure fun apply' => run_filter_eq_ok.mpr ⟨[], results, rfl, hm, rfl⟩
    | cons w items =>
      obtain ⟨x, hx, _⟩ := Outcome.bind_eq_ok.mp hm
      exact absurd (isCallable_of_apply hcalls hf hx) hc

lemma stageHigherOrder_fold (hsim : staged.Simulates depth apply) (hcalls : apply.CallsBuiltins)
    (hr : sr.Knows r) (hi : si.Knows i) (hf : sf.Knows f) (h : run apply fold [r, i, f] = .ok v) :
    Proceeds depth (fold.stageHigherOrder staged [sr, si, sf]) (Settles fold [r, i, f] v) := by
  obtain ⟨items, rfl, hm⟩ := run_fold_eq_ok.mp h
  obtain ⟨sitems, hs, hitems⟩ := hr.items?
  simp only [stageHigherOrder, hs]
  split_ifs with hc
  · exact (stageFold_foldItems hsim hf hitems hi hm).mono fun r ⟨s, hr, hs⟩ => hr ▸ hs
  · cases items with
    | nil => exact .pure fun apply' => run_fold_eq_ok.mpr ⟨[], rfl, hm⟩
    | cons w items =>
      obtain ⟨x, hx, _⟩ := Outcome.bind_eq_ok.mp hm
      exact absurd (isCallable_of_apply hcalls hf hx) hc

lemma stageHigherOrder_run (hsim : staged.Simulates depth apply) (hcalls : apply.CallsBuiltins)
    (hargs : Staged.KnowAll sargs args) {b : Builtin} (hcount : args.length = b.arity)
    (h : b.run apply args = .ok v) :
    Proceeds depth (b.stageHigherOrder staged sargs) (Settles b args v) := by
  by_cases hb : b.isHigherOrder
  · cases b <;> simp only [isHigherOrder, Bool.false_eq_true] at hb
    case map =>
      obtain ⟨r, f, rfl⟩ := List.length_eq_two.mp hcount
      obtain _ | ⟨hr, _ | ⟨hf, _ | _⟩⟩ := hargs
      exact stageHigherOrder_map hsim hcalls hr hf h
    case filter =>
      obtain ⟨r, f, rfl⟩ := List.length_eq_two.mp hcount
      obtain _ | ⟨hr, _ | ⟨hf, _ | _⟩⟩ := hargs
      exact stageHigherOrder_filter hsim hcalls hr hf h
    case fold =>
      obtain ⟨r, i, f, rfl⟩ := List.length_eq_three.mp hcount
      obtain _ | ⟨hr, _ | ⟨hi, _ | ⟨hf, _ | _⟩⟩⟩ := hargs
      exact stageHigherOrder_fold hsim hcalls hr hi hf h
    case recType =>
      obtain ⟨f, rfl⟩ := List.length_eq_one_iff.mp hcount
      obtain _ | ⟨hf, _ | _⟩ := hargs
      exact (stageType_buildType hsim hf h).bind fun s hs => .pure hs
  · rw [stageHigherOrder_of_not_isHigherOrder (by simpa using hb)]
    exact .pure fun apply' => (run_of_not_isHigherOrder (by simpa using hb)).trans h

lemma stage_run (hsim : staged.Simulates depth apply) (hcalls : apply.CallsBuiltins)
    (hkeeps : KeepsData isRegistered apply) (hargs : Staged.KnowAll sargs args) {b : Builtin}
    (hcheck : b.checkArgs (args.map Constraint.ofValue) = .ok ()) (h : b.run apply args = .ok v)
    (ctx : Context) (span : Option Span) (scope : Scope) :
    Computes depth (b.stage ctx staged span scope sargs) v := by
  have hcount : args.length = b.arity := by
    by_contra hne
    simp [checkArgs, hne, fail] at hcheck
  have hv := isData_run hkeeps hargs.isData h
  unfold stage
  rw [hargs.constraints]
  refine .lift_bind hcheck ?_
  rw [hargs.all_isKnown, Bool.not_true, Bool.and_false, if_neg (by simp)]
  refine (stageHigherOrder_run hsim hcalls hargs hcount h).bind fun r hr => ?_
  cases r with
  | some s => exact .pure hr
  | none =>
    rw [hargs.values?]
    refine .map (.mapError (.lift (P := (· = v)) ?_ ?_) fun _ h => h) ?_
    · exact fun w hw => Except.ok.inj (hw.symm.trans (hr _))
    · exact fun e he => by cases he.symm.trans (hr _)
    · rintro w rfl
      exact Staged.knows_ofValue hv

end Builtin

/-! ### Calls -/

lemma Builtin.ofName?_name {b : Builtin} (h : b ∈ Builtin.all) :
    Builtin.ofName? b.name = some b := by
  have hall : ∀ b ∈ Builtin.all, Builtin.ofName? b.name = some b := by decide
  exact hall b h

namespace Value

variable {call : Lambda → Environment → List Value → Outcome Value}

lemma callsBuiltins_applyWith (nesting : Nat) : (applyWith call nesting).CallsBuiltins := by
  intro f args v hf h
  cases f <;> cases nesting <;> simp_all [applyWith, fail, isData]

lemma keepsData_applyWith (nesting : Nat) :
    Builtin.KeepsData Builtin.isRegistered (applyWith call nesting) := by
  induction nesting with
  | zero =>
    intro f args v hf _ h
    obtain ⟨name, rfl⟩ := callsBuiltins_applyWith 0 f args v hf h
    simp [applyWith, fail] at h
  | succ nesting ih =>
    intro f args v hf hargs h
    obtain ⟨name, rfl⟩ := callsBuiltins_applyWith (nesting + 1) f args v hf h
    rw [applyWith] at h
    split at h
    · cases h
    · obtain ⟨_, _, h⟩ := Outcome.bind_eq_ok.mp h
      exact Builtin.isData_run ih hargs h

end Value

namespace Context

variable {depth : Nat} {call : Lambda → Environment → List Value → Outcome Value}
  (ctx : Context) (span : Option Span) (scope : Scope)

lemma applyNested_simulates (nesting : Nat) :
    ApplyStaged.Simulates depth (ctx.applyNested span scope nesting)
      (Value.applyWith call nesting) := by
  induction nesting with
  | zero =>
    intro sf sargs f args v hf _ h
    obtain ⟨name, rfl⟩ := Value.callsBuiltins_applyWith 0 f args v hf.1 h
    simp [Value.applyWith, fail] at h
  | succ nesting ih =>
    intro sf sargs f args v hf hargs h
    obtain ⟨name, rfl⟩ := Value.callsBuiltins_applyWith (nesting + 1) f args v hf.1 h
    obtain ⟨_, binding, rfl⟩ := hf
    rw [Value.applyWith] at h
    rw [applyNested]
    cases hb : Builtin.ofName? name with
    | none => simp [hb, fail] at h
    | some b =>
      rw [hb] at h
      obtain ⟨_, hcheck, h⟩ := Outcome.bind_eq_ok.mp h
      exact Builtin.stage_run ih (Value.callsBuiltins_applyWith nesting)
        (Value.keepsData_applyWith nesting) hargs hcheck h ctx span scope

lemma callBuiltin_apply {b : Builtin} (hb : b ∈ Builtin.all) {sargs : List Staged}
    {args : List Value} {v : Value} (hargs : Staged.KnowAll sargs args)
    (h : Value.applyWith call maxNesting (.builtin b.name) args = .ok v) :
    Computes depth (ctx.callBuiltin span scope b sargs) v := by
  rw [maxNesting, Value.applyWith, Builtin.ofName?_name hb] at h
  obtain ⟨_, hcheck, h⟩ := Outcome.bind_eq_ok.mp h
  exact Builtin.stage_run (ctx.applyNested_simulates span scope _)
    (Value.callsBuiltins_applyWith _) (Value.keepsData_applyWith _) hargs hcheck h ctx span scope

end Context

/-! ### Bindings -/

def Pending.Closes (depth : Nat) (p : Pending) : Prop :=
  ∀ ctx s v, Staged.Knows v s → Computes depth (p.finish ctx s) v

namespace Pending

variable {depth : Nat} {names : Role.Names} {scope : Scope} {env : Environment} {role : Role}
  {s : Staged} {v : Value}

lemma closes_discard (hs : s.Matches role v) : (discard scope s).Closes depth := by
  intro ctx t w ht
  cases role with
  | data =>
    obtain ⟨_, _, rfl⟩ := hs
    exact .pure ht
  | function =>
    obtain ⟨_, _, _, _, _, _, _, _, rfl, _⟩ := hs
    exact .pure ht

lemma closes_compound (binding : Binding) (value bound : Staged) (inner outer : Scope) :
    (Pending.mk (.compound binding value) bound inner outer).Closes depth := by
  intro ctx t w ht
  simp only [finish, finishCompound, ht.isNow, Bool.true_or, if_true]
  exact .pure (ht.clearBinding binding.id)

lemma closes_definitions (binding : Binding) (bound : Staged) (inner outer : Scope) :
    (Pending.mk (.definitions binding) bound inner outer).Closes depth := by
  intro ctx t w ht
  simp only [finish, finishDefinitions, ht.isNow, Bool.or_true, if_true]
  refine .bind (P := fun _ => True) (.modifyGet fun s hs => ⟨trivial, hs⟩) fun _ _ => ?_
  exact .pure (ht.clearBinding binding.id)

lemma freshBinding_proceeds (base : String) (scope : Scope) :
    Proceeds depth (Stage.freshBinding base scope) fun _ => True := by
  refine .bind (P := fun _ => True) (.get_bind fun _ _ => .pure trivial) fun name _ => ?_
  exact .bind (P := fun _ => True) (.modifyGet fun s hs => ⟨trivial, hs⟩) fun _ _ => .pure trivial

lemma prepare_proceeds (hscope : scope.Agrees names env) (hs : s.Matches role v) {source : String}
    (hsource : source ≠ blankName) (hint : String) :
    Proceeds depth (prepare scope source hint s) fun p =>
      p.inner.Agrees ((source, role) :: names) ((source, v) :: env) ∧ p.Closes depth := by
  have hdirect : (direct scope source s).inner.Agrees ((source, role) :: names)
      ((source, v) :: env) ∧ (direct scope source s).Closes depth :=
    ⟨hscope.bind hs source, fun _ _ _ ht => .pure ht⟩
  unfold prepare
  rw [if_neg hsource]
  split_ifs with hvisible
  · exact .pure hdirect
  · cases role with
    | data =>
      obtain ⟨hv, old, rfl⟩ := hs
      simp only
      split_ifs with hcompound
      · refine (freshBinding_proceeds hint scope).bind fun binding _ => .pure ⟨?_, ?_⟩
        · have hs : (Staged.now v (.ofValue v) (some binding)).Matches .data v := ⟨hv, _, rfl⟩
          exact (hscope.bind hs source).bindResidual binding
        · exact closes_compound _ _ _ _ _
      · exact .pure hdirect
    | function =>
      obtain ⟨names', id, f, scope', env', old, hf, hl, rfl, rfl⟩ := hs
      refine (freshBinding_proceeds hint scope).bind fun binding _ => .pure ⟨?_, ?_⟩
      · have hs : (Staged.closure (.mk id f scope' (some binding))).Matches .function
            (.closure f env') := ⟨names', id, f, scope', env', some binding, hf, hl, rfl, rfl⟩
        exact (hscope.bind hs source).bindResidual binding
      · exact closes_definitions _ _ _ _

lemma finishAll_closes {ps : List Pending} (hps : ∀ p ∈ ps, p.Closes depth) (ctx : Context)
    (hs : s.Knows v) : Computes depth (finishAll ctx ps s) v := by
  induction ps with
  | nil => exact .pure hs
  | cons p ps ih =>
    rw [List.forall_mem_cons] at hps
    exact (ih hps.2).bind fun t ht => hps.1 ctx t v ht

end Pending

end Stagewise
