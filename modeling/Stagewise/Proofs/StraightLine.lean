import Stagewise.Proofs.Denotation
import Stagewise.Staging.Program

/-! Straight-line programs: operators, literals and bindings around runtime inputs. Staging such a
program keeps its meaning: the residual program, run with the values of the inputs, gives what the
program gives. -/

set_option autoImplicit false

namespace Stagewise

open Stage

/-! ### Values from parts -/

namespace Staged

variable {W : World} {Γ : List Frame} {v k : Staged} {w x : Value} {vs : List Staged}
  {ws : List Value} {fields : List (String × Staged)} {entries : List (String × Value)}

lemma denotes_ofValue (hw : w.isData (fun _ => false)) : (ofValue w).Denotes W Γ w :=
  ⟨rfl, hw, Γ, rfl⟩

lemma Denotes.eq_of_value? (h : v.Denotes W Γ w) (hx : v.value? = some x) : x = w := by
  cases v <;> simp only [value?, Option.some.injEq, reduceCtorEq] at hx
  exact hx ▸ h.1

lemma DenoteAll.eq_of_values? (h : DenoteAll W Γ vs ws) {xs : List Value}
    (hxs : values? vs = some xs) : xs = ws := by
  induction vs generalizing ws xs with
  | nil =>
    obtain rfl : ws = [] := h
    exact (Option.some.inj hxs).symm
  | cons v vs ih =>
    obtain ⟨w, ws, rfl, hv, h⟩ := h
    cases v <;> simp only [values?, reduceCtorEq] at hxs
    obtain ⟨xs, hrest, rfl⟩ := Option.map_eq_some_iff.mp hxs
    rw [ih h hrest, show _ = w from hv.1]

lemma DenoteFields.eq_of_fieldValues? (h : DenoteFields W Γ fields entries)
    {xs : List (String × Value)} (hxs : fieldValues? fields = some xs) : xs = entries := by
  induction fields generalizing entries xs with
  | nil =>
    obtain rfl : entries = [] := h
    exact (Option.some.inj hxs).symm
  | cons p fields ih =>
    obtain ⟨name, v⟩ := p
    obtain ⟨w, entries, rfl, hv, h⟩ := h
    cases v <;> simp only [fieldValues?, reduceCtorEq] at hxs
    obtain ⟨xs, hrest, rfl⟩ := Option.map_eq_some_iff.mp hxs
    rw [ih h hrest, show _ = w from hv.1]

lemma DenoteAll.ofItems (h : DenoteAll W Γ vs ws) : (ofItems vs).Denotes W Γ (.array ws) := by
  unfold Staged.ofItems
  split
  · next xs hxs =>
    obtain rfl := h.eq_of_values? hxs
    exact denotes_ofValue (Value.isData_array.mpr h.isData)
  · exact ⟨ws, Γ, rfl, rfl, h⟩

lemma DenoteFields.ofFields (h : DenoteFields W Γ fields entries)
    (hnodup : (Association.names entries).Nodup) :
    (ofFields fields).Denotes W Γ (.object entries) := by
  unfold Staged.ofFields
  split
  · next xs hxs =>
    obtain rfl := h.eq_of_fieldValues? hxs
    exact denotes_ofValue (Value.isData_object.mpr ⟨hnodup, h.isData⟩)
  · exact ⟨entries, Γ, rfl, rfl, hnodup, h⟩

lemma DenoteFields.put (h : DenoteFields W Γ fields entries) (hv : v.Denotes W Γ w)
    (name : String) :
    DenoteFields W Γ (Association.put name v fields) (Association.put name w entries) := by
  induction fields generalizing entries with
  | nil =>
    obtain rfl : entries = [] := h
    exact ⟨w, [], rfl, hv, rfl⟩
  | cons p fields ih =>
    obtain ⟨key, t⟩ := p
    obtain ⟨x, entries, rfl, ht, h⟩ := h
    simp only [Association.put]
    split_ifs
    · exact ⟨w, entries, rfl, hv, h⟩
    · exact ⟨x, _, rfl, ht, ih h⟩

/-! ### Parts of values -/

lemma DenoteFields.find? (h : DenoteFields W Γ fields entries) (name : String) :
    (∃ v w, Association.find? name fields = some v ∧ Association.find? name entries = some w ∧
        v.Denotes W Γ w) ∨
      Association.find? name fields = none ∧ Association.find? name entries = none := by
  induction fields generalizing entries with
  | nil =>
    obtain rfl : entries = [] := h
    exact Or.inr ⟨rfl, rfl⟩
  | cons p fields ih =>
    obtain ⟨key, t⟩ := p
    obtain ⟨x, entries, rfl, ht, h⟩ := h
    by_cases hkey : key = name
    · exact Or.inl ⟨t, x, by simp [Association.find?, hkey], by simp [Association.find?, hkey], ht⟩
    · simpa [Association.find?, hkey] using ih h

lemma DenoteAll.length_eq (h : DenoteAll W Γ vs ws) : vs.length = ws.length := by
  induction vs generalizing ws with
  | nil =>
    obtain rfl : ws = [] := h
    rfl
  | cons v vs ih =>
    obtain ⟨w, ws, rfl, _, h⟩ := h
    rw [List.length_cons, List.length_cons, ih h]

lemma DenoteAll.getElem? (h : DenoteAll W Γ vs ws) {i : Nat} (hv : vs[i]? = some v)
    (hw : ws[i]? = some w) : v.Denotes W Γ w := by
  induction vs generalizing ws i with
  | nil => simp at hv
  | cons t vs ih =>
    obtain ⟨x, ws, rfl, ht, h⟩ := h
    cases i with
    | zero =>
      obtain rfl := Option.some.inj hv
      obtain rfl := Option.some.inj hw
      exact ht
    | succ i => exact ih h hv hw

lemma denotes_later {es : List Term} {R : List Value → Value → Prop} {node : Node}
    (hnode : node.Strict es R) (hscoped : ∀ e ∈ es, e.Scoped (W.names Γ))
    (hes : Term.evalList W.setting (W.env Γ) es = .ok ws) (hR : R ws w)
    (hw : w.isData (fun _ => false)) (c : Constraint) : (later c (.of node)).Denotes W Γ w :=
  ⟨⟨.strict hnode hscoped, Term.eval_mk_eq_ok.mpr (hnode.eval_eq_ok.mpr ⟨ws, hes, hR⟩)⟩, hw⟩

lemma readField_denotes (hfresh : W.Fresh Γ) (hv : v.Denotes W Γ x) {name : String}
    (hw : x.readField name = .ok w) :
    Keeps W (Stage.lift (v.readField name)) fun r => r.Denotes W Γ w := by
  have hdata := Value.isData_readField hv.isData hw
  refine (Keeps.lift _).mono fun r hr => ?_
  cases v with
  | now y c b =>
    obtain rfl : y = x := hv.1
    rw [Staged.readField, hw] at hr
    exact Except.ok.inj hr ▸ denotes_ofValue hdata
  | later c e =>
    rw [Staged.readField] at hr
    obtain ⟨c', _, hr⟩ := Outcome.bind_eq_ok.mp hr
    obtain rfl := Except.ok.inj hr
    refine denotes_later .field (by simpa using hv.1.1) ?_ ⟨x, rfl, hw⟩ hdata c'
    exact Term.evalList_cons.mpr ⟨x, [], hv.1.2, Term.evalList_nil.mpr rfl, rfl⟩
  | array items b =>
    obtain ⟨ws, Δ, rfl, _, hitems⟩ := hv
    simp only [Staged.readField, Value.readField] at hr hw
    split_ifs at hr hw
    · obtain rfl := Except.ok.inj hr
      obtain rfl := Except.ok.inj hw
      rw [hitems.length_eq]
      exact denotes_ofValue hdata
    · cases hr
  | object fields b =>
    obtain ⟨ws, Δ, rfl, hreach, _, hfields⟩ := hv
    simp only [Staged.readField, Value.readField] at hr hw
    rcases hfields.find? name with ⟨t, y, ht, hy, hty⟩ | ⟨ht, _⟩
    · rw [ht] at hr
      rw [hy] at hw
      obtain rfl := Except.ok.inj hr
      obtain rfl := Except.ok.inj hw
      exact hty.weaken hfresh hreach.suffix
    · rw [ht] at hr
      cases hr
  | closure f => exact hv.elim

lemma indexLater_denotes (ctx : Context) {scope : Scope} (hres : scope.residual = W.residual Γ)
    (hfresh : W.Fresh Γ) (hv : v.Denotes W Γ x) {y : Value} (hk : k.Denotes W Γ y)
    (hw : x.readIndex y = .ok w) :
    Keeps W (indexLater ctx scope v k) fun r => r.Denotes W Γ w := by
  refine (Keeps.lift _).bind fun c _ => ?_
  refine (residualize_denotes ctx hres hfresh hv).bind fun e he => ?_
  refine (residualize_denotes ctx hres hfresh hk).bind fun e' he' => .pure ?_
  refine denotes_later .index (by simpa using ⟨he.1.1, he'.1.1⟩) ?_ ⟨x, y, rfl, hw⟩
    (Value.isData_readIndex hv.isData hw) c
  exact Term.evalList_cons.mpr ⟨x, [y], he.1.2,
    Term.evalList_cons.mpr ⟨y, [], he'.1.2, Term.evalList_nil.mpr rfl, rfl⟩, rfl⟩

lemma readIndex_denotes (ctx : Context) {scope : Scope} (hres : scope.residual = W.residual Γ)
    (hfresh : W.Fresh Γ) (hv : v.Denotes W Γ x) {y : Value} (hk : k.Denotes W Γ y)
    (hw : x.readIndex y = .ok w) :
    Keeps W (v.readIndex ctx scope k) fun r => r.Denotes W Γ w := by
  have hdata := Value.isData_readIndex hv.isData hw
  have hlater := indexLater_denotes ctx hres hfresh hv hk hw
  unfold Staged.readIndex
  split
  · next z c b key hkey =>
    obtain rfl := hk.eq_of_value? hkey
    obtain rfl : z = x := hv.1
    rw [hw]
    exact .pure (denotes_ofValue hdata)
  · next items b key hkey =>
    obtain rfl := hk.eq_of_value? hkey
    obtain ⟨ws, Δ, rfl, hreach, hitems⟩ := hv
    split
    · next item hitem =>
      obtain ⟨i, hi, hitem⟩ := Option.bind_eq_some_iff.mp hitem
      simp only [Value.readIndex, hi, Option.bind_some] at hw
      split at hw
      · next z hz =>
        obtain rfl := Except.ok.inj hw
        exact .pure ((hitems.getElem? hitem hz).weaken hfresh hreach.suffix)
      · cases hw
    · exact fun _ _ => trivial
  · next fields b name hkey =>
    obtain rfl := hk.eq_of_value? hkey
    refine readField_denotes hfresh hv ?_
    obtain ⟨ws, Δ, rfl, _⟩ := hv
    exact hw
  · exact hv.elim
  · exact hlater

end Staged

/-! ### Templates -/

namespace Part

lemma mergeTexts_interp (e : Term) (parts : List Part) :
    mergeTexts (.interp e :: parts) = .interp e :: mergeTexts parts := rfl

lemma terms_mergeTexts (parts : List Part) : terms (mergeTexts parts) = terms parts := by
  induction parts with
  | nil => rfl
  | cons part parts ih =>
    cases part with
    | text t =>
      rw [mergeTexts]
      split
      · next rest hrest => rw [terms, terms, ← ih, hrest, terms]
      · rw [terms, terms, ih]
    | interp e => rw [mergeTexts_interp, terms, terms, ih]

lemma fill_mergeTexts (parts : List Part) (vs : List Value) :
    fill (mergeTexts parts) vs = fill parts vs := by
  induction parts generalizing vs with
  | nil => rfl
  | cons part parts ih =>
    cases part with
    | text t =>
      rw [mergeTexts]
      split
      · next u rest hrest =>
        have hfill := ih vs
        rw [hrest, fill] at hfill
        rw [fill, fill, ← hfill, String.append_assoc]
      · rw [fill, fill, ih]
    | interp e =>
      rw [mergeTexts_interp]
      cases vs with
      | nil => rfl
      | cons v vs => rw [fill, fill, ih]

variable {W : World} {Γ : List Frame} {vs : List Staged} {ws : List Value}

lemma residualizeAll_denotes (ctx : Context) {scope : Scope}
    (hres : scope.residual = W.residual Γ) (hfresh : W.Fresh Γ)
    (h : Staged.DenoteAll W Γ vs ws) :
    Keeps W (residualizeAll ctx scope vs) fun parts =>
      (∀ e ∈ terms parts, e.Scoped (W.names Γ)) ∧
        ∃ xs, Term.evalList W.setting (W.env Γ) (terms parts) = .ok xs ∧
          fill parts xs = Text.join "" (ws.map Value.text) := by
  induction vs generalizing ws with
  | nil =>
    obtain rfl : ws = [] := h
    exact .pure ⟨by simp [terms], [], rfl, rfl⟩
  | cons v vs ih =>
    obtain ⟨w, ws, rfl, hv, h⟩ := h
    rw [residualizeAll, List.map_cons, Text.join_cons]
    split
    · next x hx =>
      obtain ⟨hx, _⟩ := Option.filter_eq_some_iff.mp hx
      obtain rfl := hv.eq_of_value? hx
      refine (ih h).bind fun parts hparts => .pure ?_
      obtain ⟨hscoped, xs, hxs, hfill⟩ := hparts
      exact ⟨hscoped, xs, hxs, by rw [fill, hfill]⟩
    · refine .bind (P := fun part => ∃ e, part = .interp e ∧ e.Denotes W Γ w) ?_ fun part hpart => ?_
      · exact (Staged.residualize_denotes ctx hres hfresh hv).map fun e he => ⟨e, rfl, he.1⟩
      · obtain ⟨e, rfl, he⟩ := hpart
        refine (ih h).bind fun parts hparts => .pure ?_
        obtain ⟨hscoped, xs, hxs, hfill⟩ := hparts
        refine ⟨List.forall_mem_cons.mpr ⟨he.1, hscoped⟩, w :: xs, ?_, by rw [fill, hfill]⟩
        exact Term.evalList_cons.mpr ⟨w, xs, he.2, hxs, rfl⟩

lemma assemble_denotes (ctx : Context) {scope : Scope} (hres : scope.residual = W.residual Γ)
    (hfresh : W.Fresh Γ) (h : Staged.DenoteAll W Γ vs ws) :
    Keeps W (assemble ctx scope vs) fun r =>
      r.Denotes W Γ (.string (Text.join "" (ws.map Value.text))) := by
  unfold assemble
  split
  · next xs hxs =>
    obtain rfl := h.eq_of_values? hxs
    exact .pure (Staged.denotes_ofValue rfl)
  · refine (residualizeAll_denotes ctx hres hfresh h).bind fun parts hparts => .pure ?_
    obtain ⟨hscoped, xs, hxs, hfill⟩ := hparts
    have hmerged : Term.evalList W.setting (W.env Γ) (terms (mergeTexts parts)) = .ok xs := by
      rwa [terms_mergeTexts]
    refine Staged.denotes_later .template ?_ hmerged ?_ rfl _
    · rwa [terms_mergeTexts]
    · rw [fill_mergeTexts, hfill]

end Part

/-! ### Programs -/

def Term.asText? (e : Term) : Option String :=
  match e.asLiteral? with
  | some (.string text) => some text
  | _ => none

def Pattern.isPlain : Pattern → Bool
  | .wildcard => true
  | .binding name => name ≠ blankName
  | _ => false

mutual

/-- A straight-line program with the names in `bound`: literals and values without functions,
names, operators that evaluate both sides, bindings of a wildcard or a name, objects, arrays,
fields, items, templates, and runtime inputs `runtime(e, "name")`. -/
def Term.isStraightLine (bound : List String) : Term → Bool
  | .mk node _ => node.isStraightLine bound
termination_by structural e => e

def Node.isStraightLine (bound : List String) : Node → Bool
  | .literal _ => true
  | .value v => v.isData fun _ => false
  | .var name => bound.contains name
  | .unary _ e => e.isStraightLine bound
  | .binary op a b => !op.isLogical && a.isStraightLine bound && b.isStraightLine bound
  | .letIn p init body =>
    p.isPlain && init.isStraightLine bound && body.isStraightLine (p.names ++ bound)
  | .call callee [e, input] =>
    callee.asVar? = some "runtime" && input.asText?.isSome && e.isStraightLine bound
  | .object entries => Entry.areStraightLine bound entries
  | .array items => Item.areStraightLine bound items
  | .field e _ => e.isStraightLine bound
  | .index e key => e.isStraightLine bound && key.isStraightLine bound
  | .template parts => Part.areStraightLine bound parts
  | _ => false
termination_by structural n => n

def Entry.areStraightLine (bound : List String) : List Entry → Bool
  | [] => true
  | .field _ e :: es => e.isStraightLine bound && Entry.areStraightLine bound es
  | .spread _ :: _ => false
termination_by structural es => es

def Item.areStraightLine (bound : List String) : List Item → Bool
  | [] => true
  | .item e :: es => e.isStraightLine bound && Item.areStraightLine bound es
  | .spread _ :: _ => false
termination_by structural es => es

def Part.areStraightLine (bound : List String) : List Part → Bool
  | [] => true
  | .text _ :: es => Part.areStraightLine bound es
  | .interp e :: es => e.isStraightLine bound && Part.areStraightLine bound es
termination_by structural es => es

end

mutual

def Term.inputs (s : Setting) (env : Environment) : Term → Bindings
  | .mk node _ => node.inputs s env
termination_by structural e => e

def Node.inputs (s : Setting) (env : Environment) : Node → Bindings
  | .unary _ e => e.inputs s env
  | .binary _ a b => a.inputs s env ++ b.inputs s env
  | .letIn p init body =>
    init.inputs s env ++
      match init.eval s env, p with
      | .ok v, .binding name => body.inputs s ((name, v) :: env)
      | _, _ => body.inputs s env
  | .call callee [e, input] =>
    e.inputs s env ++
      match callee.asVar?, e.eval s env, input.asText? with
      | some "runtime", .ok v, some name => [(name, v)]
      | _, _, _ => []
  | .object entries => Entry.inputs s env entries
  | .array items => Item.inputs s env items
  | .field e _ => e.inputs s env
  | .index e key => e.inputs s env ++ key.inputs s env
  | .template parts => Part.inputs s env parts
  | _ => []
termination_by structural n => n

def Entry.inputs (s : Setting) (env : Environment) : List Entry → Bindings
  | [] => []
  | .field _ e :: es | .spread e :: es => e.inputs s env ++ Entry.inputs s env es
termination_by structural es => es

def Item.inputs (s : Setting) (env : Environment) : List Item → Bindings
  | [] => []
  | .item e :: es | .spread e :: es => e.inputs s env ++ Item.inputs s env es
termination_by structural es => es

def Part.inputs (s : Setting) (env : Environment) : List Part → Bindings
  | [] => []
  | .text _ :: es => Part.inputs s env es
  | .interp e :: es => e.inputs s env ++ Part.inputs s env es
termination_by structural es => es

end

def World.Supplies (W : World) (inputs : Bindings) : Prop :=
  ∀ p ∈ inputs, p.1 ∈ W.reserved ∧ Association.find? p.1 W.inputs = some p.2

lemma World.supplies_append {W : World} {inputs more : Bindings} :
    W.Supplies (inputs ++ more) ↔ W.Supplies inputs ∧ W.Supplies more :=
  List.forall_mem_append

/-! ### Staging of programs -/

section Programs

variable {W : World} {ctx : Context}

lemma World.Fresh.find?_reserved {Γ : List Frame} {name : String} (h : W.Fresh Γ)
    (hname : name ∈ W.reserved) :
    Association.find? name (W.env Γ) = Association.find? name W.inputs :=
  h.agreeOn (List.nil_suffix) name (by simpa [World.names] using hname)

lemma Staged.asInput_denotes {Γ : List Frame} {v : Staged} {w : Value} {name : String}
    (hfresh : W.Fresh Γ) (hv : v.Denotes W Γ w) (hin : W.Supplies [(name, w)]) (e : Term) :
    Keeps W (v.asInput name e) fun r => r.Denotes W Γ w := by
  obtain ⟨hname, hfind⟩ := hin (name, w) List.mem_cons_self
  cases v <;> try exact fun _ _ => trivial
  refine .pure ⟨⟨.var (List.mem_append_right _ hname), Term.eval_mk_eq_ok.mpr ?_⟩, hv.isData⟩
  rw [Node.eval, Environment.get, hfresh.find?_reserved hname, hfind]

lemma Scope.Denotes.contains_eq {Γ : List Frame} {scope : Scope} {env : Environment}
    (h : scope.Denotes W Γ env) (name : String) :
    scope.contains name = Association.contains name env := by
  unfold Scope.contains Association.contains
  rcases h.values.find? name with ⟨v, w, hv, hw, _⟩ | ⟨hv, hw⟩ <;> simp [hv, hw]

lemma Node.not_contains_callee {name : String} {span : Option Span} {args : List Term}
    {env : Environment} {w : Value}
    (hcalls : ∀ f args v, f.isData (fun _ => false) → W.setting.apply f args ≠ .ok v)
    (hdata : ∀ p ∈ env, p.2.isData (fun _ => false))
    (hw : (Node.call (.mk (.var name) span) args).eval W.setting env = .ok w) :
    Association.contains name env = false := by
  by_contra hbound
  rw [Bool.not_eq_false] at hbound
  rw [Node.eval_call (by simp [Environment.form?, Term.asVar?, hbound]) (by simp)] at hw
  obtain ⟨f, hf, hw⟩ := Outcome.bind_eq_ok.mp hw
  obtain ⟨vs, _, hw⟩ := Outcome.bind_eq_ok.mp hw
  obtain ⟨x, hx⟩ := Option.isSome_iff_exists.mp hbound
  have hget := Term.eval_mk_eq_ok.mp hf
  rw [Node.eval, Environment.get, hx] at hget
  obtain rfl := Except.ok.inj hget
  exact hcalls x vs w (hdata _ (Association.mem_of_find?_eq_some hx)) hw

lemma Node.eval_runtime {s : Setting} {span : Option Span} {e input : Term} {env : Environment}
    (hform : Association.contains "runtime" env = false) :
    (Node.call (.mk (.var "runtime") span) [e, input]).eval s env = e.eval s env := by
  have hruntime : env.form? (.mk (.var "runtime") span) = some .runtime := by
    simp [Environment.form?, Term.asVar?, hform, Form.ofName?, Form.name]
  rw [Node.eval, hruntime]
  simp

lemma Node.stage_runtime {scope : Scope} {span cspan ispan : Option Span} {e : Term}
    {name : String} (hform : scope.contains "runtime" = false) :
    (Node.call (.mk (.var "runtime") cspan)
        [e, .mk (.literal (.string name)) ispan]).stage ctx scope span = (do
      (← e.stage ctx scope).asInput name e) := by
  have hruntime : scope.form? (.mk (.var "runtime") cspan) = some .runtime := by
    simp [Scope.form?, Term.asVar?, hform, Form.ofName?, Form.name]
  rw [Node.stage, hruntime]
  · rfl
  · simp

lemma Term.eq_var_of_asVar? {e : Term} {name : String} (h : e.asVar? = some name) :
    ∃ span, e = .mk (.var name) span := by
  obtain ⟨node, span⟩ := e
  cases node <;> simp only [Term.asVar?, Option.some.injEq, reduceCtorEq] at h
  exact ⟨span, h ▸ rfl⟩

lemma Term.eq_literal_of_asText? {e : Term} {text : String} (h : e.asText? = some text) :
    ∃ span, e = .mk (.literal (.string text)) span := by
  obtain ⟨node, span⟩ := e
  cases node <;> simp only [Term.asText?, Term.asLiteral?, reduceCtorEq] at h
  next l =>
    cases l <;> simp only [Option.some.injEq, reduceCtorEq] at h
    exact ⟨span, h ▸ rfl⟩

lemma Pattern.destructure_denotes (ctx : Context) {Γ : List Frame} {scope : Scope}
    {env : Environment} {p : Pattern} {v : Staged} {x : Value} (hp : p.isPlain)
    (hscope : scope.Denotes W Γ env)
    (hv : v.Denotes W Γ x) (s : Setting) :
    ∃ bindings, p.matchIn s env x = .ok (some bindings) ∧
      Association.names (env.bindAll bindings) = p.names ++ Association.names env ∧
      Keeps W (p.destructure ctx false v scope) fun r =>
        ∃ Δ, r.1.Denotes W Δ (env.bindAll bindings) ∧ ∃ q, r.2 = [q] ∧ q.Restores W Γ Δ := by
  cases p with
  | wildcard =>
    refine ⟨[], rfl, rfl, .pure ⟨Γ, hscope, _, rfl, ?_⟩⟩
    exact Pending.discard_restores hscope hv
  | binding name =>
    refine ⟨[(name, x)], rfl, rfl, ?_⟩
    have hname : name ≠ blankName := by simpa [Pattern.isPlain] using hp
    refine (Pending.prepare_denotes hscope hv hname).bind fun q hq => ?_
    obtain ⟨Δ, hinner, hrestores⟩ := hq
    exact .pure ⟨Δ, hinner, q, rfl, hrestores⟩
  | _ => cases hp

lemma Node.inputs_letIn {s : Setting} {env : Environment} {p : Pattern} {init body : Term}
    {x : Value} {bindings : Bindings} (hp : p.isPlain) (hx : init.eval s env = .ok x)
    (hmatch : p.matchIn s env x = .ok (some bindings)) :
    (Node.letIn p init body).inputs s env =
      init.inputs s env ++ body.inputs s (env.bindAll bindings) := by
  cases p with
  | wildcard =>
    obtain rfl := Option.some.inj (Except.ok.inj hmatch)
    simp [Node.inputs, Environment.bindAll]
  | binding name =>
    obtain rfl := Option.some.inj (Except.ok.inj hmatch)
    simp [Node.inputs, hx, Environment.bindAll]
  | _ => cases hp

lemma Node.inputs_runtime {s : Setting} {env : Environment} {cspan ispan : Option Span} {e : Term}
    {name : String} {x : Value} (hx : e.eval s env = .ok x) :
    (Node.call (.mk (.var "runtime") cspan) [e, .mk (.literal (.string name)) ispan]).inputs s env =
      e.inputs s env ++ [(name, x)] := by
  simp [Node.inputs, hx, Term.asVar?, Term.asText?, Term.asLiteral?]

variable (hcalls : ∀ f args v, f.isData (fun _ => false) → W.setting.apply f args ≠ .ok v)
include hcalls

set_option linter.unusedSectionVars false in
mutual

theorem Term.stage_denotes : ∀ {e : Term} {env scope Γ w},
    e.isStraightLine (Association.names env) → Scope.Denotes W Γ scope env →
    e.eval W.setting env = .ok w → W.Supplies (e.inputs W.setting env) →
    Keeps W (e.stage ctx scope) fun v => v.Denotes W Γ w
  | .mk node span, env, scope, Γ, w, h, hscope, hw, hin => by
    rw [Term.stage]
    exact (Node.stage_denotes h hscope (Term.eval_mk_eq_ok.mp hw) hin).mapError fun _ h => h
termination_by structural e => e

theorem Node.stage_denotes : ∀ {node : Node} {span env scope Γ w},
    node.isStraightLine (Association.names env) → Scope.Denotes W Γ scope env →
    node.eval W.setting env = .ok w → W.Supplies (node.inputs W.setting env) →
    Keeps W (node.stage ctx scope span) fun v => v.Denotes W Γ w
  | .literal l, span, env, scope, Γ, w, h, hscope, hw, hin => by
    obtain rfl := Except.ok.inj hw
    exact .pure (Staged.denotes_ofValue (Value.isData_of_literal l))
  | .value v, span, env, scope, Γ, w, h, hscope, hw, hin => by
    obtain rfl := Except.ok.inj hw
    exact .pure (Staged.denotes_ofValue h)
  | .var name, span, env, scope, Γ, w, h, hscope, hw, hin => by
    have hname : Association.contains name env := Association.contains_iff.mpr (by
      simpa [Node.isStraightLine] using h)
    obtain ⟨x, hx⟩ := Option.isSome_iff_exists.mp hname
    rw [Node.eval, Environment.get, hx] at hw
    obtain rfl := Except.ok.inj hw
    rcases hscope.values.find? name with ⟨v, y, hv, hy, hdenotes⟩ | ⟨_, hnone⟩
    · obtain rfl := Option.some.inj (hy.symm.trans hx)
      rw [Node.stage, Scope.get?, hv, hscope.refinements]
      exact .pure hdenotes
    · cases hnone.symm.trans hx
  | .unary op e, span, env, scope, Γ, w, h, hscope, hw, hin => by
    rw [Node.eval] at hw
    obtain ⟨x, hx, hw⟩ := Outcome.bind_eq_ok.mp hw
    rw [Node.stage]
    refine (Term.stage_denotes h hscope hx hin).bind fun v hv => ?_
    split
    · next y hy =>
      obtain rfl := hv.eq_of_value? hy
      exact .lift_bind hw (.pure (Staged.denotes_ofValue (UnaryOp.isData_apply hw)))
    · refine (Keeps.lift _).bind fun c _ => ?_
      refine (Staged.residualize_denotes ctx hscope.residual hscope.fresh hv).bind
        fun e' he => .pure ?_
      refine Staged.denotes_later .unary (by simpa using he.1.1) ?_ ⟨x, rfl, hw⟩
        (UnaryOp.isData_apply hw) c
      exact Term.evalList_cons.mpr ⟨x, [], he.1.2, Term.evalList_nil.mpr rfl, rfl⟩
  | .binary op a b, span, env, scope, Γ, w, h, hscope, hw, hin => by
    simp only [Node.isStraightLine, Bool.and_eq_true, Bool.not_eq_true'] at h
    obtain ⟨⟨hop, ha⟩, hb⟩ := h
    obtain ⟨hina, hinb⟩ := World.supplies_append.mp hin
    rw [Node.eval_binary hop] at hw
    obtain ⟨x, hx, hw⟩ := Outcome.bind_eq_ok.mp hw
    obtain ⟨y, hy, hw⟩ := Outcome.bind_eq_ok.mp hw
    rw [Node.stage]
    refine (Term.stage_denotes ha hscope hx hina).bind fun v hv => ?_
    rw [if_neg (by simp [hop])]
    refine (Term.stage_denotes hb hscope hy hinb).bind fun r hr => ?_
    split
    · next x' y' hx' hy' =>
      obtain rfl := hv.eq_of_value? hx'
      obtain rfl := hr.eq_of_value? hy'
      exact .lift_bind hw (.pure (Staged.denotes_ofValue (BinaryOp.isData_apply hw)))
    · refine (Keeps.lift _).bind fun c _ => ?_
      refine (Staged.residualize_denotes ctx hscope.residual hscope.fresh hv).bind fun e he => ?_
      refine (Staged.residualize_denotes ctx hscope.residual hscope.fresh hr).bind
        fun e' he' => .pure ?_
      refine Staged.denotes_later (.binary hop) (by simpa using ⟨he.1.1, he'.1.1⟩) ?_
        ⟨x, y, rfl, hw⟩ (BinaryOp.isData_apply hw) c
      exact Term.evalList_cons.mpr ⟨x, [y], he.1.2,
        Term.evalList_cons.mpr ⟨y, [], he'.1.2, Term.evalList_nil.mpr rfl, rfl⟩, rfl⟩
  | .letIn p init body, span, env, scope, Γ, w, h, hscope, hw, hin => by
    simp only [Node.isStraightLine, Bool.and_eq_true] at h
    obtain ⟨⟨hp, hinit⟩, hbody⟩ := h
    rw [Node.eval] at hw
    obtain ⟨x, hx, hw⟩ := Outcome.bind_eq_ok.mp hw
    rw [Node.stage]
    refine Yields.bind (P := fun v => v.Denotes W Γ x) ?_ fun v hv => ?_
    · exact Term.stage_denotes hinit hscope hx (World.supplies_append.mp hin).1
    · obtain ⟨bindings, hmatch, hnames, hdestructure⟩ :=
        Pattern.destructure_denotes ctx hp hscope hv W.setting
      rw [Node.inputs_letIn hp hx hmatch] at hin
      rw [hmatch] at hw
      rw [← hnames] at hbody
      refine hdestructure.bind fun r hr => ?_
      obtain ⟨Δ, hinner, q, hq, hrestores⟩ := hr
      refine (Term.stage_denotes hbody hinner hw (World.supplies_append.mp hin).2).bind
        fun t ht => ?_
      rw [hq]
      exact hrestores ctx t w ht
  | .call callee [e, input], span, env, scope, Γ, w, h, hscope, hw, hin => by
    simp only [Node.isStraightLine, Bool.and_eq_true, decide_eq_true_eq] at h
    obtain ⟨⟨hcallee, hinput⟩, he⟩ := h
    obtain ⟨name, hname⟩ := Option.isSome_iff_exists.mp hinput
    obtain ⟨cspan, rfl⟩ := Term.eq_var_of_asVar? hcallee
    obtain ⟨ispan, rfl⟩ := Term.eq_literal_of_asText? hname
    have hform := Node.not_contains_callee hcalls hscope.values.isData hw
    rw [Node.eval_runtime hform] at hw
    rw [Node.inputs_runtime hw] at hin
    obtain ⟨hine, hin⟩ := World.supplies_append.mp hin
    rw [Node.stage_runtime ((hscope.contains_eq _).trans hform)]
    refine (Term.stage_denotes he hscope hw hine).bind fun v hv => ?_
    exact Staged.asInput_denotes hscope.fresh hv hin e
  | .call _ [_], _, _, _, _, _, h, _, _, _ => by cases h
  | .call _ [], _, _, _, _, _, h, _, _, _ => by cases h
  | .call _ (_ :: _ :: _ :: _), _, _, _, _, _, h, _, _, _ => by cases h
  | .object entries, span, env, scope, Γ, w, h, hscope, hw, hin => by
    rw [Node.eval] at hw
    obtain ⟨fields, hfields, hw⟩ := Outcome.bind_eq_ok.mp hw
    obtain rfl := Except.ok.inj hw
    rw [Node.stage]
    have hnil : (Association.names ([] : List (String × Value))).Nodup := List.nodup_nil
    refine (Entry.stageList_denotes h hscope hin hnil hfields).bind fun es hes => ?_
    obtain ⟨sfields, hs, hnodup, hdenote⟩ := hes [] rfl
    simp only [StagedEntry.assemble, hs]
    exact .pure (hdenote.ofFields hnodup)
  | .array items, span, env, scope, Γ, w, h, hscope, hw, hin => by
    rw [Node.eval] at hw
    obtain ⟨vs, hvs, hw⟩ := Outcome.bind_eq_ok.mp hw
    obtain rfl := Except.ok.inj hw
    rw [Node.stage]
    refine (Item.stageList_denotes h hscope hin hvs).bind fun is his => ?_
    obtain ⟨parts, hparts, hdenote⟩ := his
    simp only [StagedItem.assemble, hparts]
    exact .pure hdenote.ofItems
  | .field e name, span, env, scope, Γ, w, h, hscope, hw, hin => by
    rw [Node.eval] at hw
    obtain ⟨x, hx, hw⟩ := Outcome.bind_eq_ok.mp hw
    rw [Node.stage]
    refine (Term.stage_denotes h hscope hx hin).bind fun v hv => ?_
    exact Staged.readField_denotes hscope.fresh hv hw
  | .index e key, span, env, scope, Γ, w, h, hscope, hw, hin => by
    simp only [Node.isStraightLine, Bool.and_eq_true] at h
    obtain ⟨hine, hink⟩ := World.supplies_append.mp hin
    rw [Node.eval] at hw
    obtain ⟨x, hx, hw⟩ := Outcome.bind_eq_ok.mp hw
    obtain ⟨k, hk, hw⟩ := Outcome.bind_eq_ok.mp hw
    rw [Node.stage]
    refine (Term.stage_denotes h.1 hscope hx hine).bind fun v hv => ?_
    refine (Term.stage_denotes h.2 hscope hk hink).bind fun r hr => ?_
    exact Staged.readIndex_denotes ctx hscope.residual hscope.fresh hv hr hw
  | .template parts, span, env, scope, Γ, w, h, hscope, hw, hin => by
    rw [Node.eval] at hw
    obtain ⟨text, htext, hw⟩ := Outcome.bind_eq_ok.mp hw
    obtain rfl := Except.ok.inj hw
    rw [Node.stage]
    refine (Part.stageList_denotes h hscope hin htext).bind fun vs hvs => ?_
    obtain ⟨ws, hdenote, rfl⟩ := hvs
    exact Part.assemble_denotes ctx hscope.residual hscope.fresh hdenote
  | .ifElse _ _ _, _, _, _, _, _, h, _, _, _ => by cases h
  | .lambda _, _, _, _, _, _, h, _, _, _ => by cases h
  | .block _ _, _, _, _, _, _, h, _, _, _ => by cases h
  | .await _, _, _, _, _, _, h, _, _, _ => by cases h
  | .throw _, _, _, _, _, _, h, _, _, _ => by cases h
  | .matchOn _ _, _, _, _, _, _, h, _, _, _ => by cases h
termination_by structural n => n

theorem Entry.stageList_denotes : ∀ {es : List Entry} {env scope Γ acc fields},
    Entry.areStraightLine (Association.names env) es → Scope.Denotes W Γ scope env →
    W.Supplies (Entry.inputs W.setting env es) → (Association.names acc).Nodup →
    Entry.evalList W.setting env acc es = .ok fields →
    Keeps W (Entry.stageList ctx scope es) fun ses =>
      ∀ sacc, Staged.DenoteFields W Γ sacc acc →
        ∃ sfields, StagedEntry.allFields? sacc ses = some sfields ∧
          (Association.names fields).Nodup ∧ Staged.DenoteFields W Γ sfields fields
  | [], env, scope, Γ, acc, fields, _, _, _, hnodup, hw => by
    obtain rfl := Except.ok.inj hw
    exact .pure fun sacc hacc => ⟨sacc, rfl, hnodup, hacc⟩
  | .field name e :: es, env, scope, Γ, acc, fields, h, hscope, hin, hnodup, hw => by
    simp only [Entry.areStraightLine, Bool.and_eq_true] at h
    obtain ⟨hine, hines⟩ := World.supplies_append.mp hin
    rw [Entry.evalList] at hw
    obtain ⟨x, hx, hw⟩ := Outcome.bind_eq_ok.mp hw
    rw [Entry.stageList]
    refine (Term.stage_denotes h.1 hscope hx hine).bind fun v hv => ?_
    refine (Entry.stageList_denotes h.2 hscope hines (Association.nodup_names_put hnodup) hw).bind
      fun ses hses => .pure fun sacc hacc => ?_
    exact hses _ (hacc.put hv name)
  | .spread _ :: _, _, _, _, _, _, h, _, _, _, _ => by cases h
termination_by structural es => es

theorem Item.stageList_denotes : ∀ {es : List Item} {env scope Γ ws},
    Item.areStraightLine (Association.names env) es → Scope.Denotes W Γ scope env →
    W.Supplies (Item.inputs W.setting env es) → Item.evalList W.setting env es = .ok ws →
    Keeps W (Item.stageList ctx scope es) fun sis =>
      ∃ parts, sis.mapM StagedItem.items? = some parts ∧
        Staged.DenoteAll W Γ parts.flatten ws
  | [], env, scope, Γ, ws, _, _, _, hw => by
    obtain rfl := Except.ok.inj hw
    exact .pure ⟨[], rfl, rfl⟩
  | .item e :: es, env, scope, Γ, ws, h, hscope, hin, hw => by
    simp only [Item.areStraightLine, Bool.and_eq_true] at h
    obtain ⟨hine, hines⟩ := World.supplies_append.mp hin
    rw [Item.evalList] at hw
    obtain ⟨x, hx, hw⟩ := Outcome.bind_eq_ok.mp hw
    obtain ⟨xs, hxs, hw⟩ := Outcome.bind_eq_ok.mp hw
    obtain rfl := Except.ok.inj hw
    rw [Item.stageList]
    refine (Term.stage_denotes h.1 hscope hx hine).bind fun v hv => ?_
    refine (Item.stageList_denotes h.2 hscope hines hxs).bind fun sis hsis => .pure ?_
    obtain ⟨parts, hparts, hdenote⟩ := hsis
    exact ⟨[v] :: parts, by simp [StagedItem.items?, hparts], x, xs, rfl, hv, hdenote⟩
  | .spread _ :: _, _, _, _, _, h, _, _, _ => by cases h
termination_by structural es => es

theorem Part.stageList_denotes : ∀ {es : List Part} {env scope Γ text},
    Part.areStraightLine (Association.names env) es → Scope.Denotes W Γ scope env →
    W.Supplies (Part.inputs W.setting env es) → Part.evalList W.setting env es = .ok text →
    Keeps W (Part.stageList ctx scope es) fun vs =>
      ∃ ws, Staged.DenoteAll W Γ vs ws ∧ Text.join "" (ws.map Value.text) = text
  | [], env, scope, Γ, text, _, _, _, hw => by
    obtain rfl := Except.ok.inj hw
    exact .pure ⟨[], rfl, rfl⟩
  | .text t :: es, env, scope, Γ, text, h, hscope, hin, hw => by
    rw [Part.areStraightLine] at h
    rw [Part.inputs] at hin
    rw [Part.evalList] at hw
    obtain ⟨rest, hrest, hw⟩ := Outcome.bind_eq_ok.mp hw
    obtain rfl := Except.ok.inj hw
    rw [Part.stageList]
    refine (Part.stageList_denotes h hscope hin hrest).bind fun vs hvs => .pure ?_
    obtain ⟨ws, hdenote, rfl⟩ := hvs
    refine ⟨.string t :: ws, ⟨_, ws, rfl, Staged.denotes_ofValue rfl, hdenote⟩, ?_⟩
    rw [List.map_cons, Text.join_cons, Value.text]
  | .interp e :: es, env, scope, Γ, text, h, hscope, hin, hw => by
    simp only [Part.areStraightLine, Bool.and_eq_true] at h
    obtain ⟨hine, hines⟩ := World.supplies_append.mp hin
    rw [Part.evalList] at hw
    obtain ⟨x, hx, hw⟩ := Outcome.bind_eq_ok.mp hw
    obtain ⟨rest, hrest, hw⟩ := Outcome.bind_eq_ok.mp hw
    obtain rfl := Except.ok.inj hw
    rw [Part.stageList]
    refine (Term.stage_denotes h.1 hscope hx hine).bind fun v hv => ?_
    refine (Part.stageList_denotes h.2 hscope hines hrest).bind fun vs hvs => .pure ?_
    obtain ⟨ws, hdenote, rfl⟩ := hvs
    exact ⟨x :: ws, ⟨x, ws, rfl, hv, hdenote⟩, by rw [List.map_cons, Text.join_cons]⟩
termination_by structural es => es

end

end Programs

/-! ### Whole programs -/

abbrev Term.outerNames (parts : List Term) : List String :=
  parts.flatMap fun part => part.node.outerNames

section Reserved

variable {s : Setting} {name : String} {v : Value}

lemma Node.mem_outerNames {callee e input : Term} {env : Environment}
    (h : (name, v) ∈ (match callee.asVar?, e.eval s env, input.asText? with
      | some "runtime", .ok v, some name => [(name, v)]
      | _, _, _ => [] : Bindings)) : name ∈ (Node.call callee [e, input]).outerNames := by
  split at h
  · next hcallee _ hinput =>
    obtain ⟨cspan, rfl⟩ := Term.eq_var_of_asVar? hcallee
    obtain ⟨ispan, rfl⟩ := Term.eq_literal_of_asText? hinput
    simp_all [Node.outerNames, Term.asVar?, Term.asLiteral?]
  · cases h

lemma Term.mem_outerNames_append {parts more : List Term} :
    name ∈ Term.outerNames (parts ++ more) ↔
      name ∈ Term.outerNames parts ∨ name ∈ Term.outerNames more := by
  rw [Term.outerNames, List.flatMap_append, List.mem_append]

mutual

theorem Term.mem_outerNames_of_inputs : ∀ {e : Term} {env}, (name, v) ∈ e.inputs s env →
    name ∈ Term.outerNames e.walk
  | .mk node span, env, h => by
    rw [Term.walk, Term.outerNames, List.flatMap_cons, List.mem_append]
    exact Node.mem_outerNames_of_inputs h
termination_by structural e => e

theorem Node.mem_outerNames_of_inputs : ∀ {node : Node} {env}, (name, v) ∈ node.inputs s env →
    name ∈ node.outerNames ∨ name ∈ Term.outerNames (Term.walkNode node)
  | .unary _ e, env, h | .field e _, env, h => Or.inr (Term.mem_outerNames_of_inputs h)
  | .binary _ a b, env, h | .index e key, env, h => by
    refine Or.inr (Term.mem_outerNames_append.mpr ((List.mem_append.mp h).imp ?_ ?_))
    · exact Term.mem_outerNames_of_inputs
    · exact Term.mem_outerNames_of_inputs
  | .letIn p init body, env, h => by
    rw [Node.inputs.eq_def] at h
    refine Or.inr ?_
    rw [Term.walkNode, Term.mem_outerNames_append, Term.mem_outerNames_append]
    rcases List.mem_append.mp h with h | h
    · exact Or.inl (Or.inr (Term.mem_outerNames_of_inputs h))
    · split at h <;> exact Or.inr (Term.mem_outerNames_of_inputs h)
  | .call callee [e, input], env, h => by
    rcases List.mem_append.mp h with h | h
    · refine Or.inr ?_
      rw [Term.walkNode, Term.mem_outerNames_append, Term.walkList, Term.mem_outerNames_append]
      exact Or.inr (Or.inl (Term.mem_outerNames_of_inputs h))
    · exact Or.inl (Node.mem_outerNames h)
  | .object entries, env, h => Or.inr (Entry.mem_outerNames_of_inputs h)
  | .array items, env, h => Or.inr (Item.mem_outerNames_of_inputs h)
  | .template parts, env, h => Or.inr (Part.mem_outerNames_of_inputs h)
  | .literal _, _, h | .value _, _, h | .var _, _, h | .ifElse _ _ _, _, h | .lambda _, _, h
  | .call _ [], _, h | .call _ [_], _, h | .call _ (_ :: _ :: _ :: _), _, h | .block _ _, _, h
  | .await _, _, h | .throw _, _, h | .matchOn _ _, _, h => by cases h
termination_by structural n => n

theorem Entry.mem_outerNames_of_inputs : ∀ {es : List Entry} {env},
    (name, v) ∈ Entry.inputs s env es → name ∈ Term.outerNames (Term.walkEntries es)
  | [], _, h => by cases h
  | .field _ e :: es, env, h | .spread e :: es, env, h =>
    Term.mem_outerNames_append.mpr ((List.mem_append.mp h).imp
      Term.mem_outerNames_of_inputs Entry.mem_outerNames_of_inputs)
termination_by structural es => es

theorem Item.mem_outerNames_of_inputs : ∀ {es : List Item} {env},
    (name, v) ∈ Item.inputs s env es → name ∈ Term.outerNames (Term.walkItems es)
  | [], _, h => by cases h
  | .item e :: es, env, h | .spread e :: es, env, h =>
    Term.mem_outerNames_append.mpr ((List.mem_append.mp h).imp
      Term.mem_outerNames_of_inputs Item.mem_outerNames_of_inputs)
termination_by structural es => es

theorem Part.mem_outerNames_of_inputs : ∀ {es : List Part} {env},
    (name, v) ∈ Part.inputs s env es → name ∈ Term.outerNames (Term.walkParts es)
  | [], _, h => by cases h
  | .text _ :: es, env, h => by
    rw [Part.inputs] at h
    rw [Term.walkParts]
    exact Part.mem_outerNames_of_inputs h
  | .interp e :: es, env, h =>
    Term.mem_outerNames_append.mpr ((List.mem_append.mp h).imp
      Term.mem_outerNames_of_inputs Part.mem_outerNames_of_inputs)
termination_by structural es => es

end

end Reserved

def Term.withInputs (inputs : Bindings) (e : Term) : Term :=
  inputs.foldr (fun (name, v) body => .letIn (.binding name) (.value v) body) e

lemma Term.eval_withInputs {s : Setting} {inputs : Bindings} {e : Term} {env : Environment}
    {w : Value} :
    (e.withInputs inputs).eval s env = .ok w ↔ e.eval s (env.bindAll inputs) = .ok w := by
  induction inputs generalizing env with
  | nil => exact Iff.rfl
  | cons p inputs ih =>
    obtain ⟨name, v⟩ := p
    have hbind : (Term.letIn (.binding name) (.value v) (e.withInputs inputs)).eval s env = .ok w ↔
        (e.withInputs inputs).eval s ((name, v) :: env) = .ok w := by
      rw [Term.letIn, Term.of, Term.eval_mk_eq_ok, Node.eval_bind]
      exact ⟨fun ⟨u, hu, h⟩ => Except.ok.inj hu ▸ h, fun h => ⟨v, rfl, h⟩⟩
    exact hbind.trans ih

lemma Environment.find?_bindAll {inputs : Bindings} {env : Environment} {name : String} {v : Value}
    (hsame : ∀ x, (name, x) ∈ inputs → x = v) (hmem : (name, v) ∈ inputs ∨
      Association.find? name env = some v) :
    Association.find? name (env.bindAll inputs) = some v := by
  induction inputs generalizing env with
  | nil => simpa [Environment.bindAll] using hmem
  | cons p inputs ih =>
    obtain ⟨key, x⟩ := p
    refine ih (fun y hy => hsame y (List.mem_cons_of_mem _ hy)) ?_
    by_cases hkey : key = name
    · subst hkey
      obtain rfl := hsame x List.mem_cons_self
      exact Or.inr (by simp [Association.find?])
    · refine hmem.imp (fun hmem => ?_) fun hfind => by simpa [Association.find?, hkey] using hfind
      simpa [Ne.symm hkey] using hmem

def World.ofProgram (imports : Imports) (options : Options) (e : Term) : World where
  setting := .ofLimit imports options.maxCallDepth
  inputs := Environment.bindAll [] (e.inputs (.ofLimit imports options.maxCallDepth) [])
  reserved := e.reservedNames

/-- If a straight-line program is staged and has a value, then the residual program has that value
when it is run with the values that stand for the runtime inputs. -/
theorem Term.run_residual {e : Term} {imports : Imports} {options : Options} {p : StagedProgram}
    {v : Value} (h : e.isStraightLine [])
    (hsame : ∀ name x y, (name, x) ∈ e.inputs (.ofLimit imports options.maxCallDepth) [] →
      (name, y) ∈ e.inputs (.ofLimit imports options.maxCallDepth) [] → x = y)
    (hstaged : e.staged imports options = .ok p) (hrun : e.run imports options = .ok v) :
    (p.residual.withInputs (e.inputs (.ofLimit imports options.maxCallDepth) [])).run imports
      options = .ok v := by
  let W := World.ofProgram imports options e
  have hin : W.Supplies (e.inputs W.setting []) := by
    rintro ⟨name, x⟩ hx
    refine ⟨List.mem_append_right _ (Term.mem_outerNames_of_inputs hx), ?_⟩
    exact Environment.find?_bindAll (fun y hy => hsame name y x hy hx) (Or.inl hx)
  have hcalls : ∀ f args v, f.isData (fun _ => false) → W.setting.apply f args ≠ .ok v := by
    intro f args v hf
    cases f <;> simp_all [W, World.ofProgram, Setting.ofLimit, Value.applyWith, maxNesting, fail,
      Value.isData]
  have hscope : Scope.empty.Denotes W [] [] := ⟨trivial, rfl, rfl, rfl⟩
  have hprogram : e.isStraightLine (Association.names ([] : Environment)) := h
  have hstage : Keeps W (e.stageWhole (.ofOptions options imports)) fun r =>
      r.2.Denotes W [] v := by
    refine (Term.stage_denotes hcalls hprogram hscope hrun hin).bind fun sv hsv => ?_
    refine (Staged.residualize_denotes _ hscope.residual hscope.fresh hsv).bind fun e' he => ?_
    exact .pure he.1
  have hresult := hstage (.start e) rfl
  unfold Term.staged at hstaged
  cases hr : e.stageWhole (.ofOptions options imports) (.start e) with
  | ok r session =>
    rw [hr] at hresult hstaged
    obtain rfl := Except.ok.inj hstaged
    exact Term.eval_withInputs.mpr hresult.1.2
  | error error session =>
    rw [hr] at hstaged
    cases hstaged

/-- The program `let x = [runtime(1, "x"), [2, 3]] in let y = x[0] + 1 in [x, x[1], y * y]`, in
which the name of an input is also the name of a binding. -/
def Term.twice : Term :=
  .letIn (.binding "x")
    (.array [.item (.runtime (.number (.ofNat 1)) "x"),
      .item (.array [.item (.number (.ofNat 2)), .item (.number (.ofNat 3))])])
    (.letIn (.binding "y")
      (.binary .add (.index (.var "x") (.number (.ofNat 0))) (.number (.ofNat 1)))
      (.array [.item (.var "x"), .item (.index (.var "x") (.number (.ofNat 1))),
        .item (.binary .mul (.var "y") (.var "y"))]))

theorem Term.run_residual_twice :
    ∃ p, Term.twice.staged [] {} = .ok p ∧
      (p.residual.withInputs [("x", .ofNat 1)]).run [] {} =
        .ok (.array [.array [.ofNat 1, .array [.ofNat 2, .ofNat 3]], .array [.ofNat 2, .ofNat 3],
          .ofNat 4]) := by
  have hok : (Term.twice.staged [] {}).isOk := by decide +kernel
  obtain ⟨p, hp⟩ : ∃ p, Term.twice.staged [] {} = .ok p := by
    cases h : Term.twice.staged [] {} with
    | ok p => exact ⟨p, rfl⟩
    | error e => simp [h, Except.isOk, Except.toBool] at hok
  have hinputs : Term.twice.inputs (.ofLimit [] 64) [] = [("x", .ofNat 1)] := rfl
  refine ⟨p, hp, Term.run_residual (by decide) ?_ hp rfl⟩
  intro name x y hx hy
  rw [hinputs] at hx hy
  simp_all

end Stagewise
