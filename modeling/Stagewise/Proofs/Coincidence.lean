import Stagewise.Proofs.Alike
import Stagewise.Proofs.Patterns

/-! Evaluation depends on the names that a program mentions only. Two environments that agree on
these names lead to the same error, or to values that are alike. -/

set_option autoImplicit false

namespace Stagewise

open Association (find? names)
open Occurrence (namesOf)
open Outcome (Agree)
open Value (AlikeIn AlikeFieldsIn)

variable {r : Regime}

/-! ### Environments -/

namespace Environment

def AlikeOn (r : Regime) (N : String → Prop) (env env' : Environment) : Prop :=
  ∀ n, N n → Option.Rel (AlikeIn r) (find? n env) (find? n env')

variable {N M : String → Prop} {env env' : Environment}

lemma AlikeOn.mono (h : AlikeOn r N env env') (hMN : ∀ n, M n → N n) : AlikeOn r M env env' :=
  fun n hn => h n (hMN n hn)

lemma AlikeOn.cons {name : String} {v w : Value} (hvw : AlikeIn r v w)
    (h : AlikeOn r (fun n => N n ∧ n ≠ name) env env') :
    AlikeOn r N ((name, v) :: env) ((name, w) :: env') := by
  intro n hn
  simp only [find?]
  split_ifs with heq
  · exact .some hvw
  · exact h n ⟨hn, Ne.symm heq⟩

lemma AlikeOn.bindAll {bs bs' : Bindings} (hbs : AlikeFieldsIn r bs bs')
    (h : AlikeOn r (fun n => N n ∧ n ∉ names bs) env env') :
    AlikeOn r N (env.bindAll bs) (env'.bindAll bs') := by
  unfold Environment.bindAll
  induction hbs generalizing env env' with
  | nil => exact h.mono fun n hn => ⟨hn, List.not_mem_nil⟩
  | @cons p q bs bs' hpq _ ih =>
    obtain ⟨name, v⟩ := p
    obtain ⟨name', w⟩ := q
    obtain ⟨rfl, hvw⟩ := hpq
    refine ih (AlikeOn.cons hvw (h.mono ?_))
    rintro n ⟨⟨hn, hbs⟩, hne⟩
    exact ⟨hn, List.not_mem_cons_of_ne_of_not_mem hne hbs⟩

lemma AlikeOn.agree_get {name : String} (h : AlikeOn r (· = name) env env') :
    Agree r (AlikeIn r) (env.get name) (env'.get name) := by
  have hname := h name rfl
  unfold Environment.get
  generalize find? name env = x at hname
  generalize find? name env' = y at hname
  cases hname with
  | some h => exact .pure h
  | none =>
    dsimp only
    split
    · next v hv =>
      unfold Registry.find? at hv
      split at hv
      · exact .pure (Option.some.inj hv ▸ .atom rfl)
      · obtain ⟨b, _, rfl⟩ := Option.map_eq_some_iff.mp hv
        exact .pure (.atom rfl)
    · exact .fail rfl rfl

lemma AlikeOn.agree_load {imports : Imports} {module : String} {loaded : List String}
    (himports : ∀ name v, imports.resolve? module name = some (.value v) → AlikeIn r v v)
    (h : AlikeOn r (fun n => N n ∧ n ∉ loaded) env env') :
    Agree r (AlikeOn r N) (env.load imports module loaded) (env'.load imports module loaded) := by
  induction loaded generalizing env env' with
  | nil => exact .pure (h.mono fun n hn => ⟨hn, List.not_mem_nil⟩)
  | cons name loaded ih =>
    simp only [Environment.load]
    split
    · next v hv =>
      refine ih (AlikeOn.cons (himports name v hv) (h.mono ?_))
      rintro n ⟨⟨hn, hloaded⟩, hne⟩
      exact ⟨hn, List.not_mem_cons_of_ne_of_not_mem hne hloaded⟩
    · exact .fail rfl rfl
    · exact .fail rfl rfl

structure Serves (r : Regime) (os : List Occurrence) (ts : List Term) (env env' : Environment) :
    Prop where
  terms : ∀ t ∈ ts, r.term t
  names : AlikeOn r (· ∈ namesOf os) env env'

namespace Serves

variable {os os' : List Occurrence} {ts ts' : List Term}

lemma left (h : Serves r (os ++ os') (ts ++ ts') env env') : Serves r os ts env env' where
  terms t ht := h.terms t (List.mem_append_left _ ht)
  names := h.names.mono fun n hn => by simpa using Or.inl (by simpa using hn)

lemma right (h : Serves r (os ++ os') (ts ++ ts') env env') : Serves r os' ts' env env' where
  terms t ht := h.terms t (List.mem_append_right _ ht)
  names := h.names.mono fun n hn => by simpa using Or.inr (by simpa using hn)

lemma tail {t : Term} (h : Serves r os (t :: ts) env env') : Serves r os ts env env' :=
  ⟨fun u hu => h.terms u (List.mem_cons_of_mem _ hu), h.names⟩

lemma form?_eq {callee : Term} (h : Serves r callee.free ts env env') :
    env.form? callee = env'.form? callee := by
  obtain ⟨node, span⟩ := callee
  cases node with
  | var name =>
    have hname := h.names name (by simp [Term.free, Term.occurrences, Term.occurrencesNode])
    simp only [Environment.form?, Term.asVar?, AlikeIn.contains_eq hname]
  | _ => rfl

end Serves

end Environment

open Environment (AlikeOn Serves)

/-! ### Evaluation -/

section Evaluation

def Bindings.AlikeNaming (r : Regime) (ns : List String) (bs bs' : Bindings) : Prop :=
  AlikeFieldsIn r bs bs' ∧ ns ⊆ names bs

lemma Bindings.AlikeNaming.append {ns ns' : List String} {bs bs' cs cs' : Bindings}
    (h : Bindings.AlikeNaming r ns bs bs') (h' : Bindings.AlikeNaming r ns' cs cs') :
    Bindings.AlikeNaming r (ns ++ ns') (bs ++ cs) (bs' ++ cs') := by
  refine ⟨List.rel_append h.1 h'.1, List.append_subset.mpr ⟨?_, ?_⟩⟩
  · exact List.Subset.trans h.2 (by simp [names])
  · exact List.Subset.trans h'.2 (by simp [names])

lemma Environment.AlikeOn.bind {N : String → Prop} {ns : List String} {bs bs' : Bindings}
    {env env' : Environment} (h : AlikeOn r (fun n => N n ∧ n ∉ ns) env env')
    (hbs : Bindings.AlikeNaming r ns bs bs') : AlikeOn r N (env.bindAll bs) (env'.bindAll bs') :=
  .bindAll hbs.1 (h.mono fun _ hn => ⟨hn.1, fun hns => hn.2 (hbs.2 hns)⟩)

lemma Environment.Serves.bind {e : Term} {l : Bool} {ns : List String} {bs bs' : Bindings}
    {ts : List Term} {env env' : Environment}
    (h : Serves r (e.occurrences (ns ++ []) l) ts env env')
    (hbs : Bindings.AlikeNaming r ns bs bs') :
    Serves r e.free ts (env.bindAll bs) (env'.bindAll bs') := by
  refine ⟨h.terms, AlikeOn.bind (h.names.mono fun n hn => ?_) hbs⟩
  rw [Term.mem_occurrences, List.append_nil]
  exact ⟨hn.2, hn.1⟩

/-- What is called, imported or written into programs does not tell values apart. -/
structure Setting.Respects (r : Regime) (s : Setting) : Prop where
  apply : Builtin.Respects r s.apply
  imports : ∀ module name v, s.imports.resolve? module name = some (.value v) → AlikeIn r v v
  values : ∀ v span, r.term (.mk (.value v) span) → AlikeIn r v v

variable {s : Setting}

section Node

variable {env env' : Environment}

lemma Term.agree_evalList {es : List Term}
    (h : ∀ e ∈ es, Agree r (AlikeIn r) (e.eval s env) (e.eval s env')) :
    Agree r (List.Forall₂ (AlikeIn r)) (Term.evalList s env es) (Term.evalList s env' es) := by
  induction es with
  | nil => exact .pure .nil
  | cons e es ih =>
    rw [List.forall_mem_cons] at h
    exact h.1.bind fun _ _ hv => (ih h.2).bind fun _ _ hvs => .pure (.cons hv hvs)

lemma Node.agree_binary {op : BinaryOp} {a b : Term}
    (ha : Agree r (AlikeIn r) (a.eval s env) (a.eval s env'))
    (hb : Agree r (AlikeIn r) (b.eval s env) (b.eval s env')) :
    Agree r (AlikeIn r) ((Node.binary op a b).eval s env) ((Node.binary op a b).eval s env') := by
  cases hop : op.isLogical with
  | false =>
    rw [Node.eval_binary hop, Node.eval_binary hop]
    exact ha.bind fun _ _ hx => hb.bind fun _ _ hy => op.agree_apply hx hy
  | true =>
    have hright : Agree r (AlikeIn r) (do return Value.bool (← (← b.eval s env).condition))
        (do return Value.bool (← (← b.eval s env').condition)) :=
      hb.bind fun _ _ h => h.agree_condition.bind fun _ _ hc => .pure (hc ▸ .atom rfl)
    cases op <;> simp only [BinaryOp.isLogical, Bool.false_eq_true] at hop <;>
      rw [Node.eval, Node.eval] <;>
      refine ha.bind fun _ _ hx => hx.agree_condition.bind fun c _ hc => ?_
    all_goals subst hc
    all_goals cases c
    · exact .pure (.atom rfl)
    · exact hright
    · exact hright
    · exact .pure (.atom rfl)

lemma Node.agree_form {callee : Term} {args : List Term} {form : Form}
    (hform : env.form? callee = some form) (hform' : env'.form? callee = some form)
    (hassert : form = .assert → ∀ err, r.error err)
    (hall : ∀ e ∈ args, Agree r (AlikeIn r) (e.eval s env) (e.eval s env')) :
    Agree r (AlikeIn r) ((Node.call callee args).eval s env)
      ((Node.call callee args).eval s env') := by
  have hfield (e : Term) (name : String) (cspan : Option Span) :
      callee = .mk (.field e name) cspan → False := by
    rintro rfl
    simp [Environment.form?, Term.asVar?] at hform
  rw [Node.eval, Node.eval, hform, hform']
  · dsimp only
    split
    · exact hall _ (by simp)
    · exact hall _ (by simp)
    · exact hall _ (by simp)
    · exact (hall _ (by simp)).bind fun _ _ h => .pure (h.ofValue_eq ▸ .atom rfl)
    · exact (hall _ (by simp)).bind fun _ _ ht => ht.agree_asType.bind fun _ _ _ =>
        hall _ (by simp)
    · refine (hall _ (by simp)).bind fun v w h => ?_
      have hother := congrArg (Cause.assertNotBoolean ∘ Subject.value) h.view_eq
      cases h with
      | atom =>
        cases v with
        | bool b =>
          cases b with
          | true => exact .pure (.atom rfl)
          | false => exact ⟨hassert rfl _, rfl⟩
        | _ => exact .fail rfl hother
      | _ => exact .fail rfl hother
    · refine (hall _ (by simp)).bind fun v w h => (hall _ (by simp)).bind fun _ _ ht =>
        ht.agree_asType.bind fun c _ hc => ?_
      subst hc
      rw [h.admits_eq]
      split_ifs
      · exact .pure h
      · exact ⟨hassert rfl _, congrArg (fun v => Error.located _ (.notSatisfied v c)) h.view_eq⟩
    · exact .fail rfl rfl
  · exact hfield
  · exact hfield

lemma Node.agree_callField (hs : s.Respects r) {e : Term} {name : String} {cspan : Option Span}
    {args : List Term} (hform : env.form? (.mk (.field e name) cspan) = none)
    (hform' : env'.form? (.mk (.field e name) cspan) = none)
    (he : Agree r (AlikeIn r) (e.eval s env) (e.eval s env'))
    (hall : ∀ e ∈ args, Agree r (AlikeIn r) (e.eval s env) (e.eval s env')) :
    Agree r (AlikeIn r) ((Node.call (.mk (.field e name) cspan) args).eval s env)
      ((Node.call (.mk (.field e name) cspan) args).eval s env') := by
  rw [Node.eval, Node.eval, hform, hform']
  refine he.bind fun receiver _ hr => (hr.agree_callee name).bind fun callee _ hc => ?_
  have hargs := Term.agree_evalList hall
  cases hc with
  | inl hf => exact hargs.bind fun _ _ hvs => hs.apply _ _ _ _ hf hvs
  | @inr method _ hmethod =>
    subst hmethod
    exact hargs.bind fun _ _ hvs => hs.apply _ _ _ _ (.atom rfl) (method.alike_ofMethodArgs hr hvs)

end Node

lemma Pattern.alike_restBindings (count : Nat) (rest : Option String) {vs ws : List Value}
    (h : List.Forall₂ (AlikeIn r) vs ws) : Bindings.AlikeNaming r rest.toList
      (Pattern.restBindings count rest vs) (Pattern.restBindings count rest ws) := by
  cases rest with
  | none => exact ⟨.nil, List.nil_subset _⟩
  | some name =>
    exact ⟨.cons ⟨rfl, .array (List.forall₂_drop count h)⟩ .nil, List.Subset.refl _⟩

mutual

theorem Term.agree_eval (hs : s.Respects r) : ∀ {e : Term} {env env' : Environment},
    Serves r e.free e.walk env env' → Agree r (AlikeIn r) (e.eval s env) (e.eval s env')
  | .mk node span, env, env', h => by
    rw [Term.eval, Term.eval]
    exact (Node.agree_eval hs h).withSpan span
termination_by structural e => e

theorem Node.agree_eval (hs : s.Respects r) :
    ∀ {n : Node} {span : Option Span} {env env' : Environment},
      Serves r (Term.occurrencesNode [] false n) (Term.mk n span).walk env env' →
        Agree r (AlikeIn r) (n.eval s env) (n.eval s env')
  | .literal l, _, _, _, _ => .pure (.atom (by cases l <;> rfl))
  | .value v, span, _, _, h => .pure (hs.values v span (h.terms _ List.mem_cons_self))
  | .var name, _, _, _, h => AlikeOn.agree_get (h.names.mono (by simp [Term.occurrencesNode]))
  | .unary op e, _, _, _, h => (e.agree_eval hs h.tail).bind fun _ _ hv => op.agree_apply hv
  | .binary op a b, _, _, _, h =>
    Node.agree_binary (a.agree_eval hs h.tail.left) (b.agree_eval hs h.tail.right)
  | .ifElse test yes no, _, _, _, h => by
    refine (test.agree_eval hs h.tail.left.left).bind fun _ _ hv =>
      hv.agree_condition.bind fun c _ hc => ?_
    subst hc
    split_ifs
    · exact yes.agree_eval hs h.tail.left.right
    · exact no.agree_eval hs h.tail.right
  | .letIn p init body, _, _, _, h => by
    refine (init.agree_eval hs h.tail.left.right).bind fun _ _ hv => ?_
    refine (p.agree_matchIn hs h.tail.left.left hv).bind fun _ _ hbs => ?_
    cases hbs with
    | none => exact .fail rfl (congrArg (Cause.notMatching · p) hv.view_eq)
    | some hbs => exact body.agree_eval hs (h.tail.right.bind hbs)
  | .lambda f, _, _, _, h =>
    .pure (.closure (r.lambda (h.terms _ List.mem_cons_self)) h.tail.terms h.names)
  | .call callee args, span, env, env', h => by
    have hall := Term.agree_mem hs h.tail.right
    have hsame := Serves.form?_eq h.tail.left
    cases hform : env.form? callee with
    | some form =>
      refine Node.agree_form hform (hsame ▸ hform) (fun hassert => ?_) hall
      exact r.assertion (hassert ▸ hform) (h.terms _ List.mem_cons_self)
    | none =>
      have hform' : env'.form? callee = none := hsame ▸ hform
      obtain ⟨node, cspan⟩ := callee
      cases node with
      | field e name =>
        have he := e.agree_eval hs h.tail.left.tail
        exact Node.agree_callField hs hform hform' he hall
      | _ =>
        rw [Node.eval_call hform (by simp), Node.eval_call hform' (by simp)]
        have hf := Term.agree_eval hs h.tail.left
        exact hf.bind fun _ _ hf =>
          (Term.agree_evalList hall).bind fun _ _ hvs => hs.apply _ _ _ _ hf hvs
  | .object entries, _, _, _, h =>
    (Entry.agree_evalList hs h.tail .nil).bind fun _ _ hf => .pure (Value.alikeIn_object.mpr hf)
  | .array items, _, _, _, h =>
    (Item.agree_evalList hs h.tail).bind fun _ _ hv => .pure (.array hv)
  | .field e name, _, _, _, h =>
    (e.agree_eval hs h.tail).bind fun _ _ hv => hv.agree_readField name
  | .index e key, _, _, _, h =>
    (e.agree_eval hs h.tail.left).bind fun _ _ hv =>
      (key.agree_eval hs h.tail.right).bind fun _ _ hk => hv.agree_readIndex hk
  | .template parts, _, _, _, h =>
    (Part.agree_evalList hs h.tail).bind fun _ _ ht => .pure (ht ▸ .atom rfl)
  | .block statements result, _, _, _, h => by
    refine Statement.agree_evalList hs h.tail.left (h.tail.right.names.mono fun n hn => ?_)
      fun _ _ hN => result.agree_eval hs ⟨h.tail.right.terms, hN⟩
    rw [Term.mem_occurrences, List.append_nil]
    exact ⟨hn.2, hn.1⟩
  | .await e, _, _, _, h => e.agree_eval hs h.tail
  | .throw e, span, _, _, h =>
    (e.agree_eval hs h.tail).bind fun v _ hv =>
      ⟨r.thrown (h.terms _ List.mem_cons_self) v, congrArg Error.thrown hv.view_eq⟩
  | .matchOn e cases, _, _, _, h =>
    (e.agree_eval hs h.tail.left).bind fun _ _ hv => Case.agree_evalList hs h.tail.right hv
termination_by structural n => n

theorem Term.agree_mem (hs : s.Respects r) :
    ∀ {es : List Term} {env env' : Environment},
      Serves r (Term.occurrencesList [] false es) (Term.walkList es) env env' →
        ∀ e ∈ es, Agree r (AlikeIn r) (e.eval s env) (e.eval s env')
  | [], _, _, _ => by simp
  | e :: es, _, _, h =>
    List.forall_mem_cons.mpr ⟨e.agree_eval hs h.left, Term.agree_mem hs h.right⟩
termination_by structural es => es

theorem Entry.agree_evalList (hs : s.Respects r) :
    ∀ {es : List Entry} {env env' : Environment} {fs gs : List (String × Value)},
      Serves r (Term.occurrencesEntries [] false es) (Term.walkEntries es) env env' →
        AlikeFieldsIn r fs gs →
          Agree r (AlikeFieldsIn r) (Entry.evalList s env fs es) (Entry.evalList s env' gs es)
  | [], _, _, _, _, _, hf => .pure hf
  | .field name e :: _, _, _, _, _, h, hf =>
    (e.agree_eval hs h.left).bind fun _ _ hv => Entry.agree_evalList hs h.right (hf.put name hv)
  | .spread e :: _, _, _, _, _, h, hf =>
    (e.agree_eval hs h.left).bind fun _ _ hv => hv.agree_spreadFields.bind fun _ _ hmore =>
      Entry.agree_evalList hs h.right (hf.putAll hmore)
termination_by structural es => es

theorem Item.agree_evalList (hs : s.Respects r) :
    ∀ {es : List Item} {env env' : Environment},
      Serves r (Term.occurrencesItems [] false es) (Term.walkItems es) env env' →
        Agree r (List.Forall₂ (AlikeIn r)) (Item.evalList s env es) (Item.evalList s env' es)
  | [], _, _, _ => .pure .nil
  | .item e :: _, _, _, h =>
    (e.agree_eval hs h.left).bind fun _ _ hv =>
      (Item.agree_evalList hs h.right).bind fun _ _ hvs => .pure (.cons hv hvs)
  | .spread e :: _, _, _, h =>
    (e.agree_eval hs h.left).bind fun _ _ hv => hv.agree_spreadItems.bind fun _ _ hitems =>
      (Item.agree_evalList hs h.right).bind fun _ _ hvs => .pure (List.rel_append hitems hvs)
termination_by structural es => es

theorem Part.agree_evalList (hs : s.Respects r) :
    ∀ {es : List Part} {env env' : Environment},
      Serves r (Term.occurrencesParts [] false es) (Term.walkParts es) env env' →
        Agree r Eq (Part.evalList s env es) (Part.evalList s env' es)
  | [], _, _, _ => .pure rfl
  | .text _ :: es, env, env', h => by
    have ih : Agree r Eq (Part.evalList s env es) (Part.evalList s env' es) :=
      Part.agree_evalList hs h
    exact ih.bind fun _ _ ht => .pure (by rw [ht])
  | .interp e :: es, _, _, h =>
    (e.agree_eval hs h.left).bind fun _ _ hv =>
      (Part.agree_evalList hs h.right).bind fun _ _ ht => .pure (by rw [hv.text_eq, ht])
termination_by structural es => es

theorem Statement.agree_evalList (hs : s.Respects r) :
    ∀ {ss : List Statement} {env env' : Environment} {N : String → Prop}
      {result : Environment → Outcome Value},
      Serves r (Term.occurrencesStatements [] false ss) (Term.walkStatements ss) env env' →
        AlikeOn r (fun n => N n ∧ n ∉ ss.flatMap Statement.names) env env' →
          (∀ env env', AlikeOn r N env env' → Agree r (AlikeIn r) (result env) (result env')) →
            Agree r (AlikeIn r) (Statement.evalList s env ss result)
              (Statement.evalList s env' ss result)
  | [], env, env', N, _, _, hN, hr => hr env env' (hN.mono fun n hn => ⟨hn, List.not_mem_nil⟩)
  | .bind p e :: ss, _, _, N, _, h, hN, hr => by
    refine (e.agree_eval hs h.left.right).bind fun _ _ hv => ?_
    refine (p.agree_matchIn hs h.left.left hv).bind fun _ _ hbs => ?_
    cases hbs with
    | none => exact .fail rfl (congrArg (Cause.notMatching · p) hv.view_eq)
    | some hbs =>
      refine Statement.agree_evalList hs
        ⟨h.right.terms, AlikeOn.bind (h.right.names.mono fun n hn => ?_) hbs⟩
        (AlikeOn.bind (hN.mono fun n hn => ?_) hbs) hr
      · rw [Term.mem_occurrencesStatements, List.append_nil]
        exact ⟨hn.2, hn.1⟩
      · rw [List.flatMap_cons, List.mem_append, not_or]
        exact ⟨hn.1.1, hn.2, hn.1.2⟩
  | .eval e :: ss, _, _, N, _, h, hN, hr =>
    (e.agree_eval hs h.left).bind fun _ _ _ => Statement.agree_evalList hs h.right hN hr
  | .load loaded module :: ss, env, env', N, _, h, hN, hr => by
    let M : String → Prop := fun n =>
      n ∈ namesOf (Term.occurrencesStatements [] false ss) ∨ N n ∧ n ∉ ss.flatMap Statement.names
    have hM : AlikeOn r (fun n => M n ∧ n ∉ loaded) env env' := by
      rintro n ⟨hn | hn, hloaded⟩
      · refine h.names n (Term.mem_occurrencesStatements (loaded ++ []) false ss |>.mpr ⟨?_, hn⟩)
        rwa [List.append_nil]
      · refine hN n ⟨hn.1, ?_⟩
        rw [List.flatMap_cons, List.mem_append, not_or]
        exact ⟨hloaded, hn.2⟩
    exact (AlikeOn.agree_load (hs.imports module) hM).bind fun _ _ hload =>
      Statement.agree_evalList hs ⟨h.terms, hload.mono fun _ => Or.inl⟩
        (hload.mono fun _ => Or.inr) hr
termination_by structural ss => ss

theorem Case.agree_evalList (hs : s.Respects r) :
    ∀ {cs : List Case} {env env' : Environment} {v w : Value},
      Serves r (Term.occurrencesCases [] false cs) (Term.walkCases cs) env env' → AlikeIn r v w →
        Agree r (AlikeIn r) (Case.evalList s env v cs) (Case.evalList s env' w cs)
  | [], _, _, _, _, _, hv => .fail rfl (congrArg Cause.noCaseAccepts hv.view_eq)
  | .mk p none body :: cs, _, _, _, _, h, hv => by
    refine (p.agree_matchIn hs h.left.left hv).bind fun _ _ hbs => ?_
    cases hbs with
    | none => exact Case.agree_evalList hs h.right hv
    | some hbs => exact body.agree_eval hs (h.left.right.bind hbs)
  | .mk p (some guard) body :: cs, _, _, _, _, h, hv => by
    refine (p.agree_matchIn hs h.left.left.left hv).bind fun _ _ hbs => ?_
    cases hbs with
    | none => exact Case.agree_evalList hs h.right hv
    | some hbs =>
      refine (guard.agree_eval hs (h.left.left.right.bind hbs)).bind fun _ _ hg =>
        hg.agree_condition.bind fun c _ hc => ?_
      subst hc
      split_ifs
      · exact body.agree_eval hs (h.left.right.bind hbs)
      · exact Case.agree_evalList hs h.right hv
termination_by structural cs => cs

theorem Pattern.agree_matchIn (hs : s.Respects r) :
    ∀ {p : Pattern} {env env' : Environment} {v w : Value},
      Serves r (Term.occurrencesPattern [] false p) (Term.walkPattern p) env env' →
        AlikeIn r v w → Agree r (Option.Rel (Bindings.AlikeNaming r p.names))
          (p.matchIn s env v) (p.matchIn s env' w)
  | .wildcard, _, _, _, _, _, _ => .pure (.some ⟨.nil, List.nil_subset _⟩)
  | .binding name, _, _, _, _, _, hv => .pure (.some ⟨.cons ⟨rfl, hv⟩ .nil, List.Subset.refl _⟩)
  | .literal l, _, _, v, w, _, hv => by
    have heq : (v == l.toValue) = (w == l.toValue) := hv.same_eq (.atom (by cases l <;> rfl))
    simp only [Pattern.matchIn, heq]
    split_ifs
    · exact .pure (.some ⟨.nil, List.nil_subset _⟩)
    · exact .pure .none
  | .object fields, _, _, v, _, h, hv => by
    cases hv with
    | atom hv =>
      cases v with
      | object => simp [Value.isAtom] at hv
      | _ => exact .pure .none
    | object hn hv => exact Pattern.agree_matchFieldsIn hs h (Value.alikeFieldsIn_iff.mpr ⟨hn, hv⟩)
    | _ => exact .pure .none
  | .array ps rest, _, _, v, _, h, hv => by
    cases hv with
    | atom hv =>
      cases v with
      | array => simp [Value.isAtom] at hv
      | _ => exact .pure .none
    | @array vs ws hv =>
      simp only [Pattern.matchIn, hv.length_eq]
      split_ifs with hfits
      · have hlength : ps.length ≤ vs.length := hv.length_eq ▸ Pattern.length_le_of_fits hfits
        refine (Pattern.agree_matchItemsIn hs h hv hlength).bind fun _ _ hbs => ?_
        cases hbs with
        | none => exact .pure .none
        | some hbs => exact .pure (.some (hbs.append (Pattern.alike_restBindings _ rest hv)))
      · exact .pure .none
    | _ => exact .pure .none
  | .type ty inner, _, _, v, w, h, hv => by
    refine (ty.agree_eval hs h.left).bind fun _ _ ht => ht.agree_asType.bind fun c _ hc => ?_
    subst hc
    rw [hv.admits_eq]
    split_ifs
    · exact inner.agree_matchIn hs h.right hv
    · exact .pure .none
termination_by structural p => p

theorem Pattern.agree_matchFieldsIn (hs : s.Respects r) :
    ∀ {fields : List (String × Pattern)} {env env' : Environment} {fs gs : List (String × Value)},
      Serves r (Term.occurrencesFields [] false fields) (Term.walkPatternFields fields) env env' →
        AlikeFieldsIn r fs gs →
          Agree r (Option.Rel (Bindings.AlikeNaming r (Pattern.fieldNames fields)))
            (Pattern.matchFieldsIn s env fields fs) (Pattern.matchFieldsIn s env' fields gs)
  | [], _, _, _, _, _, _ => .pure (.some ⟨.nil, List.nil_subset _⟩)
  | (name, p) :: fields, _, _, fs, gs, h, hf => by
    have hfind := hf.find? name
    simp only [Pattern.matchFieldsIn]
    generalize find? name fs = x at hfind
    generalize find? name gs = y at hfind
    cases hfind with
    | none => exact .pure .none
    | some hv =>
      refine (p.agree_matchIn hs h.left hv).bind fun _ _ hbs => ?_
      cases hbs with
      | none => exact .pure .none
      | some hbs =>
        refine (Pattern.agree_matchFieldsIn hs h.right hf).bind fun _ _ hmore => ?_
        cases hmore with
        | none => exact .pure .none
        | some hmore => exact .pure (.some (hbs.append hmore))
termination_by structural fields => fields

theorem Pattern.agree_matchItemsIn (hs : s.Respects r) :
    ∀ {ps : List Pattern} {env env' : Environment} {vs ws : List Value},
      Serves r (Term.occurrencesPatterns [] false ps) (Term.walkPatterns ps) env env' →
        List.Forall₂ (AlikeIn r) vs ws → ps.length ≤ vs.length →
          Agree r (Option.Rel (Bindings.AlikeNaming r (Pattern.itemNames ps)))
            (Pattern.matchItemsIn s env ps vs) (Pattern.matchItemsIn s env' ps ws)
  | [], _, _, _, _, _, _, _ => .pure (.some ⟨.nil, List.nil_subset _⟩)
  | p :: ps, _, _, _, _, h, hvs, hlength => by
    cases hvs with
    | nil => simp at hlength
    | cons hv hvs =>
      refine (p.agree_matchIn hs h.left hv).bind fun _ _ hbs => ?_
      cases hbs with
      | none => exact .pure .none
      | some hbs =>
        have hmore := Pattern.agree_matchItemsIn hs h.right hvs (Nat.le_of_succ_le_succ hlength)
        refine hmore.bind fun _ _ hmore => ?_
        cases hmore with
        | none => exact .pure .none
        | some hmore => exact .pure (.some (hbs.append hmore))
termination_by structural ps => ps

end

/-! ### Calls -/

lemma Param.agree_check (hs : s.Respects r) {env env' : Environment} {params : List Param}
    (h : Serves r (Term.occurrencesParams [] false params) (Term.walkParams params) env env')
    {args args' : List Value} (hargs : List.Forall₂ (AlikeIn r) args args') :
    Agree r Eq (Param.check s env params args) (Param.check s env' params args') := by
  induction hargs generalizing params with
  | nil =>
    cases params with
    | nil => exact .pure rfl
    | cons param params =>
      obtain ⟨name, ty⟩ := param
      cases ty <;> exact .pure rfl
  | @cons v w args args' hv _ ih =>
    cases params with
    | nil => exact .pure rfl
    | cons param params =>
      obtain ⟨name, ty⟩ := param
      cases ty with
      | none => exact ih h
      | some ty =>
        refine (ty.agree_eval hs h.left).bind fun _ _ ht =>
          ht.agree_asType.bind fun c _ hc => ?_
        subst hc
        rw [hv.admits_eq]
        split_ifs
        · exact ih h.right
        · exact .fail rfl (congrArg (fun v => Cause.parameter name c (.value v)) hv.view_eq)

lemma Environment.AlikeOn.own {N : String → Prop} {env env' : Environment} {f : Lambda}
    (hf : AlikeIn r (.closure f env) (.closure f env'))
    (h : AlikeOn r (fun n => N n ∧ n ∉ f.name.toList) env env') :
    AlikeOn r N ((f.name.toList.map fun name => (name, .closure f env)) ++ env)
      ((f.name.toList.map fun name => (name, .closure f env')) ++ env') := by
  cases hname : f.name with
  | none => exact h.mono fun n hn => ⟨hn, by simp [hname]⟩
  | some name => exact AlikeOn.cons hf (h.mono fun n hn => ⟨hn.1, by simpa [hname] using hn.2⟩)

lemma Bindings.alike_zip {params : List String} {args args' : List Value}
    (h : List.Forall₂ (AlikeIn r) args args') (hlength : args.length = params.length) :
    Bindings.AlikeNaming r params (params.zip args) (params.zip args') := by
  refine ⟨?_, ?_⟩
  · clear hlength
    induction h generalizing params with
    | nil => simp
    | cons hv _ ih =>
      cases params with
      | nil => exact .nil
      | cons name params => exact .cons ⟨rfl, hv⟩ ih
  · rw [names, List.map_fst_zip (Nat.le_of_eq hlength.symm)]
    exact List.Subset.refl _

lemma Lambda.agree_invoke (hr : r.exact = false) (hs : s.Respects r) {f : Lambda}
    {env env' : Environment} (hf : AlikeIn r (.closure f env) (.closure f env')) {args args' : List Value}
    (hargs : List.Forall₂ (AlikeIn r) args args') :
    Agree r (AlikeIn r) (f.invoke s env args) (f.invoke s env' args') := by
  have houter : Serves r (Term.occurrencesLambda [] false f) (Term.walkLambda f) env env' := by
    cases hf with
    | atom h => simp [Value.isAtom] at h
    | function h => simp [hr] at h
    | closure _ hterms h => exact ⟨hterms, h⟩
  unfold Lambda.invoke
  rw [hargs.length_eq]
  split_ifs with harity
  · obtain ⟨id, name, params, body⟩ := f
    refine (Param.agree_check hs houter.left hargs).bind fun _ _ _ =>
      body.agree_eval hs ⟨houter.right.terms, ?_⟩
    have hlength : args.length = (Lambda.mk id name params body).paramNames.length := by
      rw [hargs.length_eq, harity, Lambda.paramNames, List.length_map, Lambda.arity]
    refine AlikeOn.bind (AlikeOn.cons (.array hargs) (AlikeOn.own hf ?_))
      (Bindings.alike_zip hargs hlength)
    refine houter.right.names.mono fun n hn =>
      (Term.mem_occurrences _ true body).mpr ⟨?_, hn.1.1.1⟩
    obtain ⟨⟨⟨_, hparam⟩, hargument⟩, hname⟩ := hn
    simp only [Lambda.boundNames, List.append_nil, List.mem_append, List.mem_singleton, not_or]
    exact ⟨⟨hname, hparam⟩, hargument⟩
  · exact .fail rfl (congrArg (fun v => Cause.arity (.value v) f.arity _) hf.view_eq)

lemma Value.respects_applyWith {call : Lambda → Environment → List Value → Outcome Value}
    (hcall : ∀ f env env' args args', AlikeIn r (.closure f env) (.closure f env') →
      List.Forall₂ (AlikeIn r) args args' →
        Agree r (AlikeIn r) (call f env args) (call f env' args'))
    (nesting : Nat) : Builtin.Respects r (Value.applyWith call nesting) := by
  induction nesting with
  | zero =>
    intro v w args args' h hargs
    have hother := congrArg (Cause.notAFunction ∘ Subject.value) h.view_eq
    cases h with
    | function h => exact hcall _ _ _ _ _ (.function h) hargs
    | closure hr hterms h => exact hcall _ _ _ _ _ (.closure hr hterms h) hargs
    | atom h =>
      cases v with
      | closure => simp [isAtom] at h
      | builtin => exact .fail rfl rfl
      | _ => exact .fail rfl hother
    | _ => exact .fail rfl hother
  | succ nesting ih =>
    intro v w args args' h hargs
    have hother := congrArg (Cause.notAFunction ∘ Subject.value) h.view_eq
    cases h with
    | function h => exact hcall _ _ _ _ _ (.function h) hargs
    | closure hr hterms h => exact hcall _ _ _ _ _ (.closure hr hterms h) hargs
    | atom h =>
      cases v with
      | closure => simp [isAtom] at h
      | builtin name =>
        simp only [Value.applyWith]
        split
        · exact .fail rfl rfl
        · next b _ =>
          rw [Builtin.map_eq_of_alike hargs fun _ _ h => h.ofValue_eq]
          exact (b.agree_checkArgs _).bind fun _ _ _ => b.agree_run hargs ih
      | _ => exact .fail rfl hother
    | _ => exact .fail rfl hother

lemma Setting.Respects.ofLimit (hr : r.exact = false) {imports : Imports}
    (himports : ∀ module name v, imports.resolve? module name = some (.value v) → AlikeIn r v v)
    (hvalues : ∀ v span, r.term (.mk (.value v) span) → AlikeIn r v v) (limit : Nat) :
    (Setting.ofLimit imports limit).Respects r := by
  have hcall (depth : Nat) (f : Lambda) (env env' : Environment) (args args' : List Value)
      (hf : AlikeIn r (.closure f env) (.closure f env'))
      (hargs : List.Forall₂ (AlikeIn r) args args') :
      Agree r (AlikeIn r) (Lambda.call imports limit depth f env args)
        (Lambda.call imports limit depth f env' args') := by
    induction depth generalizing f env env' args args' with
    | zero => exact ⟨r.failure _ rfl, rfl⟩
    | succ depth ih =>
      exact Lambda.agree_invoke hr ⟨Value.respects_applyWith ih maxNesting, himports, hvalues⟩ hf
        hargs
  exact ⟨Value.respects_applyWith (hcall limit) maxNesting, himports, hvalues⟩

end Evaluation

/-! ### Any programs and any errors -/

def Regime.any : Regime where
  exact := false
  term _ := True
  error _ := True
  failure _ _ := trivial
  withSpan _ _ := trivial
  assertion _ _ _ := trivial
  thrown _ _ := trivial
  lambda _ := rfl

def Outcome.Related {α β : Type} (R : α → β → Prop) : Outcome α → Outcome β → Prop
  | .ok a, .ok b => R a b
  | .error e, .error e' => e.erase = e'.erase
  | _, _ => False

lemma Outcome.Related.mono {α β : Type} {R S : α → β → Prop} {x : Outcome α} {y : Outcome β}
    (h : Related R x y) (hRS : ∀ a b, R a b → S a b) : Related S x y := by
  cases x <;> cases y <;> first | exact hRS _ _ h | exact h

namespace Value

abbrev Alike : Value → Value → Prop := AlikeIn .any

mutual

theorem AlikeIn.refl (hr : r.exact = true ∨ ∀ t, r.term t) : ∀ v : Value, AlikeIn r v v
  | .object fields => alikeIn_object.mpr (AlikeFieldsIn.refl hr fields)
  | .array items => .array (AlikeIn.reflItems hr items)
  | .closure _ env => by
    cases hexact : r.exact with
    | true => exact .function hexact
    | false =>
      have hterm : ∀ t, r.term t := hr.resolve_left (by simp [hexact])
      exact .closure hexact (fun t _ => hterm t) fun n _ => (AlikeFieldsIn.refl hr env).find? n
  | .number _ | .string _ | .bool _ | .null | .builtin _ | .type _ => .atom rfl

theorem AlikeFieldsIn.refl (hr : r.exact = true ∨ ∀ t, r.term t) :
    ∀ fields : List (String × Value), AlikeFieldsIn r fields fields
  | [] => .nil
  | (_, v) :: fields => .cons ⟨rfl, AlikeIn.refl hr v⟩ (AlikeFieldsIn.refl hr fields)

theorem AlikeIn.reflItems (hr : r.exact = true ∨ ∀ t, r.term t) :
    ∀ items : List Value, List.Forall₂ (AlikeIn r) items items
  | [] => .nil
  | v :: items => .cons (AlikeIn.refl hr v) (AlikeIn.reflItems hr items)

end

lemma Alike.refl (v : Value) : Alike v v := AlikeIn.refl (.inr fun _ => trivial) v

end Value

open Outcome (Related)
open Value (Alike)

abbrev Environment.AlikeFor (os : List Occurrence) : Environment → Environment → Prop :=
  AlikeOn .any (· ∈ namesOf os)

open Environment (AlikeFor)

lemma Setting.respects_ofLimit (imports : Imports) (limit : Nat) :
    (Setting.ofLimit imports limit).Respects .any :=
  .ofLimit rfl (fun _ _ v _ => Alike.refl v) (fun v _ _ => Alike.refl v) limit

lemma Term.related_eval {s : Setting} (hs : s.Respects .any) {e : Term} {env env' : Environment}
    (h : AlikeFor e.free env env') : Related Alike (e.eval s env) (e.eval s env') := by
  have hagree := e.agree_eval hs ⟨fun _ _ => trivial, h⟩
  cases hx : e.eval s env <;> cases hy : e.eval s env' <;> rw [hx, hy] at hagree
  · exact hagree.2
  · exact hagree
  · exact hagree
  · exact hagree

/-! ### Names that are not free -/

lemma Term.mem_insertName {n name : String} {ns : List String} :
    n ∈ insertName name ns ↔ n = name ∨ n ∈ ns := by
  induction ns with
  | nil => simp [insertName]
  | cons k ns ih =>
    simp only [insertName]
    split_ifs with hlt heq
    · simp
    · subst heq
      simp
    · rw [List.mem_cons, List.mem_cons, ih]
      tauto

lemma Term.mem_freeNames {n : String} {e : Term} : n ∈ e.freeNames ↔ n ∈ namesOf e.free := by
  have hfold (os : List Occurrence) (ns : List String) :
      n ∈ os.foldl (fun acc o => insertName o.name acc) ns ↔ n ∈ ns ∨ n ∈ namesOf os := by
    induction os generalizing ns with
    | nil => simp
    | cons o os ih =>
      rw [List.foldl_cons, ih, mem_insertName, namesOf, namesOf, List.map_cons, List.mem_cons]
      tauto
  rw [freeNames, hfold]
  simp

lemma Diagnostic.ofError_erase (err : Error) : ofError err.erase = ofError err := by
  have hcode : err.erase.code = err.code := by
    cases err with
    | failure cause span => exact congrArg Category.code (cause.category_map _)
    | _ => rfl
  have hspan : err.erase.span? = err.span? := by
    cases err <;> rfl
  rw [ofError, ofError, err.text_erase, hcode, hspan]

/-- Binding a name that is not free in a program does not change what the program does: it fails
with the same error, or the results are equal but for the environments that their functions have
captured. A result without functions is the same. -/
theorem Term.eval_bind_of_not_mem_freeNames {e : Term} {x : String} (hx : x ∉ e.freeNames)
    (w : Value) (env : Environment) (imports : Imports) (limit : Nat) :
    let outcome := e.eval (.ofLimit imports limit) ((x, w) :: env)
    let outcome' := e.eval (.ofLimit imports limit) env
    outcome.Related (fun v v' => v.erase = v'.erase ∧ (v.isClosureFree → v = v')) outcome' ∧
      ∀ err err', outcome = .error err → outcome' = .error err' →
        Diagnostic.ofError err = Diagnostic.ofError err' := by
  intro outcome outcome'
  have henv : AlikeFor e.free ((x, w) :: env) env := by
    intro n hn
    have hne : x ≠ n := fun h => hx (mem_freeNames.mpr (h ▸ hn))
    rw [find?, if_neg hne]
    exact (AlikeFieldsIn.refl (.inr fun _ => trivial) env).find? n
  have hrelated : outcome.Related Alike outcome' :=
    e.related_eval (Setting.respects_ofLimit imports limit) henv
  refine ⟨hrelated.mono fun v v' h => ⟨h.erase_eq, fun hv => ?_⟩, fun err err' herr herr' => ?_⟩
  · exact Value.eq_of_erase_eq h.erase_eq hv
  · rw [herr, herr'] at hrelated
    have hsame : err.erase = err'.erase := hrelated
    rw [← Diagnostic.ofError_erase err, hsame, Diagnostic.ofError_erase]

/-- The program `[f, f(1)]`, where `f` is the function `fn(x) { x + z }`, binds `x` itself. Its first
item captures another environment if `x` is bound around it, its second item is the same. -/
theorem Term.eval_bind_of_not_mem_freeNames_captured :
    let f : Lambda := .untyped 0 none ["x"] (.binary .add (.var "x") (.var "z"))
    let e : Term := .array [.item (.lambda f), .item (.call (.lambda f) [.number (.ofNat 1)])]
    let env : Environment := [("z", .ofNat 2)]
    let wider : Environment := ("x", .null) :: env
    e.eval (.ofLimit [] 5) wider = .ok (.array [.closure f wider, .ofNat 3]) ∧
      e.eval (.ofLimit [] 5) env = .ok (.array [.closure f env, .ofNat 3]) ∧
      (e.eval (.ofLimit [] 5) wider).Related
        (fun v v' => v.erase = v'.erase ∧ (v.isClosureFree → v = v'))
        (e.eval (.ofLimit [] 5) env) := by
  intro f e env wider
  refine ⟨rfl, rfl, ?_⟩
  exact (Term.eval_bind_of_not_mem_freeNames (e := e) (x := "x") (by decide) .null env [] 5).1

end Stagewise
