import Stagewise.Proofs.Data
import Stagewise.Proofs.Mention
import Stagewise.Term.Substitution

/-! Straight-line programs: they evaluate all their parts in order and bind names by `let`. Their
value depends only on the names they mention, and a program can be put in the place of a name. -/

set_option autoImplicit false

namespace Stagewise

/-! ### Operands -/

namespace Part

def terms : List Part → List Term
  | [] => []
  | .text _ :: parts => terms parts
  | .interp e :: parts => e :: terms parts

def fill : List Part → List Value → String
  | .text t :: parts, vs => t ++ fill parts vs
  | .interp _ :: parts, v :: vs => v.text ++ fill parts vs
  | _, _ => ""

end Part

inductive Node.Strict : List Term → (List Value → Value → Prop) → Node → Prop
  | unary {op e} : Strict [e] (fun vs v => ∃ x, vs = [x] ∧ op.apply x = .ok v) (.unary op e)
  | binary {op a b} : op.isLogical = false →
      Strict [a, b] (fun vs v => ∃ x y, vs = [x, y] ∧ op.apply x y = .ok v) (.binary op a b)
  | object {fields : List (String × Term)} :
      Strict (fields.map Prod.snd)
        (fun vs v => v = .object (Association.putAll [] ((fields.map Prod.fst).zip vs)))
        (.object (fields.map fun p => .field p.1 p.2))
  | array {es : List Term} : Strict es (fun vs v => v = .array vs) (.array (es.map .item))
  | field {e name} : Strict [e] (fun vs v => ∃ x, vs = [x] ∧ x.readField name = .ok v) (.field e name)
  | index {e key} :
      Strict [e, key] (fun vs v => ∃ x k, vs = [x, k] ∧ x.readIndex k = .ok v) (.index e key)
  | template {parts} :
      Strict (Part.terms parts) (fun vs v => v = .string (Part.fill parts vs)) (.template parts)

section Evaluation

variable {s : Setting} {env : Environment} {v w : Value} {vs : List Value}

@[simp] lemma Term.evalList_nil : Term.evalList s env [] = .ok vs ↔ vs = [] := by
  simp [Term.evalList, eq_comm]

@[simp] lemma Term.evalList_cons {e : Term} {es : List Term} :
    Term.evalList s env (e :: es) = .ok vs ↔
      ∃ x xs, e.eval s env = .ok x ∧ Term.evalList s env es = .ok xs ∧ vs = x :: xs := by
  rw [Term.evalList, Outcome.bind_eq_ok]
  constructor
  · rintro ⟨x, hx, h⟩
    obtain ⟨xs, hxs, h⟩ := Outcome.bind_eq_ok.mp h
    exact ⟨x, xs, hx, hxs, (Except.ok.inj h).symm⟩
  · rintro ⟨x, xs, hx, hxs, rfl⟩
    exact ⟨x, hx, Outcome.bind_eq_ok.mpr ⟨xs, hxs, rfl⟩⟩

lemma Entry.evalList_fields {fields : List (String × Term)} {acc result : List (String × Value)} :
    Entry.evalList s env acc (fields.map fun p => .field p.1 p.2) = .ok result ↔
      ∃ vs, Term.evalList s env (fields.map Prod.snd) = .ok vs ∧
        result = Association.putAll acc ((fields.map Prod.fst).zip vs) := by
  induction fields generalizing acc with
  | nil =>
    constructor
    · intro h
      exact ⟨[], rfl, (Except.ok.inj h).symm⟩
    · rintro ⟨vs, hvs, rfl⟩
      obtain rfl := Term.evalList_nil.mp hvs
      rfl
  | cons p fields ih =>
    rw [List.map_cons, Entry.evalList, Outcome.bind_eq_ok]
    constructor
    · rintro ⟨x, hx, h⟩
      obtain ⟨xs, hxs, rfl⟩ := ih.mp h
      exact ⟨x :: xs, Term.evalList_cons.mpr ⟨x, xs, hx, hxs, rfl⟩, rfl⟩
    · rintro ⟨vs, hvs, rfl⟩
      obtain ⟨x, xs, hx, hxs, rfl⟩ := Term.evalList_cons.mp hvs
      exact ⟨x, hx, ih.mpr ⟨xs, hxs, rfl⟩⟩

lemma Item.evalList_items {es : List Term} :
    Item.evalList s env (es.map .item) = .ok vs ↔ Term.evalList s env es = .ok vs := by
  induction es generalizing vs with
  | nil => exact Iff.rfl
  | cons e es ih =>
    rw [List.map_cons, Item.evalList, Outcome.bind_eq_ok, Term.evalList_cons]
    constructor
    · rintro ⟨x, hx, h⟩
      obtain ⟨xs, hxs, h⟩ := Outcome.bind_eq_ok.mp h
      exact ⟨x, xs, hx, ih.mp hxs, (Except.ok.inj h).symm⟩
    · rintro ⟨x, xs, hx, hxs, rfl⟩
      exact ⟨x, hx, Outcome.bind_eq_ok.mpr ⟨xs, ih.mpr hxs, rfl⟩⟩

lemma Part.evalList_eq_ok {parts : List Part} {text : String} :
    Part.evalList s env parts = .ok text ↔
      ∃ vs, Term.evalList s env (Part.terms parts) = .ok vs ∧ text = Part.fill parts vs := by
  induction parts generalizing text with
  | nil =>
    constructor
    · intro h
      exact ⟨[], rfl, (Except.ok.inj h).symm⟩
    · rintro ⟨vs, hvs, rfl⟩
      rfl
  | cons part parts ih =>
    cases part with
    | text t =>
      rw [Part.evalList, Outcome.bind_eq_ok, Part.terms]
      constructor
      · rintro ⟨rest, hrest, h⟩
        obtain ⟨vs, hvs, rfl⟩ := ih.mp hrest
        exact ⟨vs, hvs, (Except.ok.inj h).symm⟩
      · rintro ⟨vs, hvs, rfl⟩
        exact ⟨_, ih.mpr ⟨vs, hvs, rfl⟩, rfl⟩
    | interp e =>
      rw [Part.evalList, Outcome.bind_eq_ok, Part.terms]
      constructor
      · rintro ⟨x, hx, h⟩
        obtain ⟨rest, hrest, h⟩ := Outcome.bind_eq_ok.mp h
        obtain ⟨xs, hxs, rfl⟩ := ih.mp hrest
        exact ⟨x :: xs, Term.evalList_cons.mpr ⟨x, xs, hx, hxs, rfl⟩, (Except.ok.inj h).symm⟩
      · rintro ⟨vs, hvs, rfl⟩
        obtain ⟨x, xs, hx, hxs, rfl⟩ := Term.evalList_cons.mp hvs
        exact ⟨x, hx, Outcome.bind_eq_ok.mpr ⟨_, ih.mpr ⟨xs, hxs, rfl⟩, rfl⟩⟩

lemma Node.Strict.eval_eq_ok {es : List Term} {R : List Value → Value → Prop} {node : Node}
    (h : node.Strict es R) :
    node.eval s env = .ok v ↔ ∃ vs, Term.evalList s env es = .ok vs ∧ R vs v := by
  cases h with
  | unary | field => simp [Node.eval, Outcome.bind_eq_ok]
  | binary hop => simp [Node.eval_binary hop, Outcome.bind_eq_ok, and_assoc]
  | object =>
    rw [Node.eval, Outcome.bind_eq_ok]
    constructor
    · rintro ⟨result, hresult, h⟩
      obtain ⟨vs, hvs, rfl⟩ := Entry.evalList_fields.mp hresult
      exact ⟨vs, hvs, (Except.ok.inj h).symm⟩
    · rintro ⟨vs, hvs, rfl⟩
      exact ⟨_, Entry.evalList_fields.mpr ⟨vs, hvs, rfl⟩, rfl⟩
  | array =>
    rw [Node.eval, Outcome.bind_eq_ok]
    constructor
    · rintro ⟨vs, hvs, h⟩
      exact ⟨vs, Item.evalList_items.mp hvs, (Except.ok.inj h).symm⟩
    · rintro ⟨vs, hvs, rfl⟩
      exact ⟨vs, Item.evalList_items.mpr hvs, rfl⟩
  | index => simp [Node.eval, Outcome.bind_eq_ok, and_assoc]
  | template =>
    rw [Node.eval, Outcome.bind_eq_ok]
    constructor
    · rintro ⟨text, htext, h⟩
      obtain ⟨vs, hvs, rfl⟩ := Part.evalList_eq_ok.mp htext
      exact ⟨vs, hvs, (Except.ok.inj h).symm⟩
    · rintro ⟨vs, hvs, rfl⟩
      exact ⟨_, Part.evalList_eq_ok.mpr ⟨vs, hvs, rfl⟩, rfl⟩

lemma Node.eval_skip {init body : Term} :
    (Node.letIn .wildcard init body).eval s env = .ok w ↔
      ∃ v, init.eval s env = .ok v ∧ body.eval s env = .ok w := by
  rw [Node.eval, Outcome.bind_eq_ok]
  exact Iff.rfl

lemma Node.eval_bind {name : String} {init body : Term} :
    (Node.letIn (.binding name) init body).eval s env = .ok w ↔
      ∃ v, init.eval s env = .ok v ∧ body.eval s ((name, v) :: env) = .ok w := by
  rw [Node.eval, Outcome.bind_eq_ok]
  exact Iff.rfl

lemma Term.evalList_map {s : Setting} {env env' : Environment} {es : List Term} {vs : List Value}
    {f : Term → Term} (h : Term.evalList s env es = .ok vs)
    (hf : ∀ e ∈ es, ∀ v, e.eval s env = .ok v → (f e).eval s env' = .ok v) :
    Term.evalList s env' (es.map f) = .ok vs := by
  induction es generalizing vs with
  | nil => exact h
  | cons e es ih =>
    rw [List.forall_mem_cons] at hf
    obtain ⟨x, xs, hx, hxs, rfl⟩ := Term.evalList_cons.mp h
    exact Term.evalList_cons.mpr ⟨x, xs, hf.1 x hx, ih hxs hf.2, rfl⟩

end Evaluation

section Names

open Term Occurrence

variable {n : String}

lemma Entry.mentions_fields {fields : List (String × Term)} :
    n ∈ namesOf (occurrencesEntries [] false (fields.map fun p => .field p.1 p.2)) ↔
      ∃ e ∈ fields.map Prod.snd, e.mentions n := by
  induction fields with
  | nil => simp [occurrencesEntries]
  | cons p fields ih =>
    simp only [List.map_cons, occurrencesEntries, List.map_append, List.mem_append, ih,
      List.exists_mem_cons_iff, mentions_iff, free]

lemma Item.mentions_items {es : List Term} :
    n ∈ namesOf (occurrencesItems [] false (es.map .item)) ↔ ∃ e ∈ es, e.mentions n := by
  induction es with
  | nil => simp [occurrencesItems]
  | cons e es ih =>
    simp only [List.map_cons, occurrencesItems, List.map_append, List.mem_append, ih,
      List.exists_mem_cons_iff, mentions_iff, free]

lemma Part.mentions_terms {parts : List Part} :
    n ∈ namesOf (occurrencesParts [] false parts) ↔ ∃ e ∈ Part.terms parts, e.mentions n := by
  induction parts with
  | nil => simp [occurrencesParts, Part.terms]
  | cons part parts ih =>
    cases part with
    | text t => rw [occurrencesParts, Part.terms, ih]
    | interp e =>
      simp only [occurrencesParts, Part.terms, List.map_append, List.mem_append, ih,
        List.exists_mem_cons_iff, mentions_iff, free]

lemma Node.Strict.mentions {es : List Term} {R : List Value → Value → Prop} {node : Node}
    (h : node.Strict es R) {span : Option Span} :
    (Term.mk node span).mentions n ↔ ∃ e ∈ es, e.mentions n := by
  rw [mentions_mk]
  cases h with
  | unary | binary | field | index => simp [occurrencesNode, mentions_iff, free]
  | object => rw [occurrencesNode, Entry.mentions_fields]
  | array => rw [occurrencesNode, Item.mentions_items]
  | template => rw [occurrencesNode, Part.mentions_terms]

lemma Node.Strict.not_mentions {es : List Term} {R : List Value → Value → Prop} {node : Node}
    (h : node.Strict es R) {span : Option Span} :
    (Term.mk node span).mentions n = false ↔ ∀ e ∈ es, e.mentions n = false := by
  rw [← Bool.not_eq_true, h.mentions]
  simp

lemma Term.mentions_var {name : String} {span : Option Span} :
    (Term.mk (.var name) span).mentions n ↔ n = name := by
  simp [mentions_mk, occurrencesNode]

lemma Term.mentions_letIn {p : Pattern} {init body : Term} {span : Option Span} :
    (Term.mk (.letIn p init body) span).mentions n ↔
      n ∈ namesOf (occurrencesPattern [] false p) ∨ init.mentions n ∨
        n ∉ p.names ∧ body.mentions n := by
  rw [mentions_mk, occurrencesNode]
  simp only [namesOf, List.map_append, List.mem_append]
  rw [mem_occurrences (p.names ++ []), List.append_nil, mentions_iff, mentions_iff, or_assoc]
  exact Iff.rfl

lemma Term.mentions_skip {init body : Term} {span : Option Span} :
    (Term.mk (.letIn .wildcard init body) span).mentions n ↔ init.mentions n ∨ body.mentions n := by
  simp [mentions_letIn, occurrencesPattern, Pattern.names]

lemma Term.mentions_bind {name : String} {init body : Term} {span : Option Span} :
    (Term.mk (.letIn (.binding name) init body) span).mentions n ↔
      init.mentions n ∨ n ≠ name ∧ body.mentions n := by
  simp [mentions_letIn, occurrencesPattern, Pattern.names]

end Names

section Substitution

variable {r : Replacement}

lemma Entry.substituteList_fields {fields : List (String × Term)} :
    Entry.substituteList r (fields.map fun p => .field p.1 p.2) =
      (fields.map fun p => (p.1, p.2.substitute r)).map fun p => .field p.1 p.2 := by
  induction fields with
  | nil => rfl
  | cons p fields ih => simp [Entry.substituteList, ih]

lemma Item.substituteList_items {es : List Term} :
    Item.substituteList r (es.map .item) = (es.map (Term.substitute r)).map .item := by
  induction es with
  | nil => rfl
  | cons e es ih => simp [Item.substituteList, ih]

lemma Part.terms_substituteList (parts : List Part) :
    Part.terms (Part.substituteList r parts) = (Part.terms parts).map (Term.substitute r) := by
  induction parts with
  | nil => rfl
  | cons part parts ih => cases part <;> simp [Part.substituteList, Part.terms, ih]

lemma Part.fill_substituteList (parts : List Part) :
    Part.fill (Part.substituteList r parts) = Part.fill parts := by
  induction parts with
  | nil => rfl
  | cons part parts ih =>
    funext vs
    cases part with
    | text t => simp [Part.substituteList, Part.fill, ih]
    | interp e => cases vs <;> simp [Part.substituteList, Part.fill, ih]

lemma Node.Strict.substitute {es : List Term} {R : List Value → Value → Prop} {node : Node}
    (h : node.Strict es R) (r : Replacement) (span : Option Span) :
    ∃ node', node.substitute r span = .mk node' span ∧
      node'.Strict (es.map (Term.substitute r)) R := by
  cases h with
  | unary => exact ⟨_, rfl, .unary⟩
  | binary hop => exact ⟨_, rfl, .binary hop⟩
  | @object fields =>
    refine ⟨_, by rw [Node.substitute, Entry.substituteList_fields], ?_⟩
    have hstrict := @Node.Strict.object (fields.map fun p => (p.1, p.2.substitute r))
    simpa [Function.comp_def] using hstrict
  | array => exact ⟨_, by rw [Node.substitute, Item.substituteList_items], .array⟩
  | field => exact ⟨_, rfl, .field⟩
  | index => exact ⟨_, rfl, .index⟩
  | @template parts =>
    refine ⟨_, rfl, ?_⟩
    rw [← Part.terms_substituteList, ← Part.fill_substituteList parts]
    exact .template

lemma Term.substitute_of_not_mentions {e : Term} (h : e.mentions r.name = false) :
    e.substitute r = e := by
  obtain ⟨node, span⟩ := e
  rw [Term.substitute, h]
  rfl

lemma Term.substitute_literal {l : Literal} {span : Option Span} :
    (Term.mk (.literal l) span).substitute r = .mk (.literal l) span :=
  substitute_of_not_mentions rfl

lemma Term.substitute_value {v : Value} {span : Option Span} :
    (Term.mk (.value v) span).substitute r = .mk (.value v) span :=
  substitute_of_not_mentions rfl

lemma Term.substitute_var {name : String} {span : Option Span} :
    (Term.mk (.var name) span).substitute r =
      if name = r.name then r.term else .mk (.var name) span := by
  rw [Term.substitute, Node.substitute]
  split_ifs with hmentions hname hname
  · rfl
  · rfl
  · exact absurd (Term.mentions_var.mpr hname.symm) hmentions
  · rfl

lemma Term.substitute_strict {es : List Term} {R : List Value → Value → Prop} {node : Node}
    (h : node.Strict es R) (r : Replacement) (span : Option Span) :
    ∃ node', (Term.mk node span).substitute r = .mk node' span ∧
      node'.Strict (es.map (Term.substitute r)) R := by
  rw [Term.substitute]
  split_ifs with hmentions
  · exact h.substitute r span
  · refine ⟨node, rfl, ?_⟩
    have hes : es.map (Term.substitute r) = es := by
      refine (List.map_congr_left fun e he => ?_).trans (List.map_id es)
      refine substitute_of_not_mentions ?_
      by_contra hm
      exact hmentions (h.mentions.mpr ⟨e, he, by simpa using hm⟩)
    rwa [hes]

lemma Term.substitute_skip {init body : Term} {span : Option Span} :
    (Term.mk (.letIn .wildcard init body) span).substitute r =
      .mk (.letIn .wildcard (init.substitute r) (body.substitute r)) span := by
  rw [Term.substitute]
  split_ifs with hmentions
  · simp [Node.substitute, Pattern.names]
  · rw [Term.mentions_skip, not_or, Bool.not_eq_true, Bool.not_eq_true] at hmentions
    rw [substitute_of_not_mentions hmentions.1, substitute_of_not_mentions hmentions.2]

lemma Term.substitute_bind {name : String} {init body : Term} {span : Option Span} :
    (Term.mk (.letIn (.binding name) init body) span).substitute r =
      .mk (.letIn (.binding name) (init.substitute r)
        (if r.name = name then body else body.substitute r)) span := by
  rw [Term.substitute]
  split_ifs with hmentions hname hname
  · simp [Node.substitute, Pattern.names, hname]
  · simp [Node.substitute, Pattern.names, hname]
  · rw [Term.mentions_bind, not_or, Bool.not_eq_true] at hmentions
    rw [substitute_of_not_mentions hmentions.1]
  · rw [Term.mentions_bind, not_or, not_and, Bool.not_eq_true, Bool.not_eq_true] at hmentions
    rw [substitute_of_not_mentions hmentions.1, substitute_of_not_mentions (hmentions.2 hname)]

end Substitution

/-! ### Scoped programs -/

/-- A straight-line program with names from a list. A name that it binds may be in the list too, as
long as the body of the binding is a program of names further back. -/
inductive Term.Scoped : List String → Term → Prop
  | literal {names l span} : Scoped names (.mk (.literal l) span)
  | value {names v span} : Scoped names (.mk (.value v) span)
  | var {names name span} : name ∈ names → Scoped names (.mk (.var name) span)
  | strict {names es R node span} : Node.Strict es R node → (∀ e ∈ es, Scoped names e) →
      Scoped names (.mk node span)
  | skip {names init body span} : Scoped names init → Scoped names body →
      Scoped names (.mk (.letIn .wildcard init body) span)
  | bind {names older name init body span} : Scoped names init → older <:+ names →
      name ∉ older → Scoped (name :: older) body →
      Scoped names (.mk (.letIn (.binding name) init body) span)

def Environment.AgreeOn (names : List String) (env env' : Environment) : Prop :=
  ∀ n ∈ names, Association.find? n env = Association.find? n env'

namespace Environment.AgreeOn

variable {names older : List String} {env env' : Environment}

lemma cons (h : AgreeOn names env env') (name : String) (v : Value) :
    AgreeOn (name :: names) ((name, v) :: env) ((name, v) :: env') := by
  intro n hn
  by_cases hname : name = n
  · simp [Association.find?, hname]
  · have hn : n ∈ names := by simpa [Ne.symm hname] using hn
    simpa [Association.find?, hname] using h n hn

lemma mono (h : AgreeOn names env env') (hsub : older ⊆ names) : AgreeOn older env env' :=
  fun n hn => h n (hsub hn)

lemma skip {name : String} (hname : name ∉ names) (v : Value) :
    AgreeOn names ((name, v) :: env) env := by
  intro n hn
  have hne : name ≠ n := fun h => hname (h ▸ hn)
  simp [Association.find?, hne]

lemma symm (h : AgreeOn names env env') : AgreeOn names env' env := fun n hn => (h n hn).symm

lemma trans {env'' : Environment} (h : AgreeOn names env env') (h' : AgreeOn names env' env'') :
    AgreeOn names env env'' := fun n hn => (h n hn).trans (h' n hn)

end Environment.AgreeOn

namespace Term.Scoped

variable {names names' : List String} {e : Term} {n : String} {s : Setting}
  {env env' : Environment} {v : Value}

lemma mono (h : Scoped names e) (hsub : names <:+ names') : Scoped names' e := by
  induction h with
  | literal => exact .literal
  | value => exact .value
  | var hn => exact .var (hsub.subset hn)
  | strict hnode _ ih => exact .strict hnode fun e he => ih e he hsub
  | skip _ _ ihi ihb => exact .skip (ihi hsub) (ihb hsub)
  | bind _ holder hname hbody ih _ => exact .bind (ih hsub) (holder.trans hsub) hname hbody

lemma mem_of_mentions (h : Scoped names e) (hn : e.mentions n) : n ∈ names := by
  induction h with
  | literal | value => simp [mentions_mk, occurrencesNode] at hn
  | var hmem => exact mentions_var.mp hn ▸ hmem
  | strict hnode _ ih =>
    obtain ⟨e, he, hn⟩ := hnode.mentions.mp hn
    exact ih e he hn
  | skip _ _ ihi ihb => exact (mentions_skip.mp hn).elim ihi ihb
  | bind _ holder _ _ ihi ihb =>
    rcases mentions_bind.mp hn with hn | ⟨hne, hn⟩
    · exact ihi hn
    · exact holder.subset (by simpa [hne] using ihb hn)

lemma eval_congr (h : Scoped names e) (hagree : Environment.AgreeOn names env env')
    (hv : e.eval s env = .ok v) : e.eval s env' = .ok v := by
  induction h generalizing env env' v with
  | literal => exact hv
  | value => exact hv
  | var hmem =>
    have hget := Term.eval_mk_eq_ok.mp hv
    refine Term.eval_mk_eq_ok.mpr ?_
    rw [Node.eval, Environment.get] at hget ⊢
    rwa [← hagree _ hmem]
  | strict hnode _ ih =>
    obtain ⟨vs, hvs, hR⟩ := hnode.eval_eq_ok.mp (Term.eval_mk_eq_ok.mp hv)
    refine Term.eval_mk_eq_ok.mpr (hnode.eval_eq_ok.mpr ⟨vs, ?_, hR⟩)
    simpa using Term.evalList_map (f := id) hvs fun e he v hv => ih e he hagree hv
  | skip _ _ ihi ihb =>
    obtain ⟨x, hx, hv⟩ := Node.eval_skip.mp (Term.eval_mk_eq_ok.mp hv)
    exact Term.eval_mk_eq_ok.mpr (Node.eval_skip.mpr ⟨x, ihi hagree hx, ihb hagree hv⟩)
  | bind _ holder _ _ ihi ihb =>
    obtain ⟨x, hx, hv⟩ := Node.eval_bind.mp (Term.eval_mk_eq_ok.mp hv)
    refine Term.eval_mk_eq_ok.mpr (Node.eval_bind.mpr ⟨x, ihi hagree hx, ihb ?_ hv⟩)
    exact (hagree.mono holder.subset).cons _ x

/-! Replacing the name `b` in a program of the names `inner ++ b :: outer` by a program of the names
`outer`. The names bound on the way are in `inner`; the replacement mentions none of them. -/

variable {b : String} {init : Term} {outer : List String}

lemma suffix_cases {inner older : List String} (h : older <:+ inner ++ b :: outer) :
    older <:+ outer ∨ ∃ between, between <:+ inner ∧ older = between ++ b :: outer := by
  induction inner with
  | nil =>
    rcases List.suffix_cons_iff.mp h with rfl | h
    · exact Or.inr ⟨[], List.suffix_rfl, rfl⟩
    · exact Or.inl h
  | cons x inner ih =>
    rcases List.suffix_cons_iff.mp h with rfl | h
    · exact Or.inr ⟨x :: inner, List.suffix_rfl, rfl⟩
    · refine (ih h).imp_right fun ⟨between, hsuf, heq⟩ => ⟨between, ?_, heq⟩
      exact hsuf.trans (List.suffix_cons x inner)

lemma bind_cases (init : Term) {inner older : List String} {name : String} {body : Term}
    (hb : b ∉ outer) (holder : older <:+ inner ++ b :: outer) (hname : name ∉ older)
    (hbody : Scoped (name :: older) body) :
    older <:+ outer ∧ (if b = name then body else body.substitute ⟨b, init⟩) = body ∨
      b ≠ name ∧ ∃ between, between <:+ inner ∧ older = between ++ b :: outer := by
  rcases suffix_cases holder with hsuf | ⟨between, hsuf, rfl⟩
  · refine Or.inl ⟨hsuf, ?_⟩
    split_ifs with hne
    · rfl
    · refine Term.substitute_of_not_mentions ?_
      by_contra hm
      have hmem := hbody.mem_of_mentions (by simpa using hm)
      exact hb (hsuf.subset (by simpa [hne] using hmem))
  · refine Or.inr ⟨?_, between, hsuf, rfl⟩
    rintro rfl
    exact hname (by simp)

lemma substitute (inner : List String) (h : Scoped names e) (hinit : Scoped outer init)
    (hb : b ∉ outer) (hnames : names = inner ++ b :: outer) :
    Scoped (inner ++ outer) (e.substitute ⟨b, init⟩) := by
  induction h generalizing inner with
  | literal =>
    rw [Term.substitute_literal]
    exact .literal
  | value =>
    rw [Term.substitute_value]
    exact .value
  | @var _ name _ hmem =>
    rw [Term.substitute_var]
    split_ifs with hname
    · exact hinit.mono (List.suffix_append inner outer)
    · rw [hnames] at hmem
      exact .var (by simpa [hname] using hmem)
  | strict hnode _ ih =>
    obtain ⟨node', heq, hnode'⟩ := Term.substitute_strict hnode ⟨b, init⟩ _
    rw [heq]
    refine .strict hnode' fun e he => ?_
    obtain ⟨c, hc, rfl⟩ := List.mem_map.mp he
    exact ih c hc inner hnames
  | skip _ _ ihi ihb =>
    rw [Term.substitute_skip]
    exact .skip (ihi inner hnames) (ihb inner hnames)
  | bind _ holder hname hbody ihi ihb =>
    rw [Term.substitute_bind]
    rw [hnames] at holder
    rcases bind_cases init hb holder hname hbody with
      ⟨hsuf, heq⟩ | ⟨hne, between, hsuf, rfl⟩
    · rw [heq]
      exact .bind (ihi inner hnames) (hsuf.trans (List.suffix_append inner outer)) hname hbody
    · rw [if_neg hne]
      have holder : between ++ outer <:+ inner ++ outer := by
        obtain ⟨front, rfl⟩ := hsuf
        exact ⟨front, by simp⟩
      refine .bind (ihi inner hnames) holder ?_ ?_
      · simp only [List.mem_append, List.mem_cons, not_or] at hname ⊢
        exact ⟨hname.1, hname.2.2⟩
      · exact ihb (_ :: between) (by simp)

lemma eval_substitute (inner : List String) (h : Scoped names e) (hinit : Scoped outer init)
    (hb : b ∉ outer) (hnames : names = inner ++ b :: outer)
    (hagree : Environment.AgreeOn (inner ++ outer) env env') {u : Value}
    (hfind : Association.find? b env = some u) (hu : init.eval s env' = .ok u)
    (hv : e.eval s env = .ok v) : (e.substitute ⟨b, init⟩).eval s env' = .ok v := by
  induction h generalizing inner env env' v with
  | literal => rwa [Term.substitute_literal]
  | value => rwa [Term.substitute_value]
  | @var _ name _ hmem =>
    have hget := Term.eval_mk_eq_ok.mp hv
    rw [Node.eval, Environment.get] at hget
    rw [Term.substitute_var]
    split_ifs with hname
    · rw [hname, hfind] at hget
      exact Except.ok.inj hget ▸ hu
    · rw [hnames] at hmem
      refine eval_congr (.var (by simpa [hname] using hmem)) hagree hv
  | strict hnode _ ih =>
    obtain ⟨vs, hvs, hR⟩ := hnode.eval_eq_ok.mp (Term.eval_mk_eq_ok.mp hv)
    obtain ⟨node', heq, hnode'⟩ := Term.substitute_strict hnode ⟨b, init⟩ _
    rw [heq]
    refine Term.eval_mk_eq_ok.mpr (hnode'.eval_eq_ok.mpr ⟨vs, ?_, hR⟩)
    exact Term.evalList_map hvs fun e he v hv => ih e he inner hnames hagree hfind hu hv
  | skip _ _ ihi ihb =>
    obtain ⟨x, hx, hv⟩ := Node.eval_skip.mp (Term.eval_mk_eq_ok.mp hv)
    rw [Term.substitute_skip]
    exact Term.eval_mk_eq_ok.mpr (Node.eval_skip.mpr
      ⟨x, ihi inner hnames hagree hfind hu hx, ihb inner hnames hagree hfind hu hv⟩)
  | @bind _ older name _ _ _ _ holder hname hbody ihi ihb =>
    obtain ⟨x, hx, hv⟩ := Node.eval_bind.mp (Term.eval_mk_eq_ok.mp hv)
    rw [Term.substitute_bind]
    refine Term.eval_mk_eq_ok.mpr (Node.eval_bind.mpr
      ⟨x, ihi inner hnames hagree hfind hu hx, ?_⟩)
    rw [hnames] at holder
    rcases bind_cases init hb holder hname hbody with
      ⟨hsuf, heq⟩ | ⟨hne, between, hsuf, rfl⟩
    · rw [heq]
      refine eval_congr hbody (.cons (hagree.mono ?_) name x) hv
      exact (hsuf.trans (List.suffix_append inner outer)).subset
    · rw [if_neg hne]
      simp only [List.mem_append, List.mem_cons, not_or] at hname
      have hinner : between ++ outer ⊆ inner ++ outer :=
        List.append_subset.mpr ⟨fun n hn => List.mem_append_left _ (hsuf.subset hn),
          List.subset_append_right inner outer⟩
      refine ihb (name :: between) (by simp) ((hagree.mono hinner).cons name x) ?_ ?_ hv
      · simpa [Association.find?, Ne.symm hne] using hfind
      · exact eval_congr hinit (.symm (.skip hname.2.2 x)) hu

lemma of_not_mentions (h : Scoped (b :: outer) e) (hb : b ∉ outer) (hm : e.mentions b = false) :
    Scoped outer e := by
  have hnull : Scoped outer Term.null := .literal
  have hsub := substitute [] h hnull hb rfl
  rwa [Term.substitute_of_not_mentions hm] at hsub

end Term.Scoped

end Stagewise
