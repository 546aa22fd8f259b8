import Stagewise.Proofs.Surroundings
import Stagewise.Term.Sensitivity

/-! What a parameter that is not sensitive can change. Two calls of a function that differ in such a
parameter only agree on what is evaluated at compile time, wherever the body gets in both. -/

set_option autoImplicit false

namespace Stagewise

/-! ### Parts of a program and the environments they are evaluated in -/

namespace Pattern

mutual

def types : Pattern → List Term
  | .wildcard | .binding _ | .literal _ => []
  | .object fields => typesOfFields fields
  | .array items _ => typesOfItems items
  | .type ty inner => ty :: inner.types
termination_by structural p => p

def typesOfFields : List (String × Pattern) → List Term
  | [] => []
  | (_, p) :: fields => p.types ++ typesOfFields fields
termination_by structural fields => fields

def typesOfItems : List Pattern → List Term
  | [] => []
  | p :: ps => p.types ++ typesOfItems ps
termination_by structural ps => ps

end

def after (s : Setting) (env : Environment) (p : Pattern) (outcome : Outcome Value) :
    Option Environment :=
  match outcome with
  | .error _ => none
  | .ok v =>
    match p.matchIn s env v with
    | .ok (some bindings) => some (env.bindAll bindings)
    | _ => none

end Pattern

abbrev Placed := Term × Option Environment

def Statement.parts (s : Setting) : Option Environment → List Statement → Term → List Placed
  | env?, [], result => [(result, env?)]
  | env?, .bind p e :: ss, result =>
    (p.types ++ [e]).map (·, env?) ++
      Statement.parts s (env?.bind fun env => p.after s env (e.eval s env)) ss result
  | env?, .eval e :: ss, result => (e, env?) :: Statement.parts s env? ss result
  | env?, .load names module :: ss, result =>
    Statement.parts s (env?.bind fun env => (env.load s.imports module names).toOption) ss result

def Case.parts (s : Setting) (env : Environment) (subject : Outcome Value) : List Case → List Placed
  | [] => []
  | .mk p guard body :: cs =>
    p.types.map (·, some env) ++ (guard.toList ++ [body]).map (·, p.after s env subject) ++
      Case.parts s env subject cs

namespace Node

def operands : Node → List Term
  | .literal _ | .var _ | .value _ | .lambda _ | .letIn .. | .block .. | .matchOn .. => []
  | .unary _ e | .field e _ | .await e | .throw e => [e]
  | .binary _ a b | .index a b => [a, b]
  | .ifElse test yes no => [test, yes, no]
  | .call callee args => callee :: args
  | .object entries => entries.map fun
    | .field _ e | .spread e => e
  | .array items => items.map fun
    | .item e | .spread e => e
  | .template parts => parts.filterMap fun
    | .text _ => none
    | .interp e => some e

/-- The parts of a program. Whether evaluation gets to a part also depends on tests and errors
before it; here only the environment is given. A function literal has no parts, since its body is
not evaluated with it. -/
def parts (s : Setting) (env : Environment) : Node → List Placed
  | .letIn p init body =>
    (p.types ++ [init]).map (·, some env) ++ [(body, p.after s env (init.eval s env))]
  | .block statements result => Statement.parts s (some env) statements result
  | .matchOn e cases => (e, some env) :: Case.parts s env (e.eval s env) cases
  | node => node.operands.map (·, some env)

def isBinding : Node → Bool
  | .letIn .. | .block .. | .matchOn .. => true
  | _ => false

def binders : Node → List String
  | .letIn p _ _ => p.names
  | .block statements _ => statements.flatMap Statement.names
  | .matchOn _ cases => cases.flatMap fun c => c.pattern.names
  | _ => []

end Node

def Term.locate (s : Setting) : Environment → Term → List Nat → Option (Environment × Term)
  | env, e, [] => some (env, e)
  | env, e, k :: path =>
    match (e.node.parts s env)[k]? with
    | some (t, some env') => Term.locate s env' t path
    | _ => none

section Reached

variable {s : Setting} {env : Environment} {v : Value}

lemma Pattern.after_of_matchIn {p : Pattern} {w : Value} {bs : Bindings}
    (h : p.matchIn s env w = .ok (some bs)) : p.after s env (.ok w) = some (env.bindAll bs) := by
  simp only [Pattern.after, h]

lemma Statement.exists_part_of_eval {ss : List Statement} {result : Term}
    (h : Statement.evalList s env ss (fun env => result.eval s env) = .ok v) :
    ∃ t env', (t, some env') ∈ Statement.parts s (some env) ss result ∧ t.eval s env' = .ok v := by
  induction ss generalizing env with
  | nil => exact ⟨result, env, List.mem_singleton_self _, h⟩
  | cons st ss ih =>
    cases st with
    | bind p e =>
      obtain ⟨w, hw, h⟩ := Outcome.bind_eq_ok.mp h
      obtain ⟨found, hfound, h⟩ := Outcome.bind_eq_ok.mp h
      cases found with
      | none => cases h
      | some bs =>
        obtain ⟨t, env', ht, hv⟩ := ih h
        refine ⟨t, env', List.mem_append_right _ ?_, hv⟩
        rwa [Option.bind_some, hw, Pattern.after_of_matchIn hfound]
    | eval e =>
      obtain ⟨_, _, h⟩ := Outcome.bind_eq_ok.mp h
      obtain ⟨t, env', ht, hv⟩ := ih h
      exact ⟨t, env', List.mem_cons_of_mem _ ht, hv⟩
    | load names module =>
      obtain ⟨next, hnext, h⟩ := Outcome.bind_eq_ok.mp h
      obtain ⟨t, env', ht, hv⟩ := ih h
      refine ⟨t, env', ?_, hv⟩
      rwa [Statement.parts, Option.bind_some, hnext]

lemma Case.exists_part_of_eval {w : Value} {cs : List Case}
    (h : Case.evalList s env w cs = .ok v) :
    ∃ t env', (t, some env') ∈ Case.parts s env (.ok w) cs ∧ t.eval s env' = .ok v := by
  induction cs with
  | nil => cases h
  | cons c cs ih =>
    obtain ⟨p, guard, body⟩ := c
    have hlater (h : Case.evalList s env w cs = .ok v) : ∃ t env', (t, some env') ∈
        Case.parts s env (.ok w) (.mk p guard body :: cs) ∧ t.eval s env' = .ok v := by
      obtain ⟨t, env', ht, hv⟩ := ih h
      exact ⟨t, env', List.mem_append_right _ ht, hv⟩
    have hbody {bs : Bindings} (hbs : p.matchIn s env w = .ok (some bs))
        (h : body.eval s (env.bindAll bs) = .ok v) : ∃ t env', (t, some env') ∈
          Case.parts s env (.ok w) (.mk p guard body :: cs) ∧ t.eval s env' = .ok v := by
      refine ⟨body, env.bindAll bs, ?_, h⟩
      rw [Case.parts, Pattern.after_of_matchIn hbs]
      simp
    cases guard with
    | none =>
      obtain ⟨found, hfound, h⟩ := Outcome.bind_eq_ok.mp h
      cases found with
      | none => exact hlater h
      | some bs => exact hbody hfound h
    | some guard =>
      obtain ⟨found, hfound, h⟩ := Outcome.bind_eq_ok.mp h
      cases found with
      | none => exact hlater h
      | some bs =>
        obtain ⟨_, _, h⟩ := Outcome.bind_eq_ok.mp h
        obtain ⟨holds, _, h⟩ := Outcome.bind_eq_ok.mp h
        cases holds with
        | true => exact hbody hfound h
        | false => exact hlater h

/-- The environments of the parts are those of evaluation: a program that binds names has the value
of one of its parts, in the environment given for the part. -/
theorem Node.exists_part_of_eval {node : Node} (hnode : node.isBinding)
    (h : node.eval s env = .ok v) :
    ∃ t env', (t, some env') ∈ node.parts s env ∧ t.eval s env' = .ok v := by
  cases node with
  | letIn p init body =>
    obtain ⟨w, hw, h⟩ := Outcome.bind_eq_ok.mp h
    obtain ⟨found, hfound, h⟩ := Outcome.bind_eq_ok.mp h
    cases found with
    | none => cases h
    | some bs =>
      refine ⟨body, env.bindAll bs, List.mem_append_right _ ?_, h⟩
      rw [hw, Pattern.after_of_matchIn hfound]
      exact List.mem_singleton_self _
  | block statements result => exact Statement.exists_part_of_eval h
  | matchOn e cases =>
    obtain ⟨w, hw, h⟩ := Outcome.bind_eq_ok.mp h
    obtain ⟨t, env', ht, hv⟩ := Case.exists_part_of_eval h
    refine ⟨t, env', List.mem_cons_of_mem _ ?_, hv⟩
    rwa [hw]
  | _ => cases hnode

end Reached

namespace Dependence

variable {scope : List Dependence}

def Within (scope : List Dependence) (t : Term) (inside : List Term) (total : List Nat) : Prop :=
  t.walk ⊆ inside ∧ t.marks scope ⊆ total

namespace Within

variable {t : Term} {inside inside' : List Term} {total total' : List Nat}

lemma self : Within scope t t.walk (t.marks scope) := ⟨List.Subset.refl _, List.Subset.refl _⟩

lemma left (h : Within scope t inside total) :
    Within scope t (inside ++ inside') (total ++ total') :=
  ⟨List.subset_append_of_subset_left _ h.1, List.subset_append_of_subset_left _ h.2⟩

lemma right (h : Within scope t inside' total') :
    Within scope t (inside ++ inside') (total ++ total') :=
  ⟨List.subset_append_of_subset_right _ h.1, List.subset_append_of_subset_right _ h.2⟩

lemma mono (h : Within scope t inside total) (hinside : inside ⊆ inside')
    (htotal : total ⊆ total') : Within scope t inside' total' :=
  ⟨List.Subset.trans h.1 hinside, List.Subset.trans h.2 htotal⟩

end Within

lemma within_of_mem_types {p : Pattern} {t : Term} (ht : t ∈ p.types) :
    Within scope t (Term.walkPattern p) (p.marks scope) := by
  induction p using Pattern.partInduction with
  | wildcard | binding | literal => simp [Pattern.types] at ht
  | object fields ih =>
    rw [Pattern.types] at ht
    rw [Term.walkPattern, Pattern.marks]
    induction fields with
    | nil => simp [Pattern.typesOfFields] at ht
    | cons q fields ihf =>
      obtain ⟨name, p⟩ := q
      obtain ⟨ihp, ih⟩ := List.forall_mem_cons.mp ih
      rw [Pattern.typesOfFields, List.mem_append] at ht
      exact ht.elim (fun ht => (ihp ht).left) fun ht => (ihf ih ht).right
  | array ps rest ih =>
    rw [Pattern.types] at ht
    rw [Term.walkPattern, Pattern.marks]
    induction ps with
    | nil => simp [Pattern.typesOfItems] at ht
    | cons p ps ihps =>
      obtain ⟨ihp, ih⟩ := List.forall_mem_cons.mp ih
      rw [Pattern.typesOfItems, List.mem_append] at ht
      exact ht.elim (fun ht => (ihp ht).left) fun ht => (ihps ih ht).right
  | type ty inner ih =>
    rw [Pattern.types, List.mem_cons] at ht
    obtain rfl | ht := ht
    · exact Within.self.left
    · exact (ih ht).right

lemma within_of_mem_args {es : List Term} {t : Term} (ht : t ∈ es) :
    Within scope t (Term.walkList es) (Term.marksList scope es) := by
  induction es with
  | nil => cases ht
  | cons e es ih =>
    obtain rfl | ht := List.mem_cons.mp ht
    · exact Within.self.left
    · exact (ih ht).right

lemma within_of_mem_operands {node : Node} {t : Term} (ht : t ∈ node.operands) :
    Within scope t (Term.walkNode node) (node.marks scope) := by
  cases node with
  | call callee args =>
    rw [Term.walkNode, Node.marks]
    obtain rfl | ht := List.mem_cons.mp ht
    · exact Within.left ⟨List.Subset.refl _, List.subset_append_right _ _⟩
    · exact (within_of_mem_args ht).right
  | object entries =>
    induction entries with
    | nil => cases ht
    | cons entry entries ih =>
      obtain rfl | hrest := List.mem_cons.mp ht
      · cases entry <;> exact Within.self.left
      · cases entry <;> exact (ih hrest).right
  | array items =>
    induction items with
    | nil => cases ht
    | cons item items ih =>
      obtain rfl | hrest := List.mem_cons.mp ht
      · cases item <;> exact Within.self.left
      · cases item <;> exact (ih hrest).right
  | template parts =>
    induction parts with
    | nil => cases ht
    | cons part parts ih =>
      cases part with
      | text => exact ih ht
      | interp e =>
        obtain rfl | hrest := List.mem_cons.mp ht
        · exact Within.self.left
        · exact (ih hrest).right
  | unary | field | await | throw =>
    obtain rfl := List.mem_singleton.mp ht
    exact Within.self
  | binary | index =>
    simp only [Node.operands, List.mem_cons, List.not_mem_nil, or_false] at ht
    obtain rfl | rfl := ht
    · exact Within.self.left
    · exact Within.self.right
  | ifElse =>
    simp only [Node.operands, List.mem_cons, List.not_mem_nil, or_false] at ht
    obtain rfl | rfl | rfl := ht
    · exact Within.self.left.left
    · exact Within.self.right.left
    · exact Within.self.right
  | _ => cases ht

end Dependence

/-! ### Two runs -/

namespace Dependence

variable {i : Nat}

/-- Two environments differ in names that depend on parameter `i` only. With `own`, the name of the
array of all arguments stands for that array in both, with the same arguments but for `i`. -/
structure Separates (i : Nat) (own : Bool) (scope : List Dependence) (env env' : Environment) :
    Prop where
  same : ∀ n, (∀ d, find? scope n = some d → i ∉ d.sources) →
    Association.find? n env = Association.find? n env'
  arguments : own = true → ∃ d vs ws, find? scope argumentsName = some d ∧ i ∈ d.sources ∧
    Association.find? argumentsName env = some (.array vs) ∧
      Association.find? argumentsName env' = some (.array ws) ∧ ∀ j ≠ i, vs[j]? = ws[j]?

variable {own : Bool} {scope : List Dependence} {env env' : Environment} {s : Setting}

lemma find?_cons (d : Dependence) (name : String) :
    find? (d :: scope) name = if d.name = name then some d else find? scope name := by
  by_cases h : d.name = name <;> simp [find?, h]

lemma eval_argumentIndex {e : Term} {index : Nat} (h : reach.argumentIndex? e = some index) :
    ∃ n : Number, n.toCount = index ∧ ∀ {env : Environment} {vs : List Value} {v : Value},
      Association.find? argumentsName env = some (.array vs) →
        (e.eval s env = .ok v ↔ (Value.number n).asIndex?.isSome ∧ vs[n.toCount]? = some v) := by
  unfold reach.argumentIndex? at h
  split at h
  · rename_i name span n span' span''
    split_ifs at h with hname
    subst hname
    refine ⟨n, Option.some.inj h, fun {env vs v} henv => ?_⟩
    have harray : (Term.mk (.var argumentsName) span).eval s env = .ok (.array vs) := by
      rw [Term.eval_mk_eq_ok, Node.eval, Environment.get, henv]
    have hkey : (Term.mk (.literal (.number n)) span').eval s env = .ok (.number n) := rfl
    rw [Term.eval_mk_eq_ok, Node.eval, harray, hkey]
    change Value.readIndex (.array vs) (.number n) = .ok v ↔ _
    rw [Value.readIndex, Value.asIndex?]
    split_ifs
    · cases hv : vs[n.toCount]? <;> simp [hv, fail]
    · simp [fail]
  · cases h

namespace Separates

lemma cons {name : String} {sources : List Nat} {callee : Option Sensitivity} {v w : Value}
    (h : Separates i own scope env env') (hvw : i ∉ sources → w = v)
    (hown : own = true → name ≠ argumentsName) :
    Separates i own (⟨name, sources, callee⟩ :: scope) ((name, v) :: env) ((name, w) :: env') where
  same n hn := by
    simp only [Association.find?]
    split_ifs with heq
    · rw [hvw (hn ⟨name, sources, callee⟩ (by rw [find?_cons, if_pos heq]))]
    · exact h.same n fun d hd => hn d (by rw [find?_cons, if_neg heq, hd])
  arguments ho := by
    simpa only [find?_cons, Association.find?, if_neg (hown ho)] using h.arguments ho

lemma bindAll {ns : List String} {sources : List Nat} {callee : Option Sensitivity}
    {bs bs' : Bindings} (h : Separates i own scope env env') (hbs : Association.names bs = ns)
    (hbs' : Association.names bs' = ns) (hsame : i ∉ sources → bs' = bs)
    (hown : own = true → argumentsName ∉ ns) :
    Separates i own (ns.foldl (fun scope name => ⟨name, sources, callee⟩ :: scope) scope)
      (env.bindAll bs) (env'.bindAll bs') := by
  induction ns generalizing scope env env' bs bs' with
  | nil =>
    obtain rfl := List.map_eq_nil_iff.mp hbs
    obtain rfl := List.map_eq_nil_iff.mp hbs'
    exact h
  | cons name ns ih =>
    obtain ⟨⟨_, v⟩, bs, rfl, rfl, rfl⟩ := List.map_eq_cons_iff.mp hbs
    obtain ⟨⟨name, w⟩, bs', rfl, rfl, hns⟩ := List.map_eq_cons_iff.mp hbs'
    change Separates i own _ (Environment.bindAll ((name, v) :: env) bs)
      (Environment.bindAll ((name, w) :: env') bs')
    refine ih (h.cons (fun hi => ?_) fun ho => ?_) rfl hns (fun hi => ?_) fun ho => ?_
    · simpa using (List.cons.inj (hsame hi)).1
    · exact fun heq => hown ho (heq ▸ List.mem_cons_self ..)
    · exact (List.cons.inj (hsame hi)).2
    · exact fun hmem => hown ho (List.mem_cons_of_mem _ hmem)

lemma eval_iff {e : Term} (h : Separates i own scope env env') (hl : NoLambda e.walk)
    (hown : own = false → reach.argumentIndex? e = none) (hi : i ∉ reach scope e) :
    (∀ v, e.eval s env = .ok v ↔ e.eval s env' = .ok v) ∧
      (reach.argumentIndex? e = none → e.eval s env = e.eval s env') := by
  cases hindex : reach.argumentIndex? e with
  | none =>
    have heq : e.eval s env = e.eval s env' := by
      refine Term.eval_congr hl fun n hn => h.same n fun d hd hd' => hi ?_
      simp only [reach, hindex, List.mem_eraseDups, List.mem_flatMap, List.mem_filterMap]
      exact ⟨d, ⟨n, Term.mem_freeNames.mpr hn, hd⟩, hd'⟩
    exact ⟨fun v => by rw [heq], fun _ => heq⟩
  | some index =>
    obtain rfl : own = true := by
      cases own with
      | false => simp [hown rfl] at hindex
      | true => rfl
    obtain ⟨d, vs, ws, hd, hid, henv, henv', hargs⟩ := h.arguments rfl
    refine ⟨fun v => ?_, by simp⟩
    have hne : index ≠ i := by
      rintro rfl
      refine hi ?_
      simp only [reach, hindex, hd]
      simpa using hid
    obtain ⟨n, rfl, hread⟩ := eval_argumentIndex hindex
    rw [hread henv, hread henv', hargs _ hne]

lemma after {p : Pattern} {sources : List Nat} {callee : Option Sensitivity}
    {outcome outcome' : Outcome Value} (h : Separates i own scope env env')
    (hvalue : i ∉ sources → ∀ v, outcome = .ok v ↔ outcome' = .ok v)
    (hown : own = true → argumentsName ∉ p.names) {next next' : Environment}
    (hnext : p.after s env outcome = some next) (hnext' : p.after s env' outcome' = some next') :
    Separates i own (Dependence.bindAll scope p sources callee) next next' := by
  cases outcome with
  | error => simp [Pattern.after] at hnext
  | ok v =>
    cases outcome' with
    | error => simp [Pattern.after] at hnext'
    | ok w =>
      cases hv : p.matchIn s env v with
      | error => simp [Pattern.after, hv] at hnext
      | ok found =>
        cases hw : p.matchIn s env' w with
        | error => simp [Pattern.after, hw] at hnext'
        | ok found' =>
          cases found <;> cases found' <;>
            simp only [Pattern.after, hv, hw, Option.some.injEq, reduceCtorEq] at hnext hnext'
          subst hnext hnext'
          refine h.bindAll (Pattern.names_of_matchIn hv) (Pattern.names_of_matchIn hw)
            (fun hi => ?_) hown
          -- the types of the pattern may still differ, but both runs have passed them
          obtain rfl : v = w := by simpa using ((hvalue hi v).mp rfl).symm
          exact Pattern.matchIn_unique hv hw

end Separates

def Suits (own : Bool) (ts : List Term) : Prop :=
  ∀ t ∈ ts, t.node.isLambda = false ∧ (own = true → argumentsName ∉ t.node.binders) ∧
    (own = false → reach.argumentIndex? t = none)

lemma Suits.noLambda {ts : List Term} (h : Suits own ts) : NoLambda ts := fun t ht => (h t ht).1

lemma Suits.mono {ts us : List Term} (h : Suits own us) (hts : ts ⊆ us) : Suits own ts :=
  fun t ht => h t (hts ht)

lemma Suits.reads {e : Term} (h : Suits own e.walk) (ho : own = false) :
    reach.argumentIndex? e = none := by
  obtain ⟨node, span⟩ := e
  exact (h _ (List.mem_cons_self ..)).2.2 ho

lemma Suits.eval_iff {e : Term} (hs : Suits own e.walk) (h : Separates i own scope env env')
    (hi : i ∉ reach scope e) (v : Value) : e.eval s env = .ok v ↔ e.eval s env' = .ok v :=
  (h.eval_iff hs.noLambda hs.reads hi).1 v

/-- The same part in two runs: what is inside it is in `inside`, and if both runs get there, then
the environments are separated by a scope in which the part marks no more than `total`. -/
def Follows (i : Nat) (own : Bool) (inside : List Term) (total : List Nat) (p q : Placed) : Prop :=
  p.1 = q.1 ∧ p.1.walk ⊆ inside ∧ ∀ env env', p.2 = some env → q.2 = some env' →
    ∃ scope, Separates i own scope env env' ∧ (i ∈ p.1.marks scope → i ∈ total)

/-- Two runs that both go on do so in separated environments. -/
def Linked (i : Nat) (own : Bool) (scope : List Dependence) (env? env?' : Option Environment) :
    Prop :=
  ∀ env env', env? = some env → env?' = some env' → Separates i own scope env env'

lemma Separates.linked (h : Separates i own scope env env') :
    Linked i own scope (some env) (some env') := by
  rintro _ _ ⟨rfl⟩ ⟨rfl⟩
  exact h

variable {inside : List Term} {total : List Nat} {env? env?' : Option Environment}

lemma follows_map {ts : List Term} (h : Linked i own scope env? env?')
    (hts : ∀ t ∈ ts, Within scope t inside total) :
    List.Forall₂ (Follows i own inside total) (ts.map (·, env?)) (ts.map (·, env?')) := by
  induction ts with
  | nil => exact .nil
  | cons t ts ih =>
    obtain ⟨ht, hts⟩ := List.forall_mem_cons.mp hts
    exact .cons ⟨rfl, ht.1, fun env env' he he' => ⟨scope, h env env' he he', (ht.2 ·)⟩⟩ (ih hts)

lemma follows_single {t : Term} (h : Linked i own scope env? env?')
    (ht : Within scope t inside total) :
    List.Forall₂ (Follows i own inside total) [(t, env?)] [(t, env?')] := by
  have hts : ∀ u ∈ [t], Within scope u inside total := by simpa using ht
  exact follows_map h hts

lemma follows_types {p : Pattern} (h : Linked i own scope env? env?')
    (hwalk : Term.walkPattern p ⊆ inside) (hmarks : p.marks scope ⊆ total) :
    List.Forall₂ (Follows i own inside total) (p.types.map (·, env?)) (p.types.map (·, env?')) :=
  follows_map h fun _ ht => (within_of_mem_types ht).mono hwalk hmarks

lemma follows_statements {ss : List Statement} {result : Term} (h : Linked i own scope env? env?')
    (hs : Suits own (Term.walkStatements ss))
    (hown : own = true → argumentsName ∉ ss.flatMap Statement.names)
    (hwalk : Term.walkStatements ss ++ result.walk ⊆ inside)
    (hmarks : Statement.marksList scope ss result.marks ⊆ total) :
    List.Forall₂ (Follows i own inside total) (Statement.parts s env? ss result)
      (Statement.parts s env?' ss result) := by
  induction ss generalizing scope env? env?' with
  | nil => exact follows_single h ⟨hwalk, hmarks⟩
  | cons st ss ih =>
    have hown' (ho : own = true) : argumentsName ∉ ss.flatMap Statement.names :=
      fun hmem => hown ho (List.mem_append_right _ hmem)
    have hnames (ho : own = true) : argumentsName ∉ st.names :=
      fun hmem => hown ho (List.mem_append_left _ hmem)
    cases st with
    | bind p e =>
      rw [Term.walkStatements] at hs hwalk
      rw [Statement.marksList] at hmarks
      simp only [List.append_assoc, List.append_subset] at hwalk hmarks
      rw [Statement.parts, Statement.parts, List.map_append, List.map_append]
      refine List.rel_append (List.rel_append (follows_types h hwalk.1 hmarks.1)
        (follows_single h ⟨hwalk.2.1, hmarks.2.1⟩)) (ih (fun next next' hnext hnext' => ?_)
          (hs.mono (List.subset_append_right _ _)) hown' ?_ hmarks.2.2)
      · obtain ⟨env, rfl, hgo⟩ := Option.bind_eq_some_iff.mp hnext
        obtain ⟨env', rfl, hgo'⟩ := Option.bind_eq_some_iff.mp hnext'
        have hsep := h env env' rfl rfl
        have he : Suits own e.walk := hs.mono
          (List.subset_append_of_subset_left _ (List.subset_append_right _ _))
        exact hsep.after (fun hi => he.eval_iff hsep hi) hnames hgo hgo'
      · exact List.append_subset.mpr hwalk.2.2
    | eval e =>
      rw [Term.walkStatements] at hs hwalk
      rw [List.append_assoc, List.append_subset] at hwalk
      rw [Statement.marksList, List.append_subset] at hmarks
      exact List.rel_append (follows_single h ⟨hwalk.1, hmarks.1⟩)
        (ih h (hs.mono (List.subset_append_right _ _)) hown' hwalk.2 hmarks.2)
    | load names module =>
      refine ih (fun next next' hnext hnext' => ?_) hs hown' hwalk hmarks
      obtain ⟨env, rfl, hgo⟩ := Option.bind_eq_some_iff.mp hnext
      obtain ⟨env', rfl, hgo'⟩ := Option.bind_eq_some_iff.mp hnext'
      obtain ⟨bs, hbs, hload⟩ | ⟨err, herr⟩ := Environment.load_eq s.imports module names
      · rw [hload] at hgo hgo'
        obtain rfl := Option.some.inj hgo
        obtain rfl := Option.some.inj hgo'
        exact (h env env' rfl rfl).bindAll hbs hbs (fun _ => rfl) hnames
      · rw [herr] at hgo
        cases hgo

lemma follows_cases {cs : List Case} {sources : List Nat} {subject subject' : Outcome Value}
    (h : Separates i own scope env env')
    (hsubject : i ∉ sources → ∀ v, subject = .ok v ↔ subject' = .ok v)
    (hown : own = true → argumentsName ∉ cs.flatMap fun c => c.pattern.names)
    (hwalk : Term.walkCases cs ⊆ inside) (hmarks : Case.marksList scope sources cs ⊆ total) :
    List.Forall₂ (Follows i own inside total) (Case.parts s env subject cs)
      (Case.parts s env' subject' cs) := by
  induction cs with
  | nil => exact .nil
  | cons c cs ih =>
    obtain ⟨p, guard, body⟩ := c
    have hown' (ho : own = true) : argumentsName ∉ cs.flatMap fun c => c.pattern.names :=
      fun hmem => hown ho (List.mem_append_right _ hmem)
    have hnames (ho : own = true) : argumentsName ∉ p.names :=
      fun hmem => hown ho (List.mem_append_left _ hmem)
    have hafter : Linked i own (Dependence.bindAll scope p sources none) (p.after s env subject)
        (p.after s env' subject') := fun _ _ hnext hnext' => h.after hsubject hnames hnext hnext'
    cases guard with
    | none =>
      rw [Term.walkCases] at hwalk
      rw [Case.marksList] at hmarks
      simp only [List.append_subset] at hwalk hmarks
      exact List.rel_append (List.rel_append (follows_types h.linked hwalk.1.1 hmarks.1.1)
        (follows_single hafter ⟨hwalk.1.2, hmarks.1.2⟩)) (ih hown' hwalk.2 hmarks.2)
    | some guard =>
      rw [Term.walkCases] at hwalk
      rw [Case.marksList] at hmarks
      simp only [List.append_subset] at hwalk hmarks
      exact List.rel_append (List.rel_append (follows_types h.linked hwalk.1.1.1 hmarks.1.1.1)
        (List.rel_append (follows_single hafter ⟨hwalk.1.1.2, hmarks.1.1.2⟩)
          (follows_single hafter ⟨hwalk.1.2, hmarks.1.2⟩))) (ih hown' hwalk.2 hmarks.2)

lemma follows_parts {e : Term} (h : Separates i own scope env env') (hs : Suits own e.walk) :
    List.Forall₂ (Follows i own e.walk (e.marks scope)) (e.node.parts s env)
      (e.node.parts s env') := by
  obtain ⟨node, span⟩ := e
  have hown := (hs _ (List.mem_cons_self ..)).2.1
  have hinside : Term.walkNode node ⊆ (Term.mk node span).walk := List.subset_cons_self ..
  replace hs := hs.mono hinside
  cases node with
  | letIn p init body =>
    rw [Term.walkNode] at hs hinside
    simp only [List.append_subset] at hinside
    have hmarks := List.Subset.refl ((Term.mk (.letIn p init body) span).marks scope)
    nth_rewrite 1 [Term.marks, Node.marks] at hmarks
    simp only [List.append_subset] at hmarks
    have hinit : Suits own init.walk := hs.mono
      (List.subset_append_of_subset_left _ (List.subset_append_right _ _))
    have hafter : Linked i own (bindAll scope p (reach scope init) init.sensitivity?)
        (p.after s env (init.eval s env)) (p.after s env' (init.eval s env')) :=
      fun _ _ hnext hnext' => h.after (fun hi => hinit.eval_iff h hi) hown hnext hnext'
    simp only [Term.node, Node.parts, List.map_append]
    exact List.rel_append (List.rel_append (follows_types h.linked hinside.1.1 hmarks.1.1)
      (follows_single h.linked ⟨hinside.1.2, hmarks.1.2⟩))
      (follows_single hafter ⟨hinside.2, hmarks.2⟩)
  | block statements result =>
    rw [Term.walkNode] at hs
    exact follows_statements h.linked (hs.mono (List.subset_append_left _ _)) hown hinside
      (List.Subset.refl _)
  | matchOn e cases =>
    rw [Term.walkNode] at hs hinside
    rw [List.append_subset] at hinside
    have he : Suits own e.walk := hs.mono (List.subset_append_left _ _)
    refine List.rel_append (follows_single h.linked ⟨hinside.1, List.subset_append_left _ _⟩)
      (follows_cases h (fun hi => he.eval_iff h hi) hown hinside.2 (List.subset_append_right _ _))
  | _ => exact follows_map h.linked fun t ht =>
      (within_of_mem_operands ht).mono hinside (List.Subset.refl _)

lemma separates_locate {e : Term} {path : List Nat} (h : Separates i own scope env env')
    (hs : Suits own e.walk) (hi : i ∉ e.marks scope) {env₁ env₂ : Environment} {t t' : Term}
    (h₁ : e.locate s env path = some (env₁, t)) (h₂ : e.locate s env' path = some (env₂, t')) :
    t' = t ∧ Suits own t.walk ∧ ∃ scope, Separates i own scope env₁ env₂ ∧ i ∉ t.marks scope := by
  -- the scope changes at every binding, so the induction is over all of them
  induction path generalizing e scope env env' with
  | nil =>
    obtain ⟨rfl, rfl⟩ := Prod.mk.inj (Option.some.inj h₁)
    obtain ⟨rfl, rfl⟩ := Prod.mk.inj (Option.some.inj h₂)
    exact ⟨rfl, hs, scope, h, hi⟩
  | cons k path ih =>
    obtain ⟨hlength, hget⟩ := List.forall₂_iff_get.mp (follows_parts (s := s) h hs)
    simp only [Term.locate] at h₁ h₂
    split at h₁
    · rename_i u next hu
      split at h₂
      · rename_i u' next' hu'
        obtain ⟨hk, hu⟩ := List.getElem?_eq_some_iff.mp hu
        obtain ⟨hk', hu'⟩ := List.getElem?_eq_some_iff.mp hu'
        obtain ⟨hsame, hwalk, hfollows⟩ := hget k hk hk'
        simp only [List.get_eq_getElem, hu, hu'] at hsame hwalk hfollows
        subst hsame
        obtain ⟨scope', hsep, hmarks⟩ := hfollows next next' rfl rfl
        exact ih hsep (hs.mono hwalk) (fun hi' => hi (hmarks hi')) h₁ h₂
      · cases h₂
    · cases h₁

end Dependence

/-! ### Calls -/

def Term.comptimeArguments (e : Term) : List Term :=
  match e.node with
  | .call callee args =>
    match callee.asVar? with
    | some name => if comptimeForms.contains name then args else []
    | none => []
  | _ => []

namespace Dependence

variable {i : Nat} {own : Bool} {scope : List Dependence}

lemma mem_comptimeArguments {t a : Term} (ha : a ∈ t.comptimeArguments) :
    ∃ callee args name span, t = .mk (.call callee args) span ∧ callee.asVar? = some name ∧
      comptimeForms.contains name ∧ a ∈ args := by
  obtain ⟨node, span⟩ := t
  cases node with
  | call callee args =>
    simp only [Term.comptimeArguments, Term.node] at ha
    cases hname : callee.asVar? with
    | none => simp [hname] at ha
    | some name =>
      simp only [hname] at ha
      split_ifs at ha with hform
      · exact ⟨callee, args, name, span, rfl, hname, hform, ha⟩
      · cases ha
  | _ => cases ha

lemma reach_subset_marks {t a : Term} (ha : a ∈ t.comptimeArguments) :
    reach scope a ⊆ t.marks scope := by
  obtain ⟨callee, args, name, span, rfl, hname, hform, ha⟩ := mem_comptimeArguments ha
  rw [Term.marks, Node.marks]
  simp only [hname, if_pos hform]
  intro k hk
  exact List.mem_append_left _ (List.mem_append_left _ (List.mem_flatMap_of_mem ha hk))

lemma walk_subset_of_comptimeArguments {t a : Term} (ha : a ∈ t.comptimeArguments) :
    a.walk ⊆ t.walk := by
  obtain ⟨callee, args, name, span, rfl, -, -, ha⟩ := mem_comptimeArguments ha
  have hargs : Within [] a (Term.walkList args) _ := within_of_mem_args ha
  exact List.subset_cons_of_subset _ (List.subset_append_of_subset_right _ hargs.1)

lemma Separates.bindParams {env env' : Environment} {ns : List String} {indices : List Nat}
    {vs ws : List Value} (h : Separates i own scope env env') (hlength : indices.length = ns.length)
    (hvs : vs.length = ns.length) (hws : ws.length = ns.length)
    (hsame : ∀ k : Nat, indices[k]? ≠ some i → vs[k]? = ws[k]?)
    (hown : own = true → argumentsName ∉ ns) :
    Separates i own ((ns.zip indices).foldl
      (fun scope (name, index) => ⟨name, [index], none⟩ :: scope) scope)
      (env.bindAll (ns.zip vs)) (env'.bindAll (ns.zip ws)) := by
  induction ns generalizing scope env env' indices vs ws with
  | nil => exact h
  | cons name ns ih =>
    obtain ⟨index, indices, rfl⟩ := List.exists_cons_of_length_eq_add_one hlength
    obtain ⟨v, vs, rfl⟩ := List.exists_cons_of_length_eq_add_one hvs
    obtain ⟨w, ws, rfl⟩ := List.exists_cons_of_length_eq_add_one hws
    simp only [List.length_cons, Nat.add_right_cancel_iff] at hlength hvs hws
    refine ih (h.cons (fun hi => ?_) fun ho heq => ?_) hlength hvs hws (fun k hk => ?_)
      fun ho hmem => ?_
    · have h0 := hsame 0 (by simpa [eq_comm] using hi)
      simpa [eq_comm] using h0
    · exact hown ho (heq ▸ List.mem_cons_self ..)
    · exact hsame (k + 1) hk
    · exact hown ho (List.mem_cons_of_mem _ hmem)

lemma not_mem_marks {f : Lambda} (hi : i < f.arity) (h : f.sensitivity.isSensitive i = false) :
    i ∉ f.body.marks (ofLambda f) := by
  obtain ⟨id, name, params, body⟩ := f
  have hlt : i < params.length := hi
  simpa [Lambda.sensitivity, Lambda.body, Sensitivity.isSensitive, Sensitivity.ofMarks, hlt] using h

lemma separates_ofLambda {f : Lambda} {env : Environment} {vs ws : List Value} (hi : i < f.arity)
    (hvs : vs.length = f.arity) (hws : ws.length = f.arity)
    (hrest : ∀ j ≠ i, vs[j]? = ws[j]?) (hown : own = true → argumentsName ∉ f.paramNames) :
    Separates i own (ofLambda f) (f.bodyEnvironment env vs) (f.bodyEnvironment env ws) := by
  have harity : f.paramNames.length = f.arity := List.length_map ..
  refine Separates.bindParams ⟨fun n hn => ?_, fun _ => ?_⟩ (by rw [harity, List.length_range])
    (hvs.trans harity.symm) (hws.trans harity.symm) (fun k hk => hrest k ?_) hown
  · have hne : argumentsName ≠ n := by
      rintro rfl
      exact hn ⟨argumentsName, List.range f.arity, none⟩ (by rw [find?_cons, if_pos rfl])
        (List.mem_range.mpr hi)
    simp only [List.cons_append, Association.find?, if_neg hne]
  · refine ⟨⟨argumentsName, List.range f.arity, none⟩, vs, ws, ?_, List.mem_range.mpr hi, ?_, ?_,
      hrest⟩
    · rw [find?_cons, if_pos rfl]
    · simp [Association.find?]
    · simp [Association.find?]
  · rintro rfl
    exact hk (List.getElem?_range hi)

end Dependence

open Dependence in
/-- Two calls of a function without inner functions, which differ in an argument that is not
sensitive, evaluate the same values at compile time wherever both get there, and the same errors
unless one of the arguments is read from the array of all. The name of that array has to keep its
meaning if single arguments are read from it. -/
theorem Lambda.comptime_eval_iff {s : Setting} {f : Lambda} {env : Environment} {i : Nat}
    {vs ws : List Value} (hbody : NoLambda f.body.walk)
    (hargs : (argumentsName ∉ f.paramNames ∧ ∀ t ∈ f.body.walk, argumentsName ∉ t.node.binders) ∨
      ∀ t ∈ f.body.walk, reach.argumentIndex? t = none)
    (hi : f.sensitivity.isSensitive i = false) (hvs : vs.length = f.arity)
    (hws : ws.length = f.arity) (hrest : ∀ j ≠ i, vs[j]? = ws[j]?) {path : List Nat}
    {env₁ env₂ : Environment} {t t' : Term}
    (h₁ : f.body.locate s (f.bodyEnvironment env vs) path = some (env₁, t))
    (h₂ : f.body.locate s (f.bodyEnvironment env ws) path = some (env₂, t')) :
    t' = t ∧ ∀ a ∈ t.comptimeArguments,
      (∀ v, a.eval s env₁ = .ok v ↔ a.eval s env₂ = .ok v) ∧
        (reach.argumentIndex? a = none → a.eval s env₁ = a.eval s env₂) := by
  by_cases hlt : i < f.arity
  · obtain ⟨own, hsuits, hown⟩ : ∃ own, Suits own f.body.walk ∧
        (own = true → argumentsName ∉ f.paramNames) := by
      obtain ⟨hparams, hbinders⟩ | hreads := hargs
      · exact ⟨true, fun t ht => ⟨hbody t ht, fun _ => hbinders t ht, by simp⟩, fun _ => hparams⟩
      · exact ⟨false, fun t ht => ⟨hbody t ht, by simp, fun _ => hreads t ht⟩, by simp⟩
    obtain ⟨rfl, ht, scope, hsep, hmarks⟩ := separates_locate
      (separates_ofLambda hlt hvs hws hrest hown) hsuits (not_mem_marks hlt hi) h₁ h₂
    refine ⟨rfl, fun a ha => ?_⟩
    have hasuits := ht.mono (walk_subset_of_comptimeArguments ha)
    exact hsep.eval_iff hasuits.noLambda hasuits.reads fun hreach =>
      hmarks (reach_subset_marks ha hreach)
  · -- no argument has this index, so the calls are the same
    obtain rfl : vs = ws := by
      refine List.ext_getElem? fun j => ?_
      by_cases hj : j = i
      · rw [List.getElem?_eq_none (by omega), List.getElem?_eq_none (by omega)]
      · exact hrest j hj
    obtain ⟨rfl, rfl⟩ := Prod.mk.inj (Option.some.inj (h₁.symm.trans h₂))
    exact ⟨rfl, fun a _ => ⟨fun v => Iff.rfl, fun _ => rfl⟩⟩

theorem Lambda.comptime_eval_iff_item :
    let s : Setting := .ofLimit [] 1
    let x : Term := .of (.var "x")
    let call : Term := .of (.call (.of (.var "comptime")) [x])
    let f : Lambda := .mk 0 none [.mk "p" none, .mk "q" none] (.of (.letIn (.binding "x")
      (.of (.index (.of (.var "args")) (.of (.literal (.number .zero))))) call))
    let env₁ := f.bodyEnvironment [] [.null, .bool true]
    let env₂ := f.bodyEnvironment [] [.null, .bool false]
    f.sensitivity.isSensitive 0 ∧ f.sensitivity.isSensitive 1 = false ∧
      f.body.locate s env₁ [1] = some (("x", .null) :: env₁, call) ∧
      f.body.locate s env₂ [1] = some (("x", .null) :: env₂, call) ∧
      x ∈ call.comptimeArguments ∧
      x.eval s (("x", .null) :: env₁) = x.eval s (("x", .null) :: env₂) := by
  intro s x call f env₁ env₂
  have hi : f.sensitivity.isSensitive 1 = false := by decide
  have hbody : NoLambda f.body.walk := by
    unfold NoLambda
    decide
  have hbinders : ∀ t ∈ f.body.walk, argumentsName ∉ t.node.binders := by decide
  have hrest : ∀ j ≠ 1, [Value.null, .bool true][j]? = [Value.null, .bool false][j]?
    | 0, _ => rfl
    | 1, h => absurd rfl h
    | _ + 2, _ => rfl
  have hx : x ∈ call.comptimeArguments := List.mem_singleton_self _
  have h₁ : f.body.locate s env₁ [1] = some (("x", .null) :: env₁, call) := rfl
  have h₂ : f.body.locate s env₂ [1] = some (("x", .null) :: env₂, call) := rfl
  have h := Lambda.comptime_eval_iff hbody (.inl ⟨by decide, hbinders⟩) hi rfl rfl hrest h₁ h₂
  exact ⟨by decide, hi, h₁, h₂, hx, (h.2 x hx).2 rfl⟩

/-- The analysis follows the name of the array of all arguments, whatever the name stands for: here
the one compile-time value depends on the second argument, which is not sensitive. -/
theorem Lambda.comptime_eval_ne :
    let s : Setting := .ofLimit [] 1
    let read : Term := .of (.index (.of (.var "args")) (.of (.literal (.number .zero))))
    let call : Term := .of (.call (.of (.var "comptime")) [read])
    let f : Lambda := .mk 0 none [.mk "p" none, .mk "q" none]
      (.of (.letIn (.binding "args") (.of (.array [.item (.of (.var "q"))])) call))
    let env₁ := f.bodyEnvironment [] [.null, .bool true]
    let env₂ := f.bodyEnvironment [] [.null, .bool false]
    NoLambda f.body.walk ∧ f.sensitivity.isSensitive 1 = false ∧
      f.body.locate s env₁ [1] = some (("args", .array [.bool true]) :: env₁, call) ∧
      f.body.locate s env₂ [1] = some (("args", .array [.bool false]) :: env₂, call) ∧
      read ∈ call.comptimeArguments ∧
      read.eval s (("args", .array [.bool true]) :: env₁) = .ok (.bool true) ∧
      read.eval s (("args", .array [.bool false]) :: env₂) = .ok (.bool false) := by
  refine ⟨?_, ?_, ?_, ?_, ?_, ?_, ?_⟩
  · unfold NoLambda
    decide
  · decide
  · rfl
  · rfl
  · exact List.mem_singleton_self _
  · rfl
  · rfl

end Stagewise
