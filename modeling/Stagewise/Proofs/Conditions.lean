import Stagewise.Proofs.FieldPaths
import Stagewise.Proofs.Normal

/-! Conditions built from tests of names. A conjunction that is true makes each of its tests true,
and a disjunction that is false makes each of its tests false, so that what is recorded about the
names holds of their values. Facts about one name are merged into a normal form, which keeps what
they say. -/

set_option autoImplicit false

namespace Stagewise

open Association

def Environment.Agrees (env : Environment) (known : String → Option Value) : Prop :=
  ∀ name v, known name = some v → env.get name = .ok v

namespace Term

inductive IsConstant (known : String → Option Value) : Term → Prop
  | literal (l : Literal) (span : Option Span) : IsConstant known (.mk (.literal l) span)
  | value {v : Value} (span : Option Span) : v.isCompound = false →
      IsConstant known (.mk (.value v) span)
  | neg {e : Term} (span : Option Span) : IsConstant known e →
      IsConstant known (.mk (.unary .neg e) span)
  | var {name : String} (span : Option Span) : (known name).isSome →
      IsConstant known (.mk (.var name) span)

/-- A comparison of a name with a constant, a test for a kind whose function the program does not
bind anew, or a name. -/
inductive IsTest (known : String → Option Value) (env : Environment) : Term → Prop
  | left {op : BinaryOp} {other : Term} (name : String) (nameSpan span : Option Span) :
      op.isComparison → IsConstant known other →
      IsTest known env (.mk (.binary op (.mk (.var name) nameSpan) other) span)
  | right {op : BinaryOp} {other : Term} (name : String) (nameSpan span : Option Span) :
      op.isComparison → IsConstant known other →
      IsTest known env (.mk (.binary op other (.mk (.var name) nameSpan)) span)
  | kind {function : String} {k : Kind} (name : String)
      (functionSpan nameSpan span : Option Span) :
      Builtin.guardKind? function = some k → find? function env = none →
      IsTest known env
        (.mk (.call (.mk (.var function) functionSpan) [.mk (.var name) nameSpan]) span)
  | name (name : String) (span : Option Span) : IsTest known env (.mk (.var name) span)

/-- A condition that has the truth value only if each of its tests has the value that belongs to
it: conjunctions that are true, disjunctions that are false, and negations of the other sort. -/
inductive IsSettledBy (known : String → Option Value) (env : Environment) : Bool → Term → Prop
  | test {e : Term} (b : Bool) : IsTest known env e → IsSettledBy known env b e
  | and {a b : Term} (span : Option Span) : IsSettledBy known env true a →
      IsSettledBy known env true b → IsSettledBy known env true (.mk (.binary .and a b) span)
  | or {a b : Term} (span : Option Span) : IsSettledBy known env false a →
      IsSettledBy known env false b → IsSettledBy known env false (.mk (.binary .or a b) span)
  | not {e : Term} {b : Bool} (span : Option Span) : IsSettledBy known env (!b) e →
      IsSettledBy known env b (.mk (.unary .not e) span)

end Term

section Environment

variable {env : Environment} {name : String} {v : Value}

lemma Value.isWellFormed_of_not_isCompound (h : v.isCompound = false) : v.isWellFormed := by
  cases v <;> first | rfl | simp [isCompound] at h

lemma Registry.isWellFormed_of_find? (h : Registry.find? name = some v) : v.isWellFormed := by
  unfold Registry.find? at h
  split at h
  · next c hc =>
    have hall : ∀ p ∈ Registry.constants, (Value.type p.2).isWellFormed := by decide
    obtain rfl := Option.some.inj h
    exact hall _ (mem_of_find?_eq_some hc)
  · obtain ⟨b, _, rfl⟩ := Option.map_eq_some_iff.mp h
    rfl

lemma Environment.isWellFormed_of_get (henv : ∀ p ∈ env, p.2.isWellFormed)
    (h : env.get name = .ok v) : v.isWellFormed := by
  unfold Environment.get at h
  split at h
  · next w hw =>
    obtain rfl := Except.ok.inj h
    exact henv _ (mem_of_find?_eq_some hw)
  · split at h
    · next w hw =>
      obtain rfl := Except.ok.inj h
      exact Registry.isWellFormed_of_find? hw
    · cases h

end Environment

/-! ### Merging -/

namespace Refinements

def HoldIn (env : Environment) (r : Refinements) : Prop :=
  ∀ p ∈ r, p.2.Fits .core false .plain ∧
    ∃ v, env.get p.1 = .ok v ∧ p.2.Holds (fun _ => True) v

variable {env : Environment} {r s : Refinements}

lemma mem_of_mem_putSorted {name : String} {c : Constraint} {p : String × Constraint}
    (hp : p ∈ putSorted name c r) : p = (name, c) ∨ p ∈ r := by
  induction r with
  | nil => exact Or.inl (List.mem_singleton.mp hp)
  | cons entry rest ih =>
    obtain ⟨key, old⟩ := entry
    rw [putSorted] at hp
    split_ifs at hp
    · exact List.mem_cons.mp hp
    · exact (List.mem_cons.mp hp).imp id (List.mem_cons_of_mem _)
    · rcases List.mem_cons.mp hp with rfl | hp
      · exact Or.inr List.mem_cons_self
      · exact (ih hp).imp id (List.mem_cons_of_mem _)

lemma HoldIn.putSorted {name : String} {c : Constraint} (hr : r.HoldIn env)
    (hc : c.Fits .core false .plain)
    (hv : ∃ v, env.get name = .ok v ∧ c.Holds (fun _ => True) v) :
    HoldIn env (putSorted name c r) := by
  intro p hp
  rcases mem_of_mem_putSorted hp with rfl | hp
  · exact ⟨hc, hv⟩
  · exact hr p hp

lemma holds_merged (henv : ∀ p ∈ env, p.2.isWellFormed) {name : String} {known c d : Constraint}
    (hk : known.Fits .core false .plain) (hc : c.Fits .core false .plain)
    (hkv : ∃ v, env.get name = .ok v ∧ known.Holds (fun _ => True) v)
    (hcv : ∃ v, env.get name = .ok v ∧ c.Holds (fun _ => True) v)
    (hd : (Constraint.conj [known, c]).simplify = d) :
    d.Fits .core false .plain ∧ ∃ v, env.get name = .ok v ∧ d.Holds (fun _ => True) v := by
  have hfits : (Constraint.conj [known, c]).Fits .core false .plain :=
    Constraint.fits_conj.mpr ⟨by simp, by simpa using ⟨hk, hc⟩⟩
  have hnormal := Constraint.isNormal_simplify_of_suits (Constraint.suits_core _) hfits
  rw [hd] at hnormal
  obtain ⟨v, hv, hkv⟩ := hkv
  obtain ⟨w, hw, hcv⟩ := hcv
  obtain rfl : v = w := Except.ok.inj (hv.symm.trans hw)
  have hcovers := Constraint.covers_core (Environment.isWellFormed_of_get henv hv)
  refine ⟨hnormal.tidy.of_tidy, v, hv, (hnormal.holds _ v hcovers).mpr ?_⟩
  simpa using ⟨hkv, hcv⟩

lemma HoldIn.both (henv : ∀ p ∈ env, p.2.isWellFormed) (hr : r.HoldIn env) (hs : s.HoldIn env) :
    (r.both s).HoldIn env := by
  unfold Refinements.both
  induction s generalizing r with
  | nil => exact hr
  | cons p s ih =>
    obtain ⟨name, c⟩ := p
    obtain ⟨⟨hc, hcv⟩, hs⟩ := List.forall_mem_cons.mp hs
    rw [List.foldl_cons]
    refine ih ?_ hs
    dsimp only
    split
    · next known hk =>
      obtain ⟨hkf, hkv⟩ := hr _ (mem_of_find?_eq_some hk)
      generalize hd : (Constraint.conj [known, c]).simplify = d
      obtain ⟨hf, hv⟩ := holds_merged henv hkf hc hkv hcv hd
      exact hr.putSorted hf hv
    · exact hr.putSorted hc hcv

end Refinements

/-! ### Tests -/

section Tests

variable {known : String → Option Value} {env : Environment} {s : Setting} {b : Bool}

lemma Term.eval_operand? (hagree : env.Agrees known) {e : Term} (he : e.IsConstant known)
    {v : Value} (hv : e.operand? known = some v) :
    v.isCompound = false ∧ e.eval s env = .ok v := by
  induction he generalizing v with
  | literal l span =>
    obtain rfl : l.toValue = v := Option.some.inj hv
    exact ⟨l.isCompound_toValue, Term.eval_mk_eq_ok.mpr rfl⟩
  | @value w span hw =>
    obtain rfl : w = v := Option.some.inj hv
    exact ⟨hw, Term.eval_mk_eq_ok.mpr rfl⟩
  | @neg e span he ih =>
    obtain ⟨n, hn, rfl⟩ : ∃ n, e.operand? known = some (.number n) ∧ Value.number n.neg = v := by
      simp only [Term.operand?, Node.operand?] at hv
      split at hv
      · next n hn => exact ⟨n, hn, Option.some.inj hv⟩
      · cases hv
    refine ⟨rfl, Term.eval_mk_eq_ok.mpr ?_⟩
    exact Outcome.bind_eq_ok.mpr ⟨_, (ih hn).2, rfl⟩
  | @var name span hname =>
    obtain ⟨hk, hc⟩ := Option.filter_eq_some_iff.mp hv
    exact ⟨by simpa using hc, Term.eval_mk_eq_ok.mpr (hagree name v hk)⟩

lemma BinaryOp.branches?_of_isConstant {op : BinaryOp} {e other : Term}
    (he : e.IsConstant known) : op.branches? known e other = none := by
  cases he with
  | var span hname => simp [branches?, Term.path?, Node.path?, hname]
  | _ => rfl

lemma BinaryOp.isCore_of_constraints? {op : BinaryOp} {v : Value} {yes no : Constraint}
    (hv : v.isWellFormed) (h : op.constraints? v = some (yes, no)) :
    (if b then yes else no).isCore := by
  by_cases hord : op.isOrdering
  · obtain ⟨n, rfl, rfl, rfl⟩ := constraints?_ordering hord h
    cases b <;> rfl
  · cases op <;> simp [constraints?, isOrdering] at h hord <;> obtain ⟨-, rfl, rfl⟩ := h <;>
      cases b <;> exact hv

lemma BinaryOp.holdIn_branches? (hagree : env.Agrees known) {op : BinaryOp} {other : Term}
    (hother : other.IsConstant known) {name : String} {span : Option Span} {v w : Value}
    (hv : other.eval s env = .ok v) (hw : env.get name = .ok w)
    (happly : v.isCompound = false → op.apply w v = .ok (.bool b)) :
    (((op.branches? known (.mk (.var name) span) other).getD {}).of b).HoldIn env := by
  cases hb : op.branches? known (.mk (.var name) span) other with
  | none => simp [Refinements.HoldIn]
  | some branches =>
    obtain ⟨u, hu, yes, no, hyn, rfl⟩ : ∃ u, other.operand? known = some u ∧ ∃ yes no,
        op.constraints? u = some (yes, no) ∧ Path.branches ⟨name, []⟩ yes no = branches := by
      simp only [branches?, Term.path?, Node.path?, Option.bind_eq_bind, Option.bind_some,
        List.isEmpty_nil, Bool.true_and] at hb
      split_ifs at hb
      simpa [Option.bind_eq_some_iff] using hb
    obtain ⟨hcompound, hev⟩ := Term.eval_operand? (s := s) hagree hother hu
    obtain rfl : v = u := Except.ok.inj (hv.symm.trans hev)
    have hwf := Value.isWellFormed_of_not_isCompound hcompound
    rw [Option.getD_some, Branches.of_path]
    refine List.forall_mem_singleton.mpr ⟨?_, w, hw, ?_⟩
    · exact Constraint.fits_of_isCore (isCore_of_constraints? hwf hyn)
    · exact holds_of_constraints? hcompound hyn (happly hcompound) _

lemma Node.branches_left {op : BinaryOp} (hop : op.isComparison) {subject other : Term}
    (hother : other.IsConstant known) {span : Option Span} :
    (Node.binary op subject other).branches known span =
      (op.branches? known subject other).getD {} := by
  rw [Node.branches_comparison hop, BinaryOp.branches?_of_isConstant hother]
  cases op.branches? known subject other <;> rfl

lemma Node.branches_right {op : BinaryOp} (hop : op.isComparison) {subject other : Term}
    (hother : other.IsConstant known) {span : Option Span} :
    (Node.binary op other subject).branches known span =
      (op.flip.branches? known subject other).getD {} := by
  rw [Node.branches_comparison hop, BinaryOp.branches?_of_isConstant hother]

lemma Builtin.ofName?_of_guardKind? {name : String} {k : Kind}
    (h : Builtin.guardKind? name = some k) :
    Builtin.ofName? name = some (.guard k) ∧ Form.ofName? name = none ∧
      Registry.find? name = some (.builtin name) := by
  have hall : ∀ k ∈ guardedKinds, Builtin.ofName? (guardName k) = some (.guard k) ∧
      Form.ofName? (guardName k) = none ∧
      Association.find? (guardName k) Registry.constants = none := by decide
  obtain ⟨hb, hf, hc⟩ := hall k (List.mem_of_find?_eq_some h)
  obtain rfl : guardName k = name := by simpa using List.find?_some h
  refine ⟨hb, hf, ?_⟩
  simp [Registry.find?, hc, hb, Builtin.name]

lemma Node.eval_guard {imports : Imports} {limit : Nat} {function name : String} {k : Kind}
    {functionSpan nameSpan : Option Span} (hk : Builtin.guardKind? function = some k)
    (hfree : find? function env = none)
    (h : (Node.call (.mk (.var function) functionSpan) [.mk (.var name) nameSpan]).eval
      (.ofLimit imports limit) env = .ok (.bool b)) :
    ∃ v, env.get name = .ok v ∧ v.kind.refines k = b := by
  obtain ⟨hb, hform, hreg⟩ := Builtin.ofName?_of_guardKind? hk
  rw [Node.eval_call (by simp [Environment.form?, Term.asVar?, contains, hfree, hform])
    (by simp)] at h
  obtain ⟨f, hf, h⟩ := Outcome.bind_eq_ok.mp h
  obtain ⟨args, hargs, h⟩ := Outcome.bind_eq_ok.mp h
  obtain rfl : Value.builtin function = f := by
    simpa [Node.eval, Environment.get, hfree, hreg] using Term.eval_mk_eq_ok.mp hf
  obtain ⟨v, hv, hargs⟩ := Outcome.bind_eq_ok.mp hargs
  obtain rfl : [v] = args := by
    simpa [Term.evalList, bind, Except.bind, pure, Except.pure] using hargs
  refine ⟨v, Term.eval_mk_eq_ok.mp hv, ?_⟩
  simp only [Setting.ofLimit, maxNesting, Value.applyWith, hb] at h
  obtain ⟨_, _, h⟩ := Outcome.bind_eq_ok.mp h
  simpa [Builtin.run, Builtin.arg, bind, Except.bind, pure, Except.pure] using h

lemma Term.IsTest.holdIn (hagree : env.Agrees known) {imports : Imports} {limit : Nat} {e : Term}
    (he : e.IsTest known env) (h : e.eval (.ofLimit imports limit) env = .ok (.bool b)) :
    ((e.branches known).of b).HoldIn env := by
  have hlogical {op : BinaryOp} (hop : op.isComparison) : op.isLogical = false := by
    cases op <;> simp_all [BinaryOp.isComparison, BinaryOp.isLogical]
  rcases he with ⟨name, nameSpan, span, hop, hother⟩ | ⟨name, nameSpan, span, hop, hother⟩ |
    ⟨name, functionSpan, nameSpan, span, hk, hfree⟩ | ⟨name, span⟩ <;>
    rw [Term.eval_mk_eq_ok] at h <;> rw [Term.branches]
  · rw [Node.eval_binary (hlogical hop)] at h
    obtain ⟨w, hw, h⟩ := Outcome.bind_eq_ok.mp h
    obtain ⟨v, hv, h⟩ := Outcome.bind_eq_ok.mp h
    rw [Node.branches_left hop hother]
    exact BinaryOp.holdIn_branches? hagree hother hv (Term.eval_mk_eq_ok.mp hw) fun _ => h
  · rw [Node.eval_binary (hlogical hop)] at h
    obtain ⟨v, hv, h⟩ := Outcome.bind_eq_ok.mp h
    obtain ⟨w, hw, h⟩ := Outcome.bind_eq_ok.mp h
    rw [Node.branches_right hop hother]
    exact BinaryOp.holdIn_branches? hagree hother hv (Term.eval_mk_eq_ok.mp hw) fun hcompound =>
      BinaryOp.apply_flip hop hcompound h
  · obtain ⟨v, hv, rfl⟩ := Node.eval_guard hk hfree h
    simp only [Node.branches, Term.typeGuard?, Term.asVar?, Option.bind_eq_bind, Option.bind_some,
      hk, Term.path?, Node.path?, Option.pure_def]
    rw [Branches.of_path]
    refine List.forall_mem_singleton.mpr ⟨?_, v, hv, ?_⟩
    · cases v.kind.refines _ <;> exact Constraint.fits_of_isCore rfl
    · cases hr : v.kind.refines _ <;> simp [Path.wrap, Constraint.Holds, hr]
  · simp only [Node.branches, Node.path?]
    split_ifs
    · simp [Refinements.HoldIn]
    · rw [Branches.of_path]
      refine List.forall_mem_singleton.mpr ⟨?_, .bool b, h, ?_⟩
      · cases b <;> exact Constraint.fits_of_isCore rfl
      · cases b <;> exact rfl

lemma Value.condition_eq_ok {v : Value} : v.condition = .ok b ↔ v = .bool b := by
  cases v <;> simp [condition, fail]

lemma Node.eval_operands (op : BinaryOp) (hop : op.isLogical) {x y : Term}
    (h : (Node.binary op x y).eval s env = .ok (.bool (op == .and))) :
    x.eval s env = .ok (.bool (op == .and)) ∧ y.eval s env = .ok (.bool (op == .and)) := by
  obtain ⟨v, hv, c, hc, ⟨rfl, w, hw, d, hd, heq⟩ | ⟨_, heq⟩⟩ := Node.eval_logical hop h
  · rw [Value.condition_eq_ok] at hc hd
    cases heq
    exact ⟨hc ▸ hv, hd ▸ hw⟩
  · exact absurd (Value.bool.inj heq) (by cases op <;> decide)

lemma UnaryOp.apply_not_eq_ok {v : Value} (h : UnaryOp.not.apply v = .ok (.bool b)) :
    v = .bool !b := by
  cases v <;> simp_all [UnaryOp.apply, fail]

end Tests

/-- Where a condition has the truth value that settles its tests, every name about which something
is recorded has a value, and the value satisfies what is recorded. -/
theorem Term.branches_sound {known : String → Option Value} {env : Environment}
    (hagree : env.Agrees known) (henv : ∀ p ∈ env, p.2.isWellFormed) (imports : Imports)
    (limit : Nat) {cond : Term} {b : Bool} (hcond : cond.IsSettledBy known env b)
    (h : cond.eval (.ofLimit imports limit) env = .ok (.bool b)) :
    ∀ name c, (name, c) ∈ (cond.branches known).of b →
      ∃ v, env.get name = .ok v ∧ c.admits v := by
  suffices hold : ((cond.branches known).of b).HoldIn env by
    intro name c hc
    obtain ⟨hfits, v, hv, hcv⟩ := hold _ hc
    exact ⟨v, hv, (hfits.admits_iff _).mpr hcv⟩
  induction hcond with
  | test b he => exact he.holdIn hagree h
  | and span _ _ ihx ihy =>
    obtain ⟨hx, hy⟩ := Node.eval_operands .and rfl (Term.eval_mk_eq_ok.mp h)
    exact (ihx hx).both henv (ihy hy)
  | or span _ _ ihx ihy =>
    obtain ⟨hx, hy⟩ := Node.eval_operands .or rfl (Term.eval_mk_eq_ok.mp h)
    exact (ihx hx).both henv (ihy hy)
  | @not e b span _ ih =>
    obtain ⟨v, hv, h⟩ := Outcome.bind_eq_ok.mp (Term.eval_mk_eq_ok.mp h)
    obtain rfl := UnaryOp.apply_not_eq_ok h
    cases b <;> exact ih hv

theorem Term.branches_sound_range :
    let known : String → Option Value := fun name => if name = "top" then some (.ofNat 5) else none
    let env : Environment := [("x", .ofNat 3), ("ready", .bool true), ("top", .ofNat 5)]
    let inside := Term.unary .not (.binary .or (.binary .lt (.var "x") (.number (.ofNat 2)))
      (.binary .le (.var "top") (.var "x")))
    let cond := Term.binary .and (.binary .and (.callNamed "isNumber" [.var "x"]) inside)
      (.var "ready")
    names (cond.branches known).yes = ["ready", "x"] ∧
      cond.eval (.ofLimit [] 0) env = .ok (.bool true) ∧
      ∀ name c, (name, c) ∈ (cond.branches known).yes → ∃ v, env.get name = .ok v ∧ c.admits v := by
  intro known env inside cond
  have hagree : env.Agrees known := by
    intro name v hv
    obtain ⟨rfl, rfl⟩ : name = "top" ∧ Value.ofNat 5 = v := by simpa [known] using hv
    rfl
  have hinside : inside.IsSettledBy known env true :=
    .not none (.or none (.test _ (.left "x" none none rfl (.literal _ none)))
      (.test _ (.right "x" none none rfl (.var none rfl))))
  have hcond : cond.IsSettledBy known env true :=
    .and none (.and none (.test _ (.kind "x" none none none rfl rfl)) hinside)
      (.test _ (.name "ready" none))
  have heval : cond.eval (.ofLimit [] 0) env = .ok (.bool true) := by rfl
  exact ⟨by decide +kernel, heval, Term.branches_sound hagree (by decide) [] 0 hcond heval⟩

end Stagewise
