import Stagewise.Proofs.Data
import Stagewise.Proofs.Meaning
import Stagewise.Proofs.Range
import Stagewise.Refinement

/-! What comparisons of a path with a literal tell about the root of the path. The comparison is
about the value at the end of the path, the constraint about the object at its root; the two agree
as long as every field on the way is read from an object. -/

set_option autoImplicit false

namespace Stagewise

open Association

/-! ### Comparisons with simple values -/

namespace Number

lemma order?_swap (x y : Number) : y.order? x = (x.order? y).map Ordering.swap := by
  unfold order?
  by_cases hlt : x.lt y
  · have hgt : y.lt x = false := by
      simp only [lt, Bool.and_eq_true, Bool.not_eq_true', decide_eq_true_eq] at hlt
      simp only [lt, Bool.and_eq_false_iff, decide_eq_false_iff_not]
      omega
    simp [hlt, hgt]
  · by_cases hgt : y.lt x <;> by_cases heq : x.eq y <;>
      simp [hlt, hgt, heq, eq_comm' y x]

end Number

lemma Text.order_swap (s t : String) : Text.order t s = (Text.order s t).swap := by
  unfold Text.order
  by_cases hlt : s < t
  · simp [hlt, String.lt_asymm hlt]
  · by_cases hgt : t < s <;> simp [hlt, hgt]

namespace BinaryOp

def isComparison : BinaryOp → Bool
  | eq | ne | lt | le | gt | ge => true
  | _ => false

lemma holdsOf_swap {op : BinaryOp} (hop : op.isOrdering) (order : Option Ordering) :
    op.flip.holdsOf (order.map Ordering.swap) = op.holdsOf order := by
  cases op <;> simp [isOrdering] at hop <;> rcases order with _ | order <;>
    first | rfl | (cases order <;> rfl)

lemma holdsOf_order? {op : BinaryOp} (hop : op.isOrdering) (x n : Number) :
    op.holdsOf (x.order? n) = op.comparison.holds x n := by
  cases op <;> simp [isOrdering] at hop <;>
    simp only [comparison, Comparison.holds, Number.order?, Number.lt, Number.le, Number.eq] <;>
    by_cases hx : x.isNaN <;> by_cases hn : n.isNaN <;> simp [hx, hn, holdsOf] <;>
    rcases Int.lt_trichotomy x.place n.place with h | h | h <;>
    simp [h, Int.le_of_lt, Int.not_lt.mpr]

end BinaryOp

namespace Value

variable {v w : Value}

lemma equals_comm_of_not_isCompound (hv : v.isCompound = false) : v.equals w = w.equals v := by
  cases v <;> simp [isCompound] at hv <;> cases w <;>
    simp [equals, same, Number.eq_comm', Bool.beq_comm]

lemma equals_eq_same (hv : v.isCompound = false) (hnan : v.asNumber?.any Number.isNaN = false) :
    w.equals v = w.same v := by
  cases v <;> simp [isCompound] at hv <;> cases w <;> simp [equals, same]
  next x y =>
    rw [Bool.eq_iff_iff, Number.same_iff_eq (by simpa [asNumber?] using hnan)]

end Value

namespace BinaryOp

variable {op : BinaryOp} {v w : Value} {b : Bool}

lemma apply_ordering (hop : op.isOrdering) : op.apply v w = .ok (.bool b) ↔
    (∃ x y, v = .number x ∧ w = .number y ∧ op.holdsOf (x.order? y) = b) ∨
      ∃ s t, v = .string s ∧ w = .string t ∧ op.holdsOf (some (Text.order s t)) = b := by
  cases op <;> simp [isOrdering] at hop <;> cases v <;> cases w <;> simp [apply, fail]

lemma isOrdering_flip (op : BinaryOp) : op.flip.isOrdering = op.isOrdering := by
  cases op <;> rfl

lemma apply_flip (hop : op.isComparison) (hv : v.isCompound = false)
    (h : op.apply v w = .ok (.bool b)) : op.flip.apply w v = .ok (.bool b) := by
  by_cases hord : op.isOrdering
  · rw [apply_ordering (by rwa [isOrdering_flip])]
    rcases (apply_ordering hord).mp h with ⟨x, y, rfl, rfl, hb⟩ | ⟨s, t, rfl, rfl, hb⟩
    · refine Or.inl ⟨y, x, rfl, rfl, ?_⟩
      rw [Number.order?_swap, holdsOf_swap hord, hb]
    · refine Or.inr ⟨t, s, rfl, rfl, ?_⟩
      rw [Text.order_swap, ← Option.map_some, holdsOf_swap hord, hb]
  · have hcomm := Value.equals_comm_of_not_isCompound (w := w) hv
    cases op <;> simp [isComparison, isOrdering] at hop hord <;>
      simpa [apply, flip, hcomm] using h

lemma not_isNaN_of_constraints? {cs : Constraint × Constraint}
    (h : op.constraints? v = some cs) : v.asNumber?.any Number.isNaN = false := by
  by_contra hnan
  simp [constraints?, hnan] at h

lemma constraints?_ordering {yes no : Constraint} (hop : op.isOrdering)
    (h : op.constraints? v = some (yes, no)) :
    ∃ n, v = .number n ∧ yes = .bound op.comparison n ∧ no = .neg (.bound op.comparison n) := by
  have hnan := not_isNaN_of_constraints? h
  have h' : v.asNumber?.map (fun n => (Constraint.bound op.comparison n,
      Constraint.neg (.bound op.comparison n))) = some (yes, no) := by
    cases op <;> simp_all [isOrdering, constraints?]
  cases v with
  | number n =>
    obtain ⟨rfl, rfl⟩ : Constraint.bound op.comparison n = yes ∧ .neg _ = no := by
      simpa [Value.asNumber?] using h'
    exact ⟨n, rfl, rfl, rfl⟩
  | _ => simp [Value.asNumber?] at h'

lemma holds_of_constraints? {yes no : Constraint} (hv : v.isCompound = false)
    (hc : op.constraints? v = some (yes, no)) (h : op.apply w v = .ok (.bool b))
    (X : Value → Prop) : (if b then yes else no).Holds X w := by
  by_cases hord : op.isOrdering
  · obtain ⟨n, rfl, rfl, rfl⟩ := constraints?_ordering hord hc
    obtain ⟨x, rfl, hb⟩ : ∃ x, w = .number x ∧ op.holdsOf (x.order? n) = b := by
      simpa using (apply_ordering hord).mp h
    rw [holdsOf_order? hord] at hb
    cases b <;> simp [Constraint.Holds, hb]
  · have hnan := not_isNaN_of_constraints? hc
    have hsame := Value.equals_eq_same (w := w) hv hnan
    cases op <;> simp [constraints?, hnan, isOrdering] at hc hord <;>
      obtain ⟨rfl, rfl⟩ := hc <;> cases b <;>
      simp_all [apply, Constraint.Holds]

end BinaryOp

/-! ### Paths -/

def Value.readPath (v : Value) (fields : List String) : Outcome Value :=
  fields.foldlM Value.readField v

@[simp] lemma Value.readPath_nil (v : Value) : v.readPath [] = .ok v := rfl

lemma Path.isFixFree_wrap (p : Path) {c : Constraint} (h : c.isFixFree) : (p.wrap c).isFixFree := by
  obtain ⟨root, fields⟩ := p
  induction fields with
  | nil => exact h
  | cons name fields ih => exact ih

def Value.isObject : Value → Bool
  | .object _ => true
  | _ => false

lemma Value.readField_eq_ok {v w : Value} {name : String} (h : v.readField name = .ok w) :
    (∃ fields, v = .object fields ∧ find? name fields = some w) ∨
      name = "length" ∧ v.isObject = false := by
  cases v with
  | object fields =>
    refine Or.inl ⟨fields, rfl, ?_⟩
    cases hf : find? name fields <;> simp_all [readField, fail]
  | array items | string s =>
    by_cases hn : name = "length" <;> simp_all [readField, fail, isObject]
  | _ => simp [readField, fail] at h

def Path.staysInObjects : List String → Value → Bool
  | [], _ => true
  | name :: fields, v =>
    (name ≠ "length" || v.isObject) &&
      match v.readField name with
      | .ok w => staysInObjects fields w
      | .error _ => true

lemma Path.holds_wrap {c : Constraint} {X : Value → Prop} {root : String} {fields : List String}
    {v w : Value} (hread : v.readPath fields = .ok w) (hstays : staysInObjects fields v)
    (h : c.Holds X w) : (wrap ⟨root, fields⟩ c).Holds X v := by
  induction fields generalizing v with
  | nil =>
    obtain rfl : v = w := by simpa using hread
    exact h
  | cons name fields ih =>
    obtain ⟨u, hu, hrest⟩ := Outcome.bind_eq_ok.mp hread
    obtain ⟨hobject, hrests⟩ : (name ≠ "length" ∨ v.isObject) ∧ staysInObjects fields u := by
      simpa [staysInObjects, hu] using hstays
    rcases Value.readField_eq_ok hu with ⟨entries, rfl, hfind⟩ | ⟨rfl, hno⟩
    · exact ⟨entries, u, rfl, hfind, ih hrest hrests⟩
    · simp [hno] at hobject

mutual

theorem Term.eval_path {s : Setting} {env : Environment} : ∀ {e : Term} {p : Path} {v w : Value},
    e.path? = some p → env.get p.root = .ok v → e.eval s env = .ok w →
    v.readPath p.fields = .ok w
  | .mk node _, _, _, _, hp, hv, hw => node.eval_path hp hv (Term.eval_mk_eq_ok.mp hw)

theorem Node.eval_path {s : Setting} {env : Environment} : ∀ {n : Node} {p : Path} {v w : Value},
    n.path? = some p → env.get p.root = .ok v → n.eval s env = .ok w →
    v.readPath p.fields = .ok w
  | .var name, p, v, w, hp, hv, hw => by
    obtain rfl : ⟨name, []⟩ = p := by simpa [Node.path?] using hp
    exact hv.symm.trans hw
  | .field e name, p, v, w, hp, hv, hw => by
    obtain ⟨q, hq, rfl⟩ := Option.map_eq_some_iff.mp hp
    obtain ⟨u, hu, hread⟩ := Outcome.bind_eq_ok.mp hw
    have hpath := e.eval_path hq hv hu
    rw [Value.readPath, List.foldlM_append]
    exact Outcome.bind_eq_ok.mpr ⟨u, hpath, by simpa using hread⟩

end

/-! ### Comparisons of paths -/

namespace Branches

def of (branches : Branches) (b : Bool) : Refinements := if b then branches.yes else branches.no

@[simp] lemma of_default (b : Bool) : ({} : Branches).of b = [] := by cases b <;> rfl

lemma of_path (p : Path) (yes no : Constraint) (b : Bool) :
    (p.branches yes no).of b = [(p.root, p.wrap (if b then yes else no))] := by
  cases b <;> rfl

end Branches

section Comparison

variable {known : String → Option Value} {op : BinaryOp} {subject : Term} {l : Literal}
variable {span : Option Span} {path : Path} {b : Bool} {name : String} {c : Constraint}

lemma BinaryOp.branches?_literal_left : op.branches? known (.mk (.literal l) span) subject = none :=
  rfl

lemma BinaryOp.mem_of_branches? {branches : Branches} (hpath : subject.path? = some path)
    (h : op.branches? known subject (.mk (.literal l) span) = some branches)
    (hc : (name, c) ∈ branches.of b) :
    ∃ yes no, op.constraints? l.toValue = some (yes, no) ∧
      c = path.wrap (if b then yes else no) := by
  obtain ⟨-, yes, no, hv, rfl⟩ : (path.fields = [] → known path.root = none) ∧
      ∃ yes no, op.constraints? l.toValue = some (yes, no) ∧ path.branches yes no = branches := by
    simpa [BinaryOp.branches?, hpath, Term.operand?, Node.operand?, Option.bind_eq_some_iff]
      using h
  rw [Branches.of_path, List.mem_singleton] at hc
  exact ⟨yes, no, hv, (Prod.mk.inj hc).2⟩

lemma Node.branches_comparison (hop : op.isComparison) (x y : Term) :
    (Node.binary op x y).branches known span =
      match op.branches? known x y with
      | some branches => branches
      | none => (op.flip.branches? known y x).getD {} := by
  cases op <;> simp [BinaryOp.isComparison] at hop <;> rfl

lemma Node.mem_branches_left (hop : op.isComparison) (hpath : subject.path? = some path)
    {literalSpan : Option Span}
    (hc : (name, c) ∈ ((Node.binary op subject (.mk (.literal l) literalSpan)).branches known
      span).of b) :
    ∃ yes no, op.constraints? l.toValue = some (yes, no) ∧
      c = path.wrap (if b then yes else no) := by
  rw [Node.branches_comparison hop, BinaryOp.branches?_literal_left] at hc
  cases h : op.branches? known subject (.mk (.literal l) literalSpan) with
  | none => simp [h] at hc
  | some branches => exact BinaryOp.mem_of_branches? hpath h (by simpa [h] using hc)

lemma Node.mem_branches_right (hop : op.isComparison) (hpath : subject.path? = some path)
    {literalSpan : Option Span}
    (hc : (name, c) ∈ ((Node.binary op (.mk (.literal l) literalSpan) subject).branches known
      span).of b) :
    ∃ yes no, op.flip.constraints? l.toValue = some (yes, no) ∧
      c = path.wrap (if b then yes else no) := by
  rw [Node.branches_comparison hop, BinaryOp.branches?_literal_left] at hc
  cases h : op.flip.branches? known subject (.mk (.literal l) literalSpan) with
  | none => simp [h] at hc
  | some branches => exact BinaryOp.mem_of_branches? hpath h (by simpa [h] using hc)

end Comparison

lemma Literal.isCompound_toValue (l : Literal) : l.toValue.isCompound = false := by
  cases l <;> rfl

lemma BinaryOp.isFixFree_of_constraints? {op : BinaryOp} {v : Value} {yes no : Constraint}
    (h : op.constraints? v = some (yes, no)) (b : Bool) :
    (if b then yes else no).isFixFree := by
  by_cases hord : op.isOrdering
  · obtain ⟨n, rfl, rfl, rfl⟩ := constraints?_ordering hord h
    cases b <;> rfl
  · cases op <;> simp [constraints?, isOrdering] at h hord <;> obtain ⟨-, rfl, rfl⟩ := h <;>
      cases b <;> rfl

/-- A comparison of a path with a literal, on either side, that is true tells about the root of the
path what the root satisfies, and so does one that is false, provided that a length on the way is a
field of an object. -/
theorem Term.branches_path_sound {cond subject literal : Term} {op : BinaryOp} {path : Path}
    {l : Literal} (hop : op.isComparison) (hpath : subject.path? = some path)
    (hl : literal.asLiteral? = some l)
    (hcond : cond.node = .binary op subject literal ∨ cond.node = .binary op literal subject)
    (s : Setting) (env : Environment) (known : String → Option Value) {v : Value}
    (hroot : env.get path.root = .ok v) (hstays : Path.staysInObjects path.fields v) :
    (cond.eval s env = .ok (.bool true) →
      ∀ c, (path.root, c) ∈ (cond.branches known).yes → c.admits v) ∧
    (cond.eval s env = .ok (.bool false) →
      ∀ c, (path.root, c) ∈ (cond.branches known).no → c.admits v) := by
  obtain ⟨node, span⟩ := cond
  obtain ⟨literalSpan, rfl⟩ : ∃ literalSpan, literal = .mk (.literal l) literalSpan := by
    obtain ⟨n, literalSpan⟩ := literal
    cases n <;> simp_all [Term.asLiteral?]
  have hlogical : op.isLogical = false := by
    cases op <;> simp_all [BinaryOp.isComparison, BinaryOp.isLogical]
  -- the truth value of the comparison, read with the path on the left
  have key (b : Bool) (heval : (Term.mk node span).eval s env = .ok (.bool b)) (c : Constraint)
      (hc : (path.root, c) ∈ (node.branches known span).of b) : c.admits v := by
    obtain ⟨op', w, yes, no, hw, happly, hconstraints, rfl⟩ : ∃ op' w yes no,
        subject.eval s env = .ok w ∧ BinaryOp.apply op' w l.toValue = .ok (.bool b) ∧
        op'.constraints? l.toValue = some (yes, no) ∧ c = path.wrap (if b then yes else no) := by
      rw [Term.eval_mk_eq_ok] at heval
      obtain rfl | rfl := hcond
      · obtain ⟨yes, no, hyn, rfl⟩ := Node.mem_branches_left hop hpath hc
        rw [Node.eval_binary hlogical] at heval
        obtain ⟨w, hw, heval⟩ := Outcome.bind_eq_ok.mp heval
        exact ⟨op, w, yes, no, hw, heval, hyn, rfl⟩
      · obtain ⟨yes, no, hyn, rfl⟩ := Node.mem_branches_right hop hpath hc
        rw [Node.eval_binary hlogical] at heval
        obtain ⟨u, hu, heval⟩ := Outcome.bind_eq_ok.mp heval
        obtain ⟨w, hw, heval⟩ := Outcome.bind_eq_ok.mp heval
        obtain rfl : l.toValue = u := Except.ok.inj hu
        exact ⟨op.flip, w, yes, no, hw,
          BinaryOp.apply_flip hop l.isCompound_toValue heval, hyn, rfl⟩
    have hfree := path.isFixFree_wrap (BinaryOp.isFixFree_of_constraints? hconstraints b)
    rw [Constraint.admits_iff_holds hfree fun _ => True]
    exact Path.holds_wrap (Term.eval_path hpath hroot hw) hstays
      (BinaryOp.holds_of_constraints? l.isCompound_toValue hconstraints happly _)
  exact ⟨key true, key false⟩

theorem Term.branches_path_sound_box :
    let box : Value := .object [("size", .object [("length", .ofNat 3)])]
    let cond := Term.binary .lt (.number (.ofNat 2)) (.field (.field (.var "box") "size") "length")
    cond.eval (.ofLimit [] 0) [("box", box)] = .ok (.bool true) ∧
      ("box", .field "size" (.field "length" (.bound .gt (.ofNat 2)))) ∈
        (cond.branches fun _ => none).yes ∧
      ∀ c, ("box", c) ∈ (cond.branches fun _ => none).yes → c.admits box := by
  have heval : (Term.binary .lt (.number (.ofNat 2))
      (.field (.field (.var "box") "size") "length")).eval (.ofLimit [] 0)
        [("box", .object [("size", .object [("length", .ofNat 3)])])] = .ok (.bool true) := rfl
  exact ⟨heval, List.mem_singleton.mpr rfl,
    (Term.branches_path_sound rfl rfl rfl (Or.inr rfl) _ _ _ rfl rfl).1 heval⟩

/-- The condition `x.length == 3` is true of the text `"abc"`, but the text does not satisfy what
is recorded about `x`. -/
theorem Term.branches_length_unsound :
    let cond := Term.binary .eq (.field (.var "x") "length") (.number (.ofNat 3))
    cond.eval (.ofLimit [] 0) [("x", .string "abc")] = .ok (.bool true) ∧
      ∃ c, ("x", c) ∈ (cond.branches fun _ => none).yes ∧ c.admits (.string "abc") = false :=
  ⟨rfl, _, List.mem_singleton.mpr rfl, rfl⟩

end Stagewise
