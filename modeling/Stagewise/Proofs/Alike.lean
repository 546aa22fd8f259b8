import Stagewise.Proofs.Data
import Stagewise.Proofs.Erasure
import Stagewise.Proofs.Mention
import Stagewise.Term.Walk

/-! Values that are alike: equal but for what their functions have captured, where the captured
environments agree on the names that a function takes from outside. Operations and builtin functions
do not tell such values apart. What functions may contain, which errors they may end with, and
whether values have to be equal altogether, is left to a regime. -/

set_option autoImplicit false

namespace Stagewise

open Association (find? names put putAll)

structure Regime where
  exact : Bool
  term : Term → Prop
  error : Error → Prop
  failure {cause : Cause} (span : Option Span) :
    (cause.category == .assertion) = false → error (.failure cause span)
  withSpan {err : Error} (span : Option Span) : error err → error (err.withSpan span)
  assertion {env : Environment} {callee : Term} {args : List Term} {span : Option Span} :
    env.form? callee = some .assert → term (.mk (.call callee args) span) → ∀ err, error err
  thrown {e : Term} {span : Option Span} : term (.mk (.throw e) span) → ∀ v, error (.thrown v)
  lambda {f : Lambda} {span : Option Span} : term (.mk (.lambda f) span) → exact = false

def Regime.view (r : Regime) : Value → Value :=
  match r.exact with
  | true => id
  | false => Value.erase

variable {r : Regime}

/-! ### Outcomes -/

namespace Outcome

variable {α β γ δ : Type} {R : α → β → Prop} {Q : γ → δ → Prop}

def Agree (r : Regime) (R : α → β → Prop) : Outcome α → Outcome β → Prop
  | .ok a, .ok b => R a b
  | .error e, .error e' => r.error e ∧ e.map r.view = e'.map r.view
  | _, _ => False

lemma Agree.pure {a : α} {b : β} (h : R a b) : Agree r R (pure a) (pure b) := h

lemma Agree.fail {cause cause' : Cause} (hc : (cause.category == .assertion) = false)
    (h : cause.map r.view = cause'.map r.view) : Agree r R (fail cause) (fail cause') :=
  ⟨r.failure none hc, congrArg (Error.failure · none) h⟩

lemma Agree.bind {x : Outcome α} {y : Outcome β} {f : α → Outcome γ} {g : β → Outcome δ}
    (h : Agree r R x y) (hf : ∀ a b, R a b → Agree r Q (f a) (g b)) :
    Agree r Q (x >>= f) (y >>= g) := by
  cases x with
  | ok a =>
    cases y with
    | ok b => exact hf a b h
    | error e => exact h.elim
  | error e =>
    cases y with
    | ok b => exact h.elim
    | error e' => exact h

lemma Agree.withSpan {x : Outcome α} {y : Outcome β} (h : Agree r R x y) (span : Option Span) :
    Agree r R (x.mapError (Error.withSpan span)) (y.mapError (Error.withSpan span)) := by
  cases x with
  | ok a => cases y <;> exact h
  | error e =>
    cases y with
    | ok b => exact h
    | error e' =>
      refine ⟨r.withSpan span h.1, ?_⟩
      rw [Error.withSpan_map, Error.withSpan_map, h.2]

end Outcome

/-! ### Values that differ in captured environments -/

def Lambda.outerNames (f : Lambda) : List String :=
  Occurrence.namesOf (Term.occurrencesLambda [] false f)

namespace Value

def isAtom : Value → Bool
  | .object _ | .array _ | .closure _ _ => false
  | _ => true

/-- The values are equal, in an exact regime; in others they are equal but for captured
environments, and those agree on the names that the function takes from outside. -/
inductive AlikeIn (r : Regime) : Value → Value → Prop
  | atom {v : Value} : v.isAtom → AlikeIn r v v
  | object {fs gs : List (String × Value)} : fs.map Prod.fst = gs.map Prod.fst →
      List.Forall₂ (AlikeIn r) (fs.map Prod.snd) (gs.map Prod.snd) →
        AlikeIn r (.object fs) (.object gs)
  | array {vs ws : List Value} : List.Forall₂ (AlikeIn r) vs ws →
      AlikeIn r (.array vs) (.array ws)
  | function {f : Lambda} {env : Environment} : r.exact = true →
      AlikeIn r (.closure f env) (.closure f env)
  | closure {f : Lambda} {env env' : Environment} : r.exact = false →
      (∀ t ∈ Term.walkLambda f, r.term t) →
      (∀ n ∈ f.outerNames, Option.Rel (AlikeIn r) (find? n env) (find? n env')) →
        AlikeIn r (.closure f env) (.closure f env')

abbrev AlikeFieldsIn (r : Regime) : List (String × Value) → List (String × Value) → Prop :=
  List.Forall₂ fun p q => p.1 = q.1 ∧ p.2.AlikeIn r q.2

lemma alikeFieldsIn_iff {fs gs : List (String × Value)} : AlikeFieldsIn r fs gs ↔
    fs.map Prod.fst = gs.map Prod.fst ∧
      List.Forall₂ (AlikeIn r) (fs.map Prod.snd) (gs.map Prod.snd) := by
  induction fs generalizing gs with
  | nil => cases gs <;> simp
  | cons p fs ih =>
    cases gs with
    | nil => simp
    | cons q gs =>
      simp only [List.forall₂_cons, List.map_cons, List.cons.injEq, ih]
      tauto

lemma alikeIn_object {fs gs : List (String × Value)} :
    AlikeIn r (.object fs) (.object gs) ↔ AlikeFieldsIn r fs gs := by
  rw [alikeFieldsIn_iff]
  refine ⟨fun h => ?_, fun h => .object h.1 h.2⟩
  cases h with
  | atom h => simp [isAtom] at h
  | object hn hv => exact ⟨hn, hv⟩

lemma AlikeFieldsIn.find? {fs gs : List (String × Value)} (h : AlikeFieldsIn r fs gs) (n : String) :
    Option.Rel (AlikeIn r) (find? n fs) (find? n gs) := by
  induction h with
  | nil => exact .none
  | @cons p q fs gs hpq _ ih =>
    obtain ⟨name, v⟩ := p
    obtain ⟨name', w⟩ := q
    obtain ⟨rfl, hvw⟩ := hpq
    simp only [Association.find?]
    split_ifs
    · exact .some hvw
    · exact ih

lemma AlikeFieldsIn.put {fs gs : List (String × Value)} (h : AlikeFieldsIn r fs gs) (name : String)
    {v w : Value} (hvw : AlikeIn r v w) : AlikeFieldsIn r (put name v fs) (put name w gs) := by
  induction h with
  | nil => exact .cons ⟨rfl, hvw⟩ .nil
  | @cons p q fs gs hpq h ih =>
    obtain ⟨key, x⟩ := p
    obtain ⟨key', y⟩ := q
    obtain ⟨rfl, hxy⟩ := hpq
    simp only [Association.put]
    split_ifs
    · exact .cons ⟨rfl, hvw⟩ h
    · exact .cons ⟨rfl, hxy⟩ ih

lemma AlikeFieldsIn.putAll {fs gs fs' gs' : List (String × Value)} (h : AlikeFieldsIn r fs gs)
    (h' : AlikeFieldsIn r fs' gs') : AlikeFieldsIn r (putAll fs fs') (putAll gs gs') := by
  unfold Association.putAll
  induction h' generalizing fs gs with
  | nil => exact h
  | @cons p q _ _ hpq _ ih =>
    obtain ⟨name, x⟩ := p
    obtain ⟨name', y⟩ := q
    obtain ⟨rfl, hxy⟩ := hpq
    exact ih (h.put name hxy)

mutual

theorem AlikeIn.erase_eq : ∀ {v w : Value}, AlikeIn r v w → v.erase = w.erase
  | .object fs, w, h => by
    cases h with
    | atom h => simp [isAtom] at h
    | object hn hv => rw [erase, erase, AlikeFieldsIn.erase_eq (alikeFieldsIn_iff.mpr ⟨hn, hv⟩)]
  | .array vs, w, h => by
    cases h with
    | atom h => simp [isAtom] at h
    | array h => rw [erase, erase, AlikeIn.eraseItems_eq h]
  | .closure _ _, w, h | .number _, w, h | .string _, w, h | .bool _, w, h | .null, w, h
  | .builtin _, w, h | .type _, w, h => by
    cases h <;> rfl

theorem AlikeFieldsIn.erase_eq : ∀ {fs gs : List (String × Value)}, AlikeFieldsIn r fs gs →
    eraseFields fs = eraseFields gs
  | [], _, h => by
    cases h
    rfl
  | (name, v) :: fs, _, h => by
    cases h with
    | @cons _ q _ gs hq h =>
      obtain ⟨name', w⟩ := q
      obtain ⟨rfl, hvw⟩ := hq
      rw [eraseFields, eraseFields, AlikeIn.erase_eq hvw, AlikeFieldsIn.erase_eq h]

theorem AlikeIn.eraseItems_eq : ∀ {vs ws : List Value}, List.Forall₂ (AlikeIn r) vs ws →
    eraseItems vs = eraseItems ws
  | [], _, h => by
    cases h
    rfl
  | v :: vs, _, h => by
    cases h with
    | cons hv h => rw [eraseItems, eraseItems, AlikeIn.erase_eq hv, AlikeIn.eraseItems_eq h]

end

mutual

theorem AlikeIn.eq_of_exact (hr : r.exact = true) : ∀ {v w : Value}, AlikeIn r v w → v = w
  | .object fs, w, h => by
    cases h with
    | atom => rfl
    | object hn hv => rw [AlikeFieldsIn.eq_of_exact hr (alikeFieldsIn_iff.mpr ⟨hn, hv⟩)]
  | .array vs, w, h => by
    cases h with
    | atom => rfl
    | array h => rw [AlikeIn.eqItems_of_exact hr h]
  | .closure _ _, w, h => by
    cases h with
    | atom | function => rfl
    | closure h => simp [hr] at h
  | .number _, w, h | .string _, w, h | .bool _, w, h | .null, w, h | .builtin _, w, h
  | .type _, w, h => by
    cases h
    rfl

theorem AlikeFieldsIn.eq_of_exact (hr : r.exact = true) : ∀ {fs gs : List (String × Value)},
    AlikeFieldsIn r fs gs → fs = gs
  | [], _, h => by
    cases h
    rfl
  | (name, v) :: fs, _, h => by
    cases h with
    | @cons _ q _ gs hq h =>
      obtain ⟨name', w⟩ := q
      obtain ⟨rfl, hvw⟩ := hq
      exact congrArg₂ (fun v fs => (name, v) :: fs) (AlikeIn.eq_of_exact hr hvw)
        (AlikeFieldsIn.eq_of_exact hr h)

theorem AlikeIn.eqItems_of_exact (hr : r.exact = true) : ∀ {vs ws : List Value},
    List.Forall₂ (AlikeIn r) vs ws → vs = ws
  | [], _, h => by
    cases h
    rfl
  | v :: vs, _, h => by
    cases h with
    | cons hv h => rw [AlikeIn.eq_of_exact hr hv, AlikeIn.eqItems_of_exact hr h]

end

lemma AlikeIn.view_eq {v w : Value} (h : AlikeIn r v w) : r.view v = r.view w := by
  unfold Regime.view
  cases hr : r.exact with
  | true => exact h.eq_of_exact hr
  | false => exact h.erase_eq

section Observations

variable {v w v' w' : Value} (h : AlikeIn r v w)

include h

lemma AlikeIn.text_eq : v.text = w.text := by
  rw [← text_erase v, h.erase_eq, text_erase]

lemma AlikeIn.kind_eq : v.kind = w.kind := by
  rw [← kind_erase v, h.erase_eq, kind_erase]

lemma AlikeIn.ofValue_eq : Constraint.ofValue v = Constraint.ofValue w := by
  rw [← Constraint.ofValue_erase v, h.erase_eq, Constraint.ofValue_erase]

lemma AlikeIn.admits_eq (c : Constraint) : c.admits v = c.admits w := by
  rw [← Constraint.admits_erase c v, h.erase_eq, Constraint.admits_erase]

lemma AlikeIn.same_eq (h' : AlikeIn r v' w') : v.same v' = w.same w' := by
  rw [← erase_same v, ← same_erase _ v', h.erase_eq, h'.erase_eq, same_erase, erase_same]

lemma AlikeIn.equals_eq (h' : AlikeIn r v' w') : v.equals v' = w.equals w' := by
  rw [← erase_equals v, ← equals_erase _ v', h.erase_eq, h'.erase_eq, equals_erase, erase_equals]

end Observations

end Value

/-! ### Operations -/

section Operations

open Outcome (Agree)
open Value (AlikeIn AlikeFieldsIn)

variable {v w a b a' b' : Value}

lemma Value.AlikeIn.eq_of_isAtom (h : AlikeIn r v w) (hv : v.isAtom) : v = w := by
  cases h with
  | atom => rfl
  | _ => simp [Value.isAtom] at hv

lemma Value.AlikeIn.isAtom_eq (h : AlikeIn r v w) : v.isAtom = w.isAtom := by
  cases h <;> rfl

lemma UnaryOp.agree_apply (op : UnaryOp) (h : AlikeIn r v w) :
    Agree r (AlikeIn r) (op.apply v) (op.apply w) := by
  have hview := h.view_eq
  cases h with
  | atom => cases op <;> cases v <;> first | exact .pure (.atom rfl) | exact .fail rfl rfl
  | _ =>
    cases op with
    | neg => exact .fail rfl (congrArg Cause.cannotNegate hview)
    | not => exact .fail rfl (congrArg Cause.cannotInvert hview)

def BinaryOp.operandCause (op : BinaryOp) (a b : Value) : Cause :=
  match op with
  | .add => .cannotAdd a b
  | .sub | .mul | .div | .mod => .notNumbers op a b
  | .lt | .le | .gt | .ge => .cannotCompare a b
  | _ => .notBooleans op a b

lemma BinaryOp.apply_of_not_isAtom {op : BinaryOp} (heq : op ≠ .eq) (hne : op ≠ .ne)
    (h : (a.isAtom && b.isAtom) = false) : op.apply a b =
      if op = .add ∧ (a.kind = .string ∨ b.kind = .string) then .ok (.string (a.text ++ b.text))
      else fail (op.operandCause a b) := by
  cases op <;> first
    | exact absurd rfl heq
    | exact absurd rfl hne
    | cases a <;> cases b <;> first | rfl | simp [Value.isAtom] at h

lemma BinaryOp.agree_apply (op : BinaryOp) (ha : AlikeIn r a a') (hb : AlikeIn r b b') :
    Agree r (AlikeIn r) (op.apply a b) (op.apply a' b') := by
  by_cases hop : op = .eq ∨ op = .ne
  · have hequals := ha.equals_eq hb
    rcases hop with rfl | rfl
    · exact .pure (by simpa only [hequals] using .atom rfl)
    · exact .pure (by simpa only [hequals] using .atom rfl)
  · rw [not_or] at hop
    cases h : a.isAtom && b.isAtom with
    | true =>
      rw [Bool.and_eq_true] at h
      rw [ha.eq_of_isAtom h.1, hb.eq_of_isAtom h.2]
      unfold BinaryOp.apply
      split <;> (try split) <;> first | exact .pure (.atom rfl) | exact .fail rfl rfl
    | false =>
      have h' : (a'.isAtom && b'.isAtom) = false := by rw [← ha.isAtom_eq, ← hb.isAtom_eq, h]
      rw [apply_of_not_isAtom hop.1 hop.2 h, apply_of_not_isAtom hop.1 hop.2 h', ha.kind_eq,
        hb.kind_eq, ha.text_eq, hb.text_eq]
      split_ifs
      · exact .pure (.atom rfl)
      · have hcause (a b : Value) : (op.operandCause a b).map r.view =
            op.operandCause (r.view a) (r.view b) := by
          cases op <;> rfl
        exact .fail (by cases op <;> rfl) (by rw [hcause, hcause, ha.view_eq, hb.view_eq])

namespace Value.AlikeIn

lemma agree_condition (h : AlikeIn r v w) : Agree r Eq v.condition w.condition := by
  have hview := h.view_eq
  cases h with
  | atom => cases v <;> first | exact .pure rfl | exact .fail rfl rfl
  | _ => exact .fail rfl (congrArg Cause.conditionNotBoolean hview)

lemma agree_asType (h : AlikeIn r v w) : Agree r Eq v.asType w.asType := by
  have hview := h.view_eq
  cases h with
  | atom => cases v <;> first | exact .pure rfl | exact .fail rfl rfl
  | _ => exact .fail rfl (congrArg (Cause.notAType ∘ Subject.value) hview)

lemma agree_spreadFields (h : AlikeIn r v w) :
    Agree r (AlikeFieldsIn r) v.spreadFields w.spreadFields := by
  have hview := congrArg (Cause.cannotSpreadIntoObject ∘ Subject.value) h.view_eq
  cases h with
  | atom h => cases v <;> first | exact .fail rfl hview | simp [isAtom] at h
  | object hn hv => exact .pure (alikeFieldsIn_iff.mpr ⟨hn, hv⟩)
  | _ => exact .fail rfl hview

lemma agree_spreadItems (h : AlikeIn r v w) :
    Agree r (List.Forall₂ (AlikeIn r)) v.spreadItems w.spreadItems := by
  have hview := congrArg (Cause.cannotSpreadIntoArray ∘ Subject.value) h.view_eq
  cases h with
  | atom h => cases v <;> first | exact .fail rfl hview | simp [isAtom] at h
  | array h => exact .pure h
  | _ => exact .fail rfl hview

lemma agree_readField (h : AlikeIn r v w) (name : String) :
    Agree r (AlikeIn r) (v.readField name) (w.readField name) := by
  have hview := congrArg (fun v => Cause.cannotReadField (.value v) name) h.view_eq
  have hnone := congrArg (fun v => Cause.noField (.value v) name) h.view_eq
  cases h with
  | @atom v h =>
    cases v with
    | object | array | closure => simp [isAtom] at h
    | string s =>
      simp only [readField]
      split_ifs
      · exact .pure (.atom rfl)
      · exact .fail rfl hview
    | _ => exact .fail rfl hview
  | @object fs gs hn hv =>
    have hfind := (alikeFieldsIn_iff.mpr ⟨hn, hv⟩).find? name
    simp only [readField]
    generalize find? name fs = a at hfind
    generalize find? name gs = b at hfind
    cases hfind with
    | none => exact .fail rfl hnone
    | some h => exact .pure h
  | array h =>
    simp only [readField, h.length_eq]
    split_ifs
    · exact .pure (.atom rfl)
    · exact .fail rfl hview
  | function | closure => exact .fail rfl hview

lemma asIndex?_eq (h : AlikeIn r v w) : v.asIndex? = w.asIndex? := by
  cases h <;> rfl

lemma getElem? {vs ws : List Value} (h : List.Forall₂ (AlikeIn r) vs ws) (i : Nat) :
    Option.Rel (AlikeIn r) vs[i]? ws[i]? := by
  induction h generalizing i with
  | nil => exact .none
  | cons hv _ ih =>
    cases i with
    | zero => exact .some hv
    | succ i => exact ih i

lemma agree_readIndex (h : AlikeIn r v w) (hkey : AlikeIn r a a') :
    Agree r (AlikeIn r) (v.readIndex a) (w.readIndex a') := by
  have hview := h.view_eq
  have hfield := h.agree_readField
  have hother : Agree r (AlikeIn r) (fail (.cannotIndexWith v a) : Outcome Value)
      (fail (.cannotIndexWith w a')) :=
    .fail rfl (congrArg₂ Cause.cannotIndexWith hview hkey.view_eq)
  have hbounds : Agree r (AlikeIn r) (fail (.outOfBounds a (.value v)) : Outcome Value)
      (fail (.outOfBounds a' (.value w))) :=
    .fail rfl (congrArg₂ (fun a v => Cause.outOfBounds a (.value v)) hkey.view_eq hview)
  cases h with
  | @atom v hv =>
    cases v with
    | object | array | closure => simp [isAtom] at hv
    | string s =>
      simp only [readIndex, hkey.asIndex?_eq]
      split
      · exact .pure (.atom rfl)
      · exact hbounds
    | _ => exact hother
  | object hn hv =>
    cases hkey with
    | @atom a ha =>
      cases a with
      | string name => exact hfield name
      | _ => exact hother
    | _ => exact hother
  | @array vs ws h =>
    simp only [readIndex, hkey.asIndex?_eq]
    cases a'.asIndex? with
    | none => exact hbounds
    | some i =>
      have hitem := AlikeIn.getElem? h i
      rw [Option.bind_some, Option.bind_some]
      generalize vs[i]? = x at hitem
      generalize ws[i]? = y at hitem
      cases hitem with
      | none => exact hbounds
      | some h => exact .pure h
  | function | closure => exact hother

lemma contains_eq {fs gs : List (String × Value)} {name : String}
    (h : Option.Rel (AlikeIn r) (find? name fs) (find? name gs)) :
    Association.contains name fs = Association.contains name gs := by
  unfold Association.contains
  generalize find? name fs = x at h
  generalize find? name gs = y at h
  cases h <;> rfl

lemma agree_callee (h : AlikeIn r v w) (name : String) :
    Agree r (Sum.LiftRel (AlikeIn r) Eq) (v.callee name) (w.callee name) := by
  have hread : Agree r (Sum.LiftRel (AlikeIn r) Eq) (Sum.inl (β := Builtin) <$> v.readField name)
      (Sum.inl <$> w.readField name) :=
    (h.agree_readField name).bind fun _ _ h => .pure (.inl h)
  cases hmethod : Builtin.ofMethod? name with
  | none => simpa only [callee, hmethod] using hread
  | some method =>
    have hown : Agree r (Sum.LiftRel (AlikeIn r) Eq) (.ok (Sum.inr method))
        (.ok (Sum.inr method)) := .pure (.inr rfl)
    cases h with
    | @object fs gs hn hv =>
      simp only [callee, hmethod, contains_eq ((alikeFieldsIn_iff.mpr ⟨hn, hv⟩).find? name)]
      split_ifs
      · exact hread
      · exact hown
    | @atom v hv =>
      cases v with
      | object => simp [isAtom] at hv
      | _ => simpa only [callee, hmethod, Bool.false_eq_true, if_false] using hown
    | _ => simpa only [callee, hmethod, Bool.false_eq_true, if_false] using hown

end Value.AlikeIn

end Operations

/-! ### Builtin functions -/

namespace Builtin

open Outcome (Agree)
open Value (AlikeIn AlikeFieldsIn)

variable {args args' : List Value} (hargs : List.Forall₂ (AlikeIn r) args args')

section Arguments

include hargs

lemma agree_arg (i : Nat) : Agree r (AlikeIn r) (arg args i) (arg args' i) := by
  have hitem := AlikeIn.getElem? hargs i
  unfold arg
  generalize args[i]? = x at hitem
  generalize args'[i]? = y at hitem
  cases hitem with
  | none => exact .fail rfl rfl
  | some h => exact .pure h

lemma agree_numberArg (i : Nat) : Agree r Eq (numberArg args i) (numberArg args' i) := by
  refine (agree_arg hargs i).bind fun v w h => ?_
  have hview := congrArg (Cause.mismatch "a number") h.view_eq
  cases h with
  | atom => cases v <;> first | exact .pure rfl | exact .fail rfl rfl
  | _ => exact .fail rfl hview

lemma agree_typeArg (i : Nat) : Agree r Eq (typeArg args i) (typeArg args' i) := by
  refine (agree_arg hargs i).bind fun v w h => ?_
  have hview := congrArg (Cause.mismatch "a type") h.view_eq
  cases h with
  | atom => cases v <;> first | exact .pure rfl | exact .fail rfl rfl
  | _ => exact .fail rfl hview

lemma agree_arrayArg (i : Nat) :
    Agree r (List.Forall₂ (AlikeIn r)) (arrayArg args i) (arrayArg args' i) := by
  refine (agree_arg hargs i).bind fun v w h => ?_
  have hview := congrArg (Cause.mismatch "an array") h.view_eq
  cases h with
  | atom h => cases v <;> first | exact .fail rfl hview | simp [Value.isAtom] at h
  | array h => exact .pure h
  | _ => exact .fail rfl hview

lemma agree_objectArg (i : Nat) :
    Agree r (AlikeFieldsIn r) (objectArg args i) (objectArg args' i) := by
  refine (agree_arg hargs i).bind fun v w h => ?_
  have hview := congrArg (Cause.mismatch "an object") h.view_eq
  cases h with
  | atom h => cases v <;> first | exact .fail rfl hview | simp [Value.isAtom] at h
  | object hn hv => exact .pure (Value.alikeFieldsIn_iff.mpr ⟨hn, hv⟩)
  | _ => exact .fail rfl hview

lemma map_eq_of_alike {α : Type} {f : Value → α} (hf : ∀ v w, AlikeIn r v w → f v = f w) :
    args.map f = args'.map f := by
  induction hargs with
  | nil => rfl
  | cons h _ ih => rw [List.map_cons, List.map_cons, hf _ _ h, ih]

lemma any_eq_of_alike {needle needle' : Value} (hneedle : AlikeIn r needle needle') :
    (args.any fun v => v == needle) = args'.any fun v => v == needle' := by
  induction hargs with
  | nil => rfl
  | cons h _ ih =>
    rw [List.any_cons, List.any_cons, ih]
    exact congrArg (· || _) (h.same_eq hneedle)

end Arguments

lemma agree_checkArgs (b : Builtin) (cs : List Constraint) :
    Agree r Eq (b.checkArgs cs) (b.checkArgs cs) := by
  have hcheck (params args : List Constraint) (position : Nat) :
      Agree r Eq (b.checkFrom position params args) (b.checkFrom position params args) := by
    induction params generalizing args position with
    | nil => exact .pure rfl
    | cons param params ih =>
      cases args with
      | nil => exact .pure rfl
      | cons arg args =>
        simp only [checkFrom]
        split_ifs
        · exact .fail rfl rfl
        · exact ih args (position + 1)
  unfold checkArgs
  split_ifs
  · exact hcheck _ _ _
  · exact .fail rfl rfl

lemma agree_lengthOf {v w : Value} (h : AlikeIn r v w) :
    Agree r (AlikeIn r) (lengthOf v) (lengthOf w) := by
  have hview := congrArg Cause.lengthOf h.view_eq
  cases h with
  | atom => cases v <;> first | exact .pure (.atom rfl) | exact .fail rfl rfl
  | array h => exact .pure (by simpa only [h.length_eq] using .atom rfl)
  | _ => exact .fail rfl hview

lemma agree_rangeOf {start stop : Number} :
    Agree r (AlikeIn r) (rangeOf start stop) (rangeOf start stop) := by
  unfold rangeOf
  split
  · exact .pure (.array (List.forall₂_same.mpr (List.forall_mem_map.mpr fun _ _ => .atom rfl)))
  · exact .fail rfl rfl

lemma agree_fieldTypes {fs gs : List (String × Value)} (h : AlikeFieldsIn r fs gs) :
    Agree r Eq (fieldTypes fs) (fieldTypes gs) := by
  induction h with
  | nil => exact .pure rfl
  | @cons p q fs gs hpq _ ih =>
    obtain ⟨name, v⟩ := p
    obtain ⟨name', w⟩ := q
    obtain ⟨rfl, h⟩ := hpq
    dsimp only at h
    have hother : Agree r (Eq (α := List (String × Constraint))) (fail (.notFieldType name v))
        (fail (.notFieldType name w)) := .fail rfl (congrArg (Cause.notFieldType name) h.view_eq)
    cases h with
    | @atom v =>
      cases v with
      | type c => exact ih.bind fun _ _ h => .pure (by rw [h])
      | _ => exact hother
    | _ => exact hother

lemma agree_itemTypes (h : List.Forall₂ (AlikeIn r) args args') :
    Agree r Eq (itemTypes args) (itemTypes args') := by
  induction h with
  | nil => exact .pure rfl
  | @cons v w vs ws h _ ih =>
    have hother : Agree r (Eq (α := List Constraint)) (fail (.notItemType v))
        (fail (.notItemType w)) := .fail rfl (congrArg Cause.notItemType h.view_eq)
    cases h with
    | @atom v =>
      cases v with
      | type c => exact ih.bind fun _ _ h => .pure (by rw [h])
      | _ => exact hother
    | _ => exact hother

lemma agree_collectEntries {fs gs : List (String × Value)} (hfields : AlikeFieldsIn r fs gs)
    (h : List.Forall₂ (AlikeIn r) args args') :
    Agree r (AlikeFieldsIn r) (collectEntries fs args) (collectEntries gs args') := by
  induction h generalizing fs gs with
  | nil => exact .pure hfields
  | @cons v w vs ws h _ ih =>
    have hother : Agree r (AlikeFieldsIn r) (fail (.notEntry v)) (fail (.notEntry w)) :=
      .fail rfl (congrArg Cause.notEntry h.view_eq)
    cases h with
    | @atom v hv =>
      cases v with
      | array => simp [Value.isAtom] at hv
      | _ => exact hother
    | array h =>
      cases h with
      | nil => exact hother
      | @cons name name' _ _ hname h =>
        cases hname with
        | @atom name =>
          cases name with
          | string name =>
            cases h with
            | nil => exact hother
            | cons hvalue h =>
              cases h with
              | nil => exact ih (hfields.put name hvalue)
              | cons => exact hother
          | _ => exact hother
        | _ => exact hother
    | _ => exact hother

lemma agree_closeType (self : String) {v w : Value} (h : AlikeIn r v w) :
    Agree r (AlikeIn r) (closeType self v) (closeType self w) := by
  have hview := congrArg Cause.builderResult h.view_eq
  cases h with
  | atom => cases v <;> first | exact .pure (.atom rfl) | exact .fail rfl rfl
  | _ => exact .fail rfl hview

def Respects (r : Regime) (apply : Apply) : Prop := ∀ f f' args args', AlikeIn r f f' →
  List.Forall₂ (AlikeIn r) args args' → Agree r (AlikeIn r) (apply f args) (apply f' args')

section Callbacks

variable {apply : Apply} (happly : Respects r apply) {callback callback' : Value}
  (hcallback : AlikeIn r callback callback')

include happly hcallback

lemma agree_mapItems (h : List.Forall₂ (AlikeIn r) args args') :
    Agree r (List.Forall₂ (AlikeIn r)) (mapItems apply callback args)
      (mapItems apply callback' args') := by
  induction h with
  | nil => exact .pure .nil
  | cons hv _ ih =>
    refine (happly _ _ _ _ hcallback (.cons hv .nil)).bind fun _ _ hresult => ?_
    exact ih.bind fun _ _ hresults => .pure (.cons hresult hresults)

lemma agree_filterItems (h : List.Forall₂ (AlikeIn r) args args') :
    Agree r (List.Forall₂ (AlikeIn r)) (filterItems apply callback args)
      (filterItems apply callback' args') := by
  induction h with
  | nil => exact .pure .nil
  | cons hv _ ih =>
    refine (happly _ _ _ _ hcallback (.cons hv .nil)).bind fun result result' hresult => ?_
    have hother : Agree r (List.Forall₂ (AlikeIn r)) (fail (.filterResult result))
        (fail (.filterResult result')) := .fail rfl (congrArg Cause.filterResult hresult.view_eq)
    cases hresult with
    | @atom result =>
      cases result with
      | bool keep =>
        cases keep with
        | true => exact ih.bind fun _ _ hresults => .pure (.cons hv hresults)
        | false => exact ih
      | _ => exact hother
    | _ => exact hother

lemma agree_foldItems {acc acc' : Value} (hacc : AlikeIn r acc acc')
    (h : List.Forall₂ (AlikeIn r) args args') :
    Agree r (AlikeIn r) (foldItems apply callback acc args)
      (foldItems apply callback' acc' args') := by
  induction h generalizing acc acc' with
  | nil => exact .pure hacc
  | cons hv _ ih =>
    exact (happly _ _ _ _ hcallback (.cons hacc (.cons hv .nil))).bind fun _ _ hresult =>
      ih hresult

lemma agree_buildType :
    Agree r (AlikeIn r) (buildType apply callback) (buildType apply callback') := by
  have hself (self : String) : Agree r (AlikeIn r)
      (apply callback [.type (.ref self)] >>= closeType self)
      (apply callback' [.type (.ref self)] >>= closeType self) :=
    (happly _ _ _ _ hcallback (.cons (.atom rfl) .nil)).bind fun _ _ h => agree_closeType self h
  cases hcallback <;> exact hself _

end Callbacks

variable {apply : Apply} (happly : Respects r apply)

include hargs happly in
theorem agree_run (b : Builtin) : Agree r (AlikeIn r) (b.run apply args) (b.run apply args') := by
  have harg := agree_arg hargs
  have harray := agree_arrayArg hargs
  have hobject := agree_objectArg hargs
  have hnumber := agree_numberArg hargs
  have htype := agree_typeArg hargs
  have hatom {v w : Value} (h : v = w) (hv : v.isAtom := by rfl) :
      Agree r (AlikeIn r) (pure v) (pure w) := .pure (h ▸ .atom hv)
  have htexts {vs ws : List Value} (h : vs = ws) (hv : ∀ v ∈ vs, v.isAtom) :
      Agree r (AlikeIn r) (pure (.array vs)) (pure (.array ws)) :=
    .pure (.array (h ▸ List.forall₂_same.mpr fun v hvs => .atom (hv v hvs)))
  cases b <;> simp only [run]
  case guard k => exact (harg 0).bind fun _ _ h => hatom (by rw [h.kind_eq])
  case length => exact (harg 0).bind fun _ _ h => agree_lengthOf h
  case keys =>
    refine (hobject 0).bind fun fs gs h => htexts ?_ (List.forall_mem_map.mpr fun _ _ => rfl)
    have hnames := (Value.alikeFieldsIn_iff.mp h).1
    simpa [Function.comp_def] using congrArg (List.map Value.string) hnames
  case values =>
    exact (hobject 0).bind fun _ _ h => .pure (.array (Value.alikeFieldsIn_iff.mp h).2)
  case entries =>
    refine (hobject 0).bind fun _ _ h => .pure (.array ?_)
    refine List.forall₂_map_left_iff.mpr (List.forall₂_map_right_iff.mpr ?_)
    refine h.imp fun p q hpq => ?_
    exact .array (.cons (hpq.1 ▸ .atom rfl) (.cons hpq.2 .nil))
  case concat =>
    exact (harray 0).bind fun _ _ hx => (harray 1).bind fun _ _ hy =>
      .pure (.array (List.rel_append hx hy))
  case append =>
    exact (harray 0).bind fun _ _ hx => (harg 1).bind fun _ _ hy =>
      .pure (.array (List.rel_append hx (.cons hy .nil)))
  case slice =>
    refine (harray 0).bind fun _ _ hx => (hnumber 1).bind fun start _ hstart =>
      (hnumber 2).bind fun stop _ hstop => .pure (.array ?_)
    subst hstart hstop
    unfold slicePart
    rw [hx.length_eq]
    exact List.forall₂_take _ (List.forall₂_drop _ hx)
  case includes =>
    exact (harg 1).bind fun _ _ hneedle => (harray 0).bind fun _ _ hx =>
      hatom (by rw [any_eq_of_alike hx hneedle])
  case join =>
    refine (harg 1).bind fun separator separator' hs => ?_
    have hother := congrArg Cause.separator hs.view_eq
    cases hs with
    | atom =>
      cases separator with
      | string s =>
        exact (harray 0).bind fun _ _ hx =>
          hatom (by rw [map_eq_of_alike hx fun _ _ h => h.text_eq])
      | _ => exact .fail rfl hother
    | _ => exact .fail rfl hother
  case range =>
    refine (hnumber 0).bind fun _ _ ha => (hnumber 1).bind fun _ _ hb => ?_
    subst ha hb
    exact agree_rangeOf
  case toText => exact (harg 0).bind fun _ _ h => hatom (by rw [h.text_eq])
  case map =>
    exact (harg 1).bind fun _ _ hf => (harray 0).bind fun _ _ hx =>
      (agree_mapItems happly hf hx).bind fun _ _ hr => .pure (.array hr)
  case filter =>
    exact (harg 1).bind fun _ _ hf => (harray 0).bind fun _ _ hx =>
      (agree_filterItems happly hf hx).bind fun _ _ hr => .pure (.array hr)
  case fold =>
    exact (harg 2).bind fun _ _ hf => (harray 0).bind fun _ _ hx => (harg 1).bind fun _ _ ha =>
      agree_foldItems happly hf ha hx
  case fields =>
    exact (htype 0).bind fun _ _ h => htexts (by rw [h]) (List.forall_mem_map.mpr fun _ _ => rfl)
  case fieldType =>
    refine (harg 1).bind fun name name' hname => ?_
    cases hname with
    | atom =>
      cases name with
      | string name => exact (htype 0).bind fun _ _ h => hatom (by rw [h])
      | _ => exact .fail rfl rfl
    | _ => exact .fail rfl rfl
  case objectType =>
    refine (harg 0).bind fun parts parts' hparts => ?_
    cases hparts with
    | atom hv =>
      cases parts with
      | object => simp [Value.isAtom] at hv
      | _ => exact .fail rfl rfl
    | object hn hv =>
      exact (agree_fieldTypes (Value.alikeFieldsIn_iff.mpr ⟨hn, hv⟩)).bind fun _ _ h =>
        hatom (by rw [h])
    | _ => exact .fail rfl rfl
  case recType => exact (harg 0).bind fun _ _ hf => agree_buildType happly hf
  case objectFromEntries =>
    exact (harray 0).bind fun _ _ hx => (agree_collectEntries .nil hx).bind fun _ _ hf =>
      .pure (Value.alikeIn_object.mpr hf)
  case tupleType =>
    exact (harray 0).bind fun _ _ hx => (agree_itemTypes hx).bind fun _ _ h =>
      hatom (by rw [h])
  case literalType => exact (harg 0).bind fun _ _ h => hatom (by rw [h.ofValue_eq])
  case abs | floor => exact (hnumber 0).bind fun _ _ h => hatom (by rw [h])
  case min | max =>
    exact (hnumber 0).bind fun _ _ ha => (hnumber 1).bind fun _ _ hb => hatom (by rw [ha, hb])
  case arrayType => exact (htype 0).bind fun _ _ h => hatom (by rw [h])
  case unionType | intersectionType | typeImplies =>
    exact (htype 0).bind fun _ _ ha => (htype 1).bind fun _ _ hb => hatom (by rw [ha, hb])

lemma rel_find?_zip {rest rest' : List Value} (h : List.Forall₂ (AlikeIn r) rest rest') (slot : Nat)
    (order : List Nat) : Option.Rel (AlikeIn r)
      (((order.zip rest).find? fun p => p.1 == slot).map Prod.snd)
      (((order.zip rest').find? fun p => p.1 == slot).map Prod.snd) := by
  induction h generalizing order with
  | nil => simp
  | cons hv _ ih =>
    cases order with
    | nil => exact .none
    | cons index order =>
      simp only [List.zip_cons_cons, List.find?_cons]
      cases index == slot with
      | true => exact .some hv
      | false => exact ih order

lemma alike_ofMethodArgs (b : Builtin) {receiver receiver' : Value} {rest rest' : List Value}
    (hr : AlikeIn r receiver receiver') (hrest : List.Forall₂ (AlikeIn r) rest rest') :
    List.Forall₂ (AlikeIn r) (b.ofMethodArgs receiver rest) (b.ofMethodArgs receiver' rest') := by
  have hplain := List.Forall₂.cons hr hrest
  unfold ofMethodArgs
  rw [hrest.length_eq]
  split
  · exact hplain
  · split_ifs
    · refine .cons hr (List.rel_filterMap (R := Eq) ?_ (List.forall₂_eq_eq_eq ▸ rfl))
      rintro slot _ rfl
      exact rel_find?_zip hrest (slot + 1) _
    · exact hplain

end Builtin

end Stagewise
