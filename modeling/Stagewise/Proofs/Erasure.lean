import Mathlib.Tactic.Common
import Stagewise.Constraint.Membership
import Stagewise.Error

/-! Values without what their functions have captured. No text, no comparison and no type of a value
depends on it. -/

set_option autoImplicit false

namespace Stagewise

open Association (find?)

namespace Value

mutual

def erase : Value → Value
  | .object fields => .object (eraseFields fields)
  | .array items => .array (eraseItems items)
  | .closure f _ => .closure f []
  | v => v
termination_by structural v => v

def eraseFields : List (String × Value) → List (String × Value)
  | [] => []
  | (name, v) :: fields => (name, v.erase) :: eraseFields fields
termination_by structural fields => fields

def eraseItems : List Value → List Value
  | [] => []
  | v :: items => v.erase :: eraseItems items
termination_by structural items => items

end

mutual

def isClosureFree : Value → Bool
  | .object fields => areClosureFreeFields fields
  | .array items => areClosureFree items
  | .closure _ _ => false
  | _ => true
termination_by structural v => v

def areClosureFreeFields : List (String × Value) → Bool
  | [] => true
  | (_, v) :: fields => v.isClosureFree && areClosureFreeFields fields
termination_by structural fields => fields

def areClosureFree : List Value → Bool
  | [] => true
  | v :: items => v.isClosureFree && areClosureFree items
termination_by structural items => items

end

@[simp] lemma erase_toValue (l : Literal) : l.toValue.erase = l.toValue := by
  cases l <;> rfl

lemma eraseItems_eq_map (items : List Value) : eraseItems items = items.map erase := by
  induction items with
  | nil => rfl
  | cons v items ih => rw [eraseItems, ih, List.map_cons]

lemma eraseFields_eq_map (fields : List (String × Value)) :
    eraseFields fields = fields.map fun p => (p.1, p.2.erase) := by
  induction fields with
  | nil => rfl
  | cons p fields ih => rw [eraseFields, ih, List.map_cons]

lemma find?_eraseFields (name : String) (fields : List (String × Value)) :
    find? name (eraseFields fields) = (find? name fields).map erase := by
  induction fields with
  | nil => rfl
  | cons p fields ih =>
    obtain ⟨key, v⟩ := p
    simp only [eraseFields, find?, ih]
    split_ifs <;> rfl

/-! ### Values without functions -/

mutual

theorem erase_of_isClosureFree : ∀ {v : Value}, v.isClosureFree → v.erase = v
  | .object fields, h => by rw [erase, eraseFields_of_areClosureFree h]
  | .array items, h => by rw [erase, eraseItems_of_areClosureFree h]
  | .closure _ _, h => by simp [isClosureFree] at h
  | .number _, _ | .string _, _ | .bool _, _ | .null, _ | .builtin _, _ | .type _, _ => rfl

theorem eraseFields_of_areClosureFree : ∀ {fields : List (String × Value)},
    areClosureFreeFields fields → eraseFields fields = fields
  | [], _ => rfl
  | (name, v) :: fields, h => by
    rw [areClosureFreeFields, Bool.and_eq_true] at h
    rw [eraseFields, erase_of_isClosureFree h.1, eraseFields_of_areClosureFree h.2]

theorem eraseItems_of_areClosureFree : ∀ {items : List Value},
    areClosureFree items → eraseItems items = items
  | [], _ => rfl
  | v :: items, h => by
    rw [areClosureFree, Bool.and_eq_true] at h
    rw [eraseItems, erase_of_isClosureFree h.1, eraseItems_of_areClosureFree h.2]

end

mutual

theorem isClosureFree_erase : ∀ v : Value, v.erase.isClosureFree = v.isClosureFree
  | .object fields => areClosureFreeFields_erase fields
  | .array items => areClosureFree_erase items
  | .closure _ _ | .number _ | .string _ | .bool _ | .null | .builtin _ | .type _ => rfl

theorem areClosureFreeFields_erase : ∀ fields : List (String × Value),
    areClosureFreeFields (eraseFields fields) = areClosureFreeFields fields
  | [] => rfl
  | (name, v) :: fields => by
    rw [eraseFields, areClosureFreeFields, areClosureFreeFields, isClosureFree_erase v,
      areClosureFreeFields_erase fields]

theorem areClosureFree_erase : ∀ items : List Value,
    areClosureFree (eraseItems items) = areClosureFree items
  | [] => rfl
  | v :: items => by
    rw [eraseItems, areClosureFree, areClosureFree, isClosureFree_erase v,
      areClosureFree_erase items]

end

lemma eq_of_erase_eq {v w : Value} (h : v.erase = w.erase) (hv : v.isClosureFree) : v = w := by
  have hw : w.isClosureFree := by rw [← isClosureFree_erase, ← h, isClosureFree_erase, hv]
  rw [← erase_of_isClosureFree hv, h, erase_of_isClosureFree hw]

/-! ### Texts -/

mutual

theorem repr_erase : ∀ v : Value, v.erase.repr = v.repr
  | .object [] => rfl
  | .object ((name, v) :: fields) => by
    have h := reprFields_erase ((name, v) :: fields)
    simp only [erase, eraseFields, repr] at h ⊢
    rw [h]
  | .array items => by rw [erase, repr, repr, reprItems_erase items]
  | .closure (.mk _ _ _ _) _ | .number _ | .string _ | .bool _ | .null | .builtin _ | .type _ => rfl

theorem reprFields_erase : ∀ fields : List (String × Value),
    reprFields (eraseFields fields) = reprFields fields
  | [] => rfl
  | (name, v) :: fields => by
    rw [eraseFields, reprFields, reprFields, repr_erase v, reprFields_erase fields]

theorem reprItems_erase : ∀ items : List Value, reprItems (eraseItems items) = reprItems items
  | [] => rfl
  | v :: items => by rw [eraseItems, reprItems, reprItems, repr_erase v, reprItems_erase items]

end

lemma text_erase (v : Value) : v.erase.text = v.text := by
  cases v with
  | string s => rfl
  | object fields => exact repr_erase (.object fields)
  | array items => exact repr_erase (.array items)
  | closure f env => exact repr_erase (.closure f env)
  | _ => rfl

lemma kind_erase (v : Value) : v.erase.kind = v.kind := by
  cases v <;> rfl

/-! ### Comparisons -/

mutual

theorem erase_same : ∀ v w : Value, v.erase.same w = v.same w
  | .object fields, w => by
    cases w with
    | object other =>
      rw [erase, same, same, eraseFields_same fields other, eraseFields_eq_map, List.length_map]
    | _ => rfl
  | .array items, w => by
    cases w with
    | array other => rw [erase, same, same, eraseItems_same items other]
    | _ => rfl
  | .closure _ _, w => by cases w <;> rfl
  | .number _, _ | .string _, _ | .bool _, _ | .null, _ | .builtin _, _ | .type _, _ => rfl

theorem eraseFields_same : ∀ fields other : List (String × Value),
    sameFields (eraseFields fields) other = sameFields fields other
  | [], _ => rfl
  | (name, v) :: fields, other => by
    rw [eraseFields, sameFields, sameFields, eraseFields_same fields other]
    cases find? name other with
    | none => rfl
    | some w => simp only [erase_same v w]

theorem eraseItems_same : ∀ items other : List Value,
    sameItems (eraseItems items) other = sameItems items other
  | [], _ => rfl
  | v :: items, [] => rfl
  | v :: items, w :: other => by
    rw [eraseItems, sameItems, sameItems, erase_same v w, eraseItems_same items other]

end

mutual

theorem same_erase : ∀ v w : Value, v.same w.erase = v.same w
  | .object fields, w => by
    cases w with
    | object other =>
      rw [erase, same, same, sameFields_erase fields other, eraseFields_eq_map, List.length_map]
    | _ => rfl
  | .array items, w => by
    cases w with
    | array other => rw [erase, same, same, sameItems_erase items other]
    | _ => rfl
  | .closure _ _, w | .number _, w | .string _, w | .bool _, w | .null, w | .builtin _, w
  | .type _, w => by
    cases w <;> rfl

theorem sameFields_erase : ∀ fields other : List (String × Value),
    sameFields fields (eraseFields other) = sameFields fields other
  | [], _ => rfl
  | (name, v) :: fields, other => by
    rw [sameFields, sameFields, sameFields_erase fields other, find?_eraseFields]
    cases find? name other with
    | none => rfl
    | some w => simp only [Option.map_some, same_erase v w]

theorem sameItems_erase : ∀ items other : List Value,
    sameItems items (eraseItems other) = sameItems items other
  | [], [] | [], _ :: _ | _ :: _, [] => rfl
  | v :: items, w :: other => by
    rw [eraseItems, sameItems, sameItems, same_erase v w, sameItems_erase items other]

end

mutual

theorem erase_equals : ∀ v w : Value, v.erase.equals w = v.equals w
  | .object fields, w => by
    cases w with
    | object other =>
      rw [erase, equals, equals, eraseFields_equals fields other, eraseFields_eq_map,
        List.length_map]
    | _ => rfl
  | .array items, w => by
    cases w with
    | array other => rw [erase, equals, equals, eraseItems_equals items other]
    | _ => rfl
  | .closure _ _, w => by cases w <;> rfl
  | .number _, _ | .string _, _ | .bool _, _ | .null, _ | .builtin _, _ | .type _, _ => rfl

theorem eraseFields_equals : ∀ fields other : List (String × Value),
    equalsFields (eraseFields fields) other = equalsFields fields other
  | [], _ => rfl
  | (name, v) :: fields, other => by
    rw [eraseFields, equalsFields, equalsFields, eraseFields_equals fields other]
    cases find? name other with
    | none => rfl
    | some w => simp only [erase_equals v w]

theorem eraseItems_equals : ∀ items other : List Value,
    equalsItems (eraseItems items) other = equalsItems items other
  | [], _ => rfl
  | v :: items, [] => rfl
  | v :: items, w :: other => by
    rw [eraseItems, equalsItems, equalsItems, erase_equals v w, eraseItems_equals items other]

end

mutual

theorem equals_erase : ∀ v w : Value, v.equals w.erase = v.equals w
  | .object fields, w => by
    cases w with
    | object other =>
      rw [erase, equals, equals, equalsFields_erase fields other, eraseFields_eq_map,
        List.length_map]
    | _ => rfl
  | .array items, w => by
    cases w with
    | array other => rw [erase, equals, equals, equalsItems_erase items other]
    | _ => rfl
  | .closure _ _, w | .number _, w | .string _, w | .bool _, w | .null, w | .builtin _, w
  | .type _, w => by
    cases w <;> rfl

theorem equalsFields_erase : ∀ fields other : List (String × Value),
    equalsFields fields (eraseFields other) = equalsFields fields other
  | [], _ => rfl
  | (name, v) :: fields, other => by
    rw [equalsFields, equalsFields, equalsFields_erase fields other, find?_eraseFields]
    cases find? name other with
    | none => rfl
    | some w => simp only [Option.map_some, equals_erase v w]

theorem equalsItems_erase : ∀ items other : List Value,
    equalsItems items (eraseItems other) = equalsItems items other
  | [], [] | [], _ :: _ | _ :: _, [] => rfl
  | v :: items, w :: other => by
    rw [eraseItems, equalsItems, equalsItems, equals_erase v w, equalsItems_erase items other]

end

end Value

/-! ### Types -/

namespace Constraint

open Value

mutual

theorem ofValue_erase : ∀ v : Value, ofValue v.erase = ofValue v
  | .object fields => by rw [erase, ofValue, ofValue, ofFields_erase fields]
  | .array items => by
    rw [erase, ofValue, ofValue, ofItems_erase 0 items, eraseItems_eq_map, List.length_map]
  | .closure _ _ | .number _ | .string _ | .bool _ | .null | .builtin _ | .type _ => rfl

theorem ofFields_erase : ∀ fields : List (String × Value),
    ofFields (eraseFields fields) = ofFields fields
  | [] => rfl
  | (name, v) :: fields => by
    rw [eraseFields, ofFields, ofFields, ofValue_erase v, ofFields_erase fields]

theorem ofItems_erase : ∀ (start : Nat) (items : List Value),
    ofItems start (eraseItems items) = ofItems start items
  | _, [] => rfl
  | start, v :: items => by
    rw [eraseItems, ofItems, ofItems, ofValue_erase v, ofItems_erase (start + 1) items]

end

section Membership

variable {unrolled : Nat → Value → Constraint → Bool × Nat}

def IgnoresCaptures (check : Nat → Value → Constraint → Bool × Nat) : Prop :=
  ∀ budget v c, check budget v.erase c = check budget v c

mutual

theorem checkWith_erase (hu : IgnoresCaptures unrolled) :
    ∀ (c : Constraint) (budget : Nat) (v : Value),
    checkWith unrolled budget v.erase c = checkWith unrolled budget v c
  | .any, _, _ | .never, _, _ | .bvar _, _, _ | .ref _, _, _ | .var _, _, _ => rfl
  | .kind k, _, v => by rw [checkWith, checkWith, kind_erase]
  | .equals w, _, v => congrArg (·, _) (erase_same v w)
  | .bound _ _, _, v => by cases v <;> rfl
  | .field name c, budget, v => by
    cases v with
    | object fields =>
      simp only [erase, checkWith, find?_eraseFields]
      cases find? name fields with
      | none => rfl
      | some w => exact checkWith_erase hu c budget w
    | _ => rfl
  | .elements c, budget, v => by
    cases v with
    | array items =>
      simp only [erase, checkWith, eraseItems_eq_map]
      induction items generalizing budget with
      | nil => rfl
      | cons w items ih => simp only [List.map_cons, checkAll, checkWith_erase hu c budget w, ih]
    | _ => rfl
  | .length c, budget, v => by
    cases v with
    | array items => simp only [erase, checkWith, eraseItems_eq_map, List.length_map]
    | _ => rfl
  | .elementAt i c, budget, v => by
    cases v with
    | array items =>
      simp only [erase, checkWith, eraseItems_eq_map, List.getElem?_map]
      cases items[i]? with
      | none => rfl
      | some w => exact checkWith_erase hu c budget w
    | _ => rfl
  | .conj cs, budget, v => by rw [checkWith, checkWith, checkConj_erase hu cs budget v]
  | .disj cs, budget, v => by rw [checkWith, checkWith, checkDisj_erase hu cs budget v]
  | .neg c, budget, v => by rw [checkWith, checkWith, checkWith_erase hu c budget v]
  | .fix body, budget, v => hu budget v (.fix body)

theorem checkConj_erase (hu : IgnoresCaptures unrolled) :
    ∀ (cs : List Constraint) (budget : Nat) (v : Value),
    checkConj unrolled budget v.erase cs = checkConj unrolled budget v cs
  | [], _, _ => rfl
  | c :: cs, budget, v => by
    simp only [checkConj, checkWith_erase hu c budget v, checkConj_erase hu cs _ v]

theorem checkDisj_erase (hu : IgnoresCaptures unrolled) :
    ∀ (cs : List Constraint) (budget : Nat) (v : Value),
    checkDisj unrolled budget v.erase cs = checkDisj unrolled budget v cs
  | [], _, _ => rfl
  | c :: cs, budget, v => by
    simp only [checkDisj, checkWith_erase hu c budget v, checkDisj_erase hu cs _ v]

end

end Membership

lemma check_erase (depth budget : Nat) (v : Value) (c : Constraint) :
    check depth budget v.erase c = check depth budget v c := by
  induction depth generalizing budget v c with
  | zero => exact checkWith_erase (fun _ _ _ => rfl) c budget v
  | succ depth ih =>
    refine checkWith_erase (fun budget v c => ?_) c budget v
    rw [ih]

lemma admits_erase (c : Constraint) (v : Value) : c.admits v.erase = c.admits v := by
  rw [admits, admits, check_erase]

end Constraint

/-! ### Errors -/

def Subject.map (f : Value → Value) : Subject → Subject
  | value v => value (f v)
  | s => s

lemma Subject.map_id (s : Subject) : s.map id = s := by
  cases s <;> rfl

lemma Subject.text_erase (s : Subject) : (s.map Value.erase).text = s.text := by
  cases s with
  | value v => exact v.repr_erase
  | _ => rfl

namespace Cause

def map (f : Value → Value) : Cause → Cause
  | cannotAdd a b => cannotAdd (f a) (f b)
  | notNumbers op a b => notNumbers op (f a) (f b)
  | cannotCompare a b => cannotCompare (f a) (f b)
  | notBooleans op a b => notBooleans op (f a) (f b)
  | cannotNegate v => cannotNegate (f v)
  | cannotInvert v => cannotInvert (f v)
  | conditionNotBoolean v => conditionNotBoolean (f v)
  | noField subject name => noField (subject.map f) name
  | cannotReadField subject name => cannotReadField (subject.map f) name
  | outOfBounds key subject => outOfBounds (f key) (subject.map f)
  | cannotIndexWith v key => cannotIndexWith (f v) (f key)
  | cannotIndex subject => cannotIndex (subject.map f)
  | invalidIndex key => invalidIndex (f key)
  | cannotSpreadIntoObject subject => cannotSpreadIntoObject (subject.map f)
  | cannotSpreadIntoArray subject => cannotSpreadIntoArray (subject.map f)
  | cannotTakeRest subject => cannotTakeRest (subject.map f)
  | notAType subject => notAType (subject.map f)
  | notMatching v p => notMatching (f v) p
  | noCaseAccepts v => noCaseAccepts (f v)
  | assertNotBoolean subject => assertNotBoolean (subject.map f)
  | notSatisfied v c => notSatisfied (f v) c
  | notAFunction subject => notAFunction (subject.map f)
  | arity subject expected actual => arity (subject.map f) expected actual
  | parameter name expected actual => parameter name expected (actual.map f)
  | mismatch what actual => mismatch what (f actual)
  | lengthOf v => lengthOf (f v)
  | separator v => separator (f v)
  | filterResult v => filterResult (f v)
  | notFieldType name v => notFieldType name (f v)
  | notItemType v => notItemType (f v)
  | notEntry v => notEntry (f v)
  | builderResult v => builderResult (f v)
  | noRuntimeForm v => noRuntimeForm (f v)
  | cause => cause

lemma map_id (cause : Cause) : cause.map id = cause := by
  cases cause <;> first
    | rfl
    | delta map
      simp only [Subject.map_id, id]

lemma category_map (f : Value → Value) (cause : Cause) :
    (cause.map f).category = cause.category := by
  cases cause <;> rfl

lemma message_erase (cause : Cause) : (cause.map Value.erase).message = cause.message := by
  cases cause <;> first
    | rfl
    | delta message map
      simp only [Value.repr_erase, Subject.text_erase]

end Cause

namespace Error

def map (f : Value → Value) : Error → Error
  | failure cause span => failure (cause.map f) span
  | thrown v => thrown (f v)
  | generic message => generic message

abbrev erase : Error → Error := map Value.erase

lemma map_id (e : Error) : e.map id = e := by
  cases e <;> simp only [map, Cause.map_id, id]

lemma text_erase (e : Error) : e.erase.text = e.text := by
  cases e with
  | failure cause span => simp only [map, text, cause.category_map, cause.message_erase]
  | thrown v => simp only [map, text, v.text_erase]
  | generic message => rfl

lemma withSpan_map (f : Value → Value) (e : Error) (span : Option Span) :
    (e.withSpan span).map f = (e.map f).withSpan span := by
  cases e with
  | failure cause old => cases old <;> rfl
  | _ => rfl

end Error

end Stagewise
