import Stagewise.Proofs.Agreement
import Stagewise.Proofs.Recognition

/-! Patterns without types on known values: what they test, whether a value fails the test for a
reason that its description shows, and what staging binds to their names. -/

set_option autoImplicit false

namespace Stagewise

open Association

/-! ### Patterns without types -/

namespace Pattern

@[elab_as_elim]
theorem partInduction {P : Pattern → Prop} (wildcard : P .wildcard)
    (binding : ∀ name, P (.binding name)) (literal : ∀ l, P (.literal l))
    (object : ∀ fields, (∀ q ∈ fields, P q.2) → P (.object fields))
    (array : ∀ ps rest, (∀ p ∈ ps, P p) → P (.array ps rest))
    (type : ∀ ty inner, P inner → P (.type ty inner)) (p : Pattern) : P p :=
  match p with
  | .wildcard => wildcard
  | .binding name => binding name
  | .literal l => literal l
  | .object fields => object fields fun q _ =>
    partInduction wildcard binding literal object array type q.2
  | .array ps rest => array ps rest fun p _ =>
    partInduction wildcard binding literal object array type p
  | .type ty inner => type ty inner (partInduction wildcard binding literal object array type inner)
termination_by sizeOf p
decreasing_by
  · have hlt := List.sizeOf_lt_of_mem ‹q ∈ fields›
    obtain ⟨name, r⟩ := q
    simp only [Prod.mk.sizeOf_spec] at hlt
    simp only [Pattern.object.sizeOf_spec]
    omega
  · have hlt := List.sizeOf_lt_of_mem ‹p ∈ ps›
    simp only [Pattern.array.sizeOf_spec]
    omega
  · simp only [Pattern.type.sizeOf_spec]
    omega

mutual

def isTypeFree : Pattern → Bool
  | .type _ _ => false
  | .object fields => areTypeFreeFields fields
  | .array ps _ => areTypeFree ps
  | .wildcard | .binding _ | .literal _ => true
termination_by structural p => p

def areTypeFreeFields : List (String × Pattern) → Bool
  | [] => true
  | (_, p) :: fields => p.isTypeFree && areTypeFreeFields fields
termination_by structural fields => fields

def areTypeFree : List Pattern → Bool
  | [] => true
  | p :: ps => p.isTypeFree && areTypeFree ps
termination_by structural ps => ps

end

mutual

def bindings? : Pattern → Value → Option Bindings
  | .wildcard, _ => some []
  | .binding name, v => some [(name, v)]
  | .literal l, v => if v == l.toValue then some [] else none
  | .object fields, .object entries => fieldBindings? fields entries
  | .array ps rest, .array items =>
    if fits ps.length rest items.length then
      (itemBindings? ps items).map (· ++ restBindings ps.length rest items)
    else none
  | _, _ => none
termination_by structural p => p

def fieldBindings? : List (String × Pattern) → List (String × Value) → Option Bindings
  | [], _ => some []
  | (name, p) :: fields, entries =>
    match find? name entries with
    | none => none
    | some v =>
      match p.bindings? v, fieldBindings? fields entries with
      | some bindings, some more => some (bindings ++ more)
      | _, _ => none
termination_by structural fields => fields

def itemBindings? : List Pattern → List Value → Option Bindings
  | [], _ => some []
  | _, [] => some []
  | p :: ps, v :: items =>
    match p.bindings? v, itemBindings? ps items with
    | some bindings, some more => some (bindings ++ more)
    | _, _ => none
termination_by structural ps => ps

end

mutual

/-- The value fails the pattern for a reason that its description shows: another literal, a kind or
a length of its own, or a part that it has. Missing fields are no such reason, nor are the kinds of
objects that are arrays or functions. -/
def clashes : Pattern → Value → Bool
  | .wildcard, _ | .binding _, _ | .type _ _, _ => false
  | .literal l, v => !(v == l.toValue)
  | .object fields, .object entries => clashesField fields entries
  | .object _, v => !v.kind.compatible .object
  | .array ps rest, .array items => !fits ps.length rest items.length || clashesItem ps items
  | .array _ _, v => !v.kind.compatible .array
termination_by structural p => p

def clashesField : List (String × Pattern) → List (String × Value) → Bool
  | [], _ => false
  | (name, p) :: fields, entries =>
    (match find? name entries with
      | some v => p.clashes v
      | none => false) || clashesField fields entries
termination_by structural fields => fields

def clashesItem : List Pattern → List Value → Bool
  | p :: ps, v :: items => p.clashes v || clashesItem ps items
  | _, _ => false
termination_by structural ps => ps

end

lemma areTypeFreeFields_iff {fields : List (String × Pattern)} :
    areTypeFreeFields fields ↔ ∀ q ∈ fields, q.2.isTypeFree := by
  induction fields with
  | nil => simp [areTypeFreeFields]
  | cons q fields ih => simp [areTypeFreeFields, ih]

lemma areTypeFree_iff {ps : List Pattern} : areTypeFree ps ↔ ∀ p ∈ ps, p.isTypeFree := by
  induction ps with
  | nil => simp [areTypeFree]
  | cons p ps ih => simp [areTypeFree, ih]

lemma clashesField_iff {fields : List (String × Pattern)} {entries : List (String × Value)} :
    clashesField fields entries ↔
      ∃ q ∈ fields, ∃ w, find? q.1 entries = some w ∧ q.2.clashes w := by
  induction fields with
  | nil => simp [clashesField]
  | cons q fields ih =>
    obtain ⟨name, p⟩ := q
    cases hf : find? name entries <;> simp [clashesField, hf, ih]

lemma clashesItem_iff {ps : List Pattern} {items : List Value} :
    clashesItem ps items ↔ ∃ (i : Nat) (p : Pattern) (w : Value), ps[i]? = some p ∧
      items[i]? = some w ∧ p.clashes w := by
  induction ps generalizing items with
  | nil => simp [clashesItem]
  | cons p ps ih =>
    cases items with
    | nil => simp [clashesItem]
    | cons v items =>
      rw [clashesItem, Bool.or_eq_true, ih]
      constructor
      · rintro (h | ⟨i, h⟩)
        · exact ⟨0, p, v, rfl, rfl, h⟩
        · exact ⟨i + 1, h⟩
      · rintro ⟨i, q, w, hq, hw, h⟩
        cases i with
        | zero => exact .inl (by simp_all)
        | succ i => exact .inr ⟨i, q, w, hq, hw, h⟩

lemma exists_bindings?_of_field {fields : List (String × Pattern)}
    {entries : List (String × Value)} (h : (fieldBindings? fields entries).isSome) :
    ∀ q ∈ fields, ∃ w, find? q.1 entries = some w ∧ (q.2.bindings? w).isSome := by
  induction fields with
  | nil => simp
  | cons q fields ih =>
    obtain ⟨name, p⟩ := q
    rw [fieldBindings?] at h
    cases hf : find? name entries with
    | none => simp [hf] at h
    | some w =>
      cases hp : p.bindings? w <;> cases hr : fieldBindings? fields entries <;>
        simp only [hf, hp, hr, Option.isSome_none, Bool.false_eq_true] at h
      exact List.forall_mem_cons.mpr ⟨⟨w, hf, by simp [hp]⟩, ih (by simp [hr])⟩

lemma exists_bindings?_of_item {ps : List Pattern} {items : List Value}
    (h : (itemBindings? ps items).isSome) (hle : ps.length ≤ items.length) {i : Nat} {p : Pattern}
    (hp : ps[i]? = some p) : ∃ w, items[i]? = some w ∧ (p.bindings? w).isSome := by
  induction ps generalizing items i with
  | nil => simp at hp
  | cons q ps ih =>
    cases items with
    | nil => simp at hle
    | cons v items =>
      rw [itemBindings?] at h
      cases hq : q.bindings? v <;> cases hr : itemBindings? ps items <;>
        simp only [hq, hr, Option.isSome_none, Bool.false_eq_true] at h
      cases i with
      | zero =>
        obtain rfl : q = p := by simpa using hp
        exact ⟨v, rfl, by simp [hq]⟩
      | succ i => exact ih (i := i) (by simp [hr]) (by simpa using hle) (by simpa using hp)

lemma length_le_of_fits {count length : Nat} {rest : Option String} (h : fits count rest length) :
    count ≤ length := by
  unfold fits at h
  split_ifs at h
  · simpa using h
  · exact Nat.le_of_eq (by simpa using h)

lemma matchIn_eq_bindings? (s : Setting) (env : Environment) {p : Pattern} (h : p.isTypeFree)
    (v : Value) : p.matchIn s env v = .ok (p.bindings? v) := by
  induction p using partInduction generalizing v with
  | wildcard | binding | literal => rfl
  | type => simp [isTypeFree] at h
  | object fields ih =>
    cases v with
    | object entries =>
      rw [isTypeFree, areTypeFreeFields_iff] at h
      rw [matchIn, bindings?]
      induction fields with
      | nil => rfl
      | cons q fields ihf =>
        obtain ⟨name, p⟩ := q
        obtain ⟨hp, hfields⟩ := List.forall_mem_cons.mp h
        obtain ⟨ihp, ih⟩ := List.forall_mem_cons.mp ih
        rw [matchFieldsIn, fieldBindings?]
        cases find? name entries with
        | none => rfl
        | some w =>
          simp only [ihp hp, ihf ih hfields]
          cases p.bindings? w <;> cases fieldBindings? fields entries <;> rfl
    | _ => rfl
  | array ps rest ih =>
    cases v with
    | array items =>
      rw [isTypeFree, areTypeFree_iff] at h
      have hitems (items : List Value) :
          matchItemsIn s env ps items = .ok (itemBindings? ps items) := by
        induction ps generalizing items with
        | nil => rw [matchItemsIn, itemBindings?]
        | cons p ps ihps =>
          obtain ⟨hp, hps⟩ := List.forall_mem_cons.mp h
          obtain ⟨ihp, ih⟩ := List.forall_mem_cons.mp ih
          cases items with
          | nil => rfl
          | cons w items =>
            rw [matchItemsIn, itemBindings?]
            simp only [ihp hp, ihps ih hps]
            cases p.bindings? w <;> cases itemBindings? ps items <;> rfl
      rw [matchIn, bindings?, hitems]
      split_ifs
      · cases itemBindings? ps items <;> rfl
      · rfl
    | _ => rfl

/-! ### What a pattern tests -/

mutual

def tested : Pattern → Constraint
  | .wildcard | .binding _ | .type _ _ => .any
  | .literal l => .equals l.toValue
  | .object fields => .record (testedFields fields)
  | .array ps rest => .conj (.kind .array :: .length (lengthOf ps.length rest) ::
      Constraint.elementsFrom 0 (testedItems ps))
termination_by structural p => p

def testedFields : List (String × Pattern) → List (String × Constraint)
  | [] => []
  | (name, p) :: fields => (name, p.tested) :: testedFields fields
termination_by structural fields => fields

def testedItems : List Pattern → List Constraint
  | [] => []
  | p :: ps => p.tested :: testedItems ps
termination_by structural ps => ps

end

section Tests

open Constraint

variable {X : Value → Prop}

lemma fits_lengthOf (count : Nat) (rest : Option String) :
    (lengthOf count rest).Fits .shape false .plain := by
  cases rest with
  | none => exact ⟨rfl, rfl, by simp [Fragment.shape], fun _ => rfl⟩
  | some name => exact ⟨by simp, trivial, ⟨rfl, by simp⟩, trivial⟩

lemma testedFields_eq_map (fields : List (String × Pattern)) :
    testedFields fields = fields.map fun q => (q.1, q.2.tested) := by
  induction fields with
  | nil => rfl
  | cons q fields ih => rw [testedFields, ih, List.map_cons]

lemma testedItems_eq_map (ps : List Pattern) : testedItems ps = ps.map tested := by
  induction ps with
  | nil => rfl
  | cons p ps ih => rw [testedItems, ih, List.map_cons]

lemma tested_object (fields : List (String × Pattern)) :
    tested (.object fields) =
      .conj (.kind .object :: fields.map fun q => .field q.1 q.2.tested) := by
  rw [tested, record, testedFields_eq_map, List.map_map]
  rfl

lemma mem_tested_array {ps : List Pattern} {d : Constraint} :
    d ∈ elementsFrom 0 (testedItems ps) ↔ ∃ i p, ps[i]? = some p ∧ d = .elementAt i p.tested := by
  simp only [mem_elementsFrom, testedItems_eq_map, List.getElem?_map, Option.map_eq_some_iff,
    Nat.zero_add]
  grind

lemma fits_tested (p : Pattern) : p.tested.Fits .shape false .plain := by
  induction p using partInduction with
  | wildcard | binding | type => trivial
  | literal l => refine ⟨rfl, ?_, by simp [Fragment.shape], fun _ => ?_⟩ <;> cases l <;> rfl
  | object fields ih =>
    rw [tested_object, fits_conj]
    refine ⟨by simp, List.forall_mem_cons.mpr ⟨trivial, List.forall_mem_map.mpr fun q hq => ?_⟩⟩
    simpa [Fits] using ih q hq
  | array ps rest ih =>
    rw [tested, fits_conj]
    refine ⟨by simp, List.forall_mem_cons.mpr ⟨trivial, List.forall_mem_cons.mpr
      ⟨⟨rfl, .inl rfl, fits_lengthOf _ _⟩, fun d hd => ?_⟩⟩⟩
    obtain ⟨i, p, hp, rfl⟩ := mem_tested_array.mp hd
    exact ih p (List.mem_of_getElem? hp)

lemma holds_lengthOf {count length : Nat} {rest : Option String} (h : fits count rest length)
    (hlt : length < Number.exactCount) : (lengthOf count rest).Holds X (.ofNat length) := by
  cases rest with
  | none =>
    obtain rfl : count = length := by simpa [fits] using h
    exact Number.same_refl _
  | some name =>
    have hle : count ≤ length := by simpa [fits] using h
    refine holds_conj.mpr (List.forall_mem_cons.mpr ⟨rfl, List.forall_mem_cons.mpr ⟨?_, by simp⟩⟩)
    exact ⟨_, rfl, Number.ofNat_le_ofNat hle (Nat.lt_of_le_of_lt hle hlt)⟩

lemma not_passes_lengthOf {count length : Nat} {rest : Option String}
    (h : fits count rest length = false) (hlt : length < Number.exactCount) :
    ¬ (lengthOf count rest).Passes (.ofNat length) := by
  intro hp
  cases rest with
  | none =>
    have he := Number.eq_of_same_ofNat hlt hp
    simp [fits, he] at h
  | some name =>
    obtain ⟨x, hx, hle⟩ := passes_conj.mp hp (.bound .ge (Number.ofNat count)) (by simp)
    obtain rfl := Value.number.inj hx
    have hcount : length < count := by simpa [fits] using h
    rw [Comparison.holds, Number.not_ofNat_le_ofNat hcount hlt] at hle
    exact absurd hle (by simp)

theorem holds_tested {p : Pattern} {v : Value} (hv : Fragment.shape.Covers v)
    (h : (p.bindings? v).isSome) : p.tested.Holds X v := by
  induction p using partInduction generalizing v with
  | wildcard | binding | type => trivial
  | literal l =>
    rw [bindings?] at h
    split_ifs at h with he
    · exact he
    · simp at h
  | object fields ih =>
    cases v with
    | object entries =>
      rw [tested_object, holds_conj]
      refine List.forall_mem_cons.mpr ⟨rfl, List.forall_mem_map.mpr fun q hq => ?_⟩
      obtain ⟨w, hw, hb⟩ := exists_bindings?_of_field h q hq
      exact ⟨entries, w, rfl, hw, ih q hq (hv.find? hw) hb⟩
    | _ => simp [bindings?] at h
  | array ps rest ih =>
    cases v with
    | array items =>
      rw [bindings?] at h
      split_ifs at h with hfits
      · rw [tested, holds_conj]
        refine List.forall_mem_cons.mpr ⟨rfl, List.forall_mem_cons.mpr
          ⟨⟨items, rfl, holds_lengthOf hfits (hv.length_lt rfl)⟩, fun d hd => ?_⟩⟩
        obtain ⟨i, p, hp, rfl⟩ := mem_tested_array.mp hd
        obtain ⟨w, hw, hb⟩ :=
          exists_bindings?_of_item (by simpa using h) (length_le_of_fits hfits) hp
        exact ⟨items, w, rfl, hw, ih p (List.mem_of_getElem? hp) (hv.getElem? hw) hb⟩
      · simp at h
    | _ => simp [bindings?] at h

theorem not_passes_tested {p : Pattern} {v : Value} (hv : Fragment.shape.Covers v)
    (h : p.clashes v) : ¬ p.tested.Passes v := by
  induction p using partInduction generalizing v with
  | wildcard | binding | type => simp [clashes] at h
  | literal l =>
    intro hp
    have hs : v.same l.toValue := hp
    rw [clashes, Bool.not_eq_true'] at h
    exact absurd hs (Bool.eq_false_iff.mp h)
  | object fields ih =>
    intro hp
    rw [tested_object, passes_conj, List.forall_mem_cons, List.forall_mem_map] at hp
    cases v with
    | object entries =>
      rw [clashes, clashesField_iff] at h
      obtain ⟨q, hq, w, hw, hc⟩ := h
      exact ih q hq (hv.find? hw) hc ((hp.2 q hq).2 entries w rfl hw)
    | _ => exact absurd hp.1 (by simpa [clashes, Passes] using h)
  | array ps rest ih =>
    intro hp
    rw [tested, passes_conj, List.forall_mem_cons, List.forall_mem_cons] at hp
    cases v with
    | array items =>
      rw [clashes, Bool.or_eq_true, Bool.not_eq_true', clashesItem_iff] at h
      rcases h with h | ⟨i, p, w, hi, hw, hc⟩
      · exact not_passes_lengthOf h (hv.length_lt rfl) (hp.2.1.2 items rfl)
      · obtain ⟨u, hu, hpass⟩ := (hp.2.2 _ (mem_tested_array.mpr ⟨i, p, hi, rfl⟩)).2 items rfl
        obtain rfl := Option.some.inj (hu.symm.trans hw)
        exact ih p (List.mem_of_getElem? hi) (hv.getElem? hw) hc hpass
    | _ => exact absurd hp.1 (by simpa [clashes, Passes] using h)

end Tests

end Pattern

/-! ### Known values -/

/-- A value without closures whose arrays have an exact length, and which is identical to itself: no
type in it has a bound that is no number. Nothing belongs to the description of such a type. -/
structure Value.IsPlain (v : Value) : Prop where
  data : v.isData fun _ => true
  wellFormed : v.isWellFormed
  short : v.isShort
  self : v.same v

namespace Value.IsPlain

variable {v w : Value}

lemma covers (h : v.IsPlain) : Fragment.shape.Covers v := ⟨h.wellFormed, fun _ => h.short⟩

lemma determines (h : v.IsPlain) : Constraint.Determines v (.ofValue v) :=
  Constraint.determines_ofValue h.wellFormed h.self

lemma find? {fields : List (String × Value)} (h : (Value.object fields).IsPlain) {name : String}
    (hw : Association.find? name fields = some w) : w.IsPlain := by
  have hc := h.covers.find? hw
  exact ⟨(isData_object.mp h.data).2 _ (mem_of_find?_eq_some hw), hc.1, hc.2 rfl,
    same_self_of_find? h.self hw⟩

lemma mem {items : List Value} (h : (Value.array items).IsPlain) (hw : w ∈ items) :
    w.IsPlain := by
  have hc := h.covers.mem hw
  exact ⟨isData_array.mp h.data w hw, hc.1, hc.2 rfl, same_self_of_mem h.self hw⟩

lemma drop {items : List Value} (h : (Value.array items).IsPlain) (n : Nat) :
    (Value.array (items.drop n)).IsPlain := by
  have hsub : ∀ w ∈ items.drop n, w.IsPlain := fun w hw => h.mem (List.mem_of_mem_drop hw)
  refine ⟨isData_array.mpr fun w hw => (hsub w hw).data, ?_, ?_, ?_⟩
  · rw [isWellFormed, areWellFormed_iff]
    exact fun w hw => (hsub w hw).wellFormed
  · have hlt := h.covers.length_lt rfl
    simp only [isShort, Bool.and_eq_true, decide_eq_true_eq, areShort_iff, List.length_drop]
    exact ⟨by omega, fun w hw => (hsub w hw).short⟩
  · rw [same, sameItems_iff, List.forall₂_same]
    exact fun w hw => (hsub w hw).self

end Value.IsPlain

def Staged.Shows (s : Staged) (v : Value) : Prop :=
  ∃ c binding, s = .now v c binding ∧ c.Fits .shape false .plain ∧ c.Holds (fun _ => True) v

def Scope.Mirrors (scope : Scope) (env : Environment) : Prop :=
  ∀ name w, find? name env = some w → scope.known? name = some w

namespace Staged

variable {s : Staged} {v : Value}

lemma shows_ofValue (hv : v.IsPlain) : (ofValue v).Shows v :=
  ⟨.ofValue v, none, rfl, hv.determines.fits, hv.determines.holds⟩

lemma Shows.value? (h : s.Shows v) : s.value? = some v := by
  obtain ⟨c, binding, rfl, _⟩ := h
  rfl

lemma Shows.refine (h : s.Shows v) (hv : v.IsPlain) {c : Constraint}
    (hc : c.Fits .shape false .plain) (hcv : c.Holds (fun _ => True) v) :
    (s.refine c).Shows v := by
  obtain ⟨known, binding, rfl, hk, hkv⟩ := h
  have hboth : (Constraint.conj [known, c]).Fits .shape false .plain :=
    Constraint.fits_conj.mpr ⟨by simp, by simp [hk, hc]⟩
  have hnormal := Constraint.isNormal_simplify_of_shape hboth
  rw [Staged.refine]
  generalize (Constraint.conj [known, c]).simplify = r at hnormal
  refine ⟨r, binding, rfl, hnormal.tidy.of_tidy, (hnormal.holds _ v hv.covers).mpr ?_⟩
  simp [hkv, hcv]

lemma Shows.not_disjoint (h : s.Shows v) (hv : v.IsPlain) {c : Constraint}
    (hc : c.Fits .shape false .plain) (hcv : c.Holds (fun _ => True) v) :
    s.constraint.disjoint c = false := by
  obtain ⟨known, binding, rfl, hk, hkv⟩ := h
  exact Constraint.not_disjoint_of_holds hv.covers hk hc hkv hcv

lemma value?_refine (s : Staged) (c : Constraint) : (s.refine c).value? = s.value? := by
  cases s <;> simp only [Staged.refine, Staged.value?]

end Staged

namespace Scope

variable {scope : Scope} {env : Environment}

lemma known?_eq (scope : Scope) (name : String) :
    scope.known? name = (find? name scope.env).bind Staged.value? := by
  unfold known? get?
  cases find? name scope.env with
  | none => rfl
  | some v => cases find? name scope.refinements <;> simp [Staged.value?_refine]

lemma Mirrors.bind (h : scope.Mirrors env) {s : Staged} {v : Value} (hs : s.value? = some v)
    (name : String) : (scope.bind name s).Mirrors ((name, v) :: env) := by
  intro other w hw
  rw [known?_eq]
  change (Association.find? other ((name, s) :: scope.env)).bind Staged.value? = some w
  by_cases hn : name = other
  · simp_all [Association.find?]
  · simp only [Association.find?, hn, if_false] at hw ⊢
    rw [← known?_eq]
    exact h other w hw

lemma Mirrors.narrow (h : scope.Mirrors env) (subject : Option String) (c : Constraint) :
    (scope.narrow subject c).Mirrors env := by
  intro name w hw
  have := h name w hw
  rw [known?_eq] at this ⊢
  cases subject <;> exact this

end Scope

/-! ### Staging of patterns -/

namespace Pattern

open Stage

variable {I : Session → Prop} {E : Error → Prop} {ctx : Context} {scope : Scope}
  {env : Environment} {v : Value} {s : Staged}

lemma lower_yields {p : Pattern} (h : p.isTypeFree) :
    Yields I E (p.lower ctx scope) fun r => r.1 = p.tested := by
  induction p using partInduction with
  | wildcard | binding | literal => exact .pure rfl
  | type => simp [isTypeFree] at h
  | object fields ih =>
    rw [isTypeFree, areTypeFreeFields_iff] at h
    have hfields : Yields I E (lowerFields ctx scope fields) fun r =>
        r.map (fun q => (q.1, q.2.1)) = testedFields fields := by
      induction fields with
      | nil => exact .pure rfl
      | cons q fields ihf =>
        obtain ⟨name, p⟩ := q
        obtain ⟨hp, hfields⟩ := List.forall_mem_cons.mp h
        obtain ⟨ihp, ih⟩ := List.forall_mem_cons.mp ih
        refine (ihp hp).bind fun r hr => ?_
        refine (ihf ih hfields).bind fun rs hrs => .pure ?_
        rw [testedFields, List.map_cons, hrs, hr]
    refine hfields.bind fun r hr => .pure ?_
    rw [tested, ← hr]
  | array ps rest ih =>
    rw [isTypeFree, areTypeFree_iff] at h
    have hitems : Yields I E (lowerItems ctx scope ps) fun r =>
        r.map Prod.fst = testedItems ps := by
      induction ps with
      | nil => exact .pure rfl
      | cons p ps ihps =>
        obtain ⟨hp, hps⟩ := List.forall_mem_cons.mp h
        obtain ⟨ihp, ih⟩ := List.forall_mem_cons.mp ih
        refine (ihp hp).bind fun r hr => ?_
        refine (ihps ih hps).bind fun rs hrs => .pure ?_
        rw [testedItems, List.map_cons, hrs, hr]
    refine hitems.bind fun r hr => .pure ?_
    rw [tested, ← hr]

lemma ensurePossible_yields {p : Pattern} {c d : Constraint} (h : c.disjoint d = false) :
    Yields I E (p.ensurePossible c d) fun _ => True := by
  simp only [ensurePossible, Stage.ensure, h, Bool.not_false, Bool.or_true, if_true]
  exact .pure trivial

lemma bindAll_append (env : Environment) (bs cs : Bindings) :
    env.bindAll (bs ++ cs) = (env.bindAll bs).bindAll cs := List.foldl_append ..

lemma readIndex_ofNat {items : List Value} {i : Nat} {w : Value} (hw : items[i]? = some w)
    (hlt : items.length < Number.exactCount) :
    (Value.array items).readIndex (.ofNat i) = .ok w := by
  have hi : i < Number.exactCount := by
    obtain ⟨h, _⟩ := List.getElem?_eq_some_iff.mp hw
    omega
  have hcount : (Number.ofNat i).toCount = i :=
    Number.toCount_eq_of_eq hi (by simp [Number.eq, Number.isNaN_ofNat])
  simp [Value.readIndex, Value.ofNat, Value.asIndex?, Number.isIntegral_ofNat hi,
    Number.zero_le_ofNat hi, hcount, hw]

def Destructures (I : Session → Prop) (E : Error → Prop) (ctx : Context) (p : Pattern) : Prop :=
  ∀ {v : Value} {s : Staged} {bs : Bindings} {scope : Scope} {env : Environment}, v.IsPlain →
    s.Shows v → p.bindings? v = some bs → scope.Mirrors env →
    Yields I E (p.destructure ctx true s scope) fun r => r.1.Mirrors (env.bindAll bs)

lemma destructureFields_yields {entries : List (String × Value)} {c : Constraint}
    {binding : Option Binding} (hv : (Value.object entries).IsPlain)
    {fields : List (String × Pattern)} (h : ∀ q ∈ fields, Destructures I E ctx q.2)
    {bs : Bindings} (hb : fieldBindings? fields entries = some bs) (hscope : scope.Mirrors env) :
    Yields I E (destructureFields ctx true (.now (.object entries) c binding) fields scope)
      fun r => r.1.Mirrors (env.bindAll bs) := by
  induction fields generalizing scope env bs with
  | nil =>
    obtain rfl := Option.some.inj hb
    exact .pure hscope
  | cons q fields ih =>
    obtain ⟨name, p⟩ := q
    obtain ⟨hp, hfields⟩ := List.forall_mem_cons.mp h
    rw [fieldBindings?] at hb
    cases hf : find? name entries with
    | none => simp [hf] at hb
    | some w =>
      cases hw : p.bindings? w <;> cases hr : fieldBindings? fields entries <;>
        simp only [hf, hw, hr, reduceCtorEq, Option.some.injEq] at hb
      subst hb
      have hread : Staged.readField (.now (.object entries) c binding) name =
          .ok (.ofValue w) := by
        simp [Staged.readField, Value.readField, hf]
      have hpw := hv.find? hf
      rw [destructureFields, bindAll_append]
      refine .lift_bind hread ?_
      refine (hp hpw (Staged.shows_ofValue hpw) hw hscope).bind fun r hscope' => ?_
      exact (ih hfields hr hscope').bind fun rs hrs => .pure hrs

lemma destructureItems_yields {items : List Value} {c : Constraint} {binding : Option Binding}
    (hv : (Value.array items).IsPlain) {ps : List Pattern}
    (h : ∀ p ∈ ps, Destructures I E ctx p) {start : Nat} (hle : start + ps.length ≤ items.length)
    {bs : Bindings} (hb : itemBindings? ps (items.drop start) = some bs)
    (hscope : scope.Mirrors env) :
    Yields I E (destructureItems ctx true (.now (.array items) c binding) start ps scope)
      fun r => r.1.Mirrors (env.bindAll bs) := by
  induction ps generalizing start scope env bs with
  | nil =>
    obtain rfl := Option.some.inj hb
    exact .pure hscope
  | cons p ps ih =>
    obtain ⟨hp, hps⟩ := List.forall_mem_cons.mp h
    rw [List.length_cons] at hle
    have hstart : start < items.length := by omega
    rw [List.drop_eq_getElem_cons hstart, itemBindings?] at hb
    cases hw : p.bindings? items[start] <;>
      cases hr : itemBindings? ps (items.drop (start + 1)) <;>
      simp only [hw, hr, reduceCtorEq, Option.some.injEq] at hb
    subst hb
    have hread : Staged.ofValue <$> (Value.array items).readIndex (.ofNat start) =
        .ok (.ofValue items[start]) := by
      rw [readIndex_ofNat (List.getElem?_eq_getElem hstart) (hv.covers.length_lt rfl)]
      rfl
    have hpw := hv.mem (List.getElem_mem hstart)
    rw [destructureItems, bindAll_append]
    refine .lift_bind hread ?_
    refine (hp hpw (Staged.shows_ofValue hpw) hw hscope).bind fun r hscope' => ?_
    exact (ih hps (by omega) hr hscope').bind fun rs hrs => .pure hrs

theorem destructures_of_isTypeFree {p : Pattern} (h : p.isTypeFree) : Destructures I E ctx p := by
  intro v s bs scope env hv hs hb hscope
  induction p using partInduction generalizing v s bs scope env with
  | wildcard =>
    obtain rfl := Option.some.inj hb
    exact .pure hscope
  | binding name =>
    obtain rfl := Option.some.inj hb
    exact .pure (hscope.bind hs.value? name)
  | type => simp [isTypeFree] at h
  | literal l =>
    have hl : (Pattern.literal l).tested.Holds (fun _ => True) v :=
      holds_tested hv.covers (by simp [hb])
    have hne : s.constraint.disjoint (.equals l.toValue) = false :=
      hs.not_disjoint hv (fits_tested (.literal l)) hl
    rw [bindings?] at hb
    split_ifs at hb
    obtain rfl := Option.some.inj hb
    exact (ensurePossible_yields hne).bind fun _ _ => .pure hscope
  | object fields ih =>
    cases v with
    | object entries =>
      rw [isTypeFree, areTypeFreeFields_iff] at h
      obtain ⟨c, binding, rfl, _⟩ := hs
      refine .bind (P := (· = (.now (.object entries) c binding, scope, []))) (.pure rfl) ?_
      rintro _ rfl
      refine (destructureFields_yields hv ?_ hb hscope).bind fun r hr => .pure hr
      intro q hq v s bs scope env hv hs hb hscope
      exact ih q hq (h q hq) hv hs hb hscope
    | _ => simp [bindings?] at hb
  | array ps rest ih =>
    cases v with
    | array items =>
      rw [isTypeFree, areTypeFree_iff] at h
      rw [bindings?] at hb
      split_ifs at hb with hfits
      obtain ⟨more, hmore, rfl⟩ := Option.map_eq_some_iff.mp hb
      have htest : (Constraint.conj [.kind .array, .length (lengthOf ps.length rest)]).Fits .shape
          false .plain := ⟨by simp, trivial, ⟨rfl, .inl rfl, fits_lengthOf _ _⟩, trivial⟩
      have hlength := holds_lengthOf (X := fun _ => True) hfits (hv.covers.length_lt rfl)
      have hne := hs.not_disjoint hv htest ⟨rfl, ⟨items, rfl, hlength⟩, trivial⟩
      obtain ⟨c, binding, rfl, _⟩ := hs
      refine .bind (P := (· = (.now (.array items) c binding, scope, []))) (.pure rfl) ?_
      rintro _ rfl
      refine (ensurePossible_yields hne).bind fun _ _ => ?_
      rw [bindAll_append]
      refine (destructureItems_yields hv ?_ ?_ hmore hscope).bind fun r hr => ?_
      · intro p hp v s bs scope env hv hs hb hscope
        exact ih p hp (h p hp) hv hs hb hscope
      · simpa using length_le_of_fits hfits
      · cases rest with
        | none => exact .pure hr
        | some name =>
          refine .bind (P := (· = .ofValue (.array (items.drop ps.length)))) (.pure rfl) ?_
          rintro _ rfl
          exact .pure (hr.bind rfl name)
    | _ => simp [bindings?] at hb

def Names (names : List String) (bs : Bindings) : Prop :=
  Association.names bs = names ∧ ∀ q ∈ bs, q.2.IsPlain

lemma Names.append {names more : List String} {bs cs : Bindings} (h : Names names bs)
    (h' : Names more cs) : Names (names ++ more) (bs ++ cs) :=
  ⟨by rw [← h.1, ← h'.1, Association.names, List.map_append]; rfl,
    List.forall_mem_append.mpr ⟨h.2, h'.2⟩⟩

lemma names_of_fieldBindings? {entries : List (String × Value)}
    (hv : (Value.object entries).IsPlain) {fields : List (String × Pattern)}
    (h : ∀ q ∈ fields, ∀ {w bs}, w.IsPlain → q.2.bindings? w = some bs → Names q.2.names bs)
    {bs : Bindings} (hb : fieldBindings? fields entries = some bs) :
    Names (fieldNames fields) bs := by
  induction fields generalizing bs with
  | nil =>
    obtain rfl := Option.some.inj hb
    exact ⟨rfl, by simp⟩
  | cons q fields ih =>
    obtain ⟨name, p⟩ := q
    obtain ⟨hp, hfields⟩ := List.forall_mem_cons.mp h
    rw [fieldBindings?] at hb
    cases hf : find? name entries with
    | none => simp [hf] at hb
    | some w =>
      cases hw : p.bindings? w <;> cases hr : fieldBindings? fields entries <;>
        simp only [hf, hw, hr, reduceCtorEq, Option.some.injEq] at hb
      subst hb
      rw [fieldNames]
      exact (hp (hv.find? hf) hw).append (ih hfields hr)

lemma names_of_itemBindings? {ps : List Pattern}
    (h : ∀ p ∈ ps, ∀ {w bs}, w.IsPlain → p.bindings? w = some bs → Names p.names bs)
    {items : List Value} (hv : ∀ w ∈ items, w.IsPlain) (hle : ps.length ≤ items.length)
    {bs : Bindings} (hb : itemBindings? ps items = some bs) : Names (itemNames ps) bs := by
  induction ps generalizing items bs with
  | nil =>
    rw [itemBindings?] at hb
    obtain rfl := Option.some.inj hb
    exact ⟨rfl, by simp⟩
  | cons p ps ih =>
    obtain ⟨hp, hps⟩ := List.forall_mem_cons.mp h
    cases items with
    | nil => simp at hle
    | cons w items =>
      obtain ⟨hw, hitems⟩ := List.forall_mem_cons.mp hv
      rw [itemBindings?] at hb
      cases hpw : p.bindings? w <;> cases hr : itemBindings? ps items <;>
        simp only [hpw, hr, reduceCtorEq, Option.some.injEq] at hb
      subst hb
      rw [itemNames]
      exact (hp hw hpw).append (ih hps hitems (by simpa using hle) hr)

lemma names_of_bindings? {p : Pattern} (hv : v.IsPlain) {bs : Bindings}
    (h : p.bindings? v = some bs) : Names p.names bs := by
  induction p using partInduction generalizing v bs with
  | wildcard =>
    obtain rfl := Option.some.inj h
    exact ⟨rfl, by simp⟩
  | binding name =>
    obtain rfl := Option.some.inj h
    exact ⟨rfl, by simpa using hv⟩
  | literal l =>
    rw [bindings?] at h
    split_ifs at h
    obtain rfl := Option.some.inj h
    exact ⟨rfl, by simp⟩
  | type => simp [bindings?] at h
  | object fields ih =>
    cases v with
    | object entries => exact names_of_fieldBindings? hv (fun q hq _ _ hw hb => ih q hq hw hb) h
    | _ => simp [bindings?] at h
  | array ps rest ih =>
    cases v with
    | array items =>
      rw [bindings?] at h
      split_ifs at h with hfits
      obtain ⟨more, hmore, rfl⟩ := Option.map_eq_some_iff.mp h
      refine (names_of_itemBindings? (fun p hp _ _ hw hb => ih p hp hw hb) (fun w hw => hv.mem hw)
        (length_le_of_fits hfits) hmore).append ?_
      cases rest with
      | none => exact ⟨rfl, by simp [restBindings]⟩
      | some name => exact ⟨rfl, by simpa [restBindings] using hv.drop _⟩
    | _ => simp [bindings?] at h

end Pattern

end Stagewise
