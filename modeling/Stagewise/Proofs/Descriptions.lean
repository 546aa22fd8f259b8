import Mathlib.Data.List.Forall2
import Stagewise.Proofs.Recognition

/-! The description of a value. A value satisfies its description unless a type inside has a bound
that is NaN. An array is described by its length and its items and hence up to identity, an object
by its fields only, so that further fields are left open. -/

set_option autoImplicit false

namespace Stagewise

open Association

/-! ### Identity of a value with itself -/

mutual

def Value.hasProperBounds : Value → Bool
  | .object fields => Value.haveProperBoundsFields fields
  | .array items => Value.haveProperBounds items
  | .type c => c.hasProperBounds
  | _ => true
termination_by structural v => v

def Value.haveProperBoundsFields : List (String × Value) → Bool
  | [] => true
  | (_, v) :: fields => v.hasProperBounds && Value.haveProperBoundsFields fields
termination_by structural fields => fields

def Value.haveProperBounds : List Value → Bool
  | [] => true
  | v :: items => v.hasProperBounds && Value.haveProperBounds items
termination_by structural items => items

def Constraint.hasProperBounds : Constraint → Bool
  | .bound _ n => !n.isNaN
  | .equals v => v.hasProperBounds
  | .field _ c | .elements c | .length c | .elementAt _ c | .neg c | .fix c => c.hasProperBounds
  | .conj cs | .disj cs => Constraint.haveProperBounds cs
  | _ => true
termination_by structural c => c

def Constraint.haveProperBounds : List Constraint → Bool
  | [] => true
  | c :: cs => c.hasProperBounds && Constraint.haveProperBounds cs
termination_by structural cs => cs

end

mutual

theorem Value.same_self : ∀ {v : Value}, v.isWellFormed → v.hasProperBounds → v.same v
  | .number n, _, _ => Number.same_refl n
  | .object fields, hw, hb => by
    rw [Value.isWellFormed, Bool.and_eq_true, decide_eq_true_eq] at hw
    rw [Value.same, beq_self_eq_true, Bool.true_and, Value.sameFields_iff]
    exact fun p hp => ⟨p.2, find?_eq_some_of_mem hw.1 hp, Value.same_self_of_mem_fields hw.2 hb p hp⟩
  | .array items, hw, hb => by
    rw [Value.same]
    exact Value.sameItems_self hw hb
  | .type c, hw, hb => by
    rw [Value.same]
    exact Constraint.same_self hw hb
  | .string _, _, _ | .bool _, _, _ | .null, _, _ | .closure _ _, _, _ | .builtin _, _, _ => by
    simp [Value.same]

theorem Value.same_self_of_mem_fields : ∀ {fields : List (String × Value)},
    Value.areWellFormedFields fields → Value.haveProperBoundsFields fields →
      ∀ p ∈ fields, p.2.same p.2
  | [], _, _ => by simp
  | (name, v) :: fields, hw, hb => by
    rw [Value.areWellFormedFields, Bool.and_eq_true] at hw
    rw [Value.haveProperBoundsFields, Bool.and_eq_true] at hb
    exact List.forall_mem_cons.mpr
      ⟨Value.same_self hw.1 hb.1, Value.same_self_of_mem_fields hw.2 hb.2⟩

theorem Value.sameItems_self : ∀ {items : List Value}, Value.areWellFormed items →
    Value.haveProperBounds items → Value.sameItems items items
  | [], _, _ => rfl
  | v :: items, hw, hb => by
    rw [Value.areWellFormed, Bool.and_eq_true] at hw
    rw [Value.haveProperBounds, Bool.and_eq_true] at hb
    rw [Value.sameItems, Bool.and_eq_true]
    exact ⟨Value.same_self hw.1 hb.1, Value.sameItems_self hw.2 hb.2⟩

theorem Constraint.same_self : ∀ {c : Constraint}, c.isWellFormed → c.hasProperBounds → c.same c
  | .bound r n, _, hb => by simpa [Constraint.same, Number.eq, Constraint.hasProperBounds] using hb
  | .equals v, hw, hb => by
    rw [Constraint.same]
    exact Value.same_self hw hb
  | .field _ c, hw, hb | .elementAt _ c, hw, hb => by
    rw [Constraint.same, beq_self_eq_true, Bool.true_and]
    exact Constraint.same_self hw hb
  | .elements c, hw, hb | .length c, hw, hb | .neg c, hw, hb | .fix c, hw, hb => by
    rw [Constraint.same]
    exact Constraint.same_self hw hb
  | .conj cs, hw, hb | .disj cs, hw, hb => by
    rw [Constraint.same]
    exact Constraint.sameList_self hw hb
  | .kind _, _, _ | .bvar _, _, _ | .ref _, _, _ | .var _, _, _ | .any, _, _ | .never, _, _ => by
    simp [Constraint.same]

theorem Constraint.sameList_self : ∀ {cs : List Constraint}, Constraint.areWellFormed cs →
    Constraint.haveProperBounds cs → Constraint.sameList cs cs
  | [], _, _ => rfl
  | c :: cs, hw, hb => by
    rw [Constraint.areWellFormed, Bool.and_eq_true] at hw
    rw [Constraint.haveProperBounds, Bool.and_eq_true] at hb
    rw [Constraint.sameList, Bool.and_eq_true]
    exact ⟨Constraint.same_self hw.1 hb.1, Constraint.sameList_self hw.2 hb.2⟩

end

/-! ### Extension of a value -/

namespace Value

mutual

def isExtendedBy : Value → Value → Bool
  | .object fields, .object others => areFieldsExtendedBy fields others
  | .array items, .array others => areExtendedBy items others
  | .object _, _ | .array _, _ => false
  | v, w => w.same v
termination_by structural v => v

def areFieldsExtendedBy : List (String × Value) → List (String × Value) → Bool
  | [], _ => true
  | (name, v) :: fields, others =>
    (match find? name others with
      | some w => v.isExtendedBy w
      | none => false) && areFieldsExtendedBy fields others
termination_by structural fields => fields

def areExtendedBy : List Value → List Value → Bool
  | [], [] => true
  | v :: items, w :: others => v.isExtendedBy w && areExtendedBy items others
  | _, _ => false
termination_by structural items => items

end

lemma areFieldsExtendedBy_iff {fields others : List (String × Value)} :
    areFieldsExtendedBy fields others ↔
      ∀ p ∈ fields, ∃ w, find? p.1 others = some w ∧ p.2.isExtendedBy w := by
  induction fields with
  | nil => simp [areFieldsExtendedBy]
  | cons p fields ih =>
    obtain ⟨name, v⟩ := p
    cases hf : find? name others <;> simp [areFieldsExtendedBy, hf, ih]

lemma areExtendedBy_iff {items others : List Value} :
    areExtendedBy items others ↔ List.Forall₂ (fun v w => v.isExtendedBy w) items others := by
  induction items generalizing others with
  | nil => cases others <;> simp [areExtendedBy]
  | cons v items ih => cases others <;> simp [areExtendedBy, ih]

mutual

def isDescribable (objects : Bool) : Value → Bool
  | .number _ | .string _ | .bool _ | .null => true
  | .object fields => objects && !fields.isEmpty && areFieldsDescribable objects fields
  | .array items => items.length < Number.exactCount && areDescribable objects items
  | _ => false
termination_by structural v => v

def areFieldsDescribable (objects : Bool) : List (String × Value) → Bool
  | [] => true
  | (_, v) :: fields => v.isDescribable objects && areFieldsDescribable objects fields
termination_by structural fields => fields

def areDescribable (objects : Bool) : List Value → Bool
  | [] => true
  | v :: items => v.isDescribable objects && areDescribable objects items
termination_by structural items => items

end

mutual

theorem isExtendedBy_iff_same : ∀ {v w : Value}, v.isDescribable false →
    (v.isExtendedBy w ↔ w.same v)
  | .number _, _, _ | .string _, _, _ | .bool _, _, _ | .null, _, _ => Iff.rfl
  | .array items, w, h => by
    rw [isDescribable, Bool.and_eq_true] at h
    cases w with
    | array others =>
      rw [isExtendedBy, same]
      exact areExtendedBy_iff_sameItems h.2
    | _ => simp [isExtendedBy, same]

theorem areExtendedBy_iff_sameItems : ∀ {items others : List Value}, areDescribable false items →
    (areExtendedBy items others ↔ sameItems others items)
  | [], others, _ => by cases others <;> simp [areExtendedBy, sameItems]
  | v :: items, others, h => by
    rw [areDescribable, Bool.and_eq_true] at h
    cases others with
    | nil => simp [areExtendedBy, sameItems]
    | cons w others =>
      rw [areExtendedBy, sameItems, Bool.and_eq_true, Bool.and_eq_true,
        isExtendedBy_iff_same h.1, areExtendedBy_iff_sameItems h.2]

end

end Value

/-! ### Descriptions -/

namespace Constraint

variable {X : Value → Prop} {objects : Bool}

mutual

theorem isFixFree_ofValue : ∀ v : Value, (ofValue v).isFixFree
  | .object fields => areFixFree_ofFields fields
  | .array items => areFixFree_ofItems 0 items
  | .number _ | .string _ | .bool _ | .null | .type _ | .closure _ _ | .builtin _ => rfl

theorem areFixFree_ofFields : ∀ fields : List (String × Value), areFixFree (ofFields fields)
  | [] => rfl
  | (_, v) :: fields => by
    rw [ofFields, areFixFree, isFixFree, isFixFree_ofValue v, areFixFree_ofFields fields]
    rfl

theorem areFixFree_ofItems : ∀ (start : Nat) (items : List Value), areFixFree (ofItems start items)
  | _, [] => rfl
  | start, v :: items => by
    rw [ofItems, areFixFree, isFixFree, isFixFree_ofValue v, areFixFree_ofItems (start + 1) items]
    rfl

end

lemma holds_ofValue_object {fields : List (String × Value)} (hne : fields ≠ []) {w : Value} :
    (ofValue (.object fields)).Holds X w ↔ ∃ others, w = .object others ∧
      ∀ p ∈ fields, ∃ u, find? p.1 others = some u ∧ (ofValue p.2).Holds X u := by
  rw [ofValue, holds_conj, List.forall_mem_cons]
  constructor
  · rintro ⟨-, h⟩
    obtain ⟨q, hq⟩ := List.exists_mem_of_ne_nil fields hne
    obtain ⟨others, -, rfl, -⟩ := h _ (mem_ofFields.mpr ⟨q, hq, rfl⟩)
    refine ⟨others, rfl, fun p hp => ?_⟩
    obtain ⟨_, u, he, hu, hp⟩ := h _ (mem_ofFields.mpr ⟨p, hp, rfl⟩)
    cases he
    exact ⟨u, hu, hp⟩
  · rintro ⟨others, rfl, h⟩
    refine ⟨rfl, fun c hc => ?_⟩
    obtain ⟨p, hp, rfl⟩ := mem_ofFields.mp hc
    obtain ⟨u, hu, hp⟩ := h p hp
    exact ⟨others, u, rfl, hu, hp⟩

lemma holds_ofValue_array {items : List Value} (hlt : items.length < Number.exactCount)
    {w : Value} :
    (ofValue (.array items)).Holds X w ↔ ∃ others, w = .array others ∧
      List.Forall₂ (fun v u => (ofValue v).Holds X u) items others := by
  rw [ofValue, holds_conj, List.forall_mem_cons, List.forall_mem_cons]
  constructor
  · rintro ⟨-, ⟨others, rfl, hlen⟩, h⟩
    refine ⟨others, rfl, List.forall₂_iff_get.mpr ⟨?_, fun i hi hi' => ?_⟩⟩
    · exact Number.eq_of_same_ofNat hlt (Number.same_symm hlen)
    · obtain ⟨_, u, he, hu, hi⟩ := h _ (mem_ofItems.mpr ⟨i, items.get ⟨i, hi⟩, by simp, rfl⟩)
      cases he
      rw [List.getElem?_eq_getElem hi', Option.some.injEq] at hu
      subst hu
      exact hi
  · rintro ⟨others, rfl, h⟩
    refine ⟨rfl, ⟨others, rfl, ?_⟩, fun c hc => ?_⟩
    · rw [← h.length_eq]
      exact Number.same_refl _
    · obtain ⟨i, v, hv, rfl⟩ := mem_ofItems.mp hc
      obtain ⟨hi, rfl⟩ := List.getElem?_eq_some_iff.mp hv
      have hi' : i < others.length := h.length_eq ▸ hi
      exact ⟨others, others.get ⟨i, hi'⟩, rfl, by simp, h.get hi hi'⟩

mutual

theorem holds_ofValue_iff : ∀ {v w : Value}, v.isDescribable objects →
    ((ofValue v).Holds X w ↔ v.isExtendedBy w)
  | .number _, _, _ | .string _, _, _ | .bool _, _, _ | .null, _, _ => Iff.rfl
  | .object fields, w, h => by
    rw [Value.isDescribable, Bool.and_eq_true, Bool.and_eq_true] at h
    rw [holds_ofValue_object (by simpa using h.1.2)]
    cases w with
    | object others =>
      simp only [Value.object.injEq, exists_eq_left', Value.isExtendedBy,
        Value.areFieldsExtendedBy_iff]
      exact forall₂_congr fun p hp => by simp only [holds_of_mem_fields h.2 p hp]
    | _ => simp [Value.isExtendedBy]
  | .array items, w, h => by
    rw [Value.isDescribable, Bool.and_eq_true, decide_eq_true_eq] at h
    rw [holds_ofValue_array h.1]
    cases w with
    | array others =>
      simp only [Value.array.injEq, exists_eq_left', Value.isExtendedBy, Value.areExtendedBy_iff]
      exact forall₂_holds_iff h.2
    | _ => simp [Value.isExtendedBy]

theorem holds_of_mem_fields : ∀ {fields : List (String × Value)},
    Value.areFieldsDescribable objects fields →
      ∀ p ∈ fields, ∀ {w : Value}, (ofValue p.2).Holds X w ↔ p.2.isExtendedBy w
  | [], _, p, hp => by simp at hp
  | (name, v) :: fields, h, p, hp => by
    rw [Value.areFieldsDescribable, Bool.and_eq_true] at h
    rcases List.mem_cons.mp hp with rfl | hp
    · exact holds_ofValue_iff h.1
    · exact holds_of_mem_fields h.2 p hp

theorem forall₂_holds_iff : ∀ {items others : List Value}, Value.areDescribable objects items →
    (List.Forall₂ (fun v w => (ofValue v).Holds X w) items others ↔
      List.Forall₂ (fun v w => v.isExtendedBy w) items others)
  | [], others, _ => by cases others <;> simp
  | v :: items, others, h => by
    rw [Value.areDescribable, Bool.and_eq_true] at h
    cases others with
    | nil => simp
    | cons w others =>
      rw [List.forall₂_cons, List.forall₂_cons, holds_ofValue_iff h.1, forall₂_holds_iff h.2]

end

/-- The description of a value is satisfied by the value; by nothing else where the value has no
objects; and by the values that extend it where its objects have fields. -/
theorem ofValue_most_specific (v : Value) :
    (v.isWellFormed → v.hasProperBounds → (ofValue v).admits v) ∧
      (v.isDescribable false → ∀ w : Value, (ofValue v).admits w ↔ w == v) ∧
      (v.isDescribable true → ∀ w, (ofValue v).admits w ↔ v.isExtendedBy w) := by
  have hmeaning (w : Value) := admits_iff_holds (v := w) (isFixFree_ofValue v) fun _ => True
  refine ⟨fun hw hb => ?_, fun hv w => ?_, fun hv w => ?_⟩
  · exact (hmeaning v).mpr (determines_ofValue hw (Value.same_self hw hb)).holds
  · exact (hmeaning w).trans ((holds_ofValue_iff hv).trans (Value.isExtendedBy_iff_same hv))
  · exact (hmeaning w).trans (holds_ofValue_iff hv)

theorem ofValue_most_specific_nan :
    let v : Value := .object [("a", .array [.number .nan, .null])]
    let w : Value := .object [("b", .bool true), ("a", .array [.number .nan, .null])]
    (v.isWellFormed ∧ v.hasProperBounds ∧ v.isDescribable true) ∧
      (ofValue v).admits v ∧ v.isExtendedBy w ∧ (ofValue v).admits w := by
  intro v w
  obtain ⟨hself, -, hopen⟩ := ofValue_most_specific v
  exact ⟨⟨by decide, by decide, by decide +kernel⟩, hself (by decide) (by decide), by decide,
    (hopen (by decide +kernel) w).mpr (by decide)⟩

end Constraint

end Stagewise
