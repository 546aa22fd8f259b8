import Stagewise.Constraint.Membership
import Stagewise.Proofs.Identity

/-! The meaning of constraints as a property of values, and the laws by which it respects
identity. -/

set_option autoImplicit false

namespace Stagewise

open Association

namespace Constraint

def unrolling (step : (Value → Prop) → Value → Prop) : Nat → Value → Prop
  | 0, _ => False
  | k + 1, v => step (unrolling step k) v

mutual

/-- Membership in a constraint, read off its form, where `X` is what the variable of the recursive
constraint around it stands for. A recursive constraint has the values that it has after some
number of steps; only its own variable is given a meaning inside it. -/
def Holds : Constraint → (Value → Prop) → Value → Prop
  | .any, _, _ => True
  | .never, _, _ => False
  | .kind k, _, v => v.kind.refines k
  | .equals w, _, v => v.same w
  | .bound r n, _, v => ∃ x, v = .number x ∧ r.holds x n
  | .field name c, X, v =>
    ∃ fields w, v = .object fields ∧ find? name fields = some w ∧ c.Holds X w
  | .elements c, X, v => ∃ items, v = .array items ∧ ∀ w ∈ items, c.Holds X w
  | .length c, X, v => ∃ items, v = .array items ∧ c.Holds X (.ofNat items.length)
  | .elementAt i c, X, v => ∃ items w, v = .array items ∧ items[i]? = some w ∧ c.Holds X w
  | .conj cs, X, v => HoldsAll cs X v
  | .disj cs, X, v => HoldsSome cs X v
  | .neg c, X, v => ¬ c.Holds X v
  | .fix body, _, v => ∃ k, unrolling body.Holds k v
  | .bvar _, X, v => X v
  | .ref _, _, _ | .var _, _, _ => True
termination_by structural c => c

def HoldsAll : List Constraint → (Value → Prop) → Value → Prop
  | [], _, _ => True
  | c :: cs, X, v => c.Holds X v ∧ HoldsAll cs X v
termination_by structural cs => cs

def HoldsSome : List Constraint → (Value → Prop) → Value → Prop
  | [], _, _ => False
  | c :: cs, X, v => c.Holds X v ∨ HoldsSome cs X v
termination_by structural cs => cs

end

section Forms

variable {X : Value → Prop} {c : Constraint} {cs : List Constraint} {v : Value}

lemma holdsAll_iff : HoldsAll cs X v ↔ ∀ c ∈ cs, c.Holds X v := by
  induction cs with
  | nil => simp [HoldsAll]
  | cons c cs ih => simp [HoldsAll, ih]

lemma holdsSome_iff : HoldsSome cs X v ↔ ∃ c ∈ cs, c.Holds X v := by
  induction cs with
  | nil => simp [HoldsSome]
  | cons c cs ih => simp [HoldsSome, ih]

@[simp] lemma holds_conj : (conj cs).Holds X v ↔ ∀ c ∈ cs, c.Holds X v := by
  simp [Holds, holdsAll_iff]

@[simp] lemma holds_disj : (disj cs).Holds X v ↔ ∃ c ∈ cs, c.Holds X v := by
  simp [Holds, holdsSome_iff]

@[simp] lemma holds_neg : (neg c).Holds X v ↔ ¬ c.Holds X v := Iff.rfl

@[simp] lemma holds_any : any.Holds X v := trivial

@[simp] lemma not_holds_never : ¬ never.Holds X v := id

lemma eq_never_of_isNever (h : c.isNever) : c = never := by
  cases c <;> simp_all [isNever]

end Forms

mutual

def isFixFree : Constraint → Bool
  | .fix _ | .bvar _ => false
  | .field _ c | .elements c | .length c | .elementAt _ c | .neg c => c.isFixFree
  | .conj cs | .disj cs => areFixFree cs
  | _ => true
termination_by structural c => c

def areFixFree : List Constraint → Bool
  | [] => true
  | c :: cs => c.isFixFree && areFixFree cs
termination_by structural cs => cs

end

lemma areFixFree_iff {cs : List Constraint} : areFixFree cs ↔ ∀ c ∈ cs, c.isFixFree := by
  induction cs with
  | nil => simp [areFixFree]
  | cons c cs ih => simp [areFixFree, ih]

lemma checkAll_iff {α : Type} {check : Nat → α → Bool × Nat} {P : α → Prop} {budget : Nat}
    {xs : List α} (h : ∀ x ∈ xs, (check budget x).2 = budget ∧ ((check budget x).1 ↔ P x)) :
    (checkAll check budget xs).2 = budget ∧
      ((checkAll check budget xs).1 ↔ ∀ x ∈ xs, P x) := by
  induction xs with
  | nil => simp [checkAll]
  | cons x xs ih =>
    obtain ⟨hb, hp⟩ := h x List.mem_cons_self
    obtain ⟨hb', hp'⟩ := ih fun y hy => h y (List.mem_cons_of_mem _ hy)
    rcases hc : check budget x with ⟨b, left⟩
    rw [hc] at hb hp
    simp only at hb hp
    subst hb
    cases b <;> simp_all [checkAll]

lemma checkAll_cons {α : Type} (check : Nat → α → Bool × Nat) (budget : Nat) (x : α)
    (xs : List α) : checkAll check budget (x :: xs) =
      if (check budget x).1 then checkAll check (check budget x).2 xs
      else (false, (check budget x).2) := by
  rw [checkAll]
  rcases check budget x with ⟨_ | _, left⟩ <;> rfl

lemma checkAll_of_forall {α : Type} {check : Nat → α → Bool × Nat} {xs : List α} {budget : Nat}
    (h : ∀ x ∈ xs, ∀ b, (check b x).1) : (checkAll check budget xs).1 := by
  induction xs generalizing budget with
  | nil => rfl
  | cons x xs ih =>
    rw [List.forall_mem_cons] at h
    rw [checkAll_cons, if_pos (h.1 budget)]
    exact ih h.2

lemma exists_of_checkAll {α : Type} {check : Nat → α → Bool × Nat} {xs : List α} {budget : Nat}
    (h : (checkAll check budget xs).1) : ∀ x ∈ xs, ∃ b, (check b x).1 := by
  induction xs generalizing budget with
  | nil => simp
  | cons x xs ih =>
    rw [checkAll_cons] at h
    split_ifs at h with hx
    exact List.forall_mem_cons.mpr ⟨⟨budget, hx⟩, ih h⟩

def opposite (r : Bool × Nat) : Bool × Nat := (!r.1, r.2)

lemma opposite_iff {r : Bool × Nat} {budget : Nat} {P : Prop} (h : r.2 = budget ∧ (r.1 ↔ P)) :
    (opposite r).2 = budget ∧ ((opposite r).1 ↔ ¬ P) :=
  ⟨h.1, by simp [opposite, ← h.2]⟩

section Members

variable (unrolled : Nat → Value → Constraint → Bool × Nat) (budget : Nat) (v : Value)
  (cs : List Constraint)

lemma checkConj_eq_checkAll :
    checkConj unrolled budget v cs = checkAll (checkWith unrolled · v) budget cs := by
  induction cs generalizing budget with
  | nil => rfl
  | cons c cs ih => simp only [checkConj, checkAll, ih]

lemma checkDisj_eq_checkAll : checkDisj unrolled budget v cs =
    opposite (checkAll (fun b c => opposite (checkWith unrolled b v c)) budget cs) := by
  induction cs generalizing budget with
  | nil => rfl
  | cons c cs ih =>
    rw [checkDisj, checkAll]
    rcases checkWith unrolled budget v c with ⟨_ | _, left⟩
    · exact ih left
    · rfl

end Members

section Check

variable (unrolled : Nat → Value → Constraint → Bool × Nat) (budget : Nat) (X : Value → Prop)

theorem checkWith_iff : ∀ {c : Constraint} (v : Value), c.isFixFree →
    (checkWith unrolled budget v c).2 = budget ∧
      ((checkWith unrolled budget v c).1 ↔ c.Holds X v)
  | .any, v, _ | .never, v, _ => by simp [checkWith]
  | .kind k, v, _ | .ref _, _, _ | .var _, _, _ => by simp [checkWith, Holds]
  | .equals w, v, _ => by simp [checkWith, Holds, BEq.beq]
  | .bound r n, v, _ => by cases v <;> simp [checkWith, Holds]
  | .field name c, v, h => by
    have hc : c.isFixFree := by simpa [isFixFree] using h
    cases v <;> simp only [checkWith, Holds, reduceCtorEq, Value.object.injEq]
    case object fields =>
      cases hf : find? name fields with
      | none => simp [hf]
      | some w => simpa [hf] using checkWith_iff w hc
    all_goals simp
  | .elements c, v, h => by
    have hc : c.isFixFree := by simpa [isFixFree] using h
    cases v <;> simp only [checkWith, Holds, reduceCtorEq, Value.array.injEq]
    case array items => simpa using checkAll_iff fun w _ => checkWith_iff w hc
    all_goals simp
  | .length c, v, h => by
    have hc : c.isFixFree := by simpa [isFixFree] using h
    cases v <;> simp only [checkWith, Holds, reduceCtorEq, Value.array.injEq]
    case array items => simpa using checkWith_iff (.ofNat items.length) hc
    all_goals simp
  | .elementAt i c, v, h => by
    have hc : c.isFixFree := by simpa [isFixFree] using h
    cases v <;> simp only [checkWith, Holds, reduceCtorEq, Value.array.injEq]
    case array items =>
      cases hi : items[i]? with
      | none => simp [hi]
      | some w => simpa [hi] using checkWith_iff w hc
    all_goals simp
  | .conj cs, v, h => by
    rw [isFixFree, areFixFree_iff] at h
    rw [checkWith, checkConj_eq_checkAll, holds_conj]
    exact checkAll_iff fun c hc => checkWith_iff v (h c hc)
  | .disj cs, v, h => by
    rw [isFixFree, areFixFree_iff] at h
    rw [checkWith, checkDisj_eq_checkAll, holds_disj]
    have hmem : ∀ c ∈ cs, (opposite (checkWith unrolled budget v c)).2 = budget ∧
        ((opposite (checkWith unrolled budget v c)).1 ↔ ¬ c.Holds X v) :=
      fun c hc => opposite_iff (checkWith_iff v (h c hc))
    simpa only [not_forall, not_not, exists_prop] using opposite_iff
      (@checkAll_iff _ (fun b c => opposite (checkWith unrolled b v c)) _ budget cs hmem)
  | .neg c, v, h => opposite_iff (checkWith_iff v (by simpa [isFixFree] using h))
  | .fix _, _, h | .bvar _, _, h => by simp [isFixFree] at h

end Check

theorem admits_iff_holds {c : Constraint} {v : Value} (h : c.isFixFree) (X : Value → Prop) :
    c.admits v ↔ c.Holds X v := by
  have hm : maxUnrolls = 4095 + 1 := rfl
  rw [admits, hm, check]
  exact (checkWith_iff _ _ X v h).2

lemma holds_iff_of_isFixFree {c : Constraint} {v : Value} (h : c.isFixFree) (X Y : Value → Prop) :
    c.Holds X v ↔ c.Holds Y v :=
  (admits_iff_holds h X).symm.trans (admits_iff_holds h Y)

end Constraint

namespace Number

lemma eq_comm' (x y : Number) : x.eq y = y.eq x := Bool.eq_iff_iff.mpr ⟨eq_symm, eq_symm⟩

end Number

lemma Comparison.holds_congr_bound (r : Comparison) (x : Number) {m n : Number} (h : m.eq n) :
    r.holds x m = r.holds x n := by
  cases r <;> simp_all [holds, Number.eq, Number.lt, Number.le]

lemma Comparison.holds_congr (r : Comparison) {x y : Number} (n : Number) (h : x.same y) :
    r.holds x n = r.holds y n := by
  simp only [Number.same, Bool.or_eq_true, Bool.and_eq_true] at h
  rcases h with h | h
  · cases r <;> simp_all [holds, Number.eq, Number.lt, Number.le]
  · cases r <;> simp [holds, Number.lt, Number.le, h.1, h.2]

namespace Value

lemma same_left_comm {v w u : Value} (hv : v.isWellFormed) (h : v.same w) :
    v.same u ↔ w.same u :=
  ⟨same_trans (same_symm hv h), same_trans h⟩

lemma same_right_comm {v w u : Value} (hv : v.isWellFormed) (h : v.same w) :
    u.same v ↔ u.same w :=
  ⟨fun k => same_trans k h, fun k => same_trans k (same_symm hv h)⟩

lemma kind_eq_of_same {v w : Value} (h : v.same w) : v.kind = w.kind := by
  cases v <;> cases w <;> simp_all [same, kind]

lemma isWellFormed_of_find? {name : String} {fields : List (String × Value)} {v : Value}
    (h : (object fields).isWellFormed) (hf : find? name fields = some v) : v.isWellFormed := by
  simp only [isWellFormed, Bool.and_eq_true] at h
  exact areWellFormedFields_iff.mp h.2 _ (mem_of_find?_eq_some hf)

lemma isWellFormed_of_mem {items : List Value} {v : Value} (h : (array items).isWellFormed)
    (hv : v ∈ items) : v.isWellFormed :=
  areWellFormed_iff.mp (by simpa [isWellFormed] using h) v hv

structure Hereditary (P : Value → Prop) : Prop where
  field : ∀ {name : String} {fields : List (String × Value)} {v : Value},
    P (.object fields) → find? name fields = some v → P v
  item : ∀ {items : List Value} {v : Value}, P (.array items) → v ∈ items → P v
  number : ∀ x : Number, P (.number x)

lemma hereditary_isWellFormed : Hereditary fun v => v.isWellFormed :=
  ⟨isWellFormed_of_find?, isWellFormed_of_mem, fun _ => rfl⟩

lemma find?_of_same {name : String} {fields other : List (String × Value)} {v : Value}
    (h : (object fields).same (object other)) (hf : find? name fields = some v) :
    ∃ w, find? name other = some w ∧ v.same w := by
  simp only [same, Bool.and_eq_true] at h
  exact sameFields_iff.mp h.2 _ (mem_of_find?_eq_some hf)

lemma getElem?_of_sameItems {items other : List Value} (h : sameItems items other) (i : Nat)
    {v : Value} (hi : items[i]? = some v) : ∃ w, other[i]? = some w ∧ v.same w := by
  have hl := sameItems_iff.mp h
  obtain ⟨hlt, rfl⟩ := List.getElem?_eq_some_iff.mp hi
  have hlt' : i < other.length := hl.length_eq ▸ hlt
  exact ⟨other[i], List.getElem?_eq_getElem hlt', hl.get hlt hlt'⟩

end Value

namespace Constraint

section Parts

variable {X : Value → Prop} {c : Constraint} {v w : Value}
variable (hc : ∀ {x y : Value}, x.isWellFormed → y.isWellFormed → x.same y →
  (c.Holds X x ↔ c.Holds X y))
include hc

lemma holds_field_of_same {name : String} (hv : v.isWellFormed) (hw : w.isWellFormed)
    (h : v.same w) (hf : (field name c).Holds X v) : (field name c).Holds X w := by
  obtain ⟨fields, x, rfl, hx, hcx⟩ := hf
  cases w with
  | object other =>
    obtain ⟨y, hy, hxy⟩ := Value.find?_of_same h hx
    exact ⟨other, y, rfl, hy,
      (hc (Value.isWellFormed_of_find? hv hx) (Value.isWellFormed_of_find? hw hy) hxy).mp hcx⟩
  | _ => simp [Value.same] at h

lemma holds_elements_of_same (hv : v.isWellFormed) (hw : w.isWellFormed)
    (h : v.same w) (hf : (elements c).Holds X v) : (elements c).Holds X w := by
  have hs := Value.same_symm hv h
  obtain ⟨items, rfl, hall⟩ := hf
  cases w with
  | array other =>
    refine ⟨other, rfl, fun y hy => ?_⟩
    obtain ⟨i, hi⟩ := List.mem_iff_getElem?.mp hy
    obtain ⟨x, hx, hyx⟩ := Value.getElem?_of_sameItems (by simpa [Value.same] using hs) i hi
    have hm := List.mem_of_getElem? hx
    exact (hc (Value.isWellFormed_of_mem hw hy) (Value.isWellFormed_of_mem hv hm) hyx).mpr
      (hall x hm)
  | _ => simp [Value.same] at h

lemma holds_elementAt_of_same {i : Nat} (hv : v.isWellFormed) (hw : w.isWellFormed)
    (h : v.same w) (hf : (elementAt i c).Holds X v) : (elementAt i c).Holds X w := by
  obtain ⟨items, x, rfl, hx, hcx⟩ := hf
  cases w with
  | array other =>
    obtain ⟨y, hy, hxy⟩ := Value.getElem?_of_sameItems (by simpa [Value.same] using h) i hx
    exact ⟨other, y, rfl, hy, (hc (Value.isWellFormed_of_mem hv (List.mem_of_getElem? hx))
      (Value.isWellFormed_of_mem hw (List.mem_of_getElem? hy)) hxy).mp hcx⟩
  | _ => simp [Value.same] at h

end Parts

lemma holds_length_of_same {X : Value → Prop} {c : Constraint} {v w : Value} (h : v.same w)
    (hf : (length c).Holds X v) : (length c).Holds X w := by
  obtain ⟨items, rfl, hc⟩ := hf
  cases w with
  | array other =>
    have hl := (Value.sameItems_iff.mp (by simpa [Value.same] using h)).length_eq
    exact ⟨other, rfl, hl ▸ hc⟩
  | _ => simp [Value.same] at h

section Congruence

variable {X : Value → Prop}

theorem holds_value_congr : ∀ {c : Constraint} {v w : Value}, c.isFixFree → v.isWellFormed →
    w.isWellFormed → v.same w → (c.Holds X v ↔ c.Holds X w)
  | .any, _, _, _, _, _, _ => Iff.rfl
  | .never, _, _, _, _, _, _ => Iff.rfl
  | .kind k, v, w, _, _, _, h => by simp [Holds, Value.kind_eq_of_same h]
  | .equals u, v, w, _, hv, _, h => by simpa [Holds] using Value.same_left_comm hv h
  | .bound r n, v, w, _, _, _, h => by
    cases v <;> cases w <;> simp only [Value.same, Bool.false_eq_true] at h <;> simp [Holds]
    rw [Comparison.holds_congr r n h]
  | .field _ c, v, w, hc, hv, hw, h =>
    have hc : c.isFixFree := by simpa [isFixFree] using hc
    ⟨holds_field_of_same (fun hx hy k => holds_value_congr hc hx hy k) hv hw h,
      holds_field_of_same (fun hx hy k => holds_value_congr hc hx hy k) hw hv
        (Value.same_symm hv h)⟩
  | .elements c, v, w, hc, hv, hw, h =>
    have hc : c.isFixFree := by simpa [isFixFree] using hc
    ⟨holds_elements_of_same (fun hx hy k => holds_value_congr hc hx hy k) hv hw h,
      holds_elements_of_same (fun hx hy k => holds_value_congr hc hx hy k) hw hv
        (Value.same_symm hv h)⟩
  | .length _, v, w, _, hv, _, h =>
    ⟨holds_length_of_same h, holds_length_of_same (Value.same_symm hv h)⟩
  | .elementAt _ c, v, w, hc, hv, hw, h =>
    have hc : c.isFixFree := by simpa [isFixFree] using hc
    ⟨holds_elementAt_of_same (fun hx hy k => holds_value_congr hc hx hy k) hv hw h,
      holds_elementAt_of_same (fun hx hy k => holds_value_congr hc hx hy k) hw hv
        (Value.same_symm hv h)⟩
  | .conj cs, v, w, hc, hv, hw, h => by
    rw [isFixFree, areFixFree_iff] at hc
    rw [holds_conj, holds_conj]
    exact forall₂_congr fun c hm => holds_value_congr (hc c hm) hv hw h
  | .disj cs, v, w, hc, hv, hw, h => by
    rw [isFixFree, areFixFree_iff] at hc
    rw [holds_disj, holds_disj]
    exact exists_congr fun c => and_congr_right fun hm => holds_value_congr (hc c hm) hv hw h
  | .neg c, v, w, hc, hv, hw, h =>
    not_congr (holds_value_congr (by simpa [isFixFree] using hc) hv hw h)
  | .fix _, _, _, hc, _, _, _ | .bvar _, _, _, hc, _, _, _ => by simp [isFixFree] at hc
  | .ref _, _, _, _, _, _, _ => Iff.rfl
  | .var _, _, _, _, _, _, _ => Iff.rfl

end Congruence

section Parts

variable {P : Value → Prop} (hP : Value.Hereditary P)
variable {X Y : Value → Prop} {c d : Constraint} {v : Value}
variable (h : ∀ {w : Value}, P w → (c.Holds X w ↔ d.Holds Y w))
include hP h

lemma holds_field_congr {name : String} (hv : P v) :
    (field name c).Holds X v ↔ (field name d).Holds Y v := by
  refine exists₂_congr fun fields w => and_congr_right ?_
  rintro rfl
  exact and_congr_right fun hf => h (hP.field hv hf)

lemma holds_elements_congr (hv : P v) : (elements c).Holds X v ↔ (elements d).Holds Y v := by
  refine exists_congr fun items => and_congr_right ?_
  rintro rfl
  exact forall₂_congr fun w hw => h (hP.item hv hw)

lemma holds_elementAt_congr {i : Nat} (hv : P v) :
    (elementAt i c).Holds X v ↔ (elementAt i d).Holds Y v := by
  refine exists₂_congr fun items w => and_congr_right ?_
  rintro rfl
  exact and_congr_right fun hi => h (hP.item hv (List.mem_of_getElem? hi))

lemma holds_length_congr : (length c).Holds X v ↔ (length d).Holds Y v :=
  exists_congr fun _ => and_congr_right fun _ => h (hP.number _)

end Parts

theorem holds_env_congr {P : Value → Prop} (hP : Value.Hereditary P) :
    ∀ {c : Constraint} {X Y : Value → Prop} {v : Value},
      (∀ w : Value, P w → (X w ↔ Y w)) → P v → (c.Holds X v ↔ c.Holds Y v)
  | .field _ c, _, _, _, h, hv => holds_field_congr hP (fun hw => holds_env_congr hP h hw) hv
  | .elements c, _, _, _, h, hv => holds_elements_congr hP (fun hw => holds_env_congr hP h hw) hv
  | .length c, _, _, _, h, _ => holds_length_congr hP fun hw => holds_env_congr hP h hw
  | .elementAt _ c, _, _, _, h, hv =>
    holds_elementAt_congr hP (fun hw => holds_env_congr hP h hw) hv
  | .conj cs, _, _, _, h, hv => by
    rw [holds_conj, holds_conj]
    exact forall₂_congr fun c _ => holds_env_congr hP h hv
  | .disj cs, _, _, _, h, hv => by
    rw [holds_disj, holds_disj]
    exact exists_congr fun c => and_congr_right fun _ => holds_env_congr hP h hv
  | .neg c, _, _, _, h, hv => not_congr (holds_env_congr hP h hv)
  | .bvar _, _, _, v, h, hv => h v hv
  | .kind _, _, _, _, _, _ | .equals _, _, _, _, _, _ | .bound _ _, _, _, _, _, _
  | .fix _, _, _, _, _, _ | .ref _, _, _, _, _, _ | .var _, _, _, _, _, _
  | .any, _, _, _, _, _ | .never, _, _, _, _, _ => Iff.rfl

section Unrolling

variable {P : Value → Prop} (hP : Value.Hereditary P)
include hP

lemma unrolling_congr {b c : Constraint}
    (h : ∀ (X : Value → Prop) (v : Value), P v → (b.Holds X v ↔ c.Holds X v))
    (k : Nat) : ∀ v : Value, P v → (unrolling b.Holds k v ↔ unrolling c.Holds k v) := by
  induction k with
  | zero => exact fun _ _ => Iff.rfl
  | succ k ih =>
    intro v hv
    exact (h (unrolling b.Holds k) v hv).trans (holds_env_congr hP ih hv)

lemma holds_fix_congr {b c : Constraint} {X : Value → Prop} {v : Value}
    (h : ∀ (X : Value → Prop) (v : Value), P v → (b.Holds X v ↔ c.Holds X v)) (hv : P v) :
    (fix b).Holds X v ↔ (fix c).Holds X v :=
  exists_congr fun k => unrolling_congr hP h k v hv

end Unrolling

mutual

theorem holds_congr : ∀ {c d : Constraint} {X : Value → Prop} {v : Value}, c.isWellFormed →
    v.isWellFormed → c.same d → (c.Holds X v ↔ d.Holds X v)
  | .kind _, d, _, _, _, _, h | .bvar _, d, _, _, _, _, h | .ref _, d, _, _, _, _, h
  | .var _, d, _, _, _, _, h => by cases d <;> simp_all [same, Holds]
  | .equals u, d, _, v, hc, _, h => by
    cases d <;> simp only [same, Bool.false_eq_true] at h
    exact Value.same_right_comm (by simpa [isWellFormed] using hc) h
  | .bound r m, d, _, v, _, _, h => by
    cases d <;> simp only [same, Bool.false_eq_true, Bool.and_eq_true, beq_iff_eq] at h
    obtain ⟨rfl, h⟩ := h
    simp [Holds, Comparison.holds_congr_bound r _ h]
  | .field _ c, d, _, v, hc, hv, h => by
    cases d <;> simp only [same, Bool.false_eq_true, Bool.and_eq_true, beq_iff_eq] at h
    obtain ⟨rfl, h⟩ := h
    exact holds_field_congr Value.hereditary_isWellFormed
      (fun hw => holds_congr (by simpa [isWellFormed] using hc) hw h) hv
  | .elements c, d, _, v, hc, hv, h => by
    cases d <;> simp only [same, Bool.false_eq_true] at h
    exact holds_elements_congr Value.hereditary_isWellFormed
      (fun hw => holds_congr (by simpa [isWellFormed] using hc) hw h) hv
  | .length c, d, _, v, hc, hv, h => by
    cases d <;> simp only [same, Bool.false_eq_true] at h
    exact holds_length_congr Value.hereditary_isWellFormed fun hw =>
      holds_congr (by simpa [isWellFormed] using hc) hw h
  | .elementAt _ c, d, _, v, hc, hv, h => by
    cases d <;> simp only [same, Bool.false_eq_true, Bool.and_eq_true, beq_iff_eq] at h
    obtain ⟨rfl, h⟩ := h
    exact holds_elementAt_congr Value.hereditary_isWellFormed
      (fun hw => holds_congr (by simpa [isWellFormed] using hc) hw h) hv
  | .conj cs, d, _, v, hc, hv, h => by
    cases d <;> simp only [same, Bool.false_eq_true] at h
    simpa only [Holds] using holdsAll_congr (by simpa [isWellFormed] using hc) hv h
  | .disj cs, d, _, v, hc, hv, h => by
    cases d <;> simp only [same, Bool.false_eq_true] at h
    simpa only [Holds] using holdsSome_congr (by simpa [isWellFormed] using hc) hv h
  | .neg c, d, _, v, hc, hv, h => by
    cases d <;> simp only [same, Bool.false_eq_true] at h
    exact not_congr (holds_congr (by simpa [isWellFormed] using hc) hv h)
  | .fix b, d, _, v, hc, hv, h => by
    cases d <;> simp only [same, Bool.false_eq_true] at h
    have hb : b.isWellFormed := by simpa [isWellFormed] using hc
    exact holds_fix_congr Value.hereditary_isWellFormed (fun _ _ hw => holds_congr hb hw h) hv
  | .any, d, _, _, _, _, h | .never, d, _, _, _, _, h => by cases d <;> simp_all [same]

theorem holdsAll_congr : ∀ {cs ds : List Constraint} {X : Value → Prop} {v : Value},
    areWellFormed cs → v.isWellFormed → sameList cs ds → (HoldsAll cs X v ↔ HoldsAll ds X v)
  | [], ds, _, _, _, _, h => by cases ds <;> simp_all [sameList]
  | c :: cs, ds, _, v, hc, hv, h => by
    simp only [areWellFormed, Bool.and_eq_true] at hc
    cases ds <;> simp only [sameList, Bool.false_eq_true, Bool.and_eq_true] at h
    exact and_congr (holds_congr hc.1 hv h.1) (holdsAll_congr hc.2 hv h.2)

theorem holdsSome_congr : ∀ {cs ds : List Constraint} {X : Value → Prop} {v : Value},
    areWellFormed cs → v.isWellFormed → sameList cs ds → (HoldsSome cs X v ↔ HoldsSome ds X v)
  | [], ds, _, _, _, _, h => by cases ds <;> simp_all [sameList]
  | c :: cs, ds, _, v, hc, hv, h => by
    simp only [areWellFormed, Bool.and_eq_true] at hc
    cases ds <;> simp only [sameList, Bool.false_eq_true, Bool.and_eq_true] at h
    exact or_congr (holds_congr hc.1 hv h.1) (holdsSome_congr hc.2 hv h.2)

end

end Constraint

end Stagewise
