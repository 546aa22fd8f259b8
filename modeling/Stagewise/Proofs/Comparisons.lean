import Stagewise.Proofs.Faithful
import Stagewise.Proofs.FieldPaths
import Stagewise.Staging.Operator

/-! Comparisons that the constraints of the operands decide: by their values where both are
literals, by their ranges where one range is below the other, and by disjointness where no value
belongs to both. -/

set_option autoImplicit false

namespace Stagewise

open Association

/-! ### Equality and identity -/

namespace Number

lemma eq_congr {a b c d : Number} (hab : a.same b) (hcd : c.same d) (h : a.eq c) : b.eq d := by
  simp only [same, eq, Bool.or_eq_true, Bool.and_eq_true, Bool.not_eq_true', beq_iff_eq] at *
  grind

lemma order?_congr {a b c d : Number} (hab : a.same b) (hcd : c.same d) :
    a.order? c = b.order? d := by
  simp only [same, order?, lt, eq, Bool.or_eq_true, Bool.and_eq_true, Bool.not_eq_true',
    beq_iff_eq, decide_eq_true_eq] at *
  grind

end Number

mutual

theorem Value.same_of_equals : ∀ {v w : Value}, v.equals w → v.same w
  | .number a, w, h => by
    cases w <;> simp_all [Value.equals, Value.same, Number.same]
  | .object a, w, h => by
    cases w <;> simp only [Value.equals, Value.same, Bool.and_eq_true, Bool.false_eq_true] at h ⊢
    exact ⟨h.1, Value.sameFields_of_equalsFields h.2⟩
  | .array a, w, h => by
    cases w <;> simp only [Value.equals, Value.same, Bool.false_eq_true] at h ⊢
    exact Value.sameItems_of_equalsItems h
  | .string _, w, h | .bool _, w, h | .null, w, h | .closure _ _, w, h | .builtin _, w, h
  | .type _, w, h => by
    cases w <;> simpa [Value.equals] using h

theorem Value.sameFields_of_equalsFields : ∀ {fields other : List (String × Value)},
    Value.equalsFields fields other → Value.sameFields fields other
  | [], _, _ => by simp [Value.sameFields]
  | (name, v) :: fields, other, h => by
    simp only [Value.equalsFields, Value.sameFields, Bool.and_eq_true] at h ⊢
    refine ⟨?_, Value.sameFields_of_equalsFields h.2⟩
    cases hf : find? name other with
    | none => simp [hf] at h
    | some w => exact Value.same_of_equals (by simpa [hf] using h.1)

theorem Value.sameItems_of_equalsItems : ∀ {items other : List Value},
    Value.equalsItems items other → Value.sameItems items other
  | [], other, h => by cases other <;> simp_all [Value.equalsItems, Value.sameItems]
  | v :: items, other, h => by
    cases other <;> simp only [Value.equalsItems, Value.sameItems, Bool.and_eq_true,
      Bool.false_eq_true] at h ⊢
    exact ⟨Value.same_of_equals h.1, Value.sameItems_of_equalsItems h.2⟩

end

namespace Value

lemma equalsFields_iff {fields other : List (String × Value)} :
    equalsFields fields other ↔ ∀ p ∈ fields, ∃ w, find? p.1 other = some w ∧ p.2.equals w := by
  induction fields with
  | nil => simp [equalsFields]
  | cons p fields ih =>
    obtain ⟨name, v⟩ := p
    cases hf : find? name other <;> simp [equalsFields, hf, ih]

end Value

mutual

theorem Value.equals_of_same : ∀ {v w x y : Value}, v.isWellFormed → v.same x → w.same y →
    v.equals w → x.equals y
  | .number a, w, x, y, _, hx, hy, h => by
    cases x <;> simp only [Value.same, Bool.false_eq_true] at hx
    cases w <;> simp only [Value.equals, Value.same, Bool.false_eq_true] at h
    cases y <;> simp only [Value.same, Bool.false_eq_true] at hy
    exact Number.eq_congr hx hy h
  | .object a, w, x, y, hv, hx, hy, h => by
    cases x <;> simp only [Value.same, Bool.false_eq_true, Bool.and_eq_true, beq_iff_eq] at hx
    cases w <;> simp only [Value.equals, Value.same, Bool.false_eq_true, Bool.and_eq_true,
      beq_iff_eq] at h
    cases y <;> simp only [Value.same, Bool.false_eq_true, Bool.and_eq_true, beq_iff_eq] at hy
    next b c d =>
      simp only [Value.isWellFormed, Bool.and_eq_true, decide_eq_true_eq] at hv
      have hn := Value.names_perm_of_sameFields hv.1 hx.1 hx.2
      simp only [Value.equals, Bool.and_eq_true, beq_iff_eq]
      refine ⟨by omega, Value.equalsFields_iff.mpr fun p hp => ?_⟩
      have hm : p.1 ∈ names a := hn.mem_iff.mpr (List.mem_map.mpr ⟨p, hp, rfl⟩)
      obtain ⟨q, hq, he⟩ := List.mem_map.mp hm
      obtain ⟨u, hu, hqu⟩ := Value.sameFields_iff.mp hx.2 q hq
      rw [he, find?_eq_some_of_mem (hn.nodup_iff.mp hv.1) hp, Option.some.injEq] at hu
      obtain ⟨z, hz, hqz⟩ := Value.equalsFields_iff.mp h.2 q hq
      obtain ⟨z', hz', hzz⟩ := Value.sameFields_iff.mp hy.2 _ (mem_of_find?_eq_some hz)
      refine ⟨z', by rw [← he]; exact hz', ?_⟩
      exact hu ▸ Value.equals_of_sameFields hv.2 q hq hqu hzz hqz
  | .array a, w, x, y, hv, hx, hy, h => by
    cases x <;> simp only [Value.same, Bool.false_eq_true] at hx
    cases w <;> simp only [Value.equals, Value.same, Bool.false_eq_true] at h
    cases y <;> simp only [Value.same, Bool.false_eq_true] at hy
    simp only [Value.equals]
    exact Value.equalsItems_of_same (by simpa [Value.isWellFormed] using hv) hx hy h
  | .string _, w, x, y, hv, hx, hy, h | .bool _, w, x, y, hv, hx, hy, h
  | .null, w, x, y, hv, hx, hy, h | .closure _ _, w, x, y, hv, hx, hy, h
  | .builtin _, w, x, y, hv, hx, hy, h | .type _, w, x, y, hv, hx, hy, h => by
    have hxy := Value.same_trans (Value.same_symm hv hx)
      (Value.same_trans (Value.same_of_equals h) hy)
    cases x <;> simp only [Value.same, Bool.false_eq_true] at hx
    all_goals simpa [Value.equals] using hxy

theorem Value.equals_of_sameFields : ∀ {fields : List (String × Value)},
    Value.areWellFormedFields fields → ∀ p ∈ fields, ∀ {w x y : Value}, p.2.same x → w.same y →
      p.2.equals w → x.equals y
  | [], _, p, hp => by simp at hp
  | (name, v) :: fields, hv, p, hp => by
    simp only [Value.areWellFormedFields, Bool.and_eq_true] at hv
    intro hx hy h
    rcases List.mem_cons.mp hp with rfl | hp
    · exact Value.equals_of_same hv.1 hx hy h
    · exact Value.equals_of_sameFields hv.2 p hp hx hy h

theorem Value.equalsItems_of_same : ∀ {vs ws xs ys : List Value}, Value.areWellFormed vs →
    Value.sameItems vs xs → Value.sameItems ws ys → Value.equalsItems vs ws →
      Value.equalsItems xs ys
  | [], ws, xs, ys, _, hx, hy, h => by
    cases xs <;> cases ws <;> cases ys <;> simp_all [Value.sameItems, Value.equalsItems]
  | v :: vs, ws, xs, ys, hv, hx, hy, h => by
    simp only [Value.areWellFormed, Bool.and_eq_true] at hv
    cases xs <;> simp only [Value.sameItems, Bool.false_eq_true, Bool.and_eq_true] at hx
    cases ws <;> simp only [Value.equalsItems, Bool.false_eq_true, Bool.and_eq_true] at h
    cases ys <;> simp only [Value.sameItems, Bool.false_eq_true, Bool.and_eq_true] at hy
    simp only [Value.equalsItems, Bool.and_eq_true]
    exact ⟨Value.equals_of_same hv.1 hx.1 hy.1 h.1, Value.equalsItems_of_same hv.2 hx.2 hy.2 h.2⟩

end

/-! ### Ranges -/

namespace Interval

variable {i j : Interval} {v w : Value}

lemma lt_of_isBelow (hi : i.Describes v) (hj : j.Describes w) (h : i.isBelow j) :
    ∃ x y, v = .number x ∧ w = .number y ∧ x.lt y := by
  obtain ⟨lo, hi'⟩ := i
  obtain ⟨lo', hi''⟩ := j
  rcases hi' with _ | a
  · simp [isBelow] at h
  rcases lo' with _ | b
  · simp [isBelow] at h
  have hab : a.value.isNaN = false ∧ b.value.isNaN = false := by
    simp only [isBelow, Number.lt, Number.eq] at h
    grind
  unfold Describes at hi hj
  cases hv : v.proper? with
  | none => simp [hv, IsBlank, hab.1] at hi
  | some x =>
    cases hw : w.proper? with
    | none => simp [hw, IsBlank, hab.2] at hj
    | some y =>
      refine ⟨x, y, (Value.proper?_eq_some.mp hv).1, (Value.proper?_eq_some.mp hw).1, ?_⟩
      simp only [hv, hw, contains_eq, clearsLow, clearsHigh, isBelow, Number.lt, Number.eq] at *
      grind

end Interval

/-! ### Decisions -/

namespace BinaryOp

variable {op : BinaryOp} {a b : Constraint} {x y : Value} {r t : Bool}

lemma apply_congr (hop : op.isComparison) {u w : Value} (hx : x.isWellFormed) (hxu : x.same u)
    (hy : y.isWellFormed) (hyw : y.same w) (h : op.apply x y = .ok (.bool r)) :
    op.apply u w = .ok (.bool r) := by
  by_cases hord : op.isOrdering
  · rw [apply_ordering hord] at h ⊢
    rcases h with ⟨m, n, rfl, rfl, h⟩ | ⟨s, t, rfl, rfl, h⟩ <;>
      cases u <;> simp only [Value.same, Bool.false_eq_true, beq_iff_eq] at hxu <;>
      cases w <;> simp only [Value.same, Bool.false_eq_true, beq_iff_eq] at hyw
    · exact Or.inl ⟨_, _, rfl, rfl, Number.order?_congr hxu hyw ▸ h⟩
    · exact Or.inr ⟨_, _, rfl, rfl, hxu ▸ hyw ▸ h⟩
  · have heq : u.equals w = x.equals y := by
      rw [Bool.eq_iff_iff]
      exact ⟨Value.equals_of_same (Value.isWellFormed_of_same hx hxu) (Value.same_symm hx hxu)
        (Value.same_symm hy hyw), Value.equals_of_same hx hxu hyw⟩
    cases op <;> simp [isComparison, isOrdering] at hop hord <;>
      simpa [apply, heq] using h

lemma decideOrdering_sound (hop : op.isOrdering) {i j : Interval} (hx : i.Describes x)
    (hy : j.Describes y) (ht : op.decideOrdering i j = .ofBool t)
    (hr : op.apply x y = .ok (.bool r)) : r = t := by
  have hbelow (h : i.isBelow j) : op.apply x y = .ok (.bool (op.holdsOf (some .lt))) := by
    obtain ⟨m, n, rfl, rfl, hlt⟩ := Interval.lt_of_isBelow hx hy h
    refine (apply_ordering hop).mpr (Or.inl ⟨m, n, rfl, rfl, ?_⟩)
    simp [Number.order?, hlt]
  have habove (h : j.isBelow i) : op.apply x y = .ok (.bool (op.holdsOf (some .gt))) := by
    obtain ⟨n, m, rfl, rfl, hlt⟩ := Interval.lt_of_isBelow hy hx h
    refine (apply_ordering hop).mpr (Or.inl ⟨m, n, rfl, rfl, ?_⟩)
    rw [Number.order?_swap n m]
    simp [Number.order?, hlt]
  have hunique {s : Bool} (hs : op.apply x y = .ok (.bool s)) : r = s := by
    simpa using hr.symm.trans hs
  cases op <;> simp only [isOrdering, Bool.false_eq_true] at hop <;>
    simp only [decideOrdering] at ht <;> split_ifs at ht with h h' <;>
    simp only [Constraint.ofBool, Constraint.equals.injEq, Value.bool.injEq, reduceCtorEq] at ht <;>
    subst ht <;> first | exact hunique (hbelow h) | exact hunique (habove h) |
      exact hunique (hbelow h') | exact hunique (habove h')

lemma resultOf_eq_ok (hop : op.isComparison) (h : op.resultOf a b = .ok (.ofBool t)) :
    (∃ u w, a = .equals u ∧ b = .equals w ∧ op.apply u w = .ok (.bool t)) ∨
      (op.isOrdering ∧ op.decideOrdering (Interval.of a) (Interval.of b) = .ofBool t) ∨
      (op.isOrdering = false ∧ a.disjoint b ∧ t = (op == .ne)) := by
  unfold resultOf at h
  split at h
  · next u w hu hw =>
    obtain rfl : a = .equals u := by cases a <;> simp_all [Constraint.literal?]
    obtain rfl : b = .equals w := by cases b <;> simp_all [Constraint.literal?]
    obtain ⟨v, hv, h⟩ := Outcome.bind_eq_ok.mp h
    obtain ⟨s, rfl⟩ : ∃ s, v = .bool s := by
      cases v <;> simp_all [Constraint.ofValue, Constraint.ofBool, pure, Except.pure]
    obtain rfl : s = t := by
      simpa [Constraint.ofValue, Constraint.ofBool, pure, Except.pure] using h
    exact Or.inl ⟨u, w, rfl, rfl, hv⟩
  · refine Or.inr ?_
    cases op <;> simp only [isComparison, Bool.false_eq_true] at hop
    case eq | ne =>
      refine Or.inr ⟨rfl, ?_⟩
      by_cases hd : a.disjoint b
      · simp only [hd, if_true] at h
        exact ⟨hd, by simpa [Constraint.ofBool, pure, Except.pure, eq_comm] using h⟩
      · simp [hd, Constraint.ofBool, pure, Except.pure] at h
    all_goals
      refine Or.inl ⟨rfl, ?_⟩
      obtain ⟨_, _, h⟩ := Outcome.bind_eq_ok.mp h
      obtain ⟨_, _, h⟩ := Outcome.bind_eq_ok.mp h
      split_ifs at h
      · exact Except.ok.inj h
      · simp [Constraint.ofBool, pure, Except.pure] at h

lemma not_equals_of_disjoint (hfix : b.isFixFree) (hx : x.isWellFormed) (hy : y.isWellFormed)
    {X : Value → Prop} (hax : a.Holds X x) (hby : b.Holds X y)
    (h : ¬ (a.Holds X x ∧ b.Holds X x)) : x.equals y = false := by
  by_contra hxy
  have hsame := Value.same_of_equals (eq_true_of_ne_false hxy)
  exact h ⟨hax, (Constraint.holds_value_congr hfix hx hy hsame).mpr hby⟩

/-- A comparison that the constraints of its operands decide comes out as decided. An ordering is
decided by ranges, which tell the truth where no number in a union is NaN; equality by the normal
form of both constraints together, which does where there are no unions or the constraints are
positive. -/
theorem resultOf_sound (hop : op.isComparison) (ha : a.isFixFree) (hb : b.isFixFree)
    (hord : op.isOrdering → a.hasProperUnions false ∧ b.hasProperUnions false)
    (heq : op.isOrdering = false → a.isCore ∧ b.isCore ∨ (Constraint.conj [a, b]).IsPositive)
    (hx : x.isWellFormed) (hy : y.isWellFormed) (hax : a.admits x) (hby : b.admits y)
    (ht : op.resultOf a b = .ok (.ofBool t)) (hr : op.apply x y = .ok (.bool r)) : r = t := by
  rw [Constraint.admits_iff_holds ha fun _ => True] at hax
  rw [Constraint.admits_iff_holds hb fun _ => True] at hby
  rcases resultOf_eq_ok hop ht with ⟨u, w, rfl, rfl, hv⟩ | ⟨hordering, hdecided⟩ |
    ⟨hequality, hdisjoint, rfl⟩
  · have hruw := apply_congr hop hx hax hy hby hr
    simpa using hruw.symm.trans hv
  · obtain ⟨hpa, hpb⟩ := hord hordering
    have hx := Constraint.describes_of_hasProperUnions (Constraint.tellsRange_holds _ x) hpa hax
    have hy := Constraint.describes_of_hasProperUnions (Constraint.tellsRange_holds _ y) hpb hby
    exact decideOrdering_sound hordering hx hy hdecided hr
  · have hnot := not_equals_of_disjoint hb hx hy hax hby <| (heq hequality).elim
      (fun hcore => Constraint.disjoint_sound hcore.1 hcore.2 hdisjoint hx)
      fun hpositive => hpositive.not_holds_of_disjoint hdisjoint hx
    cases op <;> simp [isComparison, isOrdering] at hop hequality <;>
      simp only [apply, hnot, Except.ok.injEq, Value.bool.injEq] at hr <;> exact hr.symm

def isDecidedAs (t : Bool) : Outcome Constraint → Bool
  | .ok (.equals (.bool s)) => s == t
  | _ => false

lemma isDecidedAs_iff {result : Outcome Constraint} :
    isDecidedAs t result ↔ result = .ok (.ofBool t) := by
  unfold isDecidedAs
  split
  · simp [Constraint.ofBool]
  · next hne =>
    simp only [Bool.false_eq_true, false_iff]
    rintro rfl
    exact hne t rfl

instance (result : Outcome Constraint) : Decidable (result = .ok (.ofBool t)) :=
  decidable_of_iff _ isDecidedAs_iff

theorem resultOf_sound_ranges :
    let low : Constraint := .disj [.equals (.ofNat 1), .equals (.ofNat 3)]
    let high : Constraint := .conj [.kind .number, .bound .ge (Number.ofNat 4)]
    let other : Constraint := .neg (.kind .number)
    (lt.resultOf low high = .ok (.ofBool true) ∧
      ∀ r, lt.apply (.ofNat 3) (.ofNat 7) = .ok (.bool r) → r = true) ∧
    (eq.resultOf low high = .ok (.ofBool false) ∧
      ∀ r, eq.apply (.ofNat 3) (.ofNat 7) = .ok (.bool r) → r = false) ∧
    (ne.resultOf high other = .ok (.ofBool true) ∧
      ∀ r, ne.apply (.ofNat 7) .null = .ok (.bool r) → r = true) := by
  intro low high other
  have hlt : lt.resultOf low high = .ok (.ofBool true) := by decide +kernel
  have heq : eq.resultOf low high = .ok (.ofBool false) := by decide +kernel
  have hne : ne.resultOf high other = .ok (.ofBool true) := by decide +kernel
  have hpositive : (Constraint.conj [low, high]).Positive fun _ => false := by
    refine Constraint.positive_conj.mpr ⟨fun path => ?_, ?_⟩
    · simp [low, high, Constraint.product, Constraint.total, Constraint.maxBranches]
    · simp [low, high, Constraint.Positive, Constraint.AllPositive, Constraint.product,
        Constraint.maxBranches]
      decide
  refine ⟨⟨hlt, fun r hr => ?_⟩, ⟨heq, fun r hr => ?_⟩, hne, fun r hr => ?_⟩
  · exact resultOf_sound rfl rfl rfl (fun _ => ⟨rfl, rfl⟩) (by simp [isOrdering]) rfl rfl
      (by decide) (by decide) hlt hr
  · exact resultOf_sound rfl rfl rfl (by simp [isOrdering]) (fun _ => .inr hpositive.isPositive)
      rfl rfl (by decide) (by decide) heq hr
  · exact resultOf_sound rfl rfl rfl (by simp [isOrdering]) (fun _ => .inl ⟨rfl, rfl⟩) rfl rfl
      (by decide) (by decide) hne hr

/-- Decisions that come out otherwise. The range of a union leaves NaN out, so that NaN is taken to
be less than 2. Three branches that describe the same objects are dropped for the sake of each
other, so that an object is taken to be different from itself: `repeated` says `string` in unions with too
many branches to be distributed, which hides that it excludes what the first branch denies. -/
theorem resultOf_unsound :
    let number : Constraint := .disj [.equals (.ofNat 1), .equals (.number .nan)]
    let textOr (n : Nat) : Constraint :=
      .disj (.kind .string :: (List.range' n 5).map fun k => .equals (.ofNat k))
    let repeated : Constraint := .field "f" (.conj [.kind .string, textOr 1, textOr 6])
    let other : Constraint := .neg (.field "f" (.disj [.kind .number, .kind .bool]))
    let union : Constraint := .disj [.conj [repeated, other], .field "f" (.kind .string), repeated]
    let v : Value := .object [("f", .string "s")]
    ((number.admits (.number .nan) ∧ lt.apply (.number .nan) (.ofNat 2) = .ok (.bool false)) ∧
      lt.resultOf number (.equals (.ofNat 2)) = .ok (.ofBool true)) ∧
    ((union.admits v ∧ eq.apply v v = .ok (.bool true)) ∧
      eq.resultOf union union = .ok (.ofBool false)) :=
  ⟨⟨⟨by decide, rfl⟩, by decide +kernel⟩, ⟨by decide, rfl⟩, by decide +kernel⟩

end BinaryOp

end Stagewise
