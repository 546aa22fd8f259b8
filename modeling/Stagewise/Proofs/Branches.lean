import Stagewise.Proofs.Faithful
import Stagewise.Proofs.ValueUnion

/-! Simplifying a union. A branch is dropped when another one covers it, whether or not that one
stays. Where the branches that cover each other are few, no value is lost; where three of them cover
each other in a circle, where a statement about lengths passes for one that every value satisfies,
or where a variable passes for a constraint with every value, values are lost. -/

set_option autoImplicit false

namespace Stagewise.Constraint

/-- Simplifying a union keeps its values, and only a union without values becomes `never`. Either
the branches are no unions, and no three of those with the value have the same values, or they are
positive. -/
theorem simplify_disj_admits_iff {items : List Constraint} {v : Value} (hv : v.isWellFormed)
    (h : ((∀ c ∈ items, c.Fits .conjunctive false .plain) ∧ v.isShort ∧
      AtMost (SameValues .conjunctive) 2 v (.kind .bool :: items)) ∨
        ∀ c ∈ items, ∃ l, c.Positive l) :
    ((disj items).simplify.admits v ↔ ∃ c ∈ items, c.admits v) ∧
      ((disj items).simplify.isNever → ∀ c ∈ items, ¬ c.admits v) := by
  have hiff : (disj items).simplify.admits v ↔ ∃ c ∈ items, c.admits v := by
    rcases h with ⟨hitems, hs, hsame⟩ | hpositive
    · exact admits_simplify_disj_of_sameValues Fragment.isFlat_conjunctive hitems
        ⟨hv, fun _ => hs⟩ hsame
    · exact (isPositive_disj.mpr hpositive).admits_simplify_disj hv
  refine ⟨hiff, fun hnever c hc hcv => ?_⟩
  have hd := hiff.mpr ⟨c, hc, hcv⟩
  rw [eq_never_of_isNever hnever] at hd
  exact absurd hd Bool.false_ne_true

theorem simplify_disj_admits_arrays :
    let numbers : Constraint :=
      .conj [.kind .array, .length (.equals (Value.ofNat 0)), .elements (.kind .number)]
    let none : Constraint := .conj [.kind .array, .length (.bound .le Number.zero)]
    let some : Constraint := .conj [.kind .array, .length (.bound .le (Number.ofNat 5)),
      .neg (.length (.equals (Value.ofNat 3)))]
    let pair : Constraint := .conj [.elementAt 0 (.kind .number),
      .elementAt 1 (.disj [.kind .string, .kind .number])]
    let texts : Constraint := .elements (.kind .string)
    let box : Constraint := .field "size" (.disj [.equals (.ofNat 1), .equals (.ofNat 2)])
    let v : Value := .array [.ofNat 1, .string "s"]
    ((numbers.admits (.array []) ∧ none.admits (.array []) ∧ some.admits (.array [])) ∧
      (Constraint.disj [numbers, none, some]).simplify.admits (.array [])) ∧
    (pair.admits v ∧ (Constraint.disj [texts, pair, box]).simplify.admits v) := by
  intro numbers none some pair texts box v
  have hnone : (bound .le Number.zero).Excludes :=
    ⟨Number.ofNat 6, by decide, by simp [Holds]; decide⟩
  have hsome : (bound .le (Number.ofNat 5)).Excludes :=
    ⟨Number.ofNat 6, by decide, by simp [Holds]; decide⟩
  have hitems : ∀ c ∈ [numbers, none, some], c.Fits .conjunctive false .plain := by
    simp only [List.forall_mem_cons, List.not_mem_nil, false_implies, implies_true, and_true]
    refine ⟨?_, ?_, ?_⟩ <;>
      simp [numbers, none, some, Fits, AllFit, Fragment.conjunctive, hnone, hsome,
        excludes_equals_ofNat]
    all_goals decide
  have hsame :
      AtMost (SameValues .conjunctive) 2 (.array []) [.kind .bool, numbers, none, some] := by
    intro l hl hp
    by_contra hlt
    obtain rfl : l = [numbers, none, some] := hl.eq_of_length_le (Nat.lt_of_not_le hlt)
    have hpair : SameValues .conjunctive none some := by simp_all
    exact absurd (hpair.2 (.array [.null]) ⟨rfl, fun _ => rfl⟩ (by decide)) (by decide)
  have hpositive : ∀ c ∈ [texts, pair, box], ∃ l, c.Positive l := by
    simp only [List.forall_mem_cons, List.not_mem_nil, false_implies, implies_true, and_true]
    refine ⟨⟨fun _ => false, rfl, trivial⟩, ⟨fun _ => true, positive_conj.mpr ⟨fun path => ?_, ?_⟩⟩,
      fun _ => false, ?_⟩
    · rcases path with _ | ⟨q, path⟩
      · simp [product, spread, maxBranches]
      · simp only [product, spread, maxBranches]
        split_ifs <;> simp [total]
    · simp [Positive, AllPositive, Layout.allows]
    · simp [box, Positive, AllPositive]
      decide
  have hpair : pair.admits v := by decide
  exact ⟨⟨by decide, (simplify_disj_admits_iff rfl (.inl ⟨hitems, rfl, hsame⟩)).1.mpr
    ⟨numbers, by simp, by decide⟩⟩, hpair, (simplify_disj_admits_iff rfl (.inr hpositive)).1.mpr
      ⟨pair, by simp, hpair⟩⟩

/-- A union may lose its values. A statement that every length satisfies is taken to cover every
conjunction, and three branches about the empty array are dropped for the sake of each other. -/
theorem simplify_disj_loses :
    let positive : Constraint := .conj [.kind .number, .bound .gt Number.zero]
    let empty : Constraint := .conj [.kind .array, .length (.equals (Value.ofNat 0))]
    let numbers : Constraint :=
      .conj [.kind .array, .length (.equals (Value.ofNat 0)), .elements (.kind .number)]
    let none : Constraint := .conj [.kind .array, .length (.bound .le Number.zero)]
    (positive.admits (Value.ofNat 1) ∧
      ¬ (Constraint.disj [positive, .length .any]).simplify.admits (Value.ofNat 1)) ∧
    ((numbers.admits (.array []) ∧ empty.admits (.array []) ∧ none.admits (.array [])) ∧
      (Constraint.disj [numbers, empty, none]).simplify.isNever) := by
  decide +kernel

/-- Inside a recursive constraint a literal passes for a value of the variable, so that its branch
is dropped. -/
theorem simplify_fix_loses :
    let c : Constraint := .fix (.field "a" (.disj [.equals (Value.ofNat 1), .bvar 0]))
    let v : Value := .object [("a", Value.ofNat 1)]
    c.admits v ∧ ¬ c.simplify.admits v := by
  decide +kernel

end Stagewise.Constraint
