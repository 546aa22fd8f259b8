import Stagewise.Proofs.Faithful

/-! Implication is transitive between constraints with direct normal forms, in particular between
positive ones, and not between all. -/

set_option autoImplicit false

namespace Stagewise.Constraint

/-- Implication is transitive between constraints with direct normal forms, which all positive
constraints have. -/
theorem implies_transitive {a b c : Constraint}
    (ha : a.simplify.isDirect .union ∨ a.IsPositive)
    (hb : b.simplify.isDirect .union ∨ b.IsPositive)
    (hc : c.simplify.isDirect .union ∨ c.IsPositive) (hab : a.implies b) (hbc : b.implies c) :
    a.implies c := by
  have hdirect : ∀ d : Constraint, d.simplify.isDirect .union ∨ d.IsPositive →
      d.simplify.isDirect .union := fun d hd => hd.elim id IsPositive.isDirect_simplify
  rw [implies_iff_entailed] at hab hbc ⊢
  exact links_of_isDirect (hdirect b hb) _ _ (hdirect a ha) (hdirect c hc) hab hbc

theorem implies_transitive_records :
    let two := Number.ofNat 2
    let three := Number.ofNat 3
    let a : Constraint := .disj [.conj [.field "tag" (.equals (.string "box")),
      .field "size" (.conj [.bound .ge two, .bound .lt three])], .equals (.string "none")]
    let b : Constraint := .disj [.kind .string, .conj [.field "tag" (.kind .string),
      .field "size" (.conj [.kind .number, .bound .le three])]]
    let c : Constraint := .disj [.field "size" (.kind .number), .kind .string]
    (a.implies b ∧ b.implies c) ∧ a.implies c := by
  intro two three a b c
  have hab : a.implies b := by decide +kernel
  have hbc : b.implies c := by decide +kernel
  have hc : c.IsPositive := by
    refine isPositive_disj.mpr fun d hd => ⟨fun _ => false, ?_⟩
    simp only [List.mem_cons, List.not_mem_nil, or_false] at hd
    rcases hd with rfl | rfl <;> trivial
  exact ⟨⟨hab, hbc⟩, implies_transitive (.inl (by decide +kernel)) (.inl (by decide +kernel))
    (.inr hc) hab hbc⟩

/-- An item at a place makes an array, and an array with an item at a place is longer than the
place; but of the item alone no length is found. -/
theorem implies_not_transitive :
    let a : Constraint := .elementAt 2 (.kind .number)
    let b : Constraint := .conj [.kind .array, .elementAt 2 (.kind .number)]
    let c : Constraint := .length (.bound .gt (Number.ofNat 2))
    a.implies b ∧ b.implies c ∧ ¬ a.implies c := by
  decide +kernel

end Stagewise.Constraint
