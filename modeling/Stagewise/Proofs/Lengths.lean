import Stagewise.Proofs.Normal

/-! What a conjunction says about the length of an array. Entailment puts together the statements
about the length and about single items, and asks whether a number of which all of them hold
satisfies the goal. It does not ask whether there is an array: where the goal holds of every number
that could be a length, it is found to follow from any conjunction. -/

set_option autoImplicit false

namespace Stagewise

def Fragment.conjunctive : Fragment where
  negations := true
  unions := false
  lengths := true
  idle := false
  tag _ := false

namespace Constraint

variable {c d : Constraint} {X : Value → Prop} {v : Value}

lemma suits_conjunctive : Suits .conjunctive keepUncovered :=
  ⟨fun _ => rfl, by simp [Fragment.conjunctive]⟩

lemma holds_length_of_not_excludes (hd : d.isFixFree) (h : ¬ d.Excludes) {items : List Value}
    (hs : items.length < Number.exactCount) : d.Holds X (.ofNat items.length) := by
  by_contra hn
  apply h
  refine ⟨Number.ofNat items.length, Number.zero_le_ofNat hs, fun hh => hn ?_⟩
  exact (holds_iff_of_isFixFree hd _ _).mp hh

lemma exists_array_of_kind? (h : c.kind? = some .array) (hc : c.Holds X v) :
    ∃ items, v = .array items := by
  have hr := kind_refines_of_holds h hc
  cases v <;> simp_all [Value.kind, Kind.refines]

/-- A conjunction that is found to imply a statement about lengths is right about the length of
every array that satisfies it. Only arrays satisfy it if some number that is not negative fails the
statement, or if a conjunct is about arrays. -/
theorem implies_length_sound {cs : List Constraint} {d : Constraint}
    (hcs : ∀ c ∈ cs, c.Fits .conjunctive false .plain) (hd : d.Fits .conjunctive false .plain)
    (h : (conj cs).implies (length d)) {v : Value} (hv : v.isWellFormed) (hs : v.isShort)
    (hall : (conj cs).admits v) :
    (∀ items, v = .array items → d.admits (.ofNat items.length)) ∧
    (d.Excludes ∨ (∃ c ∈ cs, c.kind? = some .array) → ∃ items, v = .array items) := by
  have hc : (conj cs).Fits .conjunctive false .plain := fits_conj.mpr ⟨by simp, hcs⟩
  have hcover : Fragment.conjunctive.Covers v := ⟨hv, fun _ => hs⟩
  have hholds := (hc.admits_iff fun _ => True).mp hall
  have hlength (hex : d.Excludes) : (length d).Holds (fun _ => True) v := by
    have hfit : (length d).Fits .conjunctive false .plain := ⟨rfl, Or.inr hex, hd⟩
    exact holds_of_implies suits_conjunctive rfl hc hfit h hcover hholds
  constructor
  · rintro items rfl
    rw [hd.admits_iff fun _ => True]
    by_cases hex : d.Excludes
    · obtain ⟨_, he, hlen⟩ := hlength hex
      obtain rfl := Value.array.inj he
      exact hlen
    · exact holds_length_of_not_excludes hd.isFixFree hex (hcover.length_lt rfl)
  · rintro (hex | ⟨c, hm, hk⟩)
    · obtain ⟨items, rfl, _⟩ := hlength hex
      exact ⟨items, rfl⟩
    · exact exists_array_of_kind? hk (holds_conj.mp hholds c hm)

theorem implies_length_sound_third :
    let cs : List Constraint := [.length (.bound .lt (Number.ofNat 5)), .elementAt 2 (.kind .number)]
    let d : Constraint := .conj [.bound .gt (Number.ofNat 2), .bound .lt (Number.ofNat 5)]
    let items : List Value := [.ofNat 7, .ofNat 8, .ofNat 9]
    ((conj cs).implies (length d) ∧ (conj cs).admits (.array items)) ∧
      d.admits (.ofNat items.length) := by
  intro cs d items
  have hlt : (bound .lt (Number.ofNat 5)).Excludes :=
    ⟨Number.ofNat 5, by decide, by simp [Holds]; decide⟩
  have hcs : ∀ c ∈ cs, c.Fits .conjunctive false .plain := by
    simp [cs, Fits, Fragment.conjunctive, hlt]
  have hd : d.Fits .conjunctive false .plain := by
    simp [d, Fits, AllFit]
  have himp : (conj cs).implies (length d) := by decide +kernel
  have hall : (conj cs).admits (.array items) := by decide
  exact ⟨⟨himp, hall⟩,
    (implies_length_sound hcs hd himp (by decide) (by decide) hall).1 items rfl⟩

/-- Every length is at least zero, so a positive number is found to have such a length. -/
theorem implies_length_of_number :
    let positive : Constraint := .conj [.kind .number, .bound .gt Number.zero]
    let long : Constraint := .length (.bound .ge Number.zero)
    (positive.implies long ∧ positive.admits (Value.ofNat 1) ∧ ¬ long.admits (Value.ofNat 1)) ∧
      ¬ (Constraint.conj [.kind .number, .bound .gt Number.zero, .neg long]).simplify.admits
        (Value.ofNat 1) := by
  decide +kernel

end Constraint

end Stagewise
