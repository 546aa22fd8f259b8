import Stagewise.Proofs.Comparisons
import Stagewise.Proofs.Descriptions

/-! Identical values belong to the same constraints. A check takes the same course for both of them
and leaves as much of its budget, whatever is unrolled on the way. -/

set_option autoImplicit false

namespace Stagewise

open Association

namespace Value

lemma find?_cases_of_same (name : String) {fields other : List (String × Value)}
    (hv : (object fields).isWellFormed) (h : (object fields).same (object other)) :
    (find? name fields = none ∧ find? name other = none) ∨
      ∃ v w, find? name fields = some v ∧ find? name other = some w ∧ v.same w := by
  cases hf : find? name fields with
  | some v =>
    obtain ⟨w, hw, hs⟩ := find?_of_same h hf
    exact .inr ⟨v, w, rfl, hw, hs⟩
  | none =>
    refine .inl ⟨rfl, ?_⟩
    cases ho : find? name other with
    | none => rfl
    | some w =>
      obtain ⟨v, hv', _⟩ := find?_of_same (same_symm hv h) ho
      cases hf.symm.trans hv'

lemma getElem?_cases_of_same {items other : List Value} (h : sameItems items other) (i : Nat) :
    (items[i]? = none ∧ other[i]? = none) ∨
      ∃ v w, items[i]? = some v ∧ other[i]? = some w ∧ v.same w := by
  cases hi : items[i]? with
  | some v =>
    obtain ⟨w, hw, hs⟩ := getElem?_of_sameItems h i hi
    exact .inr ⟨v, w, rfl, hw, hs⟩
  | none =>
    have hl := (sameItems_iff.mp h).length_eq
    exact .inl ⟨rfl, by rwa [List.getElem?_eq_none_iff, ← hl, ← List.getElem?_eq_none_iff]⟩

end Value

namespace Constraint

section Membership

variable {unrolled : Nat → Value → Constraint → Bool × Nat}

def RespectsIdentity (check : Nat → Value → Constraint → Bool × Nat) : Prop :=
  ∀ (budget : Nat) {v w : Value} (c : Constraint), v.isWellFormed → v.same w →
    check budget v c = check budget w c

mutual

theorem checkWith_congr (hu : RespectsIdentity unrolled) :
    ∀ (c : Constraint) (budget : Nat) {v w : Value}, v.isWellFormed → v.same w →
      checkWith unrolled budget v c = checkWith unrolled budget w c
  | .any, _, _, _, _, _ | .never, _, _, _, _, _ | .bvar _, _, _, _, _, _ | .ref _, _, _, _, _, _
  | .var _, _, _, _, _, _ => rfl
  | .kind k, _, v, w, _, h => by rw [checkWith, checkWith, Value.kind_eq_of_same h]
  | .equals u, budget, v, w, hv, h =>
    congrArg (·, budget) (Bool.eq_iff_iff.mpr (Value.same_left_comm hv h))
  | .bound r n, budget, v, w, _, h => by
    cases v <;> cases w <;> simp only [Value.same, Bool.false_eq_true] at h <;> try rfl
    exact congrArg (·, budget) (Comparison.holds_congr r n h)
  | .field name c, budget, v, w, hv, h => by
    cases v <;> cases w <;> try first | rfl | cases h
    rename_i fields other
    rcases Value.find?_cases_of_same name hv h with ⟨hf, ho⟩ | ⟨x, y, hx, hy, hxy⟩
    · simp only [checkWith, hf, ho]
    · simp only [checkWith, hx, hy]
      exact checkWith_congr hu c budget (Value.isWellFormed_of_find? hv hx) hxy
  | .elements c, budget, v, w, hv, h => by
    cases v <;> cases w <;> try first | rfl | cases h
    rename_i items other
    simp only [Value.isWellFormed, Value.areWellFormed_iff] at hv
    simp only [Value.same, Value.sameItems_iff] at h
    simp only [checkWith]
    induction h generalizing budget with
    | nil => rfl
    | cons hxy _ ih =>
      obtain ⟨hx, hrest⟩ := List.forall_mem_cons.mp hv
      simp only [checkAll, checkWith_congr hu c budget hx hxy, ih _ hrest]
  | .length c, budget, v, w, _, h => by
    cases v <;> cases w <;> try first | rfl | cases h
    simp only [Value.same, Value.sameItems_iff] at h
    simp only [checkWith, h.length_eq]
  | .elementAt i c, budget, v, w, hv, h => by
    cases v <;> cases w <;> try first | rfl | cases h
    rename_i items other
    simp only [Value.same] at h
    rcases Value.getElem?_cases_of_same h i with ⟨hi, ho⟩ | ⟨x, y, hx, hy, hxy⟩
    · simp only [checkWith, hi, ho]
    · simp only [checkWith, hx, hy]
      exact checkWith_congr hu c budget
        (Value.isWellFormed_of_mem hv (List.mem_of_getElem? hx)) hxy
  | .conj cs, budget, v, w, hv, h => by
    rw [checkWith, checkWith, checkConj_congr hu cs budget hv h]
  | .disj cs, budget, v, w, hv, h => by
    rw [checkWith, checkWith, checkDisj_congr hu cs budget hv h]
  | .neg c, budget, v, w, hv, h => by
    rw [checkWith, checkWith, checkWith_congr hu c budget hv h]
  | .fix body, budget, v, w, hv, h => hu budget (.fix body) hv h

theorem checkConj_congr (hu : RespectsIdentity unrolled) :
    ∀ (cs : List Constraint) (budget : Nat) {v w : Value}, v.isWellFormed → v.same w →
      checkConj unrolled budget v cs = checkConj unrolled budget w cs
  | [], _, _, _, _, _ => rfl
  | c :: cs, budget, v, w, hv, h => by
    simp only [checkConj, checkWith_congr hu c budget hv h, checkConj_congr hu cs _ hv h]

theorem checkDisj_congr (hu : RespectsIdentity unrolled) :
    ∀ (cs : List Constraint) (budget : Nat) {v w : Value}, v.isWellFormed → v.same w →
      checkDisj unrolled budget v cs = checkDisj unrolled budget w cs
  | [], _, _, _, _, _ => rfl
  | c :: cs, budget, v, w, hv, h => by
    simp only [checkDisj, checkWith_congr hu c budget hv h, checkDisj_congr hu cs _ hv h]

end

lemma respectsIdentity_check (depth : Nat) : RespectsIdentity (check depth) := by
  induction depth with
  | zero =>
    intro budget v w c hv h
    exact checkWith_congr (fun _ _ _ _ _ _ => rfl) c budget hv h
  | succ depth ih =>
    intro budget v w c hv h
    refine checkWith_congr (fun budget v w c hv h => ?_) c budget hv h
    rw [ih _ _ hv h]

lemma admits_congr (c : Constraint) {v w : Value} (hv : v.isWellFormed) (h : v.same w) :
    c.admits v = c.admits w :=
  congrArg Prod.fst (respectsIdentity_check maxUnrolls maxUnrolls c hv h)

end Membership

end Constraint

/-- Identity of values, whose objects have fields of different names, is symmetric and transitive,
and reflexive on those without a NaN as bound inside a type. Equal values are identical, and
identical values belong to the same constraints, recursive or not. -/
theorem Value.identical_indiscernible {v w : Value} (hv : v.isWellFormed) :
    (v == w → w == v) ∧ (∀ u, v == w → w == u → v == u) ∧ (v.hasProperBounds → v == v) ∧
      (v.equals w → v == w) ∧ (v == w → ∀ c : Constraint, c.admits v = c.admits w) :=
  ⟨same_symm hv, fun _ => same_trans, same_self hv, same_of_equals,
    fun h c => c.admits_congr hv h⟩

theorem Value.identical_indiscernible_swapped :
    let v : Value := .object [("a", .number .zero), ("b", .array [.number .nan])]
    let w : Value := .object [("b", .array [.number (.neg .nan)]), ("a", .number (.neg .zero))]
    let c : Constraint := .fix (.disj [.kind .number, .elements (.bvar 0),
      .conj [.field "a" (.bvar 0), .field "b" (.bvar 0)]])
    v.isWellFormed ∧ v.hasProperBounds ∧ v == w ∧ w == v ∧ v == v ∧ c.admits v = c.admits w := by
  intro v w c
  have hv : v.isWellFormed := by decide
  have hb : v.hasProperBounds := by decide
  have h : v == w := by decide
  obtain ⟨hsymm, _, hself, _, hadmits⟩ := Value.identical_indiscernible (w := w) hv
  exact ⟨hv, hb, h, hsymm h, hself hb, hadmits h c⟩

end Stagewise
