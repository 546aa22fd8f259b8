import Mathlib.Algebra.BigOperators.Ring.List
import Mathlib.Algebra.Order.BigOperators.Group.List
import Mathlib.Algebra.Order.Ring.Nat
import Stagewise.Proofs.Direct

/-! How many alternatives a conjunction may have to distribute over. The alternatives are counted at
each part of a value, given by the path to it, and normalising never increases their number. -/

set_option autoImplicit false

namespace Stagewise.Constraint

mutual

/-- The number of alternatives for the part of a value at a path. -/
def spread : List Place → Constraint → Nat
  | path, .conj cs => product path cs
  | path, .disj cs => max 1 (total path cs)
  | q :: path, .field name c => if q = .field name then spread path c else 1
  | q :: path, .elements c => if q = .items then spread path c else 1
  | q :: path, .elementAt i c => if q = .item i then spread path c else 1
  | _, _ => 1
termination_by structural _ c => c

def product : List Place → List Constraint → Nat
  | _, [] => 1
  | path, c :: cs => spread path c * product path cs
termination_by structural _ cs => cs

def total : List Place → List Constraint → Nat
  | _, [] => 0
  | path, c :: cs => spread path c + total path cs
termination_by structural _ cs => cs

end

section Counting

variable {path : List Place} {p q : Place} {c d : Constraint} {cs ds acc : List Constraint}

lemma product_eq : product path cs = (cs.map (spread path)).prod := by
  induction cs with
  | nil => rfl
  | cons c cs ih => rw [product, ih, List.map_cons, List.prod_cons]

lemma total_eq : total path cs = (cs.map (spread path)).sum := by
  induction cs with
  | nil => rfl
  | cons c cs ih => rw [total, ih, List.map_cons, List.sum_cons]

@[simp] lemma spread_conj : (conj cs).spread path = product path cs := by
  cases path <;> rfl

@[simp] lemma spread_disj : (disj cs).spread path = max 1 (total path cs) := by
  cases path <;> rfl

@[simp] lemma spread_any : any.spread path = 1 := by cases path <;> rfl

@[simp] lemma spread_never : never.spread path = 1 := by cases path <;> rfl

@[simp] lemma spread_kind {k : Kind} : (kind k).spread path = 1 := by cases path <;> rfl

@[simp] lemma spread_equals {v : Value} : (equals v).spread path = 1 := by cases path <;> rfl

@[simp] lemma spread_bound {r : Comparison} {n : Number} : (bound r n).spread path = 1 := by
  cases path <;> rfl

@[simp] lemma spread_about_nil : (p.about c).spread [] = 1 := by
  cases p <;> rfl

lemma spread_about : (p.about c).spread (q :: path) = if q = p then c.spread path else 1 := by
  cases p <;> rfl

lemma product_append : product path (cs ++ ds) = product path cs * product path ds := by
  simp [product_eq]

lemma total_append : total path (cs ++ ds) = total path cs + total path ds := by
  simp [total_eq]

mutual

theorem one_le_spread : ∀ (path : List Place) (c : Constraint), 1 ≤ c.spread path
  | path, .conj cs => by simpa using one_le_product path cs
  | path, .disj cs => by simp
  | [], .field _ _ | [], .elements _ | [], .elementAt _ _ => Nat.le_refl 1
  | q :: path, .field _ c | q :: path, .elements c | q :: path, .elementAt _ c => by
    rw [spread]
    split_ifs
    · exact one_le_spread path c
    · exact Nat.le_refl 1
  | [], .kind _ | [], .equals _ | [], .bound _ _ | [], .length _ | [], .neg _ | [], .fix _
  | [], .bvar _ | [], .ref _ | [], .var _ | [], .any | [], .never => Nat.le_refl 1
  | _ :: _, .kind _ | _ :: _, .equals _ | _ :: _, .bound _ _ | _ :: _, .length _ | _ :: _, .neg _
  | _ :: _, .fix _ | _ :: _, .bvar _ | _ :: _, .ref _ | _ :: _, .var _ | _ :: _, .any
  | _ :: _, .never => Nat.le_refl 1

theorem one_le_product : ∀ (path : List Place) (cs : List Constraint), 1 ≤ product path cs
  | _, [] => Nat.le_refl 1
  | path, c :: cs => Nat.mul_pos (one_le_spread path c) (one_le_product path cs)

end

lemma product_le_of_sublist (path : List Place) (h : cs.Sublist ds) :
    product path cs ≤ product path ds := by
  rw [product_eq, product_eq]
  refine (h.map (spread path)).prod_le_prod' fun n hn => ?_
  obtain ⟨c, _, rfl⟩ := List.mem_map.mp hn
  exact one_le_spread path c

lemma total_le_of_sublist (h : cs.Sublist ds) : total path cs ≤ total path ds := by
  rw [total_eq, total_eq]
  exact (h.map (spread path)).sum_le_sum fun _ _ => Nat.zero_le _

lemma length_le_total (path : List Place) (cs : List Constraint) : cs.length ≤ total path cs := by
  induction cs with
  | nil => exact Nat.zero_le _
  | cons c cs ih =>
    have hc := one_le_spread path c
    rw [List.length_cons, total]
    omega

lemma product_map_le {f : Constraint → Constraint}
    (h : ∀ c ∈ cs, (f c).spread path ≤ c.spread path) :
    product path (cs.map f) ≤ product path cs := by
  induction cs with
  | nil => exact Nat.le_refl _
  | cons c cs ih =>
    rw [List.forall_mem_cons] at h
    exact Nat.mul_le_mul h.1 (ih h.2)

lemma total_map_le {f : Constraint → Constraint}
    (h : ∀ c ∈ cs, (f c).spread path ≤ c.spread path) : total path (cs.map f) ≤ total path cs := by
  induction cs with
  | nil => exact Nat.le_refl _
  | cons c cs ih =>
    rw [List.forall_mem_cons] at h
    exact Nat.add_le_add h.1 (ih h.2)

/-! ### Flattening and ordering -/

lemma product_pushNew_le : product path (pushNew acc c) ≤ product path acc * c.spread path := by
  rw [pushNew]
  split_ifs
  · exact Nat.le_mul_of_pos_right _ (one_le_spread path c)
  · simp [product_append, product]

lemma total_pushNew_le : total path (pushNew acc c) ≤ total path acc + c.spread path := by
  rw [pushNew]
  split_ifs
  · exact Nat.le_add_right _ _
  · simp [total_append, total]

mutual

theorem product_flattenConj_le (path : List Place) : ∀ (acc : List Constraint) (c : Constraint),
    product path (flattenConj acc c) ≤ product path acc * c.spread path
  | acc, .conj cs => by
    rw [flattenConj, spread_conj]
    exact product_flattenConjList_le path acc cs
  | acc, .any => by
    rw [flattenConj]
    exact Nat.le_mul_of_pos_right _ (one_le_spread path _)
  | acc, .kind _ | acc, .equals _ | acc, .bound _ _ | acc, .field _ _ | acc, .elements _
  | acc, .length _ | acc, .elementAt _ _ | acc, .disj _ | acc, .neg _ | acc, .fix _ | acc, .bvar _
  | acc, .ref _ | acc, .var _ | acc, .never => by
    rw [flattenConj]
    · exact product_pushNew_le
    all_goals simp

theorem product_flattenConjList_le (path : List Place) : ∀ (acc cs : List Constraint),
    product path (flattenConjList acc cs) ≤ product path acc * product path cs
  | acc, [] => by simp [flattenConjList, product]
  | acc, c :: cs => by
    rw [flattenConjList, product, ← Nat.mul_assoc]
    exact (product_flattenConjList_le path _ cs).trans
      (Nat.mul_le_mul_right _ (product_flattenConj_le path acc c))

end

mutual

theorem total_flattenDisj_le : ∀ (acc : List Constraint) (c : Constraint),
    total path (flattenDisj acc c) ≤ total path acc + c.spread path
  | acc, .disj cs => by
    rw [flattenDisj, spread_disj]
    exact (total_flattenDisjList_le acc cs).trans (Nat.add_le_add_left (Nat.le_max_right _ _) _)
  | acc, .never => by
    rw [flattenDisj]
    exact Nat.le_add_right _ _
  | acc, .kind _ | acc, .equals _ | acc, .bound _ _ | acc, .field _ _ | acc, .elements _
  | acc, .length _ | acc, .elementAt _ _ | acc, .conj _ | acc, .neg _ | acc, .fix _ | acc, .bvar _
  | acc, .ref _ | acc, .var _ | acc, .any => by
    rw [flattenDisj]
    · exact total_pushNew_le
    all_goals simp

theorem total_flattenDisjList_le : ∀ (acc cs : List Constraint),
    total path (flattenDisjList acc cs) ≤ total path acc + total path cs
  | acc, [] => by simp [flattenDisjList, total]
  | acc, c :: cs => by
    rw [flattenDisjList, total, ← Nat.add_assoc]
    exact (total_flattenDisjList_le _ cs).trans
      (Nat.add_le_add_right (total_flattenDisj_le acc c) _)

end

lemma product_flatten_le : product path (flattenConjList [] cs) ≤ product path cs := by
  simpa [product] using product_flattenConjList_le path [] cs

lemma product_dedup_sort_le : product path (dedup (sort cs)) ≤ product path cs := by
  refine (product_le_of_sublist path (dedup_sublist _)).trans (Nat.le_of_eq ?_)
  rw [product_eq, product_eq, ((sort_perm cs).map _).prod_eq]

lemma total_dedup_sort_le : total path (dedup (sort cs)) ≤ total path cs := by
  refine (total_le_of_sublist (dedup_sublist _)).trans (Nat.le_of_eq ?_)
  rw [total_eq, total_eq, ((sort_perm cs).map _).sum_eq]

lemma spread_finishConj_le : (finishConj cs).spread path ≤ product path cs := by
  refine Nat.le_trans ?_ product_dedup_sort_le
  rw [finishConj]
  split
  · simpa using one_le_product path _
  · next h => simp [h, product]
  · simp

lemma spread_finishDisj_le : (finishDisj cs).spread path ≤ max 1 (total path cs) := by
  refine Nat.le_trans ?_ (max_le_max_left 1 total_dedup_sort_le)
  rw [finishDisj]
  split
  · simp
  · next h => simp [h, total]
  · simp

lemma total_mergeBools_le : total path (mergeBools cs) ≤ total path cs := by
  rw [mergeBools]
  split_ifs with h
  · -- one truth value makes room for the kind of both
    obtain ⟨c, hc, hcb⟩ := List.any_eq_true.mp (Bool.and_eq_true_iff.mp h).1
    let other : Constraint → Bool := fun c => !(c == ofBool true) && !(c == ofBool false)
    have hsplit : total path (cs.filter other) + total path (cs.filter fun c => !other c) =
        total path cs := by
      rw [← total_append, total_eq, total_eq,
        ((List.filter_append_perm other cs).map (spread path)).sum_eq]
    have hpos : 1 ≤ total path (cs.filter fun c => !other c) := by
      refine Nat.le_trans ?_ (length_le_total path _)
      exact List.length_pos_of_mem (List.mem_filter.mpr ⟨hc, by simp [other, hcb]⟩)
    have hkind : (kind .bool).spread path = 1 := spread_kind
    have hpush : total path (pushNew (cs.filter other) (.kind .bool)) ≤ _ := total_pushNew_le
    change total path (pushNew (cs.filter other) (.kind .bool)) ≤ total path cs
    omega
  · exact Nat.le_refl _

/-! ### Distribution -/

lemma total_branchesOf_le : total path (branchesOf c) ≤ c.spread path := by
  cases c with
  | disj cs => simp [branchesOf]
  | _ => simp [branchesOf, total]

lemma branchCount_le_product : branchCount cs ≤ product path cs := by
  rw [branchCount_eq_prod]
  refine Nat.le_trans ?_ (product_le_of_sublist path (List.filter_sublist (p := isDisj)))
  induction cs.filter isDisj with
  | nil => exact Nat.le_refl _
  | cons d ds ih =>
    rw [List.map_cons, List.prod_cons, product]
    exact Nat.mul_le_mul ((length_le_total path _).trans total_branchesOf_le) ih

lemma sum_product_combinations_le (start ds : List Constraint) :
    ((combinations start ds).map (product path)).sum ≤ product path start * product path ds := by
  have hi : ∀ combos : List (List Constraint), ((ds.foldl extendCombos combos).map
      (product path)).sum ≤ (combos.map (product path)).sum * product path ds := by
    induction ds with
    | nil => simp [product]
    | cons d ds ih =>
      intro combos
      have hextend : ((extendCombos combos d).map (product path)).sum =
          (combos.map (product path)).sum * total path (branchesOf d) := by
        simp only [extendCombos]
        induction combos with
        | nil => simp
        | cons combo combos ih =>
          have hcombo : ((branchesOf d).map fun b => product path (combo ++ [b])).sum =
              product path combo * total path (branchesOf d) := by
            simp [product_append, product, total_eq, List.sum_map_mul_left]
          simp [List.flatMap_cons, ih, hcombo, Nat.add_mul, Function.comp_def]
      rw [List.foldl_cons, product, ← Nat.mul_assoc]
      refine (ih _).trans (Nat.mul_le_mul_right _ ?_)
      rw [hextend]
      exact Nat.mul_le_mul_left _ total_branchesOf_le
  simpa [combinations_eq] using hi [start]

lemma product_filter_isDisj :
    product path (cs.filter fun c => !c.isDisj) * product path (cs.filter isDisj) =
      product path cs := by
  rw [Nat.mul_comm, ← product_append, product_eq, product_eq,
    ((List.filter_append_perm isDisj cs).map (spread path)).prod_eq]

lemma sum_product_alternatives_le :
    ((alternatives cs).map (product path)).sum ≤ product path cs := by
  rw [← product_filter_isDisj]
  exact sum_product_combinations_le _ _

end Counting

end Stagewise.Constraint
