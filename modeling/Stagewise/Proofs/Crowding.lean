import Stagewise.Proofs.Nesting

/-! Conjunctions with too many branches to be distributed. Their disjunctions stay as they are, and
they stay when the conjunction is put in order and when further conjuncts join it, so nothing
inside them ever comes to the surface. -/

set_option autoImplicit false

namespace Stagewise.Constraint

variable {acc cs ds : List Constraint} {c d : Constraint}

/-! ### Counting branches -/

lemma foldl_mul_eq_prod (f : Constraint → Nat) (ds : List Constraint) (n : Nat) :
    ds.foldl (fun acc d => acc * f d) n = n * (ds.map f).prod := by
  induction ds generalizing n with
  | nil => simp
  | cons d ds ih => simp [ih, Nat.mul_assoc]

lemma branchCount_eq_prod (cs : List Constraint) :
    branchCount cs = ((cs.filter isDisj).map fun d => (branchesOf d).length).prod := by
  rw [branchCount, foldl_mul_eq_prod, Nat.one_mul]

lemma branchCount_append (cs ds : List Constraint) :
    branchCount (cs ++ ds) = branchCount cs * branchCount ds := by
  simp only [branchCount_eq_prod, List.filter_append, List.map_append, List.prod_append]

lemma branchCount_eq_of_perm (h : (cs.filter isDisj).Perm (ds.filter isDisj)) :
    branchCount cs = branchCount ds := by
  rw [branchCount_eq_prod, branchCount_eq_prod]
  exact (h.map _).prod_eq

lemma length_combinations (start ds : List Constraint) :
    (combinations start ds).length = (ds.map fun d => (branchesOf d).length).prod := by
  rw [combinations_eq]
  have hi : ∀ combos : List (List Constraint), (ds.foldl extendCombos combos).length =
      combos.length * (ds.map fun d => (branchesOf d).length).prod := by
    induction ds with
    | nil => simp
    | cons d ds ih =>
      intro combos
      have hextend : (extendCombos combos d).length = combos.length * (branchesOf d).length := by
        simp [extendCombos, List.length_flatMap]
      rw [List.foldl_cons, ih, hextend, List.map_cons, List.prod_cons, Nat.mul_assoc]
  simpa using hi [start]

def Crowded (cs : List Constraint) : Prop := branchCount cs = 0 ∨ maxBranches < branchCount cs

lemma Crowded.append (h : Crowded cs) (ds : List Constraint) : Crowded (cs ++ ds) := by
  simp only [Crowded, branchCount_append]
  rcases h with h | h
  · exact Or.inl (by simp [h])
  · by_cases hd : branchCount ds = 0
    · exact Or.inl (by simp [hd])
    · exact Or.inr (Nat.lt_of_lt_of_le h (Nat.le_mul_of_pos_right _ (Nat.pos_of_ne_zero hd)))

lemma crowded_of_not_isDistributed (h : isDistributed cs = false) :
    cs.filter isDisj = [] ∨ Crowded cs := by
  simp only [isDistributed, Bool.not_eq_false', Bool.or_eq_true, List.isEmpty_iff,
    decide_eq_true_eq] at h
  exact h.imp_right Or.inr

lemma Crowded.alternatives_eq_nil (h : Crowded cs) (hd : isDistributed cs) :
    alternatives cs = [] := by
  simp only [isDistributed, Bool.not_eq_true', Bool.or_eq_false_iff, decide_eq_false_iff_not] at hd
  have hzero : branchCount cs = 0 := h.resolve_right hd.2
  rw [branchCount_eq_prod, ← length_combinations (cs.filter fun c => !c.isDisj)] at hzero
  exact List.length_eq_zero_iff.mp hzero

/-! ### Different disjunctions -/

def Apart (a b : Constraint) : Prop := (a == b) = false ∧ (b == a) = false

lemma Apart.symm {a b : Constraint} (h : Apart a b) : Apart b a := ⟨h.2, h.1⟩

lemma isDisj_of_same (h : c == d) (hd : d.isDisj) : c.isDisj := by
  obtain ⟨ds, rfl⟩ := isDisj_iff.mp hd
  cases c with
  | disj _ => rfl
  | _ => exact absurd h Bool.false_ne_true

lemma flattenConj_of_isFlat (h : c.isFlat) : flattenConj acc c = pushNew acc c := by
  cases c <;> first | rfl | exact absurd h Bool.false_ne_true

lemma prefix_pushNew : acc <+: pushNew acc c := by
  simp only [pushNew]
  split_ifs
  · exact List.prefix_refl acc
  · exact List.prefix_append acc [c]

mutual

theorem prefix_flattenConj : ∀ (c : Constraint) (acc : List Constraint), acc <+: flattenConj acc c
  | .conj cs, acc => by
    rw [flattenConj]
    exact prefix_flattenConjList cs acc
  | .any, acc => by rw [flattenConj]
  | .kind _, _ | .equals _, _ | .bound _ _, _ | .field _ _, _ | .elements _, _ | .length _, _
  | .elementAt _ _, _ | .disj _, _ | .neg _, _ | .fix _, _ | .bvar _, _ | .ref _, _ | .var _, _
  | .never, _ => by
    rw [flattenConj_of_isFlat rfl]
    exact prefix_pushNew

theorem prefix_flattenConjList : ∀ (cs acc : List Constraint), acc <+: flattenConjList acc cs
  | [], acc => by rw [flattenConjList]
  | c :: cs, acc => by
    rw [flattenConjList]
    exact (prefix_flattenConj c acc).trans (prefix_flattenConjList cs _)

end

lemma pairwise_pushNew (h : acc.Pairwise fun a b => (a == b) = false) :
    (pushNew acc c).Pairwise fun a b => (a == b) = false := by
  simp only [pushNew]
  split_ifs with hany
  · exact h
  · rw [List.pairwise_append]
    refine ⟨h, List.pairwise_singleton _ _, fun a ha b hb => ?_⟩
    rw [List.mem_singleton] at hb
    subst hb
    simp only [List.any_eq_true, not_exists, not_and, Bool.not_eq_true] at hany
    exact hany a ha

mutual

theorem pairwise_flattenConj : ∀ (c : Constraint) {acc : List Constraint},
    acc.Pairwise (fun a b => (a == b) = false) →
      (flattenConj acc c).Pairwise fun a b => (a == b) = false
  | .conj cs, _, h => by
    rw [flattenConj]
    exact pairwise_flattenConjList cs h
  | .any, _, h => by rwa [flattenConj]
  | .kind _, _, h | .equals _, _, h | .bound _ _, _, h | .field _ _, _, h | .elements _, _, h
  | .length _, _, h | .elementAt _ _, _, h | .disj _, _, h | .neg _, _, h | .fix _, _, h
  | .bvar _, _, h | .ref _, _, h | .var _, _, h | .never, _, h => by
    rw [flattenConj_of_isFlat rfl]
    exact pairwise_pushNew h

theorem pairwise_flattenConjList : ∀ (cs : List Constraint) {acc : List Constraint},
    acc.Pairwise (fun a b => (a == b) = false) →
      (flattenConjList acc cs).Pairwise fun a b => (a == b) = false
  | [], _, h => by rwa [flattenConjList]
  | c :: cs, _, h => by
    rw [flattenConjList]
    exact pairwise_flattenConjList cs (pairwise_flattenConj c h)

end

lemma apart_flatten (h : ∀ c ∈ flattenConjList [] cs, c.isWellFormed) :
    ((flattenConjList [] cs).filter isDisj).Pairwise Apart := by
  have hp := (pairwise_flattenConjList cs (List.Pairwise.nil)).filter isDisj
  refine hp.imp_of_mem fun {a b} _ hb hab => ⟨hab, ?_⟩
  rw [Bool.eq_false_iff] at hab ⊢
  exact fun hba => hab (Constraint.same_symm (h b (List.mem_of_mem_filter hb)) hba)

/-! ### What ordering and flattening keep -/

lemma filter_pushNew (h : (acc.filter isDisj ++ [c].filter isDisj).Pairwise Apart) :
    (pushNew acc c).filter isDisj = acc.filter isDisj ++ [c].filter isDisj := by
  by_cases hc : c.isDisj
  · have hnew : acc.any (· == c) = false := by
      rw [List.any_eq_false]
      intro a ha hac
      have hd := isDisj_of_same hac hc
      have hap := (List.pairwise_append.mp h).2.2 a (List.mem_filter.mpr ⟨ha, hd⟩) c (by simp [hc])
      simp [hap.1] at hac
    simp [pushNew, hnew, List.filter_append]
  · simp only [pushNew]
    split_ifs <;> simp [List.filter_append, hc]

lemma filter_flattenConjList (hflat : ∀ c ∈ cs, c.isFlat)
    (h : ((acc ++ cs).filter isDisj).Pairwise Apart) :
    (flattenConjList acc cs).filter isDisj = (acc ++ cs).filter isDisj := by
  induction cs generalizing acc with
  | nil => simp [flattenConjList]
  | cons c cs ih =>
    rw [List.forall_mem_cons] at hflat
    have hsplit : (acc ++ c :: cs).filter isDisj =
        acc.filter isDisj ++ [c].filter isDisj ++ cs.filter isDisj := by
      rw [← List.filter_append, ← List.filter_append, List.append_assoc, List.singleton_append]
    rw [hsplit] at h ⊢
    have hpush := filter_pushNew (List.pairwise_append.mp h).1
    rw [flattenConjList, flattenConj_of_isFlat hflat.1, ih hflat.2, List.filter_append, hpush]
    rwa [List.filter_append, hpush]

lemma filter_dedupAfter {last : Constraint}
    (h : ((last :: cs).filter isDisj).Pairwise Apart) :
    (dedupAfter last cs).filter isDisj = cs.filter isDisj := by
  induction cs generalizing last with
  | nil => rfl
  | cons c cs ih =>
    have htail : ((c :: cs).filter isDisj).Pairwise Apart :=
      h.sublist ((List.sublist_cons_self last _).filter _)
    rw [dedupAfter]
    split_ifs with hs
    · have hc : c.isDisj = false := by
        rw [Bool.eq_false_iff]
        intro hc
        have hl := isDisj_of_same hs hc
        rw [List.filter_cons_of_pos hl, List.filter_cons_of_pos hc] at h
        have hap := (List.pairwise_cons.mp h).1 c List.mem_cons_self
        simp [hap.1] at hs
      have hskip : ((last :: cs).filter isDisj).Pairwise Apart :=
        h.sublist ((List.sublist_cons_self c cs).cons_cons last |>.filter _)
      rw [ih hskip, List.filter_cons_of_neg (by simp [hc])]
    · by_cases hc : c.isDisj
      · rw [List.filter_cons_of_pos hc, List.filter_cons_of_pos hc, ih htail]
      · rw [List.filter_cons_of_neg hc, List.filter_cons_of_neg hc, ih htail]

lemma filter_dedup (h : (cs.filter isDisj).Pairwise Apart) :
    (dedup cs).filter isDisj = cs.filter isDisj := by
  cases cs with
  | nil => rfl
  | cons c cs =>
    rw [dedup]
    by_cases hc : c.isDisj
    · rw [List.filter_cons_of_pos hc, List.filter_cons_of_pos hc, filter_dedupAfter h]
    · rw [List.filter_cons_of_neg hc, List.filter_cons_of_neg hc, filter_dedupAfter h]

lemma branchCount_flatten_finishConj (hflat : ∀ c ∈ cs, c.isFlat)
    (h : (cs.filter isDisj).Pairwise Apart) :
    branchCount (flattenConjList [] [finishConj cs]) = branchCount cs := by
  have hsort : ((sort cs).filter isDisj).Perm (cs.filter isDisj) := (sort_perm cs).filter _
  have hapart : ((sort cs).filter isDisj).Pairwise Apart :=
    (hsort.pairwise_iff fun hab => hab.symm).mpr h
  have hdedup : (dedup (sort cs)).filter isDisj = (sort cs).filter isDisj := filter_dedup hapart
  refine branchCount_eq_of_perm (List.Perm.trans (List.Perm.of_eq ?_) hsort)
  rw [← hdedup]
  have hmem : ∀ c ∈ dedup (sort cs), c.isFlat := fun c hc => hflat c (mem_of_mem_dedup_sort hc)
  rw [← hdedup] at hapart
  simp only [finishConj]
  split
  · next hd => rw [hd]; rfl
  · next c hd =>
    rw [hd] at hmem hapart ⊢
    exact filter_flattenConjList hmem hapart
  · exact @filter_flattenConjList [] _ hmem hapart

/-! ### What a conjunction exposes -/

def Exposes (flat : List Constraint) (r : Room) (h : Nat) : Prop :=
  (∀ c ∈ flat, c.Fills r h) ∨ Crowded flat ∧ ∀ c ∈ flat, c.isDisj = false → c.Fills r h

variable {r s : Room} {m h k : Nat}

lemma exposes_of_fills (hc : c.Fills r h) : Exposes (flattenConjList [] [c]) r h :=
  Or.inl fun d hd => (fills_flattenConjList (by simp) (by simpa using hc) d hd).1

lemma Exposes.cons (hx : Exposes (flattenConjList [] [c]) r h) (hd : d.Fills s k) (hrs : r.Le s)
    (hk : h ≤ k) : Exposes (flattenConjList [] [c, d]) s k := by
  have hpre := prefix_flattenConj d (flattenConjList [] [c])
  have heq : flattenConjList [] [c, d] = flattenConj (flattenConjList [] [c]) d := rfl
  rw [heq]
  rcases hx with hx | ⟨hcrowd, hx⟩
  · refine Or.inl (forall_mem_flattenConj (T := (·.Fills s k)) (fun h => h.members)
      (fun h _ => h) (fun e he => (hx e he).mono hrs hk) hd)
  · refine Or.inr ⟨?_, ?_⟩
    · obtain ⟨rest, hrest⟩ := hpre
      exact hrest ▸ hcrowd.append rest
    · exact forall_mem_flattenConj (T := (·.Fills s k))
        (P := fun e => e.isDisj = false → e.Fills s k) (fun h => h.members) (fun h _ _ => h)
        (fun e he hdisj => (hx e he hdisj).mono hrs hk) hd

end Stagewise.Constraint
