import Stagewise.Proofs.Positive

/-! Simplifying a positive constraint keeps its values. Entailment between the branches that come up
is transitive, so that dropping each branch that another one covers is the same as dropping it only
where covering is transitive, and this loses nothing. -/

set_option autoImplicit false

namespace Stagewise.Constraint

open Answers

/-! ### The questions that come up -/

def IsPositive (c : Constraint) : Prop := ∀ d ∈ c.options, ∃ l, d.Positive l

def Question.IsDirect : Question → Prop
  | .normal c => c.IsPositive
  | .conj _ cs => ∃ l, Joint l cs
  | .disj cs => ∀ c ∈ cs, c.isDirect .union
  | .entails assumed a b => assumed = [] ∧ a.isDirect .union ∧ b.isDirect .union

section Asks

variable {q r : Question} {a b c : Constraint} {cs : List Constraint} {l : Layout}

lemma isPositive_disj : (disj cs).IsPositive ↔ ∀ c ∈ cs, ∃ l, c.Positive l := Iff.rfl

lemma Positive.isPositive (h : c.Positive l) : c.IsPositive := by
  cases c with
  | disj cs => exact fun d hd => ⟨l, positive_disj.mp h d hd⟩
  | never => exact fun d hd => absurd hd List.not_mem_nil
  | _ => exact fun d hd => ⟨l, List.mem_singleton.mp hd ▸ h⟩

lemma IsPositive.cases (h : c.IsPositive) :
    (∃ cs, c = .disj cs ∧ ∀ d ∈ cs, ∃ l, d.Positive l) ∨ ∃ l, c.Positive l := by
  cases c with
  | disj cs => exact Or.inl ⟨cs, rfl, h⟩
  | never => exact Or.inr ⟨fun _ => false, trivial⟩
  | _ => exact Or.inr (h _ (List.mem_singleton_self _))

lemma IsPositive.fits (h : c.IsPositive) : c.Fits .direct false .plain := by
  rcases h.cases with ⟨cs, rfl, hcs⟩ | ⟨l, hc⟩
  · exact fits_disj.mpr ⟨rfl, fun d hd => (hcs d hd).elim fun _ hl => hl.fits⟩
  · exact hc.fits

lemma IsPositive.isPlain (h : c.IsPositive) : c.IsPlain :=
  ⟨isRecursionFree_of_isFixFree h.fits.isFixFree, h.fits.isWellFormed⟩

lemma Question.IsDirect.isPlain (h : q.IsDirect) : q.IsPlain := by
  cases q with
  | normal c =>
    simpa [Question.IsPlain, Question.constraints] using IsPositive.isPlain (c := c) h
  | conj unroll cs =>
    obtain ⟨l, hcs⟩ := h
    exact hcs.isPlain unroll
  | disj cs => exact fun c hc => isPlain_of_isDirect (h c hc)
  | entails assumed a b =>
    simpa [Question.IsPlain, Question.constraints] using
      ⟨isPlain_of_isDirect h.2.1, isPlain_of_isDirect h.2.2⟩

lemma isDirect_part (h : (conj cs).isDirect .union) (hc : c ∈ cs) : c.isDirect .union := by
  have hb : (conj cs).isDirect .branch := by simpa only [isDirect] using h
  exact isDirect_union (isDirect_branch ((isDirect_conj.mp hb).2.2 c hc))

lemma isDirect_branchOf (h : (disj cs).isDirect .union) (hc : c ∈ cs) : c.isDirect .union :=
  isDirect_union ((isDirect_disj.mp h).2 c hc)

lemma isDirect_compares (ha : a.isDirect .union) (hb : b.isDirect .union)
    (hq : settled.Compares [] a b q) : q.IsDirect := by
  have hfew {xs : List Constraint} {i : Nat} (h : (conj xs).isDirect .union) :
      ¬ 2 ≤ (statementsAt i xs).length := by
    have hx : (conj xs).isDirect .branch := by simpa only [isDirect] using h
    have := length_statementsAt_le_one (isDirect_conj.mp hx).2.1 i
    omega
  cases hq with
  | fromBranch hx => exact ⟨rfl, isDirect_branchOf ha hx, hb⟩
  | toMember hy => exact ⟨rfl, ha, isDirect_part hb hy⟩
  | toBranch hy => exact ⟨rfl, ha, isDirect_branchOf hb hy⟩
  | fromMember hx => exact ⟨rfl, isDirect_part ha hx, hb⟩
  | item hx =>
    exact ⟨rfl, by simpa [isDirect] using isDirect_part ha hx, by simpa [isDirect] using hb⟩
  | statements h | stated h => exact absurd h (hfew ha)
  | inField | inElements | inElementAt =>
    exact ⟨rfl, by simpa [isDirect] using ha, by simpa [isDirect] using hb⟩
  | lengths | length | inLength => simp [isDirect] at hb
  | contrary | contradiction => simp [isDirect] at hb
  | unfoldLeft => simp [isDirect] at ha
  | unfoldRight => simp [isDirect] at hb
  | assume h =>
    rcases h.recursive with ⟨body, rfl⟩ | ⟨body, rfl⟩
    · simp [isDirect] at ha
    · simp [isDirect] at hb

lemma Joint.not_weighs {unroll : Bool} {ds : List Constraint} (h : Joint l cs) :
    ¬ settled.Weighs unroll cs ds c := by
  intro hw
  have hmembers := h.members_of_opens hw.opens hw.whole
  obtain ⟨common, hg⟩ := hw.gathers
  have hes := (gather_spec hmembers (fun p _ =>
    (Joint.part hmembers h.flatten.few p).yields unroll) hg).1
  simpa [isDirect] using (hes _ hw.negated).direct

lemma Joint.asks {unroll : Bool} (h : Joint l cs) (ha : settled.Asks (.conj unroll cs) r) :
    r.IsDirect := by
  cases ha with
  | unfold _ _ hc hu =>
    rw [(h.flatten.formed _ hc).not_isUnrollable] at hu
    exact absurd hu Bool.false_ne_true
  | unfolded _ _ hu =>
    obtain ⟨c, hc, hu⟩ := List.any_eq_true.mp hu
    rw [(h.flatten.formed c hc).not_isUnrollable] at hu
    exact absurd hu Bool.false_ne_true
  | alternative _ _ hc => exact ⟨l, h.flatten.alternative hc⟩
  | distributed =>
    exact List.forall_mem_map.mpr fun combo hc =>
      ((h.flatten.alternative hc).yields unroll).formed.direct
  | group ho hd hg hmany =>
    have hmembers := h.members_of_opens ho hd
    obtain ⟨p, rfl⟩ := (mem_groups_iff hmembers (by rintro rfl; simp at hmany)).mp hg
    exact ⟨l.below p, Joint.part hmembers h.flatten.few p⟩
  | reach ho hd hne => exact absurd (lengths_eq_nil (h.members_of_opens ho hd)) hne
  | context hw | entailed hw | excluded hw => exact absurd hw h.not_weighs

lemma Positive.asks (h : c.Positive l) (ha : settled.Asks (.normal c) r) : r.IsDirect := by
  cases ha with
  | part hd =>
    cases c with
    | field name d =>
      obtain rfl := List.mem_singleton.mp hd
      exact Positive.isPositive (l := l.below (.field name)) h
    | elements d | elementAt i d =>
      obtain rfl := List.mem_singleton.mp hd
      exact h.2.isPositive
    | conj cs => exact ((positive_conj.mp h).2 _ hd).isPositive
    | disj cs => exact (positive_disj.mp h _ hd).isPositive
    | length | neg | fix => exact absurd h (by simp [Positive])
    | _ => simp [children] at hd
  | members cs =>
    rw [settled_normal]
    exact ⟨l, joint_simplify h.1 (AllPositive.simplifies h.2)⟩
  | branches cs =>
    rw [settled_normal]
    exact List.forall_mem_map.mpr fun c hc => (positive_disj.mp h c hc).simplifies.formed.direct
  | count => exact absurd h (by simp [Positive])

lemma IsPositive.asks (h : c.IsPositive) (ha : settled.Asks (.normal c) r) : r.IsDirect := by
  rcases h.cases with ⟨cs, rfl, hcs⟩ | ⟨l, hc⟩
  · cases ha with
    | part hd =>
      obtain ⟨l, hl⟩ := hcs _ hd
      exact hl.isPositive
    | branches =>
      rw [settled_normal]
      refine List.forall_mem_map.mpr fun d hd => ?_
      obtain ⟨l, hl⟩ := hcs d hd
      exact hl.simplifies.formed.direct
  · exact hc.asks ha

lemma isDirect_compared (h : ∀ c ∈ cs, c.isDirect .union) :
    ∀ c ∈ mergeBools (flattenDisjList [] cs), c.isDirect .union :=
  forall_mem_mergeBools rfl (forall_mem_flattenDisjList (T := (·.isDirect .union))
    (fun h _ hc => isDirect_branchOf h hc) (fun h _ _ => h) (by simp) h)

theorem Question.IsDirect.asks (h : q.IsDirect) (ha : settled.Asks q r) : r.IsDirect := by
  cases q with
  | normal c => exact IsPositive.asks h ha
  | conj unroll cs =>
    obtain ⟨l, hcs⟩ := h
    exact hcs.asks ha
  | disj cs =>
    cases ha with
    | covers hc hd => exact ⟨rfl, isDirect_compared h _ hc, isDirect_compared h _ hd⟩
  | entails assumed a b =>
    obtain ⟨rfl, hab⟩ := h
    cases ha with
    | compare _ hc => exact isDirect_compares hab.1 hab.2 hc

end Asks

/-! ### Choosing branches -/

/-- Every branch that another one covers is dropped where covering is transitive, else none. -/
def keepTransitive : Choice := fun entails cs =>
  if ∀ a ∈ cs, ∀ b ∈ cs, ∀ c ∈ cs, entails a b → entails b c → entails a c then
    uncovered entails [] cs
  else cs

lemma safe_keepTransitive : keepTransitive.Safe where
  subset entails cs := by
    rw [keepTransitive]
    split_ifs
    · exact (uncovered_sublist _ _ _).subset
    · exact List.Subset.refl cs
  reaches entails cs c hc := by
    rw [keepTransitive]
    split_ifs with htrans
    · obtain ⟨d, hd, -, hr⟩ : ∃ d ∈ uncovered entails [] cs, d ∈ cs ∧
          Relation.ReflTransGen (fun a b => b ∈ cs ∧ entails a b) c d :=
        exists_mem_uncovered (fun a b c _ ha hb hc => htrans a ha.1 b hb.1 c hc.1)
          (fun a _ b hb ha hab => ⟨hb, ha.2.tail ⟨hb, hab⟩⟩) hc ⟨hc, .refl⟩ (by simp)
      exact ⟨d, hd, hr⟩
    · exact ⟨c, hc, .refl⟩

lemma suits_keepTransitive : Suits .direct keepTransitive :=
  ⟨fun _ => rfl, fun _ => safe_keepTransitive⟩

namespace Answers

def choosing (keep : Choice) (n : Nat) : Answers :=
  ⟨normalizeBy keep n, conjunctionBy keep n, disjunctionBy keep n, entailsBy keep n⟩

lemma choosing_succ (keep : Choice) (n : Nat) : choosing keep (n + 1) =
    { (choosing keep n).step with disj := (choosing keep (n + 1)).disj } := by
  refine Answers.mk.injEq .. ▸ ⟨funext fun c => ?_, funext₂ fun u cs => ?_, rfl, rfl⟩
  · cases c <;> rfl
  · simp only [choosing, conjunctionBy, step]
    split_ifs
    · rfl
    · rfl
    · rfl
    · cases distribute? (conjunctionBy keep n u) (disjunctionBy keep n) (flattenConjList [] cs) <;>
        rfl

end Answers

section Agreement

variable {q : Question} {c : Constraint} {cs : List Constraint} {n : Nat} {l : Layout}

lemma keepTransitive_eq {entails : Constraint → Constraint → Bool}
    (hcs : ∀ c ∈ cs, c.isDirect .union)
    (h : ∀ a ∈ cs, ∀ b ∈ cs, settled.entails [] a b = entails a b) :
    keepTransitive entails cs = uncovered entails [] cs := by
  refine if_pos fun a ha b hb c hc hab hbc => ?_
  rw [← h a ha b hb] at hab
  rw [← h b hb c hc] at hbc
  rw [← h a ha c hc]
  exact links_of_isDirect (hcs b hb) a c (hcs a ha) (hcs c hc) hab hbc

theorem settled_agree_choosing (hq : q.IsDirect) (hn : q.rank < n) :
    settled.Agree (choosing keepTransitive n) q := by
  induction n generalizing q with
  | zero => exact absurd hn (Nat.not_lt_zero _)
  | succ n ih =>
    have hasks : ∀ r, settled.Asks q r → settled.Agree (choosing keepTransitive n) r :=
      fun r hr => ih (hq.asks hr) (by have := (hq.isPlain.asks hr).2; omega)
    have hstep : settled.Agree (choosing keepTransitive n).step q :=
      (settled_step_agree hq.isPlain).symm.trans (step_agree hasks)
    refine hstep.trans ?_
    rw [choosing_succ]
    cases q with
    | normal | conj | entails => rfl
    | disj cs =>
      have hkeep := keepTransitive_eq (isDirect_compared hq) fun a ha b hb =>
        hasks _ (.covers ha hb)
      have hdisj : (choosing keepTransitive (n + 1)).disj cs =
          if (flattenDisjList [] cs).any isAny then .any
          else finishDisj (keepTransitive ((choosing keepTransitive n).entails [])
            (mergeBools (flattenDisjList [] cs))) := rfl
      rw [Answers.Agree, hdisj, hkeep]
      rfl

theorem IsPositive.isNormal_simplify (h : c.IsPositive) : IsNormal .direct .plain c.simplify c := by
  have hagree : settled.normal c = (choosing keepTransitive _).normal c :=
    settled_agree_choosing (q := .normal c) h
      (Nat.lt_of_lt_of_le (Nat.lt_succ_self _) (Nat.le_max_left _ c.size))
  rw [← settled_normal, hagree]
  exact (soundAt suits_keepTransitive _).normalize .plain c h.fits (Or.inl (Nat.le_max_right _ _))

lemma IsPositive.isDirect_simplify (h : c.IsPositive) : c.simplify.isDirect .union := by
  rcases h.cases with ⟨cs, rfl, hcs⟩ | ⟨l, hc⟩
  · have hdirect : ∀ c ∈ cs.map simplify, c.isDirect .union := by
      refine List.forall_mem_map.mpr fun d hd => ?_
      obtain ⟨l, hl⟩ := hcs d hd
      exact hl.simplifies.formed.direct
    have heq : settled.step.normal (.disj cs) = settled.normal (.disj cs) :=
      settled_step_agree (q := .normal (.disj cs)) (Question.IsDirect.isPlain h)
    have hstep : settled.step.normal (.disj cs) = settled.disj (cs.map settled.normal) := rfl
    rw [← settled_normal, ← heq, hstep, settled_normal, ← settled_step_disj hdirect]
    exact (direct_step_disj (P := fun _ => True) ⟨trivial, trivial, trivial, by simp⟩ settled
      fun c hc => ⟨hdirect c hc, trivial⟩).1
  · exact hc.simplifies.formed.direct

lemma IsPositive.admits_simplify_disj {v : Value} (h : (disj cs).IsPositive)
    (hv : v.isWellFormed) : (disj cs).simplify.admits v ↔ ∃ c ∈ cs, c.admits v := by
  have hnormal := h.isNormal_simplify
  generalize (disj cs).simplify = d at hnormal ⊢
  rw [hnormal.tidy.admits_iff fun _ => True, hnormal.holds _ v ⟨hv, by simp [Fragment.direct]⟩,
    holds_disj]
  exact exists_congr fun c => and_congr_right fun hc =>
    (((fits_disj.mp h.fits).2 c hc).admits_iff _).symm

lemma IsPositive.not_holds_of_disjoint {a b : Constraint} (h : (conj [a, b]).IsPositive)
    (hd : a.disjoint b) {X : Value → Prop} {v : Value} (hv : v.isWellFormed) :
    ¬ (a.Holds X v ∧ b.Holds X v) := by
  have hholds := h.isNormal_simplify.holds X v ⟨hv, by simp [Fragment.direct]⟩
  rw [disjoint, unify] at hd
  generalize (conj [a, b]).simplify = d at hd hholds
  rw [eq_never_of_isNever hd] at hholds
  exact fun hall => hholds.mpr (by simpa using hall)

end Agreement

end Stagewise.Constraint
