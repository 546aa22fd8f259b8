import Stagewise.Proofs.Range
import Stagewise.Proofs.Termination

/-! Entailment between direct constraints: unions of conjunctions of kinds, literals, bounds and
statements about fields and items, with one statement about each item. An entailment between them is
found branch by branch and conjunct by conjunct, bounds taken together as ranges, so that it is
transitive. -/

set_option autoImplicit false

namespace Stagewise

namespace Interval

variable {i j k : Interval} {a b c : Option Endpoint}

def startsWithin : Option Endpoint → Option Endpoint → Bool
  | _, none => true
  | none, some _ => false
  | some a, some b => b.value.lt a.value || (a.value.eq b.value && (b.inclusive || !a.inclusive))

def endsWithin : Option Endpoint → Option Endpoint → Bool
  | _, none => true
  | none, some _ => false
  | some a, some b => a.value.lt b.value || (a.value.eq b.value && (b.inclusive || !a.inclusive))

lemma isSubset_eq (i j : Interval) :
    i.isSubset j = (i.isEmpty || (startsWithin i.lo j.lo && endsWithin i.hi j.hi)) := by
  obtain ⟨lo, hi⟩ := i
  obtain ⟨lo', hi'⟩ := j
  cases lo <;> cases hi <;> cases lo' <;> cases hi' <;> rfl

lemma startsWithin_trans (h : startsWithin a b) (h' : startsWithin b c) : startsWithin a c := by
  rcases a with _ | a <;> rcases b with _ | b <;> rcases c with _ | c <;>
    simp_all only [startsWithin, Number.lt, Number.eq] <;> grind

lemma endsWithin_trans (h : endsWithin a b) (h' : endsWithin b c) : endsWithin a c := by
  rcases a with _ | a <;> rcases b with _ | b <;> rcases c with _ | c <;>
    simp_all only [endsWithin, Number.lt, Number.eq] <;> grind

lemma isEmpty_of_within (hs : startsWithin i.lo j.lo) (he : endsWithin i.hi j.hi)
    (hj : j.isEmpty) : i.isEmpty := by
  obtain ⟨lo, hi⟩ := i
  obtain ⟨lo', hi'⟩ := j
  rcases lo with _ | a <;> rcases hi with _ | b <;> rcases lo' with _ | c <;>
    rcases hi' with _ | d <;>
    simp only [startsWithin, endsWithin, isEmpty, Number.lt, Number.eq] at * <;> grind

lemma isSubset_trans (h : i.isSubset j) (h' : j.isSubset k) : i.isSubset k := by
  simp only [isSubset_eq, Bool.or_eq_true, Bool.and_eq_true] at h h' ⊢
  rcases h with h | ⟨hs, he⟩
  · exact Or.inl h
  · rcases h' with h' | ⟨hs', he'⟩
    · exact Or.inl (isEmpty_of_within hs he h')
    · exact Or.inr ⟨startsWithin_trans hs hs', endsWithin_trans he he'⟩

lemma isSubset_full (i : Interval) : i.isSubset full := by
  simp [isSubset_eq, full, startsWithin, endsWithin]

lemma startsWithin_tighter (h : startsWithin a b) (h' : startsWithin a c) :
    startsWithin a (tighter (fun x y => y.lt x) b c) := by
  rcases a with _ | a <;> rcases b with _ | b <;> rcases c with _ | c <;>
    simp_all only [tighter, startsWithin, Number.lt, Number.eq]
  grind

lemma endsWithin_tighter (h : endsWithin a b) (h' : endsWithin a c) :
    endsWithin a (tighter Number.lt b c) := by
  rcases a with _ | a <;> rcases b with _ | b <;> rcases c with _ | c <;>
    simp_all only [tighter, endsWithin, Number.lt, Number.eq]
  grind

lemma isSubset_intersect (hj : i.isSubset j) (hk : i.isSubset k) : i.isSubset (j.intersect k) := by
  simp only [isSubset_eq, Bool.or_eq_true, Bool.and_eq_true, intersect] at hj hk ⊢
  rcases hj with hj | ⟨hs, he⟩
  · exact Or.inl hj
  · rcases hk with hk | ⟨hs', he'⟩
    · exact Or.inl hk
    · exact Or.inr ⟨startsWithin_tighter hs hs', endsWithin_tighter he he'⟩

lemma tighter_startsWithin (ha : IsProperEnd a) (hb : IsProperEnd b) :
    startsWithin (tighter (fun x y => y.lt x) a b) a ∧
      startsWithin (tighter (fun x y => y.lt x) a b) b := by
  rcases a with _ | a <;> rcases b with _ | b <;>
    simp_all only [tighter, startsWithin, IsProperEnd, Number.lt, Number.eq] <;> grind

lemma tighter_endsWithin (ha : IsProperEnd a) (hb : IsProperEnd b) :
    endsWithin (tighter Number.lt a b) a ∧ endsWithin (tighter Number.lt a b) b := by
  rcases a with _ | a <;> rcases b with _ | b <;>
    simp_all only [tighter, endsWithin, IsProperEnd, Number.lt, Number.eq] <;> grind

lemma intersect_isSubset (hi : i.IsProper) (hj : j.IsProper) :
    (i.intersect j).isSubset i ∧ (i.intersect j).isSubset j := by
  obtain ⟨hs, hs'⟩ := tighter_startsWithin hi.1 hj.1
  obtain ⟨he, he'⟩ := tighter_endsWithin hi.2 hj.2
  simp only [isSubset_eq, Bool.or_eq_true, Bool.and_eq_true]
  exact ⟨Or.inr ⟨hs, he⟩, Or.inr ⟨hs', he'⟩⟩

lemma point_isSubset {x : Number} (hx : x.isNaN = false) :
    (point x).isSubset i ↔ i.contains x := by
  obtain ⟨lo, hi⟩ := i
  rcases lo with _ | a <;> rcases hi with _ | b <;>
    simp only [isSubset_eq, isEmpty, point, startsWithin, endsWithin, contains_eq, clearsLow,
      clearsHigh, Number.lt, Number.eq, hx] <;> grind

end Interval

def Fragment.direct : Fragment := ⟨false, true, false, false, fun _ => false, false⟩

namespace Constraint

/-! ### Direct constraints -/

inductive Form where
  | union
  | branch
  | member

def meets : Constraint → Constraint → Bool
  | .elements _, .elements _ | .elements _, .elementAt _ _ | .elementAt _ _, .elements _ => true
  | .elementAt i _, .elementAt j _ => i == j
  | _, _ => false

mutual

/-- Unions of conjunctions of kinds, literals, bounds and statements about parts, with at most one
statement about each item. -/
def isDirect : Form → Constraint → Bool
  | _, .kind _ => true
  | _, .equals v => v.isWellFormed && !v.isNaN
  | _, .bound _ n => !n.isNaN
  | _, .field _ c | _, .elements c | _, .elementAt _ c => c.isDirect .union
  | .union, .any | .union, .never => true
  | .union, .disj cs => !cs.isEmpty && areDirect .branch cs
  | .union, .conj cs | .branch, .conj cs =>
    !cs.isEmpty && decide (cs.Pairwise fun c d => meets c d = false) && areDirect .member cs
  | _, _ => false
termination_by structural _ c => c

def areDirect : Form → List Constraint → Bool
  | _, [] => true
  | form, c :: cs => c.isDirect form && areDirect form cs
termination_by structural _ cs => cs

end

section Direct

variable {form : Form} {c d : Constraint} {cs : List Constraint}

lemma areDirect_iff : areDirect form cs ↔ ∀ c ∈ cs, c.isDirect form := by
  induction cs with
  | nil => simp [areDirect]
  | cons c cs ih => simp [areDirect, ih]

lemma isDirect_disj : (disj cs).isDirect .union ↔ cs ≠ [] ∧ ∀ c ∈ cs, c.isDirect .branch := by
  simp [isDirect, areDirect_iff]

lemma isDirect_conj : (conj cs).isDirect .branch ↔ cs ≠ [] ∧
    cs.Pairwise (fun c d => meets c d = false) ∧ ∀ c ∈ cs, c.isDirect .member := by
  simp [isDirect, areDirect_iff, and_assoc]

inductive IsMember : Constraint → Prop
  | kind (k : Kind) : IsMember (.kind k)
  | equals {v : Value} : v.isWellFormed → v.isNaN = false → IsMember (.equals v)
  | bound (r : Comparison) {n : Number} : n.isNaN = false → IsMember (.bound r n)
  | field (name : String) {c : Constraint} : c.isDirect .union → IsMember (.field name c)
  | elements {c : Constraint} : c.isDirect .union → IsMember (.elements c)
  | elementAt (i : Nat) {c : Constraint} : c.isDirect .union → IsMember (.elementAt i c)

lemma isMember_of_isDirect (h : c.isDirect .member) : IsMember c := by
  cases c <;> simp only [isDirect, Bool.false_eq_true, Bool.and_eq_true, Bool.not_eq_true'] at h
  · exact .kind _
  · exact .equals h.1 h.2
  · exact .bound _ h
  · exact .field _ h
  · exact .elements h
  · exact .elementAt _ h

lemma isDirect_branch (h : c.isDirect .member) : c.isDirect .branch := by
  cases c <;> simp_all [isDirect]

lemma isDirect_union (h : c.isDirect .branch) : c.isDirect .union := by
  cases c <;> simp_all [isDirect]

lemma isElements_iff : c.isElements ↔ ∃ d, c = .elements d := by
  cases c <;> simp [isElements]

lemma countP_isElements_le (h : cs.Pairwise fun c d => meets c d = false) :
    cs.countP isElements ≤ 1 := by
  induction h with
  | nil => simp
  | @cons c cs hc _ ih =>
    rw [List.countP_cons]
    split_ifs with he
    · have hnone : cs.countP isElements = 0 := by
        rw [List.countP_eq_zero]
        intro d hd hde
        obtain ⟨x, rfl⟩ := isElements_iff.mp he
        obtain ⟨y, rfl⟩ := isElements_iff.mp hde
        have hm := hc _ hd
        simp [meets] at hm
      omega
    · exact ih

lemma length_statementsAt_le_one (h : cs.Pairwise fun c d => meets c d = false) (i : Nat) :
    (statementsAt i cs).length ≤ 1 := by
  induction h with
  | nil => simp [statementsAt]
  | @cons c cs hc _ ih =>
    -- with a statement in front there is none behind
    have hfirst : (∃ x, c = .elements x) ∨ (∃ x, c = .elementAt i x) →
        statementsAt i cs = [] := by
      intro hshape
      rw [List.eq_nil_iff_forall_not_mem]
      intro x hx
      rcases mem_statementsAt.mp hx with hx | hx
      · have hm := hc _ hx
        rcases hshape with ⟨y, rfl⟩ | ⟨y, rfl⟩ <;> simp [meets] at hm
      · have hm := hc _ hx
        rcases hshape with ⟨y, rfl⟩ | ⟨y, rfl⟩ <;> simp [meets] at hm
    cases c with
    | elements x =>
      have hnil := hfirst (.inl ⟨x, rfl⟩)
      simp only [statementsAt] at hnil ⊢
      simp [hnil]
    | elementAt j x =>
      by_cases hj : j = i
      · subst hj
        have hnil := hfirst (.inr ⟨x, rfl⟩)
        simp only [statementsAt] at hnil ⊢
        simp [hnil]
      · simpa [statementsAt, hj] using ih
    | _ => simpa [statementsAt] using ih

mutual

theorem tidy_of_isDirect : ∀ {c : Constraint} {form : Form}, c.isDirect form →
    c.Tidy .direct .plain
  | .kind _, _, _ => trivial
  | .equals v, _, h => by
    simp only [isDirect, Bool.and_eq_true, Bool.not_eq_true'] at h
    exact ⟨rfl, h.1, fun _ => h.2, by simp [Fragment.direct]⟩
  | .bound _ n, _, h => ⟨rfl, fun _ => by simpa [isDirect] using h⟩
  | .field _ c, _, h => by
    rw [Tidy, Fits, Fragment.below_plain]
    exact tidy_of_isDirect (c := c) (by simpa [isDirect] using h)
  | .elements c, _, h => tidy_of_isDirect (c := c) (by simpa [isDirect] using h)
  | .elementAt _ c, _, h => tidy_of_isDirect (c := c) (by simpa [isDirect] using h)
  | .any, _, _ | .never, _, _ => trivial
  | .disj cs, form, h => by
    cases form <;> simp only [isDirect, Bool.and_eq_true, Bool.false_eq_true] at h
    exact ⟨rfl, tidy_of_areDirect h.2⟩
  | .conj cs, form, h => by
    have hc : cs.Pairwise (fun c d => meets c d = false) ∧ areDirect .member cs := by
      cases form <;> simp_all [isDirect]
    exact ⟨fun _ => countP_isElements_le hc.1, tidy_of_areDirect hc.2⟩
  | .length _, form, h | .neg _, form, h | .fix _, form, h | .bvar _, form, h | .ref _, form, h
  | .var _, form, h => by simp [isDirect] at h

theorem tidy_of_areDirect : ∀ {cs : List Constraint} {form : Form}, areDirect form cs →
    AllFit .direct true cs .plain
  | [], _, _ => trivial
  | c :: cs, _, h => by
    simp only [areDirect, Bool.and_eq_true] at h
    exact ⟨tidy_of_isDirect h.1, tidy_of_areDirect h.2⟩

end

mutual

theorem isRecursionFree_of_isFixFree : ∀ {c : Constraint}, c.isFixFree → c.isRecursionFree
  | .field _ c, h | .elements c, h | .length c, h | .elementAt _ c, h | .neg c, h => by
    simp only [isFixFree] at h
    simpa only [isRecursionFree] using isRecursionFree_of_isFixFree h
  | .conj cs, h | .disj cs, h => by
    simp only [isFixFree] at h
    simpa only [isRecursionFree] using areRecursionFree_of_areFixFree h
  | .fix _, h => by simp [isFixFree] at h
  | .bvar _, _ | .equals _, _ | .kind _, _ | .bound _ _, _ | .ref _, _ | .var _, _ | .any, _
  | .never, _ => by simp only [isRecursionFree]

theorem areRecursionFree_of_areFixFree : ∀ {cs : List Constraint}, areFixFree cs →
    areRecursionFree cs
  | [], _ => by simp only [areRecursionFree]
  | c :: cs, h => by
    simp only [areFixFree, Bool.and_eq_true] at h
    simp only [areRecursionFree, Bool.and_eq_true]
    exact ⟨isRecursionFree_of_isFixFree h.1, areRecursionFree_of_areFixFree h.2⟩

end

lemma isPlain_of_isDirect (h : c.isDirect form) : c.IsPlain :=
  ⟨isRecursionFree_of_isFixFree (tidy_of_isDirect h).isFixFree, (tidy_of_isDirect h).isWellFormed⟩

end Direct

/-! ### Entailment between direct constraints -/

def Entailed (a b : Constraint) : Prop := Answers.settled.entails [] a b

section Entailed

variable {a b c x y : Constraint} {xs ys : List Constraint} {v : Value} {form form' : Form}

lemma implies_iff_entailed : a.implies b ↔ Entailed a.simplify b.simplify := by
  rw [Entailed, Answers.settled, implies]

lemma entailed_iff (ha : a.isDirect form) (hb : b.isDirect form') :
    Entailed a b ↔ entailsStep Answers.settled.normal (Answers.settled.conj false)
      Answers.settled.entails [] a b := by
  have hq : (Question.entails [] a b).IsPlain := by
    simpa [Question.IsPlain, Question.constraints] using
      ⟨isPlain_of_isDirect ha, isPlain_of_isDirect hb⟩
  have heq : entailsStep Answers.settled.normal (Answers.settled.conj false)
      Answers.settled.entails [] a b = Answers.settled.entails [] a b :=
    Answers.settled_step_agree hq
  rw [Entailed, heq]

lemma entailed_of_same (ha : a.isDirect form) (hb : b.isDirect form') (h : a == b) :
    Entailed a b := by
  rw [entailed_iff ha hb]
  unfold entailsStep
  rw [if_pos h]

lemma holds_iff_admits (h : c.isDirect form) : c.Holds (fun _ => True) v ↔ c.admits v :=
  ((tidy_of_isDirect h).admits_iff _).symm

lemma entailed_equals_member (hv : (equals v).isDirect .member) (hy : y.isDirect .member) :
    Entailed (.equals v) y ↔ y.Holds (fun _ => True) v := by
  have hstep : entailsStep Answers.settled.normal (Answers.settled.conj false)
      Answers.settled.entails [] (.equals v) y = ((equals v == y) || y.admits v) := by
    unfold entailsStep
    split_ifs with hs
    · rw [hs, Bool.true_or]
    · rw [eq_false_of_ne_true hs, Bool.false_or]
      cases isMember_of_isDirect hy <;> rfl
  rw [entailed_iff hv hy, hstep, Bool.or_eq_true, ← holds_iff_admits hy]
  -- identity is membership in the literal
  refine or_iff_right_of_imp fun hs => ?_
  cases isMember_of_isDirect hy with
  | equals => exact hs
  | _ => exact absurd hs Bool.false_ne_true

def conjuncts : Constraint → List Constraint
  | .conj cs => cs
  | c => [c]

lemma branch_cases (h : a.isDirect .branch) :
    (∃ xs, a = .conj xs) ∨ a.isDirect .member ∧ a.conjuncts = [a] := by
  cases a with
  | conj xs => exact Or.inl ⟨xs, rfl⟩
  | kind | equals | bound | field | elements | elementAt =>
    exact Or.inr ⟨by simp_all only [isDirect], rfl⟩
  | _ => simp [isDirect] at h

lemma isDirect_of_mem_conjuncts (h : a.isDirect .branch) (hx : x ∈ a.conjuncts) :
    x.isDirect .member := by
  rcases branch_cases h with ⟨xs, rfl⟩ | ⟨hm, hself⟩
  · exact (isDirect_conj.mp h).2.2 x hx
  · rw [hself, List.mem_singleton] at hx
    exact hx ▸ hm

def Bounds (xs : List Constraint) (y : Constraint) : Prop :=
  y.isNumeric ∧ (∃ x ∈ xs, x.kind? = some .number) ∧
    (Interval.of (.conj xs)).isSubset (Interval.of y)

lemma tupleLength?_eq_none (h : ∀ x ∈ xs, x.isDirect .member) : tupleLength? xs = none := by
  rw [Option.eq_none_iff_forall_ne_some]
  intro n hn
  obtain ⟨m, hm, _⟩ := mem_of_tupleLength? hn
  simpa [isDirect] using h _ hm

lemma conjEntails_iff {conj : List Constraint → Constraint}
    {entails : Constraint → Constraint → Bool} (hx : (Constraint.conj xs).isDirect .branch)
    (hy : y.isDirect .member) : conjEntails conj entails xs y ↔ Bounds xs y := by
  obtain ⟨_, hp, hm⟩ := isDirect_conj.mp hx
  cases isMember_of_isDirect hy with
  | kind k => simp [conjEntails, Bounds, isNumeric]
  | @equals v _ _ =>
    cases v <;> simp [conjEntails, Bounds, isNumeric, Interval.of, Interval.ofAtom?]
  | bound r _ => simp [conjEntails, Bounds, isNumeric, Interval.of, Interval.ofAtom?]
  | field => simp [conjEntails, Bounds, isNumeric]
  | elements => simp [conjEntails, Bounds, isNumeric, tupleLength?_eq_none hm]
  | elementAt i _ =>
    have hlen := length_statementsAt_le_one hp i
    have hfew : ¬ 2 ≤ (statementsAt i xs).length := by omega
    simp [conjEntails, Bounds, isNumeric, hfew]

/-- A conjunction entails what one of its members does, or a bound by the range they leave. -/
lemma entailed_conj_left (hx : (conj xs).isDirect .branch) (hy : y.isDirect .member) :
    Entailed (.conj xs) y ↔ (∃ x ∈ xs, Entailed x y) ∨ Bounds xs y := by
  have hstep : entailsStep Answers.settled.normal (Answers.settled.conj false)
      Answers.settled.entails [] (.conj xs) y =
        (xs.any (fun x => Answers.settled.entails [] x y) ||
          conjEntails (Answers.settled.conj false) (Answers.settled.entails []) xs y) := by
    cases isMember_of_isDirect hy <;> rfl
  rw [entailed_iff hx hy, hstep, Bool.or_eq_true, List.any_eq_true, conjEntails_iff hx hy]
  rfl

lemma entailed_member_iff (hx : x.isDirect .member) (hy : y.isDirect .member)
    (hv : ∀ v, x ≠ .equals v) :
    Entailed x y ↔ x == y ∨ atomEntails (Answers.settled.entails []) x y := by
  have hstep : entailsStep Answers.settled.normal (Answers.settled.conj false)
      Answers.settled.entails [] x y =
        ((x == y) || atomEntails (Answers.settled.entails []) x y) := by
    unfold entailsStep
    split_ifs with hs
    · rw [hs, Bool.true_or]
    · rw [eq_false_of_ne_true hs, Bool.false_or]
      cases isMember_of_isDirect hx with
      | equals => exact absurd rfl (hv _)
      | _ => cases isMember_of_isDirect hy <;> rfl
  rw [entailed_iff hx hy, hstep, Bool.or_eq_true]

lemma eq_number_of_refines {k : Kind} (h : k.refines .number) : k = .number := by
  cases k <;> first | rfl | exact absurd h Bool.false_ne_true

lemma entailed_kind_member {k : Kind} (hx : x.isDirect .member) :
    Entailed x (.kind k) ↔ ∃ l, x.kind? = some l ∧ l.refines k := by
  have hk : (kind k).isDirect .member := by simp [isDirect]
  by_cases hv : ∃ v, x = .equals v
  · obtain ⟨v, rfl⟩ := hv
    rw [entailed_equals_member hx hk]
    simp [Holds, kind?]
  · rw [entailed_member_iff hx hk (by simpa using hv)]
    have hatom : atomEntails (Answers.settled.entails []) x (.kind k) ↔
        ∃ l, x.kind? = some l ∧ l.refines k := by
      cases hx : x.kind? <;> simp [atomEntails, hx]
    rw [hatom]
    refine or_iff_right_of_imp fun hs => ?_
    cases isMember_of_isDirect hx with
    | kind l =>
      obtain rfl : l = k := by simpa [BEq.beq, same] using hs
      exact ⟨l, rfl, Kind.refines_refl l⟩
    | _ => exact absurd hs Bool.false_ne_true

lemma entailed_iff_exists_conjunct (ha : a.isDirect .branch) (hy : y.isDirect .member)
    (hn : y.isNumeric = false) : Entailed a y ↔ ∃ x ∈ a.conjuncts, Entailed x y := by
  rcases branch_cases ha with ⟨xs, rfl⟩ | ⟨_, hself⟩
  · have hb : ¬ Bounds xs y := by simp [Bounds, hn]
    rw [entailed_conj_left ha hy, or_iff_left hb]
    rfl
  · simp [hself]

/-! ### Ranges -/

def IsNumber (a : Constraint) : Prop := ∃ x ∈ a.conjuncts, x.kind? = some .number

lemma entailed_number_iff (ha : a.isDirect .branch) : Entailed a (.kind .number) ↔ a.IsNumber := by
  rw [entailed_iff_exists_conjunct ha (by simp [isDirect]) rfl]
  refine exists_congr fun x => and_congr_right fun hx => ?_
  rw [entailed_kind_member (isDirect_of_mem_conjuncts ha hx)]
  constructor
  · rintro ⟨l, hl, hr⟩
    rw [hl, eq_number_of_refines hr]
  · exact fun hl => ⟨_, hl, Kind.refines_refl _⟩

lemma isProper_of_isDirect (h : c.isDirect form) : (Interval.of c).IsProper :=
  isProper_of_hasProperUnions (tidy_of_isDirect h).hasProperUnions

lemma ofConj_isSubset (hx : ∀ x ∈ xs, x.isDirect .member) {acc i : Interval} (hp : acc.IsProper)
    (ha : acc.isSubset i) : (Interval.ofConj acc xs).isSubset i := by
  induction xs generalizing acc with
  | nil => rwa [Interval.ofConj]
  | cons x xs ih =>
    rw [List.forall_mem_cons] at hx
    have hp' := isProper_of_isDirect hx.1
    rw [Interval.ofConj]
    exact ih hx.2 (hp.intersect hp')
      (Interval.isSubset_trans (Interval.intersect_isSubset hp hp').1 ha)

lemma ofConj_isSubset_member (hx : ∀ x ∈ xs, x.isDirect .member) {acc : Interval}
    (hp : acc.IsProper) (hy : y ∈ xs) : (Interval.ofConj acc xs).isSubset (Interval.of y) := by
  induction xs generalizing acc with
  | nil => simp at hy
  | cons x xs ih =>
    rw [List.forall_mem_cons] at hx
    have hp' := isProper_of_isDirect hx.1
    rw [Interval.ofConj]
    rcases List.mem_cons.mp hy with rfl | hy
    · exact ofConj_isSubset hx.2 (hp.intersect hp') (Interval.intersect_isSubset hp hp').2
    · exact ih hx.2 (hp.intersect hp') hy

lemma isSubset_ofConj {i acc : Interval} (ha : i.isSubset acc)
    (h : ∀ x ∈ xs, i.isSubset (Interval.of x)) : i.isSubset (Interval.ofConj acc xs) := by
  induction xs generalizing acc with
  | nil => rwa [Interval.ofConj]
  | cons x xs ih =>
    rw [List.forall_mem_cons] at h
    rw [Interval.ofConj]
    exact ih (Interval.isSubset_intersect ha h.1) h.2

lemma ofBound_isSubset {r : Comparison} {m n : Number} (h : m.eq n) :
    (Interval.ofBound r m).isSubset (Interval.ofBound r n) := by
  cases r <;> simp_all [Interval.isSubset, Interval.ofBound, Interval.isEmpty]

inductive IsRange : Constraint → Prop
  | bound (r : Comparison) {n : Number} : n.isNaN = false → IsRange (.bound r n)
  | point {n : Number} : n.isNaN = false → IsRange (.equals (.number n))

lemma isRange_of_isNumeric (hy : y.isDirect .member) (hn : y.isNumeric) : IsRange y := by
  cases isMember_of_isDirect hy with
  | bound r h => exact .bound r h
  | @equals v _ hv =>
    cases v with
    | number n => exact .point hv
    | _ => simp [isNumeric] at hn
  | _ => simp [isNumeric] at hn

lemma IsRange.holds_iff {X : Value → Prop} (h : IsRange y) :
    y.Holds X v ↔ ∃ x, v = .number x ∧ (Interval.of y).contains x := by
  cases h with
  | bound r => simp [Holds, Interval.of, Interval.ofAtom?]
  | @point n hn =>
    cases v with
    | number x =>
      simp [Holds, Value.same, Interval.of, Interval.ofAtom?, Interval.contains_point,
        Number.same_iff_eq hn]
    | _ => simp [Holds, Value.same]

lemma entailed_numeric_member (hx : x.isDirect .member) (hy : y.isDirect .member)
    (hn : y.isNumeric) :
    Entailed x y ↔ x.kind? = some .number ∧ (Interval.of x).isSubset (Interval.of y) := by
  have hrange := isRange_of_isNumeric hy hn
  cases isMember_of_isDirect hx with
  | @equals v _ hv =>
    rw [entailed_equals_member hx hy, hrange.holds_iff]
    cases v with
    | number m =>
      simp [kind?, Value.kind, Interval.of, Interval.ofAtom?, Interval.point_isSubset hv]
    | _ => simp [kind?, Value.kind]
  | @bound r m hm =>
    have hatom : atomEntails (Answers.settled.entails []) (.bound r m) y =
        (Interval.of (.bound r m)).isSubset (Interval.of y) := by
      cases hrange <;> rfl
    rw [entailed_member_iff hx hy (by simp), hatom]
    simp only [kind?, true_and]
    refine or_iff_right_of_imp fun hs => ?_
    cases hrange with
    | @bound s n =>
      obtain ⟨rfl, he⟩ : r = s ∧ m.eq n := by simpa [BEq.beq, same] using hs
      exact ofBound_isSubset he
    | point => exact absurd hs Bool.false_ne_true
  | kind k =>
    rw [entailed_member_iff hx hy (by simp)]
    have hfull : (Interval.of (.kind k)).isSubset (Interval.of y) = false := by
      cases k <;> cases hrange with
        | bound r => cases r <;> rfl
        | point => rfl
    cases hrange <;> simp [hfull, BEq.beq, same, atomEntails]
  | field | elements | elementAt =>
    rw [entailed_member_iff hx hy (by simp)]
    cases hrange <;> simp [kind?, BEq.beq, same, atomEntails]

lemma entailed_numeric_iff (ha : a.isDirect .branch) (hy : y.isDirect .member) (hn : y.isNumeric) :
    Entailed a y ↔ a.IsNumber ∧ (Interval.of a).isSubset (Interval.of y) := by
  rcases branch_cases ha with ⟨xs, rfl⟩ | ⟨hm, hself⟩
  · have hxs := (isDirect_conj.mp ha).2.2
    rw [entailed_conj_left ha hy, Bounds, and_iff_right hn]
    refine or_iff_right_of_imp ?_
    rintro ⟨x, hx, he⟩
    obtain ⟨hk, hsub⟩ := (entailed_numeric_member (hxs x hx) hy hn).mp he
    have hof := ofConj_isSubset_member hxs Interval.isProper_full hx
    rw [Interval.of]
    exact ⟨⟨x, hx, hk⟩, Interval.isSubset_trans hof hsub⟩
  · rw [entailed_numeric_member hm hy hn]
    simp [IsNumber, hself]

lemma of_eq_full (hx : x.isDirect .member) (hk : x.kind? ≠ some .number) :
    Interval.of x = Interval.full := by
  cases isMember_of_isDirect hx with
  | kind k => cases k <;> rfl
  | bound => exact absurd rfl hk
  | @equals v => cases v <;> first | rfl | exact absurd rfl hk
  | _ => rfl

lemma numeric_or_number (hx : x.isDirect .member) (hk : x.kind? = some .number) :
    x.isNumeric ∨ x = .kind .number := by
  cases isMember_of_isDirect hx with
  | kind k =>
    obtain rfl : k = .number := by simpa [kind?] using hk
    exact Or.inr rfl
  | bound => exact Or.inl rfl
  | @equals v =>
    cases v <;> first | exact Or.inl rfl | simp [kind?, Value.kind] at hk
  | _ => simp [kind?] at hk

lemma exists_same_of_sameList : ∀ {xs ys : List Constraint}, sameList xs ys →
    (∀ x ∈ xs, ∃ y ∈ ys, x.same y) ∧ ∀ y ∈ ys, ∃ x ∈ xs, x.same y
  | [], [], _ => by simp
  | [], _ :: _, h | _ :: _, [], h => by simp [sameList] at h
  | x :: xs, y :: ys, h => by
    simp only [sameList, Bool.and_eq_true] at h
    obtain ⟨hleft, hright⟩ := exists_same_of_sameList h.2
    refine ⟨List.forall_mem_cons.mpr ⟨⟨y, List.mem_cons_self, h.1⟩, fun z hz => ?_⟩,
      List.forall_mem_cons.mpr ⟨⟨x, List.mem_cons_self, h.1⟩, fun z hz => ?_⟩⟩
    · exact (hleft z hz).imp fun _ hw => ⟨List.mem_cons_of_mem _ hw.1, hw.2⟩
    · exact (hright z hz).imp fun _ hw => ⟨List.mem_cons_of_mem _ hw.1, hw.2⟩

lemma entailed_conj_right (ha : a.isDirect .branch) (hy : (conj ys).isDirect .branch) :
    Entailed a (.conj ys) ↔ ∀ y ∈ ys, Entailed a y := by
  have hys := (isDirect_conj.mp hy).2.2
  cases hs : a == .conj ys with
  | true =>
    refine iff_of_true (entailed_of_same ha hy hs) fun y hmem => ?_
    cases a with
    | conj xs =>
      have hsame : sameList xs ys := hs
      obtain ⟨x, hx, hxy⟩ := (exists_same_of_sameList hsame).2 y hmem
      have hx' := (isDirect_conj.mp ha).2.2 x hx
      exact (entailed_conj_left ha (hys y hmem)).mpr
        (Or.inl ⟨x, hx, entailed_of_same hx' (hys y hmem) hxy⟩)
    | _ => exact absurd hs Bool.false_ne_true
  | false =>
    have hstep : entailsStep Answers.settled.normal (Answers.settled.conj false)
        Answers.settled.entails [] a (.conj ys) =
          ys.all fun y => Answers.settled.entails [] a y := by
      unfold entailsStep
      rw [hs, if_neg Bool.false_ne_true]
      rcases branch_cases ha with ⟨xs, rfl⟩ | ⟨hm, _⟩
      · rfl
      · cases isMember_of_isDirect hm <;> rfl
    rw [entailed_iff ha hy, hstep, List.all_eq_true]
    rfl

lemma entailed_conjuncts_iff (ha : a.isDirect .branch) (hb : b.isDirect .branch) :
    Entailed a b ↔ ∀ y ∈ b.conjuncts, Entailed a y := by
  rcases branch_cases hb with ⟨ys, rfl⟩ | ⟨_, hself⟩
  · exact entailed_conj_right ha hb
  · simp [hself]

lemma isSubset_of_entailed (ha : a.isDirect .branch) (hb : b.isDirect .branch) (h : Entailed a b)
    (hn : b.IsNumber) : a.IsNumber ∧ (Interval.of a).isSubset (Interval.of b) := by
  have hconj := (entailed_conjuncts_iff ha hb).mp h
  have hmember : ∀ y ∈ b.conjuncts, y.kind? = some .number →
      a.IsNumber ∧ (Interval.of a).isSubset (Interval.of y) := by
    intro y hy hk
    have hdirect := isDirect_of_mem_conjuncts hb hy
    rcases numeric_or_number hdirect hk with hnum | rfl
    · exact (entailed_numeric_iff ha hdirect hnum).mp (hconj y hy)
    · exact ⟨(entailed_number_iff ha).mp (hconj _ hy), Interval.isSubset_full _⟩
  obtain ⟨y, hy, hk⟩ := hn
  refine ⟨(hmember y hy hk).1, ?_⟩
  rcases branch_cases hb with ⟨ys, rfl⟩ | ⟨_, hself⟩
  · rw [Interval.of.eq_1]
    refine isSubset_ofConj (Interval.isSubset_full _) fun z hz => ?_
    by_cases hkz : z.kind? = some .number
    · exact (hmember z hz hkz).2
    · rw [of_eq_full (isDirect_of_mem_conjuncts hb hz) hkz]
      exact Interval.isSubset_full _
  · rw [hself, List.mem_singleton] at hy
    subst hy
    exact (hmember y (by simp [hself]) hk).2

/-! ### Parts -/

inductive Place where
  | field (name : String)
  | items
  | item (i : Nat)
deriving DecidableEq

def Place.about : Place → Constraint → Constraint
  | .field name, c => .field name c
  | .items, c => .elements c
  | .item i, c => .elementAt i c

inductive IsLoose : Constraint → Prop
  | kind (k : Kind) : IsLoose (.kind k)
  | about (p : Place) {c : Constraint} : c.isDirect .union → IsLoose (p.about c)

lemma member_cases (hx : x.isDirect .member) :
    (∃ v, x = .equals v ∧ v.isWellFormed) ∨ x.isNumeric ∨ IsLoose x := by
  cases isMember_of_isDirect hx with
  | kind k => exact Or.inr (Or.inr (.kind k))
  | equals hv => exact Or.inl ⟨_, rfl, hv⟩
  | bound => exact Or.inr (Or.inl rfl)
  | field name hc => exact Or.inr (Or.inr (.about (.field name) hc))
  | elements hc => exact Or.inr (Or.inr (.about .items hc))
  | elementAt i hc => exact Or.inr (Or.inr (.about (.item i) hc))

variable {p : Place} {d e : Constraint}

lemma isDirect_about : (p.about d).isDirect form ↔ d.isDirect .union := by
  cases p <;> cases form <;> simp [Place.about, isDirect]

lemma size_lt_about : d.size < (p.about d).size := by
  cases p <;> simp [Place.about, size]

lemma about_beq_about {q : Place} : (p.about c == q.about d) ↔ p = q ∧ c == d := by
  cases p <;> cases q <;> simp [Place.about, BEq.beq, same]

lemma atomEntails_about {entails : Constraint → Constraint → Bool} {q : Place} :
    atomEntails entails (p.about c) (q.about d) ↔ p = q ∧ entails c d := by
  cases p <;> cases q <;> simp [Place.about, atomEntails]

lemma about_inj {q : Place} (h : p.about c = q.about d) : p = q ∧ c = d := by
  cases p <;> cases q <;> simp_all [Place.about]

lemma entailed_about_iff (hx : x.isDirect .member) (hd : d.isDirect .union)
    (hv : ∀ v, x ≠ .equals v) : Entailed x (p.about d) ↔ ∃ c, x = p.about c ∧ Entailed c d := by
  rw [entailed_member_iff hx (isDirect_about.mpr hd) hv]
  rcases member_cases hx with ⟨v, rfl, _⟩ | hn | hl
  · exact absurd rfl (hv v)
  · cases isRange_of_isNumeric hx hn with
    | bound => cases p <;> simp [Place.about, BEq.beq, same, atomEntails, isNumeric]
    | point => exact absurd rfl (hv _)
  cases hl with
  | kind k => cases p <;> simp [Place.about, BEq.beq, same, atomEntails]
  | about q hc =>
    rw [about_beq_about, atomEntails_about]
    constructor
    · rintro (⟨rfl, hs⟩ | ⟨rfl, he⟩)
      · exact ⟨_, rfl, entailed_of_same hc hd hs⟩
      · exact ⟨_, rfl, he⟩
    · rintro ⟨c, heq, he⟩
      obtain ⟨rfl, rfl⟩ := about_inj heq
      exact Or.inr ⟨rfl, he⟩

lemma not_entailed_equals (hx : x.isDirect .member) (hv : (equals v).isDirect .member)
    (hn : (equals v).isNumeric = false) (hxv : ∀ w, x ≠ .equals w) : ¬ Entailed x (.equals v) := by
  rw [entailed_member_iff hx hv hxv]
  cases isMember_of_isDirect hx with
  | equals => exact absurd rfl (hxv _)
  | bound => simp [BEq.beq, same, atomEntails, hn]
  | _ => simp [BEq.beq, same, atomEntails]

/-! ### Unions -/

lemma union_cases (h : a.isDirect .union) :
    a = .any ∨ a = .never ∨ (∃ cs, a = .disj cs) ∨ a.isDirect .branch := by
  cases a with
  | any => exact Or.inl rfl
  | never => exact Or.inr (Or.inl rfl)
  | disj cs => exact Or.inr (Or.inr (Or.inl ⟨cs, rfl⟩))
  | kind | equals | bound | field | elements | elementAt | conj =>
    exact Or.inr (Or.inr (Or.inr (by simp_all only [isDirect])))
  | _ => simp [isDirect] at h

lemma entailed_any (ha : a.isDirect .union) : Entailed a .any := by
  rw [entailed_iff ha (show any.isDirect .union from rfl)]
  cases a <;> rfl

lemma entailed_never (hb : b.isDirect .union) : Entailed .never b := by
  rw [entailed_iff (show never.isDirect .union from rfl) hb]
  cases b <;> rfl

lemma not_entailed_never (ha : a.isDirect .branch) : ¬ Entailed a .never := by
  rw [entailed_iff ha (show never.isDirect .union from rfl)]
  cases a <;> first | exact Bool.false_ne_true | simp [isDirect] at ha

lemma entailed_equals_branch (hv : (equals v).isDirect .member) (hb : b.isDirect .branch) :
    Entailed (.equals v) b ↔ b.Holds (fun _ => True) v := by
  rcases branch_cases hb with ⟨ys, rfl⟩ | ⟨hm, _⟩
  · rw [entailed_conj_right (isDirect_branch hv) hb, holds_conj]
    exact forall₂_congr fun y hy => entailed_equals_member hv ((isDirect_conj.mp hb).2.2 y hy)
  · exact entailed_equals_member hv hm

lemma entailed_disj_right (ha : a.isDirect .branch) (hb : (disj ys).isDirect .union) :
    Entailed a (.disj ys) ↔ ∃ y ∈ ys, Entailed a y := by
  have hys := (isDirect_disj.mp hb).2
  by_cases hv : ∃ v, a = .equals v
  · obtain ⟨v, rfl⟩ := hv
    have hstep : entailsStep Answers.settled.normal (Answers.settled.conj false)
        Answers.settled.entails [] (.equals v) (.disj ys) = (disj ys).admits v := rfl
    rw [entailed_iff ha hb, hstep, ← holds_iff_admits hb, holds_disj]
    exact exists_congr fun y => and_congr_right fun hy =>
      (entailed_equals_branch (by simpa only [isDirect] using ha) (hys y hy)).symm
  · have hstep : entailsStep Answers.settled.normal (Answers.settled.conj false)
        Answers.settled.entails [] a (.disj ys) =
          ys.any fun y => Answers.settled.entails [] a y := by
      rcases branch_cases ha with ⟨xs, rfl⟩ | ⟨hm, _⟩
      · rfl
      · cases isMember_of_isDirect hm with
        | equals => exact absurd ⟨_, rfl⟩ hv
        | _ => rfl
    rw [entailed_iff ha hb, hstep, List.any_eq_true]
    rfl

lemma entailed_disj_left (ha : (disj xs).isDirect .union) (hb : b.isDirect .union) :
    Entailed (.disj xs) b ↔ ∀ x ∈ xs, Entailed x b := by
  obtain ⟨hne, hxs⟩ := isDirect_disj.mp ha
  cases hs : disj xs == b with
  | true =>
    refine iff_of_true (entailed_of_same ha hb hs) fun x hx => ?_
    cases b with
    | disj ys =>
      have hsame : sameList xs ys := hs
      obtain ⟨y, hy, hxy⟩ := (exists_same_of_sameList hsame).1 x hx
      exact (entailed_disj_right (hxs x hx) hb).mpr
        ⟨y, hy, entailed_of_same (hxs x hx) ((isDirect_disj.mp hb).2 y hy) hxy⟩
    | _ => exact absurd hs Bool.false_ne_true
  | false =>
    by_cases hany : b = .any
    · subst hany
      exact iff_of_true (entailed_any ha) fun x hx => entailed_any (isDirect_union (hxs x hx))
    by_cases hnever : b = .never
    · subst hnever
      obtain ⟨x, hx⟩ := List.exists_mem_of_ne_nil xs hne
      refine iff_of_false ?_ fun hall => not_entailed_never (hxs x hx) (hall x hx)
      rw [entailed_iff ha hb]
      exact Bool.false_ne_true
    · have hstep : entailsStep Answers.settled.normal (Answers.settled.conj false)
          Answers.settled.entails [] (.disj xs) b =
            xs.all fun x => Answers.settled.entails [] x b := by
        unfold entailsStep
        rw [hs, if_neg Bool.false_ne_true]
        cases b <;> first | rfl | contradiction
      rw [entailed_iff ha hb, hstep, List.all_eq_true]
      rfl

lemma eq_any_of_entailed (hb : b.isDirect .union) (h : Entailed .any b) : b = .any := by
  have hany : any.isDirect .union := rfl
  have hmember : ∀ y : Constraint, y.isDirect .member → ¬ Entailed .any y := by
    intro y hy
    rw [entailed_iff hany hy]
    cases isMember_of_isDirect hy <;> exact Bool.false_ne_true
  have hbranch : ∀ y : Constraint, y.isDirect .branch → ¬ Entailed .any y := by
    intro y hy
    rcases branch_cases hy with ⟨ys, rfl⟩ | ⟨hm, _⟩
    · obtain ⟨hne, _, hys⟩ := isDirect_conj.mp hy
      obtain ⟨z, hz⟩ := List.exists_mem_of_ne_nil ys hne
      have hstep : entailsStep Answers.settled.normal (Answers.settled.conj false)
          Answers.settled.entails [] .any (.conj ys) =
            ys.all fun y => Answers.settled.entails [] .any y := rfl
      rw [entailed_iff hany hy, hstep, List.all_eq_true]
      exact fun hall => hmember z (hys z hz) (hall z hz)
    · exact hmember y hm
  rcases union_cases hb with rfl | rfl | ⟨ys, rfl⟩ | hb'
  · rfl
  · rw [entailed_iff hany hb] at h
    exact absurd h Bool.false_ne_true
  · have hstep : entailsStep Answers.settled.normal (Answers.settled.conj false)
        Answers.settled.entails [] .any (.disj ys) =
          ys.any fun y => Answers.settled.entails [] .any y := rfl
    rw [entailed_iff hany hb, hstep, List.any_eq_true] at h
    obtain ⟨y, hy, he⟩ := h
    exact absurd he (hbranch y ((isDirect_disj.mp hb).2 y hy))
  · exact absurd h (hbranch b hb')

def options : Constraint → List Constraint
  | .never => []
  | .disj cs => cs
  | c => [c]

lemma options_eq_self (h : a.isDirect .branch) : a.options = [a] := by
  cases a <;> first | rfl | simp [isDirect] at h

lemma isDirect_of_mem_options (h : a.isDirect .union) (hany : a ≠ .any) (hx : x ∈ a.options) :
    x.isDirect .branch := by
  rcases union_cases h with rfl | rfl | ⟨xs, rfl⟩ | hb
  · exact absurd rfl hany
  · simp [options] at hx
  · exact (isDirect_disj.mp h).2 x hx
  · rw [options_eq_self hb, List.mem_singleton] at hx
    exact hx ▸ hb

lemma entailed_iff_options (ha : a.isDirect .union) (hb : b.isDirect .union) (ha' : a ≠ .any)
    (hb' : b ≠ .any) : Entailed a b ↔ ∀ x ∈ a.options, ∃ y ∈ b.options, Entailed x y := by
  have hbranch : ∀ {x}, x.isDirect .branch → (Entailed x b ↔ ∃ y ∈ b.options, Entailed x y) := by
    intro x hx
    rcases union_cases hb with rfl | rfl | ⟨ys, rfl⟩ | hb
    · exact absurd rfl hb'
    · simpa [options] using not_entailed_never hx
    · exact entailed_disj_right hx hb
    · simp [options_eq_self hb]
  rcases union_cases ha with rfl | rfl | ⟨xs, rfl⟩ | ha
  · exact absurd rfl ha'
  · simpa [options] using entailed_never hb
  · rw [entailed_disj_left ha hb]
    exact forall₂_congr fun x hx => hbranch ((isDirect_disj.mp ha).2 x hx)
  · rw [hbranch ha, options_eq_self ha]
    simp

/-! ### Soundness -/

/-- Whatever is found to follow from it holds where it does. -/
def IsSound (b : Constraint) : Prop :=
  ∀ c : Constraint, c.isDirect .union → Entailed b c → ∀ v : Value, v.isWellFormed →
    b.Holds (fun _ => True) v → c.Holds (fun _ => True) v

lemma holds_about_mono {X : Value → Prop} (hv : v.isWellFormed)
    (h : ∀ w : Value, w.isWellFormed → d.Holds X w → e.Holds X w) (hd : (p.about d).Holds X v) :
    (p.about e).Holds X v := by
  cases p with
  | field name =>
    obtain ⟨fields, w, rfl, hw, hdw⟩ := hd
    exact ⟨fields, w, rfl, hw, h w (Value.isWellFormed_of_find? hv hw) hdw⟩
  | items =>
    obtain ⟨items, rfl, hall⟩ := hd
    exact ⟨items, rfl, fun w hw => h w (Value.isWellFormed_of_mem hv hw) (hall w hw)⟩
  | item i =>
    obtain ⟨items, w, rfl, hw, hdw⟩ := hd
    exact ⟨items, w, rfl, hw,
      h w (Value.isWellFormed_of_mem hv (List.mem_of_getElem? hw)) hdw⟩

lemma holds_of_entailed_member (hx : x.isDirect .member) (hy : y.isDirect .member)
    (hn : y.isNumeric = false) (ih : ∀ p d, x = Place.about p d → IsSound d) (h : Entailed x y)
    (hv : v.isWellFormed) (hxv : x.Holds (fun _ => True) v) : y.Holds (fun _ => True) v := by
  by_cases hlit : ∃ w, x = .equals w
  · obtain ⟨w, rfl⟩ := hlit
    have hw : w.isWellFormed := (Bool.and_eq_true_iff.mp hx).1
    have hfree := (tidy_of_isDirect hy).isFixFree
    exact (holds_value_congr hfree hv hw hxv).mpr ((entailed_equals_member hx hy).mp h)
  have hlit' : ∀ w, x ≠ .equals w := fun w hw => hlit ⟨w, hw⟩
  rcases member_cases hy with ⟨w, rfl, _⟩ | hnum | hloose
  · exact absurd h (not_entailed_equals hx hy hn hlit')
  · rw [hn] at hnum
    exact absurd hnum Bool.false_ne_true
  cases hloose with
  | kind k =>
    obtain ⟨l, hl, hr⟩ := (entailed_kind_member hx).mp h
    exact Kind.refines_trans (kind_refines_of_holds hl hxv) hr
  | about p hd =>
    obtain ⟨c, rfl, hc⟩ := (entailed_about_iff hx hd hlit').mp h
    exact holds_about_mono hv (ih p c rfl _ hd hc) hxv

lemma holds_iff_conjuncts {X : Value → Prop} (ha : a.isDirect .branch) :
    a.Holds X v ↔ ∀ x ∈ a.conjuncts, x.Holds X v := by
  rcases branch_cases ha with ⟨xs, rfl⟩ | ⟨_, hself⟩
  · exact holds_conj
  · simp [hself]

lemma holds_iff_options {X : Value → Prop} (ha : a.isDirect .union) :
    a.Holds X v ↔ ∃ x ∈ a.options, x.Holds X v := by
  rcases union_cases ha with rfl | rfl | ⟨xs, rfl⟩ | hb
  · simp [options]
  · simp [options]
  · exact holds_disj
  · simp [options_eq_self hb]

lemma size_le_of_mem_conjuncts (hx : x ∈ a.conjuncts) : x.size ≤ a.size := by
  cases a with
  | conj xs => exact Nat.le_succ_of_le (size_le_sizeList hx)
  | _ => rw [List.mem_singleton.mp hx]

lemma size_le_of_mem_options (hx : x ∈ a.options) : x.size ≤ a.size := by
  cases a with
  | never => simp [options] at hx
  | disj xs => exact Nat.le_succ_of_le (size_le_sizeList hx)
  | _ => rw [List.mem_singleton.mp hx]

lemma holds_of_entailed_numeric (ha : a.isDirect .branch) (hy : y.isDirect .member)
    (hn : y.isNumeric) (h : Entailed a y) (hav : a.Holds (fun _ => True) v) :
    y.Holds (fun _ => True) v := by
  obtain ⟨⟨x, hx, hk⟩, hsub⟩ := (entailed_numeric_iff ha hy hn).mp h
  obtain ⟨n, rfl⟩ := holds_of_kind?_number hk ((holds_iff_conjuncts ha).mp hav x hx)
  cases hw : Interval.ofAtom? y with
  | none => cases isRange_of_isNumeric hy hn <;> simp [Interval.ofAtom?] at hw
  | some want =>
    have hof : Interval.of y = want := by
      cases isRange_of_isNumeric hy hn <;> simp [Interval.of, hw]
    exact holds_of_isSubset (tidy_of_isDirect ha) hn hw (hof ▸ hsub) hav

lemma holds_of_entailed_branch (ha : a.isDirect .branch) (hb : b.isDirect .branch)
    (ih : ∀ x ∈ a.conjuncts, ∀ p d, x = Place.about p d → IsSound d) (h : Entailed a b)
    (hv : v.isWellFormed) (hav : a.Holds (fun _ => True) v) : b.Holds (fun _ => True) v := by
  refine (holds_iff_conjuncts hb).mpr fun y hy => ?_
  have hy' := isDirect_of_mem_conjuncts hb hy
  have hay := (entailed_conjuncts_iff ha hb).mp h y hy
  cases hn : y.isNumeric with
  | true => exact holds_of_entailed_numeric ha hy' hn hay hav
  | false =>
    obtain ⟨x, hx, hxy⟩ := (entailed_iff_exists_conjunct ha hy' hn).mp hay
    have hxv := (holds_iff_conjuncts ha).mp hav x hx
    exact holds_of_entailed_member (isDirect_of_mem_conjuncts ha hx) hy' hn (ih x hx) hxy hv hxv

theorem isSound_of_isDirect (hb : b.isDirect .union) : IsSound b := by
  induction hn : b.size using Nat.strong_induction_on generalizing b with
  | _ n ih =>
    intro c hc h v hv hbv
    by_cases hc' : c = .any
    · exact hc' ▸ trivial
    have hb' : b ≠ .any := by
      rintro rfl
      exact hc' (eq_any_of_entailed hc h)
    obtain ⟨x, hx, hxv⟩ := (holds_iff_options hb).mp hbv
    obtain ⟨y, hy, hxy⟩ := (entailed_iff_options hb hc hb' hc').mp h x hx
    have hx' := isDirect_of_mem_options hb hb' hx
    refine (holds_iff_options hc).mpr ⟨y, hy, holds_of_entailed_branch hx'
      (isDirect_of_mem_options hc hc' hy) ?_ hxy hv hxv⟩
    rintro z hz p d rfl
    refine ih d.size ?_ (isDirect_about.mp (isDirect_of_mem_conjuncts hx' hz)) rfl
    calc d.size < (p.about d).size := size_lt_about
      _ ≤ x.size := size_le_of_mem_conjuncts hz
      _ ≤ b.size := size_le_of_mem_options hx
      _ = n := hn

/-! ### Transitivity -/

/-- Entailments to it and from it compose. -/
def Links (b : Constraint) : Prop :=
  ∀ a c : Constraint, a.isDirect .union → c.isDirect .union → Entailed a b → Entailed b c →
    Entailed a c

lemma kind?_about : (p.about d).kind? = (p.about e).kind? := by
  cases p <;> rfl

lemma entailed_trans_member (hx : x.isDirect .member) (hy : y.isDirect .member)
    (hc : c.isDirect .member) (hyn : y.isNumeric = false) (hcn : c.isNumeric = false)
    (ih : ∀ p d, y = Place.about p d → Links d) (h : Entailed x y) (h' : Entailed y c) :
    Entailed x c := by
  by_cases hlit : ∃ w, x = .equals w
  · obtain ⟨w, rfl⟩ := hlit
    have hw : w.isWellFormed := (Bool.and_eq_true_iff.mp hx).1
    rw [entailed_equals_member hx hc]
    exact isSound_of_isDirect (isDirect_union (isDirect_branch hy)) c
      (isDirect_union (isDirect_branch hc)) h' w hw ((entailed_equals_member hx hy).mp h)
  have hlit' : ∀ w, x ≠ .equals w := fun w hw => hlit ⟨w, hw⟩
  rcases member_cases hy with ⟨w, rfl, _⟩ | hnum | hloose
  · exact absurd h (not_entailed_equals hx hy hyn hlit')
  · rw [hyn] at hnum
    exact absurd hnum Bool.false_ne_true
  have hloose' : ∀ w, y ≠ .equals w := by
    rintro w rfl
    exact not_entailed_equals hx hy hyn hlit' h
  rcases member_cases hc with ⟨w, rfl, _⟩ | hnum | hloosec
  · exact absurd h' (not_entailed_equals hy hc hcn hloose')
  · rw [hcn] at hnum
    exact absurd hnum Bool.false_ne_true
  cases hloosec with
  | kind l =>
    obtain ⟨m, hm, hml⟩ := (entailed_kind_member hy).mp h'
    rw [entailed_kind_member hx]
    cases hloose with
    | kind k =>
      obtain ⟨n, hn, hnk⟩ := (entailed_kind_member hx).mp h
      obtain rfl : k = m := by simpa [kind?] using hm
      exact ⟨n, hn, Kind.refines_trans hnk hml⟩
    | about p hd =>
      obtain ⟨e, rfl, _⟩ := (entailed_about_iff hx hd hlit').mp h
      exact ⟨m, kind?_about.trans hm, hml⟩
  | about q he =>
    obtain ⟨d, rfl, hde⟩ := (entailed_about_iff hy he hloose').mp h'
    have hd := isDirect_about.mp hy
    obtain ⟨c, rfl, hcd⟩ := (entailed_about_iff hx hd hlit').mp h
    exact (entailed_about_iff hx he hlit').mpr
      ⟨c, rfl, ih q d rfl _ _ (isDirect_about.mp hx) he hcd hde⟩

lemma eq_kind_of_entailed_numeric (hy : y.isDirect .member) (hc : c.isDirect .member)
    (hyn : y.isNumeric) (hcn : c.isNumeric = false) (h : Entailed y c) :
    ∃ k, c = .kind k ∧ Kind.number.refines k := by
  have hk : y.kind? = some .number := by cases isRange_of_isNumeric hy hyn <;> rfl
  rcases member_cases hc with ⟨w, rfl, _⟩ | hnum | hloose
  · cases isRange_of_isNumeric hy hyn with
    | bound => exact absurd h (not_entailed_equals hy hc hcn (by simp))
    | point =>
      rw [entailed_equals_member hy hc] at h
      cases w <;> simp_all [Holds, Value.same, isNumeric]
  · rw [hcn] at hnum
    exact absurd hnum Bool.false_ne_true
  cases hloose with
  | kind k =>
    obtain ⟨l, hl, hr⟩ := (entailed_kind_member hy).mp h
    obtain rfl : Kind.number = l := by simpa [hk] using hl
    exact ⟨k, rfl, hr⟩
  | about p hd =>
    cases isRange_of_isNumeric hy hyn with
    | bound =>
      obtain ⟨e, he, _⟩ := (entailed_about_iff hy hd (by simp)).mp h
      cases p <;> simp [Place.about] at he
    | point =>
      rw [entailed_equals_member hy hc] at h
      cases p <;> simp [Place.about, Holds] at h

lemma entailed_trans_branch (ha : a.isDirect .branch) (hb : b.isDirect .branch)
    (hc : c.isDirect .branch) (ih : ∀ y ∈ b.conjuncts, ∀ p d, y = Place.about p d → Links d)
    (h : Entailed a b) (h' : Entailed b c) : Entailed a c := by
  refine (entailed_conjuncts_iff ha hc).mpr fun z hz => ?_
  have hz' := isDirect_of_mem_conjuncts hc hz
  have hbz := (entailed_conjuncts_iff hb hc).mp h' z hz
  cases hzn : z.isNumeric with
  | true =>
    obtain ⟨hnum, hsub⟩ := (entailed_numeric_iff hb hz' hzn).mp hbz
    obtain ⟨hnum', hsub'⟩ := isSubset_of_entailed ha hb h hnum
    exact (entailed_numeric_iff ha hz' hzn).mpr ⟨hnum', Interval.isSubset_trans hsub' hsub⟩
  | false =>
    rw [entailed_iff_exists_conjunct ha hz' hzn]
    obtain ⟨y, hy, hyz⟩ := (entailed_iff_exists_conjunct hb hz' hzn).mp hbz
    have hy' := isDirect_of_mem_conjuncts hb hy
    have hay := (entailed_conjuncts_iff ha hb).mp h y hy
    cases hyn : y.isNumeric with
    | true =>
      -- the range gives no more than that these are numbers
      obtain ⟨k, rfl, hr⟩ := eq_kind_of_entailed_numeric hy' hz' hyn hzn hyz
      obtain ⟨x, hx, hk⟩ := ((entailed_numeric_iff ha hy' hyn).mp hay).1
      exact ⟨x, hx, (entailed_kind_member (isDirect_of_mem_conjuncts ha hx)).mpr ⟨_, hk, hr⟩⟩
    | false =>
      obtain ⟨x, hx, hxy⟩ := (entailed_iff_exists_conjunct ha hy' hyn).mp hay
      exact ⟨x, hx, entailed_trans_member (isDirect_of_mem_conjuncts ha hx) hy' hz' hyn hzn
        (ih y hy) hxy hyz⟩

theorem links_of_isDirect (hb : b.isDirect .union) : Links b := by
  induction hn : b.size using Nat.strong_induction_on generalizing b with
  | _ n ih =>
    intro a c ha hc h h'
    by_cases hc' : c = .any
    · exact hc' ▸ entailed_any ha
    have hb' : b ≠ .any := by
      rintro rfl
      exact hc' (eq_any_of_entailed hc h')
    have ha' : a ≠ .any := by
      rintro rfl
      exact hb' (eq_any_of_entailed hb h)
    rw [entailed_iff_options ha hc ha' hc']
    intro x hx
    obtain ⟨y, hy, hxy⟩ := (entailed_iff_options ha hb ha' hb').mp h x hx
    obtain ⟨z, hz, hyz⟩ := (entailed_iff_options hb hc hb' hc').mp h' y hy
    have hy' := isDirect_of_mem_options hb hb' hy
    refine ⟨z, hz, entailed_trans_branch (isDirect_of_mem_options ha ha' hx) hy'
      (isDirect_of_mem_options hc hc' hz) ?_ hxy hyz⟩
    rintro w hw p d rfl
    refine ih d.size ?_ (isDirect_about.mp (isDirect_of_mem_conjuncts hy' hw)) rfl
    calc d.size < (p.about d).size := size_lt_about
      _ ≤ y.size := size_le_of_mem_conjuncts hw
      _ ≤ b.size := size_le_of_mem_options hy
      _ = n := hn

end Entailed

end Constraint

end Stagewise
