import Mathlib.Logic.Relation
import Stagewise.Constraint.Normal
import Stagewise.Proofs.Conjunction

/-! The steps that bring a disjunction of tidy constraints into normal form, and the distribution
of a conjunction over its disjunctions, keep the meaning, provided that a branch is only dropped
for the sake of one that stays. -/

set_option autoImplicit false

namespace Stagewise.Constraint

variable {F : Fragment} {p : Position}

structure IsDisj (F : Fragment) (p : Position) (c : Constraint) (cs : List Constraint) : Prop where
  tidy : c.Tidy F p
  holds : ∀ (X : Value → Prop) (v : Value), F.Covers v → (c.Holds X v ↔ ∃ d ∈ cs, d.Holds X v)

def Disjoins (F : Fragment) (disj : List Constraint → Constraint) : Prop :=
  ∀ (p : Position) (cs : List Constraint), (∀ c ∈ cs, c.Tidy F p) → IsDisj F p (disj cs) cs

def SameUnion (F : Fragment) (cs ds : List Constraint) : Prop :=
  ∀ (X : Value → Prop) (v : Value), F.Covers v →
    ((∃ c ∈ cs, c.Holds X v) ↔ ∃ d ∈ ds, d.Holds X v)

lemma SameUnion.trans {cs ds es : List Constraint} (h : SameUnion F cs ds)
    (k : SameUnion F ds es) : SameUnion F cs es :=
  fun X v hv => (h X v hv).trans (k X v hv)

lemma IsDisj.of_sameUnion {c : Constraint} {cs ds : List Constraint} (h : IsDisj F p c ds)
    (k : SameUnion F ds cs) : IsDisj F p c cs :=
  ⟨h.tidy, fun X v hv => (h.holds X v hv).trans (k X v hv)⟩

/-! ### Flattening -/

section Lists

variable {X : Value → Prop} {v : Value}

lemma exists_pushNew {cs : List Constraint} {c : Constraint} (hv : F.Covers v)
    (hcs : ∀ d ∈ cs, d.Tidy F p) :
    (∃ d ∈ pushNew cs c, d.Holds X v) ↔ (∃ d ∈ cs, d.Holds X v) ∨ c.Holds X v := by
  simp only [pushNew]
  split_ifs with h
  · obtain ⟨d, hd, hs⟩ := List.any_eq_true.mp h
    have he := holds_congr (X := X) (hcs d hd).isWellFormed hv.1 hs
    exact ⟨Or.inl, fun h => h.elim id fun hc => ⟨d, hd, he.mpr hc⟩⟩
  · simp [or_and_right, exists_or]

mutual

theorem forall_mem_flattenDisj {T P : Constraint → Prop}
    (hT : ∀ {cs : List Constraint}, T (.disj cs) → ∀ c ∈ cs, T c)
    (hP : ∀ {c : Constraint}, T c → c.isDisj = false → c.isNever = false → P c) :
    ∀ {c : Constraint} {acc : List Constraint}, (∀ d ∈ acc, P d) → T c →
      ∀ d ∈ flattenDisj acc c, P d
  | .disj cs, _, ha, hc => by
    rw [flattenDisj]
    exact forall_mem_flattenDisjList hT hP ha (hT hc)
  | .never, _, ha, _ => by rwa [flattenDisj]
  | .kind _, _, ha, hc | .equals _, _, ha, hc | .bound _ _, _, ha, hc | .field _ _, _, ha, hc
  | .elements _, _, ha, hc | .length _, _, ha, hc | .elementAt _ _, _, ha, hc
  | .conj _, _, ha, hc | .neg _, _, ha, hc | .fix _, _, ha, hc | .bvar _, _, ha, hc
  | .ref _, _, ha, hc | .var _, _, ha, hc | .any, _, ha, hc => by
    rw [flattenDisj]
    · exact forall_mem_pushNew ha (hP hc rfl rfl)
    all_goals simp

theorem forall_mem_flattenDisjList {T P : Constraint → Prop}
    (hT : ∀ {cs : List Constraint}, T (.disj cs) → ∀ c ∈ cs, T c)
    (hP : ∀ {c : Constraint}, T c → c.isDisj = false → c.isNever = false → P c) :
    ∀ {cs acc : List Constraint}, (∀ d ∈ acc, P d) → (∀ c ∈ cs, T c) →
      ∀ d ∈ flattenDisjList acc cs, P d
  | [], _, ha, _ => by rwa [flattenDisjList]
  | c :: cs, acc, ha, hc => by
    rw [flattenDisjList]
    rw [List.forall_mem_cons] at hc
    exact forall_mem_flattenDisjList hT hP (forall_mem_flattenDisj hT hP ha hc.1) hc.2

end

lemma flattenDisj_tidy {c : Constraint} {acc : List Constraint} (ha : ∀ d ∈ acc, d.Tidy F p)
    (hc : c.Tidy F p) : ∀ d ∈ flattenDisj acc c, d.Tidy F p :=
  forall_mem_flattenDisj (fun h => (fits_disj.mp h).2) (fun h _ _ => h) ha hc

lemma flattenDisjList_tidy {cs acc : List Constraint} (ha : ∀ d ∈ acc, d.Tidy F p)
    (hc : ∀ c ∈ cs, c.Tidy F p) : ∀ d ∈ flattenDisjList acc cs, d.Tidy F p :=
  forall_mem_flattenDisjList (fun h => (fits_disj.mp h).2) (fun h _ _ => h) ha hc

mutual

theorem exists_flattenDisj : ∀ {c : Constraint} {acc : List Constraint}, F.Covers v →
    (∀ d ∈ acc, d.Tidy F p) → c.Tidy F p →
      ((∃ d ∈ flattenDisj acc c, d.Holds X v) ↔ (∃ d ∈ acc, d.Holds X v) ∨ c.Holds X v)
  | .disj cs, _, hv, ha, hc => by
    rw [flattenDisj, exists_flattenDisjList hv ha (fits_disj.mp hc).2, holds_disj]
  | .never, _, _, _, _ => by simp [flattenDisj]
  | .kind _, _, hv, ha, _ | .equals _, _, hv, ha, _ | .bound _ _, _, hv, ha, _
  | .field _ _, _, hv, ha, _ | .elements _, _, hv, ha, _ | .length _, _, hv, ha, _
  | .elementAt _ _, _, hv, ha, _ | .conj _, _, hv, ha, _ | .neg _, _, hv, ha, _
  | .fix _, _, hv, ha, _ | .bvar _, _, hv, ha, _ | .ref _, _, hv, ha, _ | .var _, _, hv, ha, _
  | .any, _, hv, ha, _ => by
    rw [flattenDisj]
    · exact exists_pushNew hv ha
    all_goals simp

theorem exists_flattenDisjList : ∀ {cs acc : List Constraint}, F.Covers v →
    (∀ d ∈ acc, d.Tidy F p) → (∀ c ∈ cs, c.Tidy F p) →
      ((∃ d ∈ flattenDisjList acc cs, d.Holds X v) ↔
        (∃ d ∈ acc, d.Holds X v) ∨ ∃ c ∈ cs, c.Holds X v)
  | [], _, _, _, _ => by simp [flattenDisjList]
  | c :: cs, acc, hv, ha, hc => by
    rw [List.forall_mem_cons] at hc
    rw [flattenDisjList, exists_flattenDisjList hv (flattenDisj_tidy ha hc.1) hc.2,
      exists_flattenDisj hv ha hc.1, List.exists_mem_cons_iff, or_assoc]

end

end Lists

lemma sameUnion_flatten {cs : List Constraint} (hcs : ∀ c ∈ cs, c.Tidy F p) :
    SameUnion F (flattenDisjList [] cs) cs := by
  intro X v hv
  have hnil : ∀ d ∈ ([] : List Constraint), d.Tidy F p := by simp
  simpa using exists_flattenDisjList (X := X) hv hnil hcs

/-! ### Truth values -/

lemma eq_ofBool_of_same {c : Constraint} {b : Bool} (h : c == ofBool b) : c = ofBool b := by
  cases c with
  | equals w =>
    have hw : w.same (.bool b) := h
    cases w with
    | bool a => simpa [Value.same, ofBool] using hw
    | _ => exact absurd hw Bool.false_ne_true
  | _ => exact absurd h Bool.false_ne_true

lemma forall_mem_mergeBools {P : Constraint → Prop} {cs : List Constraint} (hkind : P (.kind .bool))
    (hcs : ∀ c ∈ cs, P c) : ∀ c ∈ mergeBools cs, P c := by
  simp only [mergeBools]
  split_ifs
  · exact forall_mem_pushNew (fun c hc => hcs c (List.mem_of_mem_filter hc)) hkind
  · exact hcs

lemma tidy_mergeBools {cs : List Constraint} (hcs : ∀ c ∈ cs, c.Tidy F p) :
    ∀ c ∈ mergeBools cs, c.Tidy F p :=
  forall_mem_mergeBools trivial hcs

lemma sameUnion_mergeBools {cs : List Constraint} (hcs : ∀ c ∈ cs, c.Tidy F p) :
    SameUnion F (mergeBools cs) cs := by
  intro X v hv
  simp only [mergeBools]
  split_ifs with h
  · simp only [Bool.and_eq_true, List.any_eq_true] at h
    obtain ⟨⟨c, hc, hct⟩, d, hd, hdf⟩ := h
    rw [eq_ofBool_of_same hct] at hc
    rw [eq_ofBool_of_same hdf] at hd
    rw [exists_pushNew hv fun c hc => hcs c (List.mem_of_mem_filter hc)]
    constructor
    · rintro (⟨e, he, hev⟩ | hk)
      · exact ⟨e, List.mem_of_mem_filter he, hev⟩
      · cases v <;> simp [Holds, Value.kind, Kind.refines] at hk
        next b =>
          cases b
          · exact ⟨_, hd, rfl⟩
          · exact ⟨_, hc, rfl⟩
    · rintro ⟨e, he, hev⟩
      by_cases hb : e == ofBool true ∨ e == ofBool false
      · right
        obtain ⟨b, rfl⟩ : ∃ b, e = ofBool b :=
          hb.elim (fun h => ⟨_, eq_ofBool_of_same h⟩) fun h => ⟨_, eq_ofBool_of_same h⟩
        have hk := Value.kind_eq_of_same hev
        simp only [Holds, hk]
        rfl
      · left
        rw [not_or] at hb
        exact ⟨e, List.mem_filter.mpr ⟨he, by simpa using hb⟩, hev⟩
  · exact Iff.rfl

/-! ### Branches that others cover -/

section Uncovered

variable {R : Constraint → Constraint → Bool} {P : Constraint → Prop}

lemma exists_mem_uncovered {before cs : List Constraint} {d : Constraint}
    (htrans : ∀ a b c, [a, b, c].Subperm (before ++ cs) → P a → P b → P c → R a b → R b c → R a c)
    (hpass : ∀ c ∈ cs, ∀ d ∈ before ++ cs, P c → R c d → P d) (hd : d ∈ cs) (hP : P d)
    (hbefore : ∀ e ∈ before, R d e = false) : ∃ c ∈ uncovered R before cs, P c := by
  induction cs generalizing before d with
  | nil => exact absurd hd List.not_mem_nil
  | cons x after ih =>
    have hsplit : before ++ x :: after = (before ++ [x]) ++ after := List.append_cons ..
    have htriple : ∀ {e y}, e ∈ before → y ∈ after → [e, x, y].Sublist (before ++ x :: after) :=
      fun he hy => (List.singleton_sublist.mpr he).append
        ((List.singleton_sublist.mpr hy).cons_cons x)
    have hrest : ∀ {y}, y ∈ after → P y → (∀ e ∈ before, R y e = false) → R y x = false →
        ∃ c ∈ uncovered R (before ++ [x]) after, P c := by
      intro y hy hPy hye hyx
      refine ih (hsplit ▸ htrans) (fun c hc d hd => ?_) hy hPy ?_
      · exact hpass c (List.mem_cons_of_mem x hc) d (hsplit ▸ hd)
      · exact List.forall_mem_append.mpr ⟨hye, List.forall_mem_singleton.mpr hyx⟩
    -- a branch after `x` that covers `x` is not covered by `x`, and by no branch before `x` either
    have hnext : P x → (∀ e ∈ before, R x e = false) → ∀ y ∈ after, R x y → R y x = false →
        ∃ c ∈ uncovered R (before ++ [x]) after, P c := by
      intro hx hxe y hy hxy hyx
      have hPy := hpass x List.mem_cons_self y (by simp [hy]) hx hxy
      refine hrest hy hPy (fun e he => ?_) hyx
      by_contra hye
      rw [Bool.not_eq_false] at hye
      have hPe := hpass y (List.mem_cons_of_mem x hy) e (List.mem_append_left _ he) hPy hye
      have hperm : [x, y, e].Perm [e, x, y] :=
        show ([x, y] ++ [e]).Perm ([e] ++ [x, y]) from List.perm_append_comm
      have := htrans x y e (hperm.subperm.trans (htriple he hy).subperm) hx hPy hPe hxy hye
      simp [hxe e he] at this
    rw [uncovered]
    by_cases hcovered : before.any (R x) || after.any fun d => R x d && !R d x
    · rw [if_pos hcovered]
      have hx : P x → (∀ e ∈ before, R x e = false) →
          ∃ c ∈ uncovered R (before ++ [x]) after, P c := by
        intro hx hxe
        rw [Bool.or_eq_true, List.any_eq_true, List.any_eq_true] at hcovered
        rcases hcovered with ⟨e, he, h⟩ | ⟨y, hy, h⟩
        · simp [hxe e he] at h
        · rw [Bool.and_eq_true, Bool.not_eq_true'] at h
          exact hnext hx hxe y hy h.1 h.2
      rcases List.mem_cons.mp hd with rfl | hd
      · exact hx hP hbefore
      · cases hdx : R d x with
        | false => exact hrest hd hP hbefore hdx
        | true =>
          have hPx := hpass d (List.mem_cons_of_mem x hd) x (by simp) hP hdx
          refine hx hPx fun e he => ?_
          by_contra hxe
          rw [Bool.not_eq_false] at hxe
          have hPe := hpass x List.mem_cons_self e (List.mem_append_left _ he) hPx hxe
          have hperm : [d, x, e].Perm [e, x, d] := List.reverse_perm [e, x, d]
          have := htrans d x e (hperm.subperm.trans (htriple he hd).subperm) hP hPx hPe hdx hxe
          simp [hbefore e he] at this
    · rw [if_neg hcovered]
      rcases List.mem_cons.mp hd with rfl | hd
      · exact ⟨d, List.mem_cons_self, hP⟩
      · cases hdx : R d x with
        | false =>
          obtain ⟨c, hc, hPc⟩ := hrest hd hP hbefore hdx
          exact ⟨c, List.mem_cons_of_mem x hc, hPc⟩
        | true =>
          exact ⟨x, List.mem_cons_self, hpass d (List.mem_cons_of_mem x hd) x (by simp) hP hdx⟩

lemma uncovered_sublist (R : Constraint → Constraint → Bool) (before cs : List Constraint) :
    (uncovered R before cs).Sublist cs := by
  induction cs generalizing before with
  | nil => exact List.Sublist.refl _
  | cons x after ih =>
    rw [uncovered]
    split_ifs
    · exact (ih _).cons x
    · exact (ih _).cons_cons x

lemma not_covers_of_mem_uncovered {before cs : List Constraint} {c : Constraint}
    (hc : c ∈ uncovered R before cs) : ∀ e ∈ before, R c e = false := by
  induction cs generalizing before with
  | nil => exact absurd hc List.not_mem_nil
  | cons x after ih =>
    have hrest : c ∈ uncovered R (before ++ [x]) after → ∀ e ∈ before, R c e = false :=
      fun h e he => ih h e (List.mem_append_left _ he)
    rw [uncovered] at hc
    split_ifs at hc with hcovered
    · exact hrest hc
    · rcases List.mem_cons.mp hc with rfl | hc
      · rw [Bool.not_eq_true, Bool.or_eq_false_iff, List.any_eq_false] at hcovered
        exact fun e he => by simpa using hcovered.1 e he
      · exact hrest hc

lemma pairwise_uncovered (R : Constraint → Constraint → Bool) (before cs : List Constraint) :
    (uncovered R before cs).Pairwise fun a b => R a b = false ∧ R b a = false := by
  induction cs generalizing before with
  | nil => exact List.Pairwise.nil
  | cons x after ih =>
    rw [uncovered]
    split_ifs with hcovered
    · exact ih _
    · refine List.pairwise_cons.mpr ⟨fun b hb => ?_, ih _⟩
      have hbx := not_covers_of_mem_uncovered hb x (by simp)
      rw [Bool.not_eq_true, Bool.or_eq_false_iff, List.any_eq_false, List.any_eq_false] at hcovered
      have hxb := hcovered.2 b ((uncovered_sublist _ _ _).subset hb)
      exact ⟨by simpa [hbx] using hxb, hbx⟩

end Uncovered

abbrev Choice := (Constraint → Constraint → Bool) → List Constraint → List Constraint

/-- Every branch leads, from one that is covered to one that covers it, to one that stays. -/
structure Choice.Safe (keep : Choice) : Prop where
  subset : ∀ entails cs, keep entails cs ⊆ cs
  reaches : ∀ entails cs, ∀ c ∈ cs, ∃ d ∈ keep entails cs,
    Relation.ReflTransGen (fun a b => b ∈ cs ∧ entails a b) c d

section Covered

variable {entails : Constraint → Constraint → Bool} (hent : Entails F entails)
  {cs : List Constraint} (hcs : ∀ c ∈ cs, c.Tidy F p)
include hent hcs

lemma holds_of_reaches {c d : Constraint} (hc : c ∈ cs)
    (h : Relation.ReflTransGen (fun a b => b ∈ cs ∧ entails a b) c d) {X : Value → Prop}
    {v : Value} (hv : F.Covers v) (hcv : c.Holds X v) : d ∈ cs ∧ d.Holds X v := by
  induction h with
  | refl => exact ⟨hc, hcv⟩
  | @tail a b _ hab ih =>
    exact ⟨hab.1, hent p a b (hcs a ih.1) (hcs b hab.1) hab.2 X v hv ih.2⟩

lemma sameUnion_keep {keep : Choice} (hkeep : keep.Safe) : SameUnion F (keep entails cs) cs := by
  intro X v hv
  constructor
  · rintro ⟨c, hc, hcv⟩
    exact ⟨c, hkeep.subset entails cs hc, hcv⟩
  · rintro ⟨c, hc, hcv⟩
    obtain ⟨d, hd, hr⟩ := hkeep.reaches entails cs c hc
    exact ⟨d, hd, (holds_of_reaches hent hcs hc hr hv hcv).2⟩

end Covered

lemma finishDisj_spec {cs : List Constraint} (hu : F.unions) (h : ∀ c ∈ cs, c.Tidy F p) :
    IsDisj F p (finishDisj cs) cs := by
  have ht : ∀ c ∈ dedup (sort cs), c.Tidy F p := fun c hc => h c (mem_of_mem_dedup_sort hc)
  have hsame : SameUnion F (dedup (sort cs)) cs := by
    refine fun X v hv => ⟨fun ⟨c, hc, hcv⟩ => ⟨c, mem_of_mem_dedup_sort hc, hcv⟩, ?_⟩
    rintro ⟨c, hc, hcv⟩
    rcases exists_same_mem_dedup_sort hc with hd | ⟨d, hd, hs⟩
    · exact ⟨c, hd, hcv⟩
    · exact ⟨d, hd, (holds_congr (ht d hd).isWellFormed hv.1 hs).mpr hcv⟩
  refine IsDisj.of_sameUnion ?_ hsame
  unfold finishDisj
  split
  · next hd => exact ⟨trivial, fun X v _ => by simp [hd]⟩
  · next c hd =>
    rw [hd] at ht ⊢
    exact ⟨ht c List.mem_cons_self, fun X v _ => by simp⟩
  · exact ⟨fits_disj.mpr ⟨hu, ht⟩, fun X v _ => holds_disj⟩

/-! ### Distribution -/

lemma tidy_branchesOf {c : Constraint} (h : c.Tidy F p) : ∀ b ∈ branchesOf c, b.Tidy F p := by
  cases c with
  | disj cs => exact (fits_disj.mp h).2
  | _ => simpa [branchesOf] using h

lemma holds_branchesOf (c : Constraint) (X : Value → Prop) (v : Value) :
    (∃ b ∈ branchesOf c, b.Holds X v) ↔ c.Holds X v := by
  cases c <;> simp [branchesOf]

def extendCombos (combos : List (List Constraint)) (d : Constraint) : List (List Constraint) :=
  combos.flatMap fun combo => (branchesOf d).map fun b => combo ++ [b]

lemma combinations_eq (start disjunctions : List Constraint) :
    combinations start disjunctions = disjunctions.foldl extendCombos [start] := rfl

lemma tidy_combinations {start disjunctions : List Constraint} (hs : ∀ c ∈ start, c.Tidy F p)
    (hd : ∀ d ∈ disjunctions, d.Tidy F p) :
    ∀ combo ∈ combinations start disjunctions, ∀ c ∈ combo, c.Tidy F p := by
  rw [combinations_eq]
  have hi : ∀ combos : List (List Constraint), (∀ combo ∈ combos, ∀ c ∈ combo, c.Tidy F p) →
      ∀ combo ∈ disjunctions.foldl extendCombos combos, ∀ c ∈ combo, c.Tidy F p := by
    induction disjunctions with
    | nil => exact fun combos h => h
    | cons d ds ih =>
      intro combos h
      rw [List.forall_mem_cons] at hd
      refine ih hd.2 _ fun combo hc => ?_
      simp only [extendCombos, List.mem_flatMap, List.mem_map] at hc
      obtain ⟨old, ho, b, hb, rfl⟩ := hc
      exact List.forall_mem_append.mpr ⟨h old ho, by simpa using tidy_branchesOf hd.1 b hb⟩
  exact hi [start] (by simpa using hs)

lemma holds_combinations (start disjunctions : List Constraint) (X : Value → Prop) (v : Value) :
    (∃ combo ∈ combinations start disjunctions, ∀ c ∈ combo, c.Holds X v) ↔
      (∀ c ∈ start, c.Holds X v) ∧ ∀ d ∈ disjunctions, d.Holds X v := by
  rw [combinations_eq]
  have hi : ∀ combos : List (List Constraint),
      (∃ combo ∈ disjunctions.foldl extendCombos combos, ∀ c ∈ combo, c.Holds X v) ↔
        (∃ combo ∈ combos, ∀ c ∈ combo, c.Holds X v) ∧ ∀ d ∈ disjunctions, d.Holds X v := by
    induction disjunctions with
    | nil => simp
    | cons d ds ih =>
      intro combos
      have hextend : (∃ combo ∈ extendCombos combos d, ∀ c ∈ combo, c.Holds X v) ↔
          (∃ combo ∈ combos, ∀ c ∈ combo, c.Holds X v) ∧ d.Holds X v := by
        rw [← holds_branchesOf d X v]
        constructor
        · rintro ⟨combo, hc, hall⟩
          simp only [extendCombos, List.mem_flatMap, List.mem_map] at hc
          obtain ⟨old, ho, b, hb, rfl⟩ := hc
          rw [List.forall_mem_append] at hall
          exact ⟨⟨old, ho, hall.1⟩, b, hb, by simpa using hall.2⟩
        · rintro ⟨⟨old, ho, hall⟩, b, hb, hbv⟩
          refine ⟨old ++ [b], ?_, List.forall_mem_append.mpr ⟨hall, by simpa using hbv⟩⟩
          simp only [extendCombos, List.mem_flatMap, List.mem_map]
          exact ⟨old, ho, b, hb, rfl⟩
      rw [List.foldl_cons, ih, hextend, List.forall_mem_cons, and_assoc]
  simpa using hi [start]

lemma unions_of_isDisj {c : Constraint} (h : c.Tidy F p) (hd : c.isDisj) : F.unions := by
  cases c <;> simp [isDisj] at hd
  exact (fits_disj.mp h).1

lemma distribute?_spec {conj disj : List Constraint → Constraint} (hconj : Conjoins F conj)
    (hdisj : F.unions → Disjoins F disj) {flat : List Constraint}
    (hflat : ∀ c ∈ flat, c.Tidy F p) {c : Constraint} (h : distribute? conj disj flat = some c) :
    IsConj F p c flat := by
  simp only [distribute?] at h
  split_ifs at h with hnone
  obtain rfl := Option.some.inj h
  rw [Bool.or_eq_true, not_or] at hnone
  have htidy : ∀ combo ∈ combinations (flat.filter fun c => !c.isDisj) (flat.filter isDisj),
      ∀ c ∈ combo, c.Tidy F p :=
    tidy_combinations (fun c hc => hflat c (List.mem_of_mem_filter hc))
      fun c hc => hflat c (List.mem_of_mem_filter hc)
  obtain ⟨d, hd⟩ : ∃ d, d ∈ flat.filter isDisj :=
    List.exists_mem_of_ne_nil _ (by simpa using hnone.1)
  rw [List.mem_filter] at hd
  have hu : F.unions := unions_of_isDisj (hflat d hd.1) hd.2
  have hunion := hdisj hu p _
    (List.forall_mem_map.mpr fun combo hm => (hconj p combo (htidy combo hm)).tidy)
  refine ⟨hunion.tidy, fun X v hv => (hunion.holds X v hv).trans ?_⟩
  have hsplit : (∀ c ∈ flat, c.Holds X v) ↔ (∀ c ∈ flat.filter fun c => !c.isDisj, c.Holds X v) ∧
      ∀ c ∈ flat.filter isDisj, c.Holds X v := by
    simp only [List.mem_filter, Bool.not_eq_true', and_imp]
    refine ⟨fun h => ⟨fun c hc _ => h c hc, fun c hc _ => h c hc⟩, fun h c hc => ?_⟩
    cases hcd : c.isDisj with
    | true => exact h.2 c hc hcd
    | false => exact h.1 c hc hcd
  rw [hsplit, ← holds_combinations]
  simp only [List.mem_map, exists_exists_and_eq_and]
  refine exists_congr fun combo => and_congr_right fun hm => ?_
  exact (hconj p combo (htidy combo hm)).holds X v hv

end Stagewise.Constraint
