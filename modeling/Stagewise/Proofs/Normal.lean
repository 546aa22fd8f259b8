import Stagewise.Proofs.Entailment

/-! In each fragment, the normal form of a constraint has the values of the constraint, and what
entailment and disjointness find is so. The functions depend on each other: resolving negations and
dropping branches ask for entailment, entailment asks whether a conjunction is contradictory and
unfolds recursive constraints. The proof is therefore one induction on the allowance, for all of
them at once. It leaves open which branches of a union stay. -/

set_option autoImplicit false

namespace Stagewise.Constraint

/-! ### The normal form by a choice of branches -/

mutual

def normalizeBy (keep : Choice) : Nat → Constraint → Constraint
  | 0, c => c
  | n + 1, c =>
    match c with
    | .conj cs => conjunctionBy keep n true (cs.map (normalizeBy keep n))
    | .disj cs => disjunctionBy keep n (cs.map (normalizeBy keep n))
    | .neg c => negate (normalizeBy keep n c)
    | .field name c => finishPart (.field name) (normalizeBy keep n c)
    | .elementAt i c => finishPart (.elementAt i) (normalizeBy keep n c)
    | .elements c => .elements (normalizeBy keep n c)
    | .length c =>
      let inner := normalizeBy keep n c
      if inner.isNever then .never
      else if (conjunctionBy keep n false [inner, .kind .number, .bound .ge Number.zero]).isNever
        then .never
      else .length inner
    | .fix body => finishFix (normalizeBy keep n body)
    | .bound r x => if x.isNaN then .never else .bound r x
    | c => c
termination_by structural n => n

def conjunctionBy (keep : Choice) : Nat → Bool → List Constraint → Constraint
  | 0, _, cs => .conj (cs.map fun c => .conj [c])
  | n + 1, unroll, cs =>
    let flat := flattenConjList [] cs
    if flat.any isNever then .never
    else if flat.length ≤ 1 then finishConj flat
    else if unroll && flat.any isUnrollable then
      conjunctionBy keep n false
        (flat.map fun c => if c.isUnrollable then normalizeBy keep n c.unfold else c)
    else
      match distribute? (conjunctionBy keep n unroll) (disjunctionBy keep n) flat with
      | some c => c
      | none =>
        conjoinFlat (conjunctionBy keep n unroll) (conjunctionBy keep n false)
          (entailsBy keep n []) flat
termination_by structural n => n

def disjunctionBy (keep : Choice) : Nat → List Constraint → Constraint
  | 0, cs => .disj cs
  | n + 1, cs =>
    let flat := flattenDisjList [] cs
    if flat.any isAny then .any
    else finishDisj (keep (entailsBy keep n []) (mergeBools flat))
termination_by structural n => n

def entailsBy (keep : Choice) : Nat → Assumptions → Constraint → Constraint → Bool
  | 0, _, _, _ => false
  | n + 1, assumed, a, b =>
    entailsStep (normalizeBy keep n) (conjunctionBy keep n false) (entailsBy keep n) assumed a b
termination_by structural n => n

end

def keepUncovered : Choice := fun entails => uncovered entails []

lemma by_keepUncovered (n : Nat) : normalizeBy keepUncovered n = normalize n ∧
    conjunctionBy keepUncovered n = conjunction n ∧
    disjunctionBy keepUncovered n = disjunction n ∧
    entailsBy keepUncovered n = entails n := by
  induction n with
  | zero => exact ⟨rfl, rfl, rfl, rfl⟩
  | succ n ih =>
    obtain ⟨hn, hc, hd, he⟩ := ih
    refine ⟨funext fun c => ?_, funext₂ fun unroll cs => ?_, funext fun cs => ?_,
      funext₃ fun assumed a b => ?_⟩
    · cases c <;> simp only [normalizeBy, normalize, hn, hc, hd]
    · rw [conjunctionBy, hn, hc, hd, he]
      rfl
    · rw [disjunctionBy, he]
      rfl
    · simp only [entailsBy, entails, hn, hc, he]

/-! ### Normal forms -/

variable {F : Fragment} {keep : Choice} {n : Nat} {p : Position}

lemma size_pos (c : Constraint) : 1 ≤ c.size := by
  cases c <;> simp [size]

lemma size_le_sizeList {c : Constraint} {cs : List Constraint} (h : c ∈ cs) :
    c.size ≤ sizeList cs := by
  induction cs with
  | nil => simp at h
  | cons d cs ih =>
    rw [sizeList]
    rcases List.mem_cons.mp h with rfl | h
    · omega
    · have := ih h
      omega

lemma negate_spec {c : Constraint} (hn : F.negations) (h : c.Tidy F .plain) :
    (negate c).Tidy F .plain ∧
      ∀ (X : Value → Prop) (v : Value), (negate c).Holds X v ↔ ¬ c.Holds X v := by
  unfold negate
  split
  · exact ⟨h.2.2, fun X v => by simp⟩
  · exact ⟨trivial, fun X v => by simp⟩
  · exact ⟨trivial, fun X v => by simp⟩
  · exact ⟨⟨hn, rfl, h⟩, fun X v => by simp⟩

/-- A fragment in which the choice loses nothing. Entailment is only asked for where it can be
trusted. -/
structure Suits (F : Fragment) (keep : Choice) : Prop where
  busy : F.negations ∨ F.unions → F.idle = false
  safe : F.unions → keep.Safe

structure SoundAt (F : Fragment) (keep : Choice) (n : Nat) : Prop where
  normalize : ∀ (p : Position) (c : Constraint), c.Fits F false p → c.size ≤ n ∨ c.Tidy F p →
    IsNormal F p (normalizeBy keep n c) c
  conjunction : ∀ unroll, Conjoins F (conjunctionBy keep n unroll)
  disjunction : F.unions → Disjoins F (disjunctionBy keep n)
  entails : F.idle = false → EntailsUnder F (entailsBy keep n)
  findsClash : FindsClash F (normalizeBy keep n)

lemma soundAt_zero : SoundAt F keep 0 where
  normalize p c _ h := by
    have hc : c.Tidy F p := h.resolve_left (by have := size_pos c; omega)
    exact ⟨hc, fun _ _ _ => Iff.rfl⟩
  conjunction unroll p cs hcs := by
    rw [conjunctionBy]
    refine ⟨tidy_conj.mpr ⟨?_, ?_⟩, fun X v _ => by simp⟩
    · simp [List.countP_map, Function.comp_def, isElements]
    · refine List.forall_mem_map.mpr fun c hc => tidy_conj.mpr ⟨?_, by simpa using hcs c hc⟩
      exact Nat.le_trans List.countP_le_length (by simp)
  disjunction hu p cs hcs := ⟨fits_disj.mpr ⟨hu, hcs⟩, fun X v _ => holds_disj⟩
  entails _ X s p q assumed a b _ _ _ _ h := by simp [entailsBy] at h
  findsClash p a b _ _ h := by simp [normalizeBy, isNever] at h

namespace SoundAt

variable (h : SoundAt F keep n)
include h

lemma normalizes : Normalizes F (normalizeBy keep n) :=
  fun p c hc => h.normalize p c hc.of_tidy (Or.inr hc)

lemma normalize_unfold {c : Constraint} (hc : c.Tidy F p) :
    IsNormal F p (if c.isUnrollable then normalizeBy keep n c.unfold else c) c := by
  split_ifs with hu
  · cases c <;> simp only [isUnrollable, Bool.false_eq_true] at hu
    obtain ⟨ht, _, hle⟩ := fits_unfold_at_depth hc
    have hn := h.normalizes _ _ ht
    obtain ⟨k, _, hb⟩ := hc
    exact ⟨hn.tidy.mono hle, fun X v hv => (hn.holds X v hv).trans (holds_unfold hb)⟩
  · exact ⟨hc, fun X v _ => Iff.rfl⟩

lemma conjunction_succ (hF : Suits F keep) (unroll : Bool) :
    Conjoins F (conjunctionBy keep (n + 1) unroll) := by
  intro p cs hcs
  have hnil : ∀ d ∈ ([] : List Constraint), d.Tidy F p := by simp
  have hflat := flattenConjList_tidy hnil hcs
  have hagree : Agree F cs (flattenConjList [] cs) := fun X v hv =>
    (forall_flatten (isConjunctive_holds X hv) hcs).symm
  refine IsConj.of_agree ?_ hagree
  rw [conjunctionBy]
  split_ifs with hnever hone hfix
  · obtain ⟨c, hc, hn⟩ := List.any_eq_true.mp hnever
    refine Clash.isConj fun X v hv hall => ?_
    have hcv := hall c hc
    rwa [eq_never_of_isNever hn] at hcv
  · exact finishConj_spec hflat (Nat.le_trans List.countP_le_length hone)
  · have hm := h.conjunction false p _ (List.forall_mem_map.mpr fun c hc =>
      (h.normalize_unfold (hflat c hc)).tidy)
    refine ⟨hm.tidy, fun X v hv => (hm.holds X v hv).trans ?_⟩
    rw [List.forall_mem_map]
    exact forall₂_congr fun c hc => (h.normalize_unfold (hflat c hc)).holds X v hv
  · split
    · next c hd => exact distribute?_spec (h.conjunction unroll) h.disjunction hflat hd
    · refine conjoinFlat_spec (h.conjunction unroll) (h.conjunction false) (fun hn => ?_) hflat
      exact (h.entails (hF.busy (Or.inl hn))).entails_nil

lemma disjunction_succ (hF : Suits F keep) (hu : F.unions) :
    Disjoins F (disjunctionBy keep (n + 1)) := by
  intro p cs hcs
  have hnil : ∀ d ∈ ([] : List Constraint), d.Tidy F p := by simp
  have hflat := flattenDisjList_tidy hnil hcs
  refine IsDisj.of_sameUnion ?_ (sameUnion_flatten hcs)
  rw [disjunctionBy]
  split_ifs with hany
  · obtain ⟨c, hc, ha⟩ := List.any_eq_true.mp hany
    obtain rfl : c = .any := by cases c <;> simp_all [isAny]
    exact ⟨trivial, fun X v _ => ⟨fun _ => ⟨.any, hc, trivial⟩, fun _ => trivial⟩⟩
  · have hmerge := tidy_mergeBools hflat
    have hsafe := hF.safe hu
    have hent := (h.entails (hF.busy (Or.inr hu))).entails_nil
    refine (finishDisj_spec hu fun c hc => hmerge c (hsafe.subset _ _ hc)).of_sameUnion
      ((sameUnion_keep hent hmerge hsafe).trans (sameUnion_mergeBools hflat))

lemma normalize_conj (cs : List Constraint)
    (hcs : ∀ c ∈ cs, c.Fits F false p ∧ (c.size ≤ n ∨ c.Tidy F p)) :
    IsNormal F p (normalizeBy keep (n + 1) (.conj cs)) (.conj cs) := by
  have hparts := fun c hc => h.normalize p c (hcs c hc).1 (hcs c hc).2
  have hm := h.conjunction true p (cs.map (normalizeBy keep n))
    (List.forall_mem_map.mpr fun c hc => (hparts c hc).tidy)
  refine ⟨hm.tidy, fun X v hv => (hm.holds X v hv).trans ?_⟩
  rw [List.forall_mem_map, holds_conj]
  exact forall₂_congr fun c hc => (hparts c hc).holds X v hv

lemma normalize_disj (hu : F.unions) (cs : List Constraint)
    (hcs : ∀ c ∈ cs, c.Fits F false p ∧ (c.size ≤ n ∨ c.Tidy F p)) :
    IsNormal F p (normalizeBy keep (n + 1) (.disj cs)) (.disj cs) := by
  have hparts := fun c hc => h.normalize p c (hcs c hc).1 (hcs c hc).2
  have hm := h.disjunction hu p (cs.map (normalizeBy keep n))
    (List.forall_mem_map.mpr fun c hc => (hparts c hc).tidy)
  refine ⟨hm.tidy, fun X v hv => (hm.holds X v hv).trans ?_⟩
  simp only [List.mem_map, exists_exists_and_eq_and, holds_disj]
  exact exists_congr fun c => and_congr_right fun hc => (hparts c hc).holds X v hv

omit h in
lemma finishPart_spec (wrap : Constraint → Constraint) {inner : Constraint}
    (ht : (wrap inner).Tidy F p)
    (hnever : ∀ (X : Value → Prop) (v : Value), ¬ (wrap .never).Holds X v) :
    IsNormal F p (finishPart wrap inner) (wrap inner) := by
  rw [finishPart]
  split_ifs with hn
  · rw [eq_never_of_isNever hn]
    exact ⟨trivial, fun X v _ => ⟨False.elim, hnever X v⟩⟩
  · exact ⟨ht, fun X v _ => Iff.rfl⟩

lemma normalize_length {c : Constraint} (hl : F.lengths) (hex : F.idle ∨ c.Excludes)
    (hc : IsNormal F .plain (normalizeBy keep n c) c) :
    IsNormal F p (normalizeBy keep (n + 1) (.length c)) (.length c) := by
  have hinner (X : Value → Prop) (x : Number) := hc.holds X _ (F.covers_number x)
  have hlength (X : Value → Prop) (v : Value) :
      (length (normalizeBy keep n c)).Holds X v ↔ (length c).Holds X v :=
    holds_length_congr F.hereditary_covers fun hw => hc.holds X _ hw
  simp only [normalizeBy]
  split_ifs with hn hm
  · refine ⟨trivial, fun X v hv => ⟨False.elim, fun hcv => ?_⟩⟩
    obtain ⟨items, _, hd⟩ := (hlength X v).mpr hcv
    rwa [eq_never_of_isNever hn] at hd
  · refine ⟨trivial, fun X v hv => ⟨False.elim, fun hcv => ?_⟩⟩
    obtain ⟨items, rfl, hd⟩ := (hlength X v).mpr hcv
    have htidy : ∀ d ∈ [normalizeBy keep n c, .kind .number, .bound .ge Number.zero],
        d.Tidy F .plain := by
      simpa [Tidy, Fits] using ⟨hc.tidy, by decide⟩
    refine (h.conjunction false .plain _ htidy).clash hm X (.ofNat items.length)
      (F.covers_number _) ?_
    simpa using ⟨hd, rfl, _, rfl, Number.zero_le_ofNat (hv.length_lt hl)⟩
  · refine ⟨⟨hl, hex.imp id ?_, hc.tidy⟩, fun X v _ => hlength X v⟩
    rintro ⟨x, hx, hn⟩
    exact ⟨x, hx, fun hd => hn ((hinner _ x).mp hd)⟩

lemma normalize_succ {c : Constraint} (hc : c.Fits F false p)
    (hfit : c.size ≤ n + 1 ∨ c.Tidy F p) : IsNormal F p (normalizeBy keep (n + 1) c) c := by
  have hmem {cs : List Constraint} (hs : c.size = sizeList cs + 1)
      (hf : ∀ d ∈ cs, d.Fits F false p) (ht : c.Tidy F p → ∀ d ∈ cs, d.Tidy F p) :
      ∀ d ∈ cs, d.Fits F false p ∧ (d.size ≤ n ∨ d.Tidy F p) := by
    refine fun d hd => ⟨hf d hd, hfit.imp (fun hle => ?_) fun h => ht h d hd⟩
    have := size_le_sizeList hd
    omega
  have hpart {d : Constraint} {q : Position} (hs : c.size = d.size + 1)
      (ht : c.Tidy F p → d.Tidy F q) (hd : d.Fits F false q) :
      IsNormal F q (normalizeBy keep n d) d :=
    h.normalize q d hd (hfit.imp (by omega) ht)
  cases c with
  | conj cs =>
    exact h.normalize_conj cs (hmem rfl (fits_conj.mp hc).2 fun ht => (tidy_conj.mp ht).2)
  | disj cs =>
    exact h.normalize_disj (fits_disj.mp hc).1 cs
      (hmem rfl (fits_disj.mp hc).2 fun ht => (fits_disj.mp ht).2)
  | neg d =>
    obtain ⟨hn, rfl, hd⟩ := hc
    have hm := hpart (d := d) rfl (fun ht => ht.2.2) hd
    obtain ⟨ht, hneg⟩ := negate_spec hn hm.tidy
    exact ⟨ht, fun X v hv => (hneg X v).trans (not_congr (hm.holds X v hv))⟩
  | field name d =>
    have hm := hpart (d := d) rfl id hc
    have hf := finishPart_spec (p := p) (.field name) hm.tidy
      fun X v ⟨_, _, _, _, hf⟩ => hf
    exact ⟨hf.tidy, fun X v hv => (hf.holds X v hv).trans
      (holds_field_congr F.hereditary_covers (fun hw => hm.holds X _ hw) hv)⟩
  | elementAt i d =>
    have hm := hpart (d := d) rfl id hc
    have hf := finishPart_spec (p := p) (.elementAt i) hm.tidy
      fun X v ⟨_, _, _, _, hf⟩ => hf
    exact ⟨hf.tidy, fun X v hv => (hf.holds X v hv).trans
      (holds_elementAt_congr F.hereditary_covers (fun hw => hm.holds X _ hw) hv)⟩
  | elements d =>
    have hm := hpart (d := d) rfl id hc
    exact ⟨hm.tidy, fun X v hv =>
      holds_elements_congr F.hereditary_covers (fun hw => hm.holds X _ hw) hv⟩
  | length d =>
    exact h.normalize_length hc.1 hc.2.1 (hpart (d := d) rfl (fun ht => ht.2.2) hc.2.2)
  | fix body =>
    obtain ⟨k, hk, hm⟩ : ∃ k, p.Allows k ∧
        IsNormal F (.shallow k) (normalizeBy keep n body) body := by
      rcases hfit with hs | ht
      · obtain ⟨k, hk, hb⟩ := hc
        exact ⟨k, hk, h.normalize _ body hb (Or.inl (Nat.le_of_succ_le_succ hs))⟩
      · obtain ⟨k, hk, hb⟩ := ht
        exact ⟨k, hk, h.normalizes _ body hb⟩
    obtain ⟨ht, hf⟩ := finishFix_spec hk hm.tidy
    exact ⟨ht, fun X v hv => (hf X v).trans (holds_fix_congr F.hereditary_covers hm.holds hv)⟩
  | bound r x =>
    rw [normalizeBy]
    split_ifs with hx
    · refine ⟨trivial, fun X v hv => ⟨False.elim, ?_⟩⟩
      rintro ⟨y, rfl, hy⟩
      simp [(Comparison.not_isNaN_of_holds hy).2] at hx
    · exact ⟨⟨hc.1, fun _ => by simpa using hx⟩, fun X v hv => Iff.rfl⟩
  | kind | equals | any | never | bvar => exact ⟨hc, fun X v hv => Iff.rfl⟩
  | ref | var => exact hc.elim

end SoundAt

theorem soundAt (hF : Suits F keep) (n : Nat) : SoundAt F keep n := by
  induction n with
  | zero => exact soundAt_zero
  | succ n ih =>
    refine ⟨fun p c hc hfit => ih.normalize_succ hc hfit, ih.conjunction_succ hF,
      ih.disjunction_succ hF, fun hidle => ?_, fun p a b ha hb hn X v hv hall => ?_⟩
    · simpa only [entailsBy] using entailsStep_sound ih.normalizes (ih.entails hidle)
        (ih.conjunction false) ih.findsClash hidle
    · have hm := ih.normalize_conj (p := p) [a, b]
        (by simpa using ⟨⟨ha.of_tidy, Or.inr ha⟩, hb.of_tidy, Or.inr hb⟩)
      have hv := (hm.holds X v hv).mpr (holds_conj.mpr hall)
      rwa [eq_never_of_isNever hn] at hv

/-! ### The algebra by a choice of branches -/

lemma size_le_allowance (n : Nat) : n ≤ allowance n :=
  Nat.le_of_lt (Nat.lt_trans Nat.lt_two_pow_self (Nat.pow_lt_pow_right (by decide) (by omega)))

def simplifyBy (keep : Choice) (c : Constraint) : Constraint :=
  normalizeBy keep (allowance c.size) c

lemma simplifyBy_keepUncovered (c : Constraint) : simplifyBy keepUncovered c = c.simplify := by
  rw [simplifyBy, simplify, (by_keepUncovered _).1]

lemma isNormal_simplifyBy (hF : Suits F keep) {c : Constraint} (hc : c.Fits F false p) :
    IsNormal F p (simplifyBy keep c) c :=
  (soundAt hF _).normalize p c hc (Or.inl (size_le_allowance c.size))

lemma isNormal_simplify_of_suits (hF : Suits F keepUncovered) {c : Constraint}
    (hc : c.Fits F false p) : IsNormal F p c.simplify c := by
  rw [← simplifyBy_keepUncovered]
  exact isNormal_simplifyBy hF hc

lemma holds_of_implies (hF : Suits F keepUncovered) (hidle : F.idle = false) {a b : Constraint}
    (ha : a.Fits F false p) (hb : b.Fits F false p) (h : a.implies b) {X : Value → Prop}
    {v : Value} (hv : F.Covers v) (hav : a.Holds X v) : b.Holds X v := by
  have hna := isNormal_simplify_of_suits hF ha
  have hnb := isNormal_simplify_of_suits hF hb
  simp only [implies, ← (by_keepUncovered _).2.2.2] at h
  generalize a.simplify = a' at h hna
  generalize b.simplify = b' at h hnb
  have hent := ((soundAt hF (allowance (a'.size + b'.size))).entails hidle).entails_nil
  have hb' := hent _ _ _ hna.tidy hnb.tidy h X v hv ((hna.holds X v hv).mpr hav)
  exact (hnb.holds X v hv).mp hb'

/-! ### The core of the algebra -/

lemma suits_core (keep : Choice) : Suits .core keep :=
  ⟨fun _ => rfl, by simp [Fragment.core]⟩

lemma isNormal_simplify_of_isCore {c : Constraint} (hc : c.isCore) :
    IsNormal .core .plain c.simplify c :=
  isNormal_simplify_of_suits (suits_core _) (fits_of_isCore hc)

lemma covers_core {v : Value} (hv : v.isWellFormed) : Fragment.core.Covers v :=
  ⟨hv, by simp [Fragment.core]⟩

lemma implies_sound {a b : Constraint} (ha : a.isCore) (hb : b.isCore) (h : a.implies b)
    {X : Value → Prop} {v : Value} (hv : v.isWellFormed) (hav : a.Holds X v) : b.Holds X v :=
  holds_of_implies (suits_core _) rfl (fits_of_isCore ha) (fits_of_isCore hb) h (covers_core hv) hav

lemma disjoint_sound {a b : Constraint} (ha : a.isCore) (hb : b.isCore) (h : a.disjoint b)
    {X : Value → Prop} {v : Value} (hv : v.isWellFormed) : ¬ (a.Holds X v ∧ b.Holds X v) := by
  have hcore : (Constraint.conj [a, b]).isCore := by simp [isCore, areCore, ha, hb]
  have hm := (isNormal_simplify_of_isCore hcore).holds X v (covers_core hv)
  rw [disjoint, unify] at h
  rw [eq_never_of_isNever h] at hm
  exact fun hall => hm.mpr (by simpa using hall)

/-- On the conjunctive core the algebra keeps to the membership test: a normal form admits the
same values, an entailment that is found holds of every value, and constraints found disjoint
share none. -/
theorem core_algebra_sound {v : Value} (hv : v.isWellFormed) :
    (∀ c : Constraint, c.isCore → c.simplify.admits v = c.admits v) ∧
    (∀ a b : Constraint, a.isCore → b.isCore → a.implies b → a.admits v → b.admits v) ∧
    (∀ a b : Constraint, a.isCore → b.isCore → a.disjoint b → ¬ (a.admits v ∧ b.admits v)) := by
  have hiff {c : Constraint} (hc : c.isCore) :=
    (fits_of_isCore hc).admits_iff (v := v) fun _ => True
  refine ⟨fun c hc => ?_, fun a b ha hb h => ?_, fun a b ha hb h => ?_⟩
  · have hn := isNormal_simplify_of_isCore hc
    generalize c.simplify = d at hn ⊢
    rw [Bool.eq_iff_iff, hiff hc, hn.tidy.admits_iff]
    exact hn.holds _ v (covers_core hv)
  · rw [hiff ha, hiff hb]
    exact implies_sound ha hb h hv
  · rw [hiff ha, hiff hb]
    exact disjoint_sound ha hb h hv

theorem core_algebra_sound_record :
    let v : Value := .object [("n", .number (Number.ofNat 3))]
    let above := Constraint.field "n" (.bound .gt (Number.ofNat 2))
    let notAbove := Constraint.field "n" (.neg (.bound .gt (Number.ofNat 1)))
    (Constraint.conj [above, .neg notAbove]).simplify.admits v =
        (Constraint.conj [above, .neg notAbove]).admits v ∧
      (above.admits v ∧ above.implies (.neg notAbove)) ∧ (Constraint.neg notAbove).admits v ∧
      above.disjoint notAbove ∧ ¬ notAbove.admits v := by
  intro v above notAbove
  obtain ⟨hsimp, himp, hdis⟩ := core_algebra_sound (v := v) (by decide)
  have hav : above.admits v := by decide +kernel
  have hab : above.implies (.neg notAbove) := by decide +kernel
  have han : above.disjoint notAbove := by decide +kernel
  exact ⟨hsimp _ (by decide), ⟨hav, hab⟩, himp _ _ (by decide) (by decide) hab hav, han,
    fun hnv => hdis _ _ (by decide) (by decide) han ⟨hav, hnv⟩⟩

end Stagewise.Constraint
