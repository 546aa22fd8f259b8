import Stagewise.Constraint.Projection
import Stagewise.Proofs.ValueUnion

/-! What a constraint of the conjunctive core tells about the fields, the items and the length of a
value: each projection admits the part of every value of the constraint. In its normal form a
literal stands alone, so that a projection meets either one literal, or members each of which speaks
of the part by itself. -/

set_option autoImplicit false

namespace Stagewise

namespace Value

mutual

theorem isShort_of_same : ∀ {v w : Value}, v.same w → w.isShort → v.isShort
  | .object _, .object _, h, hw => by
    rw [same, Bool.and_eq_true] at h
    exact areShortFields_of_same (sameFields_iff.mp h.2) (areShortFields_iff.mp hw)
  | .array _, .array _, h, hw => by
    rw [same] at h
    simp only [isShort, Bool.and_eq_true, decide_eq_true_eq] at hw ⊢
    rw [(sameItems_iff.mp h).length_eq]
    exact ⟨hw.1, areShort_of_same h hw.2⟩
  | .number _, _, _, _ | .string _, _, _, _ | .bool _, _, _, _ | .null, _, _, _
  | .closure _ _, _, _, _ | .builtin _, _, _, _ | .type _, _, _, _ => rfl

theorem areShortFields_of_same : ∀ {fields others : List (String × Value)},
    (∀ p ∈ fields, ∃ w, Association.find? p.1 others = some w ∧ p.2.same w) →
    (∀ p ∈ others, p.2.isShort) → areShortFields fields
  | [], _, _, _ => rfl
  | (name, v) :: fields, others, h, ho => by
    obtain ⟨⟨w, hw, hvw⟩, hrest⟩ := List.forall_mem_cons.mp h
    rw [areShortFields, Bool.and_eq_true]
    exact ⟨isShort_of_same hvw (ho _ (Association.mem_of_find?_eq_some hw)),
      areShortFields_of_same hrest ho⟩

theorem areShort_of_same : ∀ {items others : List Value}, sameItems items others →
    areShort others → areShort items
  | [], _, _, _ => rfl
  | v :: items, w :: others, h, ho => by
    rw [sameItems, Bool.and_eq_true] at h
    rw [areShort, Bool.and_eq_true] at ho ⊢
    exact ⟨isShort_of_same h.1 ho.1, areShort_of_same h.2 ho.2⟩

end

end Value

namespace Constraint

/-! ### Literals stand alone -/

mutual

def isMerged : Constraint → Bool
  | .conj cs => areMerged cs
  | .neg c => c.isMerged
  | _ => true
termination_by structural c => c

def areMerged : List Constraint → Bool
  | [] => true
  | c :: cs => c.isFlat && c.literal?.isNone && c.isMerged && areMerged cs
termination_by structural cs => cs

end

lemma areMerged_iff {cs : List Constraint} :
    areMerged cs ↔ ∀ c ∈ cs, c.isFlat ∧ c.literal? = none ∧ c.isMerged := by
  induction cs with
  | nil => simp [areMerged]
  | cons c cs ih => simp [areMerged, ih, and_assoc]

lemma isMerged_finishConj {cs : List Constraint}
    (h : ∀ c ∈ cs, c.isMerged ∧ (2 ≤ cs.length → c.isFlat ∧ c.literal? = none)) :
    (finishConj cs).isMerged := by
  have hlen : (dedup (sort cs)).length ≤ cs.length :=
    (sort_perm cs).length_eq ▸ (dedup_sublist (sort cs)).length_le
  have hmem : ∀ c ∈ dedup (sort cs), c.isMerged ∧ (2 ≤ cs.length → c.isFlat ∧ c.literal? = none) :=
    fun c hc => h c (mem_of_mem_dedup_sort hc)
  unfold finishConj
  generalize dedup (sort cs) = ds at hlen hmem
  rcases ds with _ | ⟨c, _ | ⟨d, ds⟩⟩
  · rfl
  · exact (hmem c List.mem_cons_self).1
  · refine areMerged_iff.mpr fun e he => ?_
    obtain ⟨hmerged, hflat⟩ := hmem e he
    obtain ⟨hflat, hlit⟩ := hflat (Nat.le_trans (by simp) hlen)
    exact ⟨hflat, hlit, hmerged⟩

structure IsPiece (c : Constraint) : Prop where
  tidy : c.Tidy .core .plain
  flat : c.isFlat
  merged : c.isMerged

lemma hasProperBounds_isPiece : HasProperBounds IsPiece where
  bound := ⟨fun h => h.tidy.2 rfl, fun h => ⟨⟨rfl, fun _ => h⟩, rfl, rfl⟩⟩
  equals _ := ⟨⟨rfl, rfl, by simp [Fragment.core], by simp [Fragment.core]⟩, rfl, rfl⟩
  neg_bound h := h.tidy.2.2.2 rfl

section Conjunctions

variable {conj conjPlain : List Constraint → Constraint} (hconj : Conjoins .core conj)
  (hplain : Conjoins .core conjPlain) {entails : Constraint → Constraint → Bool}
  (hent : Entails .core entails) {flat : List Constraint} (hflat : ∀ c ∈ flat, IsPiece c)

include hconj hplain hflat

lemma isPiece_mergeStructure {out : List Constraint}
    (h : mergeStructure conj conjPlain flat = some out) : ∀ c ∈ out, IsPiece c := by
  have htidy := (mergeStructure_spec hconj hplain (fun c hc => (hflat c hc).tidy) h).1
  have hothers := ((Structure.all_ofList flat IsPiece).mpr hflat).2.2.2.2
  suffices hrest : ∀ c ∈ out, c.isFlat ∧ c.isMerged from
    fun c hc => ⟨htidy c hc, (hrest c hc).1, (hrest c hc).2⟩
  obtain ⟨lengths, hl, rfl⟩ := mergeStructure_eq_some h
  have hlengths : ∀ c ∈ lengths, c.isFlat ∧ c.isMerged := by
    simp only [mergedLength] at hl
    split_ifs at hl
    all_goals
      obtain rfl := Option.some.inj hl
      simp [isFlat, isMerged]
  simp only [List.forall_mem_append, List.forall_mem_map]
  exact ⟨⟨⟨⟨fun c hc => ⟨(hothers c hc).flat, (hothers c hc).merged⟩, fun _ _ => ⟨rfl, rfl⟩⟩,
    fun _ _ => ⟨rfl, rfl⟩⟩, fun _ _ => ⟨rfl, rfl⟩⟩, hlengths⟩

include hent

lemma isMerged_conjoinFlat : (conjoinFlat conj conjPlain entails flat).isMerged := by
  unfold conjoinFlat
  cases hm : mergeStructure conj conjPlain flat with
  | none => rfl
  | some ms =>
    have hms := isPiece_mergeStructure hconj hplain hflat hm
    simp only
    cases commonKind none ms with
    | none => rfl
    | some common =>
      have hcollapse : ∀ ds, (if common == some .number then collapseBounds ms else some ms) =
          some ds → ∀ d ∈ ds, IsPiece d := by
        intro ds hds
        split_ifs at hds
        · exact (collapseBounds_isOf hasProperBounds_isPiece hms hds).1
        · exact Option.some.inj hds ▸ hms
      simp only
      cases hc : (if common == some .number then collapseBounds ms else some ms) with
      | none => rfl
      | some ds =>
        have hds := hcollapse ds hc
        simp only
        cases hl : ds.filterMap literal? with
        | cons v vs =>
          simp only [absorb_eq fun c hc => (hds c hc).tidy]
          split_ifs <;> rfl
        | nil =>
          have hnone : ∀ c ∈ ds, c.literal? = none := List.filterMap_eq_nil_iff.mp hl
          simp only
          cases hr : resolveNegations conjPlain entails ds with
          | none => rfl
          | some es =>
            have hsub := ((resolveNegations_spec hplain (fun _ => hent)
              fun c hc => (hds c hc).tidy).2 es hr).1
            refine isMerged_finishConj (List.forall_mem_append.mpr ⟨fun c hc => ?_, ?_⟩)
            · have hmem := hsub.subset (List.mem_of_mem_filter hc)
              exact ⟨(hds c hmem).merged, fun _ => ⟨(hds c hmem).flat, hnone c hmem⟩⟩
            · cases common <;> simp [isMerged, isFlat, literal?]

end Conjunctions

lemma isMerged_conjunction {cs : List Constraint}
    (h : ∀ c ∈ cs, c.Tidy .core .plain ∧ c.isMerged) (n : Nat) (unroll : Bool) :
    (conjunction (n + 1) unroll cs).isMerged := by
  have hflat : ∀ c ∈ flattenConjList [] cs, IsPiece c := by
    refine forall_mem_flattenConjList (T := fun c => c.Tidy .core .plain ∧ c.isMerged)
      (fun {cs} h c hc => ?_) (fun h hf => ⟨h.1, hf, h.2⟩) (by simp) h
    exact ⟨(tidy_conj.mp h.1).2 c hc, (areMerged_iff.mp h.2 c hc).2.2⟩
  have hunroll : (flattenConjList [] cs).any isUnrollable = false :=
    List.any_eq_false.mpr fun c hc => by
      have hfree := (hflat c hc).tidy.isFixFree
      cases c <;> simp_all [isUnrollable, isFixFree]
  have hdist (conj disj : List Constraint → Constraint) :
      distribute? conj disj (flattenConjList [] cs) = none := by
    have hd : (flattenConjList [] cs).filter isDisj = [] :=
      List.filter_eq_nil_iff.mpr fun c hc => by
        simp [isDisj_of_tidy Fragment.isFlat_core (hflat c hc).tidy]
    simp [distribute?, hd]
  rw [conjunction]
  simp only [hunroll, hdist, Bool.and_false, Bool.false_eq_true, if_false]
  split_ifs with hnever hone
  · rfl
  · exact isMerged_finishConj fun c hc => ⟨(hflat c hc).merged, fun htwo => by omega⟩
  · exact isMerged_conjoinFlat (conjoins_flat Fragment.isFlat_core n unroll)
      (conjoins_flat Fragment.isFlat_core n false) (entails_flat Fragment.isFlat_core n) hflat

lemma isMerged_normalize {c : Constraint} (hc : c.Fits .core false .plain) {n : Nat}
    (hn : c.size ≤ n) : (c.normalize n).isMerged := by
  induction n generalizing c with
  | zero =>
    have := size_pos c
    omega
  | succ n ih =>
    cases c with
    | conj cs =>
      rw [size] at hn
      have hcs := (fits_conj.mp hc).2
      have hsize : ∀ d ∈ cs, d.size ≤ n := fun d hd => by
        have := size_le_sizeList hd
        omega
      have hall : ∀ d ∈ cs.map (normalize n), d.Tidy .core .plain ∧ d.isMerged :=
        List.forall_mem_map.mpr fun d hd =>
          ⟨(isNormal_flat Fragment.isFlat_core (hcs d hd) (hsize d hd)).tidy,
            ih (hcs d hd) (hsize d hd)⟩
      rw [normalize]
      cases n with
      | zero =>
        have hnil : cs = [] := by
          by_contra hne
          obtain ⟨d, ds, rfl⟩ := List.exists_cons_of_ne_nil hne
          have := hsize d List.mem_cons_self
          have := size_pos d
          omega
        rw [hnil]
        rfl
      | succ n => exact isMerged_conjunction hall n true
    | neg c =>
      have hmerged := ih hc.2.2 (by rw [size] at hn; omega)
      rw [normalize]
      cases he : c.normalize n <;> simp_all [negate, isMerged]
    | disj | length => exact absurd hc.1 (by simp [Fragment.core])
    | fix => exact absurd hc.isFixFree (by simp [isFixFree])
    | field | elementAt =>
      rw [normalize, finishPart]
      split_ifs <;> rfl
    | bound =>
      rw [normalize]
      split_ifs <;> rfl
    | _ => rfl

lemma isMerged_simplify {c : Constraint} (hc : c.isCore) : c.simplify.isMerged := by
  rw [simplify]
  exact isMerged_normalize (fits_of_isCore hc) (size_le_allowance c.size)

/-! ### Projections of the core -/

mutual

theorem Fits.conjunctive {tidy : Bool} : ∀ {c : Constraint} {p : Position},
    c.Fits .core tidy p → c.Fits .conjunctive tidy p
  | .kind _, _, _ | .any, _, _ | .never, _, _ => trivial
  | .equals _, _, h => ⟨h.1, h.2.1, by simp [Fragment.conjunctive], by simp [Fragment.conjunctive]⟩
  | .bound _ _, _, h | .bvar _, _, h => h
  | .field _ c, _, h | .elements c, _, h | .elementAt _ c, _, h => Fits.conjunctive (c := c) h
  | .length _, _, h | .disj _, _, h => absurd h.1 (by simp [Fragment.core])
  | .conj _, _, h => ⟨h.1, AllFit.conjunctive h.2⟩
  | .neg _, _, h => ⟨rfl, h.2.1, Fits.conjunctive h.2.2⟩
  | .fix _, _, h => by
    obtain ⟨k, hk, h⟩ := h
    exact ⟨k, hk, h.conjunctive⟩
  | .ref _, _, h | .var _, _, h => h.elim

theorem AllFit.conjunctive {tidy : Bool} : ∀ {cs : List Constraint} {p : Position},
    AllFit .core tidy cs p → AllFit .conjunctive tidy cs p
  | [], _, _ => trivial
  | _ :: _, _, h => ⟨h.1.conjunctive, AllFit.conjunctive h.2⟩

end

lemma IsNormal.admits_iff {F : Fragment} {c d : Constraint} {v : Value}
    (h : IsNormal F .plain d c) (hv : F.Covers v) : d.admits v ↔ c.Holds (fun _ => True) v := by
  rw [h.tidy.admits_iff fun _ => True, h.holds _ v hv]

lemma admits_simplify_of_isCore {c : Constraint} (hc : c.isCore) {v : Value}
    (hv : v.isWellFormed) : c.simplify.admits v ↔ c.Holds (fun _ => True) v := by
  have hnormal := isNormal_simplify_of_isCore hc
  generalize c.simplify = d at hnormal ⊢
  exact hnormal.admits_iff (covers_core hv)

namespace Projection

variable {p : Projection} {c : Constraint} {cs : List Constraint}

lemma applyWith_eq (unrolled : Nat → Constraint → Constraint × Nat) (budget : Nat)
    (hc : c.Tidy .core .plain) (hconj : ∀ ds, c ≠ .conj ds) :
    applyWith p unrolled budget c = (p.atom c, budget) := by
  cases c with
  | conj ds => exact absurd rfl (hconj ds)
  | disj => exact absurd hc.1 (by simp [Fragment.core])
  | fix => exact absurd hc.isFixFree (by simp [isFixFree])
  | _ => rfl

lemma applyList_eq (unrolled : Nat → Constraint → Constraint × Nat) (budget : Nat)
    (hcs : ∀ c ∈ cs, c.Tidy .core .plain ∧ c.isFlat) :
    applyList p unrolled budget cs = (cs.map p.atom, budget) := by
  induction cs with
  | nil => rfl
  | cons c cs ih =>
    rw [List.forall_mem_cons] at hcs
    have hconj : ∀ ds, c ≠ .conj ds := by
      rintro ds rfl
      simp [isFlat] at hcs
    simp only [applyList, applyWith_eq unrolled budget hcs.1.1 hconj, ih hcs.2, List.map_cons]

lemma apply_cases (hc : c.isCore)
    (hjoint : ∀ cs : List Constraint, (∀ c ∈ cs, c.Tidy .core .plain) → p.joint cs = none) :
    (∃ ds, c.simplify = .conj ds ∧ areMerged ds ∧ p.apply c = (conj (ds.map p.atom)).simplify) ∨
      (∀ ds, c.simplify ≠ .conj ds) ∧ p.apply c = (p.atom c.simplify).simplify := by
  have hnormal := isNormal_simplify_of_isCore hc
  have hmerged := isMerged_simplify hc
  rw [apply]
  generalize c.simplify = d at hnormal hmerged
  have htidy := hnormal.tidy
  have happly : ∃ unrolled, applyAt p maxProjectionUnrolls = applyWith p unrolled := ⟨_, rfl⟩
  obtain ⟨unrolled, happly⟩ := happly
  rw [happly]
  by_cases hconj : ∃ ds, d = .conj ds
  · obtain ⟨ds, rfl⟩ := hconj
    have hds := (tidy_conj.mp htidy).2
    have hmerged : areMerged ds := hmerged
    refine Or.inl ⟨ds, rfl, hmerged, ?_⟩
    have hflat := fun c hc => (areMerged_iff.mp hmerged c hc).1
    rw [applyWith, applyList_eq unrolled _ fun c hc => ⟨hds c hc, hflat c hc⟩, hjoint ds hds]
    simp
  · have hconj : ∀ ds, d ≠ .conj ds := fun ds he => hconj ⟨ds, he⟩
    exact Or.inr ⟨hconj, by rw [applyWith_eq unrolled _ htidy hconj]⟩

end Projection

section Parts

variable {c d : Constraint} {v w o : Value} {X : Value → Prop}

lemma isUnion_simplify_of_fits (hd : d.Fits .conjunctive false .plain)
    (hw : Fragment.conjunctive.Covers w) : IsUnion .conjunctive true 1 w d.simplify ∧
      (d.simplify.admits w ↔ d.Holds (fun _ => True) w) := by
  obtain ⟨hunion, hiff⟩ := (isUnion_of_fits Fragment.isFlat_conjunctive hd).simplify
    Fragment.isFlat_conjunctive (by omega) hw
  exact ⟨hunion, hiff.trans (hd.admits_iff _)⟩

lemma Projection.admits_apply {p : Projection} (hc : c.isCore) (hv : v.isWellFormed)
    (h : c.admits v) (hw : Fragment.conjunctive.Covers w)
    (hjoint : ∀ cs : List Constraint, (∀ c ∈ cs, c.Tidy .core .plain) → p.joint cs = none)
    (hatom : ∀ d : Constraint, d.Tidy .core .plain → d.Holds (fun _ => True) v →
      (p.atom d).Fits .conjunctive false .plain ∧ (p.atom d).Holds (fun _ => True) w) :
    (p.apply c).admits w := by
  have hnormal := isNormal_simplify_of_isCore hc
  have hcases := apply_cases (p := p) hc hjoint
  generalize p.apply c = r at hcases
  generalize c.simplify = d at hnormal hcases
  have hholds := (hnormal.holds (fun _ => True) v (covers_core hv)).mpr
    ((admits_iff_holds (fits_of_isCore hc).isFixFree _).mp h)
  rcases hcases with ⟨ds, rfl, -, he⟩ | ⟨-, he⟩
  · have hall := fun d hd => hatom d ((tidy_conj.mp hnormal.tidy).2 d hd) (holds_conj.mp hholds d hd)
    have hfits : (conj (ds.map p.atom)).Fits .conjunctive false .plain :=
      fits_conj.mpr ⟨by simp, List.forall_mem_map.mpr fun d hd => (hall d hd).1⟩
    rw [he, (isUnion_simplify_of_fits hfits hw).2, holds_conj]
    exact List.forall_mem_map.mpr fun d hd => (hall d hd).2
  · obtain ⟨hfits, hpart⟩ := hatom d hnormal.tidy hholds
    rwa [he, (isUnion_simplify_of_fits hfits hw).2]

lemma holds_ofValue_of_same (hw : w.isWellFormed) (ho : o.isWellFormed) (h : w.same o) :
    (ofValue o).Holds X w :=
  (holds_value_congr (fits_ofValue ho).isFixFree hw ho h).mpr
    ((holds_iff_of_isFixFree (fits_ofValue ho).isFixFree _ _).mp
      (determines_ofValue ho (Value.same_trans (Value.same_symm hw h) h)).holds)

end Parts

/-! ### Lengths -/

inductive HasLength : Value → Nat → Prop
  | array {items : List Value} (h : items.length < Number.exactCount) :
      HasLength (.array items) items.length
  | string (s : String) : HasLength (.string s) s.length

section Lengths

variable {c d : Constraint} {v : Value} {n : Nat} {X : Value → Prop}

lemma holds_nonNegative (n : Nat) : nonNegative.Holds X (.ofNat n) := by
  have hle : Number.zero.le (.ofNat n) := Number.ofNat_le_ofNat (Nat.zero_le n) (by decide)
  exact holds_conj.mpr (by simpa [Value.ofNat] using ⟨rfl, _, rfl, hle⟩)

lemma fits_nonNegative : nonNegative.Fits .core false .plain := fits_of_isCore rfl

lemma same_ofNat (n : Nat) : (Value.ofNat n).same (.ofNat n) :=
  Number.same_refl _

lemma HasLength.of_same {w : Value} (h : v.same w) (hn : HasLength v n) :
    Projection.length.atom (.equals w) = .equals (.ofNat n) := by
  cases hn with
  | array hlt =>
    cases w with
    | array others =>
      have hl := (Value.sameItems_iff.mp (by simpa [Value.same] using h)).length_eq
      rw [hl]
      rfl
    | _ => simp [Value.same] at h
  | string s =>
    cases w with
    | string t =>
      obtain rfl : s = t := by simpa [Value.same] using h
      rfl
    | _ => simp [Value.same] at h

lemma holds_length_atom (hd : d.Tidy .core .plain) (h : d.Holds X v) (hn : HasLength v n) :
    (Projection.length.atom d).Fits .core false .plain ∧
      (Projection.length.atom d).Holds X (.ofNat n) := by
  have hnone : any.Fits .core false .plain ∧ any.Holds X (.ofNat n) := ⟨trivial, trivial⟩
  cases d with
  | never => exact h.elim
  | equals w =>
    rw [hn.of_same h]
    exact ⟨fits_of_isCore rfl, same_ofNat n⟩
  | kind k => cases k <;> first | exact hnone | exact ⟨fits_nonNegative, holds_nonNegative n⟩
  | elements => exact ⟨fits_nonNegative, holds_nonNegative n⟩
  | elementAt i =>
    obtain ⟨items, w, rfl, hi, -⟩ := h
    cases hn with
    | array hlt =>
      have hin : i < items.length := (List.getElem?_eq_some_iff.mp hi).1
      have hgt : (Number.ofNat i).lt (.ofNat items.length) :=
        Number.ofNat_lt_ofNat hin (Nat.lt_trans hin hlt)
      refine ⟨fits_of_isCore rfl, holds_conj.mpr ?_⟩
      simpa [Value.ofNat] using ⟨rfl, _, rfl, hgt⟩
  | length => exact absurd hd.1 (by simp [Fragment.core])
  | _ => exact hnone

theorem admits_lengthOf (hc : c.isCore) (hv : v.isWellFormed) (h : c.admits v)
    (hn : HasLength v n) : c.lengthOf.admits (.ofNat n) := by
  rw [lengthOf]
  refine Projection.admits_apply hc hv h (Fragment.covers_number _ _) (fun _ _ => rfl)
    fun d hd hdv => ?_
  obtain ⟨hfits, hlen⟩ := holds_length_atom hd hdv hn
  exact ⟨hfits.conjunctive, hlen⟩

end Lengths

/-! ### Items -/

section Items

variable {c d : Constraint} {w : Value} {items others : List Value} {X : Value → Prop}

lemma joint_element {cs : List Constraint} (hcs : ∀ c ∈ cs, c.Tidy .core .plain) :
    Projection.element.joint cs = none := by
  change Projection.tupleElements? cs = none
  rw [Projection.tupleElements?, List.findSome?_eq_none_iff.mpr]
  · rfl
  · intro c hc
    cases c with
    | length => exact absurd (hcs _ hc).1 (by simp [Fragment.core])
    | _ => rfl

lemma holds_element_atom (hd : d.Tidy .core .plain)
    (hlit : ∀ o others, d ≠ .equals (.array (o :: others))) (h : d.Holds X (.array items)) :
    (Projection.element.atom d).Fits .core false .plain ∧
      ∀ w ∈ items, (Projection.element.atom d).Holds X w := by
  have hnone : any.Fits .core false .plain ∧ ∀ w ∈ items, any.Holds X w :=
    ⟨trivial, fun _ _ => trivial⟩
  cases d with
  | never => exact h.elim
  | equals v =>
    cases v with
    | array others =>
      cases others with
      | nil => exact hnone
      | cons o others => exact absurd rfl (hlit o others)
    | _ => exact hnone
  | elements d =>
    obtain ⟨_, he, hall⟩ := h
    obtain rfl := Value.array.inj he
    exact ⟨Fits.of_tidy hd, hall⟩
  | _ => exact hnone

lemma described_of_same (hv : Fragment.conjunctive.Covers (.array items))
    (ho : (Value.array others).isWellFormed) (h : (Value.array items).same (.array others)) :
    (∀ o ∈ others, IsDescribed o) ∧ ∀ w ∈ items, ∃ o ∈ others, (ofValue o).admits w := by
  have hitems : ∀ o ∈ others, IsDescribed o := by
    intro o hmem
    have hback := Value.same_symm hv.1 h
    rw [Value.same] at hback
    obtain ⟨i, hi⟩ := List.mem_iff_getElem?.mp hmem
    obtain ⟨w, hw, how⟩ := Value.getElem?_of_sameItems hback i hi
    have hcovers := hv.getElem? hw
    have hwf := Value.isWellFormed_of_mem ho hmem
    exact ⟨⟨hwf, fun hl => Value.isShort_of_same how (hcovers.2 hl)⟩,
      Value.same_trans how (Value.same_symm hwf how)⟩
  refine ⟨hitems, fun w hw => ?_⟩
  rw [Value.same] at h
  obtain ⟨i, hi⟩ := List.mem_iff_getElem?.mp hw
  obtain ⟨o, hmem, hwo⟩ := Value.getElem?_of_sameItems h i hi
  have hmem := List.mem_of_getElem? hmem
  have hwf := (hitems o hmem).covers.1
  refine ⟨o, hmem, ((fits_ofValue hwf).admits_iff fun _ => True).mpr ?_⟩
  exact holds_ofValue_of_same (hv.mem hw).1 hwf hwo

theorem isUnion_itemOf (hc : c.isCore) (hv : Fragment.conjunctive.Covers (.array items))
    (h : c.admits (.array items)) (hw : Fragment.conjunctive.Covers w) :
    IsUnion .conjunctive true 1 w c.itemOf ∧ (w ∈ items → c.itemOf.admits w) := by
  have hnormal := isNormal_simplify_of_isCore hc
  have hcases := Projection.apply_cases (p := .element) hc fun _ => joint_element
  rw [itemOf]
  generalize Projection.element.apply c = r at hcases
  generalize c.simplify = d at hnormal hcases
  have hholds := (hnormal.holds (fun _ => True) _ (covers_core hv.1)).mpr
    ((admits_iff_holds (fits_of_isCore hc).isFixFree _).mp h)
  rcases hcases with ⟨ds, rfl, hmerged, he⟩ | ⟨-, he⟩
  · have hall := fun d hd => holds_element_atom ((tidy_conj.mp hnormal.tidy).2 d hd)
      (fun o others ho => by simpa [ho, literal?] using (areMerged_iff.mp hmerged d hd).2.1)
      (holds_conj.mp hholds d hd)
    have hfits : (conj (ds.map Projection.element.atom)).Fits .core false .plain :=
      fits_conj.mpr ⟨by simp, List.forall_mem_map.mpr fun d hd => (hall d hd).1⟩
    obtain ⟨hunion, hiff⟩ := isUnion_simplify_of_fits hfits.conjunctive hw
    rw [he]
    refine ⟨hunion, fun hmem => hiff.mpr (holds_conj.mpr ?_)⟩
    exact List.forall_mem_map.mpr fun d hd => (hall d hd).2 w hmem
  · rw [he]
    by_cases hlit : ∃ o others, d = .equals (.array (o :: others))
    · obtain ⟨o, others, rfl⟩ := hlit
      obtain ⟨hitems, hexists⟩ := described_of_same hv hnormal.tidy.2.1 hholds
      obtain ⟨hunion, hiff⟩ := isUnion_descriptions hitems hw
      exact ⟨hunion, fun hmem => hiff.mpr (hexists w hmem)⟩
    · have hlit : ∀ o others, d ≠ .equals (.array (o :: others)) :=
        fun o others ho => hlit ⟨o, others, ho⟩
      obtain ⟨hfits, hatom⟩ := holds_element_atom hnormal.tidy hlit hholds
      obtain ⟨hunion, hiff⟩ := isUnion_simplify_of_fits hfits.conjunctive hw
      exact ⟨hunion, fun hmem => hiff.mpr (hatom w hmem)⟩

end Items

/-! ### Fields and positions -/

section Places

variable {c d : Constraint} {v w : Value} {fields : List (String × Value)} {items : List Value}
  {name : String} {i : Nat} {X : Value → Prop}

lemma holds_field_atom (hd : d.Tidy .core .plain) (hv : (Value.object fields).isWellFormed)
    (h : d.Holds X (.object fields)) (hw : Association.find? name fields = some w) :
    ((Projection.field name).atom d).Fits .conjunctive false .plain ∧
      ((Projection.field name).atom d).Holds X w := by
  have hnone : any.Fits .conjunctive false .plain ∧ any.Holds X w := ⟨trivial, trivial⟩
  cases d with
  | never => exact h.elim
  | equals u =>
    cases u with
    | object others =>
      obtain ⟨o, ho, hwo⟩ := Value.find?_of_same h hw
      have hwf := Value.isWellFormed_of_find? hd.2.1 ho
      simp only [Projection.field, ho, Option.map_some, Option.getD_some]
      exact ⟨fits_ofValue hwf, holds_ofValue_of_same (Value.isWellFormed_of_find? hv hw) hwf hwo⟩
    | _ => exact hnone
  | field n d =>
    obtain ⟨_, u, he, hu, hdu⟩ := h
    cases he
    simp only [Projection.field]
    split_ifs with hn
    · rw [hn, hw, Option.some.injEq] at hu
      exact ⟨Fits.conjunctive (Fits.of_tidy hd), hu ▸ hdu⟩
    · exact hnone
  | _ => exact hnone

lemma holds_elementAt_atom (hd : d.Tidy .core .plain) (hv : (Value.array items).isWellFormed)
    (h : d.Holds X (.array items)) (hw : items[i]? = some w) :
    ((Projection.elementAt i).atom d).Fits .conjunctive false .plain ∧
      ((Projection.elementAt i).atom d).Holds X w := by
  have hnone : any.Fits .conjunctive false .plain ∧ any.Holds X w := ⟨trivial, trivial⟩
  cases d with
  | never => exact h.elim
  | equals u =>
    cases u with
    | array others =>
      obtain ⟨o, ho, hwo⟩ := Value.getElem?_of_sameItems (by simpa [Holds, Value.same] using h) i hw
      have hwf := Value.isWellFormed_of_mem hd.2.1 (List.mem_of_getElem? ho)
      simp only [Projection.elementAt, ho, Option.map_some, Option.getD_some]
      exact ⟨fits_ofValue hwf, holds_ofValue_of_same
        (Value.isWellFormed_of_mem hv (List.mem_of_getElem? hw)) hwf hwo⟩
    | _ => exact hnone
  | elementAt j d =>
    obtain ⟨_, u, he, hu, hdu⟩ := h
    cases he
    simp only [Projection.elementAt]
    split_ifs with hj
    · rw [hj, hw, Option.some.injEq] at hu
      exact ⟨Fits.conjunctive (Fits.of_tidy hd), hu ▸ hdu⟩
    · exact hnone
  | elements d =>
    obtain ⟨_, he, hall⟩ := h
    cases he
    exact ⟨Fits.conjunctive (Fits.of_tidy hd), hall w (List.mem_of_getElem? hw)⟩
  | _ => exact hnone

/-- The projections of a core constraint admit the parts of each of its values: the fields of an
object, the items of an array by their index and without it, the length of an array or a text. -/
theorem projections_sound (hc : c.isCore) (hv : v.isWellFormed) (hs : v.isShort)
    (h : c.admits v) :
    (∀ fields name w, v = .object fields → Association.find? name fields = some w →
      (c.fieldOf name).admits w) ∧
    (∀ items i w, v = .array items → items[i]? = some w →
      (c.itemAt i).admits w ∧ c.itemOf.admits w) ∧
    ∀ n, HasLength v n → c.lengthOf.admits (.ofNat n) := by
  have hcov : Fragment.conjunctive.Covers v := ⟨hv, fun _ => hs⟩
  refine ⟨?_, ?_, fun n hn => admits_lengthOf hc hv h hn⟩
  · rintro fields name w rfl hw
    exact Projection.admits_apply hc hv h (hcov.find? hw) (fun _ _ => rfl)
      fun d hd hdv => holds_field_atom hd hv hdv hw
  · rintro items i w rfl hw
    refine ⟨?_, (isUnion_itemOf hc hcov h (hcov.getElem? hw)).2 (List.mem_of_getElem? hw)⟩
    exact Projection.admits_apply hc hv h (hcov.getElem? hw) (fun _ _ => rfl)
      fun d hd hdv => holds_elementAt_atom hd hv hdv hw

theorem projections_sound_pair :
    let c : Constraint := .conj [.elements (.kind .number),
      .elementAt 1 (.neg (.bound .lt (.ofNat 0)))]
    let v : Value := .array [.number (.ofNat 2), .number (.ofNat 5)]
    c.isCore ∧ v.isWellFormed ∧ v.isShort ∧ c.admits v ∧ (c.itemAt 1).admits (.number (.ofNat 5)) ∧
      c.itemOf.admits (.number (.ofNat 5)) ∧ c.lengthOf.admits (.ofNat 2) := by
  intro c v
  have hc : c.isCore := by decide
  have hv : v.isWellFormed := by decide
  have hs : v.isShort := by decide +kernel
  have h : c.admits v := by decide +kernel
  obtain ⟨-, hitems, hlength⟩ := projections_sound hc hv hs h
  obtain ⟨hat, hof⟩ := hitems _ 1 _ rfl rfl
  exact ⟨hc, hv, hs, h, hat, hof, hlength 2 (HasLength.array (by decide +kernel))⟩

end Places

end Constraint

end Stagewise
