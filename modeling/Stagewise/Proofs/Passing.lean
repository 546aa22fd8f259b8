import Mathlib.Data.List.Induction
import Stagewise.Proofs.Portrait

/-! Constraints without unions and negations that a value may satisfy as far as its description
tells. A description leaves open what an object has beside its fields, and counts arrays and
functions among the objects. What the value fails visibly stays visible in the normal form. -/

set_option autoImplicit false

namespace Stagewise

open Association

def Fragment.shape : Fragment where
  negations := false
  unions := false
  lengths := true
  idle := true
  tag _ := false
  atomic := true

namespace Constraint

/-! ### Statements about one part -/

def fieldStatements (name : String) (cs : List Constraint) : List Constraint :=
  cs.filterMap fun
    | .field key c => if key = name then some c else none
    | _ => none

def itemStatements (i : Nat) (cs : List Constraint) : List Constraint :=
  cs.filterMap fun
    | .elementAt j c => if j = i then some c else none
    | _ => none

def statedLengths (cs : List Constraint) : List Constraint :=
  cs.filterMap fun
    | .length c => some c
    | _ => none

def statedElements (cs : List Constraint) : List Constraint :=
  cs.filterMap fun
    | .elements c => some c
    | _ => none

def isWhole : Constraint → Bool
  | .field _ _ | .elements _ | .elementAt _ _ | .length _ => false
  | _ => true

lemma mem_fieldStatements {name : String} {c : Constraint} {cs : List Constraint} :
    c ∈ fieldStatements name cs ↔ .field name c ∈ cs := by
  simp only [fieldStatements, List.mem_filterMap]
  constructor
  · rintro ⟨d, hd, h⟩
    cases d <;> simp_all
  · exact fun h => ⟨_, h, by simp⟩

lemma mem_itemStatements {i : Nat} {c : Constraint} {cs : List Constraint} :
    c ∈ itemStatements i cs ↔ .elementAt i c ∈ cs := by
  simp only [itemStatements, List.mem_filterMap]
  constructor
  · rintro ⟨d, hd, h⟩
    cases d <;> simp_all
  · exact fun h => ⟨_, h, by simp⟩

lemma mem_statedLengths {c : Constraint} {cs : List Constraint} :
    c ∈ statedLengths cs ↔ .length c ∈ cs := by
  simp only [statedLengths, List.mem_filterMap]
  constructor
  · rintro ⟨d, hd, h⟩
    cases d <;> simp_all
  · exact fun h => ⟨_, h, rfl⟩

lemma mem_statedElements {c : Constraint} {cs : List Constraint} :
    c ∈ statedElements cs ↔ .elements c ∈ cs := by
  simp only [statedElements, List.mem_filterMap]
  constructor
  · rintro ⟨d, hd, h⟩
    cases d <;> simp_all
  · exact fun h => ⟨_, h, rfl⟩

namespace Structure

lemma find?_addField (name key : String) (c : Constraint)
    (parts : List (String × List Constraint)) :
    find? key (addField name c parts) =
      if key = name then some ((find? name parts).getD [] ++ [c]) else find? key parts := by
  induction parts with
  | nil =>
    by_cases h : key = name
    · simp [addField, find?, h]
    · simp [addField, find?, h, Ne.symm h]
  | cons q parts ih =>
    obtain ⟨k, cs⟩ := q
    by_cases hk : k = name
    · subst hk
      by_cases h : key = k
      · simp [addField, find?, h]
      · simp [addField, find?, h, Ne.symm h]
    · by_cases h : k = key <;> by_cases h' : key = name <;> simp_all [addField, find?]

lemma mem_names_addField {name key : String} {c : Constraint}
    {parts : List (String × List Constraint)} (h : key ∈ names (addField name c parts)) :
    key = name ∨ key ∈ names parts := by
  induction parts with
  | nil => exact Or.inl (by simpa [addField, names] using h)
  | cons q parts ih =>
    rw [addField] at h
    split_ifs at h
    · exact Or.inr h
    · rcases List.mem_cons.mp h with rfl | h
      · exact Or.inr List.mem_cons_self
      · exact (ih h).imp_right (List.mem_cons_of_mem _)

lemma nodup_addField (name : String) (c : Constraint) {parts : List (String × List Constraint)}
    (h : (names parts).Nodup) : (names (addField name c parts)).Nodup := by
  induction parts with
  | nil => simp [addField, names]
  | cons q parts ih =>
    obtain ⟨hq, hrest⟩ := List.nodup_cons.mp h
    rw [addField]
    split_ifs with hk
    · exact h
    · refine List.nodup_cons.mpr ⟨fun hmem => ?_, ih hrest⟩
      exact (mem_names_addField hmem).elim hk hq

abbrev IsSorted (parts : List (Nat × List Constraint)) : Prop :=
  parts.Pairwise fun q r => q.1 < r.1

lemma mem_addPosition {i : Nat} {c : Constraint} {parts : List (Nat × List Constraint)}
    {q : Nat × List Constraint} (h : q ∈ addPosition i c parts) :
    q.1 = i ∨ ∃ r ∈ parts, r.1 = q.1 := by
  induction parts with
  | nil =>
    obtain rfl := List.mem_singleton.mp h
    exact Or.inl rfl
  | cons r parts ih =>
    rw [addPosition] at h
    split_ifs at h with hlt heq
    · rcases List.mem_cons.mp h with rfl | h
      · exact Or.inl rfl
      · exact Or.inr ⟨q, h, rfl⟩
    · rcases List.mem_cons.mp h with rfl | h
      · exact Or.inl heq
      · exact Or.inr ⟨q, List.mem_cons_of_mem _ h, rfl⟩
    · rcases List.mem_cons.mp h with rfl | h
      · exact Or.inr ⟨_, List.mem_cons_self, rfl⟩
      · rcases ih h with hq | ⟨r', hr, he⟩
        · exact Or.inl hq
        · exact Or.inr ⟨r', List.mem_cons_of_mem _ hr, he⟩

lemma isSorted_addPosition (i : Nat) (c : Constraint) {parts : List (Nat × List Constraint)}
    (h : IsSorted parts) : IsSorted (addPosition i c parts) := by
  induction parts with
  | nil => simp [addPosition]
  | cons q parts ih =>
    obtain ⟨j, cs⟩ := q
    have hq := List.pairwise_cons.mp h
    rw [addPosition]
    split_ifs with hlt heq
    · refine List.pairwise_cons.mpr ⟨fun r hr => ?_, h⟩
      rcases List.mem_cons.mp hr with rfl | hr
      · exact hlt
      · exact Nat.lt_trans hlt (hq.1 r hr)
    · exact List.pairwise_cons.mpr hq
    · refine List.pairwise_cons.mpr ⟨fun r hr => ?_, ih hq.2⟩
      rcases mem_addPosition hr with he | ⟨r', hr', he⟩
      · have hji : j < i := by omega
        exact he ▸ hji
      · exact he ▸ hq.1 r' hr'

lemma find?_addPosition (i k : Nat) (c : Constraint) {parts : List (Nat × List Constraint)}
    (h : IsSorted parts) :
    find? k (addPosition i c parts) =
      if k = i then some ((find? i parts).getD [] ++ [c]) else find? k parts := by
  induction parts with
  | nil =>
    by_cases hk : k = i
    · simp [addPosition, find?, hk]
    · simp [addPosition, find?, hk, Ne.symm hk]
  | cons q parts ih =>
    obtain ⟨j, cs⟩ := q
    have hq := List.pairwise_cons.mp h
    rw [addPosition]
    by_cases hlt : i < j
    · have hnone : find? i ((j, cs) :: parts) = none := by
        refine Option.not_isSome_iff_eq_none.mp fun hs => ?_
        obtain ⟨r, hr, he⟩ := List.mem_map.mp (find?_isSome_iff.mp hs)
        rcases List.mem_cons.mp hr with rfl | hr
        · exact absurd he (Nat.ne_of_gt hlt)
        · exact absurd he (Nat.ne_of_gt (Nat.lt_trans hlt (hq.1 r hr)))
      rw [if_pos hlt, hnone, find?]
      by_cases hk : k = i
      · simp [hk]
      · simp [hk, Ne.symm hk]
    · by_cases hj : j = i
      · subst hj
        by_cases hk : k = j
        · simp [find?, hk]
        · simp [find?, hk, Ne.symm hk]
      · rw [if_neg hlt, if_neg hj, find?, find?, find?, ih hq.2]
        by_cases hk : j = k <;> by_cases hk' : k = i <;> simp_all

structure Sorts (s : Structure) (cs : List Constraint) : Prop where
  fields : ∀ name, (find? name s.fields).getD [] = fieldStatements name cs
  positions : ∀ i, (find? i s.positions).getD [] = itemStatements i cs
  distinct : (names s.fields).Nodup
  sorted : IsSorted s.positions
  elements : s.elements = statedElements cs
  lengths : s.lengths = statedLengths cs
  others : s.others = cs.filter isWhole

lemma sorts_ofList (cs : List Constraint) : (ofList cs).Sorts cs := by
  induction cs using List.reverseRecOn with
  | nil => exact ⟨fun _ => rfl, fun _ => rfl, List.nodup_nil, List.Pairwise.nil, rfl, rfl, rfl⟩
  | append_singleton cs c ih =>
    obtain ⟨hf, hp, hd, hs, he, hl, ho⟩ := ih
    have hadd : ofList (cs ++ [c]) = (ofList cs).add c := by simp [ofList]
    rw [hadd]
    simp only [fieldStatements, itemStatements, statedElements, statedLengths] at hf hp he hl
    cases c with
    | field key d =>
      refine ⟨fun name => ?_, by simpa [add, itemStatements] using hp, nodup_addField key d hd, hs,
        by simpa [add, statedElements] using he, by simpa [add, statedLengths] using hl,
        by simpa [add, isWhole] using ho⟩
      simp only [add, find?_addField, fieldStatements]
      by_cases hk : name = key
      · simp [hk, hf]
      · simp [hk, hf, Ne.symm hk]
    | elementAt j d =>
      refine ⟨by simpa [add, fieldStatements] using hf, fun i => ?_, hd, isSorted_addPosition j d hs,
        by simpa [add, statedElements] using he, by simpa [add, statedLengths] using hl,
        by simpa [add, isWhole] using ho⟩
      simp only [add, find?_addPosition j i d hs, itemStatements]
      by_cases hk : i = j
      · subst hk
        simp [hp]
      · simp [hk, hp, Ne.symm hk]
    | _ =>
      exact ⟨by simpa [add, fieldStatements] using hf, by simpa [add, itemStatements] using hp, hd, hs,
        by simp [add, statedElements, he], by simp [add, statedLengths, hl],
        by simp [add, ho, List.filter_cons, isWhole]⟩

lemma find?_fields {name : String} {c : Constraint} {cs : List Constraint}
    (h : .field name c ∈ cs) :
    find? name (ofList cs).fields = some (fieldStatements name cs) := by
  have hf := (sorts_ofList cs).fields name
  have hne := List.ne_nil_of_mem (mem_fieldStatements.mpr h)
  cases hfind : find? name (ofList cs).fields with
  | none => exact absurd (by simpa [hfind] using hf.symm) hne
  | some g => simpa [hfind] using hf

lemma find?_positions {i : Nat} {c : Constraint} {cs : List Constraint}
    (h : .elementAt i c ∈ cs) :
    find? i (ofList cs).positions = some (itemStatements i cs) := by
  have hp := (sorts_ofList cs).positions i
  have hne := List.ne_nil_of_mem (mem_itemStatements.mpr h)
  cases hfind : find? i (ofList cs).positions with
  | none => exact absurd (by simpa [hfind] using hp.symm) hne
  | some g => simpa [hfind] using hp

end Structure

structure Merges (conj conjPlain : List Constraint → Constraint) (flat cs : List Constraint) :
    Prop where
  whole : ∀ c ∈ flat, c.isWhole → c ∈ cs
  field : ∀ {name : String} {c : Constraint}, .field name c ∈ flat →
    (conjoin conj (fieldStatements name flat)).isNever = false ∧
      .field name (conjoin conj (fieldStatements name flat)) ∈ cs
  elements : ∀ {c : Constraint}, .elements c ∈ flat → ∃ d, .elements d ∈ cs
  item : ∃ extra : List Constraint, (∀ c ∈ extra, c.Tidy .shape .plain) ∧
    ∀ {i : Nat} {c : Constraint}, .elementAt i c ∈ flat →
      (conjoin conj (itemStatements i flat ++ extra)).isNever = false ∧
        .elementAt i (conjoin conj (itemStatements i flat ++ extra)) ∈ cs
  length : ∀ {c : Constraint}, .length c ∈ flat →
    (conjoin conj (statedLengths flat)).isNever = false ∧
      .length (conjoin conj (statedLengths flat)) ∈ cs
  reaches : ∀ {i : Nat} {c d : Constraint}, .elementAt i c ∈ flat → .length d ∈ flat → ∃ last ≥ i,
    (conjPlain [conjoin conj (statedLengths flat), .kind .number,
      .bound .gt (Number.ofNat last)]).isNever = false

lemma not_never_of_mergeParts {α : Type} {wrap : α → Constraint → Constraint}
    {conj : List Constraint → Constraint} {extra out : List Constraint}
    {parts : List (α × List Constraint)} (h : mergeParts wrap conj extra parts = some out)
    {q : α × List Constraint} (hq : q ∈ parts) :
    (conjoin conj (q.2 ++ extra)).isNever = false := by
  induction parts generalizing out with
  | nil => simp at hq
  | cons r parts ih =>
    simp only [mergeParts] at h
    split_ifs at h with hn
    obtain ⟨rest, hr, rfl⟩ := Option.map_eq_some_iff.mp h
    rcases List.mem_cons.mp hq with rfl | hq
    · simpa using hn
    · exact ih hr hq

lemma le_getLast_of_isSorted {parts : List (Nat × List Constraint)} (h : Structure.IsSorted parts)
    {q : Nat × List Constraint} (hq : q ∈ parts) : ∃ r, parts.getLast? = some r ∧ q.1 ≤ r.1 := by
  induction parts generalizing q with
  | nil => simp at hq
  | cons r parts ih =>
    obtain ⟨hr, hs⟩ := List.pairwise_cons.mp h
    cases parts with
    | nil =>
      obtain rfl := List.mem_singleton.mp hq
      exact ⟨q, rfl, Nat.le_refl _⟩
    | cons r' parts =>
      rw [List.getLast?_cons_cons]
      rcases List.mem_cons.mp hq with rfl | hq
      · obtain ⟨t, ht, hle⟩ := ih hs List.mem_cons_self
        exact ⟨t, ht, Nat.le_trans (Nat.le_of_lt (hr r' List.mem_cons_self)) hle⟩
      · exact ih hs hq

lemma merges_of_mergeStructure {conj conjPlain : List Constraint → Constraint}
    (hconj : Conjoins .shape conj) {flat cs : List Constraint}
    (hflat : ∀ c ∈ flat, c.Tidy .shape .plain) (h : mergeStructure conj conjPlain flat = some cs) :
    Merges conj conjPlain flat cs := by
  rw [mergeStructure_eq] at h
  obtain ⟨fields, hf, h⟩ := Option.bind_eq_some_iff.mp h
  obtain ⟨positions, hp, h⟩ := Option.bind_eq_some_iff.mp h
  obtain ⟨lengths, hl, rfl⟩ := Option.map_eq_some_iff.mp h
  have hs := Structure.sorts_ofList flat
  have hlength {c : Constraint} (hc : .length c ∈ flat) :
      (conjoin conj (statedLengths flat)).isNever = false ∧
        lengths = [.length (conjoin conj (statedLengths flat))] ∧
        ∀ q, (Structure.ofList flat).positions.getLast? = some q →
          (conjPlain [conjoin conj (statedLengths flat), .kind .number,
            .bound .gt (Number.ofNat q.1)]).isNever = false := by
    have hne : statedLengths flat ≠ [] := List.ne_nil_of_mem (mem_statedLengths.mpr hc)
    simp only [mergedLength, hs.lengths, List.isEmpty_iff, hne, if_false] at hl
    split_ifs at hl with hn
    rw [Bool.or_eq_true, not_or, Bool.not_eq_true, Bool.not_eq_true] at hn
    refine ⟨hn.1, (Option.some.inj hl).symm, fun q hq => ?_⟩
    simpa [hq] using hn.2
  refine ⟨fun c hc hw => ?_, fun {name c} hc => ?_, fun {c} hc => ?_, ?_, fun {c} hc => ?_,
    fun {i c d} hc hd => ?_⟩
  · have ho : c ∈ (Structure.ofList flat).others := hs.others ▸ List.mem_filter.mpr ⟨hc, hw⟩
    simp [ho]
  · have hq := mem_of_find?_eq_some (Structure.find?_fields hc)
    refine ⟨by simpa using not_never_of_mergeParts hf hq, ?_⟩
    have hm : .field name (conjoin conj (fieldStatements name flat)) ∈ fields := by
      rw [mergeParts_eq_some hf]
      exact List.mem_map.mpr ⟨_, hq, by simp⟩
    simp [hm]
  · have hne : statedElements flat ≠ [] := List.ne_nil_of_mem (mem_statedElements.mpr hc)
    refine ⟨conjoin conj (statedElements flat), ?_⟩
    simp [mergedElements, hs.elements, hne]
  · refine ⟨mergedElements conj (Structure.ofList flat),
      tidy_mergedElements hconj (Structure.isTidy_ofList hflat), fun {i c} hc => ?_⟩
    have hq := mem_of_find?_eq_some (Structure.find?_positions hc)
    refine ⟨not_never_of_mergeParts hp hq, ?_⟩
    have hm : .elementAt i (conjoin conj (itemStatements i flat ++
        mergedElements conj (Structure.ofList flat))) ∈ positions := by
      rw [mergeParts_eq_some hp]
      exact List.mem_map.mpr ⟨_, hq, rfl⟩
    simp [hm]
  · obtain ⟨hn, hm, _⟩ := hlength hc
    exact ⟨hn, by simp [hm]⟩
  · obtain ⟨q, hq, hle⟩ := le_getLast_of_isSorted hs.sorted
      (mem_of_find?_eq_some (Structure.find?_positions hc))
    exact ⟨q.1, hle, (hlength hd).2.2 q hq⟩

/-! ### The outcomes of a conjunction -/

lemma equals_mem_others {w : Value} {cs : List Constraint} (h : .equals w ∈ cs) :
    .equals w ∈ (NumericParts.ofList cs).others := by
  induction cs using List.reverseRecOn with
  | nil => simp at h
  | append_singleton cs c ih =>
    have hadd : NumericParts.ofList (cs ++ [c]) = (NumericParts.ofList cs).add c := by
      simp [NumericParts.ofList]
    have hold : (NumericParts.ofList cs).others ⊆ ((NumericParts.ofList cs).add c).others := by
      unfold NumericParts.add
      split <;> simp
    rw [hadd]
    rcases List.mem_append.mp h with h | h
    · exact hold (ih h)
    · obtain rfl := List.mem_singleton.mp h
      simp [NumericParts.add]

lemma equals_mem_of_collapseBounds {cs out : List Constraint} (h : collapseBounds cs = some out)
    {w : Value} (hw : .equals w ∈ cs) : .equals w ∈ out := by
  have heq := collapseBounds_eq cs
  rcases he : NumericParts.exclude (NumericParts.ofList cs).narrowed
    (NumericParts.ofList cs).excluded with ⟨range, excluded⟩
  simp only [he] at heq
  rw [heq] at h
  split_ifs at h
  obtain rfl := Option.some.inj h
  simp [equals_mem_others hw]

section Condensing

variable {conj conjPlain : List Constraint → Constraint} {flat : List Constraint}

inductive Condenses (conj conjPlain : List Constraint → Constraint) (flat : List Constraint) :
    Constraint → Prop
  | never : Condenses conj conjPlain flat .never
  | literal {w : Value} (hw : w.same w) : Condenses conj conjPlain flat (.equals w)
  | members {cs ds : List Constraint} {common : Option Kind} (hm : Merges conj conjPlain flat cs)
      (hkind : commonKind none cs = some common) (hlit : ∀ w, .equals w ∉ flat)
      (hds : ∀ d ∈ ds, d.Tidy .shape .plain)
      (hnum : common ≠ some .number → ds = cs.filter fun c => !c.isKind) :
      Condenses conj conjPlain flat (finishConj (ds ++ (common.map Constraint.kind).toList))

lemma condenses_conjoinFlat (hconj : Conjoins .shape conj) (hplain : Conjoins .shape conjPlain)
    {entails : Constraint → Constraint → Bool} (hflat : ∀ c ∈ flat, c.Tidy .shape .plain) :
    Condenses conj conjPlain flat (conjoinFlat conj conjPlain entails flat) := by
  unfold conjoinFlat
  cases hm : mergeStructure conj conjPlain flat with
  | none => exact .never
  | some cs =>
    obtain ⟨hcs, _, _⟩ := mergeStructure_spec hconj hplain hflat hm
    have hmerge := merges_of_mergeStructure hconj hflat hm
    simp only
    cases hk : commonKind none cs with
    | none => exact .never
    | some common =>
      have hcollapse : ∀ ds, (if common == some .number then collapseBounds cs else some cs) =
          some ds → (∀ c ∈ ds, c.Tidy .shape .plain) ∧ (∀ w, .equals w ∈ cs → .equals w ∈ ds) ∧
            (common ≠ some .number → ds = cs) := by
        intro ds hds
        split_ifs at hds with hn
        · obtain rfl := eq_of_beq hn
          have hex := (exists_kind?_of_commonKind hk).resolve_left (by simp)
          obtain ⟨ht, _, _⟩ := (collapseBounds_spec hcs hex).2 ds hds
          exact ⟨ht, fun w => equals_mem_of_collapseBounds hds, fun h => absurd rfl h⟩
        · obtain rfl := Option.some.inj hds
          exact ⟨hcs, fun _ h => h, fun _ => rfl⟩
      simp only
      cases hc : (if common == some .number then collapseBounds cs else some cs) with
      | none => exact .never
      | some ds =>
        obtain ⟨hds, hequals, hnum⟩ := hcollapse ds hc
        simp only
        cases hl : ds.filterMap literal? with
        | cons v vs =>
          simp only
          split_ifs with hall
          · rw [absorb_eq hds]
            split_ifs
            · exact .literal (List.all_eq_true.mp hall v List.mem_cons_self)
            · exact .never
          · exact .never
        | nil =>
          have hneg : resolveNegations conjPlain entails ds = some ds := by
            have hpos : ds.filter (fun c => !c.isNeg) = ds := List.filter_eq_self.mpr fun c hc => by
              cases c with
              | neg d => exact absurd (hds _ hc).1 (by simp [Fragment.shape])
              | _ => rfl
            simp [resolveNegations, hpos]
          simp only [hneg]
          refine .members hmerge hk (fun w hw => ?_)
            (fun d hd => hds d (List.mem_of_mem_filter hd)) fun h => by rw [hnum h]
          have hmem := hequals w (hmerge.whole _ hw rfl)
          have hmap : w ∈ ds.filterMap literal? := List.mem_filterMap.mpr ⟨_, hmem, rfl⟩
          simp [hl] at hmap

lemma suits_shape (keep : Choice) : Suits .shape keep :=
  ⟨by simp [Fragment.shape], by simp [Fragment.shape]⟩

lemma conjoins_conjunction (n : Nat) (unroll : Bool) : Conjoins .shape (conjunction n unroll) := by
  rw [← (by_keepUncovered n).2.1]
  exact (soundAt (suits_shape _) n).conjunction unroll

lemma condenses_conjunction (n : Nat) (unroll : Bool) {cs : List Constraint}
    (hcs : ∀ c ∈ cs, c.Tidy .shape .plain)
    (h : (conjunction (n + 1) unroll cs).isNever = false) :
    .never ∉ flattenConjList [] cs ∧
    (((flattenConjList [] cs).length ≤ 1 ∧
      conjunction (n + 1) unroll cs = finishConj (flattenConjList [] cs)) ∨
    Condenses (conjunction n unroll) (conjunction n false) (flattenConjList [] cs)
      (conjunction (n + 1) unroll cs)) := by
  have hflat : ∀ c ∈ flattenConjList [] cs, c.Tidy .shape .plain :=
    flattenConjList_tidy (by simp) hcs
  have hunroll : (flattenConjList [] cs).any isUnrollable = false :=
    List.any_eq_false.mpr fun c hc => by
      cases c with
      | fix body => exact absurd (hflat _ hc).isFixFree (by simp [isFixFree])
      | _ => simp [isUnrollable]
  have hdist (conj disj : List Constraint → Constraint) :
      distribute? conj disj (flattenConjList [] cs) = none := by
    have hd : (flattenConjList [] cs).filter isDisj = [] :=
      List.filter_eq_nil_iff.mpr fun c hc => by
        cases c with
        | disj ds => exact absurd (hflat _ hc).1 (by simp [Fragment.shape])
        | _ => simp [isDisj]
    simp [distribute?, hd]
  rw [conjunction] at h ⊢
  simp only [hunroll, hdist, Bool.false_eq_true, if_false, Bool.and_false] at h ⊢
  split_ifs at h ⊢ with hnever hone
  · exact absurd h (by simp [isNever])
  · exact ⟨fun hm => hnever (List.any_eq_true.mpr ⟨_, hm, rfl⟩), Or.inl ⟨hone, rfl⟩⟩
  · exact ⟨fun hm => hnever (List.any_eq_true.mpr ⟨_, hm, rfl⟩),
      Or.inr (condenses_conjoinFlat (conjoins_conjunction n unroll)
        (conjoins_conjunction n false) hflat)⟩

end Condensing

/-! ### Constraints that a value does not visibly fail -/

end Constraint

def Kind.compatible (k l : Kind) : Bool := (k.meet l).isSome

lemma Kind.compatible_of_refines {j k l : Kind} (hk : j.refines k) (hl : j.refines l) :
    k.compatible l := by
  obtain ⟨m, hm, _⟩ := exists_meet hk hl
  simp [compatible, hm]

lemma Kind.compatible_mono {k l m : Kind} (h : k.compatible l) (hm : l.refines m) :
    k.compatible m := by
  obtain ⟨j, hj⟩ := Option.isSome_iff_exists.mp h
  obtain ⟨hjk, hjl⟩ := meet_refines hj
  exact compatible_of_refines hjk (refines_trans hjl hm)

lemma Kind.eq_of_compatible {k l : Kind} (hk : k.refines .object = false) (h : k.compatible l) :
    k = l := by
  cases k <;> cases l <;> simp_all [compatible, meet, refines]

lemma Kind.not_compatible_number {k : Kind} (hk : k.refines .object) :
    k.compatible .number = false := by
  cases k <;> simp_all [compatible, meet, refines]

namespace Constraint

mutual

/-- What the description of a value leaves possible. A field that an object does not have may be
there, and arrays and functions may have fields. -/
def Passes : Constraint → Value → Prop
  | .never, _ => False
  | .kind k, v => v.kind.compatible k
  | .equals w, v => v.same w
  | .bound r n, v => ∃ x, v = .number x ∧ r.holds x n
  | .field name c, v => v.kind.compatible .object ∧
      ∀ fields w, v = .object fields → find? name fields = some w → c.Passes w
  | .elements _, v => v.kind.compatible .array
  | .elementAt i c, v => v.kind.compatible .array ∧
      ∀ items, v = .array items → ∃ w, items[i]? = some w ∧ c.Passes w
  | .length c, v => v.kind.compatible .array ∧
      ∀ items, v = .array items → c.Passes (.ofNat items.length)
  | .conj cs, v => PassesAll cs v
  | _, _ => True
termination_by structural c => c

def PassesAll : List Constraint → Value → Prop
  | [], _ => True
  | c :: cs, v => c.Passes v ∧ PassesAll cs v
termination_by structural cs => cs

end

section Passing

variable {v : Value} {X : Value → Prop}

lemma passesAll_iff {cs : List Constraint} : PassesAll cs v ↔ ∀ c ∈ cs, c.Passes v := by
  induction cs with
  | nil => simp [PassesAll]
  | cons c cs ih => simp [PassesAll, ih]

@[simp] lemma passes_conj {cs : List Constraint} :
    (conj cs).Passes v ↔ ∀ c ∈ cs, c.Passes v := by
  rw [Passes, passesAll_iff]

mutual

theorem Passes.of_same : ∀ {c d : Constraint} {v : Value}, c.same d → c.Passes v → d.Passes v
  | .kind _, d, _, h, hc => by cases d <;> simp_all [same, Passes]
  | .equals _, d, _, h, hc => by
    cases d <;> simp only [same, Bool.false_eq_true] at h
    exact Value.same_trans hc h
  | .bound r _, d, _, h, hc => by
    cases d <;> simp only [same, Bool.false_eq_true, Bool.and_eq_true, beq_iff_eq] at h
    obtain ⟨rfl, h⟩ := h
    obtain ⟨x, rfl, hx⟩ := hc
    exact ⟨x, rfl, (r.holds_congr_bound x h) ▸ hx⟩
  | .field _ c, d, _, h, hc => by
    cases d <;> simp only [same, Bool.false_eq_true, Bool.and_eq_true, beq_iff_eq] at h
    obtain ⟨rfl, h⟩ := h
    exact ⟨hc.1, fun fields w hv hw => Passes.of_same h (hc.2 fields w hv hw)⟩
  | .elements _, d, _, h, hc => by
    cases d <;> simp only [same, Bool.false_eq_true] at h
    exact hc
  | .elementAt _ c, d, _, h, hc => by
    cases d <;> simp only [same, Bool.false_eq_true, Bool.and_eq_true, beq_iff_eq] at h
    obtain ⟨rfl, h⟩ := h
    refine ⟨hc.1, fun items hv => ?_⟩
    obtain ⟨w, hw, hcw⟩ := hc.2 items hv
    exact ⟨w, hw, Passes.of_same h hcw⟩
  | .length c, d, _, h, hc => by
    cases d <;> simp only [same, Bool.false_eq_true] at h
    exact ⟨hc.1, fun items hv => Passes.of_same h (hc.2 items hv)⟩
  | .conj cs, d, _, h, hc => by
    cases d <;> simp only [same, Bool.false_eq_true] at h
    exact PassesAll.of_same h hc
  | .never, _, _, _, hc => hc.elim
  | .any, d, _, h, _ | .disj _, d, _, h, _ | .neg _, d, _, h, _ | .fix _, d, _, h, _
  | .bvar _, d, _, h, _ | .ref _, d, _, h, _ | .var _, d, _, h, _ => by
    cases d <;> simp_all [same, Passes]

theorem PassesAll.of_same : ∀ {cs ds : List Constraint} {v : Value}, sameList cs ds →
    PassesAll cs v → PassesAll ds v
  | [], ds, _, h, _ => by cases ds <;> simp_all [sameList, PassesAll]
  | c :: cs, ds, _, h, hc => by
    cases ds <;> simp only [sameList, Bool.false_eq_true, Bool.and_eq_true] at h
    exact ⟨Passes.of_same h.1 hc.1, PassesAll.of_same h.2 hc.2⟩

end

lemma isConjunctive_passes (F : Fragment) (p : Position) (v : Value) :
    IsConjunctive (·.Tidy F p) (·.Passes v) :=
  ⟨fun h => (tidy_conj.mp h).2, trivial, passes_conj, fun hc h => ⟨Passes.of_same h,
    Passes.of_same (same_symm hc.isWellFormed h)⟩⟩

mutual

theorem passes_of_holds : ∀ {c : Constraint} {v : Value}, c.Holds X v → c.Passes v
  | .kind _, _, h => Kind.compatible_of_refines (Kind.refines_refl _) h
  | .equals _, _, h | .bound _ _, _, h => h
  | .field _ c, _, h => by
    obtain ⟨fields, w, rfl, hw, hc⟩ := h
    refine ⟨rfl, fun fields' w' he hw' => ?_⟩
    obtain rfl := Value.object.inj he
    obtain rfl := Option.some.inj (hw'.symm.trans hw)
    exact passes_of_holds hc
  | .elements _, _, h => by
    obtain ⟨items, rfl, _⟩ := h
    rfl
  | .elementAt _ c, _, h => by
    obtain ⟨items, w, rfl, hw, hc⟩ := h
    refine ⟨rfl, fun items' he => ?_⟩
    obtain rfl := Value.array.inj he
    exact ⟨w, hw, passes_of_holds hc⟩
  | .length c, _, h => by
    obtain ⟨items, rfl, hc⟩ := h
    refine ⟨rfl, fun items' he => ?_⟩
    obtain rfl := Value.array.inj he
    exact passes_of_holds hc
  | .conj cs, _, h => passesAll_of_holdsAll h
  | .never, _, h => h.elim
  | .any, _, _ | .disj _, _, _ | .neg _, _, _ | .fix _, _, _ | .bvar _, _, _ | .ref _, _, _
  | .var _, _, _ => trivial

theorem passesAll_of_holdsAll : ∀ {cs : List Constraint} {v : Value}, HoldsAll cs X v →
    PassesAll cs v
  | [], _, _ => trivial
  | _ :: _, _, h => ⟨passes_of_holds h.1, passesAll_of_holdsAll h.2⟩

end

mutual

theorem Passes.holds (hv : v.kind.refines .object = false) : ∀ {c : Constraint},
    c.Tidy .shape .plain → c.Passes v → c.Holds X v
  | .kind k, _, h => by
    have he := Kind.eq_of_compatible hv h
    simp [Holds, he]
  | .equals _, _, h | .bound _ _, _, h => h
  | .field _ _, _, h | .elementAt _ _, _, h | .length _, _, h => by
    have he := Kind.eq_of_compatible hv h.1
    simp [he, Kind.refines] at hv
  | .elements _, _, h => by
    have he := Kind.eq_of_compatible hv h
    simp [he, Kind.refines] at hv
  | .conj cs, ht, h => PassesAll.holdsAll hv ht.2 h
  | .never, _, h => h.elim
  | .any, _, _ => trivial
  | .disj _, ht, _ | .neg _, ht, _ => absurd ht.1 (by simp [Fragment.shape])
  | .fix _, ht, _ => absurd ht.isFixFree (by simp [isFixFree])
  | .bvar _, ht, _ => nomatch ht.2
  | .ref _, ht, _ | .var _, ht, _ => ht.elim

theorem PassesAll.holdsAll (hv : v.kind.refines .object = false) : ∀ {cs : List Constraint},
    AllFit .shape true cs .plain → PassesAll cs v → HoldsAll cs X v
  | [], _, _ => trivial
  | _ :: _, ht, h => ⟨Passes.holds hv ht.1 h.1, PassesAll.holdsAll hv ht.2 h.2⟩

end

def Keeps (conj : List Constraint → Constraint) : Prop :=
  ∀ {cs : List Constraint} {v : Value}, (∀ c ∈ cs, c.Tidy .shape .plain) →
    Fragment.shape.Covers v → (conj cs).Passes v → ∀ c ∈ cs, c.Passes v

lemma Keeps.conjoin {conj : List Constraint → Constraint} (h : Keeps conj) :
    Keeps (conjoin conj) := by
  intro cs v hcs hv hpass
  match cs with
  | [] => simp
  | [c] => simpa [Constraint.conjoin] using hpass
  | c :: d :: ds => exact h hcs hv hpass

section Merge

variable {conj conjPlain : List Constraint → Constraint} {flat cs : List Constraint}

lemma tidy_fieldStatements (hflat : ∀ c ∈ flat, c.Tidy .shape .plain) (name : String) :
    ∀ c ∈ fieldStatements name flat, c.Tidy .shape .plain := fun c hc => by
  simpa [Fits] using hflat _ (mem_fieldStatements.mp hc)

lemma tidy_itemStatements (hflat : ∀ c ∈ flat, c.Tidy .shape .plain) (i : Nat) :
    ∀ c ∈ itemStatements i flat, c.Tidy .shape .plain := fun c hc => by
  simpa [Fits, Position.below] using hflat _ (mem_itemStatements.mp hc)

lemma tidy_statedLengths (hflat : ∀ c ∈ flat, c.Tidy .shape .plain) :
    ∀ c ∈ statedLengths flat, c.Tidy .shape .plain := fun _ hc =>
  (hflat _ (mem_statedLengths.mp hc)).2.2

lemma Merges.passes (hm : Merges conj conjPlain flat cs) (hkeep : Keeps conj)
    (hflat : ∀ c ∈ flat, c.Tidy .shape .plain) (hv : Fragment.shape.Covers v)
    (hcs : ∀ c ∈ cs, c.Passes v) : ∀ c ∈ flat, c.Passes v := by
  intro c hc
  by_cases hw : c.isWhole
  · exact hcs c (hm.whole c hc hw)
  cases c <;> simp only [isWhole, not_true_eq_false] at hw
  case field name d =>
    obtain ⟨hk, hf⟩ := hcs _ (hm.field hc).2
    refine ⟨hk, fun fields w he hfw => ?_⟩
    subst he
    exact hkeep.conjoin (tidy_fieldStatements hflat name) (hv.find? hfw) (hf fields w rfl hfw) d
      (mem_fieldStatements.mpr hc)
  case elements d =>
    obtain ⟨e, he⟩ := hm.elements hc
    have hpass : (Constraint.elements e).Passes v := hcs _ he
    exact hpass
  case elementAt i d =>
    obtain ⟨extra, hextra, hitem⟩ := hm.item
    obtain ⟨hk, hp⟩ := hcs _ (hitem hc).2
    refine ⟨hk, fun items he => ?_⟩
    subst he
    obtain ⟨w, hiw, hpw⟩ := hp items rfl
    refine ⟨w, hiw, ?_⟩
    have htidy := List.forall_mem_append.mpr ⟨tidy_itemStatements hflat i, hextra⟩
    exact hkeep.conjoin htidy (hv.getElem? hiw) hpw d
      (List.mem_append_left _ (mem_itemStatements.mpr hc))
  case length d =>
    obtain ⟨hk, hl⟩ := hcs _ (hm.length hc).2
    refine ⟨hk, fun items he => ?_⟩
    subst he
    exact hkeep.conjoin (tidy_statedLengths hflat) (Fragment.covers_number _ _) (hl items rfl) d
      (mem_statedLengths.mpr hc)

end Merge

theorem keeps_conjunction (n : Nat) (unroll : Bool) : Keeps (conjunction n unroll) := by
  induction n generalizing unroll with
  | zero =>
    intro cs v _ _ h c hc
    rw [conjunction, passes_conj] at h
    simpa using h _ (List.mem_map_of_mem hc)
  | succ n ih =>
    intro cs v hcs hv h
    have hspec := conjoins_conjunction (n + 1) unroll .plain cs hcs
    by_cases hatom : v.kind.refines .object = false
    · have hr := h.holds (X := fun _ => True) hatom hspec.tidy
      exact fun c hc => passes_of_holds ((hspec.holds _ v hv).mp hr c hc)
    rw [Bool.not_eq_false] at hatom
    have hflat : ∀ c ∈ flattenConjList [] cs, c.Tidy .shape .plain :=
      flattenConjList_tidy (by simp) hcs
    refine (forall_flatten (isConjunctive_passes .shape .plain v) hcs).mp ?_
    have hpossible : (conjunction (n + 1) unroll cs).isNever = false := by
      refine Bool.eq_false_iff.mpr fun hn => ?_
      rwa [eq_never_of_isNever hn] at h
    have hcases := (condenses_conjunction n unroll hcs hpossible).2
    generalize conjunction (n + 1) unroll cs = r at h hcases hspec
    rcases hcases with ⟨_, rfl⟩ | hc
    · exact (forall_finishConj (isConjunctive_passes .shape .plain v) hflat).mp h
    · cases hc with
      | never => exact h.elim
      | literal _ =>
        have hw := hspec.tidy.2.2.2 rfl
        rw [← Value.kind_eq_of_same h, hatom] at hw
        exact absurd hw (by simp)
      | @members ms ds common hm hkind hlit hds hnum =>
        have htidy : ∀ d ∈ ds ++ (common.map Constraint.kind).toList, d.Tidy .shape .plain := by
          refine List.forall_mem_append.mpr ⟨hds, ?_⟩
          cases common <;> simp [Fits]
        have hall := (forall_finishConj (isConjunctive_passes .shape .plain v) htidy).mp h
        obtain ⟨hrest, hcommon⟩ := List.forall_mem_append.mp hall
        have hcompat : ∀ k, common = some k → v.kind.compatible k := by
          rintro k rfl
          exact hcommon (.kind k) (by simp)
        have hnumber : common ≠ some .number := fun he => by
          simpa [Kind.not_compatible_number hatom] using hcompat .number he
        refine hm.passes (ih unroll) hflat hv fun c hc => ?_
        by_cases hk : c.isKind
        · cases c <;> simp only [isKind, Bool.false_eq_true] at hk
          next k =>
            obtain ⟨m, hmc, hr⟩ := (commonKind_refines hkind).2 _ hc k rfl
            exact Kind.compatible_mono (hcompat m hmc) hr
        · rw [hnum hnumber] at hrest
          exact hrest c (List.mem_filter.mpr ⟨hc, by simpa using hk⟩)

lemma isNormal_normalize {n : Nat} {c : Constraint} (hc : c.Fits .shape false .plain)
    (hn : c.size ≤ n) : IsNormal .shape .plain (normalize n c) c := by
  rw [← (by_keepUncovered n).1]
  exact (soundAt (suits_shape _) n).normalize .plain c hc (Or.inl hn)

theorem passes_normalize {n : Nat} {c : Constraint} (hc : c.Fits .shape false .plain)
    (hn : c.size ≤ n) (hv : Fragment.shape.Covers v) (h : (normalize n c).Passes v) :
    c.Passes v := by
  induction n generalizing c v with
  | zero => exact h
  | succ n ih =>
    cases c with
    | conj cs =>
      have hcs := (fits_conj.mp hc).2
      have hsize : ∀ d ∈ cs, d.size ≤ n := fun d hd => by
        have := size_le_sizeList hd
        rw [size] at hn
        omega
      rw [normalize] at h
      have htidy : ∀ d ∈ cs.map (normalize n), d.Tidy .shape .plain :=
        List.forall_mem_map.mpr fun d hd => (isNormal_normalize (hcs d hd) (hsize d hd)).tidy
      have hall := keeps_conjunction n true htidy hv h
      exact passes_conj.mpr fun d hd =>
        ih (hcs d hd) (hsize d hd) hv (hall _ (List.mem_map_of_mem hd))
    | field name d =>
      rw [Fits, Fragment.below_plain] at hc
      rw [size] at hn
      rw [normalize, finishPart] at h
      split_ifs at h
      · exact h.elim
      · refine ⟨h.1, fun fields w he hw => ?_⟩
        subst he
        exact ih hc (by omega) (hv.find? hw) (h.2 fields w rfl hw)
    | elementAt i d =>
      rw [size] at hn
      rw [normalize, finishPart] at h
      split_ifs at h
      · exact h.elim
      · refine ⟨h.1, fun items he => ?_⟩
        subst he
        obtain ⟨w, hw, hp⟩ := h.2 items rfl
        exact ⟨w, hw, ih hc (by omega) (hv.getElem? hw) hp⟩
    | elements d =>
      rw [normalize] at h
      exact h
    | length d =>
      rw [size] at hn
      simp only [normalize] at h
      split_ifs at h
      · exact h.elim
      · exact h.elim
      · exact ⟨h.1, fun items he =>
          ih hc.2.2 (by omega) (Fragment.covers_number _ _) (h.2 items he)⟩
    | bound r x =>
      rw [normalize] at h
      split_ifs at h
      · exact h.elim
      · exact h
    | disj cs | neg d => exact absurd hc.1 (by simp [Fragment.shape])
    | fix body => exact absurd hc.isFixFree (by simp [isFixFree])
    | kind | equals | any | never | bvar | ref | var => exact h

end Passing

end Constraint

end Stagewise
