import Stagewise.Proofs.Passing
import Stagewise.Proofs.Spread

/-! Constraints whose normal forms are direct: without negations and statements about lengths, with
arrays described either as a whole or item by item, and with few enough alternatives in each
conjunction that it is distributed over its unions. Simplifying such a constraint keeps its
values. -/

set_option autoImplicit false

namespace Stagewise.Constraint

open Association

/-- At which paths an array is described item by item. -/
abbrev Layout := List Place → Bool

namespace Layout

def below (l : Layout) (p : Place) : Layout := fun path => l (p :: path)

def allows (l : Layout) : Place → Bool
  | .field _ => true
  | .items => !l []
  | .item _ => l []

end Layout

mutual

/-- No literal is NaN, arrays are described as the layout says, and no conjunction has too many
alternatives at any path. -/
def Positive : Layout → Constraint → Prop
  | _, .kind _ | _, .bound _ _ | _, .any | _, .never => True
  | _, .equals v => v.isWellFormed ∧ v.isNaN = false
  | l, .field name c => c.Positive (l.below (.field name))
  | l, .elements c => l.allows .items ∧ c.Positive (l.below .items)
  | l, .elementAt i c => l.allows (.item i) ∧ c.Positive (l.below (.item i))
  | l, .conj cs => (∀ path, product path cs ≤ maxBranches) ∧ AllPositive l cs
  | l, .disj cs => AllPositive l cs
  | _, .length _ | _, .neg _ | _, .fix _ | _, .bvar _ | _, .ref _ | _, .var _ => False
termination_by structural _ c => c

def AllPositive : Layout → List Constraint → Prop
  | _, [] => True
  | l, c :: cs => c.Positive l ∧ AllPositive l cs
termination_by structural _ cs => cs

end

section Positive

variable {l : Layout} {p : Place} {c d : Constraint} {cs ds es flat out : List Constraint}

lemma allPositive_iff : AllPositive l cs ↔ ∀ c ∈ cs, c.Positive l := by
  induction cs with
  | nil => simp [AllPositive]
  | cons c cs ih => simp [AllPositive, ih]

lemma positive_conj : (conj cs).Positive l ↔
    (∀ path, product path cs ≤ maxBranches) ∧ ∀ c ∈ cs, c.Positive l := by
  rw [Positive, allPositive_iff]

lemma positive_disj : (disj cs).Positive l ↔ ∀ c ∈ cs, c.Positive l := by
  rw [Positive, allPositive_iff]

lemma positive_about : (p.about c).Positive l ↔ l.allows p ∧ c.Positive (l.below p) := by
  cases p <;> simp [Place.about, Positive, Layout.allows]

mutual

theorem Positive.fits : ∀ {c : Constraint} {l : Layout}, c.Positive l → c.Fits .direct false .plain
  | .kind _, _, _ | .any, _, _ | .never, _, _ => trivial
  | .bound _ _, _, _ => ⟨rfl, by simp⟩
  | .equals _, _, h => ⟨rfl, h.1, fun _ => h.2, by simp [Fragment.direct]⟩
  | .field _ c, _, h => by
    rw [Fits, Fragment.below_plain]
    exact Positive.fits (c := c) h
  | .elements c, _, h | .elementAt _ c, _, h => Positive.fits (c := c) h.2
  | .conj _, _, h => ⟨by simp, AllPositive.fits h.2⟩
  | .disj _, _, h => ⟨rfl, AllPositive.fits h⟩
  | .length _, _, h | .neg _, _, h | .fix _, _, h | .bvar _, _, h | .ref _, _, h | .var _, _, h =>
    absurd h (by simp [Positive])

theorem AllPositive.fits : ∀ {cs : List Constraint} {l : Layout}, AllPositive l cs →
    AllFit .direct false cs .plain
  | [], _, _ => trivial
  | _ :: _, _, h => ⟨Positive.fits h.1, AllPositive.fits h.2⟩

end

lemma Positive.isPlain (h : c.Positive l) : c.IsPlain :=
  ⟨isRecursionFree_of_isFixFree h.fits.isFixFree, h.fits.isWellFormed⟩

structure Formed (l : Layout) (c : Constraint) : Prop where
  direct : c.isDirect .union
  positive : c.Positive l

structure FormedMember (l : Layout) (c : Constraint) : Prop where
  direct : c.isDirect .member
  positive : c.Positive l

lemma FormedMember.formed (h : FormedMember l c) : Formed l c :=
  ⟨isDirect_union (isDirect_branch h.direct), h.positive⟩

lemma formed_never : Formed l .never := ⟨rfl, trivial⟩

lemma formed_any : Formed l .any := ⟨rfl, trivial⟩

lemma formed_about : Formed l (p.about c) ↔ l.allows p ∧ Formed (l.below p) c := by
  constructor
  · exact fun ⟨hd, hp⟩ => ⟨(positive_about.mp hp).1, isDirect_about.mp hd, (positive_about.mp hp).2⟩
  · exact fun ⟨ha, hd, hp⟩ => ⟨isDirect_about.mpr hd, positive_about.mpr ⟨ha, hp⟩⟩

lemma formedMember_about : FormedMember l (p.about c) ↔ l.allows p ∧ Formed (l.below p) c := by
  constructor
  · exact fun ⟨hd, hp⟩ => ⟨(positive_about.mp hp).1, isDirect_about.mp hd, (positive_about.mp hp).2⟩
  · exact fun ⟨ha, hd, hp⟩ => ⟨isDirect_about.mpr hd, positive_about.mpr ⟨ha, hp⟩⟩

lemma Formed.members (h : Formed l (.conj cs)) : ∀ c ∈ cs, Formed l c := by
  have hd : (conj cs).isDirect .branch := by simpa only [isDirect] using h.direct
  exact fun c hc => ⟨isDirect_union (isDirect_branch ((isDirect_conj.mp hd).2.2 c hc)),
    (positive_conj.mp h.positive).2 c hc⟩

lemma Formed.branches (h : Formed l (.disj cs)) :
    ∀ c ∈ cs, c.isDirect .branch ∧ c.Positive l := fun c hc =>
  ⟨(isDirect_disj.mp h.direct).2 c hc, positive_disj.mp h.positive c hc⟩

/-! ### Parts -/

def place? : Constraint → Option Place
  | .field name _ => some (.field name)
  | .elements _ => some .items
  | .elementAt i _ => some (.item i)
  | _ => none

lemma place?_eq_some : c.place? = some p ↔ ∃ d, c = p.about d := by
  cases c <;> cases p <;> simp [place?, Place.about]

def statements : Place → List Constraint → List Constraint
  | .field name, cs => fieldStatements name cs
  | .items, cs => statedElements cs
  | .item i, cs => itemStatements i cs

lemma mem_statements : d ∈ statements p cs ↔ p.about d ∈ cs := by
  cases p with
  | field name => exact mem_fieldStatements
  | items => exact mem_statedElements
  | item i => exact mem_itemStatements

lemma statements_cons (p : Place) (c : Constraint) (cs : List Constraint) :
    statements p (c :: cs) = statements p cs ∨
      ∃ d, c = p.about d ∧ statements p (c :: cs) = d :: statements p cs := by
  cases p <;> cases c <;>
    simp only [statements, fieldStatements, statedElements, itemStatements, List.filterMap_cons,
      Place.about] <;> grind

lemma product_statements_le (path : List Place) :
    product path (statements p cs) ≤ product (p :: path) cs := by
  induction cs with
  | nil => cases p <;> exact Nat.le_refl 1
  | cons c cs ih =>
    rcases statements_cons p c cs with h | ⟨d, rfl, h⟩
    · rw [h, product]
      exact ih.trans (Nat.le_mul_of_pos_left _ (one_le_spread _ c))
    · rw [h, product, product, spread_about, if_pos rfl]
      exact Nat.mul_le_mul_left _ ih

lemma spread_member_nil (h : c.isDirect .member) : c.spread [] = 1 := by
  cases isMember_of_isDirect h <;> rfl

lemma spread_member_cons {q : Place} {path : List Place} (h : c.isDirect .member)
    (hq : c.place? ≠ some q) : c.spread (q :: path) = 1 := by
  rcases member_cases h with ⟨v, rfl, _⟩ | hn | hl
  · rfl
  · cases isRange_of_isNumeric h hn <;> rfl
  · cases hl with
    | kind => rfl
    | about p hc =>
      rw [spread_about, if_neg]
      rintro rfl
      exact hq (place?_eq_some.mpr ⟨_, rfl⟩)

/-- Where each part is spoken of once, it has the alternatives of that statement. -/
lemma product_le_of_nodup (hes : ∀ c ∈ es, c.isDirect .member) (hn : (es.filterMap place?).Nodup)
    {bound : List Place → Nat} (hpos : ∀ path, 1 ≤ bound path)
    (hb : ∀ p d, p.about d ∈ es → ∀ path, d.spread path ≤ bound (p :: path)) (path : List Place) :
    product path es ≤ bound path := by
  cases path with
  | nil =>
    refine Nat.le_trans (Nat.le_of_eq ?_) (hpos [])
    induction es with
    | nil => rfl
    | cons c es ih =>
      rw [List.forall_mem_cons] at hes
      rw [product, spread_member_nil hes.1, Nat.one_mul]
      exact ih hes.2 (hn.sublist ((List.sublist_cons_self c es).filterMap _))
        fun p d hd => hb p d (List.mem_cons_of_mem c hd)
  | cons q path =>
    induction es with
    | nil => exact hpos _
    | cons c es ih =>
      have hn' := hn.sublist ((List.sublist_cons_self c es).filterMap _)
      have hb' := fun p d hd => hb p d (List.mem_cons_of_mem c hd)
      rw [List.forall_mem_cons] at hes
      rw [product]
      by_cases hc : c.place? = some q
      · -- no other statement is about this part
        have hrest : product (q :: path) es = 1 := by
          rw [List.filterMap_cons_some hc, List.nodup_cons] at hn
          have hall : ∀ e ∈ es, e.spread (q :: path) = 1 := fun e he =>
            spread_member_cons (hes.2 e he) fun heq =>
              hn.1 (List.mem_filterMap.mpr ⟨e, he, heq⟩)
          rw [product_eq, List.map_congr_left hall]
          simp
        obtain ⟨d, rfl⟩ := place?_eq_some.mp hc
        rw [hrest, Nat.mul_one, spread_about, if_pos rfl]
        exact hb q d List.mem_cons_self path
      · rw [spread_member_cons hes.1 hc, Nat.one_mul]
        exact ih hes.2 hn' hb'

lemma meets_eq_false (hc : c.Positive l) (hd : d.Positive l)
    (h : ∀ p, c.place? = some p → d.place? ≠ some p) : meets c d = false := by
  cases c <;> cases d <;> simp_all [meets, place?, Positive, Layout.allows]
  exact Ne.symm h

lemma pairwise_meets (hes : ∀ c ∈ es, c.Positive l) (hn : (es.filterMap place?).Nodup) :
    es.Pairwise fun c d => meets c d = false := by
  induction es with
  | nil => exact .nil
  | cons c es ih =>
    rw [List.forall_mem_cons] at hes
    refine List.pairwise_cons.mpr ⟨fun d hd => meets_eq_false hes.1 (hes.2 d hd) fun p hp hq => ?_,
      ih hes.2 (hn.sublist ((List.sublist_cons_self c es).filterMap _))⟩
    rw [List.filterMap_cons_some hp, List.nodup_cons] at hn
    exact hn.1 (List.mem_filterMap.mpr ⟨d, hd, hq⟩)

/-! ### Conjunctions -/

/-- The conjuncts of a conjunction that is distributed over its unions. -/
structure Joint (l : Layout) (cs : List Constraint) : Prop where
  formed : ∀ c ∈ cs, Formed l c
  few : ∀ path, product path cs ≤ maxBranches

structure Yields (l : Layout) (cs : List Constraint) (c : Constraint) : Prop where
  formed : Formed l c
  spread_le : ∀ path, c.spread path ≤ product path cs

lemma yields_never : Yields l cs .never :=
  ⟨formed_never, fun path => by simpa using one_le_product path cs⟩

lemma yields_equals {v : Value} (h : FormedMember l (.equals v)) : Yields l cs (.equals v) :=
  ⟨h.formed, fun path => by simpa using one_le_product path cs⟩

lemma yields_finishConj (hes : ∀ c ∈ es, FormedMember l c) (hn : (es.filterMap place?).Nodup)
    (hle : ∀ path, product path es ≤ product path cs)
    (hfew : ∀ path, product path cs ≤ maxBranches) : Yields l cs (finishConj es) := by
  refine ⟨?_, fun path => spread_finishConj_le.trans (hle path)⟩
  have hmem : ∀ c ∈ dedup (sort es), FormedMember l c := fun c hc =>
    hes c (mem_of_mem_dedup_sort hc)
  have hnodup : ((dedup (sort es)).filterMap place?).Nodup :=
    (((sort_perm es).filterMap place?).nodup_iff.mpr hn).sublist ((dedup_sublist _).filterMap _)
  have hdedup : ∀ path, product path (dedup (sort es)) ≤ maxBranches := fun path =>
    product_dedup_sort_le.trans ((hle path).trans (hfew path))
  rw [finishConj]
  generalize dedup (sort es) = ds at *
  split
  · exact formed_any
  · exact (hmem _ List.mem_cons_self).formed
  · next hnil _ =>
    have hdirect : (conj ds).isDirect .branch := isDirect_conj.mpr ⟨fun h => hnil h,
      pairwise_meets (fun c hc => (hmem c hc).positive) hnodup, fun c hc => (hmem c hc).direct⟩
    exact ⟨isDirect_union hdirect, positive_conj.mpr ⟨hdedup, fun c hc => (hmem c hc).positive⟩⟩

lemma hasProperBounds_formedMember : HasProperBounds (FormedMember l) where
  bound := ⟨fun h => by simpa [isDirect] using h.direct,
    fun h => ⟨by simpa [isDirect] using h, trivial⟩⟩
  equals h := ⟨by simpa [isDirect, Value.isNaN, Value.isWellFormed] using h, rfl, h⟩
  neg_bound h := absurd h.direct (by simp [isDirect])

lemma places_collapseBounds (h : collapseBounds cs = some out) :
    (out.filterMap place?).Sublist (cs.filterMap place?) := by
  have heq := collapseBounds_eq cs
  have hsub := (NumericParts.others_sublist cs).filterMap place?
  generalize NumericParts.ofList cs = q at *
  rcases he : NumericParts.exclude q.narrowed q.excluded with ⟨range, excluded⟩
  simp only [he] at heq
  rw [heq] at h
  split_ifs at h
  obtain rfl := Option.some.inj h
  have hneg : q.keptNegated.filterMap place? = [] := by
    refine List.filterMap_eq_nil_iff.mpr fun c hc => ?_
    simp only [NumericParts.keptNegated] at hc
    split_ifs at hc
    · simp at hc
    · obtain ⟨_, _, rfl⟩ := List.mem_map.mp hc
      rfl
  have hbounds : range.bounds.filterMap place? = [] := by
    refine List.filterMap_eq_nil_iff.mpr fun c hc => ?_
    have hk := Interval.kind?_of_mem_bounds hc
    cases c <;> first | rfl | simp [kind?] at hk
  simpa [List.filterMap_append, hneg, hbounds, List.filterMap_map, Function.comp_def, place?]
    using hsub

lemma yields_settle {plain : List Constraint → Constraint} {common : Option Kind}
    {entails : Constraint → Constraint → Bool} (hes : ∀ c ∈ es, FormedMember l c)
    (hnodup : (es.filterMap place?).Nodup)
    (hspread : ∀ p d, p.about d ∈ es → ∀ path, d.spread path ≤ product (p :: path) flat)
    (hfew : ∀ path, product path flat ≤ maxBranches) :
    Yields l flat (settle plain entails common es) := by
  unfold settle
  split
  · next v vs hl =>
    have hv := (literals_spec hl).1
    rw [absorb_eq fun c hc => tidy_of_isDirect (hes c hc).direct]
    split_ifs
    · exact yields_equals (hes _ hv)
    · exact yields_never
    · exact yields_never
  · have hkept : resolveNegations plain entails es = some es := by
      have hpos : (es.filter fun c => !c.isNeg) = es := List.filter_eq_self.mpr fun c hc => by
        have hd := (hes c hc).direct
        cases c <;> first | rfl | simp [isDirect] at hd
      simp [resolveNegations, hpos]
    rw [hkept]
    -- the members that are left are old ones, but for the common kind, which is about no part
    have hkind : ∀ c ∈ (common.map Constraint.kind).toList, ∃ k, c = .kind k := by
      cases common <;> simp
    have hmembers : ∀ c ∈ (es.filter fun c => !c.isKind) ++ (common.map Constraint.kind).toList,
        FormedMember l c := by
      intro c hc
      rcases List.mem_append.mp hc with hc | hc
      · exact hes c (List.mem_of_mem_filter hc)
      · obtain ⟨k, rfl⟩ := hkind c hc
        exact ⟨rfl, trivial⟩
    have hplaces : (((es.filter fun c => !c.isKind) ++
        (common.map Constraint.kind).toList).filterMap place?).Nodup := by
      have hnone : (common.map Constraint.kind).toList.filterMap place? = [] := by
        cases common <;> rfl
      rw [List.filterMap_append, hnone, List.append_nil]
      exact hnodup.sublist (List.filter_sublist.filterMap _)
    refine yields_finishConj hmembers hplaces (product_le_of_nodup
      (fun c hc => (hmembers c hc).direct) hplaces (fun path => one_le_product path flat)
      fun p d hd => ?_) hfew
    rcases List.mem_append.mp hd with hd | hd
    · exact hspread p d (List.mem_of_mem_filter hd)
    · obtain ⟨k, hk⟩ := hkind _ hd
      cases p <;> simp [Place.about] at hk

section Merge

variable {conj plain : List Constraint → Constraint}

lemma snd_eq_fieldStatements {q : String × List Constraint}
    (hq : q ∈ (Structure.ofList flat).fields) : q.2 = fieldStatements q.1 flat := by
  have hs := Structure.sorts_ofList flat
  rw [← hs.fields q.1, find?_eq_some_of_mem hs.distinct hq, Option.getD_some]

lemma nodup_positions (flat : List Constraint) :
    ((Structure.ofList flat).positions.map Prod.fst).Nodup := by
  rw [List.nodup_iff_pairwise_ne, List.pairwise_map]
  exact (Structure.sorts_ofList flat).sorted.imp Nat.ne_of_lt

lemma snd_eq_itemStatements {q : Nat × List Constraint}
    (hq : q ∈ (Structure.ofList flat).positions) : q.2 = itemStatements q.1 flat := by
  rw [← (Structure.sorts_ofList flat).positions q.1, find?_eq_some_of_mem (nodup_positions flat) hq,
    Option.getD_some]

lemma item_mem {q : Nat × List Constraint} (hq : q ∈ (Structure.ofList flat).positions) :
    ∃ d, .elementAt q.1 d ∈ flat := by
  obtain ⟨d, hd⟩ := List.exists_mem_of_ne_nil _ ((Structure.isGrouped_ofList flat).positions q hq)
  rw [snd_eq_itemStatements hq] at hd
  exact ⟨d, mem_itemStatements.mp hd⟩

variable (hflat : ∀ c ∈ flat, FormedMember l c)
include hflat

lemma mergedElements_eq_nil {i : Nat} (hi : .elementAt i c ∈ flat) :
    mergedElements conj (Structure.ofList flat) = [] := by
  have hallows : l.allows (.item i) := ((hflat _ hi).positive).1
  have hnone : statedElements flat = [] := by
    refine List.eq_nil_iff_forall_not_mem.mpr fun d hd => ?_
    have hitems : l.allows .items := (hflat _ (mem_statedElements.mp hd)).positive.1
    simp [Layout.allows] at hallows hitems
    simp [hallows] at hitems
  simp [mergedElements, (Structure.sorts_ofList flat).elements, hnone]

lemma lengths_eq_nil : (Structure.ofList flat).lengths = [] := by
  rw [(Structure.sorts_ofList flat).lengths]
  refine List.eq_nil_iff_forall_not_mem.mpr fun d hd => ?_
  simpa [isDirect] using (hflat _ (mem_statedLengths.mp hd)).direct

lemma mem_groups_iff {ds : List Constraint} (hne : ds ≠ []) :
    ds ∈ (Structure.ofList flat).groups conj ↔ ∃ p, ds = statements p flat := by
  have hs := Structure.sorts_ofList flat
  simp only [Structure.groups, List.mem_append, List.mem_map, List.mem_singleton]
  constructor
  · rintro (((⟨q, hq, rfl⟩ | rfl) | ⟨q, hq, rfl⟩) | rfl)
    · exact ⟨.field q.1, snd_eq_fieldStatements hq⟩
    · exact ⟨.items, hs.elements⟩
    · obtain ⟨d, hd⟩ := item_mem hq
      refine ⟨.item q.1, ?_⟩
      rw [mergedElements_eq_nil hflat hd, List.append_nil, snd_eq_itemStatements hq]
      rfl
    · exact absurd (lengths_eq_nil hflat) hne
  · rintro ⟨p, rfl⟩
    obtain ⟨d, hd⟩ := List.exists_mem_of_ne_nil _ hne
    rw [mem_statements] at hd
    cases p with
    | field name =>
      exact Or.inl (Or.inl (Or.inl ⟨_, mem_of_find?_eq_some (Structure.find?_fields hd), rfl⟩))
    | items => exact Or.inl (Or.inl (Or.inr hs.elements.symm))
    | item i =>
      refine Or.inl (Or.inr ⟨_, mem_of_find?_eq_some (Structure.find?_positions hd), ?_⟩)
      rw [mergedElements_eq_nil hflat hd, List.append_nil]
      rfl

lemma mergeStructure_eq_of_formed (h : mergeStructure conj plain flat = some out) :
    out = flat.filter isWhole ++
      ((Structure.ofList flat).fields.map fun q =>
        .field q.1 (conjoin conj (fieldStatements q.1 flat))) ++
      (mergedElements conj (Structure.ofList flat)).map .elements ++
      ((Structure.ofList flat).positions.map fun q =>
        .elementAt q.1 (conjoin conj (itemStatements q.1 flat))) := by
  obtain ⟨lengths, hl, rfl⟩ := mergeStructure_eq_some h
  have hnil : lengths = [] := by
    simpa [mergedLength, lengths_eq_nil hflat, eq_comm] using hl
  have hfields : ∀ q ∈ (Structure.ofList flat).fields, Constraint.field q.1 (conjoin conj q.2) =
      .field q.1 (conjoin conj (fieldStatements q.1 flat)) := fun q hq => by
    rw [snd_eq_fieldStatements hq]
  have hitems : ∀ q ∈ (Structure.ofList flat).positions,
      elementAt q.1 (conjoin conj (q.2 ++ mergedElements conj (Structure.ofList flat))) =
        .elementAt q.1 (conjoin conj (itemStatements q.1 flat)) := fun q hq => by
    obtain ⟨d, hd⟩ := item_mem hq
    rw [mergedElements_eq_nil hflat hd, List.append_nil, snd_eq_itemStatements hq]
  rw [hnil, List.append_nil, List.map_congr_left hfields, List.map_congr_left hitems,
    (Structure.sorts_ofList flat).others]

lemma nodup_mergeStructure (h : mergeStructure conj plain flat = some out) :
    (out.filterMap place?).Nodup := by
  have hwhole : (flat.filter isWhole).filterMap place? = [] := by
    refine List.filterMap_eq_nil_iff.mpr fun c hc => ?_
    have hw := (List.mem_filter.mp hc).2
    cases c <;> first | rfl | simp [isWhole] at hw
  have hplaces : out.filterMap place? = (names (Structure.ofList flat).fields).map .field ++
      (mergedElements conj (Structure.ofList flat)).map (fun _ => .items) ++
      ((Structure.ofList flat).positions.map Prod.fst).map .item := by
    rw [mergeStructure_eq_of_formed hflat h]
    simp [List.filterMap_append, hwhole, List.filterMap_map, Function.comp_def, place?, names]
  have helements :
      ((mergedElements conj (Structure.ofList flat)).map fun _ => Place.items).Nodup := by
    simp only [mergedElements]
    split_ifs <;> simp
  rw [hplaces]
  refine List.Nodup.append (List.Nodup.append ?_ helements ?_) ?_ ?_
  · exact (Structure.sorts_ofList flat).distinct.map fun _ _ h => Place.field.inj h
  · simp [List.disjoint_left]
  · exact (nodup_positions flat).map fun _ _ h => Place.item.inj h
  · simp only [List.disjoint_left, List.mem_append, List.mem_map]
    rintro _ (⟨_, _, rfl⟩ | ⟨_, _, rfl⟩) <;> simp

lemma about_mem_mergeStructure (h : mergeStructure conj plain flat = some out)
    (hd : p.about d ∈ out) : d = conjoin conj (statements p flat) ∧ statements p flat ≠ [] := by
  have hgroups := Structure.isGrouped_ofList flat
  have hwhole : p.about d ∉ flat.filter isWhole := by cases p <;> simp [Place.about, isWhole]
  simp only [mergeStructure_eq_of_formed hflat h, List.mem_append, List.mem_map] at hd
  rcases hd with ((hd | ⟨q, hq, he⟩) | ⟨e, hmem, he⟩) | ⟨q, hq, he⟩
  · exact absurd hd hwhole
  · obtain ⟨rfl, rfl⟩ := about_inj (p := .field q.1) he
    exact ⟨rfl, fun hnil => hgroups.fields q hq ((snd_eq_fieldStatements hq).trans hnil)⟩
  · obtain ⟨rfl, rfl⟩ := about_inj (p := .items) he
    rw [mergedElements, (Structure.sorts_ofList flat).elements] at hmem
    split_ifs at hmem with hnil
    · simp at hmem
    · exact ⟨List.mem_singleton.mp hmem, by simpa [statements] using hnil⟩
  · obtain ⟨rfl, rfl⟩ := about_inj (p := .item q.1) he
    exact ⟨rfl, fun hnil => hgroups.positions q hq ((snd_eq_itemStatements hq).trans hnil)⟩

lemma whole_mem_mergeStructure (h : mergeStructure conj plain flat = some out) (hc : c ∈ out)
    (hplace : c.place? = none) : c ∈ flat := by
  simp only [mergeStructure_eq_of_formed hflat h, List.mem_append, List.mem_map] at hc
  rcases hc with ((hc | ⟨q, hq, rfl⟩) | ⟨e, hmem, rfl⟩) | ⟨q, hq, rfl⟩
  · exact List.mem_of_mem_filter hc
  all_goals simp [place?] at hplace

variable (hparts : ∀ p, 2 ≤ (statements p flat).length →
  Yields (l.below p) (statements p flat) (conj (statements p flat)))
include hparts

lemma yields_conjoin (hp : statements p flat ≠ []) :
    Yields (l.below p) (statements p flat) (conjoin conj (statements p flat)) := by
  have hformed : ∀ d ∈ statements p flat, Formed (l.below p) d := fun d hd =>
    (formedMember_about.mp (hflat _ (mem_statements.mp hd))).2
  have hmany := hparts p
  generalize statements p flat = ds at *
  match ds with
  | [] => exact absurd rfl hp
  | [c] => exact ⟨hformed c List.mem_cons_self, fun path => by simp [conjoin, product]⟩
  | _ :: _ :: _ => exact hmany (by simp)

lemma gather_spec {common : Option Kind} (h : gather conj plain flat = some (common, es)) :
    (∀ c ∈ es, FormedMember l c) ∧ (es.filterMap place?).Nodup ∧
      ∀ p d, p.about d ∈ es → ∀ path, d.spread path ≤ product (p :: path) flat := by
  obtain ⟨ms, hm, h⟩ := Option.bind_eq_some_iff.mp h
  obtain ⟨known, hk, h⟩ := Option.bind_eq_some_iff.mp h
  obtain ⟨ds, hc, h⟩ := Option.map_eq_some_iff.mp h
  obtain ⟨rfl, rfl⟩ := Prod.mk.inj h
  have habout : ∀ p d, p.about d ∈ ms → Yields (l.below p) (statements p flat) d := by
    intro p d hd
    obtain ⟨rfl, hne⟩ := about_mem_mergeStructure hflat hm hd
    exact yields_conjoin hflat hparts hne
  have hms : ∀ c ∈ ms, FormedMember l c := by
    intro c hc
    cases hp : c.place? with
    | none => exact hflat c (whole_mem_mergeStructure hflat hm hc hp)
    | some p =>
      obtain ⟨d, rfl⟩ := place?_eq_some.mp hp
      obtain ⟨_, hne⟩ := about_mem_mergeStructure hflat hm hc
      obtain ⟨e, he⟩ := List.exists_mem_of_ne_nil _ hne
      exact formedMember_about.mpr ⟨(formedMember_about.mp (hflat _ (mem_statements.mp he))).1,
        (habout p d hc).formed⟩
  have hnodup := nodup_mergeStructure hflat hm
  have hspread : ∀ p d, p.about d ∈ ms → ∀ path, d.spread path ≤ product (p :: path) flat :=
    fun p d hd path => ((habout p d hd).spread_le path).trans (product_statements_le path)
  split_ifs at hc with hnumber
  · refine ⟨(collapseBounds_isOf hasProperBounds_formedMember hms hc).1,
      hnodup.sublist (places_collapseBounds hc), fun p d hd => hspread p d ?_⟩
    exact (mem_collapseBounds hc hd).resolve_right (by cases p <;> simp [Place.about, kind?])
  · obtain rfl := Option.some.inj hc
    exact ⟨hms, hnodup, hspread⟩

lemma yields_conjoinFlat {entails : Constraint → Constraint → Bool}
    (hfew : ∀ path, product path flat ≤ maxBranches) :
    Yields l flat (conjoinFlat conj plain entails flat) := by
  rw [conjoinFlat_eq]
  cases hg : gather conj plain flat with
  | none => exact yields_never
  | some g =>
    obtain ⟨common, es⟩ := g
    obtain ⟨hes, hnodup, hspread⟩ := gather_spec hflat hparts hg
    exact yields_settle hes hnodup hspread hfew

end Merge

lemma Formed.not_isUnrollable (h : Formed l c) : c.isUnrollable = false := by
  have hd := h.direct
  cases c <;> first | rfl | simp [isDirect] at hd

lemma Joint.flatten (h : Joint l cs) : Joint l (flattenConjList [] cs) where
  formed := forall_mem_flattenConjList (P := Formed l) (fun h => h.members) (fun h _ => h) (by simp)
    h.formed
  few path := product_flatten_le.trans (h.few path)

lemma formedMember_of_flat (hc : c ∈ flattenConjList [] cs) (hf : Formed l c)
    (hnever : c.isNever = false) (hdisj : c.isDisj = false) : FormedMember l c := by
  have hflat := isFlat_of_mem_flatten hc
  refine ⟨?_, hf.positive⟩
  have hd := hf.direct
  cases c <;> simp_all [isDirect, isFlat, isNever, isDisj]

lemma Joint.not_isDisj (h : Joint l flat) (hd : isDistributed flat = false) :
    ∀ c ∈ flat, c.isDisj = false := by
  have hcount : branchCount flat ≤ maxBranches :=
    branchCount_le_product.trans (h.few [])
  simp only [isDistributed, Bool.not_eq_false', Bool.or_eq_true, List.isEmpty_iff,
    decide_eq_true_eq, List.filter_eq_nil_iff] at hd
  exact fun c hc => eq_false_of_ne_true (hd.resolve_right (by omega) c hc)

lemma Joint.alternative {combo : List Constraint} (h : Joint l flat)
    (hc : combo ∈ alternatives flat) : Joint l combo where
  formed c hmem := by
    rcases mem_combinations hc c hmem with hc | ⟨d, hd, hcd⟩
    · exact h.formed c (List.mem_of_mem_filter hc)
    · obtain ⟨hd, hdisj⟩ := List.mem_filter.mp hd
      obtain ⟨ds, rfl⟩ := isDisj_iff.mp hdisj
      obtain ⟨hdirect, hpos⟩ := (h.formed _ hd).branches c hcd
      exact ⟨isDirect_union hdirect, hpos⟩
  few path := by
    refine Nat.le_trans ?_ (sum_product_alternatives_le.trans (h.few path))
    exact List.le_sum_of_mem (List.mem_map.mpr ⟨combo, hc, rfl⟩)

lemma Joint.part (hflat : ∀ c ∈ flat, FormedMember l c)
    (hfew : ∀ path, product path flat ≤ maxBranches) (p : Place) :
    Joint (l.below p) (statements p flat) where
  formed _ hd := (formedMember_about.mp (hflat _ (mem_statements.mp hd))).2
  few path := (product_statements_le path).trans (hfew (p :: path))

/-! ### Unions -/

structure IsBranchwise (P : Constraint → Prop) : Prop where
  bool : P (.kind .bool)
  any : P .any
  never : P .never
  disj : ∀ {cs : List Constraint}, P (.disj cs) ↔ ∀ c ∈ cs, P c

lemma isBranchwise_positive : IsBranchwise (Positive l) :=
  ⟨trivial, trivial, trivial, positive_disj⟩

section Branchwise

variable {P : Constraint → Prop} (hP : IsBranchwise P)
include hP

lemma direct_flattenDisj (h : ∀ c ∈ cs, c.isDirect .union ∧ P c) : ∀ c ∈ flattenDisjList [] cs,
    c = .any ∨ c.isDirect .branch ∧ P c := by
  refine forall_mem_flattenDisjList (T := fun c => c.isDirect .union ∧ P c) (fun h c hc => ?_)
    (fun h hdisj hnever => ?_) (by simp) h
  · exact ⟨isDirect_union ((isDirect_disj.mp h.1).2 c hc), hP.disj.mp h.2 c hc⟩
  · rcases union_cases h.1 with rfl | rfl | ⟨ds, rfl⟩ | hb
    · exact Or.inl rfl
    · simp [isNever] at hnever
    · simp [isDisj] at hdisj
    · exact Or.inr ⟨hb, h.2⟩

lemma direct_finishDisj (h : ∀ c ∈ cs, c.isDirect .branch ∧ P c) :
    (finishDisj cs).isDirect .union ∧ P (finishDisj cs) := by
  have hmem : ∀ c ∈ dedup (sort cs), c.isDirect .branch ∧ P c := fun c hc =>
    h c (mem_of_mem_dedup_sort hc)
  rw [finishDisj]
  generalize dedup (sort cs) = ds at *
  split
  · exact ⟨rfl, hP.never⟩
  · obtain ⟨hd, hp⟩ := hmem _ List.mem_cons_self
    exact ⟨isDirect_union hd, hp⟩
  · next hnil _ =>
    exact ⟨isDirect_disj.mpr ⟨fun he => hnil he, fun c hc => (hmem c hc).1⟩,
      hP.disj.mpr fun c hc => (hmem c hc).2⟩

lemma direct_step_disj (a : Answers) (h : ∀ c ∈ cs, c.isDirect .union ∧ P c) :
    (a.step.disj cs).isDirect .union ∧ P (a.step.disj cs) := by
  simp only [Answers.step]
  split_ifs with hany
  · exact ⟨rfl, hP.any⟩
  · have hsub := uncovered_sublist (a.entails []) [] (mergeBools (flattenDisjList [] cs))
    refine direct_finishDisj hP fun c hc => forall_mem_mergeBools
      (P := fun c => c.isDirect .branch ∧ P c) ⟨rfl, hP.bool⟩ (fun c hc => ?_) c (hsub.subset hc)
    refine (direct_flattenDisj hP h c hc).resolve_left ?_
    rintro rfl
    exact hany (List.any_eq_true.mpr ⟨_, hc, rfl⟩)

end Branchwise

lemma spread_step_disj_le (a : Answers) (path : List Place) :
    (a.step.disj cs).spread path ≤ max 1 (total path cs) := by
  simp only [Answers.step]
  split_ifs
  · simp
  · refine spread_finishDisj_le.trans (max_le_max_left 1 ?_)
    calc total path (uncovered (a.entails []) [] (mergeBools (flattenDisjList [] cs)))
      _ ≤ total path (mergeBools (flattenDisjList [] cs)) :=
        total_le_of_sublist (uncovered_sublist _ _ _)
      _ ≤ total path (flattenDisjList [] cs) := total_mergeBools_le
      _ ≤ total path cs := by simpa [total] using total_flattenDisjList_le [] cs

/-! ### The settled answers -/

open Answers

lemma settled_step_disj (h : ∀ c ∈ cs, c.isDirect .union) :
    settled.step.disj cs = settled.disj cs :=
  have hq : (Question.disj cs).IsPlain := fun c hc => isPlain_of_isDirect (h c hc)
  settled_step_agree hq

lemma formed_settled_disj (h : ∀ c ∈ cs, Formed l c) : Formed l (settled.disj cs) := by
  rw [← settled_step_disj fun c hc => (h c hc).direct]
  obtain ⟨hd, hp⟩ := direct_step_disj isBranchwise_positive settled
    fun c hc => ⟨(h c hc).direct, (h c hc).positive⟩
  exact ⟨hd, hp⟩

lemma spread_settled_disj_le (h : ∀ c ∈ cs, Formed l c) (path : List Place) :
    (settled.disj cs).spread path ≤ max 1 (total path cs) := by
  rw [← settled_step_disj fun c hc => (h c hc).direct]
  exact spread_step_disj_le settled path

lemma Joint.isPlain (h : Joint l cs) (unroll : Bool) : (Question.conj unroll cs).IsPlain :=
  fun c hc => isPlain_of_isDirect (h.formed c hc).direct

lemma Joint.members_of_opens {unroll : Bool} (h : Joint l cs) (ho : Opens unroll cs)
    (hd : isDistributed (flattenConjList [] cs) = false) :
    ∀ c ∈ flattenConjList [] cs, FormedMember l c := fun c hc =>
  formedMember_of_flat hc (h.flatten.formed c hc)
    (eq_false_of_ne_true (List.any_eq_false.mp ho.possible c hc)) (h.flatten.not_isDisj hd c hc)

lemma Joint.yields_step {unroll : Bool} (h : Joint l cs)
    (ih : ∀ {l' : Layout} {ds : List Constraint}, Joint l' ds →
      settled.Asks (.conj unroll cs) (.conj unroll ds) → Yields l' ds (settled.conj unroll ds)) :
    Yields l cs (settled.step.conj unroll cs) := by
  have hflat := h.flatten
  suffices hs : Yields l (flattenConjList [] cs) (settled.step.conj unroll cs) from
    ⟨hs.formed, fun path => (hs.spread_le path).trans product_flatten_le⟩
  have hrolled : (flattenConjList [] cs).any isUnrollable = false :=
    List.any_eq_false.mpr fun c hc => by simp [(hflat.formed c hc).not_isUnrollable]
  simp only [Answers.step, hrolled, Bool.and_false, Bool.false_eq_true, if_false, distribute?_eq]
  split_ifs with hnever hshort hdist
  · exact yields_never
  · refine ⟨?_, fun path => spread_finishConj_le⟩
    have hformed := hflat.formed
    match flattenConjList [] cs, hshort, hformed with
    | [], _, _ => exact formed_any
    | [c], _, hformed => exact hformed c List.mem_cons_self
  · have hopen : Opens unroll cs :=
      ⟨eq_false_of_ne_true hnever, Nat.lt_of_not_le hshort, by rw [hrolled, Bool.and_false]⟩
    have hcombos : ∀ combo ∈ alternatives (flattenConjList [] cs),
        Yields l combo (settled.conj unroll combo) := fun combo hc =>
      ih (hflat.alternative hc) (.alternative hopen hdist hc)
    have hformed : ∀ c ∈ (alternatives (flattenConjList [] cs)).map (settled.conj unroll),
        Formed l c := List.forall_mem_map.mpr fun combo hc => (hcombos combo hc).formed
    refine ⟨formed_settled_disj hformed,
      fun path => (spread_settled_disj_le hformed path).trans ?_⟩
    refine Nat.max_le.mpr ⟨one_le_product path _, Nat.le_trans ?_ sum_product_alternatives_le⟩
    rw [total_eq, List.map_map]
    exact List.sum_le_sum fun combo hc => (hcombos combo hc).spread_le path
  · have hopen : Opens unroll cs :=
      ⟨eq_false_of_ne_true hnever, Nat.lt_of_not_le hshort, by rw [hrolled, Bool.and_false]⟩
    have hdist := eq_false_of_ne_true hdist
    have hmembers := h.members_of_opens hopen hdist
    refine yields_conjoinFlat hmembers (fun p hp => ?_) hflat.few
    have hne : statements p (flattenConjList [] cs) ≠ [] := by
      intro hnil
      simp [hnil] at hp
    exact ih (Joint.part hmembers hflat.few p)
      (.group hopen hdist ((mem_groups_iff hmembers hne).mpr ⟨p, rfl⟩) hp)

theorem Joint.yields (h : Joint l cs) (unroll : Bool) :
    Yields l cs (settled.conj unroll cs) := by
  induction hn : (Question.conj unroll cs).rank using Nat.strong_induction_on
    generalizing l cs with
  | _ n ih =>
    have heq : settled.step.conj unroll cs = settled.conj unroll cs :=
      settled_step_agree (h.isPlain unroll)
    rw [← heq]
    refine h.yields_step fun hds hasks => ?_
    exact ih _ (hn ▸ ((h.isPlain unroll).asks hasks).2) hds rfl

structure Simplifies (l : Layout) (c : Constraint) : Prop where
  formed : Formed l c.simplify
  spread_le : ∀ path, c.simplify.spread path ≤ c.spread path

lemma Positive.step_eq (h : c.Positive l) : settled.step.normal c = c.simplify := by
  have hq : (Question.normal c).IsPlain := by
    simpa [Question.IsPlain, Question.constraints] using h.isPlain
  rw [← settled_normal]
  exact settled_step_agree hq

lemma Simplifies.about (h : Simplifies (l.below p) c) (hp : l.allows p) :
    Formed l (p.about c.simplify) ∧
      ∀ path, (p.about c.simplify).spread path ≤ (p.about c).spread path := by
  refine ⟨formed_about.mpr ⟨hp, h.formed⟩, fun path => ?_⟩
  cases path with
  | nil => simp
  | cons q path =>
    rw [spread_about, spread_about]
    split_ifs
    · exact h.spread_le path
    · exact Nat.le_refl 1

lemma Simplifies.finishPart (h : Simplifies (l.below p) c) (hp : l.allows p) :
    Formed l (finishPart p.about c.simplify) ∧
      ∀ path, (Constraint.finishPart p.about c.simplify).spread path ≤ (p.about c).spread path := by
  rw [Constraint.finishPart]
  split_ifs
  · exact ⟨formed_never, fun path => by simpa using one_le_spread path _⟩
  · exact h.about hp

lemma joint_simplify (hfew : ∀ path, product path cs ≤ maxBranches)
    (hcs : ∀ c ∈ cs, Simplifies l c) : Joint l (cs.map simplify) :=
  ⟨List.forall_mem_map.mpr fun c hc => (hcs c hc).formed,
    fun path => (product_map_le fun c hc => (hcs c hc).spread_le path).trans (hfew path)⟩

mutual

theorem Positive.simplifies : ∀ {c : Constraint} {l : Layout}, c.Positive l → Simplifies l c
  | .kind k, l, h => by
    have heq : kind k = (kind k).simplify := h.step_eq
    exact ⟨heq ▸ ⟨rfl, trivial⟩, fun path => by rw [← heq]⟩
  | .any, l, h => by
    have heq : any = any.simplify := h.step_eq
    exact ⟨heq ▸ formed_any, fun path => by rw [← heq]⟩
  | .never, l, h => by
    have heq : never = never.simplify := h.step_eq
    exact ⟨heq ▸ formed_never, fun path => by rw [← heq]⟩
  | .equals v, l, h => by
    have heq : equals v = (equals v).simplify := h.step_eq
    have hd : (equals v).isDirect .union := by simp [isDirect, h.1, h.2]
    exact ⟨heq ▸ ⟨hd, h⟩, fun path => by rw [← heq]⟩
  | .bound r n, l, h => by
    have heq : (if n.isNaN then .never else bound r n) = (bound r n).simplify := h.step_eq
    refine ⟨?_, fun path => ?_⟩ <;> rw [← heq] <;> split_ifs with hn
    · exact formed_never
    · exact ⟨by simpa [isDirect] using hn, trivial⟩
    · simp
    · exact Nat.le_refl _
  | .field name c, l, h => by
    have hc := (Positive.simplifies (c := c) (l := l.below (.field name)) h).finishPart rfl
    have heq : finishPart (.field name) (settled.normal c) = (field name c).simplify := h.step_eq
    rw [settled_normal] at heq
    exact ⟨heq ▸ hc.1, heq ▸ hc.2⟩
  | .elements c, l, h => by
    have hc := (Positive.simplifies (c := c) (l := l.below .items) h.2).about h.1
    have heq : elements (settled.normal c) = (elements c).simplify := h.step_eq
    rw [settled_normal] at heq
    exact ⟨heq ▸ hc.1, heq ▸ hc.2⟩
  | .elementAt i c, l, h => by
    have hc := (Positive.simplifies (c := c) (l := l.below (.item i)) h.2).finishPart h.1
    have heq : finishPart (.elementAt i) (settled.normal c) = (elementAt i c).simplify := h.step_eq
    rw [settled_normal] at heq
    exact ⟨heq ▸ hc.1, heq ▸ hc.2⟩
  | .conj cs, l, h => by
    have hcs := AllPositive.simplifies h.2
    have hle := fun path => product_map_le fun c hc => (hcs c hc).spread_le path
    have hjoint := joint_simplify h.1 hcs
    have heq : settled.conj true (cs.map settled.normal) = (conj cs).simplify := h.step_eq
    rw [settled_normal] at heq
    have hc := heq ▸ hjoint.yields true
    exact ⟨hc.formed, fun path => (hc.spread_le path).trans (by simpa using hle path)⟩
  | .disj cs, l, h => by
    have hcs : ∀ c ∈ cs, Simplifies l c := AllPositive.simplifies h
    have heq : settled.disj (cs.map settled.normal) = (disj cs).simplify := h.step_eq
    rw [settled_normal] at heq
    have hformed : ∀ c ∈ cs.map simplify, Formed l c :=
      List.forall_mem_map.mpr fun c hc => (hcs c hc).formed
    refine ⟨heq ▸ formed_settled_disj hformed, fun path => ?_⟩
    rw [← heq, spread_disj]
    refine (spread_settled_disj_le hformed path).trans ?_
    exact max_le_max_left 1 (total_map_le fun c hc => (hcs c hc).spread_le path)
  | .length _, _, h | .neg _, _, h | .fix _, _, h | .bvar _, _, h | .ref _, _, h | .var _, _, h =>
    absurd h (by simp [Positive])

theorem AllPositive.simplifies : ∀ {cs : List Constraint} {l : Layout}, AllPositive l cs →
    ∀ c ∈ cs, Simplifies l c
  | [], _, _ => by simp
  | _ :: _, _, h => List.forall_mem_cons.mpr ⟨Positive.simplifies h.1, AllPositive.simplifies h.2⟩

end

end Positive

end Stagewise.Constraint
