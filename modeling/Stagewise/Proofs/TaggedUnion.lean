import Stagewise.Proofs.FlatUnion

/-! Unions of records that a field tells apart. Each record has a text of its own in the field, so a
value belongs to at most one of them, and what is known of the field decides between them. -/

set_option autoImplicit false

namespace Stagewise.Constraint

open Association
open Fragment (isFlat_core)

def hasTag (tag name : String) : Constraint := .field tag (.equals (.string name))

def variant (tag : String) (r : String × List (String × Constraint)) : Constraint :=
  .record ((tag, .equals (.string r.1)) :: r.2)

/-- Variants with tags of their own, whose other fields are named differently from the tag and from
each other and are constrained within the core. -/
structure AreVariants (tag : String) (rs : List (String × List (String × Constraint))) :
    Prop where
  tags : (names rs).Nodup
  fields : ∀ r ∈ rs, (tag :: names r.2).Nodup
  core : ∀ r ∈ rs, ∀ p ∈ r.2, p.2.isCore

variable {tag name other : String} {v : Value} {X : Value → Prop}

lemma eq_of_holds_hasTag (h : (hasTag tag name).Holds X v) (h' : (hasTag tag other).Holds X v) :
    name = other := by
  obtain ⟨fields, w, rfl, hw, hs⟩ := h
  obtain ⟨_, w', he, hw', hs'⟩ := h'
  obtain rfl := Value.object.inj he
  obtain rfl := Option.some.inj (hw.symm.trans hw')
  cases w <;> simp_all [Holds, Value.same]

lemma isCore_hasTag (tag name : String) : (hasTag tag name).isCore := rfl

lemma areCore_iff {cs : List Constraint} : areCore cs ↔ ∀ c ∈ cs, c.isCore := by
  induction cs with
  | nil => simp [areCore]
  | cons c cs ih => simp [areCore, ih]

section Variants

variable {rs : List (String × List (String × Constraint))} (hrs : AreVariants tag rs)

include hrs

lemma AreVariants.isCore {r : String × List (String × Constraint)} (hr : r ∈ rs) :
    (variant tag r).isCore := by
  have hall : ∀ c ∈ Constraint.kind .object :: (((tag, .equals (.string r.1)) :: r.2).map
      fun p => Constraint.field p.1 p.2), c.isCore := by
    rw [List.forall_mem_cons, List.forall_mem_map, List.forall_mem_cons]
    exact ⟨rfl, rfl, fun p hp => hrs.core r hr p hp⟩
  exact areCore_iff.mpr hall

lemma AreVariants.fits : ∀ c ∈ rs.map (variant tag), c.Fits .core false .plain :=
  List.forall_mem_map.mpr fun _ hr => fits_of_isCore (hrs.isCore hr)

omit hrs in
lemma holds_hasTag_of_variant {r : String × List (String × Constraint)}
    (h : (variant tag r).Holds X v) : (hasTag tag r.1).Holds X v :=
  holds_conj.mp h _ (by simp [hasTag])

lemma AreVariants.tag_of_admits {r : String × List (String × Constraint)} (hr : r ∈ rs)
    (h : (variant tag r).admits v) : (hasTag tag r.1).Holds (fun _ => True) v :=
  holds_hasTag_of_variant (((fits_of_isCore (hrs.isCore hr)).admits_iff _).mp h)

lemma AreVariants.countP_le (v : Value) : (rs.map (variant tag)).countP (admits · v) ≤ 1 := by
  have hapart {r r' : String × List (String × Constraint)} (hr : r ∈ rs) (hr' : r' ∈ rs)
      (h : (variant tag r).admits v) (h' : (variant tag r').admits v) : r.1 = r'.1 :=
    eq_of_holds_hasTag (hrs.tag_of_admits hr h) (hrs.tag_of_admits hr' h')
  obtain ⟨hnodup, -, -⟩ := hrs
  rw [List.countP_map]
  induction rs with
  | nil => exact Nat.zero_le 1
  | cons r rs ih =>
    rw [names, List.map_cons, List.nodup_cons] at hnodup
    have hrest := ih (fun hr hr' => hapart (List.mem_cons_of_mem r hr) (List.mem_cons_of_mem r hr'))
      hnodup.2
    by_cases h : (variant tag r).admits v
    · have hnone : rs.countP ((admits · v) ∘ variant tag) = 0 := by
        refine List.countP_eq_zero.mpr fun r' hr' h' => hnodup.1 ?_
        rw [hapart List.mem_cons_self (List.mem_cons_of_mem r hr') h h']
        exact List.mem_map_of_mem hr'
      rw [List.countP_cons, hnone]
      split_ifs <;> omega
    · rwa [List.countP_cons_of_neg (by simpa using h)]

end Variants

/-! ### Normal forms of tagged records -/

def IsTagged (tag name : String) (c : Constraint) : Prop :=
  c = .never ∨ IsPortrait .object 0 c.members ∧ hasTag tag name ∈ c.members

lemma eq_hasTag_of_alike {c : Constraint} (h : Alike c (hasTag tag name)) :
    c = hasTag tag name := by
  rcases h with rfl | h
  · rfl
  · cases c <;> simp only [hasTag, same, Bool.false_eq_true, Bool.and_eq_true, beq_iff_eq] at h
    next key d =>
      obtain ⟨rfl, h⟩ := h
      cases d <;> simp only [same, Bool.false_eq_true] at h
      next w =>
        cases w <;> simp only [Value.same, Bool.false_eq_true, beq_iff_eq] at h
        rw [h]
        rfl

lemma hasTag_mem_flatten {cs : List Constraint} (h : hasTag tag name ∈ cs) :
    hasTag tag name ∈ flattenConjList [] cs := by
  obtain ⟨d, hd, ha⟩ := exists_alike_mem_flatten (m := hasTag tag name) rfl
    ⟨_, h, mentions_of_alike (.refl _) rfl⟩
  exact eq_hasTag_of_alike ha ▸ hd

lemma conjunction_of_never_mem {n : Nat} {unroll : Bool} {cs : List Constraint}
    (h : .never ∈ cs) : conjunction (n + 1) unroll cs = .never := by
  have hflat : (flattenConjList [] cs).any isNever := by
    obtain ⟨d, hd, ha⟩ := exists_alike_mem_flatten (m := .never) rfl
      ⟨_, h, mentions_of_alike (.refl _) rfl⟩
    refine List.any_eq_true.mpr ⟨d, hd, ?_⟩
    rcases ha with rfl | ha
    · rfl
    · cases d <;> simp_all [same, isNever]
  rw [conjunction]
  simp [hflat]

lemma reaches_zero (conjPlain : List Constraint → Constraint) : Reaches conjPlain 0 :=
  fun last h => absurd h (Nat.not_lt_zero last)

lemma isTagged_conjunction {n : Nat} {unroll : Bool} {cs : List Constraint}
    (h : IsPortrait .object 0 cs) (htag : hasTag tag name ∈ cs) :
    IsTagged tag name (conjunction (n + 1) unroll cs) := by
  obtain ⟨hflat, hne⟩ := h.flatten (List.ne_nil_of_mem htag)
  obtain ⟨ds, hds, hne', hmem, -, he⟩ : ∃ ds, IsPortrait .object 0 ds ∧ ds ≠ [] ∧
      (∀ c ∈ flattenConjList [] cs, c.isKind = false → c ∈ ds) ∧ _ ∧
      conjunction (n + 1) unroll cs = finishConj ds :=
    conjunction_portrait_eq hflat hne (by decide) fun _ => reaches_zero _
  have hin : hasTag tag name ∈ ds := hmem _ (hasTag_mem_flatten htag) rfl
  rw [he]
  obtain ⟨d, hd, ha⟩ := mentions_finishConj (m := hasTag tag name) rfl ⟨_, hin, .refl _⟩
  exact Or.inr ⟨(finishConj_portrait hds hne').1, eq_hasTag_of_alike ha ▸ hd⟩

def isRecordMember : Constraint → Bool
  | .kind k => k == .object
  | .field _ _ => true
  | _ => false

lemma isRecordMember_of_describes {c : Constraint} (h : c.describes .object 0) :
    c.isRecordMember := by
  cases c with
  | length d => simp [eq_of_describes_length h, Value.ofNat, describes] at h
  | _ => simp_all [describes, isRecordMember]

lemma normalize_hasTag (n : Nat) (tag name : String) :
    normalize (n + 1) (hasTag tag name) = hasTag tag name := by
  cases n <;> rfl

lemma normalize_member {n : Nat} {c : Constraint} (h : c.isRecordMember) :
    normalize (n + 1) c = .never ∨
      (normalize (n + 1) c).describes .object 0 ∧ (normalize (n + 1) c).part? = c.part? := by
  cases c <;> simp only [isRecordMember, Bool.false_eq_true, beq_iff_eq] at h
  case kind k =>
    subst h
    exact Or.inr ⟨rfl, rfl⟩
  case field name d =>
    rw [normalize, finishPart]
    split_ifs with hnever
    · exact Or.inl rfl
    · exact Or.inr ⟨by simp [describes, hnever], rfl⟩

lemma isTagged_normalize_conj {n : Nat} {cs : List Constraint} (hmem : ∀ c ∈ cs, c.isRecordMember)
    (hnodup : (cs.filterMap part?).Nodup) (htag : hasTag tag name ∈ cs) :
    IsTagged tag name (normalize (n + 2) (.conj cs)) := by
  rw [normalize]
  by_cases hnever : .never ∈ cs.map (normalize (n + 1))
  · exact Or.inl (conjunction_of_never_mem hnever)
  have hparts : ∀ c ∈ cs, (normalize (n + 1) c).describes .object 0 ∧
      (normalize (n + 1) c).part? = c.part? := fun c hc =>
    (normalize_member (hmem c hc)).resolve_left fun he => hnever (he ▸ List.mem_map_of_mem hc)
  have hportrait : IsPortrait .object 0 (cs.map (normalize (n + 1))) := by
    refine ⟨List.forall_mem_map.mpr fun c hc => (hparts c hc).1, ?_⟩
    have hsame : cs.filterMap (part? ∘ normalize (n + 1)) = cs.filterMap part? :=
      List.filterMap_congr fun c hc => (hparts c hc).2
    rwa [List.filterMap_map, hsame]
  refine isTagged_conjunction hportrait ?_
  exact normalize_hasTag n tag name ▸ List.mem_map_of_mem htag

lemma isTagged_hasTag (tag name : String) : IsTagged tag name (hasTag tag name) := by
  refine Or.inr ⟨⟨?_, ?_⟩, List.mem_singleton.mpr rfl⟩
  · exact List.forall_mem_singleton.mpr rfl
  · exact List.nodup_singleton _

lemma isTagged_normalize {n : Nat} {c : Constraint} (h : IsTagged tag name c) :
    IsTagged tag name (normalize (n + 2) c) := by
  rcases h with rfl | ⟨hportrait, htag⟩
  · exact Or.inl rfl
  by_cases hconj : ∃ cs, c = .conj cs
  · obtain ⟨cs, rfl⟩ := hconj
    exact isTagged_normalize_conj
      (fun c hc => isRecordMember_of_describes (hportrait.describes c hc)) hportrait.nodup htag
  · rw [members_of_ne_conj hconj, List.mem_singleton] at htag
    rw [← htag, normalize_hasTag]
    exact isTagged_hasTag tag name

lemma isTagged_variant {n : Nat} {r : String × List (String × Constraint)}
    (h : (tag :: names r.2).Nodup) : IsTagged tag r.1 (normalize (n + 2) (variant tag r)) := by
  refine isTagged_normalize_conj ?_ ?_ (by simp [hasTag])
  · refine List.forall_mem_cons.mpr ⟨rfl, List.forall_mem_map.mpr fun p _ => rfl⟩
  · have hparts (ps : List (String × Constraint)) :
        (ps.map fun p => Constraint.field p.1 p.2).filterMap part? = (names ps).map Sum.inl := by
      rw [List.filterMap_map, names, List.map_map, ← List.filterMap_eq_map]
      rfl
    have hinj : Function.Injective (Sum.inl : String → String ⊕ Option Nat) :=
      fun _ _ he => Sum.inl.inj he
    rw [List.filterMap_cons_none rfl]
    exact hparts ((tag, .equals (.string r.1)) :: r.2) ▸ h.map hinj

/-! ### What the tag decides -/

lemma entails_hasTag {n : Nat} {c : Constraint} (h : IsTagged tag name c) :
    entails (n + 2) [] c (hasTag tag name) := by
  have hself (n : Nat) : entails (n + 1) [] (hasTag tag name) (hasTag tag name) := by
    have hsame : hasTag tag name == hasTag tag name := by
      change (hasTag tag name).same (hasTag tag name)
      simp [hasTag, same, Value.same]
    rw [entails]
    unfold entailsStep
    rw [if_pos hsame]
  rcases h with rfl | ⟨hportrait, htag⟩
  · rfl
  by_cases hconj : ∃ cs, c = .conj cs
  · obtain ⟨cs, rfl⟩ := hconj
    have hany : cs.any fun x => entails (n + 1) [] x (hasTag tag name) :=
      List.any_eq_true.mpr ⟨_, htag, hself n⟩
    rw [entails]
    unfold entailsStep
    split_ifs
    · rfl
    · simp only [hasTag] at hany ⊢
      simp [hany]
  · rw [members_of_ne_conj hconj, List.mem_singleton] at htag
    rw [← htag]
    exact hself _

lemma simplify_hasTag (tag name : String) : (hasTag tag name).simplify = hasTag tag name := by
  obtain ⟨n, hn⟩ : ∃ n, allowance (hasTag tag name).size = n + 1 :=
    ⟨allowance (hasTag tag name).size - 1, (Nat.sub_add_cancel Nat.one_le_two_pow).symm⟩
  rw [simplify, hn, normalize_hasTag]

lemma exists_allowance (n : Nat) : ∃ m, allowance n = m + 4 := by
  have h : 2 ^ 20 ≤ allowance n := Nat.pow_le_pow_right (by decide) (Nat.le_add_left 20 n)
  exact ⟨allowance n - 4, by omega⟩

lemma implies_hasTag {c : Constraint} (h : IsTagged tag name c) : c.implies (hasTag tag name) := by
  obtain ⟨n, hn⟩ := exists_allowance c.size
  have hsimplify : IsTagged tag name c.simplify := by
    rw [simplify, hn]
    exact isTagged_normalize h
  obtain ⟨m, hm⟩ := exists_allowance (c.simplify.size + (hasTag tag name).size)
  rw [implies, simplify_hasTag, hm]
  exact entails_hasTag hsimplify

lemma conjunction_eq_conjoinFlat {n : Nat} {unroll : Bool} {cs : List Constraint}
    (hlength : 1 < (flattenConjList [] cs).length)
    (hplain : ∀ c ∈ flattenConjList [] cs,
      c.isNever = false ∧ c.isUnrollable = false ∧ c.isDisj = false) :
    conjunction (n + 1) unroll cs =
      conjoinFlat (conjunction n unroll) (conjunction n false) (entails n [])
        (flattenConjList [] cs) := by
  have hnever : (flattenConjList [] cs).any isNever = false :=
    List.any_eq_false.mpr fun c hc => by simp [(hplain c hc).1]
  have hunroll : (flattenConjList [] cs).any isUnrollable = false :=
    List.any_eq_false.mpr fun c hc => by simp [(hplain c hc).2.1]
  have hdisj : (flattenConjList [] cs).filter isDisj = [] :=
    List.filter_eq_nil_iff.mpr fun c hc => by simp [(hplain c hc).2.2]
  rw [conjunction]
  simp [hnever, hunroll, distribute?, hdisj, Nat.not_le_of_lt hlength]

lemma conjunction_texts {n : Nat} {unroll : Bool} (hne : name ≠ other) :
    conjunction (n + 1) unroll [.equals (.string name), .equals (.string other)] = .never := by
  let texts : List Constraint := [.equals (.string name), .equals (.string other)]
  have hpush : (Constraint.equals (.string name) == .equals (.string other)) = false := by
    change Constraint.same _ _ = false
    simp [same, Value.same, hne]
  have hflat : flattenConjList [] texts = texts := by
    simp [texts, flattenConjList, flattenConj, pushNew, hpush]
  have hmerge (conj conjPlain : List Constraint → Constraint) :
      mergeStructure conj conjPlain texts = some texts := rfl
  have hkind : commonKind none texts = some (some .string) := rfl
  have hliteral : texts.filterMap literal? = [.string name, .string other] := rfl
  have hall : ([Value.string name, .string other].all (· == .string name)) = false := by
    have hother : (Value.string other == .string name) = false := by
      change Value.same _ _ = false
      simp [Value.same, Ne.symm hne]
    simp [hother]
  have hplain : ∀ c ∈ flattenConjList [] texts,
      c.isNever = false ∧ c.isUnrollable = false ∧ c.isDisj = false := by
    rw [hflat]
    simp [texts, isNever, isUnrollable, isDisj]
  change conjunction (n + 1) unroll texts = .never
  rw [conjunction_eq_conjoinFlat (by simp [hflat, texts]) hplain, hflat]
  simp [conjoinFlat, hmerge, hkind, hliteral, hall]

lemma fieldStatements_of_nodup {cs : List Constraint} (h : (cs.filterMap part?).Nodup)
    {c : Constraint} (hc : .field tag c ∈ cs) : fieldStatements tag cs = [c] := by
  induction cs with
  | nil => exact absurd hc List.not_mem_nil
  | cons d cs ih =>
    by_cases hd : ∃ e, d = .field tag e
    · obtain ⟨e, rfl⟩ := hd
      have hparts : (Constraint.field tag e :: cs).filterMap part? =
          Sum.inl tag :: cs.filterMap part? := rfl
      rw [hparts, List.nodup_cons] at h
      have hnone (e : Constraint) : .field tag e ∉ cs := fun he =>
        h.1 (List.mem_filterMap.mpr ⟨_, he, rfl⟩)
      have hempty : fieldStatements tag cs = [] :=
        List.eq_nil_iff_forall_not_mem.mpr fun e he => hnone e (mem_fieldStatements.mp he)
      have hhead : c = e := by simpa [hnone c] using hc
      have hcons : fieldStatements tag (.field tag e :: cs) = e :: fieldStatements tag cs := by
        simp [fieldStatements]
      rw [hcons, hempty, hhead]
    · have hskip : fieldStatements tag (d :: cs) = fieldStatements tag cs := by
        cases d with
        | field key e =>
          have hkey : key ≠ tag := fun hk => hd ⟨e, hk ▸ rfl⟩
          simp [fieldStatements, hkey]
        | _ => rfl
      rw [hskip]
      refine ih (h.sublist ((List.sublist_cons_self d cs).filterMap _)) ?_
      exact (List.mem_cons.mp hc).resolve_left fun he => hd ⟨c, he.symm⟩

lemma conjunction_of_texts {n : Nat} {unroll : Bool} {cs : List Constraint}
    (hmem : ∀ c ∈ flattenConjList [] cs, c.isRecordMember)
    (htexts : fieldStatements tag (flattenConjList [] cs) =
      [.equals (.string name), .equals (.string other)]) (hne : name ≠ other) :
    conjunction (n + 2) unroll cs = .never := by
  have htag : .field tag (.equals (.string name)) ∈ flattenConjList [] cs :=
    mem_fieldStatements.mp (by simp [htexts])
  have hlength : 1 < (flattenConjList [] cs).length := by
    have hle : (fieldStatements tag (flattenConjList [] cs)).length ≤ _ :=
      List.length_filterMap_le _ _
    rwa [htexts] at hle
  have hplain : ∀ c ∈ flattenConjList [] cs,
      c.isNever = false ∧ c.isUnrollable = false ∧ c.isDisj = false := by
    intro c hc
    have hc := hmem c hc
    cases c <;> simp_all [isRecordMember, isNever, isUnrollable, isDisj]
  have hmerge : mergeStructure (conjunction (n + 1) unroll) (conjunction (n + 1) false)
      (flattenConjList [] cs) = none := by
    rw [mergeStructure_eq]
    cases hparts : mergeParts .field (conjunction (n + 1) unroll) []
        (Structure.ofList (flattenConjList [] cs)).fields with
    | none => simp [hparts]
    | some fields =>
      have hgroup := mem_of_find?_eq_some (Structure.find?_fields htag)
      have hnever := not_never_of_mergeParts hparts hgroup
      simp [htexts, conjoin, conjunction_texts hne, isNever] at hnever
  rw [conjunction_eq_conjoinFlat hlength hplain, conjoinFlat, hmerge]

lemma disjoint_hasTag {c : Constraint} (h : IsTagged tag name c) (hne : name ≠ other) :
    c.disjoint (hasTag tag other) := by
  obtain ⟨n, hn⟩ := exists_allowance (Constraint.conj [c, hasTag tag other]).size
  rw [disjoint, unify, simplify, hn, normalize, List.map_cons, List.map_cons, List.map_nil,
    normalize_hasTag]
  have hc : IsTagged tag name (normalize (n + 3) c) := isTagged_normalize h
  generalize normalize (n + 3) c = d at hc
  rcases hc with rfl | ⟨hportrait, htag⟩
  · rw [conjunction_of_never_mem List.mem_cons_self]
    rfl
  obtain ⟨hflat, -⟩ := hportrait.flatten (List.ne_nil_of_mem htag)
  have hmine := fieldStatements_of_nodup hflat.nodup (hasTag_mem_flatten htag)
  have hpush : flattenConjList [] [d, hasTag tag other] =
      flattenConjList [] d.members ++ [hasTag tag other] := by
    have hnew : (flattenConjList [] d.members).any (· == hasTag tag other) = false := by
      refine List.any_eq_false.mpr fun c hc he => hne ?_
      rw [eq_hasTag_of_alike (.inr he)] at hc
      have hboth := hmine.symm.trans (fieldStatements_of_nodup hflat.nodup hc)
      simpa using hboth
    rw [flattenConjList, flattenConjList, flattenConjList, flattenConj_members [] d,
      flattenConj_of_isMember (c := hasTag tag other) rfl, pushNew, hnew]
    rfl
  have hmem : ∀ c ∈ flattenConjList [] [d, hasTag tag other], c.isRecordMember := by
    rw [hpush]
    refine List.forall_mem_append.mpr ⟨fun c hc => ?_, List.forall_mem_singleton.mpr rfl⟩
    exact isRecordMember_of_describes (hflat.describes c hc)
  have htexts : fieldStatements tag (flattenConjList [] [d, hasTag tag other]) =
      [.equals (.string name), .equals (.string other)] := by
    rw [hpush, fieldStatements, List.filterMap_append, ← fieldStatements, hmine]
    simp [hasTag]
  rw [conjunction_of_texts hmem htexts hne]
  rfl

/-! ### Narrowing -/

lemma disjoint_eq_false {a b : Constraint} (ha : a.Fits .core false .plain)
    (hb : b.Fits .core false .plain) (hv : v.isWellFormed) (h : a.Holds X v ∧ b.Holds X v) :
    a.disjoint b = false := by
  have hfits : (Constraint.conj [a, b]).Fits .core false .plain :=
    fits_conj.mpr ⟨by simp, by simpa using ⟨ha, hb⟩⟩
  have hnormal := isNormal_simplify_of_suits (suits_core _) hfits
  rw [disjoint, unify]
  generalize (Constraint.conj [a, b]).simplify = c at hnormal ⊢
  have hc := (hnormal.holds X v (covers_core hv)).mpr (holds_conj.mpr (by simpa using h))
  cases c with
  | never => exact hc.elim
  | _ => rfl

lemma conjunction_union {n : Nat} {bs : List Constraint} (hlength : bs.length ≤ maxBranches) :
    conjunction (n + 1) true [.disj bs, hasTag tag name] =
      disjunction n (bs.map fun b => conjunction n true [hasTag tag name, b]) := by
  have hflat : flattenConjList [] [.disj bs, hasTag tag name] = [.disj bs, hasTag tag name] := rfl
  have hcombos : combinations [hasTag tag name] [.disj bs] =
      bs.map fun b => [hasTag tag name, b] := by
    simp [combinations, branchesOf]
  have hdistribute (conj disj : List Constraint → Constraint) :
      distribute? conj disj [.disj bs, hasTag tag name] =
        some (disj (bs.map fun b => conj [hasTag tag name, b])) := by
    have hunions : [Constraint.disj bs, hasTag tag name].filter isDisj = [.disj bs] := rfl
    have hrest : [Constraint.disj bs, hasTag tag name].filter (fun c => !c.isDisj) =
        [hasTag tag name] := rfl
    have hfew : ¬ maxBranches < bs.length := Nat.not_lt_of_le hlength
    simp [distribute?, hunions, hrest, hcombos, branchesOf, hfew, Function.comp_def]
  rw [conjunction, hflat, hdistribute]
  rfl

lemma tidy_hasTag (tag name : String) : (hasTag tag name).Tidy .core .plain := by
  change (Constraint.equals _).Tidy .core (Fragment.core.below tag .plain)
  rw [Fragment.below_plain]
  exact ⟨rfl, rfl, by simp [Fragment.core], by simp [Fragment.core]⟩

lemma conjunction_hasTag (n : Nat) {b : Constraint} (hb : b.Tidy .core .plain) :
    IsConj .core .plain (conjunction n true [hasTag tag name, b]) [hasTag tag name, b] :=
  conjoins_flat isFlat_core n true .plain _ (by simpa using ⟨tidy_hasTag tag name, hb⟩)

lemma admits_conjunction_branches {n : Nat} {bs : List Constraint}
    (hbs : ∀ b ∈ bs, b.Tidy .core .plain) (hlength : bs.length ≤ maxBranches)
    (hcount : bs.countP (admits · v) ≤ 2) (hv : v.isWellFormed) :
    (conjunction (n + 2) true [.disj bs, hasTag tag name]).admits v ↔
      (Constraint.disj bs).Holds (fun _ => True) v ∧ (hasTag tag name).Holds (fun _ => True) v := by
  have hcover := covers_core hv
  have hconj (b : Constraint) (hb : b ∈ bs) : IsConj .core .plain
      (conjunction (n + 1) true [hasTag tag name, b]) [hasTag tag name, b] :=
    conjunction_hasTag (n + 1) (hbs b hb)
  have hparts : ∀ c ∈ bs.map fun b => conjunction (n + 1) true [hasTag tag name, b],
      c.Tidy .core .plain := List.forall_mem_map.mpr fun b hb => (hconj b hb).tidy
  have hboth (b : Constraint) (hb : b ∈ bs) :
      (conjunction (n + 1) true [hasTag tag name, b]).Holds (fun _ => True) v ↔
        (hasTag tag name).Holds (fun _ => True) v ∧ b.Holds (fun _ => True) v := by
    rw [(hconj b hb).holds _ v hcover]
    simp
  have hle : (bs.map fun b => conjunction (n + 1) true [hasTag tag name, b]).countP
      (admits · v) ≤ 2 := by
    rw [List.countP_map]
    refine Nat.le_trans (List.countP_mono_left fun b hb hbv => ?_) hcount
    exact ((hbs b hb).admits_iff _).mpr
      ((hboth b hb).mp (((hconj b hb).tidy.admits_iff _).mp hbv)).2
  have hfree := isFixFree_of_branches fun _ =>
    tidy_branchesOf_disjunction isFlat_core hparts (n := n)
  rw [conjunction_union hlength, admits_iff_holds hfree fun _ => True,
    holds_disjunction_of_width isFlat_core hparts (covers_core hv) (atMost_of_countP hle),
    holds_disj]
  simp only [List.mem_map, exists_exists_and_eq_and]
  constructor
  · rintro ⟨b, hb, hbv⟩
    exact ⟨⟨b, hb, ((hboth b hb).mp hbv).2⟩, ((hboth b hb).mp hbv).1⟩
  · rintro ⟨⟨b, hb, hbv⟩, htag⟩
    exact ⟨b, hb, (hboth b hb).mpr ⟨htag, hbv⟩⟩

lemma admits_conjunction_union {n : Nat} {ds : List Constraint}
    (hds : ∀ d ∈ ds, d.Tidy .core .plain) (hlength : ds.length ≤ maxBranches)
    (hcount : ds.countP (admits · v) ≤ 2) (hv : v.isWellFormed) :
    (conjunction (n + 2) true [disjunction (n + 1) ds, hasTag tag name]).admits v ↔
      (∃ d ∈ ds, d.Holds (fun _ => True) v) ∧ (hasTag tag name).Holds (fun _ => True) v := by
  have htidy := fun b => tidy_branchesOf_disjunction isFlat_core hds (b := b) (n := n)
  have hfew := length_branchesOf_disjunction_le isFlat_core hds n
  have hcount' := (thins_disjunction isFlat_core hds n v).countP_le
  rw [← holds_disjunction_of_width isFlat_core hds (covers_core hv) (atMost_of_countP hcount)
    (n := n)]
  generalize disjunction (n + 1) ds = c at htidy hfew hcount' ⊢
  by_cases hunion : ∃ bs, c = .disj bs
  · obtain ⟨bs, rfl⟩ := hunion
    have hmax : 1 ≤ maxBranches := by decide
    exact admits_conjunction_branches htidy (Nat.le_trans hfew (Nat.max_le.mpr ⟨hmax, hlength⟩))
      (Nat.le_trans hcount' hcount) hv
  · have hc : c.Tidy .core .plain := by
      refine htidy c ?_
      cases c <;> simp_all [branchesOf]
    have hboth := conjoins_flat isFlat_core (n + 2) true .plain [c, hasTag tag name]
      (by simpa using ⟨hc, tidy_hasTag tag name⟩)
    rw [hboth.tidy.admits_iff fun _ => True, hboth.holds _ v (covers_core hv)]
    simp

section Narrowing

variable {rs : List (String × List (String × Constraint))} (hrs : AreVariants tag rs)
  {r : String × List (String × Constraint)} (hr : r ∈ rs) (hv : v.isWellFormed)

include hrs hv

lemma AreVariants.admits_union :
    (simplify (.disj (rs.map (variant tag)))).admits v ↔ ∃ r ∈ rs, (variant tag r).admits v := by
  have hcount : (rs.map (variant tag)).countP (admits · v) ≤ 2 :=
    Nat.le_trans (hrs.countP_le v) (by decide)
  simpa using admits_simplify_disj isFlat_core hrs.fits (covers_core hv) hcount

omit hv in
lemma AreVariants.exists_branch_iff :
    (∃ b ∈ branches (.disj (rs.map (variant tag))), b.admits v) ↔
      (simplify (.disj (rs.map (variant tag)))).admits v := by
  have hfree := isFixFree_simplify_disj isFlat_core hrs.fits
  rw [branches_disj isFlat_core hrs.fits, admits_iff_holds hfree fun _ => True, ← holds_branchesOf]
  refine exists_congr fun b => and_congr_right fun hb => ?_
  exact (tidy_branchesOf_simplify isFlat_core hrs.fits hb).admits_iff _

omit hv in
lemma AreVariants.tidy_branch {b : Constraint} (hb : b ∈ branches (.disj (rs.map (variant tag)))) :
    b.Tidy .core .plain := by
  rw [branches_disj isFlat_core hrs.fits] at hb
  exact tidy_branchesOf_simplify isFlat_core hrs.fits hb

omit hv in
lemma AreVariants.eq_of_tag_eq {r r' : String × List (String × Constraint)} (hr : r ∈ rs)
    (hr' : r' ∈ rs) (h : r.1 = r'.1) : r = r' :=
  List.inj_on_of_nodup_map hrs.tags hr hr' h

omit hrs hv in
lemma kind_of_holds_hasTag (h : (hasTag tag name).Holds X v) : v.kind = .object := by
  obtain ⟨fields, _, rfl, _, _⟩ := h
  rfl

lemma AreVariants.isTagged_branch {b : Constraint}
    (hb : b ∈ branches (.disj (rs.map (variant tag)))) (hbv : b.admits v) :
    ∃ r ∈ rs, IsTagged tag r.1 b ∧ (variant tag r).admits v := by
  obtain ⟨r', hr', hv'⟩ := (hrs.admits_union hv).mp (hrs.exists_branch_iff.mp ⟨b, hb, hbv⟩)
  have hobject := kind_of_holds_hasTag (hrs.tag_of_admits hr' hv')
  rw [branches_disj isFlat_core hrs.fits] at hb
  rcases mem_branchesOf_simplify isFlat_core hrs.fits hb with rfl | rfl | ⟨c, hc, n, hn, rfl⟩
  · cases hbv
  · rw [admits_iff_holds rfl fun _ => True] at hbv
    simp [Holds, hobject, Kind.refines] at hbv
  · obtain ⟨r, hr, rfl⟩ := List.mem_map.mp hc
    have hnormal := isNormal_flat isFlat_core (hrs.fits _ hc) hn
    have hsize : 2 ≤ (variant tag r).size := by simp [variant, record, size, sizeList]
    obtain ⟨m, rfl⟩ : ∃ m, n = m + 1 := ⟨n - 1, by omega⟩
    refine ⟨r, hr, isTagged_variant (hrs.fields r hr), ?_⟩
    rw [(hrs.fits _ hc).admits_iff fun _ => True, ← hnormal.holds _ v (covers_core hv)]
    exact (hnormal.tidy.admits_iff _).mp hbv

lemma AreVariants.admits_exclude (name : String) :
    (exclude (.disj (rs.map (variant tag))) (hasTag tag name)).admits v ↔
      ∃ r ∈ rs, r.1 ≠ name ∧ (variant tag r).admits v := by
  have hcount : (rs.map (variant tag)).countP (admits · v) ≤ 2 :=
    Nat.le_trans (hrs.countP_le v) (by decide)
  rw [exclude, admits_simplify_filter isFlat_core hrs.fits (covers_core hv) hcount]
  constructor
  · rintro ⟨b, hb, hnot, hbv⟩
    obtain ⟨r, hr, htagged, hrv⟩ := hrs.isTagged_branch hv hb hbv
    refine ⟨r, hr, fun he => ?_, hrv⟩
    have himplies := implies_hasTag (he ▸ htagged)
    simp [himplies] at hnot
  · rintro ⟨r, hr, hne, hrv⟩
    obtain ⟨b, hb, hbv⟩ := hrs.exists_branch_iff.mpr ((hrs.admits_union hv).mpr ⟨r, hr, hrv⟩)
    refine ⟨b, hb, ?_, hbv⟩
    rw [Bool.not_eq_true', ← Bool.not_eq_true]
    intro himplies
    have hbt := hrs.tidy_branch hb
    have hheld := holds_of_implies (suits_core _) rfl hbt.of_tidy
      (fits_of_isCore (isCore_hasTag tag name)) himplies (covers_core hv)
      ((hbt.admits_iff fun _ => True).mp hbv)
    exact hne (eq_of_holds_hasTag (hrs.tag_of_admits hr hrv) hheld)

include hr

lemma AreVariants.admits_narrow :
    (narrow (.disj (rs.map (variant tag))) (hasTag tag r.1)).admits v ↔
      (variant tag r).admits v := by
  have hcount : (rs.map (variant tag)).countP (admits · v) ≤ 2 :=
    Nat.le_trans (hrs.countP_le v) (by decide)
  rw [narrow, admits_simplify_filter isFlat_core hrs.fits (covers_core hv) hcount]
  constructor
  · rintro ⟨b, hb, hnot, hbv⟩
    obtain ⟨r', hr', htagged, hrv⟩ := hrs.isTagged_branch hv hb hbv
    by_cases he : r'.1 = r.1
    · exact hrs.eq_of_tag_eq hr' hr he ▸ hrv
    · have hdisjoint := disjoint_hasTag htagged he
      simp [hdisjoint] at hnot
  · intro hrv
    obtain ⟨b, hb, hbv⟩ := hrs.exists_branch_iff.mpr ((hrs.admits_union hv).mpr ⟨r, hr, hrv⟩)
    have hbt := hrs.tidy_branch hb
    have hshare := disjoint_eq_false hbt.of_tidy (fits_of_isCore (isCore_hasTag tag r.1)) hv
      ⟨(hbt.admits_iff _).mp hbv, hrs.tag_of_admits hr hrv⟩
    exact ⟨b, hb, by simp [hshare], hbv⟩

lemma AreVariants.admits_unify (hlength : rs.length ≤ maxBranches) :
    (unify (.disj (rs.map (variant tag))) (hasTag tag r.1)).admits v ↔
      (variant tag r).admits v := by
  have hsize := size_le_allowance
    (Constraint.conj [.disj (rs.map (variant tag)), hasTag tag r.1]).size
  obtain ⟨n, hn⟩ := exists_allowance
    (Constraint.conj [.disj (rs.map (variant tag)), hasTag tag r.1]).size
  have hle : ∀ c ∈ rs.map (variant tag), c.size ≤ n + 2 := by
    intro c hc
    have hc := size_le_sizeList hc
    have hsum : (Constraint.conj [.disj (rs.map (variant tag)), hasTag tag r.1]).size =
        sizeList (rs.map (variant tag)) + 1 + ((hasTag tag r.1).size + 0) + 1 := rfl
    have hpos := size_pos (hasTag tag r.1)
    omega
  have heq : unify (.disj (rs.map (variant tag))) (hasTag tag r.1) =
      conjunction (n + 3) true
        [disjunction (n + 2) ((rs.map (variant tag)).map (normalize (n + 2))), hasTag tag r.1] := by
    rw [unify, simplify, hn, normalize, List.map_cons, List.map_cons, List.map_nil,
      normalize_hasTag]
    rfl
  have hcount : ((rs.map (variant tag)).map (normalize (n + 2))).countP (admits · v) ≤ 2 := by
    rw [countP_map_normalize isFlat_core hrs.fits hle (covers_core hv)]
    exact Nat.le_trans (hrs.countP_le v) (by decide)
  have htidy := tidy_map_normalize isFlat_core hrs.fits hle
  rw [heq, admits_conjunction_union htidy (by simpa using hlength) hcount hv]
  have hnormal (r : String × List (String × Constraint)) (hr : r ∈ rs) :
      (normalize (n + 2) (variant tag r)).Holds (fun _ => True) v ↔ (variant tag r).admits v := by
    have hc := List.mem_map_of_mem (f := variant tag) hr
    rw [(hrs.fits _ hc).admits_iff fun _ => True]
    exact (isNormal_flat isFlat_core (hrs.fits _ hc) (hle _ hc)).holds _ v (covers_core hv)
  simp only [List.mem_map, exists_exists_and_eq_and]
  constructor
  · rintro ⟨⟨r', hr', hrv⟩, htag⟩
    rw [hnormal r' hr'] at hrv
    have he := eq_of_holds_hasTag (hrs.tag_of_admits hr' hrv) htag
    exact hrs.eq_of_tag_eq hr' hr he ▸ hrv
  · intro hrv
    exact ⟨⟨r, hr, (hnormal r hr).mpr hrv⟩, hrs.tag_of_admits hr hrv⟩

end Narrowing

/-- A union of variants is narrowed exactly by their tag: excluding a tag leaves the other variants,
and filtering by a tag or conjoining with it leaves its variant. Conjoining combines every branch
with the tag and needs that there are no more of them than are combined. -/
theorem tagged_union_narrows {rs : List (String × List (String × Constraint))}
    (hrs : AreVariants tag rs) {r : String × List (String × Constraint)} (hr : r ∈ rs)
    (hv : v.isWellFormed) :
    let union := Constraint.disj (rs.map (variant tag))
    ((union.exclude (hasTag tag r.1)).admits v ↔
      ∃ r' ∈ rs, r'.1 ≠ r.1 ∧ (variant tag r').admits v) ∧
    ((union.narrow (hasTag tag r.1)).admits v ↔ (variant tag r).admits v) ∧
    (rs.length ≤ 32 → ((union.unify (hasTag tag r.1)).admits v ↔ (variant tag r).admits v)) :=
  ⟨hrs.admits_exclude hv r.1, hrs.admits_narrow hr hv, hrs.admits_unify hr hv⟩

theorem tagged_union_narrows_shapes :
    let circle : String × List (String × Constraint) :=
      ("circle", [("radius", .neg (.bound .lt Number.zero))])
    let square : String × List (String × Constraint) :=
      ("square", [("side", .bound .ge Number.zero), ("label", .conj [.kind .string, .kind .bool])])
    let union := Constraint.disj ([circle, square].map (variant "kind"))
    let v : Value := .object [("radius", .ofNat 2), ("kind", .string "circle")]
    ((variant "kind" circle).admits v ∧ ¬ (variant "kind" square).admits v) ∧
      ¬ (union.exclude (hasTag "kind" "circle")).admits v ∧
      (union.narrow (hasTag "kind" "circle")).admits v ∧
      (union.unify (hasTag "kind" "circle")).admits v := by
  intro circle square union v
  have hrs : AreVariants "kind" [circle, square] := ⟨by decide, by decide, by decide⟩
  have hcircle : (variant "kind" circle).admits v := by decide
  have hsquare : ¬ (variant "kind" square).admits v := by decide
  obtain ⟨hexclude, hnarrow, hunify⟩ :=
    tagged_union_narrows (v := v) hrs List.mem_cons_self (by decide)
  refine ⟨⟨hcircle, hsquare⟩, fun h => ?_, hnarrow.mpr hcircle, (hunify (by decide)).mpr hcircle⟩
  obtain ⟨r, hr, hne, hrv⟩ := hexclude.mp h
  rcases List.mem_cons.mp hr with rfl | hr
  · exact hne rfl
  · obtain rfl := List.mem_singleton.mp hr
    exact hsquare hrv

end Stagewise.Constraint
