import Stagewise.Proofs.Count
import Stagewise.Proofs.Data
import Stagewise.Proofs.Normal

/-! The normal form of the description of a value. A description names each part of the value at
most once, so that normalising it merges nothing, and no length contradicts the items as long as
lengths are exact. -/

set_option autoImplicit false

namespace Stagewise

namespace Constraint

def part? : Constraint → Option (String ⊕ Option Nat)
  | .field name _ => some (.inl name)
  | .elementAt i _ => some (.inr (some i))
  | .length _ => some (.inr none)
  | _ => none

def describes (k : Kind) (count : Nat) : Constraint → Bool
  | .kind l => l == k
  | .field _ c => k == .object && !c.isNever
  | .elementAt i c => k == .array && decide (i < count) && !c.isNever
  | .length (.equals (.number n)) => k == .array && n == Number.ofNat count
  | _ => false

/-- Members of a description that speak of different parts. -/
structure IsPortrait (k : Kind) (count : Nat) (cs : List Constraint) : Prop where
  describes : ∀ c ∈ cs, c.describes k count
  nodup : (cs.filterMap part?).Nodup

section Members

variable {k : Kind} {count : Nat} {c : Constraint} {cs ds : List Constraint}

lemma kind?_of_describes (h : c.describes k count) : c.kind? = some k := by
  unfold describes at h
  split at h <;> simp_all [kind?]

lemma eq_of_describes_length (h : (Constraint.length c).describes k count) :
    c = .equals (.ofNat count) := by
  unfold describes at h
  split at h
  case h_4 n heq =>
    cases heq
    rw [Bool.and_eq_true, beq_iff_eq, beq_iff_eq] at h
    rw [h.2]
    rfl
  case h_5 => cases h
  all_goals contradiction

lemma literal?_of_describes (h : c.describes k count) : c.literal? = none := by
  cases c <;> simp_all [describes, literal?]

lemma isNeg_of_describes (h : c.describes k count) : c.isNeg = false := by
  cases c <;> simp_all [describes, isNeg]

lemma isDisj_of_describes (h : c.describes k count) : c.isDisj = false := by
  cases c <;> simp_all [describes, isDisj]

lemma isNever_of_describes (h : c.describes k count) : c.isNever = false := by
  cases c <;> simp_all [describes, isNever]

lemma isUnrollable_of_describes (h : c.describes k count) : c.isUnrollable = false := by
  cases c <;> simp_all [describes, isUnrollable]

lemma flattenConj_of_describes (h : c.describes k count) (acc : List Constraint) :
    flattenConj acc c = pushNew acc c := by
  cases c <;> simp_all [describes, flattenConj]

lemma IsPortrait.sublist (h : IsPortrait k count cs) (hs : ds.Sublist cs) :
    IsPortrait k count ds :=
  ⟨fun c hc => h.describes c (hs.subset hc), h.nodup.sublist (hs.filterMap _)⟩

lemma IsPortrait.perm (h : IsPortrait k count cs) (hp : ds.Perm cs) : IsPortrait k count ds :=
  ⟨fun c hc => h.describes c (hp.mem_iff.mp hc), (hp.filterMap _).nodup_iff.mpr h.nodup⟩

lemma IsPortrait.append_kind (h : IsPortrait k count cs) : IsPortrait k count (cs ++ [.kind k]) :=
  ⟨List.forall_mem_append.mpr ⟨h.describes, by simp [Constraint.describes]⟩,
    by simpa [List.filterMap_cons, part?] using h.nodup⟩

lemma pushNew_sublist (acc : List Constraint) (c : Constraint) :
    (pushNew acc c).Sublist (acc ++ [c]) := by
  rw [pushNew]
  split_ifs
  · exact List.sublist_append_left acc [c]
  · exact List.Sublist.refl _

lemma flattenConjList_sublist (h : ∀ c ∈ cs, c.describes k count) (acc : List Constraint) :
    (flattenConjList acc cs).Sublist (acc ++ cs) := by
  induction cs generalizing acc with
  | nil => simp [flattenConjList]
  | cons c cs ih =>
    rw [List.forall_mem_cons] at h
    rw [flattenConjList, flattenConj_of_describes h.1]
    have hstep := (ih h.2 (pushNew acc c)).trans ((pushNew_sublist acc c).append_right cs)
    simpa using hstep

lemma sublist_flattenConjList (h : ∀ c ∈ cs, c.describes k count) (acc : List Constraint) :
    acc.Sublist (flattenConjList acc cs) := by
  induction cs generalizing acc with
  | nil => simp [flattenConjList]
  | cons c cs ih =>
    rw [List.forall_mem_cons] at h
    rw [flattenConjList, flattenConj_of_describes h.1]
    refine List.Sublist.trans ?_ (ih h.2 _)
    rw [pushNew]
    split_ifs
    · exact List.Sublist.refl _
    · exact List.sublist_append_left acc [c]

lemma IsPortrait.flatten (h : IsPortrait k count cs) (hne : cs ≠ []) :
    IsPortrait k count (flattenConjList [] cs) ∧ flattenConjList [] cs ≠ [] := by
  refine ⟨h.sublist (by simpa using flattenConjList_sublist h.describes []), ?_⟩
  obtain ⟨c, ds, rfl⟩ := List.exists_cons_of_ne_nil hne
  have hd := List.forall_mem_cons.mp h.describes
  have hs := sublist_flattenConjList hd.2 [c]
  rw [flattenConjList, flattenConj_of_describes hd.1]
  exact List.ne_nil_of_mem (List.singleton_sublist.mp hs)

end Members

/-! ### Merging -/

namespace Structure

def toList (s : Structure) : List Constraint :=
  s.others ++ s.fields.flatMap (fun p => p.2.map (.field p.1)) ++ s.elements.map .elements ++
    s.positions.flatMap (fun p => p.2.map (.elementAt p.1)) ++ s.lengths.map .length

lemma addField_perm (name : String) (c : Constraint) (parts : List (String × List Constraint)) :
    ((addField name c parts).flatMap fun p => p.2.map (Constraint.field p.1)).Perm
      (.field name c :: parts.flatMap fun p => p.2.map (.field p.1)) := by
  induction parts with
  | nil => simp [addField]
  | cons p parts ih =>
    rw [addField]
    split_ifs with hp
    · subst hp
      simp
    · rw [List.flatMap_cons, List.flatMap_cons]
      exact (ih.append_left _).trans List.perm_middle

lemma addPosition_perm (i : Nat) (c : Constraint) (parts : List (Nat × List Constraint)) :
    ((addPosition i c parts).flatMap fun p => p.2.map (Constraint.elementAt p.1)).Perm
      (.elementAt i c :: parts.flatMap fun p => p.2.map (.elementAt p.1)) := by
  induction parts with
  | nil => simp [addPosition]
  | cons p parts ih =>
    rw [addPosition]
    split_ifs with hlt hp
    · simp
    · subst hp
      simp
    · rw [List.flatMap_cons, List.flatMap_cons]
      exact (ih.append_left _).trans List.perm_middle

lemma toList_add_perm (s : Structure) (c : Constraint) :
    (s.add c).toList.Perm (c :: s.toList) := by
  cases c with
  | field name d =>
    have h := ((addField_perm name d s.fields).append_left s.others).trans List.perm_middle
    exact ((h.append_right _).append_right _).append_right _
  | elementAt i d =>
    exact (((addPosition_perm i d s.positions).append_left _).trans List.perm_middle).append_right _
  | elements d =>
    refine (((List.Perm.of_eq ?_).trans
      (List.perm_append_singleton (Constraint.elements d) _)).append_right
      _).append_right _
    simp [add]
  | length d =>
    refine (List.Perm.of_eq ?_).trans (List.perm_append_singleton (Constraint.length d) _)
    simp [toList, add]
  | _ =>
    exact ((((List.perm_append_singleton _ s.others).append_right _).append_right _).append_right
      _).append_right _

lemma toList_ofList_perm (cs : List Constraint) : (ofList cs).toList.Perm cs := by
  have h : ∀ s : Structure, (cs.foldl add s).toList.Perm (cs ++ s.toList) := by
    induction cs with
    | nil => exact fun s => List.Perm.refl _
    | cons c cs ih =>
      intro s
      exact (ih (s.add c)).trans (((toList_add_perm s c).append_left cs).trans List.perm_middle)
  simpa [ofList, toList] using h {}

end Structure

lemma mergeParts_of_nodup {α : Type} {wrap : α → Constraint → Constraint}
    {key : α → String ⊕ Option Nat} (hkey : ∀ a c, (wrap a c).part? = some (key a))
    (conj : List Constraint → Constraint) {parts : List (α × List Constraint)}
    (hne : ∀ p ∈ parts, p.2 ≠ [])
    (hnodup : ((parts.flatMap fun p => p.2.map (wrap p.1)).filterMap part?).Nodup)
    (hnever : ∀ p ∈ parts, ∀ c ∈ p.2, c.isNever = false) :
    mergeParts wrap conj [] parts = some (parts.flatMap fun p => p.2.map (wrap p.1)) := by
  induction parts with
  | nil => rfl
  | cons p parts ih =>
    obtain ⟨a, cs⟩ := p
    rw [List.forall_mem_cons] at hne hnever
    rw [List.flatMap_cons, List.filterMap_append, List.nodup_append] at hnodup
    obtain ⟨c, rfl⟩ : ∃ c, cs = [c] := by
      match cs with
      | [] => exact absurd rfl hne.1
      | [c] => exact ⟨c, rfl⟩
      | c :: d :: cs => simp [hkey] at hnodup
    have hc := hnever.1 c List.mem_cons_self
    simp [mergeParts, conjoin, hc, ih hne.2 hnodup.2.1 hnever.2]

def Reaches (conjPlain : List Constraint → Constraint) (count : Nat) : Prop :=
  ∀ i < count, (conjPlain [.equals (.ofNat count), .kind .number,
    .bound .gt (Number.ofNat i)]).isNever = false

section Portraits

variable {k : Kind} {count : Nat} {cs : List Constraint}
  {conj conjPlain : List Constraint → Constraint}

lemma mergeStructure_portrait (h : IsPortrait k count cs) (hreach : Reaches conjPlain count) :
    mergeStructure conj conjPlain cs = some (Structure.ofList cs).toList := by
  have hp := Structure.toList_ofList_perm cs
  obtain ⟨hdes, hnodup⟩ := h.perm hp
  obtain ⟨hfields, hpositions, _⟩ := Structure.isGrouped_ofList cs
  unfold mergeStructure
  unfold Structure.toList at *
  generalize Structure.ofList cs = s at *
  simp only [List.forall_mem_append, List.forall_mem_flatMap, List.forall_mem_map] at hdes
  simp only [List.filterMap_append, List.nodup_append] at hnodup
  obtain ⟨⟨⟨⟨-, hf⟩, he⟩, hi⟩, hl⟩ := hdes
  have helements : s.elements = [] := by
    match hs : s.elements with
    | [] => rfl
    | e :: es => simpa [describes] using he e (by simp [hs])
  have hlengths : s.lengths = [] ∨ s.lengths = [.equals (.ofNat count)] := by
    match hs : s.lengths with
    | [] => exact Or.inl rfl
    | [d] =>
      rw [eq_of_describes_length (hl d (by simp [hs]))]
      exact Or.inr rfl
    | d :: e :: ds => simp [hs, part?] at hnodup
  have hmf : mergeParts .field conj [] s.fields = some _ :=
    mergeParts_of_nodup (fun _ _ => rfl) conj hfields hnodup.1.1.1.2.1 fun p hm c hc => by
      have hd := hf p hm c hc
      simp only [describes, Bool.and_eq_true, Bool.not_eq_true'] at hd
      exact hd.2
  have hmp : mergeParts .elementAt conj [] s.positions = some _ :=
    mergeParts_of_nodup (fun _ _ => rfl) conj hpositions hnodup.1.2.1 fun p hm c hc => by
      have hd := hi p hm c hc
      simp only [describes, Bool.and_eq_true, Bool.not_eq_true'] at hd
      exact hd.2
  rcases hlengths with hlen | hlen
  · simp [hmf, hmp, helements, hlen]
  · have hlast : ∀ p ∈ s.positions.getLast?, p.1 < count := by
      intro p hp
      have hm := List.mem_of_getLast? hp
      obtain ⟨c, hc⟩ := List.exists_mem_of_ne_nil _ (hpositions p hm)
      have hd := hi p hm c hc
      simp only [describes, Bool.and_eq_true, decide_eq_true_eq] at hd
      exact hd.1.2
    have hpossible : (Constraint.equals (.ofNat count)).isNever = false := rfl
    cases hpos : s.positions.getLast? with
    | none => simp [hmf, hmp, helements, hlen, hpos, conjoin, hpossible]
    | some p =>
      obtain ⟨last, ds⟩ := p
      have hr := hreach last (hlast _ hpos)
      simp [hmf, hmp, helements, hlen, hpos, conjoin, hr, hpossible]

lemma commonKind_portrait (h : ∀ c ∈ cs, c.describes k count) :
    commonKind (some k) cs = some (some k) := by
  induction cs with
  | nil => rfl
  | cons c cs ih =>
    rw [List.forall_mem_cons] at h
    have hmeet : k.meet k = some k := by simp [Kind.meet, Kind.refines]
    simp [commonKind, kind?_of_describes h.1, hmeet, ih h.2]

lemma sizeList_append (cs ds : List Constraint) :
    sizeList (cs ++ ds) = sizeList cs + sizeList ds := by
  induction cs with
  | nil => simp [sizeList]
  | cons c cs ih => simp only [List.cons_append, sizeList, ih, Nat.add_assoc]

lemma sizeList_eq_of_perm {ds : List Constraint} (h : cs.Perm ds) : sizeList cs = sizeList ds := by
  induction h with
  | nil => rfl
  | cons c _ ih => simp only [sizeList, ih]
  | swap c d _ => simp only [sizeList, Nat.add_left_comm]
  | trans _ _ ih ih' => exact ih.trans ih'

lemma sizeList_le_of_sublist {ds : List Constraint} (h : cs.Sublist ds) :
    sizeList cs ≤ sizeList ds := by
  induction h with
  | slnil => exact Nat.le_refl _
  | cons c _ ih => exact Nat.le_trans ih (Nat.le_add_left ..)
  | cons_cons c _ ih => exact Nat.add_le_add_left ih _

lemma size_finishConj_le (hne : cs ≠ []) : (finishConj cs).size ≤ sizeList cs + 1 := by
  have hsort : sizeList (dedup (sort cs)) ≤ sizeList cs :=
    sizeList_eq_of_perm (sort_perm cs) ▸ sizeList_le_of_sublist (dedup_sublist (sort cs))
  have hpos : 1 ≤ sizeList cs := by
    obtain ⟨c, ds, rfl⟩ := List.exists_cons_of_ne_nil hne
    exact Nat.le_trans (size_pos c) (Nat.le_add_right ..)
  unfold finishConj
  generalize dedup (sort cs) = ds at hsort
  rcases ds with _ | ⟨c, _ | ⟨d, ds⟩⟩
  · simp only [size]
    omega
  · exact Nat.le_succ_of_le (by simpa [sizeList] using hsort)
  · simpa only [size, Nat.add_le_add_iff_right] using hsort

lemma conjoinFlat_portrait {entails : Constraint → Constraint → Bool}
    (h : IsPortrait k count cs) (hne : cs ≠ []) (hk : k ≠ .number)
    (hreach : Reaches conjPlain count) :
    ∃ ds, IsPortrait k count ds ∧ ds ≠ [] ∧ (∀ c ∈ cs, c.isKind = false → c ∈ ds) ∧
      sizeList ds ≤ sizeList cs + 1 ∧ conjoinFlat conj conjPlain entails cs = finishConj ds := by
  have hp := Structure.toList_ofList_perm cs
  have hm := h.perm hp
  have hne' : (Structure.ofList cs).toList ≠ [] := fun he => hne (by simpa [he] using hp)
  have hcommon : commonKind none (Structure.ofList cs).toList = some (some k) := by
    obtain ⟨c, ds, hc⟩ := List.exists_cons_of_ne_nil hne'
    have hd := hm.describes
    rw [hc, List.forall_mem_cons] at hd
    simp [hc, commonKind, kind?_of_describes hd.1, commonKind_portrait hd.2]
  have hlit : (Structure.ofList cs).toList.filterMap literal? = [] :=
    List.filterMap_eq_nil_iff.mpr fun c hc => literal?_of_describes (hm.describes c hc)
  have hpos : (Structure.ofList cs).toList.filter (fun c => !c.isNeg) =
      (Structure.ofList cs).toList :=
    List.filter_eq_self.mpr fun c hc => by simp [isNeg_of_describes (hm.describes c hc)]
  have hneg : resolveNegations conjPlain entails (Structure.ofList cs).toList =
      some (Structure.ofList cs).toList := by
    simp [resolveNegations, hpos]
  refine ⟨(Structure.ofList cs).toList.filter (fun c => !c.isKind) ++ [.kind k],
    (hm.sublist List.filter_sublist).append_kind, by simp, fun c hc hkind => ?_, ?_, ?_⟩
  · exact List.mem_append_left _ (List.mem_filter.mpr ⟨hp.mem_iff.mpr hc, by simp [hkind]⟩)
  · rw [sizeList_append, ← sizeList_eq_of_perm hp]
    exact Nat.add_le_add_right (sizeList_le_of_sublist List.filter_sublist) 1
  · simp [conjoinFlat, mergeStructure_portrait h hreach, hcommon, hk, hlit, hneg]

def members : Constraint → List Constraint
  | .conj cs => cs
  | c => [c]

def Portrays (k : Kind) (count : Nat) (c : Constraint) : Prop :=
  IsPortrait k count c.members ∧ c.members ≠ []

lemma finishConj_portrait (h : IsPortrait k count cs) (hne : cs ≠ []) :
    Portrays k count (finishConj cs) := by
  have hs := (h.perm (sort_perm cs)).sublist (dedup_sublist (sort cs))
  have hne' : dedup (sort cs) ≠ [] := by
    have hsort : sort cs ≠ [] := fun he => hne (by simpa [he] using sort_perm cs)
    obtain ⟨c, ds, hc⟩ := List.exists_cons_of_ne_nil hsort
    simp [hc, dedup]
  unfold finishConj
  generalize dedup (sort cs) = ds at hs hne'
  rcases ds with _ | ⟨c, _ | ⟨d, ds⟩⟩
  · exact absurd rfl hne'
  · have hc := hs.describes c List.mem_cons_self
    have hm : c.members = [c] := by cases c <;> simp_all [describes, members]
    exact ⟨show IsPortrait k count c.members by rwa [hm], by simp [hm]⟩
  · exact ⟨hs, by simp [members]⟩

lemma isNever_of_portrays {c : Constraint} (h : Portrays k count c) : c.isNever = false := by
  cases c <;> first
    | rfl
    | simpa [members, describes] using h.1.describes .never

lemma conjunction_portrait_eq {n : Nat} {unroll : Bool}
    (h : IsPortrait k count (flattenConjList [] cs)) (hne : flattenConjList [] cs ≠ [])
    (hk : k ≠ .number) (hreach : ∀ n, Reaches (conjunction n false) count) :
    ∃ ds, IsPortrait k count ds ∧ ds ≠ [] ∧
      (∀ c ∈ flattenConjList [] cs, c.isKind = false → c ∈ ds) ∧
      sizeList ds ≤ sizeList (flattenConjList [] cs) + 1 ∧
      conjunction (n + 1) unroll cs = finishConj ds := by
  have hnever : (flattenConjList [] cs).any isNever = false :=
    List.any_eq_false.mpr fun c hc => by simp [isNever_of_describes (h.describes c hc)]
  have hunroll : (flattenConjList [] cs).any isUnrollable = false :=
    List.any_eq_false.mpr fun c hc => by simp [isUnrollable_of_describes (h.describes c hc)]
  have hdist (conj disj : List Constraint → Constraint) :
      distribute? conj disj (flattenConjList [] cs) = none := by
    have hd : (flattenConjList [] cs).filter isDisj = [] :=
      List.filter_eq_nil_iff.mpr fun c hc => by simp [isDisj_of_describes (h.describes c hc)]
    simp [distribute?, hd]
  rw [conjunction]
  simp only [hnever, hunroll, hdist, Bool.false_eq_true, if_false, Bool.and_false]
  split_ifs with hone
  · exact ⟨_, h, hne, fun c hc _ => hc, Nat.le_succ _, rfl⟩
  · exact conjoinFlat_portrait h hne hk (hreach n)

lemma conjunction_portrait {n : Nat} {unroll : Bool}
    (h : IsPortrait k count (flattenConjList [] cs)) (hne : flattenConjList [] cs ≠ [])
    (hk : k ≠ .number) (hreach : ∀ n, Reaches (conjunction n false) count) :
    Portrays k count (conjunction (n + 1) unroll cs) := by
  obtain ⟨ds, hds, hne', -, -, he⟩ := conjunction_portrait_eq h hne hk hreach
  rw [he]
  exact finishConj_portrait hds hne'

lemma absorb_bound {x y : Number} {r : Comparison} (hr : r.holds x y) :
    absorb (.number x) [.equals (.number x), .kind .number, .bound r y] = .equals (.number x) := by
  have hadmits : ∀ c ∈ [Constraint.kind .number, .bound r y], c.admits (.number x) := by
    intro c hc
    rcases List.mem_cons.mp hc with rfl | hc
    · exact (admits_iff_holds rfl fun _ => True).mpr rfl
    · rcases List.mem_singleton.mp hc with rfl
      exact (admits_iff_holds rfl fun _ => True).mpr ⟨_, rfl, hr⟩
  change (if [Constraint.kind .number, .bound r y].all (admits · (.number x)) then
    finishConj [.equals (.number x)] else .never) = _
  rw [if_pos (List.all_eq_true.mpr hadmits), finishConj_singleton]

lemma conjoinFlat_bound {x y : Number} {r : Comparison} (hx : x.isNaN = false)
    (hr : r.holds x y) {entails : Constraint → Constraint → Bool} :
    conjoinFlat conj conjPlain entails [.equals (.number x), .kind .number, .bound r y] =
      .equals (.number x) := by
  let flat : List Constraint := [.equals (.number x), .kind .number, .bound r y]
  have hmerge : mergeStructure conj conjPlain flat = some flat := rfl
  have hkind : commonKind none flat = some (some .number) := rfl
  have hcollapse : collapseBounds flat = some flat := by cases r <;> rfl
  have hliteral : flat.filterMap literal? = [.number x] := rfl
  have hsame : Value.number x == Value.number x := by
    change x.same x
    simp [Number.same, Number.eq, hx]
  change conjoinFlat conj conjPlain entails flat = _
  simp only [conjoinFlat, hmerge, hkind, beq_self_eq_true, if_true, hcollapse, hliteral,
    List.all_cons, hsame, List.all_nil, Bool.and_self]
  exact absorb_bound hr

lemma conjunction_bound {x y : Number} {r : Comparison} (hx : x.isNaN = false)
    (hr : r.holds x y) (n : Nat) :
    (conjunction n false [.equals (.number x), .kind .number, .bound r y]).isNever = false := by
  cases n with
  | zero => rfl
  | succ n =>
    let flat : List Constraint := [.equals (.number x), .kind .number, .bound r y]
    have hflat : flattenConjList [] flat = flat := rfl
    have hdist (conj disj : List Constraint → Constraint) : distribute? conj disj flat = none := rfl
    change (conjunction (n + 1) false flat).isNever = false
    rw [conjunction, hflat, hdist]
    simp only [flat, conjoinFlat_bound hx hr]
    rfl

lemma reaches_conjunction (h : count < Number.exactCount) (n : Nat) :
    Reaches (conjunction n false) count :=
  fun _ hi => conjunction_bound (r := .gt) (Number.isNaN_ofNat _)
    (Number.ofNat_lt_ofNat hi (Nat.lt_trans hi h)) n

lemma normalize_length {n : Nat} (h : count < Number.exactCount) :
    normalize (n + 1) (.length (.equals (.ofNat count))) = .length (.equals (.ofNat count)) := by
  have hinner : normalize n (.equals (.ofNat count)) = .equals (.ofNat count) := by
    cases n <;> rfl
  have hpossible : (Constraint.equals (.ofNat count)).isNever = false := rfl
  have hge : (conjunction n false [.equals (.ofNat count), .kind .number,
      .bound .ge Number.zero]).isNever = false :=
    conjunction_bound (r := .ge) (Number.isNaN_ofNat _) (Number.zero_le_ofNat h) n
  rw [normalize, hinner]
  simp [hpossible, hge]

end Portraits

/-! ### Descriptions -/

def Describes (v : Value) (c : Constraint) : Prop :=
  match v with
  | .object _ => Portrays .object 0 c
  | .array items => Portrays .array items.length c
  | _ => c.isNever = false

lemma isNever_of_describesValue {v : Value} {c : Constraint} (h : Describes v c) :
    c.isNever = false := by
  cases v <;> first
    | exact isNever_of_portrays h
    | exact h

structure IsDistinct (P : Value → Prop) : Prop where
  object : ∀ {fields}, P (.object fields) → (Association.names fields).Nodup ∧ ∀ q ∈ fields, P q.2
  array : ∀ {items}, P (.array items) → ∀ v ∈ items, P v

lemma isDistinct_isData (builtins : String → Bool) : IsDistinct (Value.isData builtins ·) :=
  ⟨Value.isData_object.mp, Value.isData_array.mp⟩

lemma isDistinct_isWellFormed : IsDistinct (Value.isWellFormed ·) := by
  refine ⟨fun h => ?_, fun h => ?_⟩
  · rwa [Value.isWellFormed, Bool.and_eq_true, decide_eq_true_eq,
      Value.areWellFormedFields_iff] at h
  · rwa [Value.isWellFormed, Value.areWellFormed_iff] at h

variable {P : Value → Prop}

lemma normalize_conj_portrait {k : Kind} {count n : Nat} {cs : List Constraint} (hk : k ≠ .number)
    (hreach : ∀ n, Reaches (conjunction n false) count)
    (h : IsPortrait k count (.kind k :: cs.map (normalize (n + 1)))) :
    Portrays k count (normalize (n + 2) (.conj (.kind k :: cs))) ∧
      (normalize (n + 2) (.conj (.kind k :: cs))).size ≤
        sizeList (cs.map (normalize (n + 1))) + 3 := by
  obtain ⟨hflat, hne⟩ := h.flatten (by simp)
  obtain ⟨ds, hds, hne', -, hsize, he⟩ : ∃ ds, IsPortrait k count ds ∧ ds ≠ [] ∧ _ ∧ _ ∧
      conjunction (n + 1) true (.kind k :: cs.map (normalize (n + 1))) = finishConj ds :=
    conjunction_portrait_eq hflat hne hk hreach
  have hsub := sizeList_le_of_sublist (flattenConjList_sublist h.describes [])
  have hfinish := size_finishConj_le hne'
  rw [normalize, List.map_cons]
  refine ⟨conjunction_portrait hflat hne hk hreach, ?_⟩
  show (conjunction (n + 1) true (.kind k :: cs.map (normalize (n + 1)))).size ≤ _
  rw [he]
  simp only [List.nil_append, sizeList, size] at hsub
  omega

mutual

theorem normalize_ofValue (hP : IsDistinct P) : ∀ {v : Value} {n : Nat}, v.isShort → P v →
    (ofValue v).size ≤ n → Describes v (normalize n (ofValue v)) ∧
      (normalize n (ofValue v)).size ≤ 2 * (ofValue v).size
  | .object fields, n, hs, hd, hn => by
    simp only [ofValue, size, sizeList] at hn
    obtain ⟨m, rfl⟩ : ∃ m, n = m + 2 := ⟨n - 2, by omega⟩
    have hd := hP.object hd
    obtain ⟨hdes, hpart, hsize⟩ := normalize_ofFields hP (n := m + 1) hs hd.2 (by omega)
    rw [ofValue]
    have hnormal := normalize_conj_portrait (by simp) (fun n i hi => absurd hi (by simp))
      (show IsPortrait .object 0 (.kind .object :: (ofFields fields).map (normalize (m + 1))) from
        ⟨List.forall_mem_cons.mpr ⟨rfl, hdes⟩, by
          rw [List.filterMap_cons_none rfl, hpart]
          exact (List.nodup_map_iff fun _ _ => Sum.inl.inj).mpr hd.1⟩)
    refine ⟨hnormal.1, Nat.le_trans hnormal.2 ?_⟩
    simp only [size, sizeList]
    omega
  | .array items, n, hs, hd, hn => by
    simp only [ofValue, size, sizeList] at hn
    obtain ⟨m, rfl⟩ : ∃ m, n = m + 2 := ⟨n - 2, by omega⟩
    simp only [Value.isShort, Bool.and_eq_true, decide_eq_true_eq] at hs
    obtain ⟨hdes, hpart, hsize⟩ := normalize_ofItems hP (n := m + 1) hs.2 (hP.array hd)
      (by omega) (show 0 + items.length ≤ items.length by omega)
    rw [ofValue]
    have hportrait : IsPortrait .array items.length (.kind .array ::
        (.length (.equals (.ofNat items.length)) :: ofItems 0 items).map (normalize (m + 1))) := by
      refine ⟨List.forall_mem_cons.mpr ⟨rfl, ?_⟩, ?_⟩
      · rw [List.map_cons, normalize_length hs.1]
        exact List.forall_mem_cons.mpr ⟨by simp [describes, Value.ofNat], hdes⟩
      · simp only [List.map_cons, normalize_length hs.1, List.filterMap_cons, part?, hpart]
        have hinj : Function.Injective fun i : Nat => (Sum.inr (some i) : String ⊕ Option Nat) :=
          fun _ _ he => Option.some.inj (Sum.inr.inj he)
        simpa using (List.nodup_map_iff hinj).mpr List.nodup_range'
    have hnormal := normalize_conj_portrait (by simp) (reaches_conjunction hs.1) hportrait
    refine ⟨hnormal.1, Nat.le_trans hnormal.2 ?_⟩
    rw [List.map_cons, normalize_length hs.1]
    simp only [size, sizeList]
    omega
  | .number _, n, _, _, _ | .string _, n, _, _, _ | .bool _, n, _, _, _ | .null, n, _, _, _
  | .type _, n, _, _, _ | .builtin _, n, _, _, _ | .closure _ _, n, _, _, _ => by
    cases n <;> exact ⟨rfl, by simp [ofValue, normalize, size]⟩

theorem normalize_ofFields (hP : IsDistinct P) : ∀ {fields : List (String × Value)} {n : Nat},
    Value.areShortFields fields → (∀ p ∈ fields, P p.2) → sizeList (ofFields fields) ≤ n →
    (∀ c ∈ (ofFields fields).map (normalize n), c.describes .object 0) ∧
      ((ofFields fields).map (normalize n)).filterMap part? =
        (Association.names fields).map Sum.inl ∧
      sizeList ((ofFields fields).map (normalize n)) ≤ 2 * sizeList (ofFields fields)
  | [], n, _, _, _ => by simp [ofFields, Association.names, sizeList]
  | (name, v) :: fields, n, hs, hd, hn => by
    simp only [ofFields, size, sizeList] at hn
    simp only [Value.areShortFields, Bool.and_eq_true] at hs
    rw [List.forall_mem_cons] at hd
    obtain ⟨m, rfl⟩ : ∃ m, n = m + 1 := ⟨n - 1, by omega⟩
    obtain ⟨hv, hle⟩ := normalize_ofValue hP (n := m) hs.1 hd.1 (by omega)
    have hv := isNever_of_describesValue hv
    obtain ⟨hdes, hpart, hsize⟩ := normalize_ofFields hP (n := m + 1) hs.2 hd.2 (by omega)
    have hfield : normalize (m + 1) (.field name (ofValue v)) =
        .field name (normalize m (ofValue v)) := by
      rw [normalize, finishPart, hv, if_neg (by simp)]
    rw [ofFields, List.map_cons, hfield]
    refine ⟨List.forall_mem_cons.mpr ⟨by simp [describes, hv], hdes⟩, ?_, ?_⟩
    · simp only [List.filterMap_cons, part?, hpart]
      rfl
    · simp only [size, sizeList]
      omega

theorem normalize_ofItems (hP : IsDistinct P) : ∀ {items : List Value} {n start count : Nat},
    Value.areShort items → (∀ v ∈ items, P v) → sizeList (ofItems start items) ≤ n →
    start + items.length ≤ count →
    (∀ c ∈ (ofItems start items).map (normalize n), c.describes .array count) ∧
      ((ofItems start items).map (normalize n)).filterMap part? =
        ((List.range' start items.length).map fun i => Sum.inr (some i)) ∧
      sizeList ((ofItems start items).map (normalize n)) ≤ 2 * sizeList (ofItems start items)
  | [], n, start, count, _, _, _, _ => by simp [ofItems, sizeList]
  | v :: items, n, start, count, hs, hd, hn, hc => by
    simp only [ofItems, size, sizeList] at hn
    simp only [Value.areShort, Bool.and_eq_true] at hs
    rw [List.forall_mem_cons] at hd
    rw [List.length_cons] at hc
    obtain ⟨m, rfl⟩ : ∃ m, n = m + 1 := ⟨n - 1, by omega⟩
    obtain ⟨hv, hle⟩ := normalize_ofValue hP (n := m) hs.1 hd.1 (by omega)
    have hv := isNever_of_describesValue hv
    obtain ⟨hdes, hpart, hsize⟩ := normalize_ofItems hP (n := m + 1) hs.2 hd.2 (by omega)
      (show start + 1 + items.length ≤ count by omega)
    have hitem : normalize (m + 1) (.elementAt start (ofValue v)) =
        .elementAt start (normalize m (ofValue v)) := by
      rw [normalize, finishPart, hv, if_neg (by simp)]
    rw [ofItems, List.map_cons, hitem]
    refine ⟨List.forall_mem_cons.mpr ⟨by simp [describes, hv]; omega, hdes⟩, ?_, ?_⟩
    · simp only [List.filterMap_cons, part?, hpart, List.length_cons, List.range'_succ,
        List.map_cons]
    · simp only [size, sizeList]
      omega

end

/-! ### What a description is compatible with -/

variable {builtins : String → Bool}

lemma flattenConjList_append (acc cs ds : List Constraint) :
    flattenConjList acc (cs ++ ds) = flattenConjList (flattenConjList acc cs) ds := by
  induction cs generalizing acc with
  | nil => rw [List.nil_append, flattenConjList]
  | cons c cs ih => rw [List.cons_append, flattenConjList, flattenConjList, ih]

lemma flattenConj_members (acc : List Constraint) (c : Constraint) :
    flattenConj acc c = flattenConjList acc c.members := by
  cases c <;> simp [members, flattenConjList, flattenConj]

lemma simplify_conj_kind {k : Kind} {count : Nat} {c : Constraint} (hk : k ≠ .number)
    (hreach : ∀ n, Reaches (conjunction n false) count)
    (h : ∀ n, c.size ≤ n → Portrays k count (normalize n c)) :
    (Constraint.conj [c, .kind k]).simplify.isNever = false := by
  have hle := size_le_allowance (Constraint.conj [c, .kind k]).size
  have hsize : (Constraint.conj [c, .kind k]).size = c.size + 2 := by simp [size, sizeList]
  obtain ⟨n, hn⟩ : ∃ n, allowance (Constraint.conj [c, .kind k]).size = n + 2 :=
    ⟨allowance (Constraint.conj [c, .kind k]).size - 2, by omega⟩
  have hfit : c.size ≤ n + 1 := by omega
  have hkind : normalize (n + 1) (.kind k) = .kind k := rfl
  rw [simplify, hn, normalize, List.map_cons, List.map_cons, hkind, List.map_nil]
  have hd := h (n + 1) hfit
  generalize normalize (n + 1) c = d at hd
  have hflat : flattenConjList [] [d, .kind k] = flattenConjList [] (d.members ++ [.kind k]) := by
    rw [flattenConjList_append, flattenConjList, flattenConj_members]
  obtain ⟨hp, hne⟩ := hd.1.append_kind.flatten (by simp)
  rw [← hflat] at hp hne
  exact isNever_of_portrays (conjunction_portrait hp hne hk hreach)

lemma not_disjoint_object {fields : List (String × Value)}
    (hs : (Value.object fields).isShort) (hd : (Value.object fields).isData builtins) :
    (ofValue (.object fields)).disjoint (.kind .object) = false :=
  simplify_conj_kind (by simp) (fun n i hi => absurd hi (by simp))
    fun _ hn => (normalize_ofValue (isDistinct_isData builtins) hs hd hn).1

lemma not_disjoint_array {items : List Value}
    (hs : (Value.array items).isShort) (hd : (Value.array items).isData builtins) :
    (ofValue (.array items)).disjoint (.kind .array) = false := by
  have hlength : items.length < Number.exactCount := by
    simp only [Value.isShort, Bool.and_eq_true, decide_eq_true_eq] at hs
    exact hs.1
  exact simplify_conj_kind (by simp) (reaches_conjunction hlength)
    fun _ hn => (normalize_ofValue (isDistinct_isData builtins) hs hd hn).1

lemma beq_kind_eq_false {k l : Kind} {count : Nat} {c : Constraint} (hkl : k.refines l = false)
    (h : c.describes k count) : (c == .kind l) = false := by
  cases c with
  | kind m =>
    obtain rfl : m = k := by simpa [describes] using h
    change (m == l) = false
    refine beq_eq_false_iff_ne.mpr fun he => ?_
    simp [he, Kind.refines] at hkl
  | _ => rfl

lemma entails_kind_eq_false {k l : Kind} {count n : Nat} {assumed : Assumptions} {c : Constraint}
    (hkl : k.refines l = false) (h : c.describes k count) :
    entails n assumed c (.kind l) = false := by
  cases n with
  | zero => rfl
  | succ n =>
    have hk := kind?_of_describes h
    have hne := beq_kind_eq_false hkl h
    cases c <;> first
      | simp [describes] at h; done
      | simp_all [entails, entailsStep, atomEntails]

lemma entails_portrait_eq_false {k l : Kind} {count n : Nat} {c : Constraint}
    (hkl : k.refines l = false) (h : Portrays k count c) : entails n [] c (.kind l) = false := by
  cases n with
  | zero => rfl
  | succ n =>
    cases c with
    | conj cs =>
      have hany : cs.any (fun c => entails n [] c (.kind l)) = false :=
        List.any_eq_false.mpr fun c hc => by
          simp [entails_kind_eq_false hkl (h.1.describes c hc)]
      have hne : (Constraint.conj cs == .kind l) = false := rfl
      have hjoint : conjEntails (conjunction n false) (entails n []) cs (.kind l) = false := rfl
      simp [entails, entailsStep, hne, hany, hjoint]
    | _ => exact entails_kind_eq_false hkl (h.1.describes _ (by simp [members]))

lemma implies_kind_eq_false {k l : Kind} {count : Nat} {c : Constraint}
    (hkl : k.refines l = false) (h : Portrays k count c.simplify) :
    c.implies (.kind l) = false := by
  have hl : (Constraint.kind l).simplify = .kind l := by
    rw [simplify]
    generalize allowance (Constraint.kind l).size = n
    cases n <;> rfl
  simp only [implies, hl]
  exact entails_portrait_eq_false hkl h

lemma not_implies_kind_object {fields : List (String × Value)} {l : Kind}
    (hl : Kind.object.refines l = false) (hs : (Value.object fields).isShort)
    (hd : (Value.object fields).isData builtins) :
    (ofValue (.object fields)).implies (.kind l) = false :=
  implies_kind_eq_false hl
    (normalize_ofValue (isDistinct_isData builtins) hs hd (size_le_allowance _)).1

end Constraint

end Stagewise
