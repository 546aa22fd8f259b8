import Stagewise.Proofs.Range

/-! The steps that bring a conjunction of tidy constraints into normal form keep its meaning. Each
step takes tidy constraints and gives tidy ones; where it gives up, the conjunction has no value. -/

set_option autoImplicit false

namespace Stagewise

namespace Kind

@[simp] lemma refines_refl (k : Kind) : k.refines k := by simp [refines]

lemma refines_trans {j k l : Kind} (h : j.refines k) (h' : k.refines l) : j.refines l := by
  grind [refines]

lemma meet_refines {k l m : Kind} (h : k.meet l = some m) : m.refines k ∧ m.refines l := by
  simp only [meet] at h
  split_ifs at h <;> simp_all

lemma eq_or_eq_of_meet {k l m : Kind} (h : k.meet l = some m) : m = k ∨ m = l := by
  simp only [meet] at h
  split_ifs at h <;> simp_all

lemma exists_meet {j k l : Kind} (h : j.refines k) (h' : j.refines l) :
    ∃ m, k.meet l = some m ∧ j.refines m := by
  simp only [meet]
  split_ifs with hk hl
  · exact ⟨k, rfl, h⟩
  · exact ⟨l, rfl, h'⟩
  · grind [refines]

end Kind

namespace Constraint

variable {F : Fragment} {p : Position}

def Agree (F : Fragment) (cs ds : List Constraint) : Prop :=
  ∀ (X : Value → Prop) (v : Value), F.Covers v →
    ((∀ c ∈ cs, c.Holds X v) ↔ ∀ d ∈ ds, d.Holds X v)

def Clash (F : Fragment) (cs : List Constraint) : Prop :=
  ∀ (X : Value → Prop) (v : Value), F.Covers v → ¬ ∀ c ∈ cs, c.Holds X v

structure IsConj (F : Fragment) (p : Position) (c : Constraint) (cs : List Constraint) : Prop where
  tidy : c.Tidy F p
  holds : ∀ (X : Value → Prop) (v : Value), F.Covers v → (c.Holds X v ↔ ∀ d ∈ cs, d.Holds X v)

def Conjoins (F : Fragment) (conj : List Constraint → Constraint) : Prop :=
  ∀ (p : Position) (cs : List Constraint), (∀ c ∈ cs, c.Tidy F p) → IsConj F p (conj cs) cs

lemma Agree.refl (cs : List Constraint) : Agree F cs cs := fun _ _ _ => Iff.rfl

lemma Agree.trans {cs ds es : List Constraint} (h : Agree F cs ds) (k : Agree F ds es) :
    Agree F cs es :=
  fun X v hv => (h X v hv).trans (k X v hv)

lemma Clash.of_agree {cs ds : List Constraint} (h : Clash F ds) (k : Agree F cs ds) :
    Clash F cs :=
  fun X v hv hall => h X v hv ((k X v hv).mp hall)

lemma IsConj.of_agree {c : Constraint} {cs ds : List Constraint} (h : IsConj F p c ds)
    (k : Agree F cs ds) : IsConj F p c cs :=
  ⟨h.tidy, fun X v hv => (h.holds X v hv).trans (k X v hv).symm⟩

lemma Clash.isConj {cs : List Constraint} (h : Clash F cs) : IsConj F p never cs :=
  ⟨trivial, fun X v hv => ⟨False.elim, h X v hv⟩⟩

lemma IsConj.clash {c : Constraint} {cs : List Constraint} (h : IsConj F p c cs)
    (hc : c.isNever) : Clash F cs := by
  intro X v hv hall
  have hn := (h.holds X v hv).mpr hall
  rwa [eq_never_of_isNever hc] at hn

section Lists

/-- A property that a conjunction has if all its members have it, and that identical constraints
share, for constraints of a sort to which the members of a conjunction belong too. -/
structure IsConjunctive (T P : Constraint → Prop) : Prop where
  members : ∀ {cs : List Constraint}, T (.conj cs) → ∀ c ∈ cs, T c
  any : P .any
  conj : ∀ {cs : List Constraint}, P (.conj cs) ↔ ∀ c ∈ cs, P c
  same : ∀ {c d : Constraint}, T c → c.same d → (P c ↔ P d)

lemma isConjunctive_holds (X : Value → Prop) {v : Value} (hv : F.Covers v) :
    IsConjunctive (·.Tidy F p) (·.Holds X v) :=
  ⟨fun h => (tidy_conj.mp h).2, trivial, holds_conj, fun hc => holds_congr hc.isWellFormed hv.1⟩

def isFlat : Constraint → Bool
  | .conj _ | .any => false
  | _ => true

variable {T P : Constraint → Prop}

lemma forall_mem_pushNew {cs : List Constraint} {c : Constraint} (hcs : ∀ d ∈ cs, P d) (hc : P c) :
    ∀ d ∈ pushNew cs c, P d := by
  simp only [pushNew]
  split_ifs
  · exact hcs
  · simpa [or_imp, forall_and] using ⟨hcs, hc⟩

mutual

theorem forall_mem_flattenConj (hT : ∀ {cs : List Constraint}, T (.conj cs) → ∀ c ∈ cs, T c)
    (hP : ∀ {c : Constraint}, T c → c.isFlat → P c) : ∀ {c : Constraint} {acc : List Constraint},
      (∀ d ∈ acc, P d) → T c → ∀ d ∈ flattenConj acc c, P d
  | .conj cs, _, ha, hc => by
    rw [flattenConj]
    exact forall_mem_flattenConjList hT hP ha (hT hc)
  | .any, _, ha, _ => by rwa [flattenConj]
  | .kind _, _, ha, hc | .equals _, _, ha, hc | .bound _ _, _, ha, hc | .field _ _, _, ha, hc
  | .elements _, _, ha, hc | .length _, _, ha, hc | .elementAt _ _, _, ha, hc
  | .disj _, _, ha, hc | .neg _, _, ha, hc | .fix _, _, ha, hc | .bvar _, _, ha, hc
  | .ref _, _, ha, hc | .var _, _, ha, hc | .never, _, ha, hc => by
    rw [flattenConj]
    · exact forall_mem_pushNew ha (hP hc rfl)
    all_goals simp

theorem forall_mem_flattenConjList (hT : ∀ {cs : List Constraint}, T (.conj cs) → ∀ c ∈ cs, T c)
    (hP : ∀ {c : Constraint}, T c → c.isFlat → P c) : ∀ {cs acc : List Constraint},
      (∀ d ∈ acc, P d) → (∀ c ∈ cs, T c) → ∀ d ∈ flattenConjList acc cs, P d
  | [], _, ha, _ => by rwa [flattenConjList]
  | c :: cs, acc, ha, hc => by
    rw [flattenConjList]
    rw [List.forall_mem_cons] at hc
    exact forall_mem_flattenConjList hT hP (forall_mem_flattenConj hT hP ha hc.1) hc.2

end

lemma flattenConjList_tidy {cs acc : List Constraint} (ha : ∀ d ∈ acc, d.Tidy F p)
    (hc : ∀ c ∈ cs, c.Tidy F p) : ∀ d ∈ flattenConjList acc cs, d.Tidy F p :=
  forall_mem_flattenConjList (fun h => (tidy_conj.mp h).2) (fun h _ => h) ha hc

lemma forall_pushNew (hP : IsConjunctive T P) {cs : List Constraint} {c : Constraint}
    (hcs : ∀ d ∈ cs, T d) :
    (∀ d ∈ pushNew cs c, P d) ↔ (∀ d ∈ cs, P d) ∧ P c := by
  simp only [pushNew]
  split_ifs with h
  · obtain ⟨d, hd, hs⟩ := List.any_eq_true.mp h
    exact ⟨fun hall => ⟨hall, (hP.same (hcs d hd) hs).mp (hall d hd)⟩, And.left⟩
  · simp [or_imp, forall_and]

mutual

theorem forall_flattenConj (hP : IsConjunctive T P) : ∀ {c : Constraint} {acc : List Constraint},
    (∀ d ∈ acc, T d) → T c → ((∀ d ∈ flattenConj acc c, P d) ↔ (∀ d ∈ acc, P d) ∧ P c)
  | .conj cs, _, ha, hc => by
    rw [flattenConj, forall_flattenConjList hP ha (hP.members hc), hP.conj]
  | .any, _, _, _ => by simp [flattenConj, hP.any]
  | .kind _, _, ha, _ | .equals _, _, ha, _ | .bound _ _, _, ha, _ | .field _ _, _, ha, _
  | .elements _, _, ha, _ | .length _, _, ha, _ | .elementAt _ _, _, ha, _ | .disj _, _, ha, _
  | .neg _, _, ha, _ | .fix _, _, ha, _ | .bvar _, _, ha, _ | .ref _, _, ha, _ | .var _, _, ha, _
  | .never, _, ha, _ => by
    rw [flattenConj]
    · exact forall_pushNew hP ha
    all_goals simp

theorem forall_flattenConjList (hP : IsConjunctive T P) : ∀ {cs acc : List Constraint},
    (∀ d ∈ acc, T d) → (∀ c ∈ cs, T c) →
      ((∀ d ∈ flattenConjList acc cs, P d) ↔ (∀ d ∈ acc, P d) ∧ ∀ c ∈ cs, P c)
  | [], _, _, _ => by simp [flattenConjList]
  | c :: cs, acc, ha, hc => by
    rw [List.forall_mem_cons] at hc
    have hflat := forall_mem_flattenConj hP.members (fun h _ => h) ha hc.1
    rw [flattenConjList, forall_flattenConjList hP hflat hc.2, forall_flattenConj hP ha hc.1,
      List.forall_mem_cons, and_assoc]

end

lemma forall_flatten (hP : IsConjunctive T P) {cs : List Constraint}
    (hcs : ∀ c ∈ cs, T c) : (∀ d ∈ flattenConjList [] cs, P d) ↔ ∀ c ∈ cs, P c := by
  have hall : (∀ d ∈ flattenConjList [] cs, P d) ↔ (∀ d ∈ [], P d) ∧ ∀ c ∈ cs, P c :=
    forall_flattenConjList hP (by simp) hcs
  simpa using hall

lemma insert_perm (c : Constraint) (cs : List Constraint) : (insert c cs).Perm (c :: cs) := by
  induction cs with
  | nil => simp [insert]
  | cons d cs ih =>
    rw [insert]
    split_ifs
    · exact List.Perm.refl _
    · exact (ih.cons d).trans (List.Perm.swap c d cs)

lemma sort_perm (cs : List Constraint) : (sort cs).Perm cs := by
  have h : ∀ acc : List Constraint,
      (cs.foldl (fun acc c => insert c acc) acc).Perm (cs ++ acc) := by
    induction cs with
    | nil => exact fun acc => List.Perm.refl _
    | cons c cs ih =>
      intro acc
      have hp := (ih (insert c acc)).trans ((insert_perm c acc).append_left cs)
      exact hp.trans List.perm_middle
  simpa [sort] using h []

lemma dedupAfter_sublist (last : Constraint) (cs : List Constraint) :
    (dedupAfter last cs).Sublist cs := by
  induction cs generalizing last with
  | nil => exact List.Sublist.refl _
  | cons c cs ih =>
    rw [dedupAfter]
    split_ifs
    · exact (ih last).cons c
    · exact (ih c).cons_cons c

lemma dedup_sublist (cs : List Constraint) : (dedup cs).Sublist cs := by
  cases cs with
  | nil => exact List.Sublist.refl _
  | cons c cs => exact (dedupAfter_sublist c cs).cons_cons c

lemma mem_of_mem_dedup_sort {c : Constraint} {cs : List Constraint} (h : c ∈ dedup (sort cs)) :
    c ∈ cs :=
  (sort_perm cs).mem_iff.mp ((dedup_sublist _).subset h)

lemma exists_same_mem_dedupAfter {last : Constraint} {cs : List Constraint} {c : Constraint}
    (h : c ∈ cs) : c ∈ last :: dedupAfter last cs ∨ ∃ d ∈ last :: dedupAfter last cs, d.same c := by
  induction cs generalizing last with
  | nil => simp at h
  | cons d cs ih =>
    rw [dedupAfter]
    split_ifs with hs
    · rcases List.mem_cons.mp h with rfl | h
      · exact Or.inr ⟨last, List.mem_cons_self, hs⟩
      · exact ih h
    · rcases List.mem_cons.mp h with rfl | h
      · exact Or.inl (by simp)
      · rcases @ih d h with h | ⟨e, he, hse⟩
        · exact Or.inl (List.mem_cons_of_mem _ h)
        · exact Or.inr ⟨e, List.mem_cons_of_mem _ he, hse⟩

lemma exists_same_mem_dedup_sort {cs : List Constraint} {c : Constraint} (h : c ∈ cs) :
    c ∈ dedup (sort cs) ∨ ∃ d ∈ dedup (sort cs), d.same c := by
  have hs := (sort_perm cs).mem_iff.mpr h
  cases hc : sort cs with
  | nil => simp [hc] at hs
  | cons d ds =>
    rw [hc] at hs
    rcases List.mem_cons.mp hs with rfl | hs
    · exact Or.inl List.mem_cons_self
    · exact exists_same_mem_dedupAfter hs

lemma forall_dedup_sort (hP : IsConjunctive T P) {cs : List Constraint}
    (h : ∀ c ∈ cs, T c) : (∀ c ∈ dedup (sort cs), P c) ↔ ∀ c ∈ cs, P c := by
  refine ⟨fun hall c hc => ?_, fun hall c hc => hall c (mem_of_mem_dedup_sort hc)⟩
  rcases exists_same_mem_dedup_sort hc with hd | ⟨d, hd, hs⟩
  · exact hall c hd
  · exact (hP.same (h d (mem_of_mem_dedup_sort hd)) hs).mp (hall d hd)

lemma finishConj_singleton (c : Constraint) : finishConj [c] = c := rfl

lemma forall_finishConj (hP : IsConjunctive T P) {cs : List Constraint}
    (h : ∀ c ∈ cs, T c) : P (finishConj cs) ↔ ∀ c ∈ cs, P c := by
  rw [← forall_dedup_sort hP h, finishConj]
  split
  · next hd => simpa [hd] using hP.any
  · next c hd => simp [hd]
  · exact hP.conj

lemma finishConj_spec {cs : List Constraint} (h : ∀ c ∈ cs, c.Tidy F p)
    (he : cs.countP isElements ≤ 1) : IsConj F p (finishConj cs) cs := by
  have ht : ∀ c ∈ dedup (sort cs), c.Tidy F p := fun c hc => h c (mem_of_mem_dedup_sort hc)
  have hn : (dedup (sort cs)).countP isElements ≤ 1 :=
    Nat.le_trans (dedup_sublist _).countP_le ((sort_perm cs).countP_eq _ ▸ he)
  refine ⟨?_, fun X v hv => forall_finishConj (isConjunctive_holds X hv) h⟩
  unfold finishConj
  split
  · trivial
  · next c hd => exact ht c (by simp [hd])
  · exact tidy_conj.mpr ⟨hn, ht⟩

end Lists

/-! ### Merging what is said about the same part -/

lemma Conjoins.conjoin {conj : List Constraint → Constraint} (h : Conjoins F conj) :
    Conjoins F (conjoin conj) := by
  intro p cs hcs
  match cs with
  | [] => exact h p [] hcs
  | [c] => exact ⟨hcs c List.mem_cons_self, fun X v _ => by simp [Constraint.conjoin]⟩
  | c :: d :: ds => exact h p _ hcs

namespace Structure

def All (s : Structure) (P : Constraint → Prop) : Prop :=
  (∀ q ∈ s.fields, ∀ c ∈ q.2, P (field q.1 c)) ∧
  (∀ c ∈ s.elements, P (Constraint.elements c)) ∧
  (∀ q ∈ s.positions, ∀ c ∈ q.2, P (elementAt q.1 c)) ∧
  (∀ c ∈ s.lengths, P (length c)) ∧
  ∀ c ∈ s.others, P c

structure IsTidy (F : Fragment) (p : Position) (s : Structure) : Prop where
  fields : ∀ q ∈ s.fields, q.2 ≠ [] ∧ ∀ c ∈ q.2, c.Tidy F (F.below q.1 p)
  elements : ∀ c ∈ s.elements, c.Tidy F p.below
  positions : ∀ q ∈ s.positions, q.2 ≠ [] ∧ ∀ c ∈ q.2, c.Tidy F p.below
  lengths : ∀ c ∈ s.lengths, (length c).Tidy F p
  others : ∀ c ∈ s.others, c.Tidy F p ∧ c.isElements = false

lemma forall_addField {P : String → List Constraint → Prop} {name : String} {c : Constraint}
    {parts : List (String × List Constraint)} (hnew : P name [c])
    (hold : ∀ q ∈ parts, q.1 = name → P q.1 (q.2 ++ [c])) (hall : ∀ q ∈ parts, P q.1 q.2) :
    ∀ q ∈ addField name c parts, P q.1 q.2 := by
  induction parts with
  | nil => simpa [addField] using hnew
  | cons q parts ih =>
    rw [List.forall_mem_cons] at hold hall
    rw [addField]
    split_ifs with hq
    · exact List.forall_mem_cons.mpr ⟨hold.1 hq, hall.2⟩
    · exact List.forall_mem_cons.mpr ⟨hall.1, ih hold.2 hall.2⟩

lemma forall_addPosition {P : Nat → List Constraint → Prop} {index : Nat} {c : Constraint}
    {parts : List (Nat × List Constraint)} (hnew : P index [c])
    (hold : ∀ q ∈ parts, q.1 = index → P q.1 (q.2 ++ [c])) (hall : ∀ q ∈ parts, P q.1 q.2) :
    ∀ q ∈ addPosition index c parts, P q.1 q.2 := by
  induction parts with
  | nil => simpa [addPosition] using hnew
  | cons q parts ih =>
    rw [List.forall_mem_cons] at hold hall
    rw [addPosition]
    split_ifs with hlt hq
    · exact List.forall_mem_cons.mpr ⟨hnew, List.forall_mem_cons.mpr hall⟩
    · exact List.forall_mem_cons.mpr ⟨hold.1 hq, hall.2⟩
    · exact List.forall_mem_cons.mpr ⟨hall.1, ih hold.2 hall.2⟩

lemma forall_mem_addField {Q : String → Constraint → Prop} (name : String) (c : Constraint)
    (parts : List (String × List Constraint)) :
    (∀ q ∈ addField name c parts, ∀ d ∈ q.2, Q q.1 d) ↔
      (∀ q ∈ parts, ∀ d ∈ q.2, Q q.1 d) ∧ Q name c := by
  induction parts with
  | nil => simp [addField]
  | cons q parts ih =>
    rw [addField]
    split_ifs with hq
    · subst hq
      simp only [List.forall_mem_cons, List.forall_mem_append]
      simp only [List.not_mem_nil, false_implies, implies_true, and_true]
      tauto
    · simp only [List.forall_mem_cons, ih]
      tauto

lemma forall_mem_addPosition {Q : Nat → Constraint → Prop} (index : Nat) (c : Constraint)
    (parts : List (Nat × List Constraint)) :
    (∀ q ∈ addPosition index c parts, ∀ d ∈ q.2, Q q.1 d) ↔
      (∀ q ∈ parts, ∀ d ∈ q.2, Q q.1 d) ∧ Q index c := by
  induction parts with
  | nil => simp [addPosition]
  | cons q parts ih =>
    rw [addPosition]
    split_ifs with hlt hq
    · simp only [List.forall_mem_cons]
      simp only [List.not_mem_nil, false_implies, implies_true, and_true]
      tauto
    · subst hq
      simp only [List.forall_mem_cons, List.forall_mem_append]
      simp only [List.not_mem_nil, false_implies, implies_true, and_true]
      tauto
    · simp only [List.forall_mem_cons, ih]
      tauto

lemma all_add (s : Structure) (c : Constraint) (P : Constraint → Prop) :
    (s.add c).All P ↔ s.All P ∧ P c := by
  have hf (name : String) (d : Constraint) :=
    forall_mem_addField (Q := fun n d => P (field n d)) name d s.fields
  have hp (i : Nat) (d : Constraint) :=
    forall_mem_addPosition (Q := fun i d => P (elementAt i d)) i d s.positions
  cases c <;> simp only [add, All, hf, hp, List.forall_mem_append,
    List.forall_mem_singleton] <;> tauto

lemma all_ofList (cs : List Constraint) (P : Constraint → Prop) :
    (ofList cs).All P ↔ ∀ c ∈ cs, P c := by
  have h : ∀ s : Structure, (cs.foldl add s).All P ↔ s.All P ∧ ∀ c ∈ cs, P c := by
    induction cs with
    | nil => simp
    | cons c cs ih =>
      intro s
      rw [List.foldl_cons, ih, all_add, List.forall_mem_cons, and_assoc]
  have he : ({} : Structure).All P := by simp [All]
  rw [ofList, h, and_iff_right he]

lemma isTidy_add {s : Structure} {c : Constraint} (hs : s.IsTidy F p) (hc : c.Tidy F p) :
    (s.add c).IsTidy F p := by
  obtain ⟨hf, he, hp, hl, ho⟩ := hs
  cases c with
  | field name c =>
    refine ⟨forall_addField (P := fun n cs => cs ≠ [] ∧ ∀ c ∈ cs, c.Tidy F (F.below n p)) ?_ ?_ hf,
      he, hp, hl, ho⟩
    · simpa [Tidy, Fits] using hc
    · intro q hq hn
      subst hn
      exact ⟨by simp, List.forall_mem_append.mpr ⟨(hf q hq).2, by simpa [Tidy, Fits] using hc⟩⟩
  | elementAt i c =>
    refine ⟨hf, he, forall_addPosition (P := fun _ cs => cs ≠ [] ∧ ∀ c ∈ cs, c.Tidy F p.below)
      ?_ ?_ hp, hl, ho⟩
    · simpa [Tidy, Fits] using hc
    · intro q hq _
      exact ⟨by simp, List.forall_mem_append.mpr ⟨(hp q hq).2, by simpa [Tidy, Fits] using hc⟩⟩
  | elements c =>
    refine ⟨hf, ?_, hp, hl, ho⟩
    exact List.forall_mem_append.mpr ⟨he, by simpa [Tidy, Fits] using hc⟩
  | length c => exact ⟨hf, he, hp, List.forall_mem_append.mpr ⟨hl, by simpa using hc⟩, ho⟩
  | _ =>
    refine ⟨hf, he, hp, hl, ?_⟩
    simp only [add, List.forall_mem_append, List.forall_mem_singleton]
    exact ⟨ho, hc, rfl⟩

lemma isTidy_ofList {cs : List Constraint} (h : ∀ c ∈ cs, c.Tidy F p) :
    (ofList cs).IsTidy F p := by
  have hi : ∀ s : Structure, s.IsTidy F p → (cs.foldl add s).IsTidy F p := by
    induction cs with
    | nil => exact fun s hs => hs
    | cons c cs ih =>
      intro s hs
      rw [List.forall_mem_cons] at h
      exact ih h.2 _ (isTidy_add hs h.1)
  exact hi {} ⟨by simp, by simp, by simp, by simp, by simp⟩

structure IsGrouped (s : Structure) : Prop where
  fields : ∀ q ∈ s.fields, q.2 ≠ []
  positions : ∀ q ∈ s.positions, q.2 ≠ []
  others : ∀ c ∈ s.others, c.isElements = false

lemma IsGrouped.add {s : Structure} (h : s.IsGrouped) (c : Constraint) : (s.add c).IsGrouped := by
  cases c with
  | field name c =>
    exact ⟨forall_addField (P := fun _ cs => cs ≠ []) (by simp) (by simp) h.fields, h.positions,
      h.others⟩
  | elementAt i c =>
    exact ⟨h.fields, forall_addPosition (P := fun _ cs => cs ≠ []) (by simp) (by simp) h.positions,
      h.others⟩
  | elements c | length c => exact ⟨h.fields, h.positions, h.others⟩
  | _ =>
    refine ⟨h.fields, h.positions, List.forall_mem_append.mpr ⟨h.others, ?_⟩⟩
    simp [Constraint.isElements]

lemma isGrouped_ofList (cs : List Constraint) : (ofList cs).IsGrouped := by
  have hi : ∀ s : Structure, s.IsGrouped → (cs.foldl Structure.add s).IsGrouped := by
    induction cs with
    | nil => exact fun s hs => hs
    | cons c cs ih => exact fun s hs => ih _ (hs.add c)
  exact hi {} ⟨by simp, by simp, by simp⟩

end Structure

lemma mergeParts_eq_some {α : Type} {wrap : α → Constraint → Constraint}
    {conj : List Constraint → Constraint} {extra out : List Constraint}
    {parts : List (α × List Constraint)} (h : mergeParts wrap conj extra parts = some out) :
    out = parts.map fun q => wrap q.1 (conjoin conj (q.2 ++ extra)) := by
  induction parts generalizing out with
  | nil => simpa [mergeParts, eq_comm] using h
  | cons q parts ih =>
    simp only [mergeParts] at h
    split_ifs at h
    obtain ⟨rest, hr, rfl⟩ := Option.map_eq_some_iff.mp h
    simp [ih hr]

lemma mergeParts_eq_none {α : Type} {wrap : α → Constraint → Constraint}
    {conj : List Constraint → Constraint} {extra : List Constraint}
    {parts : List (α × List Constraint)} (h : mergeParts wrap conj extra parts = none) :
    ∃ q ∈ parts, conjoin conj (q.2 ++ extra) = .never := by
  induction parts with
  | nil => simp [mergeParts] at h
  | cons q parts ih =>
    simp only [mergeParts] at h
    split_ifs at h with hn
    · exact ⟨q, List.mem_cons_self, eq_never_of_isNever hn⟩
    · obtain ⟨r, hr, he⟩ := ih (Option.map_eq_none_iff.mp h)
      exact ⟨r, List.mem_cons_of_mem _ hr, he⟩

section Groups

variable {conj : List Constraint → Constraint} (hconj : Conjoins F conj) {X : Value → Prop}
  {v : Value} (hv : F.Covers v)
include hconj hv

lemma holds_field_group {name : String} {cs : List Constraint} (hne : cs ≠ [])
    (hcs : ∀ c ∈ cs, c.Tidy F p) :
    (field name (conjoin conj cs)).Holds X v ↔ ∀ c ∈ cs, (field name c).Holds X v := by
  have hmean := (hconj.conjoin p cs hcs).holds X
  constructor
  · rintro ⟨fields, w, rfl, hw, h⟩ c hc
    exact ⟨fields, w, rfl, hw, (hmean w (hv.find? hw)).mp h c hc⟩
  · intro h
    obtain ⟨c, hc⟩ := List.exists_mem_of_ne_nil cs hne
    obtain ⟨fields, w, rfl, hw, _⟩ := h c hc
    refine ⟨fields, w, rfl, hw, (hmean w (hv.find? hw)).mpr ?_⟩
    intro d hd
    obtain ⟨_, w', he, hw', hd⟩ := h d hd
    obtain rfl := Value.object.inj he
    exact Option.some.inj (hw.symm.trans hw') ▸ hd

lemma holds_elements_group {cs : List Constraint} (hne : cs ≠ []) (hcs : ∀ c ∈ cs, c.Tidy F p) :
    (elements (conjoin conj cs)).Holds X v ↔ ∀ c ∈ cs, (elements c).Holds X v := by
  have hmean := (hconj.conjoin p cs hcs).holds X
  constructor
  · rintro ⟨items, rfl, h⟩ c hc
    exact ⟨items, rfl, fun w hw => (hmean w (hv.mem hw)).mp (h w hw) c hc⟩
  · intro h
    obtain ⟨c, hc⟩ := List.exists_mem_of_ne_nil cs hne
    obtain ⟨items, rfl, _⟩ := h c hc
    refine ⟨items, rfl, fun w hw => (hmean w (hv.mem hw)).mpr ?_⟩
    intro d hd
    obtain ⟨_, he, hall⟩ := h d hd
    obtain rfl := Value.array.inj he
    exact hall w hw

lemma holds_elementAt_group {i : Nat} {cs extra : List Constraint} (hne : cs ≠ [])
    (hcs : ∀ c ∈ cs, c.Tidy F p) (hextra : ∀ e ∈ extra, e.Tidy F p)
    (hall : ∀ e ∈ extra, (elements e).Holds X v) :
    (elementAt i (conjoin conj (cs ++ extra))).Holds X v ↔
      ∀ c ∈ cs, (elementAt i c).Holds X v := by
  have hmean := (hconj.conjoin p (cs ++ extra) (List.forall_mem_append.mpr ⟨hcs, hextra⟩)).holds X
  constructor
  · rintro ⟨items, w, rfl, hw, h⟩ c hc
    exact ⟨items, w, rfl, hw, (hmean w (hv.getElem? hw)).mp h c (List.mem_append_left _ hc)⟩
  · intro h
    obtain ⟨c, hc⟩ := List.exists_mem_of_ne_nil cs hne
    obtain ⟨items, w, rfl, hw, _⟩ := h c hc
    refine ⟨items, w, rfl, hw, (hmean w (hv.getElem? hw)).mpr ?_⟩
    intro d hd
    rcases List.mem_append.mp hd with hd | hd
    · obtain ⟨_, w', he, hw', hd⟩ := h d hd
      obtain rfl := Value.array.inj he
      exact Option.some.inj (hw.symm.trans hw') ▸ hd
    · obtain ⟨_, he, hd⟩ := hall d hd
      obtain rfl := Value.array.inj he
      exact hd w (List.mem_of_getElem? hw)

omit hv in
lemma holds_length_group {cs : List Constraint} (hne : cs ≠ []) (hcs : ∀ c ∈ cs, c.Tidy F p) :
    (length (conjoin conj cs)).Holds X v ↔ ∀ c ∈ cs, (length c).Holds X v := by
  have hmean (n : Nat) := (hconj.conjoin p cs hcs).holds X (.ofNat n) (F.covers_number _)
  constructor
  · rintro ⟨items, rfl, h⟩ c hc
    exact ⟨items, rfl, (hmean _).mp h c hc⟩
  · intro h
    obtain ⟨c, hc⟩ := List.exists_mem_of_ne_nil cs hne
    obtain ⟨items, rfl, _⟩ := h c hc
    refine ⟨items, rfl, (hmean _).mpr ?_⟩
    intro d hd
    obtain ⟨_, he, hd⟩ := h d hd
    obtain rfl := Value.array.inj he
    exact hd

end Groups

def mergedElements (conj : List Constraint → Constraint) (s : Structure) : List Constraint :=
  if s.elements.isEmpty then [] else [conjoin conj s.elements]

def mergedLength (conj conjPlain : List Constraint → Constraint) (s : Structure) :
    Option (List Constraint) :=
  if s.lengths.isEmpty then some []
  else
    let length := conjoin conj s.lengths
    let reaches := match s.positions.getLast? with
      | some (last, _) =>
        !(conjPlain [length, .kind .number, .bound .gt (Number.ofNat last)]).isNever
      | none => true
    if length.isNever || !reaches then none else some [.length length]

lemma mergeStructure_eq (conj conjPlain : List Constraint → Constraint) (flat : List Constraint) :
    mergeStructure conj conjPlain flat =
      let s := Structure.ofList flat
      (mergeParts .field conj [] s.fields).bind fun fields =>
        (mergeParts .elementAt conj (mergedElements conj s) s.positions).bind fun positions =>
          (mergedLength conj conjPlain s).map fun lengths =>
            s.others ++ fields ++ (mergedElements conj s).map .elements ++ positions ++ lengths := by
  simp only [mergeStructure, mergedElements, mergedLength, Option.bind_eq_bind, Option.pure_def,
    Option.map_eq_bind, Function.comp_def]
  cases (Structure.ofList flat).positions.getLast? <;> split_ifs <;> rfl

section MergeParts

variable {conj conjPlain : List Constraint → Constraint} {flat out : List Constraint}

lemma mergeStructure_eq_some (h : mergeStructure conj conjPlain flat = some out) :
    ∃ lengths, mergedLength conj conjPlain (Structure.ofList flat) = some lengths ∧
      out = (Structure.ofList flat).others ++
        ((Structure.ofList flat).fields.map fun q => .field q.1 (conjoin conj q.2)) ++
        (mergedElements conj (Structure.ofList flat)).map .elements ++
        ((Structure.ofList flat).positions.map fun q =>
          .elementAt q.1 (conjoin conj (q.2 ++ mergedElements conj (Structure.ofList flat)))) ++
        lengths := by
  rw [mergeStructure_eq] at h
  obtain ⟨fields, hf, h⟩ := Option.bind_eq_some_iff.mp h
  obtain ⟨positions, hp, h⟩ := Option.bind_eq_some_iff.mp h
  obtain ⟨lengths, hl, rfl⟩ := Option.map_eq_some_iff.mp h
  refine ⟨lengths, hl, ?_⟩
  rw [mergeParts_eq_some hf, mergeParts_eq_some hp]
  simp only [List.append_nil]

lemma countP_mergeStructure_le (h : mergeStructure conj conjPlain flat = some out) :
    out.countP isElements ≤ 1 := by
  obtain ⟨lengths, hl, rfl⟩ := mergeStructure_eq_some h
  have ho : (Structure.ofList flat).others.countP isElements = 0 :=
    List.countP_eq_zero.mpr fun c hc => by simp [(Structure.isGrouped_ofList flat).others c hc]
  have hln : lengths.countP isElements = 0 := by
    simp only [mergedLength] at hl
    split_ifs at hl <;> simp [← Option.some.inj hl, isElements]
  have hm : (mergedElements conj (Structure.ofList flat)).length ≤ 1 := by
    simp only [mergedElements]
    split_ifs <;> simp
  simpa [List.countP_append, ho, hln, List.countP_map, Function.comp_def, isElements] using hm

structure MergesParts (conj : List Constraint → Constraint) (s : Structure)
    (P : Constraint → Prop) : Prop where
  fields : ∀ q ∈ s.fields, (P (.field q.1 (conjoin conj q.2)) ↔ ∀ c ∈ q.2, P (.field q.1 c))
  elements : (∀ e ∈ mergedElements conj s, P (.elements e)) ↔ ∀ c ∈ s.elements, P (.elements c)
  positions : (∀ c ∈ s.elements, P (.elements c)) → ∀ q ∈ s.positions,
    (P (.elementAt q.1 (conjoin conj (q.2 ++ mergedElements conj s))) ↔
      ∀ c ∈ q.2, P (.elementAt q.1 c))
  not_field : ∀ name, ¬ P (.field name .never)
  not_elementAt : ∀ i, ¬ P (.elementAt i .never)

variable {P : Constraint → Prop} (hm : MergesParts conj (Structure.ofList flat) P)
include hm

lemma MergesParts.not_forall (h : mergeStructure conj conjPlain flat = none)
    (hlen : mergedLength conj conjPlain (Structure.ofList flat) = none →
      ¬ (Structure.ofList flat).All P) : ¬ ∀ c ∈ flat, P c := by
  intro hflat
  have hall := (Structure.all_ofList flat P).mpr hflat
  have ⟨hf, he, hp, _, _⟩ := hall
  rw [mergeStructure_eq, Option.bind_eq_none_iff] at h
  cases hmf : mergeParts .field conj [] (Structure.ofList flat).fields with
  | none =>
    obtain ⟨q, hq, hn⟩ := mergeParts_eq_none hmf
    rw [List.append_nil] at hn
    have hg := (hm.fields q hq).mpr (hf q hq)
    rw [hn] at hg
    exact hm.not_field q.1 hg
  | some fields =>
    have h := h fields hmf
    rw [Option.bind_eq_none_iff] at h
    cases hmp : mergeParts .elementAt conj (mergedElements conj (Structure.ofList flat))
        (Structure.ofList flat).positions with
    | none =>
      obtain ⟨q, hq, hn⟩ := mergeParts_eq_none hmp
      have hg := (hm.positions he q hq).mpr (hp q hq)
      rw [hn] at hg
      exact hm.not_elementAt q.1 hg
    | some positions => exact hlen (Option.map_eq_none_iff.mp (h positions hmp)) hall

lemma MergesParts.forall_iff (h : mergeStructure conj conjPlain flat = some out)
    (hlen : ∀ lengths, mergedLength conj conjPlain (Structure.ofList flat) = some lengths →
      ((∀ c ∈ lengths, P c) ↔ ∀ c ∈ (Structure.ofList flat).lengths, P (.length c))) :
    (∀ c ∈ flat, P c) ↔ ∀ c ∈ out, P c := by
  obtain ⟨lengths, hl, rfl⟩ := mergeStructure_eq_some h
  have hpos (hall) := forall₂_congr (hm.positions hall)
  rw [← Structure.all_ofList flat P]
  simp only [Structure.All, List.forall_mem_append, List.forall_mem_map, forall₂_congr hm.fields,
    hm.elements, hlen lengths hl]
  constructor
  · rintro ⟨h1, h2, h3, h4, h5⟩
    exact ⟨⟨⟨⟨h5, h1⟩, h2⟩, (hpos h2).mpr h3⟩, h4⟩
  · rintro ⟨⟨⟨⟨h5, h1⟩, h2⟩, h3⟩, h4⟩
    exact ⟨h1, h2, (hpos h2).mp h3, h4, h5⟩

end MergeParts

lemma holds_ofNat_gt {items : List Value} {i : Nat} {w : Value} (hl : F.lengths)
    (hv : F.Covers (.array items)) (hi : items[i]? = some w) (X : Value → Prop) :
    (bound .gt (Number.ofNat i)).Holds X (.ofNat items.length) := by
  obtain ⟨hlt, _⟩ := List.getElem?_eq_some_iff.mp hi
  exact ⟨_, rfl, Number.ofNat_lt_ofNat hlt (Nat.lt_trans hlt (hv.length_lt hl))⟩

section Merge

variable {conj conjPlain : List Constraint → Constraint} (hconj : Conjoins F conj)
  {s : Structure} (hs : s.IsTidy F p)
include hconj hs

lemma tidy_mergedElements : ∀ e ∈ mergedElements conj s, e.Tidy F p.below := by
  simp only [mergedElements]
  split_ifs
  · simp
  · simpa using (hconj.conjoin _ _ hs.elements).tidy

lemma holds_mergedElements {X : Value → Prop} {v : Value} (hv : F.Covers v) :
    (∀ e ∈ mergedElements conj s, (elements e).Holds X v) ↔
      ∀ c ∈ s.elements, (elements c).Holds X v := by
  simp only [mergedElements]
  split_ifs with he
  · simp [List.isEmpty_iff.mp he]
  · simpa using holds_elements_group hconj hv (by simpa using he) hs.elements

lemma holds_positions {X : Value → Prop} {v : Value} (hv : F.Covers v)
    (hall : ∀ c ∈ s.elements, (elements c).Holds X v) {q : Nat × List Constraint}
    (hq : q ∈ s.positions) :
    (elementAt q.1 (conjoin conj (q.2 ++ mergedElements conj s))).Holds X v ↔
      ∀ c ∈ q.2, (elementAt q.1 c).Holds X v :=
  holds_elementAt_group hconj hv (hs.positions q hq).1 (hs.positions q hq).2
    (tidy_mergedElements hconj hs) ((holds_mergedElements hconj hs hv).mpr hall)

lemma tidy_length_conjoin (hne : s.lengths ≠ []) :
    (length (conjoin conj s.lengths)).Tidy F p := by
  have hplain : ∀ c ∈ s.lengths, c.Tidy F .plain := fun c hc => (hs.lengths c hc).2.2
  have hm := hconj.conjoin _ _ hplain
  obtain ⟨c, hc⟩ := List.exists_mem_of_ne_nil _ hne
  obtain ⟨hl, hex, _⟩ := hs.lengths c hc
  refine ⟨hl, hex.imp id ?_, hm.tidy⟩
  -- a number that one of the statements excludes is excluded by all of them together
  rintro ⟨x, hx, hn⟩
  exact ⟨x, hx, fun h => hn ((hm.holds _ _ (F.covers_number x)).mp h c hc)⟩

lemma mergedLength_spec (hplain : Conjoins F conjPlain) :
    (mergedLength conj conjPlain s = none →
      ∀ X v, F.Covers v → ¬ s.All (·.Holds X v)) ∧
    ∀ out, mergedLength conj conjPlain s = some out →
      (∀ c ∈ out, c.Tidy F p ∧ c.isElements = false) ∧
        ∀ X v, (∀ c ∈ out, c.Holds X v) ↔ ∀ c ∈ s.lengths, (length c).Holds X v := by
  have hlen : ∀ c ∈ s.lengths, c.Tidy F .plain := fun c hc => (hs.lengths c hc).2.2
  by_cases he : s.lengths = []
  · refine ⟨by simp [mergedLength, he], fun out h => ?_⟩
    obtain rfl : out = [] := by simpa [mergedLength, he, eq_comm] using h
    simp [he]
  · have hgroup {X v} := holds_length_group (X := X) (v := v) hconj he hlen
    have ht := tidy_length_conjoin hconj hs he
    simp only [mergedLength, List.isEmpty_iff, he, if_false]
    split_ifs with hn
    · refine ⟨fun _ X v hv hall => ?_, by simp⟩
      obtain ⟨_, _, hp, hl, _⟩ := hall
      obtain ⟨items, rfl, hlength⟩ := hgroup.mpr hl
      rw [Bool.or_eq_true] at hn
      rcases hn with hn | hn
      · rw [eq_never_of_isNever hn] at hlength
        exact hlength
      · cases hq : s.positions.getLast? with
        | none => simp [hq] at hn
        | some q =>
          -- the array has an item at the last index that is named, so it is longer than that
          have hm := List.mem_of_getLast? hq
          obtain ⟨hne, _⟩ := hs.positions q hm
          obtain ⟨c, hc⟩ := List.exists_mem_of_ne_nil _ hne
          obtain ⟨_, w, heq, hw, _⟩ := hp q hm c hc
          obtain rfl := Value.array.inj heq
          have hnever : (conjPlain [conjoin conj s.lengths, .kind .number,
              .bound .gt (Number.ofNat q.1)]).isNever := by simpa [hq] using hn
          refine (hplain .plain _ ?_).clash hnever X (.ofNat items.length) (F.covers_number _) ?_
          · simpa [Tidy, Fits, Number.isNaN_ofNat] using ht.2.2
          · simpa using ⟨hlength, rfl, holds_ofNat_gt ht.1 hv hw X⟩
    · refine ⟨by simp, fun out h => ?_⟩
      obtain rfl := Option.some.inj h
      exact ⟨by simpa using ⟨ht, rfl⟩, fun X v => by simpa using hgroup⟩

end Merge

section MergeStructure

variable {conj conjPlain : List Constraint → Constraint} (hconj : Conjoins F conj)
  (hplain : Conjoins F conjPlain) {flat : List Constraint} (hflat : ∀ c ∈ flat, c.Tidy F p)
include hconj hflat

lemma mergesParts_holds (X : Value → Prop) {v : Value} (hv : F.Covers v) :
    MergesParts conj (Structure.ofList flat) (·.Holds X v) := by
  have hs := Structure.isTidy_ofList hflat
  refine ⟨fun q hq => ?_, holds_mergedElements hconj hs hv, fun hall q hq => ?_, ?_, ?_⟩
  · exact holds_field_group hconj hv (hs.fields q hq).1 (hs.fields q hq).2
  · exact holds_positions hconj hs hv hall hq
  · exact fun _ ⟨_, _, _, _, h⟩ => h
  · exact fun _ ⟨_, _, _, _, h⟩ => h

include hplain

lemma mergeStructure_clash (h : mergeStructure conj conjPlain flat = none) : Clash F flat :=
  fun X v hv => (mergesParts_holds hconj hflat X hv).not_forall h fun hn =>
    (mergedLength_spec hconj (Structure.isTidy_ofList hflat) hplain).1 hn X v hv

lemma mergeStructure_spec {out : List Constraint}
    (h : mergeStructure conj conjPlain flat = some out) :
    (∀ c ∈ out, c.Tidy F p) ∧ out.countP isElements ≤ 1 ∧ Agree F flat out := by
  have hs := Structure.isTidy_ofList hflat
  have hlength := (mergedLength_spec hconj hs hplain).2
  refine ⟨?_, countP_mergeStructure_le h, fun X v hv => ?_⟩
  · have hel := tidy_mergedElements hconj hs
    obtain ⟨lengths, hl, rfl⟩ := mergeStructure_eq_some h
    simp only [List.forall_mem_append, List.forall_mem_map]
    refine ⟨⟨⟨⟨fun c hc => (hs.others c hc).1, fun q hq => ?_⟩, fun e he => ?_⟩, fun q hq => ?_⟩,
      fun c hc => ((hlength lengths hl).1 c hc).1⟩
    · exact (hconj.conjoin _ _ (hs.fields q hq).2).tidy
    · exact hel e he
    · exact (hconj.conjoin _ _ (List.forall_mem_append.mpr ⟨(hs.positions q hq).2, hel⟩)).tidy
  · exact (mergesParts_holds hconj hflat X hv).forall_iff h fun lengths hl =>
      (hlength lengths hl).2 X v

end MergeStructure

/-! ### Kinds -/

lemma kind_refines_of_holds {c : Constraint} {X : Value → Prop} {v : Value} {k : Kind}
    (h : c.kind? = some k) (hc : c.Holds X v) : v.kind.refines k := by
  cases c <;> simp only [kind?, reduceCtorEq, Option.some.injEq] at h <;> subst h
  case kind => exact hc
  case equals w => simp [Value.kind_eq_of_same hc]
  case bound => obtain ⟨x, rfl, _⟩ := hc; rfl
  case field => obtain ⟨_, _, rfl, _⟩ := hc; rfl
  case elements => obtain ⟨_, rfl, _⟩ := hc; rfl
  case length => obtain ⟨_, rfl, _⟩ := hc; rfl
  case elementAt => obtain ⟨_, _, rfl, _⟩ := hc; rfl

lemma exists_commonKind_of_refines {cs : List Constraint} (known : Option Kind) {v : Value}
    (hk : ∀ k ∈ known, v.kind.refines k) (h : ∀ c ∈ cs, ∀ k ∈ c.kind?, v.kind.refines k) :
    ∃ common, commonKind known cs = some common ∧ ∀ k ∈ common, v.kind.refines k := by
  induction cs generalizing known with
  | nil => exact ⟨known, rfl, hk⟩
  | cons c cs ih =>
    rw [List.forall_mem_cons] at h
    cases hc : c.kind? with
    | none => simpa [commonKind, hc] using ih known hk h.2
    | some l =>
      have hl := h.1 l hc
      cases known with
      | none => simpa [commonKind, hc] using ih (some l) (by simpa using hl) h.2
      | some k =>
        obtain ⟨m, hm, hr⟩ := Kind.exists_meet (hk k rfl) hl
        simpa [commonKind, hc, hm] using ih (some m) (by simpa using hr) h.2

lemma exists_commonKind {cs : List Constraint} (known : Option Kind) {X : Value → Prop} {v : Value}
    (hk : ∀ k ∈ known, v.kind.refines k) (h : ∀ c ∈ cs, c.Holds X v) :
    ∃ common, commonKind known cs = some common ∧ ∀ k ∈ common, v.kind.refines k :=
  exists_commonKind_of_refines known hk fun c hc _ hk => kind_refines_of_holds hk (h c hc)

lemma commonKind_refines {cs : List Constraint} {known common : Option Kind}
    (h : commonKind known cs = some common) :
    (∀ k ∈ known, ∃ m ∈ common, m.refines k) ∧
      ∀ c ∈ cs, ∀ k, c.kind? = some k → ∃ m ∈ common, m.refines k := by
  induction cs generalizing known with
  | nil =>
    simp only [commonKind, Option.some.injEq] at h
    subst h
    exact ⟨fun k hk => ⟨k, hk, Kind.refines_refl k⟩, by simp⟩
  | cons c cs ih =>
    cases hc : c.kind? with
    | none =>
      have hi := @ih known (by simpa [commonKind, hc] using h)
      exact ⟨hi.1, List.forall_mem_cons.mpr ⟨by simp [hc], hi.2⟩⟩
    | some l =>
      cases known with
      | none =>
        have hi := @ih (some l) (by simpa [commonKind, hc] using h)
        exact ⟨by simp, List.forall_mem_cons.mpr ⟨by simpa [hc] using hi.1, hi.2⟩⟩
      | some k =>
        cases hm : k.meet l with
        | none => simp [commonKind, hc, hm] at h
        | some m =>
          obtain ⟨hk, hl⟩ := Kind.meet_refines hm
          have hi := @ih (some m) (by simpa [commonKind, hc, hm] using h)
          obtain ⟨j, hj, hr⟩ := hi.1 m rfl
          refine ⟨?_, List.forall_mem_cons.mpr ⟨?_, hi.2⟩⟩
          · simpa using ⟨j, hj, Kind.refines_trans hr hk⟩
          · simpa [hc] using ⟨j, hj, Kind.refines_trans hr hl⟩

lemma exists_kind?_of_commonKind {cs : List Constraint} {known : Option Kind} {m : Kind}
    (h : commonKind known cs = some (some m)) :
    known = some m ∨ ∃ c ∈ cs, c.kind? = some m := by
  induction cs generalizing known with
  | nil => simpa [commonKind] using h
  | cons c cs ih =>
    cases hc : c.kind? with
    | none =>
      have hi := @ih known (by simpa [commonKind, hc] using h)
      exact hi.imp id fun ⟨d, hd, hk⟩ => ⟨d, List.mem_cons_of_mem _ hd, hk⟩
    | some l =>
      have hcons (known' : Option Kind) (h' : commonKind known' cs = some (some m))
          (hor : known' = some m → known = some m ∨ l = m) :
          known = some m ∨ ∃ d ∈ c :: cs, d.kind? = some m := by
        rcases ih h' with hk | ⟨d, hd, hk⟩
        · exact (hor hk).imp id fun (hl : l = m) => ⟨c, List.mem_cons_self, hl ▸ hc⟩
        · exact Or.inr ⟨d, List.mem_cons_of_mem _ hd, hk⟩
      cases known with
      | none => exact hcons (some l) (by simpa [commonKind, hc] using h) (by simp)
      | some k =>
        cases hm : k.meet l with
        | none => simp [commonKind, hc, hm] at h
        | some j =>
          refine hcons (some j) (by simpa [commonKind, hc, hm] using h) ?_
          rintro hj
          obtain rfl := Option.some.inj hj
          simpa [eq_comm] using Kind.eq_or_eq_of_meet hm

/-! ### Bounds -/

lemma kind?_number_cases {c : Constraint} (h : c.kind? = some .number) :
    c = .kind .number ∨ (∃ r n, c = .bound r n) ∨ ∃ n, c = .equals (.number n) := by
  cases c with
  | equals v => cases v <;> simp_all [kind?, Value.kind]
  | _ => simp_all [kind?]

structure ReadsNumber (P : Constraint → Prop) (x : Number) : Prop where
  kind : P (.kind .number)
  bound : ∀ {r : Comparison} {n : Number}, P (.bound r n) ↔ r.holds x n
  equals : ∀ {n : Number}, P (.equals (.number n)) ↔ x.same n
  neg_bound : ∀ {r : Comparison} {n : Number}, P (.neg (.bound r n)) ↔ ¬ r.holds x n
  neg_equals : ∀ {n : Number}, P (.neg (.equals (.number n))) ↔ ¬ x.same n

structure ReadsValue (P : Constraint → Prop) (v : Value) : Prop where
  number : ∀ {c : Constraint}, c.kind? = some .number → P c → ∃ x, v = .number x
  reads : ∀ {x : Number}, v = .number x → ReadsNumber P x

structure HasProperBounds (T : Constraint → Prop) : Prop where
  bound : ∀ {r : Comparison} {n : Number}, T (.bound r n) ↔ n.isNaN = false
  equals : ∀ {n : Number}, n.isNaN = false → T (.equals (.number n))
  neg_bound : ∀ {r : Comparison} {n : Number}, T (.neg (.bound r n)) → n.isNaN = false

lemma ReadsNumber.iff {P Q : Constraint → Prop} {x : Number} (hP : ReadsNumber P x)
    (hQ : ReadsNumber Q x) {c : Constraint} (h : c.kind? = some .number) : P c ↔ Q c := by
  rcases kind?_number_cases h with rfl | ⟨r, n, rfl⟩ | ⟨n, rfl⟩
  · exact iff_of_true hP.kind hQ.kind
  · rw [hP.bound, hQ.bound]
  · rw [hP.equals, hQ.equals]

lemma readsNumber_holds (X : Value → Prop) (x : Number) : ReadsNumber (·.Holds X (.number x)) x :=
  ⟨rfl, by simp [Holds], by simp [Holds, Value.same], by simp [Holds], by simp [Holds, Value.same]⟩

lemma ReadsNumber.bounds_iff {P : Constraint → Prop} {x : Number} (hP : ReadsNumber P x)
    (i : Interval) : (∀ c ∈ i.bounds, P c) ↔ i.contains x := by
  rw [← Interval.holds_bounds_iff i x fun _ => True]
  exact forall₂_congr fun c hc => hP.iff (readsNumber_holds _ x) (Interval.kind?_of_mem_bounds hc)

lemma HasProperBounds.bounds {T : Constraint → Prop} (hT : HasProperBounds T) {i : Interval}
    (hi : i.IsProper) : ∀ c ∈ i.bounds, T c := by
  obtain ⟨lo, hi'⟩ := i
  obtain ⟨hl, hh⟩ := hi
  rcases lo with _ | a <;> rcases hi' with _ | b <;>
    simp_all [Interval.bounds, Interval.point?, Interval.IsProperEnd, hT.bound]
  split_ifs <;> simp_all [hT.bound, hT.equals]

namespace NumericParts

variable {T P : Constraint → Prop}

def AllOf (q : NumericParts) (P : Constraint → Prop) (x : Number) : Prop :=
  q.range.contains x ∧ (∀ b ∈ q.negated, ¬ b.1.holds x b.2) ∧ (∀ n ∈ q.excluded, ¬ x.same n) ∧
    ∀ c ∈ q.others, P c

structure IsOf (T : Constraint → Prop) (q : NumericParts) : Prop where
  range : q.range.IsProper
  bounded : q.bounded = !q.range.isFull
  negated : ∀ b ∈ q.negated, T (.neg (.bound b.1 b.2))
  excluded : ∀ n ∈ q.excluded, T (.neg (.equals (.number n)))
  others : ∀ c ∈ q.others, T c

lemma isFull_intersect_ofBound (i : Interval) (r : Comparison) (n : Number) :
    (i.intersect (.ofBound r n)).isFull = false := by
  obtain ⟨lo, hi⟩ := i
  cases r <;> cases lo <;> cases hi <;>
    simp [Interval.intersect, Interval.ofBound, Interval.tighter, Interval.isFull]

lemma IsOf.add {q : NumericParts} {c : Constraint} (hT : HasProperBounds T) (hq : q.IsOf T)
    (hc : T c) : (q.add c).IsOf T := by
  obtain ⟨hr, hb, hn, hx, ho⟩ := hq
  unfold NumericParts.add
  split
  · exact ⟨hr.intersect (Interval.isProper_ofBound (hT.bound.mp hc)),
      by simp [isFull_intersect_ofBound], hn, hx, ho⟩
  · exact ⟨hr, hb, List.forall_mem_append.mpr ⟨hn, by simpa using hc⟩, hx, ho⟩
  · exact ⟨hr, hb, hn, List.forall_mem_append.mpr ⟨hx, by simpa using hc⟩, ho⟩
  · exact ⟨hr, hb, hn, hx, List.forall_mem_append.mpr ⟨ho, by simpa using hc⟩⟩

lemma allOf_add {q : NumericParts} {c : Constraint} {x : Number} (hT : HasProperBounds T)
    (hP : ReadsNumber P x) (hq : q.IsOf T) (hc : T c) :
    (q.add c).AllOf P x ↔ q.AllOf P x ∧ P c := by
  unfold NumericParts.add
  split
  · next r n =>
    have hn := Interval.isProper_ofBound (r := r) (hT.bound.mp hc)
    simp only [AllOf, Interval.contains_intersect hq.range hn, Interval.contains_ofBound,
      Bool.and_eq_true, hP.bound]
    tauto
  · simp only [AllOf, List.forall_mem_append, List.forall_mem_singleton, hP.neg_bound]
    tauto
  · simp only [AllOf, List.forall_mem_append, List.forall_mem_singleton, hP.neg_equals]
    tauto
  · simp only [AllOf, List.forall_mem_append, List.forall_mem_singleton]
    tauto

lemma isOf_ofList {cs : List Constraint} (hT : HasProperBounds T) (h : ∀ c ∈ cs, T c) :
    (ofList cs).IsOf T ∧
      ∀ P x, ReadsNumber P x → ((ofList cs).AllOf P x ↔ ∀ c ∈ cs, P c) := by
  have hi : ∀ q : NumericParts, q.IsOf T → (cs.foldl NumericParts.add q).IsOf T ∧
      ∀ P x, ReadsNumber P x →
        ((cs.foldl NumericParts.add q).AllOf P x ↔ q.AllOf P x ∧ ∀ c ∈ cs, P c) := by
    induction cs with
    | nil => exact fun q hq => ⟨hq, by simp⟩
    | cons c cs ih =>
      intro q hq
      rw [List.forall_mem_cons] at h
      obtain ⟨ht, hm⟩ := ih h.2 _ (hq.add hT h.1)
      refine ⟨ht, fun P x hP => ?_⟩
      rw [List.foldl_cons, hm P x hP, allOf_add hT hP hq h.1, List.forall_mem_cons, and_assoc]
  have he : ({} : NumericParts).IsOf T :=
    ⟨Interval.isProper_full, rfl, by simp, by simp, by simp⟩
  refine ⟨(hi {} he).1, fun P x hP => ?_⟩
  rw [ofList, (hi {} he).2 P x hP, and_iff_right]
  simp [AllOf]

lemma exists_kind?_ofList {cs : List Constraint} (h : ∃ c ∈ cs, c.kind? = some .number) :
    (ofList cs).bounded ∨ ∃ c ∈ (ofList cs).others, c.kind? = some .number := by
  have hi : ∀ q : NumericParts, (q.bounded ∨ (∃ c ∈ q.others, c.kind? = some .number) ∨
      ∃ c ∈ cs, c.kind? = some .number) → (cs.foldl add q).bounded ∨
        ∃ c ∈ (cs.foldl add q).others, c.kind? = some .number := by
    clear h
    induction cs with
    | nil => simp
    | cons c cs ih =>
      intro q hq
      apply ih
      rcases hq with hq | ⟨d, hd, hk⟩ | ⟨d, hd, hk⟩
      · left; unfold add; split <;> simp_all
      · right; left; exact ⟨d, by unfold add; split <;> simp_all, hk⟩
      · rcases List.mem_cons.mp hd with rfl | hd
        · unfold add
          split <;> simp_all [kind?]
        · exact Or.inr (Or.inr ⟨d, hd, hk⟩)
  exact hi {} (Or.inr (Or.inr h))

lemma others_sublist (cs : List Constraint) : (ofList cs).others.Sublist cs := by
  have hi : ∀ q : NumericParts, (cs.foldl add q).others.Sublist (q.others ++ cs) := by
    induction cs with
    | nil => simp
    | cons c cs ih =>
      intro q
      have hc : (q.add c).others.Sublist (q.others ++ [c]) := by
        unfold add
        split <;> simp
      simpa using (ih (q.add c)).trans (hc.append_right cs)
  simpa [ofList] using hi {}

lemma ofList_eq {cs : List Constraint} (hp : p ≠ .plain) (h : ∀ c ∈ cs, c.Tidy F p) :
    ofList cs = { others := cs } := by
  have hi : ∀ q : NumericParts, cs.foldl add q = { q with others := q.others ++ cs } := by
    induction cs with
    | nil => simp
    | cons c cs ih =>
      intro q
      rw [List.forall_mem_cons] at h
      have hadd : q.add c = { q with others := q.others ++ [c] } := by
        unfold add
        split
        · exact absurd h.1.1 hp
        · exact absurd h.1.2.1 hp
        · exact absurd h.1.2.1 hp
        · rfl
      rw [List.foldl_cons, hadd, ih h.2]
      simp
  rw [ofList, hi]
  rfl

def narrowed (q : NumericParts) : Interval :=
  if q.bounded then
    q.negated.foldl (fun range (r, n) => range.intersect (.ofBound r.complement n)) q.range
  else q.range

def keptNegated (q : NumericParts) : List Constraint :=
  if q.bounded then [] else q.negated.map fun (r, n) => .neg (.bound r n)

lemma foldl_intersect_spec {bs : List (Comparison × Number)} {i : Interval} (hi : i.IsProper)
    (hf : i.isFull = false) (hb : ∀ b ∈ bs, b.2.isNaN = false) :
    let j := bs.foldl (fun range (r, n) => range.intersect (.ofBound r.complement n)) i
    j.IsProper ∧ j.isFull = false ∧
      ∀ x, j.contains x ↔ i.contains x ∧ ∀ b ∈ bs, ¬ b.1.holds x b.2 := by
  induction bs generalizing i with
  | nil => simpa using ⟨hi, hf⟩
  | cons b bs ih =>
    obtain ⟨r, n⟩ := b
    rw [List.forall_mem_cons] at hb
    have hbound := Interval.isProper_ofBound (r := r.complement) hb.1
    obtain ⟨hp, hf', hm⟩ := ih (hi.intersect hbound) (isFull_intersect_ofBound _ _ _) hb.2
    refine ⟨hp, hf', fun x => ?_⟩
    rw [List.foldl_cons, hm, Interval.contains_intersect hi hbound, List.forall_mem_cons,
      Interval.contains_ofBound, Bool.and_eq_true, and_assoc]
    refine and_congr_right fun hx => ?_
    rw [Comparison.holds_complement r (Interval.not_isNaN_of_contains hf hx) hb.1]
    simp

lemma narrowed_spec {q : NumericParts} (hT : HasProperBounds T) (hq : q.IsOf T) :
    q.narrowed.IsProper ∧ q.narrowed.isFull = !q.bounded ∧
      ∀ P x, ReadsNumber P x → ((q.narrowed.contains x ∧ ∀ c ∈ q.keptNegated, P c) ↔
        q.range.contains x ∧ ∀ b ∈ q.negated, ¬ b.1.holds x b.2) := by
  have hb := hq.bounded
  have hn : ∀ b ∈ q.negated, b.2.isNaN = false := fun b hb => hT.neg_bound (hq.negated b hb)
  cases hbd : q.bounded with
  | true =>
    obtain ⟨hr, hf, hm⟩ := foldl_intersect_spec hq.range (by simpa [hbd] using hb) hn
    simp only [narrowed, keptNegated, hbd, if_true, List.not_mem_nil, false_implies, implies_true,
      and_true]
    exact ⟨hr, hf, fun P x _ => hm x⟩
  | false =>
    have hf : q.range.isFull := by simpa [hbd] using hb
    refine ⟨by simpa [narrowed, hbd] using hq.range, by simp [narrowed, hbd, hf], fun P x hP => ?_⟩
    simp only [narrowed, keptNegated, hbd, Bool.false_eq_true, if_false, List.forall_mem_map,
      hP.neg_bound]

lemma IsOf.keptNegated {q : NumericParts} (hq : q.IsOf T) : ∀ c ∈ q.keptNegated, T c := by
  simp only [NumericParts.keptNegated]
  split_ifs
  · simp
  · exact List.forall_mem_map.mpr hq.negated

lemma isProper_exclude {i : Interval} (ns : List Number) (hi : i.IsProper) :
    (exclude i ns).1.IsProper := by
  induction ns generalizing i with
  | nil => exact hi
  | cons n ns ih =>
    have hopen {e : Option Endpoint} (he : Interval.IsProperEnd e) :
        Interval.IsProperEnd (openEnd n e) := by
      cases e with
      | none => exact he
      | some a => simp only [openEnd]; split_ifs <;> simpa [Interval.IsProperEnd] using he
    exact ih (i := ⟨openEnd n i.lo, openEnd n i.hi⟩) ⟨hopen hi.1, hopen hi.2⟩

lemma exclude_subset (i : Interval) (ns : List Number) : (exclude i ns).2 ⊆ ns := by
  induction ns generalizing i with
  | nil => simp [exclude]
  | cons n ns ih =>
    have hi := ih ⟨openEnd n i.lo, openEnd n i.hi⟩
    simp only [exclude]
    split_ifs
    · exact List.cons_subset_cons n hi
    · exact List.subset_cons_of_subset n hi

end NumericParts

lemma collapseBounds_eq (cs : List Constraint) :
    let q := NumericParts.ofList cs
    let (range, excluded) := NumericParts.exclude q.narrowed q.excluded
    collapseBounds cs = if range.isEmpty then none else some (q.others ++ q.keptNegated ++
      range.bounds ++ excluded.map fun n => .neg (.equals (.number n))) := rfl

lemma collapseBounds_of_ne_plain {cs : List Constraint} (hp : p ≠ .plain)
    (h : ∀ c ∈ cs, c.Tidy F p) : collapseBounds cs = some cs := by
  rw [collapseBounds_eq, NumericParts.ofList_eq hp h]
  simp [NumericParts.narrowed, NumericParts.keptNegated, NumericParts.exclude, Interval.full,
    Interval.isEmpty, Interval.bounds, Interval.point?]

lemma holds_of_kind?_number {c : Constraint} {X : Value → Prop} {v : Value}
    (h : c.kind? = some .number) (hc : c.Holds X v) : ∃ x, v = .number x := by
  have hr := kind_refines_of_holds h hc
  cases v <;> simp_all [Value.kind, Kind.refines]

lemma kind_mem_of_collapseBounds {cs out : List Constraint} (h : collapseBounds cs = some out)
    {k : Kind} (hk : .kind k ∈ out) : .kind k ∈ cs := by
  have heq := collapseBounds_eq cs
  rcases he : NumericParts.exclude (NumericParts.ofList cs).narrowed
    (NumericParts.ofList cs).excluded with ⟨range, excluded⟩
  simp only [he] at heq
  rw [heq] at h
  split_ifs at h
  obtain rfl := Option.some.inj h
  have hneg : .kind k ∉ (NumericParts.ofList cs).keptNegated := by
    simp only [NumericParts.keptNegated]
    split_ifs <;> simp
  have hbounds : .kind k ∉ range.bounds := by
    simp only [Interval.bounds]
    split
    · simp
    · cases range.lo <;> cases range.hi <;> simp
  simp only [List.mem_append, List.mem_map, reduceCtorEq, and_false, exists_false, or_false, hneg,
    hbounds] at hk
  exact (NumericParts.others_sublist cs).subset hk

section Collapse

variable {T P : Constraint → Prop} (hT : HasProperBounds T) {cs : List Constraint}
  (hcs : ∀ c ∈ cs, T c)
include hT hcs

lemma forall_collapsed {x : Number} (hP : ReadsNumber P x) :
    let q := NumericParts.ofList cs
    let collapsed := NumericParts.exclude q.narrowed q.excluded
    (∀ c ∈ cs, P c) ↔ ((∀ c ∈ q.others, P c) ∧ (∀ c ∈ q.keptNegated, P c)) ∧
      collapsed.1.contains x ∧ ∀ n ∈ collapsed.2, ¬ x.same n := by
  intro q collapsed
  obtain ⟨hq, hmean⟩ := NumericParts.isOf_ofList hT hcs
  have hnarrow := (NumericParts.narrowed_spec hT hq).2.2 P x hP
  have hexcl := Interval.exclude_iff q.narrowed q.excluded x
  rw [← hmean P x hP, NumericParts.AllOf]
  tauto

variable {out : List Constraint}

lemma collapseBounds_isOf (h : collapseBounds cs = some out) :
    (∀ c ∈ out, T c) ∧ out.countP isElements ≤ cs.countP isElements := by
  obtain ⟨hq, _⟩ := NumericParts.isOf_ofList hT hcs
  obtain ⟨hproper, _, _⟩ := NumericParts.narrowed_spec hT hq
  have hcount := (NumericParts.others_sublist cs).countP_le (p := isElements)
  have heq := collapseBounds_eq cs
  set q := NumericParts.ofList cs
  have hproper' := NumericParts.isProper_exclude q.excluded hproper
  have hsub := NumericParts.exclude_subset q.narrowed q.excluded
  rcases he : NumericParts.exclude q.narrowed q.excluded with ⟨range, excluded⟩
  simp only [he] at heq hproper' hsub
  rw [heq] at h
  split_ifs at h
  obtain rfl := Option.some.inj h
  constructor
  · simp only [List.forall_mem_append, List.forall_mem_map]
    exact ⟨⟨⟨hq.others, hq.keptNegated⟩, hT.bounds hproper'⟩, fun n hn => hq.excluded n (hsub hn)⟩
  · have hneg : q.keptNegated.countP isElements = 0 := by
      simp only [NumericParts.keptNegated]
      split_ifs
      · rfl
      · simp [List.countP_map, Function.comp_def, isElements]
    have hbounds : range.bounds.countP isElements = 0 :=
      List.countP_eq_zero.mpr fun c hc => by
        have hck := Interval.kind?_of_mem_bounds hc
        cases c <;> simp_all [isElements, kind?]
    simpa [List.countP_append, hneg, hbounds, List.countP_map, Function.comp_def, isElements]
      using hcount

variable (hk : ∃ c ∈ cs, c.kind? = some .number) {v : Value} (hP : ReadsValue P v)
include hk hP

lemma not_forall_of_collapseBounds (h : collapseBounds cs = none) : ¬ ∀ c ∈ cs, P c := by
  intro hall
  obtain ⟨c, hc, hck⟩ := hk
  obtain ⟨x, hx⟩ := hP.number hck (hall c hc)
  have hcollapsed := (forall_collapsed hT hcs (hP.reads hx)).mp hall
  have heq := collapseBounds_eq cs
  rcases he : NumericParts.exclude (NumericParts.ofList cs).narrowed
    (NumericParts.ofList cs).excluded with ⟨range, excluded⟩
  simp only [he] at heq hcollapsed
  rw [heq] at h
  split_ifs at h with hempty
  have hin := hcollapsed.2.1
  rw [Interval.not_contains_of_isEmpty hempty] at hin
  exact Bool.false_ne_true hin

lemma forall_collapseBounds (h : collapseBounds cs = some out) :
    (∀ c ∈ cs, P c) ↔ ∀ c ∈ out, P c := by
  have hq := (NumericParts.isOf_ofList hT hcs).1
  have hfull := (NumericParts.narrowed_spec hT hq).2.1
  have hforce := NumericParts.exists_kind?_ofList hk
  have hnum {x : Number} (hx : v = .number x) := forall_collapsed hT hcs (hP.reads hx)
  have heq := collapseBounds_eq cs
  have hfull' := Interval.isFull_exclude (NumericParts.ofList cs).narrowed
    (NumericParts.ofList cs).excluded
  rcases he : NumericParts.exclude (NumericParts.ofList cs).narrowed
    (NumericParts.ofList cs).excluded with ⟨range, excluded⟩
  simp only [he] at heq hfull' hnum
  rw [heq] at h
  split_ifs at h
  obtain rfl := Option.some.inj h
  have hsplit {x : Number} (hx : v = .number x) :
      ((∀ c ∈ range.bounds, P c) ∧ ∀ n ∈ excluded, P (.neg (.equals (.number n)))) ↔
        range.contains x ∧ ∀ n ∈ excluded, ¬ x.same n := by
    simp only [(hP.reads hx).bounds_iff, (hP.reads hx).neg_equals]
  simp only [List.forall_mem_append, List.forall_mem_map, and_assoc]
  constructor
  · intro hall
    obtain ⟨c, hc, hck⟩ := hk
    obtain ⟨x, hx⟩ := hP.number hck (hall c hc)
    obtain ⟨⟨ho, hn⟩, hr⟩ := (hnum hx).mp hall
    exact ⟨ho, hn, (hsplit hx).mpr hr⟩
  · rintro ⟨ho, hn, hr⟩
    -- a bound or one of the other constraints forces a number
    have hv : ∃ x, v = .number x := by
      rcases hforce with hbd | ⟨c, hc, hck⟩
      · obtain ⟨c, hc⟩ := List.exists_mem_of_ne_nil _
          (Interval.bounds_ne_nil (i := range) (by rw [hfull', hfull, hbd]; rfl))
        exact hP.number (Interval.kind?_of_mem_bounds hc) (hr.1 c hc)
      · exact hP.number hck (ho c hc)
    obtain ⟨x, hx⟩ := hv
    exact (hnum hx).mpr ⟨⟨ho, hn⟩, (hsplit hx).mp hr⟩

end Collapse

lemma hasProperBounds_tidy (F : Fragment) : HasProperBounds (·.Tidy F .plain) :=
  ⟨by simp [Tidy, Fits], fun h => ⟨rfl, rfl, fun _ => h, fun _ => rfl⟩, fun h => h.2.2.2 rfl⟩

lemma readsValue_holds (X : Value → Prop) (v : Value) : ReadsValue (·.Holds X v) v :=
  ⟨holds_of_kind?_number, fun h => h ▸ readsNumber_holds X _⟩

lemma collapseBounds_spec {cs : List Constraint} (hcs : ∀ c ∈ cs, c.Tidy F p)
    (hk : ∃ c ∈ cs, c.kind? = some .number) :
    (collapseBounds cs = none → Clash F cs) ∧
      ∀ out, collapseBounds cs = some out → (∀ c ∈ out, c.Tidy F p) ∧
        out.countP isElements ≤ cs.countP isElements ∧ Agree F cs out := by
  by_cases hp : p = .plain
  · subst hp
    have hT := hasProperBounds_tidy F
    refine ⟨fun h X v _ => not_forall_of_collapseBounds hT hcs hk (readsValue_holds X v) h,
      fun out h => ?_⟩
    obtain ⟨ht, hc⟩ := collapseBounds_isOf hT hcs h
    exact ⟨ht, hc, fun X v _ => forall_collapseBounds hT hcs hk (readsValue_holds X v) h⟩
  · rw [collapseBounds_of_ne_plain hp hcs]
    refine ⟨by simp, fun out h => ?_⟩
    obtain rfl := Option.some.inj h
    exact ⟨hcs, Nat.le_refl _, Agree.refl _⟩

/-! ### Literals and negations -/

lemma isOpen_eq_false {c : Constraint} (h : c.Tidy F .plain) : c.isOpen = false := by
  cases c with
  | bvar i => cases h.2
  | ref n => exact h.elim
  | var i => exact h.elim
  | _ => rfl

lemma eq_equals_of_literal? {c : Constraint} {v : Value} (h : c.literal? = some v) :
    c = .equals v := by
  cases c <;> simp_all [literal?]

lemma absorb_eq {v : Value} {cs : List Constraint} (hcs : ∀ c ∈ cs, c.Tidy F .plain) :
    absorb v cs = if (cs.filter fun c => c.literal?.isNone).all (admits · v) then .equals v
      else .never := by
  have hopen : ((cs.filter fun c => c.literal?.isNone).filter isOpen) = [] :=
    List.filter_eq_nil_iff.mpr fun c hc => by
      simp [isOpen_eq_false (hcs c (List.mem_of_mem_filter hc))]
  have hclosed : ((cs.filter fun c => c.literal?.isNone).filter fun c => !c.isOpen) =
      cs.filter fun c => c.literal?.isNone :=
    List.filter_eq_self.mpr fun c hc => by
      simp [isOpen_eq_false (hcs c (List.mem_of_mem_filter hc))]
  simp only [absorb, hopen, hclosed, finishConj_singleton]

lemma absorb_spec {v : Value} {cs : List Constraint} (hcs : ∀ c ∈ cs, c.Tidy F p)
    (hv : .equals v ∈ cs) (hsame : ∀ w, .equals w ∈ cs → w.same v) :
    IsConj F p (absorb v cs) cs := by
  obtain ⟨rfl, hvw, hnan⟩ := hcs _ hv
  rw [absorb_eq hcs]
  split_ifs with hall
  · refine ⟨⟨rfl, hvw, hnan⟩, fun X u hu => ⟨fun h c hc => ?_, fun h => h _ hv⟩⟩
    cases hl : c.literal? with
    | some w =>
      obtain rfl := eq_equals_of_literal? hl
      exact (Value.same_right_comm (hcs _ hc).2.1 (hsame w hc)).mpr h
    | none =>
      have ha := List.all_eq_true.mp hall c (List.mem_filter.mpr ⟨hc, by simp [hl]⟩)
      exact (holds_value_congr (hcs c hc).isFixFree hu.1 hvw h).mpr
        (((hcs c hc).admits_iff X).mp ha)
  · refine Clash.isConj fun X u hu h => hall ?_
    refine List.all_eq_true.mpr fun c hc => ?_
    have hm := List.mem_of_mem_filter hc
    exact ((hcs c hm).admits_iff X).mpr
      ((holds_value_congr (hcs c hm).isFixFree hu.1 hvw (h _ hv)).mp (h c hm))

def Entails (F : Fragment) (entails : Constraint → Constraint → Bool) : Prop :=
  ∀ (p : Position) (a b : Constraint), a.Tidy F p → b.Tidy F p → entails a b →
    ∀ (X : Value → Prop) (v : Value), F.Covers v → a.Holds X v → b.Holds X v

section Negations

variable {conj : List Constraint → Constraint} (hconj : Conjoins F conj)
  {entails : Constraint → Constraint → Bool} (hent : F.negations → Entails F entails)
include hconj hent

lemma resolve_spec {context : Constraint} (hx : context.Tidy F p) {cs : List Constraint}
    (hcs : ∀ c ∈ cs, c.Tidy F p) :
    (resolveNegations.resolve conj entails context cs = none →
      ∀ X v, F.Covers v → context.Holds X v → ¬ ∀ c ∈ cs, c.Holds X v) ∧
    ∀ out, resolveNegations.resolve conj entails context cs = some out →
      out.Sublist cs ∧ (∀ c ∈ cs, c.isNeg = false → c ∈ out) ∧
      ∀ X v, F.Covers v → context.Holds X v →
        (∀ c ∈ out, c.Holds X v) → ∀ c ∈ cs, c.Holds X v := by
  induction cs with
  | nil => simp [resolveNegations.resolve]
  | cons c cs ih =>
    rw [List.forall_mem_cons] at hcs
    obtain ⟨ihn, ihs⟩ := ih hcs.2
    -- a conjunct that stays in front
    have hkeep : ((resolveNegations.resolve conj entails context cs).map (c :: ·) = none →
          ∀ X v, F.Covers v → context.Holds X v → ¬ ∀ d ∈ c :: cs, d.Holds X v) ∧
        ∀ out, (resolveNegations.resolve conj entails context cs).map (c :: ·) = some out →
          out.Sublist (c :: cs) ∧ (∀ d ∈ c :: cs, d.isNeg = false → d ∈ out) ∧
          ∀ X v, F.Covers v → context.Holds X v →
            (∀ d ∈ out, d.Holds X v) → ∀ d ∈ c :: cs, d.Holds X v := by
      refine ⟨fun h X v hv hc hall => ?_, fun out h => ?_⟩
      · exact ihn (Option.map_eq_none_iff.mp h) X v hv hc (List.forall_mem_cons.mp hall).2
      · obtain ⟨rest, hr, rfl⟩ := Option.map_eq_some_iff.mp h
        obtain ⟨hsub, hpos, hall⟩ := ihs rest hr
        refine ⟨hsub.cons_cons c, List.forall_mem_cons.mpr ⟨fun _ => List.mem_cons_self,
          fun d hd hn => List.mem_cons_of_mem _ (hpos d hd hn)⟩, fun X v hv hc h => ?_⟩
        rw [List.forall_mem_cons] at h ⊢
        exact ⟨h.1, hall X v hv hc h.2⟩
    cases c with
    | neg d =>
      obtain ⟨hneg, rfl, hd⟩ := hcs.1
      simp only [resolveNegations.resolve]
      split_ifs with he hn
      · refine ⟨fun _ X v hv hc hall => ?_, by simp⟩
        exact (List.forall_mem_cons.mp hall).1 (hent hneg _ context d hx hd he X v hv hc)
      · refine ⟨fun h X v hv hc hall => ihn h X v hv hc (List.forall_mem_cons.mp hall).2,
          fun out h => ?_⟩
        obtain ⟨hsub, hpos, hall⟩ := ihs out h
        refine ⟨hsub.cons _, List.forall_mem_cons.mpr ⟨by simp [isNeg], hpos⟩,
          fun X v hv hc h => List.forall_mem_cons.mpr ⟨fun hdv => ?_, hall X v hv hc h⟩⟩
        have hclash := (hconj _ [context, d] (by simpa using ⟨hx, hd⟩)).clash hn
        exact hclash X v hv (by simpa using ⟨hc, hdv⟩)
      · exact hkeep
    | _ => exact hkeep

lemma resolveNegations_spec {cs : List Constraint} (hcs : ∀ c ∈ cs, c.Tidy F p) :
    (resolveNegations conj entails cs = none → Clash F cs) ∧
      ∀ out, resolveNegations conj entails cs = some out → out.Sublist cs ∧ Agree F cs out := by
  simp only [resolveNegations]
  split_ifs with h
  · refine ⟨by simp, fun out he => ?_⟩
    obtain rfl := Option.some.inj he
    exact ⟨List.Sublist.refl _, Agree.refl _⟩
  · have hpos : ∀ c ∈ cs.filter (fun c => !c.isNeg), c.Tidy F p :=
      fun c hc => hcs c (List.mem_of_mem_filter hc)
    have hx := hconj p _ hpos
    obtain ⟨hnone, hsome⟩ := resolve_spec hconj hent hx.tidy hcs
    have hcontext : ∀ X v, F.Covers v → (∀ c ∈ cs, c.isNeg = false → c.Holds X v) →
        (conj (cs.filter fun c => !c.isNeg)).Holds X v := by
      intro X v hv hall
      refine (hx.holds X v hv).mpr fun c hc => ?_
      rw [List.mem_filter, Bool.not_eq_true'] at hc
      exact hall c hc.1 hc.2
    refine ⟨fun he X v hv hall => ?_, fun out he => ?_⟩
    · exact hnone he X v hv (hcontext X v hv fun c hc _ => hall c hc) hall
    · obtain ⟨hsub, hkept, hback⟩ := hsome out he
      refine ⟨hsub, fun X v hv => ⟨fun hall c hc => hall c (hsub.subset hc), fun hall => ?_⟩⟩
      exact hback X v hv (hcontext X v hv fun c hc hn => hall c (hkept c hc hn)) hall

end Negations

lemma literals_spec {cs : List Constraint} {v : Value} {vs : List Value}
    (h : cs.filterMap literal? = v :: vs) :
    .equals v ∈ cs ∧ ∀ w, .equals w ∈ cs ↔ w ∈ v :: vs := by
  have hmem : ∀ w, .equals w ∈ cs ↔ w ∈ v :: vs := by
    intro w
    rw [← h, List.mem_filterMap]
    refine ⟨fun hw => ⟨_, hw, rfl⟩, ?_⟩
    rintro ⟨c, hc, hl⟩
    exact eq_equals_of_literal? hl ▸ hc
  exact ⟨(hmem v).mpr List.mem_cons_self, hmem⟩

lemma countP_finishKinds_le {ds : List Constraint} (common : Option Kind) :
    ((ds.filter fun c => !c.isKind) ++ (common.map Constraint.kind).toList).countP isElements ≤
      ds.countP isElements := by
  have hk : (common.map Constraint.kind).toList.countP isElements = 0 := by
    cases common <;> simp [isElements]
  rw [List.countP_append, hk]
  exact List.filter_sublist.countP_le

lemma forall_finishKinds {P : Constraint → Prop} {v : Value}
    (hP : ∀ {c : Constraint} {k : Kind}, c.kind? = some k → P c → v.kind.refines k)
    (hPk : ∀ {k : Kind}, v.kind.refines k → P (.kind k)) {cs ds : List Constraint}
    {common : Option Kind} (hkind : commonKind none cs = some common)
    (hagree : (∀ c ∈ cs, P c) ↔ ∀ c ∈ ds, P c) (hmem : ∀ k, .kind k ∈ ds → .kind k ∈ cs) :
    (∀ c ∈ cs, P c) ↔
      ∀ c ∈ (ds.filter fun c => !c.isKind) ++ (common.map Constraint.kind).toList, P c := by
  rw [List.forall_mem_append, hagree]
  constructor
  · intro hall
    refine ⟨fun c hc => hall c (List.mem_of_mem_filter hc), ?_⟩
    obtain ⟨common', he, hr⟩ := exists_commonKind_of_refines none (by simp)
      fun c hc k hk => hP hk (hagree.mpr hall c hc)
    obtain rfl := Option.some.inj (he.symm.trans hkind)
    cases common' with
    | none => simp
    | some k => simpa using hPk (hr k rfl)
  · rintro ⟨hrest, hcommon⟩ c hc
    by_cases hk : c.isKind
    · cases c <;> simp only [isKind, Bool.false_eq_true] at hk
      next k =>
        obtain ⟨m, hmc, hr⟩ := (commonKind_refines hkind).2 _ (hmem k hc) k rfl
        have hv := hP rfl (hcommon (.kind m) (by simp [Option.mem_def.mp hmc]))
        exact hPk (Kind.refines_trans hv hr)
    · exact hrest c (List.mem_filter.mpr ⟨hc, by simpa using hk⟩)

lemma finishKinds_spec {cs ds : List Constraint} {common : Option Kind}
    (hkind : commonKind none cs = some common) (hds : ∀ c ∈ ds, c.Tidy F p)
    (hcount : ds.countP isElements ≤ 1) (hagree : Agree F cs ds)
    (hmem : ∀ k, .kind k ∈ ds → .kind k ∈ cs) :
    IsConj F p (finishConj ((ds.filter fun c => !c.isKind) ++ (common.map Constraint.kind).toList))
      cs := by
  have htidy : ∀ c ∈ (ds.filter fun c => !c.isKind) ++ (common.map Constraint.kind).toList,
      c.Tidy F p := by
    simp only [List.forall_mem_append]
    refine ⟨fun c hc => hds c (List.mem_of_mem_filter hc), ?_⟩
    cases common <;> simp [Tidy, Fits]
  refine (finishConj_spec htidy (Nat.le_trans (countP_finishKinds_le common) hcount)).of_agree ?_
  exact fun X v hv => forall_finishKinds kind_refines_of_holds id hkind (hagree X v hv) hmem

section Flat

variable {conj conjPlain : List Constraint → Constraint} (hconj : Conjoins F conj)
  (hplain : Conjoins F conjPlain) {entails : Constraint → Constraint → Bool}
  (hent : F.negations → Entails F entails)
include hconj hplain hent

lemma conjoinFlat_spec {flat : List Constraint} (hflat : ∀ c ∈ flat, c.Tidy F p) :
    IsConj F p (conjoinFlat conj conjPlain entails flat) flat := by
  unfold conjoinFlat
  cases hm : mergeStructure conj conjPlain flat with
  | none => exact (mergeStructure_clash hconj hplain hflat hm).isConj
  | some cs =>
    obtain ⟨hcs, hcount, hagree⟩ := mergeStructure_spec hconj hplain hflat hm
    refine IsConj.of_agree ?_ hagree
    simp only
    cases hk : commonKind none cs with
    | none =>
      refine Clash.isConj fun X v hv hall => ?_
      obtain ⟨_, he, _⟩ := exists_commonKind none (by simp) hall
      simp [hk] at he
    | some common =>
      -- the conjunction with its bounds collapsed, if it is about a number
      have hcollapse : ((if common == some .number then collapseBounds cs else some cs) = none →
            Clash F cs) ∧
          ∀ ds, (if common == some .number then collapseBounds cs else some cs) = some ds →
            (∀ c ∈ ds, c.Tidy F p) ∧ ds.countP isElements ≤ 1 ∧ Agree F cs ds ∧
              ∀ k, .kind k ∈ ds → .kind k ∈ cs := by
        split_ifs with hn
        · obtain rfl := eq_of_beq hn
          have hex := (exists_kind?_of_commonKind hk).resolve_left (by simp)
          obtain ⟨h1, h2⟩ := collapseBounds_spec hcs hex
          refine ⟨h1, fun ds hds => ?_⟩
          obtain ⟨ht, hc, ha⟩ := h2 ds hds
          exact ⟨ht, Nat.le_trans hc hcount, ha, fun k => kind_mem_of_collapseBounds hds⟩
        · refine ⟨by simp, fun ds hds => ?_⟩
          obtain rfl := Option.some.inj hds
          exact ⟨hcs, hcount, Agree.refl _, fun _ h => h⟩
      simp only
      cases hc : (if common == some .number then collapseBounds cs else some cs) with
      | none => exact (hcollapse.1 hc).isConj
      | some ds =>
        obtain ⟨hds, hone, hag, hkinds⟩ := hcollapse.2 ds hc
        simp only
        cases hl : ds.filterMap literal? with
        | cons v vs =>
          obtain ⟨hv, hmem⟩ := literals_spec hl
          simp only
          split_ifs with hall
          · have hsame : ∀ w, .equals w ∈ ds → w.same v := fun w hw =>
              List.all_eq_true.mp hall w ((hmem w).mp hw)
            exact (absorb_spec hds hv hsame).of_agree hag
          · refine Clash.isConj (Clash.of_agree (fun X u hu hallu => hall ?_) hag)
            refine List.all_eq_true.mpr fun w hw => ?_
            exact Value.same_trans (Value.same_symm hu.1 (hallu _ ((hmem w).mpr hw))) (hallu _ hv)
        | nil =>
          obtain ⟨hnone, hsome⟩ := resolveNegations_spec hplain hent hds
          simp only
          cases hr : resolveNegations conjPlain entails ds with
          | none => exact (Clash.of_agree (hnone hr) hag).isConj
          | some es =>
            obtain ⟨hsub, hae⟩ := hsome es hr
            exact finishKinds_spec hk (fun c hc => hds c (hsub.subset hc))
              (Nat.le_trans hsub.countP_le hone) (hag.trans hae)
              (fun k hk' => hkinds k (hsub.subset hk'))

end Flat

end Constraint

end Stagewise
