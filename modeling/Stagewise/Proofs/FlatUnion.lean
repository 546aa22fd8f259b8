import Mathlib.Order.Preorder.Finite
import Stagewise.Proofs.Recognition

/-! Unions of constraints that are no unions themselves. A branch is dropped for the sake of another
one, which may be dropped in its turn. As long as no three branches with a value have the same
values, one of the branches stays, so that the value is not lost. -/

set_option autoImplicit false

namespace Stagewise

structure Fragment.IsFlat (F : Fragment) : Prop where
  unions : F.unions = false
  idle : F.idle = false

lemma Fragment.isFlat_core : Fragment.core.IsFlat := ⟨rfl, rfl⟩

namespace Constraint

/-! ### Branches with a value -/

def Includes (F : Fragment) (a b : Constraint) : Prop := ∀ v, F.Covers v → a.admits v → b.admits v

def Comparable (F : Fragment) (a b : Constraint) : Prop := Includes F a b ∨ Includes F b a

def SameValues (F : Fragment) (a b : Constraint) : Prop := Includes F a b ∧ Includes F b a

/-- At most `m` of the branches with a value are related to each other. -/
def AtMost (R : Constraint → Constraint → Prop) (m : Nat) (v : Value) (cs : List Constraint) :
    Prop :=
  ∀ l : List Constraint, l.Sublist (cs.filter (admits · v)) → l.Pairwise R → l.length ≤ m

abbrev Width (F : Fragment) := AtMost (Comparable F)

/-- Of the branches with a value, `ds` has no others than `cs`, but for both truth values in place
of one. -/
def Thins (v : Value) (cs ds : List Constraint) : Prop :=
  (ds.filter (admits · v)).Subperm (cs.filter (admits · v)) ∨
    ∃ b rest, v = .bool b ∧ (ofBool b :: rest).Subperm (cs.filter (admits · v)) ∧
      (ds.filter (admits · v)).Subperm (.kind .bool :: rest)

section Width

variable {F : Fragment} {R : Constraint → Constraint → Prop} {m k : Nat} {v : Value}
  {cs ds : List Constraint}

instance : Std.Symm (Comparable F) := ⟨fun _ _ => Or.symm⟩

instance : Std.Symm (SameValues F) := ⟨fun _ _ => And.symm⟩

lemma Includes.trans {a b c : Constraint} (h : Includes F a b) (h' : Includes F b c) :
    Includes F a c :=
  fun v hv ha => h' v hv (h v hv ha)

lemma Includes.refl (a : Constraint) : Includes F a a := fun _ _ h => h

lemma SameValues.trans {a b c : Constraint} (h : SameValues F a b) (h' : SameValues F b c) :
    SameValues F a c :=
  ⟨h.1.trans h'.1, h'.2.trans h.2⟩

lemma SameValues.symm {a b : Constraint} (h : SameValues F a b) : SameValues F b a := And.symm h

lemma exists_maximal_branch (F : Fragment) {c : Constraint} (hc : c ∈ cs) (hcv : c.admits v) :
    ∃ m, (m ∈ cs ∧ m.admits v) ∧ ∀ d ∈ cs, d.admits v → Includes F m d → Includes F d m := by
  have hfinite : Set.Finite {c | c ∈ cs ∧ c.admits v} := cs.finite_toSet.subset fun _ h => h.1
  obtain ⟨m, hm, hmax⟩ := hfinite.exists_maximalFor
    (fun c => {w | F.Covers w ∧ c.admits w}) _ ⟨c, hc, hcv⟩
  refine ⟨m, hm, fun d hd hdv hmd w hw hdw => ?_⟩
  exact (hmax ⟨hd, hdv⟩ (fun w hw => ⟨hw.1, hmd w hw.1 hw.2⟩) ⟨hw, hdw⟩).2

lemma AtMost.length_le [Std.Symm R] (h : AtMost R m v cs) {l : List Constraint}
    (hl : l.Subperm (cs.filter (admits · v))) (hp : l.Pairwise R) : l.length ≤ m := by
  obtain ⟨l', hperm, hsub⟩ := hl
  rw [← hperm.length_eq]
  exact h l' hsub (hperm.symm.pairwise hp fun h => Std.Symm.symm _ _ h)

lemma AtMost.of_subperm [Std.Symm R] (h : AtMost R m v cs)
    (hs : (ds.filter (admits · v)).Subperm (cs.filter (admits · v))) : AtMost R m v ds :=
  fun _ hl hp => h.length_le (hl.subperm.trans hs) hp

lemma Width.atMost_sameValues (h : Width F m v cs) : AtMost (SameValues F) m v cs :=
  fun l hl hp => h l hl (hp.imp fun hab => .inl hab.1)

lemma AtMost.mono (h : AtMost R m v cs) (hm : m ≤ k) : AtMost R k v cs :=
  fun l hl hp => Nat.le_trans (h l hl hp) hm

lemma atMost_of_countP (h : cs.countP (admits · v) ≤ m) : AtMost R m v cs := by
  rw [List.countP_eq_length_filter] at h
  exact fun l hl _ => Nat.le_trans hl.length_le h

lemma atMost_of_pairwise (h : cs.Pairwise fun a b => ¬ R a b) : AtMost R 1 v cs := by
  intro l hl hp
  have hnone := h.sublist (hl.trans List.filter_sublist)
  rcases l with _ | ⟨a, _ | ⟨b, l⟩⟩
  · exact Nat.zero_le _
  · exact Nat.le_refl _
  · exact absurd (List.rel_of_pairwise_cons hp List.mem_cons_self)
      (List.rel_of_pairwise_cons hnone List.mem_cons_self)

lemma AtMost.append (hcs : AtMost R m v cs) (hds : AtMost R k v ds) :
    AtMost R (m + k) v (cs ++ ds) := by
  intro l hl hp
  rw [List.filter_append, List.sublist_append_iff] at hl
  obtain ⟨l₁, l₂, rfl, h₁, h₂⟩ := hl
  have hp := List.pairwise_append.mp hp
  rw [List.length_append]
  exact Nat.add_le_add (hcs l₁ h₁ hp.1) (hds l₂ h₂ hp.2.1)

lemma AtMost.map (h : AtMost R m v cs) {f : Constraint → Constraint}
    (hf : ∀ c ∈ cs, ((f c).admits v ↔ c.admits v))
    (hR : ∀ a ∈ cs, ∀ b ∈ cs, R (f a) (f b) → R a b) : AtMost R m v (cs.map f) := by
  have hfilter : (cs.map f).filter (admits · v) = (cs.filter (admits · v)).map f := by
    rw [List.filter_map]
    congr 1
    refine List.filter_congr fun c hc => ?_
    exact Bool.eq_iff_iff.mpr (hf c hc)
  intro l hl hp
  rw [hfilter, List.sublist_map_iff] at hl
  obtain ⟨l', hl', rfl⟩ := hl
  rw [List.pairwise_map] at hp
  rw [List.length_map]
  refine h l' hl' (hp.imp_of_mem fun {a b} ha hb hab => ?_)
  exact hR a (List.mem_of_mem_filter (hl'.subset ha)) b (List.mem_of_mem_filter (hl'.subset hb)) hab

section Renamed

variable {f : Constraint → Constraint} (hf : ∀ c ∈ cs, ∀ w, F.Covers w →
  ((f c).admits w ↔ c.admits w)) (hv : F.Covers v)
include hf

lemma includes_of_map {a b : Constraint} (ha : a ∈ cs) (hb : b ∈ cs)
    (h : Includes F (f a) (f b)) : Includes F a b :=
  fun w hw hwa => (hf b hb w hw).mp (h w hw ((hf a ha w hw).mpr hwa))

include hv

lemma Width.map (h : Width F m v cs) : Width F m v (cs.map f) :=
  AtMost.map h (fun c hc => hf c hc v hv) fun _ ha _ hb =>
    Or.imp (includes_of_map hf ha hb) (includes_of_map hf hb ha)

lemma AtMost.map_sameValues (h : AtMost (SameValues F) m v cs) :
    AtMost (SameValues F) m v (cs.map f) :=
  h.map (fun c hc => hf c hc v hv) fun _ ha _ hb =>
    And.imp (includes_of_map hf ha hb) (includes_of_map hf hb ha)

end Renamed

lemma Thins.mono (h : Thins v cs ds) {cs' ds' : List Constraint} (hcs : cs.Subperm cs')
    (hds : ds'.Subperm ds) : Thins v cs' ds' := by
  have hcs := hcs.filter (admits · v)
  have hds := hds.filter (admits · v)
  rcases h with h | ⟨b, rest, hv, h, h'⟩
  · exact Or.inl ((hds.trans h).trans hcs)
  · exact Or.inr ⟨b, rest, hv, h.trans hcs, hds.trans h'⟩

lemma Thins.countP_le (h : Thins v cs ds) : ds.countP (admits · v) ≤ cs.countP (admits · v) := by
  simp only [List.countP_eq_length_filter]
  rcases h with h | ⟨b, rest, -, h, h'⟩
  · exact h.length_le
  · exact Nat.le_trans h'.length_le h.length_le

lemma includes_ofBool {b : Bool} {c : Constraint} (h : c.admits (.bool b)) :
    Includes F (ofBool b) c := by
  intro w _ hw
  rw [admits_iff_holds (by cases b <;> rfl) fun _ => True] at hw
  have hw : w.same (.bool b) := by cases b <;> exact hw
  cases w with
  | bool a =>
    have : a = b := by simpa [Value.same] using hw
    rwa [this]
  | _ => exact absurd hw Bool.false_ne_true

lemma Thins.width (h : Thins v cs ds) (hw : Width F m v cs) : Width F m v ds := by
  rcases h with h | ⟨b, rest, rfl, h, h'⟩
  · exact hw.of_subperm h
  · intro l hl hp
    -- one branch of `l` may be the kind of truth values; the value stands in for it
    obtain ⟨l', hperm, hsub⟩ := hl.subperm.trans h'
    rw [← hperm.length_eq]
    have hp := hperm.symm.pairwise hp (Std.Symm.symm _ _)
    obtain ⟨tail, htail, hpair, hlen⟩ : ∃ tail : List Constraint, tail.Sublist rest ∧
        tail.Pairwise (Comparable F) ∧ l'.length ≤ tail.length + 1 := by
      rcases List.sublist_cons_iff.mp hsub with hsub | ⟨tail, rfl, htail⟩
      · exact ⟨l', hsub, hp, Nat.le_succ _⟩
      · exact ⟨tail, htail, hp.of_cons, Nat.le_refl _⟩
    refine Nat.le_trans hlen (hw.length_le ((htail.cons_cons (ofBool b)).subperm.trans h)
      (List.pairwise_cons.mpr ⟨fun c hc => Or.inl (includes_ofBool ?_), hpair⟩))
    have hmem := h.subset (List.mem_cons_of_mem (ofBool b) (htail.subset hc))
    exact (List.mem_filter.mp hmem).2

end Width

/-! ### Steps of a disjunction -/

section Steps

variable {F : Fragment} {cs : List Constraint} {v : Value}

lemma isDisj_of_tidy (hF : F.IsFlat) {c : Constraint} {p : Position} (h : c.Tidy F p) :
    c.isDisj = false := by
  cases c with
  | disj cs => exact absurd (fits_disj.mp h).1 (by simp [hF.unions])
  | _ => rfl

lemma flattenDisjList_sublist (h : ∀ c ∈ cs, c.isDisj = false) (acc : List Constraint) :
    (flattenDisjList acc cs).Sublist (acc ++ cs) := by
  induction cs generalizing acc with
  | nil => simp [flattenDisjList]
  | cons c cs ih =>
    rw [List.forall_mem_cons] at h
    have hc : (flattenDisj acc c).Sublist (acc ++ [c]) := by
      cases c with
      | disj => simp [isDisj] at h
      | never => exact List.sublist_append_left acc _
      | _ => exact pushNew_sublist acc _
    rw [flattenDisjList, List.append_cons]
    exact (ih h.2 _).trans (hc.append (List.Sublist.refl cs))

lemma flattenDisjList_append (acc cs ds : List Constraint) :
    flattenDisjList acc (cs ++ ds) = flattenDisjList (flattenDisjList acc cs) ds := by
  induction cs generalizing acc with
  | nil => rfl
  | cons c cs ih => exact ih _

lemma flattenDisjList_branches (acc cs : List Constraint) :
    flattenDisjList acc (cs.flatMap branchesOf) = flattenDisjList acc cs := by
  induction cs generalizing acc with
  | nil => rfl
  | cons c cs ih =>
    have hc : flattenDisjList acc (branchesOf c) = flattenDisj acc c := by cases c <;> rfl
    rw [List.flatMap_cons, flattenDisjList_append, hc, ih]
    rfl

lemma thins_mergeBools (cs : List Constraint) (v : Value) : Thins v cs (mergeBools cs) := by
  unfold mergeBools
  split_ifs with h
  · rw [Bool.and_eq_true, List.any_eq_true, List.any_eq_true] at h
    obtain ⟨⟨c, hc, hct⟩, d, hd, hdf⟩ := h
    rw [eq_ofBool_of_same hct] at hc
    rw [eq_ofBool_of_same hdf] at hd
    let isOther : Constraint → Bool := fun c => !(c == ofBool true) && !(c == ofBool false)
    have hpush := ((pushNew_sublist (cs.filter isOther) (.kind .bool)).filter (admits · v)).subperm
    rw [List.filter_append] at hpush
    by_cases hv : (Constraint.kind .bool).admits v
    · obtain ⟨b, rfl⟩ : ∃ b, v = .bool b := by
        rw [admits_iff_holds rfl fun _ => True] at hv
        cases v <;> simp [Holds, Value.kind, Kind.refines] at hv ⊢
      refine Or.inr ⟨b, (cs.filter isOther).filter (admits · (.bool b)), rfl, ?_, ?_⟩
      · have hmem : ofBool b ∈ (cs.filter (admits · (.bool b))).filter fun c => !isOther c := by
          cases b
          · exact List.mem_filter.mpr ⟨List.mem_filter.mpr ⟨hd, by decide⟩, rfl⟩
          · exact List.mem_filter.mpr ⟨List.mem_filter.mpr ⟨hc, by decide⟩, rfl⟩
        rw [List.filter_comm]
        have hsplit := List.filter_append_perm isOther (cs.filter (admits · (.bool b)))
        refine List.Subperm.trans ?_ hsplit.subperm
        refine List.Subperm.trans ?_ List.perm_append_comm.subperm
        exact ((List.singleton_sublist.mpr hmem).append (List.Sublist.refl _)).subperm
      · refine hpush.trans ?_
        rw [List.filter_cons_of_pos (by simpa using hv)]
        exact List.perm_append_comm.subperm
    · refine Or.inl (hpush.trans ?_)
      rw [List.filter_cons_of_neg (by simpa using hv), List.filter_nil, List.append_nil]
      exact (List.filter_sublist.filter _).subperm
  · exact Or.inl (List.Subperm.refl _)

lemma length_mergeBools_le (cs : List Constraint) : (mergeBools cs).length ≤ cs.length := by
  unfold mergeBools
  split_ifs with h
  · rw [Bool.and_eq_true, List.any_eq_true] at h
    obtain ⟨⟨c, hc, hct⟩, -⟩ := h
    have hpush := (pushNew_sublist
      (cs.filter fun c => !(c == ofBool true) && !(c == ofBool false)) (.kind .bool)).length_le
    have hlt : (cs.filter fun c => !(c == ofBool true) && !(c == ofBool false)).length <
        cs.length := List.length_filter_lt_length_iff_exists.mpr ⟨c, hc, by simp [hct]⟩
    rw [List.length_append, List.length_singleton] at hpush
    omega
  · exact Nat.le_refl _

lemma mergeBools_subperm (cs : List Constraint) :
    (mergeBools cs).Subperm (.kind .bool :: cs) := by
  unfold mergeBools
  split_ifs
  · refine (pushNew_sublist _ _).subperm.trans ?_
    refine ((List.filter_sublist.append (List.Sublist.refl _)).subperm).trans ?_
    exact List.perm_append_comm.subperm
  · exact (List.sublist_cons_self _ _).subperm

lemma mem_mergeBools {c : Constraint} (h : c ∈ mergeBools cs) : c = .kind .bool ∨ c ∈ cs := by
  unfold mergeBools at h
  split_ifs at h
  · rcases List.mem_append.mp ((pushNew_sublist _ _).subset h) with h | h
    · exact Or.inr (List.mem_of_mem_filter h)
    · exact Or.inl (List.mem_singleton.mp h)
  · exact Or.inr h

lemma branchesOf_finishDisj (h : ∀ c ∈ cs, c.isDisj = false) :
    branchesOf (finishDisj cs) = [.never] ∨ branchesOf (finishDisj cs) = dedup (sort cs) := by
  have hmem : ∀ c ∈ dedup (sort cs), c.isDisj = false := fun c hc => h c (mem_of_mem_dedup_sort hc)
  unfold finishDisj
  generalize dedup (sort cs) = ds at hmem
  rcases ds with _ | ⟨c, _ | ⟨d, ds⟩⟩
  · exact Or.inl rfl
  · have hc := hmem c List.mem_cons_self
    right
    cases c with
    | disj => simp [isDisj] at hc
    | _ => rfl
  · exact Or.inr rfl

lemma holds_finishDisj (hcs : ∀ c ∈ cs, c.isWellFormed) (hv : v.isWellFormed) (X : Value → Prop) :
    (finishDisj cs).Holds X v ↔ ∃ c ∈ cs, c.Holds X v := by
  have hsame : (∃ c ∈ dedup (sort cs), c.Holds X v) ↔ ∃ c ∈ cs, c.Holds X v := by
    constructor
    · rintro ⟨c, hc, hcv⟩
      exact ⟨c, mem_of_mem_dedup_sort hc, hcv⟩
    · rintro ⟨c, hc, hcv⟩
      rcases exists_same_mem_dedup_sort hc with hd | ⟨d, hd, hs⟩
      · exact ⟨c, hd, hcv⟩
      · exact ⟨d, hd, (holds_congr (hcs d (mem_of_mem_dedup_sort hd)) hv hs).mpr hcv⟩
  rw [← hsame]
  unfold finishDisj
  generalize dedup (sort cs) = ds
  rcases ds with _ | ⟨c, _ | ⟨d, ds⟩⟩ <;> simp

lemma holds_iff_branchesOf {c : Constraint} (X : Value → Prop) :
    c.Holds X v ↔ ∃ b ∈ branchesOf c, b.Holds X v := by
  cases c <;> simp [branchesOf]

lemma isFixFree_of_branches {c : Constraint} {tidy : Bool}
    (h : ∀ b ∈ branchesOf c, b.Fits F tidy .plain) :
    c.isFixFree := by
  cases c with
  | disj ds => exact areFixFree_iff.mpr fun b hb => (h b hb).isFixFree
  | _ => exact (h _ List.mem_cons_self).isFixFree

end Steps

/-! ### Disjunctions -/

section Flat

variable {F : Fragment} (hF : F.IsFlat)

include hF

lemma suits_flat : Suits F keepUncovered := ⟨fun _ => hF.idle, by simp [hF.unions]⟩

lemma conjoins_flat (n : Nat) (unroll : Bool) : Conjoins F (conjunction n unroll) := by
  rw [← (by_keepUncovered n).2.1]
  exact (soundAt (suits_flat hF) n).conjunction unroll

lemma entails_flat (n : Nat) : Entails F (entails n []) := by
  rw [← (by_keepUncovered n).2.2.2]
  exact ((soundAt (suits_flat hF) n).entails hF.idle).entails_nil

lemma isNormal_flat {c : Constraint} {n : Nat} (hc : c.Fits F false .plain) (hn : c.size ≤ n) :
    IsNormal F .plain (normalize n c) c := by
  rw [← (by_keepUncovered n).1]
  exact (soundAt (suits_flat hF) n).normalize .plain c hc (Or.inl hn)

lemma admits_normalize {c : Constraint} {n : Nat} {v : Value} (hc : c.Fits F false .plain)
    (hn : c.size ≤ n) (hv : F.Covers v) : (normalize n c).admits v ↔ c.admits v := by
  have hnormal := isNormal_flat hF hc hn
  rw [hnormal.tidy.admits_iff fun _ => True, hc.admits_iff fun _ => True]
  exact hnormal.holds _ v hv

lemma includes_of_entails {n : Nat} {a b : Constraint} (ha : a.Tidy F .plain)
    (hb : b.Tidy F .plain) (h : entails n [] a b) : Includes F a b := by
  intro v hv hav
  rw [ha.admits_iff fun _ => True] at hav
  exact (hb.admits_iff fun _ => True).mpr (entails_flat hF n .plain a b ha hb h _ v hv hav)

lemma branchesOf_of_tidy {c : Constraint} {p : Position} (h : c.Tidy F p) : branchesOf c = [c] := by
  have hdisj := isDisj_of_tidy hF h
  cases c with
  | disj => simp [isDisj] at hdisj
  | _ => rfl

end Flat

def keptBranches (n : Nat) (cs : List Constraint) : List Constraint :=
  uncovered (entails n []) [] (mergeBools (flattenDisjList [] cs))

lemma disjunction_eq (n : Nat) (cs : List Constraint) : disjunction (n + 1) cs =
    if (flattenDisjList [] cs).any isAny then .any else finishDisj (keptBranches n cs) := rfl

lemma disjunction_branches (n : Nat) (cs : List Constraint) :
    disjunction (n + 1) (cs.flatMap branchesOf) = disjunction (n + 1) cs := by
  simp only [disjunction_eq, keptBranches, flattenDisjList_branches]

section Tidy

variable {F : Fragment} (hF : F.IsFlat) {cs : List Constraint} {v : Value} {m n : Nat}
  (hcs : ∀ c ∈ cs, c.Tidy F .plain)

include hF hcs

lemma flatten_sublist : (flattenDisjList [] cs).Sublist cs :=
  flattenDisjList_sublist (fun c hc => isDisj_of_tidy hF (hcs c hc)) []

lemma any_mem_of_flatten (h : (flattenDisjList [] cs).any isAny) : .any ∈ cs := by
  obtain ⟨c, hc, ha⟩ := List.any_eq_true.mp h
  cases c <;> simp only [isAny, Bool.false_eq_true] at ha
  exact (flatten_sublist hF hcs).subset hc

lemma mem_keptBranches {c : Constraint} (h : c ∈ keptBranches n cs) : c = .kind .bool ∨ c ∈ cs :=
  (mem_mergeBools ((uncovered_sublist _ _ _).subset h)).imp_right fun h =>
    (flatten_sublist hF hcs).subset h

lemma tidy_keptBranches {c : Constraint} (h : c ∈ keptBranches n cs) : c.Tidy F .plain := by
  rcases mem_keptBranches hF hcs h with rfl | h
  · trivial
  · exact hcs c h

lemma branchesOf_disjunction (n : Nat) :
    (branchesOf (disjunction (n + 1) cs) = [.any] ∧ .any ∈ cs) ∨
      branchesOf (disjunction (n + 1) cs) = [.never] ∨
      branchesOf (disjunction (n + 1) cs) = dedup (sort (keptBranches n cs)) := by
  rw [disjunction_eq]
  split_ifs with hany
  · exact Or.inl ⟨rfl, any_mem_of_flatten hF hcs hany⟩
  · exact Or.inr (branchesOf_finishDisj fun c hc => isDisj_of_tidy hF (tidy_keptBranches hF hcs hc))

lemma mem_branchesOf_disjunction {b : Constraint} (hb : b ∈ branchesOf (disjunction (n + 1) cs)) :
    b = .never ∨ b = .kind .bool ∨ b ∈ cs := by
  rcases branchesOf_disjunction hF hcs n with ⟨he, hany⟩ | he | he <;> rw [he] at hb
  · rw [List.mem_singleton.mp hb]
    exact Or.inr (Or.inr hany)
  · exact Or.inl (List.mem_singleton.mp hb)
  · exact Or.inr (mem_keptBranches hF hcs (mem_of_mem_dedup_sort hb))

lemma tidy_branchesOf_disjunction {b : Constraint}
    (hb : b ∈ branchesOf (disjunction (n + 1) cs)) : b.Tidy F .plain := by
  rcases mem_branchesOf_disjunction hF hcs hb with rfl | rfl | hb
  · trivial
  · trivial
  · exact hcs b hb

lemma thins_disjunction (n : Nat) (v : Value) :
    Thins v cs (branchesOf (disjunction (n + 1) cs)) := by
  rcases branchesOf_disjunction hF hcs n with ⟨he, hany⟩ | he | he <;> rw [he]
  · exact Or.inl ((List.singleton_sublist.mpr hany).filter _).subperm
  · exact Or.inl (List.nil_sublist _).subperm
  · have hkept : (dedup (sort (keptBranches n cs))).Subperm (keptBranches n cs) :=
      (dedup_sublist _).subperm.trans (sort_perm _).subperm
    exact (thins_mergeBools _ v).mono (flatten_sublist hF hcs).subperm
      (hkept.trans (uncovered_sublist _ _ _).subperm)

lemma length_branchesOf_disjunction_le (n : Nat) :
    (branchesOf (disjunction (n + 1) cs)).length ≤ max 1 cs.length := by
  rcases branchesOf_disjunction hF hcs n with ⟨he, -⟩ | he | he <;> rw [he]
  · exact Nat.le_max_left ..
  · exact Nat.le_max_left ..
  · have hsort := (dedup_sublist (sort (keptBranches n cs))).length_le
    have hkept : (keptBranches n cs).length ≤ _ := (uncovered_sublist _ _ _).length_le
    have hbools := length_mergeBools_le (flattenDisjList [] cs)
    have hflat := (flatten_sublist hF hcs).length_le
    rw [(sort_perm _).length_eq] at hsort
    omega

lemma holds_disjunction_of_kept (hv : F.Covers v)
    (hkept : ∀ c ∈ mergeBools (flattenDisjList [] cs), c.admits v →
      ∃ d ∈ keptBranches n cs, d.admits v)
    (X : Value → Prop) : (disjunction (n + 1) cs).Holds X v ↔ ∃ c ∈ cs, c.Holds X v := by
  rw [disjunction_eq]
  split_ifs with hany
  · exact ⟨fun _ => ⟨.any, any_mem_of_flatten hF hcs hany, trivial⟩, fun _ => trivial⟩
  have hflat : ∀ c ∈ flattenDisjList [] cs, c.Tidy F .plain := fun c hc =>
    hcs c ((flatten_sublist hF hcs).subset hc)
  have hmerge := tidy_mergeBools hflat
  rw [holds_finishDisj (fun c hc => (tidy_keptBranches hF hcs hc).isWellFormed) hv.1,
    ← sameUnion_flatten hcs X v hv, ← sameUnion_mergeBools hflat X v hv]
  constructor
  · rintro ⟨c, hc, hcv⟩
    exact ⟨c, (uncovered_sublist _ _ _).subset hc, hcv⟩
  · rintro ⟨c, hc, hcv⟩
    obtain ⟨d, hd, hdv⟩ := hkept c hc (((hmerge c hc).admits_iff X).mpr hcv)
    exact ⟨d, hd, ((tidy_keptBranches hF hcs hd).admits_iff X).mp hdv⟩

lemma includes_of_covers {a b : Constraint} (ha : a ∈ mergeBools (flattenDisjList [] cs))
    (hb : b ∈ mergeBools (flattenDisjList [] cs)) (h : entails n [] a b) : Includes F a b := by
  have hflat : ∀ c ∈ flattenDisjList [] cs, c.Tidy F .plain := fun c hc =>
    hcs c ((flatten_sublist hF hcs).subset hc)
  exact includes_of_entails hF (tidy_mergeBools hflat a ha) (tidy_mergeBools hflat b hb) h

theorem holds_disjunction (hv : F.Covers v)
    (hw : AtMost (SameValues F) 2 v (mergeBools (flattenDisjList [] cs))) (X : Value → Prop) :
    (disjunction (n + 1) cs).Holds X v ↔ ∃ c ∈ cs, c.Holds X v := by
  refine holds_disjunction_of_kept hF hcs hv (fun c hc hcv => ?_) X
  obtain ⟨m, hm, hmax⟩ := exists_maximal_branch F hc hcv
  have hkept : ∃ d ∈ keptBranches n cs, d.admits v ∧ Includes F m d := by
    refine exists_mem_uncovered (fun a b c hsub ha hb hc _ _ => ?_) (fun a ha b hb hav hab => ?_)
      hm.1 ⟨hm.2, Includes.refl m⟩ (by simp)
    · -- three of the largest branches would have the same values
      have halike : ∀ d ∈ [a, b, c], d.admits v ∧ Includes F m d → SameValues F m d :=
        fun d hd h => ⟨h.2, hmax d (hsub.subset hd) h.1 h.2⟩
      have ham := (halike a (by simp) ha).symm
      have hbm := halike b (by simp) hb
      have hcm := halike c (by simp) hc
      have hthree : [a, b, c].length ≤ 2 := by
        refine hw.length_le ?_ ?_
        · simpa [ha.1, hb.1, hc.1] using hsub.filter (admits · v)
        · simpa using ⟨⟨ham.trans hbm, ham.trans hcm⟩, hbm.symm.trans hcm⟩
      exact absurd hthree (by simp)
    · have hle := includes_of_covers hF hcs ha hb hab
      exact ⟨hle v hv hav.1, hav.2.trans hle⟩
  exact hkept.imp fun d hd => ⟨hd.1, hd.2.1⟩

lemma holds_disjunction_of_width (hv : F.Covers v) (hw : Width F 2 v cs) (X : Value → Prop) :
    (disjunction (n + 1) cs).Holds X v ↔ ∃ c ∈ cs, c.Holds X v :=
  holds_disjunction hF hcs hv ((thins_mergeBools _ v).width
    (hw.of_subperm ((flatten_sublist hF hcs).filter _).subperm)).atMost_sameValues X

section Complete

variable (hcomplete : ∀ a b, a = .kind .bool ∨ a ∈ cs → b = .kind .bool ∨ b ∈ cs →
  Includes F a b → entails n [] a b)

include hcomplete

lemma holds_disjunction_of_complete (hv : F.Covers v) (X : Value → Prop) :
    (disjunction (n + 1) cs).Holds X v ↔ ∃ c ∈ cs, c.Holds X v := by
  refine holds_disjunction_of_kept hF hcs hv (fun c hc hcv => ?_) X
  refine exists_mem_uncovered (fun a b c hsub _ _ _ hab hbc => ?_)
    (fun a ha b hb hav hab => includes_of_covers hF hcs ha hb hab v hv hav) hc hcv (by simp)
  have hmem : ∀ d ∈ [a, b, c], d ∈ mergeBools (flattenDisjList [] cs) := fun d hd => hsub.subset hd
  have hform : ∀ d ∈ [a, b, c], d = .kind .bool ∨ d ∈ cs := fun d hd =>
    (mem_mergeBools (hmem d hd)).imp_right fun h => (flatten_sublist hF hcs).subset h
  have hab := includes_of_covers hF hcs (hmem a (by simp)) (hmem b (by simp)) hab
  have hbc := includes_of_covers hF hcs (hmem b (by simp)) (hmem c (by simp)) hbc
  exact hcomplete a c (hform a (by simp)) (hform c (by simp)) (hab.trans hbc)

lemma width_disjunction_of_complete : Width F 1 v (branchesOf (disjunction (n + 1) cs)) := by
  rcases branchesOf_disjunction hF hcs n with ⟨he, -⟩ | he | he <;> rw [he]
  · exact atMost_of_countP List.countP_le_length
  · exact atMost_of_countP List.countP_le_length
  · have hkept : (keptBranches n cs).Pairwise fun a b => ¬ Comparable F a b := by
      refine (pairwise_uncovered _ _ _).imp_of_mem fun {a b} ha hb hab => ?_
      have ha := mem_keptBranches hF hcs ha
      have hb := mem_keptBranches hF hcs hb
      rintro (h | h)
      · simp [hcomplete a b ha hb h] at hab
      · simp [hcomplete b a hb ha h] at hab
    have hsort := (sort_perm (keptBranches n cs)).symm.pairwise hkept fun h h' => h h'.symm
    exact atMost_of_pairwise (hsort.sublist (dedup_sublist _))

end Complete

end Tidy

/-! ### Normal forms of unions -/

lemma simplify_disj_eq (cs : List Constraint) : ∃ n, (∀ c ∈ cs, 4 * c.size < n) ∧ 2 ≤ n ∧
    simplify (.disj cs) = disjunction (n + 1) (cs.map (normalize (n + 1))) := by
  have hsize : (Constraint.disj cs).size = sizeList cs + 1 := rfl
  have hle := four_mul_lt_allowance (Constraint.disj cs).size
  obtain ⟨n, hn⟩ : ∃ n, allowance (Constraint.disj cs).size = n + 2 :=
    ⟨allowance (Constraint.disj cs).size - 2, by omega⟩
  refine ⟨n, fun c hc => ?_, by omega, by rw [simplify, hn]; rfl⟩
  have hc := size_le_sizeList hc
  omega

section Fits

variable {F : Fragment} (hF : F.IsFlat) {cs : List Constraint} {v : Value}
  (hcs : ∀ c ∈ cs, c.Fits F false .plain)

include hF hcs

lemma tidy_map_normalize {n : Nat} (hn : ∀ c ∈ cs, c.size ≤ n) :
    ∀ c ∈ cs.map (normalize n), c.Tidy F .plain :=
  List.forall_mem_map.mpr fun c hc => (isNormal_flat hF (hcs c hc) (hn c hc)).tidy

lemma countP_map_normalize {n : Nat} (hn : ∀ c ∈ cs, c.size ≤ n) (hv : F.Covers v) :
    (cs.map (normalize n)).countP (admits · v) = cs.countP (admits · v) := by
  rw [List.countP_map]
  exact List.countP_congr fun c hc => admits_normalize hF (hcs c hc) (hn c hc) hv

lemma width_map_normalize {m n : Nat} (hn : ∀ c ∈ cs, c.size ≤ n) (hv : F.Covers v)
    (hw : Width F m v cs) : Width F m v (cs.map (normalize n)) :=
  hw.map (fun c hc _ hw => admits_normalize hF (hcs c hc) (hn c hc) hw) hv

lemma mem_branchesOf_simplify {b : Constraint} (hb : b ∈ branchesOf (simplify (.disj cs))) :
    b = .never ∨ b = .kind .bool ∨ ∃ c ∈ cs, ∃ n, c.size ≤ n + 1 ∧ b = normalize (n + 1) c := by
  obtain ⟨n, hn, -, he⟩ := simplify_disj_eq cs
  have hsize : ∀ c ∈ cs, c.size ≤ n + 1 := fun c hc => by have := hn c hc; omega
  rw [he] at hb
  refine (mem_branchesOf_disjunction hF (tidy_map_normalize hF hcs hsize) hb).imp_right
    (Or.imp_right fun hb => ?_)
  obtain ⟨c, hc, rfl⟩ := List.mem_map.mp hb
  exact ⟨c, hc, n, hsize c hc, rfl⟩

lemma tidy_branchesOf_simplify {b : Constraint} (hb : b ∈ branchesOf (simplify (.disj cs))) :
    b.Tidy F .plain := by
  obtain ⟨n, hn, -, he⟩ := simplify_disj_eq cs
  have hsize : ∀ c ∈ cs, c.size ≤ n + 1 := fun c hc => by have := hn c hc; omega
  exact tidy_branchesOf_disjunction hF (tidy_map_normalize hF hcs hsize) (he ▸ hb)

lemma countP_branchesOf_simplify_le (hv : F.Covers v) :
    (branchesOf (simplify (.disj cs))).countP (admits · v) ≤ cs.countP (admits · v) := by
  obtain ⟨n, hn, -, he⟩ := simplify_disj_eq cs
  have hsize : ∀ c ∈ cs, c.size ≤ n + 1 := fun c hc => by have := hn c hc; omega
  rw [he, ← countP_map_normalize hF hcs hsize hv]
  exact (thins_disjunction hF (tidy_map_normalize hF hcs hsize) n v).countP_le

lemma isFixFree_simplify_disj : (simplify (.disj cs)).isFixFree :=
  isFixFree_of_branches fun _ hb => tidy_branchesOf_simplify hF hcs hb

lemma branches_disj : branches (.disj cs) = branchesOf (simplify (.disj cs)) := by
  have hfix := isFixFree_simplify_disj hF hcs
  unfold branches
  split
  · next body he => simp [he, isFixFree] at hfix
  · rfl

lemma admits_simplify_disj_of_holds {n : Nat} (hn : ∀ c ∈ cs, c.size ≤ n + 1)
    (he : simplify (.disj cs) = disjunction (n + 1) (cs.map (normalize (n + 1))))
    (hv : F.Covers v)
    (h : (disjunction (n + 1) (cs.map (normalize (n + 1)))).Holds (fun _ => True) v ↔
      ∃ c ∈ cs.map (normalize (n + 1)), c.Holds (fun _ => True) v) :
    (simplify (.disj cs)).admits v ↔ ∃ c ∈ cs, c.admits v := by
  rw [admits_iff_holds (isFixFree_simplify_disj hF hcs) fun _ => True, he, h]
  simp only [List.mem_map, exists_exists_and_eq_and]
  refine exists_congr fun c => and_congr_right fun hc => ?_
  rw [(hcs c hc).admits_iff fun _ => True]
  exact (isNormal_flat hF (hcs c hc) (hn c hc)).holds _ v hv

theorem admits_simplify_disj (hv : F.Covers v) (hcount : cs.countP (admits · v) ≤ 2) :
    (simplify (.disj cs)).admits v ↔ ∃ c ∈ cs, c.admits v := by
  obtain ⟨n, hn, -, he⟩ := simplify_disj_eq cs
  have hsize : ∀ c ∈ cs, c.size ≤ n + 1 := fun c hc => by have := hn c hc; omega
  exact admits_simplify_disj_of_holds hF hcs hsize he hv
    (holds_disjunction_of_width hF (tidy_map_normalize hF hcs hsize) hv
      (width_map_normalize hF hcs hsize hv (atMost_of_countP hcount)) _)

/-- As both truth values are merged, their kind counts as one of the branches. -/
theorem admits_simplify_disj_of_sameValues (hv : F.Covers v)
    (hw : AtMost (SameValues F) 2 v (.kind .bool :: cs)) :
    (simplify (.disj cs)).admits v ↔ ∃ c ∈ cs, c.admits v := by
  obtain ⟨n, hn, -, he⟩ := simplify_disj_eq cs
  have hsize : ∀ c ∈ cs, c.size ≤ n + 1 := fun c hc => by have := hn c hc; omega
  have htidy := tidy_map_normalize hF hcs hsize
  have hmap : AtMost (SameValues F) 2 v ((Constraint.kind .bool :: cs).map (normalize (n + 1))) :=
    hw.map_sameValues (List.forall_mem_cons.mpr ⟨fun _ _ => Iff.rfl,
      fun c hc _ hw => admits_normalize hF (hcs c hc) (hsize c hc) hw⟩) hv
  have hsub : (mergeBools (flattenDisjList [] (cs.map (normalize (n + 1))))).Subperm
      ((Constraint.kind .bool :: cs).map (normalize (n + 1))) :=
    (mergeBools_subperm _).trans ((flatten_sublist hF htidy).cons_cons _).subperm
  exact admits_simplify_disj_of_holds hF hcs hsize he hv
    (holds_disjunction hF htidy hv (hmap.of_subperm (hsub.filter _)) _)

lemma admits_simplify_filter (hv : F.Covers v) (hcount : cs.countP (admits · v) ≤ 2)
    (q : Constraint → Bool) : (simplify (.disj ((branches (.disj cs)).filter q))).admits v ↔
      ∃ b ∈ branches (.disj cs), q b ∧ b.admits v := by
  have hfits : ∀ b ∈ (branches (.disj cs)).filter q, b.Fits F false .plain := by
    intro b hb
    rw [branches_disj hF hcs] at hb
    exact (tidy_branchesOf_simplify hF hcs (List.mem_of_mem_filter hb)).of_tidy
  have hle : ((branches (.disj cs)).filter q).countP (admits · v) ≤ 2 := by
    rw [branches_disj hF hcs]
    exact Nat.le_trans List.filter_sublist.countP_le
      (Nat.le_trans (countP_branchesOf_simplify_le hF hcs hv) hcount)
  rw [admits_simplify_disj hF hfits hv hle]
  simp only [List.mem_filter, and_assoc]

end Fits

/-! ### Unions of unions -/

structure IsUnion (F : Fragment) (tidy : Bool) (m : Nat) (v : Value) (c : Constraint) : Prop where
  fits : ∀ b ∈ branchesOf c, b.Fits F tidy .plain
  width : Width F m v (branchesOf c)

section IsUnion

variable {F : Fragment} (hF : F.IsFlat) {a b c : Constraint} {v : Value} {tidy : Bool} {m k n : Nat}

lemma IsUnion.of_tidy (h : IsUnion F true m v c) : IsUnion F false m v c :=
  ⟨fun b hb => (h.fits b hb).of_tidy, h.width⟩

lemma IsUnion.admits_iff (h : IsUnion F tidy m v c) :
    c.admits v ↔ ∃ b ∈ branchesOf c, b.Holds (fun _ => True) v := by
  rw [admits_iff_holds (isFixFree_of_branches h.fits) fun _ => True, holds_iff_branchesOf]

include hF

lemma isUnion_of_fits (h : c.Fits F tidy .plain) : IsUnion F tidy 1 v c := by
  have hc : branchesOf c = [c] := by
    cases c with
    | disj => exact absurd (fits_disj.mp h).1 (by simp [hF.unions])
    | _ => rfl
  refine ⟨fun b hb => ?_, atMost_of_countP (Nat.le_trans List.countP_le_length (by simp [hc]))⟩
  rw [hc, List.mem_singleton] at hb
  rwa [hb]

lemma isUnion_disjunction {cs : List Constraint} (hcs : ∀ c ∈ cs, c.Tidy F .plain)
    (hw : Width F m v cs) : IsUnion F true m v (disjunction (n + 1) cs) :=
  ⟨fun _ hb => tidy_branchesOf_disjunction hF hcs hb, (thins_disjunction hF hcs n v).width hw⟩

theorem IsUnion.normalize (h : IsUnion F false m v c) (hm : m ≤ 2) (hv : F.Covers v)
    (hn : c.size < n) :
    IsUnion F true m v (c.normalize n) ∧ ((c.normalize n).admits v ↔ c.admits v) := by
  by_cases hdisj : ∃ bs, c = .disj bs
  · obtain ⟨bs, rfl⟩ := hdisj
    have hfits : ∀ b ∈ bs, b.Fits F false .plain := h.fits
    have hsize : (Constraint.disj bs).size = sizeList bs + 1 := rfl
    obtain ⟨j, rfl⟩ : ∃ j, n = j + 2 := ⟨n - 2, by omega⟩
    have hle : ∀ b ∈ bs, b.size ≤ j + 1 := fun b hb => by
      have := size_le_sizeList hb
      omega
    have htidy := tidy_map_normalize hF hfits hle
    have hwidth := width_map_normalize hF hfits hle hv h.width
    have hunion :
        IsUnion F true m v (disjunction (j + 1) (bs.map (Constraint.normalize (j + 1)))) :=
      isUnion_disjunction hF htidy hwidth
    refine ⟨hunion, ?_⟩
    show (disjunction (j + 1) (bs.map (Constraint.normalize (j + 1)))).admits v ↔ _
    rw [hunion.admits_iff, h.admits_iff, ← holds_iff_branchesOf, ← holds_iff_branchesOf,
      holds_disjunction_of_width hF htidy hv (hwidth.mono hm), holds_disj]
    simp only [List.mem_map, exists_exists_and_eq_and]
    exact exists_congr fun b => and_congr_right fun hb =>
      (isNormal_flat hF (hfits b hb) (hle b hb)).holds _ v hv
  · have hc : branchesOf c = [c] := by
      cases c with
      | disj bs => exact absurd ⟨bs, rfl⟩ hdisj
      | _ => rfl
    have hfits : c.Fits F false .plain := h.fits c (by simp [hc])
    have hadmits := fun w => admits_normalize hF hfits (Nat.le_of_lt hn) (v := w)
    have htidy := (isNormal_flat hF hfits (Nat.le_of_lt hn)).tidy
    refine ⟨⟨(isUnion_of_fits hF htidy (v := v)).fits, ?_⟩, hadmits v hv⟩
    rw [branchesOf_of_tidy hF htidy]
    exact (hc ▸ h.width).map (by simpa using hadmits) hv

lemma IsUnion.simplify (h : IsUnion F false m v c) (hm : m ≤ 2) (hv : F.Covers v) :
    IsUnion F true m v c.simplify ∧ (c.simplify.admits v ↔ c.admits v) := by
  have hle := four_mul_lt_allowance c.size
  rw [Constraint.simplify]
  exact h.normalize hF hm hv (by omega)

theorem IsUnion.union (ha : IsUnion F false m v a) (hb : IsUnion F false k v b) (hm : m + k ≤ 2)
    (hv : F.Covers v) : IsUnion F true (m + k) v (a.union b) ∧
      ((a.union b).admits v ↔ a.admits v ∨ b.admits v) := by
  obtain ⟨n, hn, -, he⟩ := simplify_disj_eq [a, b]
  simp only [List.mem_cons, List.not_mem_nil, or_false, forall_eq_or_imp, forall_eq] at hn
  obtain ⟨hna, haa⟩ := ha.normalize hF (by omega) hv (show a.size < n + 1 by omega)
  obtain ⟨hnb, hbb⟩ := hb.normalize hF (by omega) hv (show b.size < n + 1 by omega)
  have hwidth := hna.width.append hnb.width
  have htidy : ∀ c ∈ branchesOf (a.normalize (n + 1)) ++ branchesOf (b.normalize (n + 1)),
      c.Tidy F .plain := List.forall_mem_append.mpr ⟨hna.fits, hnb.fits⟩
  have hflat : (disjunction (n + 1) [a.normalize (n + 1), b.normalize (n + 1)]) =
      disjunction (n + 1)
        (branchesOf (a.normalize (n + 1)) ++ branchesOf (b.normalize (n + 1))) := by
    rw [← disjunction_branches]
    simp
  have hunion := isUnion_disjunction hF htidy hwidth (n := n)
  rw [Constraint.union, he, List.map_cons, List.map_cons, List.map_nil, hflat]
  refine ⟨hunion, ?_⟩
  rw [hunion.admits_iff, ← holds_iff_branchesOf,
    holds_disjunction_of_width hF htidy hv (hwidth.mono hm), ← haa, ← hbb, hna.admits_iff, hnb.admits_iff]
  simp only [List.mem_append, or_and_right, exists_or]

end IsUnion

end Constraint

end Stagewise
