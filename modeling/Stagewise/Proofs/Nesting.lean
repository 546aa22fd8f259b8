import Mathlib.Data.Nat.Fib.Basic
import Stagewise.Proofs.Normal
import Stagewise.Proofs.Questions

/-! How deep constraints without recursion are nested, and that the steps towards a normal form
keep within the same depth. Depth is counted apart for the parts of a value, for the negations
around each part, and for the conjunctions and disjunctions between two negations. A normal form
may be nested more deeply than what it comes from: two negations that meet cancel, and what was
between two negations then stands below what was around them. The heights that are allowed grow
like the Fibonacci numbers for that. -/

set_option autoImplicit false

namespace Stagewise.Constraint

def isConj : Constraint → Bool
  | .conj _ => true
  | _ => false

lemma isConj_iff {c : Constraint} : c.isConj ↔ ∃ cs, c = .conj cs := by
  cases c <;> simp [isConj]

/-- The room for a constraint: the height of what was there at first, how often that may have been
normalised since, how deep negations may be nested here, and how deep at each level below. -/
structure Room where
  base : Nat
  age : Nat
  here : Nat
  below : List Nat

namespace Room

def cap (r : Room) : Nat := r.base * Nat.fib (r.here + r.age + 2)

def spare (r : Room) : Nat := r.base * Nat.fib (r.here + r.age + 1)

def inNeg (r : Room) : Room := { r with here := r.here - 1 }

def inPart (r : Room) : Room := { r with here := r.below.headD 0, below := r.below.tail }

def older (r : Room) : Room := { r with age := r.age + 1 }

def withHere (r : Room) (e : Nat) : Room := { r with here := e }

lemma cap_older (r : Room) : r.older.cap = r.cap + r.spare := by
  have hfib : Nat.fib (r.here + (r.age + 1) + 2) =
      Nat.fib (r.here + r.age + 1) + Nat.fib (r.here + r.age + 2) :=
    Nat.fib_add_two
  simp only [cap, spare, older, hfib, Nat.mul_add]
  omega

def Covered : List Nat → List Nat → Prop
  | [], _ => True
  | _ :: _, [] => False
  | a :: as, b :: bs => a ≤ b ∧ Covered as bs

lemma Covered.refl : ∀ as : List Nat, Covered as as
  | [] => trivial
  | a :: as => ⟨Nat.le_refl a, Covered.refl as⟩

structure Le (r s : Room) : Prop where
  base : r.base ≤ s.base
  age : r.age ≤ s.age
  here : r.here ≤ s.here
  below : Covered r.below s.below

variable {r s : Room}

lemma Le.refl (r : Room) : r.Le r := ⟨Nat.le_refl _, Nat.le_refl _, Nat.le_refl _, .refl _⟩

lemma withHere_le {e : Nat} (h : e ≤ r.here) : (r.withHere e).Le r :=
  ⟨Nat.le_refl _, Nat.le_refl _, h, .refl _⟩

lemma withHere_mono {d e : Nat} (h : d ≤ e) : (r.withHere d).Le (r.withHere e) :=
  ⟨Nat.le_refl _, Nat.le_refl _, h, .refl _⟩

lemma Le.cap_le (h : r.Le s) : r.cap ≤ s.cap :=
  Nat.mul_le_mul h.base
    (Nat.fib_mono (Nat.add_le_add_right (Nat.add_le_add h.here h.age) 2))

lemma Le.inNeg (h : r.Le s) : r.inNeg.Le s.inNeg :=
  ⟨h.base, h.age, Nat.sub_le_sub_right h.here 1, h.below⟩

lemma Le.below_ne_nil (h : r.Le s) (hr : r.below ≠ []) : s.below ≠ [] := by
  intro hs
  have hb := h.below
  rw [hs] at hb
  cases hrb : r.below with
  | nil => exact hr hrb
  | cons a as => simp [hrb, Covered] at hb

lemma Le.inPart (h : r.Le s) : r.inPart.Le s.inPart := by
  have hb := h.below
  cases hr : r.below with
  | nil => exact ⟨h.base, h.age, by simp [Room.inPart, hr], by simp [Room.inPart, hr, Covered]⟩
  | cons a as =>
    cases hs : s.below with
    | nil => simp [hr, hs, Covered] at hb
    | cons b bs =>
      simp only [hr, hs, Covered] at hb
      exact ⟨h.base, h.age, by simpa [Room.inPart, hr, hs] using hb.1,
        by simpa [Room.inPart, hr, hs] using hb.2⟩

end Room

mutual

def isRecursionFree : Constraint → Bool
  | .field _ c | .elements c | .length c | .elementAt _ c | .neg c => c.isRecursionFree
  | .conj cs | .disj cs => areRecursionFree cs
  | .fix _ => false
  | _ => true
termination_by structural c => c

def areRecursionFree : List Constraint → Bool
  | [] => true
  | c :: cs => c.isRecursionFree && areRecursionFree cs
termination_by structural cs => cs

end

mutual

/-- The constraint has no recursion, its literals are well formed, and it fits in a room with a
height. A conjunction adds to the height only as a member of another. -/
def Fills : Constraint → Room → Nat → Prop
  | .equals v, _, _ => v.isWellFormed
  | .field _ c, r, _ | .elements c, r, _ | .length c, r, _ | .elementAt _ c, r, _ =>
    r.below ≠ [] ∧ Fills c r.inPart r.inPart.cap
  | .neg c, r, _ => 0 < r.here ∧ Fills c r.inNeg r.inNeg.cap
  | .disj cs, r, m => 0 < m ∧ AllFill cs r (m - 1)
  | .conj cs, r, m => MembersFill cs r m
  | .fix _, _, _ => False
  | _, _, _ => True
termination_by structural c => c

def AllFill : List Constraint → Room → Nat → Prop
  | [], _, _ => True
  | c :: cs, r, m => Fills c r m ∧ AllFill cs r m
termination_by structural cs => cs

def MembersFill : List Constraint → Room → Nat → Prop
  | [], _, _ => True
  | c :: cs, r, m =>
    (if c.isConj then 0 < m ∧ Fills c r (m - 1) else Fills c r m) ∧ MembersFill cs r m
termination_by structural cs => cs

end

section Fills

variable {c d : Constraint} {cs : List Constraint} {r s : Room} {m k : Nat}

lemma allFill_iff : AllFill cs r m ↔ ∀ c ∈ cs, c.Fills r m := by
  induction cs with
  | nil => simp [AllFill]
  | cons c cs ih => simp [AllFill, ih]

lemma membersFill_iff : MembersFill cs r m ↔
    ∀ c ∈ cs, if c.isConj then 0 < m ∧ c.Fills r (m - 1) else c.Fills r m := by
  induction cs with
  | nil => simp [MembersFill]
  | cons c cs ih => simp [MembersFill, ih]

lemma fills_disj : (disj cs).Fills r m ↔ 0 < m ∧ ∀ c ∈ cs, c.Fills r (m - 1) := by
  rw [Fills, allFill_iff]

lemma fills_conj : (conj cs).Fills r m ↔
    ∀ c ∈ cs, if c.isConj then 0 < m ∧ c.Fills r (m - 1) else c.Fills r m := by
  rw [Fills, membersFill_iff]

lemma fills_neg : (neg c).Fills r m ↔ 0 < r.here ∧ c.Fills r.inNeg r.inNeg.cap := by
  rw [Fills]

mutual

theorem Fills.mono : ∀ {c : Constraint} {r s : Room} {m k : Nat}, c.Fills r m → r.Le s → m ≤ k →
    c.Fills s k
  | .field _ c, _, _, _, _, hc, h, _ | .elements c, _, _, _, _, hc, h, _
  | .length c, _, _, _, _, hc, h, _ | .elementAt _ c, _, _, _, _, hc, h, _ => by
    simp only [Fills] at hc ⊢
    exact ⟨h.below_ne_nil hc.1, Fills.mono hc.2 h.inPart h.inPart.cap_le⟩
  | .neg c, _, _, _, _, hc, h, _ => by
    simp only [Fills] at hc ⊢
    exact ⟨Nat.lt_of_lt_of_le hc.1 h.here, Fills.mono hc.2 h.inNeg h.inNeg.cap_le⟩
  | .disj cs, _, _, _, _, hc, h, hm => by
    simp only [Fills] at hc ⊢
    exact ⟨by omega, AllFill.mono hc.2 h (by omega)⟩
  | .conj cs, _, _, _, _, hc, h, hm => by
    simp only [Fills] at hc ⊢
    exact MembersFill.mono hc h hm
  | .equals v, _, _, _, _, hc, _, _ => by simpa only [Fills] using hc
  | .fix _, _, _, _, _, hc, _, _ => by simp only [Fills] at hc
  | .kind _, _, _, _, _, _, _, _ | .bound _ _, _, _, _, _, _, _, _ | .bvar _, _, _, _, _, _, _, _
  | .ref _, _, _, _, _, _, _, _ | .var _, _, _, _, _, _, _, _ | .any, _, _, _, _, _, _, _
  | .never, _, _, _, _, _, _, _ => by simp only [Fills]

theorem AllFill.mono : ∀ {cs : List Constraint} {r s : Room} {m k : Nat}, AllFill cs r m →
    r.Le s → m ≤ k → AllFill cs s k
  | [], _, _, _, _, _, _, _ => by simp only [AllFill]
  | c :: cs, _, _, _, _, hc, h, hm => by
    simp only [AllFill] at hc ⊢
    exact ⟨Fills.mono hc.1 h hm, AllFill.mono hc.2 h hm⟩

theorem MembersFill.mono : ∀ {cs : List Constraint} {r s : Room} {m k : Nat},
    MembersFill cs r m → r.Le s → m ≤ k → MembersFill cs s k
  | [], _, _, _, _, _, _, _ => by simp only [MembersFill]
  | c :: cs, _, _, _, _, hc, h, hm => by
    simp only [MembersFill] at hc ⊢
    refine ⟨?_, MembersFill.mono hc.2 h hm⟩
    split_ifs at hc ⊢
    · exact ⟨by omega, Fills.mono hc.1.2 h (by omega)⟩
    · exact Fills.mono hc.1 h hm

end

lemma Fills.of_le (h : c.Fills r m) (hm : m ≤ k) : c.Fills r k := h.mono (.refl r) hm

lemma Fills.members (h : (conj cs).Fills r m) : ∀ c ∈ cs, c.Fills r m := by
  intro c hc
  have hcm := fills_conj.mp h c hc
  split_ifs at hcm
  · exact hcm.2.of_le (Nat.sub_le m 1)
  · exact hcm

lemma Fills.branches (h : (disj cs).Fills r (m + 1)) : ∀ c ∈ cs, c.Fills r m :=
  (fills_disj.mp h).2

lemma fills_conj_of_forall (hflat : ∀ c ∈ cs, c.isConj = false) (h : ∀ c ∈ cs, c.Fills r m) :
    (conj cs).Fills r m :=
  fills_conj.mpr fun c hc => by simpa [hflat c hc] using h c hc

lemma fills_disj_of_forall (h : ∀ c ∈ cs, c.Fills r m) : (disj cs).Fills r (m + 1) :=
  fills_disj.mpr ⟨Nat.succ_pos m, by simpa using h⟩

lemma Fills.flat (h : c.Fills r m) (hconj : c.isConj = false) (hdisj : c.isDisj = false) :
    c.Fills r k := by
  cases c <;> simp_all [Fills, isConj, isDisj]

lemma Fills.atom {e : Nat} (h : c.Fills r m) (hconj : c.isConj = false) (hdisj : c.isDisj = false)
    (hneg : c.isNeg = false) : c.Fills (r.withHere e) k := by
  cases c <;> simp_all [Fills, isConj, isDisj, isNeg, Room.withHere, Room.inPart]

lemma fills_of_kind?_number (h : c.kind? = some .number) : c.Fills r m := by
  rcases kind?_number_cases h with rfl | ⟨q, n, rfl⟩ | ⟨n, rfl⟩ <;>
    simp [Fills, Value.isWellFormed]

structure IsPlain (c : Constraint) : Prop where
  isRecursionFree : c.isRecursionFree
  isWellFormed : c.isWellFormed

lemma isPlain_list (h : ∀ c ∈ cs, c.IsPlain) : areRecursionFree cs ∧ areWellFormed cs := by
  induction cs with
  | nil => simp [areRecursionFree, areWellFormed]
  | cons c cs ih =>
    rw [List.forall_mem_cons] at h
    simp [areRecursionFree, areWellFormed, h.1.isRecursionFree, h.1.isWellFormed, ih h.2]

lemma isPlain_conj (h : ∀ c ∈ cs, c.IsPlain) : (conj cs).IsPlain :=
  ⟨by simpa only [isRecursionFree] using (isPlain_list h).1,
    by simpa only [isWellFormed] using (isPlain_list h).2⟩

lemma isPlain_disj (h : ∀ c ∈ cs, c.IsPlain) : (disj cs).IsPlain :=
  ⟨by simpa only [isRecursionFree] using (isPlain_list h).1,
    by simpa only [isWellFormed] using (isPlain_list h).2⟩

theorem Fills.isPlain : ∀ {c : Constraint} {r : Room} {m : Nat}, c.Fills r m → c.IsPlain
  | .field _ c, _, _, h | .elements c, _, _, h | .length c, _, _, h | .elementAt _ c, _, _, h
  | .neg c, _, _, h => by
    simp only [Fills] at h
    obtain ⟨hfree, hwell⟩ := h.2.isPlain
    exact ⟨by simpa only [isRecursionFree] using hfree, by simpa only [isWellFormed] using hwell⟩
  | .disj cs, _, _, h => isPlain_disj fun c hc => ((fills_disj.mp h).2 c hc).isPlain
  | .conj cs, _, _, h => isPlain_conj fun c hc => (h.members c hc).isPlain
  | .equals v, _, _, h =>
    ⟨by simp only [isRecursionFree], by simpa only [Fills, isWellFormed] using h⟩
  | .fix _, _, _, h => by simp only [Fills] at h
  | .kind _, _, _, _ | .bound _ _, _, _, _ | .bvar _, _, _, _ | .ref _, _, _, _ | .var _, _, _, _
  | .any, _, _, _ | .never, _, _, _ => ⟨by simp only [isRecursionFree], by simp only [isWellFormed]⟩

/-! ### Flattening and ordering -/

lemma isConj_eq_false_of_isFlat (h : c.isFlat) : c.isConj = false := by
  cases c <;> simp_all [isFlat, isConj]

lemma fills_flattenConjList {acc : List Constraint} (ha : ∀ d ∈ acc, d.Fills r m ∧ d.isFlat)
    (h : ∀ c ∈ cs, c.Fills r m) : ∀ d ∈ flattenConjList acc cs, d.Fills r m ∧ d.isFlat :=
  forall_mem_flattenConjList (fun h => h.members) (fun h hf => ⟨h, hf⟩) ha h

lemma fills_compared (h : ∀ c ∈ cs, c.Fills r m) :
    ∀ c ∈ mergeBools (flattenDisjList [] cs), c.Fills r m := by
  refine forall_mem_mergeBools (by simp [Fills])
    (forall_mem_flattenDisjList ?_ (fun h _ _ => h) (by simp) h)
  exact fun hd c hc => ((fills_disj.mp hd).2 c hc).of_le (Nat.sub_le m 1)

lemma fills_finishConj (hflat : ∀ c ∈ cs, c.isConj = false) (h : ∀ c ∈ cs, c.Fills r m) :
    (finishConj cs).Fills r m := by
  simp only [finishConj]
  split
  · simp [Fills]
  · next c hd => exact h c (mem_of_mem_dedup_sort (by simp [hd]))
  · exact fills_conj_of_forall (fun c hc => hflat c (mem_of_mem_dedup_sort hc))
      fun c hc => h c (mem_of_mem_dedup_sort hc)

lemma fills_finishDisj (h : ∀ c ∈ cs, c.Fills r m) : (finishDisj cs).Fills r (m + 1) := by
  simp only [finishDisj]
  split
  · simp [Fills]
  · next c hd => exact (h c (mem_of_mem_dedup_sort (by simp [hd]))).of_le (Nat.le_succ m)
  · exact fills_disj_of_forall fun c hc => h c (mem_of_mem_dedup_sort hc)

lemma fills_disj_step {l : Answers} (h : ∀ c ∈ cs, c.Fills r m) :
    (l.step.disj cs).Fills r (m + 1) := by
  simp only [Answers.step]
  split_ifs
  · simp [Fills]
  · exact fills_finishDisj fun c hc => fills_compared h c ((uncovered_sublist _ _ _).subset hc)

/-! ### Distribution -/

lemma mem_combinations {start ds combo : List Constraint} (h : combo ∈ combinations start ds) :
    ∀ c ∈ combo, c ∈ start ∨ ∃ d ∈ ds, c ∈ branchesOf d := by
  rw [combinations_eq] at h
  have hi : ∀ combos : List (List Constraint), combo ∈ ds.foldl extendCombos combos →
      ∃ old ∈ combos, ∀ c ∈ combo, c ∈ old ∨ ∃ d ∈ ds, c ∈ branchesOf d := by
    clear h
    induction ds with
    | nil => exact fun combos h => ⟨combo, h, fun c hc => Or.inl hc⟩
    | cons d ds ih =>
      intro combos h
      obtain ⟨old, hold, hmem⟩ := ih _ h
      simp only [extendCombos, List.mem_flatMap, List.mem_map] at hold
      obtain ⟨first, hfirst, b, hb, rfl⟩ := hold
      refine ⟨first, hfirst, fun c hc => ?_⟩
      rcases hmem c hc with hc | ⟨e, he, hce⟩
      · rcases List.mem_append.mp hc with hc | hc
        · exact Or.inl hc
        · exact Or.inr ⟨d, List.mem_cons_self, by simp_all⟩
      · exact Or.inr ⟨e, List.mem_cons_of_mem _ he, hce⟩
  obtain ⟨old, hold, hmem⟩ := hi [start] h
  rw [List.mem_singleton] at hold
  exact hold ▸ hmem

lemma fills_alternatives {flat combo : List Constraint}
    (hflat : ∀ c ∈ flat, c.Fills r (m + 1) ∧ c.isFlat) (h : combo ∈ alternatives flat) :
    ∀ c ∈ combo, c.Fills r m := by
  intro c hc
  rcases mem_combinations h c hc with hc | ⟨d, hd, hcd⟩
  · rw [List.mem_filter, Bool.not_eq_true'] at hc
    obtain ⟨hfill, hf⟩ := hflat c hc.1
    exact hfill.flat (isConj_eq_false_of_isFlat hf) hc.2
  · rw [List.mem_filter] at hd
    obtain ⟨ds, rfl⟩ := isDisj_iff.mp hd.2
    exact (hflat _ hd.1).1.branches c hcd

lemma height_pos_of_isDistributed {flat : List Constraint} (h : ∀ c ∈ flat, c.Fills r m)
    (hd : isDistributed flat) : 0 < m := by
  have hne : flat.filter isDisj ≠ [] := by
    intro hnil
    simp [isDistributed, hnil] at hd
  obtain ⟨d, hd⟩ := List.exists_mem_of_ne_nil _ hne
  rw [List.mem_filter] at hd
  obtain ⟨ds, rfl⟩ := isDisj_iff.mp hd.2
  exact (fills_disj.mp (h _ hd.1)).1

/-! ### Parts -/

inductive IsPart : Constraint → Constraint → Prop
  | field (name : String) (c : Constraint) : IsPart (.field name c) c
  | elements (c : Constraint) : IsPart (.elements c) c
  | length (c : Constraint) : IsPart (.length c) c
  | elementAt (i : Nat) (c : Constraint) : IsPart (.elementAt i c) c

lemma IsPart.fills_iff (h : IsPart c d) :
    c.Fills r m ↔ r.below ≠ [] ∧ d.Fills r.inPart r.inPart.cap := by
  cases h <;> rw [Fills]

lemma IsPart.isFlat (h : IsPart c d) : c.isFlat := by
  cases h <;> rfl

section Merge

variable {conj plain : List Constraint → Constraint} {flat out : List Constraint}

lemma mem_groups {ds : List Constraint} (h : ds ∈ (Structure.ofList flat).groups conj)
    (hd : d ∈ ds) :
    (∃ c ∈ flat, IsPart c d) ∨ d ∈ mergedElements conj (Structure.ofList flat) := by
  have hall : (Structure.ofList flat).All (· ∈ flat) :=
    (Structure.all_ofList flat (· ∈ flat)).mpr fun c hc => hc
  obtain ⟨hf, he, hp, hl, _⟩ := hall
  simp only [Structure.groups, List.mem_append, List.mem_map, List.mem_singleton] at h
  rcases h with ((⟨q, hq, rfl⟩ | rfl) | ⟨q, hq, rfl⟩) | rfl
  · exact Or.inl ⟨_, hf q hq d hd, .field _ _⟩
  · exact Or.inl ⟨_, he d hd, .elements _⟩
  · rcases List.mem_append.mp hd with hd | hd
    · exact Or.inl ⟨_, hp q hq d hd, .elementAt _ _⟩
    · exact Or.inr hd
  · exact Or.inl ⟨_, hl d hd, .length _⟩

lemma mem_mergeStructure (h : mergeStructure conj plain flat = some out) (hc : c ∈ out) :
    c ∈ (Structure.ofList flat).others ∨ ∃ ds ∈ (Structure.ofList flat).groups conj, ds ≠ [] ∧
      IsPart c (conjoin conj ds) := by
  have hne := Structure.isGrouped_ofList flat
  obtain ⟨lengths, hl, rfl⟩ := mergeStructure_eq_some h
  generalize Structure.ofList flat = s at *
  simp only [List.mem_append, List.mem_map] at hc
  rcases hc with (((hc | ⟨q, hq, rfl⟩) | ⟨e, he, rfl⟩) | ⟨q, hq, rfl⟩) | hc
  · exact Or.inl hc
  · refine Or.inr ⟨q.2, ?_, hne.fields q hq, .field _ _⟩
    simp only [Structure.groups, List.mem_append, List.mem_map]
    exact Or.inl (Or.inl (Or.inl ⟨q, hq, rfl⟩))
  · simp only [mergedElements] at he
    split_ifs at he with hnil
    · simp at he
    · rw [List.mem_singleton] at he
      subst he
      exact Or.inr ⟨s.elements, by simp [Structure.groups], by simpa using hnil, .elements _⟩
  · refine Or.inr ⟨q.2 ++ mergedElements conj s, ?_, by simp [hne.positions q hq], .elementAt _ _⟩
    simp only [Structure.groups, List.mem_append, List.mem_map]
    exact Or.inl (Or.inr ⟨q, hq, rfl⟩)
  · simp only [mergedLength] at hl
    split_ifs at hl with hnil
    · simp_all
    · obtain rfl := Option.some.inj hl
      rw [List.mem_singleton] at hc
      subst hc
      exact Or.inr ⟨s.lengths, by simp [Structure.groups], by simpa using hnil, .length _⟩

end Merge

/-! ### Bounds, literals and negations -/

lemma NumericParts.negations_mem (cs : List Constraint) :
    (∀ b ∈ (ofList cs).negated, .neg (.bound b.1 b.2) ∈ cs) ∧
      ∀ n ∈ (ofList cs).excluded, .neg (.equals (.number n)) ∈ cs := by
  have hi : ∀ q : NumericParts,
      (∀ b ∈ (cs.foldl add q).negated, b ∈ q.negated ∨ .neg (.bound b.1 b.2) ∈ cs) ∧
        ∀ n ∈ (cs.foldl add q).excluded, n ∈ q.excluded ∨ .neg (.equals (.number n)) ∈ cs := by
    induction cs with
    | nil => simp
    | cons c cs ih =>
      intro q
      obtain ⟨hn, hx⟩ := ih (q.add c)
      constructor
      · intro b hb
        rcases hn b hb with h | h
        · unfold add at h
          split at h <;> grind
        · exact Or.inr (List.mem_cons_of_mem _ h)
      · intro n hn
        rcases hx n hn with h | h
        · unfold add at h
          split at h <;> grind
        · exact Or.inr (List.mem_cons_of_mem _ h)
  simpa [ofList] using hi {}

lemma mem_collapseBounds {out : List Constraint} (h : collapseBounds cs = some out) (hc : c ∈ out) :
    c ∈ cs ∨ c.kind? = some .number := by
  obtain ⟨hneg, hexcl⟩ := NumericParts.negations_mem cs
  have hothers := (NumericParts.others_sublist cs).subset
  have heq := collapseBounds_eq cs
  generalize NumericParts.ofList cs = q at *
  have hsub := NumericParts.exclude_subset q.narrowed q.excluded
  rcases he : NumericParts.exclude q.narrowed q.excluded with ⟨range, excluded⟩
  simp only [he] at heq hsub
  rw [heq] at h
  split_ifs at h
  obtain rfl := Option.some.inj h
  simp only [List.mem_append, List.mem_map] at hc
  rcases hc with ((hc | hc) | hc) | ⟨n, hn, rfl⟩
  · exact Or.inl (hothers hc)
  · simp only [NumericParts.keptNegated] at hc
    split_ifs at hc
    · simp at hc
    · obtain ⟨b, hb, rfl⟩ := List.mem_map.mp hc
      exact Or.inl (hneg b hb)
  · exact Or.inr (Interval.kind?_of_mem_bounds hc)
  · exact Or.inl (hexcl n (hsub hn))

section Resolve

variable {conj : List Constraint → Constraint} {entails : Constraint → Constraint → Bool}
  {ds out : List Constraint}

lemma resolve_sublist {context : Constraint}
    (h : resolveNegations.resolve conj entails context ds = some out) :
    out.Sublist ds ∧ positives out = positives ds := by
  induction ds generalizing out with
  | nil =>
    obtain rfl := Option.some.inj h
    exact ⟨.refl _, rfl⟩
  | cons c ds ih =>
    -- a conjunct that stays in front
    have hkeep : (resolveNegations.resolve conj entails context ds).map (c :: ·) = some out →
        out.Sublist (c :: ds) ∧ positives out = positives (c :: ds) := by
      intro h
      obtain ⟨rest, hr, rfl⟩ := Option.map_eq_some_iff.mp h
      obtain ⟨hs, hp⟩ := ih hr
      simp only [positives] at hp
      exact ⟨hs.cons_cons c, by simp only [positives, List.filter_cons, hp]⟩
    cases c with
    | neg d =>
      simp only [resolveNegations.resolve] at h
      split_ifs at h
      · obtain ⟨hs, hp⟩ := ih h
        exact ⟨hs.cons _, by simpa [positives, isNeg] using hp⟩
      · exact hkeep h
    | _ => exact hkeep h

lemma resolveNegations_sublist (h : resolveNegations conj entails ds = some out) :
    out.Sublist ds ∧ positives out = positives ds := by
  simp only [resolveNegations] at h
  split_ifs at h
  · obtain rfl := Option.some.inj h
    exact ⟨.refl _, rfl⟩
  · exact resolve_sublist h

lemma settle_cases (conj : List Constraint → Constraint)
    (entails : Constraint → Constraint → Bool) (common : Option Kind) (ds : List Constraint) :
    settle conj entails common ds = .never ∨ ∃ es, settle conj entails common ds = finishConj es ∧
      (∀ c ∈ es, c ∈ ds ∨ c.isKind) ∧
        (es.filter isDisj = [] ∨ es.filter isDisj = ds.filter isDisj) := by
  simp only [settle]
  split
  · next v vs hl =>
    split_ifs
    · simp only [absorb]
      split_ifs
      · refine Or.inr ⟨_, rfl, ?_, Or.inl ?_⟩
        · intro c hc
          rcases List.mem_cons.mp hc with rfl | hc
          · exact Or.inl (literals_spec hl).1
          · exact Or.inl (List.mem_of_mem_filter (List.mem_of_mem_filter hc))
        · rw [List.filter_eq_nil_iff]
          intro c hc
          rcases List.mem_cons.mp hc with rfl | hc
          · simp [isDisj]
          · have hopen := (List.mem_filter.mp hc).2
            cases c <;> simp_all [isOpen, isDisj]
      · exact Or.inl rfl
    · exact Or.inl rfl
  · split
    · exact Or.inl rfl
    · next es hr =>
      obtain ⟨hsub, hpos⟩ := resolveNegations_sublist hr
      refine Or.inr ⟨_, rfl, ?_, Or.inr ?_⟩
      · intro c hc
        rcases List.mem_append.mp hc with hc | hc
        · exact Or.inl (hsub.subset (List.mem_of_mem_filter hc))
        · cases common <;> simp_all [isKind]
      · -- disjunctions are neither kinds nor negations
        have hdisj : ∀ xs : List Constraint, (positives xs).filter isDisj = xs.filter isDisj := by
          intro xs
          rw [positives, List.filter_filter]
          exact List.filter_congr fun c _ => by cases c <;> rfl
        have hkind : (es.filter fun c => !c.isKind).filter isDisj = es.filter isDisj := by
          rw [List.filter_filter]
          exact List.filter_congr fun c _ => by cases c <;> rfl
        have hcommon : (common.map Constraint.kind).toList.filter isDisj = [] := by
          cases common <;> rfl
        rw [List.filter_append, hkind, hcommon, List.append_nil, ← hdisj es, hpos, hdisj]

end Resolve

section Gather

variable {conj plain : List Constraint → Constraint} {flat ds : List Constraint}
  {common : Option Kind}

lemma others_subset_flat : (Structure.ofList flat).others ⊆ flat :=
  ((Structure.all_ofList flat (· ∈ flat)).mpr fun _ hc => hc).2.2.2.2

lemma mem_gather (h : gather conj plain flat = some (common, ds)) (hc : c ∈ ds) :
    c ∈ flat ∨ (∃ group ∈ (Structure.ofList flat).groups conj, group ≠ [] ∧
      IsPart c (conjoin conj group)) ∨ c.kind? = some .number := by
  obtain ⟨cs, hm, h⟩ := Option.bind_eq_some_iff.mp h
  obtain ⟨known, hk, h⟩ := Option.bind_eq_some_iff.mp h
  obtain ⟨es, he, h⟩ := Option.map_eq_some_iff.mp h
  obtain ⟨rfl, rfl⟩ := Prod.mk.inj h
  have hcs : c ∈ cs ∨ c.kind? = some .number := by
    split_ifs at he
    · exact mem_collapseBounds he hc
    · exact Or.inl (Option.some.inj he ▸ hc)
  rcases hcs with hcs | hcs
  · rcases mem_mergeStructure hm hcs with ho | hp
    · exact Or.inl (others_subset_flat ho)
    · exact Or.inr (Or.inl hp)
  · exact Or.inr (Or.inr hcs)

lemma Structure.filter_isDisj_others (flat : List Constraint) :
    (ofList flat).others.filter isDisj = flat.filter isDisj := by
  have hi : ∀ s : Structure, (flat.foldl add s).others.filter isDisj =
      s.others.filter isDisj ++ flat.filter isDisj := by
    induction flat with
    | nil => simp
    | cons c flat ih =>
      intro s
      have hadd : (s.add c).others.filter isDisj = s.others.filter isDisj ++ [c].filter isDisj := by
        cases c <;> simp [add, List.filter_append] <;> rfl
      rw [List.foldl_cons, ih, hadd, List.append_assoc, ← List.filter_append, List.singleton_append]
  simpa [ofList] using hi {}

lemma NumericParts.filter_isDisj_others (cs : List Constraint) :
    (ofList cs).others.filter isDisj = cs.filter isDisj := by
  have hi : ∀ q : NumericParts, (cs.foldl add q).others.filter isDisj =
      q.others.filter isDisj ++ cs.filter isDisj := by
    induction cs with
    | nil => simp
    | cons c cs ih =>
      intro q
      have hadd : (q.add c).others.filter isDisj = q.others.filter isDisj ++ [c].filter isDisj := by
        unfold add
        split <;> simp [List.filter_append] <;> rfl
      rw [List.foldl_cons, ih, hadd, List.append_assoc, ← List.filter_append, List.singleton_append]
  simpa [ofList] using hi {}

lemma filter_isDisj_gather (h : gather conj plain flat = some (common, ds)) :
    ds.filter isDisj = flat.filter isDisj := by
  obtain ⟨cs, hm, h⟩ := Option.bind_eq_some_iff.mp h
  obtain ⟨known, hk, h⟩ := Option.bind_eq_some_iff.mp h
  obtain ⟨es, he, h⟩ := Option.map_eq_some_iff.mp h
  obtain ⟨rfl, rfl⟩ := Prod.mk.inj h
  have hmerge : cs.filter isDisj = flat.filter isDisj := by
    obtain ⟨lengths, hl, rfl⟩ := mergeStructure_eq_some hm
    have hlengths : lengths.filter isDisj = [] := by
      simp only [mergedLength] at hl
      split_ifs at hl <;> simp [← Option.some.inj hl, isDisj]
    simp [List.filter_append, List.filter_map, Function.comp_def, isDisj, hlengths,
      Structure.filter_isDisj_others]
  rw [← hmerge]
  split_ifs at he
  · have heq := collapseBounds_eq cs
    rcases hx : NumericParts.exclude (NumericParts.ofList cs).narrowed
      (NumericParts.ofList cs).excluded with ⟨range, excluded⟩
    simp only [hx] at heq
    rw [heq] at he
    split_ifs at he
    obtain rfl := Option.some.inj he
    have hneg : (NumericParts.ofList cs).keptNegated.filter isDisj = [] := by
      rw [List.filter_eq_nil_iff]
      intro c hc
      simp only [NumericParts.keptNegated] at hc
      split_ifs at hc
      · simp at hc
      · obtain ⟨b, _, rfl⟩ := List.mem_map.mp hc
        simp [isDisj]
    have hbounds : range.bounds.filter isDisj = [] := by
      rw [List.filter_eq_nil_iff]
      intro c hc
      have hk := Interval.kind?_of_mem_bounds hc
      cases c <;> simp_all [kind?, isDisj]
    simp [List.filter_append, hneg, hbounds, List.filter_map, Function.comp_def, isDisj,
      NumericParts.filter_isDisj_others]
  · rw [Option.some.inj he]

def GroupsFill (conj : List Constraint → Constraint) (flat : List Constraint) (r : Room) : Prop :=
  ∀ group ∈ (Structure.ofList flat).groups conj, group ≠ [] →
    r.below ≠ [] ∧ (conjoin conj group).Fills r.inPart r.inPart.cap

def Stems (conj : List Constraint → Constraint) (flat : List Constraint) (c : Constraint) : Prop :=
  c ∈ flat ∨ (∃ group ∈ (Structure.ofList flat).groups conj, group ≠ [] ∧
    IsPart c (conjoin conj group)) ∨ c.kind? = some .number ∨ c.isKind

lemma Stems.isFlat (h : Stems conj flat c) (hflat : ∀ c ∈ flat, c.isFlat) : c.isFlat := by
  rcases h with hc | ⟨group, _, _, hp⟩ | hk | hk
  · exact hflat c hc
  · exact hp.isFlat
  · cases c <;> simp_all [kind?, Constraint.isFlat]
  · cases c <;> simp_all [isKind, Constraint.isFlat]

lemma Stems.fills (h : Stems conj flat c) (hgroups : GroupsFill conj flat r)
    (hflat : c ∈ flat → c.Fills r m) : c.Fills r m := by
  rcases h with hc | ⟨group, hg, hne, hp⟩ | hk | hk
  · exact hflat hc
  · exact hp.fills_iff.mpr (hgroups group hg hne)
  · exact fills_of_kind?_number hk
  · cases c <;> simp_all [isKind, Fills]

lemma conjoinFlat_cases (conj plain : List Constraint → Constraint)
    (entails : Constraint → Constraint → Bool) (flat : List Constraint) :
    conjoinFlat conj plain entails flat = .never ∨
      ∃ es, conjoinFlat conj plain entails flat = finishConj es ∧ (∀ c ∈ es, Stems conj flat c) ∧
        (es.filter isDisj = [] ∨ es.filter isDisj = flat.filter isDisj) := by
  rw [conjoinFlat_eq]
  cases hg : gather conj plain flat with
  | none => exact Or.inl rfl
  | some g =>
    obtain ⟨common, ds⟩ := g
    rcases settle_cases plain entails common ds with hs | ⟨es, hs, hmem, hdisj⟩
    · exact Or.inl hs
    · refine Or.inr ⟨es, hs, fun c hc => ?_, filter_isDisj_gather hg ▸ hdisj⟩
      rcases hmem c hc with hd | hk
      · rcases mem_gather hg hd with hf | hp | hn
        · exact Or.inl hf
        · exact Or.inr (Or.inl hp)
        · exact Or.inr (Or.inr (Or.inl hn))
      · exact Or.inr (Or.inr (Or.inr hk))

lemma fills_conjoinFlat {entails : Constraint → Constraint → Bool}
    (hflat : ∀ c ∈ flat, c.Fills r m ∧ c.isFlat) (hgroups : GroupsFill conj flat r) :
    (conjoinFlat conj plain entails flat).Fills r m := by
  rcases conjoinFlat_cases conj plain entails flat with he | ⟨es, he, hstem, _⟩
  · rw [he]
    simp [Fills]
  · rw [he]
    refine fills_finishConj (fun c hc => ?_) fun c hc => ?_
    · exact isConj_eq_false_of_isFlat ((hstem c hc).isFlat fun c hc => (hflat c hc).2)
    · exact (hstem c hc).fills hgroups fun hc => (hflat c hc).1

end Gather

end Fills

end Stagewise.Constraint
