import Stagewise.Proofs.Union
import Stagewise.Proofs.Unfolding

/-! What one step of the examination of a pair of tidy constraints finds is so. A pair that is
assumed holds of the values that are lower than the one at hand: it is met again either below a
part of the value, or nowhere, because unfolding leads to positions that it exceeds. -/

set_option autoImplicit false

namespace Stagewise

open Association

namespace Value

mutual

def height : Value → Nat
  | .object fields => heightFields fields + 1
  | .array items => heightItems items + 1
  | _ => 0
termination_by structural v => v

def heightFields : List (String × Value) → Nat
  | [] => 0
  | (_, v) :: fields => max v.height (heightFields fields)
termination_by structural fields => fields

def heightItems : List Value → Nat
  | [] => 0
  | v :: items => max v.height (heightItems items)
termination_by structural items => items

end

lemma height_le_heightFields {fields : List (String × Value)} {q : String × Value}
    (h : q ∈ fields) : q.2.height ≤ heightFields fields := by
  induction fields with
  | nil => simp at h
  | cons r fields ih =>
    rw [heightFields]
    rcases List.mem_cons.mp h with rfl | h
    · exact Nat.le_max_left _ _
    · exact Nat.le_trans (ih h) (Nat.le_max_right _ _)

lemma height_le_heightItems {items : List Value} {v : Value} (h : v ∈ items) :
    v.height ≤ heightItems items := by
  induction items with
  | nil => simp at h
  | cons w items ih =>
    rw [heightItems]
    rcases List.mem_cons.mp h with rfl | h
    · exact Nat.le_max_left _ _
    · exact Nat.le_trans (ih h) (Nat.le_max_right _ _)

lemma height_lt_of_find? {name : String} {fields : List (String × Value)} {v : Value}
    (h : find? name fields = some v) : v.height < (object fields).height :=
  Nat.lt_succ_of_le (height_le_heightFields (mem_of_find?_eq_some h))

lemma height_lt_of_mem {items : List Value} {v : Value} (h : v ∈ items) :
    v.height < (array items).height :=
  Nat.lt_succ_of_le (height_le_heightItems h)

end Value

lemma Position.below_eq_or (p : Position) {s : Nat} :
    p.below = .plain ∨ p ≠ .plain ∧ s ≤ s := by
  cases p <;> simp [Position.below]

lemma Fragment.below_eq_or (F : Fragment) (name : String) (p : Position) {s : Nat} :
    F.below name p = .plain ∨ p ≠ .plain ∧ s ≤ s := by
  unfold Fragment.below
  split_ifs
  · exact Or.inl rfl
  · exact p.below_eq_or

def Position.Meets (p q : Position) : Prop := p = .plain ↔ q = .plain

namespace Position.Meets

variable {p q p' q' : Position} {F : Fragment}

lemma refl (p : Position) : p.Meets p := Iff.rfl

lemma below (h : p.Meets q) : p.below.Meets q.below := by
  cases p <;> cases q <;> simp_all [Meets, Position.below]

lemma belowField (h : p.Meets q) (name : String) : (F.below name p).Meets (F.below name q) := by
  unfold Fragment.below
  split_ifs
  · exact refl _
  · exact h.below

lemma of_le (h : p.Meets q) (hp : p'.Le p) (hq : q'.Le q) : p'.Meets q' := by
  cases p <;> cases q <;> cases p' <;> cases q' <;> simp_all [Meets, Position.Le]

end Position.Meets

namespace Constraint

variable {F : Fragment} {p q : Position} {X : Value → Prop} {s : Nat}

def Valid (F : Fragment) (X : Value → Prop) (s : Nat) (a b : Constraint) : Prop :=
  ∀ v : Value, F.Covers v → v.height < s → a.Holds X v → b.Holds X v

lemma Valid.mono {a b : Constraint} {t : Nat} (h : Valid F X s a b) (hts : t ≤ s) :
    Valid F X t a b :=
  fun v hv hs => h v hv (Nat.lt_of_lt_of_le hs hts)

/-- The entailments that are found, from a position, hold of the values below a height, and of all
values where there is no recursion. -/
def FindsValid (F : Fragment) (X : Value → Prop) (s : Nat) (start : Position)
    (entails : Constraint → Constraint → Bool) : Prop :=
  ∀ (p q : Position) (t : Nat) (a b : Constraint), p.Meets q →
    p = .plain ∨ start ≠ .plain ∧ t ≤ s → a.Tidy F p → b.Tidy F q → entails a b → Valid F X t a b

/-! ### Several conjuncts together -/

lemma mem_of_tupleLength? {cs : List Constraint} {n : Nat} (h : tupleLength? cs = some n) :
    ∃ x : Number, .length (.equals (.number x)) ∈ cs ∧ n = x.toCount := by
  fun_induction tupleLength? cs with
  | case1 => simp at h
  | case2 x cs hx => exact ⟨x, List.mem_cons_self, (Option.some.inj h).symm⟩
  | case3 x cs hx ih | case4 c cs hc ih =>
    obtain ⟨y, hy, hn⟩ := ih h
    exact ⟨y, List.mem_cons_of_mem _ hy, hn⟩

def index? : Constraint → Option Nat
  | .elementAt i _ => some i
  | _ => none

lemma le_length_of_named {cs : List Constraint} {n : Nat}
    (h : ∀ i < n, ∃ c, .elementAt i c ∈ cs) : n ≤ cs.length := by
  have hsub : List.range n ⊆ cs.filterMap index? := by
    intro i hi
    obtain ⟨c, hc⟩ := h i (List.mem_range.mp hi)
    exact List.mem_filterMap.mpr ⟨_, hc, rfl⟩
  have hle := (List.nodup_range.subperm hsub).length_le
  rw [List.length_range] at hle
  exact Nat.le_trans hle (List.length_filterMap_le _ _)

lemma mem_statementsAt {index : Nat} {cs : List Constraint} {c : Constraint} :
    c ∈ statementsAt index cs ↔ .elementAt index c ∈ cs ∨ .elements c ∈ cs := by
  simp only [statementsAt, List.mem_filterMap]
  constructor
  · rintro ⟨d, hd, he⟩
    cases d <;> simp_all
  · rintro (h | h)
    · exact ⟨_, h, by simp⟩
    · exact ⟨_, h, rfl⟩

lemma length_statementsAt_le {index : Nat} {cs : List Constraint}
    (h : ∀ c, .elementAt index c ∉ cs) :
    (statementsAt index cs).length ≤ cs.countP isElements := by
  induction cs with
  | nil => simp [statementsAt]
  | cons c cs ih =>
    have ih := ih fun d hd => h d (List.mem_cons_of_mem _ hd)
    simp only [statementsAt] at ih ⊢
    cases c with
    | elementAt i d =>
      have hi : i ≠ index := by
        rintro rfl
        exact h d List.mem_cons_self
      simpa [hi, isElements] using ih
    | elements d => simpa [List.countP_cons, isElements] using ih
    | _ => simpa [isElements] using ih

lemma tidy_statementsAt (index : Nat) {cs : List Constraint} (h : ∀ c ∈ cs, c.Tidy F p) :
    ∀ c ∈ (statementsAt index cs).filter (fun c => !c.isAny), c.Tidy F p.below := by
  intro c hc
  rcases mem_statementsAt.mp (List.mem_of_mem_filter hc) with hc | hc
  · exact h _ hc
  · exact h _ hc

lemma holds_elementAt_of_statements {conj : List Constraint → Constraint} (hconj : Conjoins F conj)
    {cs : List Constraint} (hcs : (Constraint.conj cs).Tidy F p) {index : Nat}
    (hlen : 2 ≤ (statementsAt index cs).length) {v : Value} (hv : F.Covers v)
    (hall : ∀ c ∈ cs, c.Holds X v) :
    (elementAt index (conj ((statementsAt index cs).filter fun c => !c.isAny))).Holds X v := by
  obtain ⟨hone, htidy⟩ := tidy_conj.mp hcs
  have hex : ∃ c, .elementAt index c ∈ cs := by
    by_contra hno
    have := length_statementsAt_le (not_exists.mp hno)
    omega
  obtain ⟨c, hc⟩ := hex
  obtain ⟨items, w, rfl, hw, _⟩ := hall _ hc
  refine ⟨items, w, rfl, hw,
    ((hconj _ _ (tidy_statementsAt _ htidy)).holds X w (hv.getElem? hw)).mpr ?_⟩
  intro d hd
  rcases mem_statementsAt.mp (List.mem_of_mem_filter hd) with hd | hd
  · obtain ⟨_, w', he, hw', hd⟩ := hall _ hd
    obtain rfl := Value.array.inj he
    exact Option.some.inj (hw.symm.trans hw') ▸ hd
  · obtain ⟨_, he, hd⟩ := hall _ hd
    obtain rfl := Value.array.inj he
    exact hd w (List.mem_of_getElem? hw)

lemma mem_lengthStatements {cs : List Constraint} {c : Constraint} (h : c ∈ lengthStatements cs) :
    c = .kind .number ∨ c = .bound .ge Number.zero ∨ .length c ∈ cs ∨
      ∃ i d, .elementAt i d ∈ cs ∧ c = .bound .gt (Number.ofNat i) := by
  simp only [lengthStatements, List.mem_cons, List.mem_filterMap] at h
  rcases h with h | h | ⟨d, hd, he⟩
  · exact Or.inl h
  · exact Or.inr (Or.inl h)
  · cases d <;> simp only [reduceCtorEq, Option.some.injEq] at he
    · exact Or.inr (Or.inr (Or.inl (he ▸ hd)))
    · exact Or.inr (Or.inr (Or.inr ⟨_, _, hd, he.symm⟩))

lemma tidy_lengthStatements {cs : List Constraint} (h : ∀ c ∈ cs, c.Tidy F p) :
    ∀ c ∈ lengthStatements cs, c.Tidy F .plain := by
  intro c hc
  rcases mem_lengthStatements hc with rfl | rfl | hc | ⟨i, d, _, rfl⟩
  · trivial
  · exact ⟨rfl, fun _ => by decide⟩
  · exact (h _ hc).2.2
  · exact ⟨rfl, fun _ => Number.isNaN_ofNat i⟩

lemma holds_lengthStatements (hl : F.lengths) {cs : List Constraint} {items : List Value}
    (hv : F.Covers (.array items)) (hall : ∀ c ∈ cs, c.Holds X (.array items)) :
    ∀ c ∈ lengthStatements cs, c.Holds X (.ofNat items.length) := by
  intro c hc
  rcases mem_lengthStatements hc with rfl | rfl | hc | ⟨i, d, hd, rfl⟩
  · rfl
  · exact ⟨_, rfl, Number.zero_le_ofNat (hv.length_lt hl)⟩
  · obtain ⟨_, he, hc⟩ := hall _ hc
    obtain rfl := Value.array.inj he
    exact hc
  · obtain ⟨_, w, he, hw, _⟩ := hall _ hd
    obtain rfl := Value.array.inj he
    exact holds_ofNat_gt hl hv hw X

lemma isFull_eq_false_of_isNumeric {c : Constraint} {i : Interval} (h : c.isNumeric)
    (hi : Interval.ofAtom? c = some i) : i.isFull = false := by
  unfold isNumeric at h
  split at h
  · next r n =>
    obtain rfl : Interval.ofBound r n = i := by simpa [Interval.ofAtom?] using hi
    cases r <;> rfl
  · next n =>
    obtain rfl : Interval.point n = i := by simpa [Interval.ofAtom?] using hi
    rfl
  · simp at h

lemma holds_of_contains {c : Constraint} {i : Interval} (h : c.isNumeric)
    (hi : Interval.ofAtom? c = some i) {x : Number} (hx : i.contains x) :
    c.Holds X (.number x) := by
  unfold isNumeric at h
  split at h
  · next r n =>
    obtain rfl : Interval.ofBound r n = i := by simpa [Interval.ofAtom?] using hi
    exact ⟨x, rfl, by simpa using hx⟩
  · next n =>
    obtain rfl : Interval.point n = i := by simpa [Interval.ofAtom?] using hi
    simp [Holds, Value.same, Number.same, Interval.contains_point.mp hx]
  · simp at h

lemma holds_of_describes {goal : Constraint} {i want : Interval} {x : Number}
    (hx : i.Describes (.number x)) (hg : goal.isNumeric)
    (hw : Interval.ofAtom? goal = some want) (h : i.isSubset want) :
    goal.Holds X (.number x) := by
  cases hn : x.isNaN with
  | true =>
    have hblank : i.IsBlank := by simpa [Interval.Describes, Value.proper?, hn] using hx
    simp [hblank.isSubset_eq_false (isFull_eq_false_of_isNumeric hg hw)] at h
  | false =>
    have hin : i.contains x := by simpa [Interval.Describes, Value.proper?, hn] using hx
    exact holds_of_contains hg hw (Interval.contains_of_isSubset h hin)

lemma holds_of_isSubset {c goal : Constraint} {want : Interval} (hc : c.Tidy F .plain)
    (hg : goal.isNumeric) (hw : Interval.ofAtom? goal = some want)
    (h : (Interval.of c).isSubset want) {x : Number} (hx : c.Holds X (.number x)) :
    goal.Holds X (.number x) :=
  holds_of_describes (describes_of_hasProperUnions (tellsRange_holds X _) hc.hasProperUnions hx)
    hg hw h

lemma eq_plain_of_isNumeric {c : Constraint} (h : c.isNumeric) (hc : c.Tidy F p) : p = .plain := by
  unfold isNumeric at h
  split at h
  · exact hc.1
  · exact hc.1
  · simp at h

section Conjuncts

variable {entails : Constraint → Constraint → Bool} (hent : FindsValid F X s p entails)
  (hpq : p.Meets q) {cs : List Constraint} (hcs : (Constraint.conj cs).Tidy F p)
include hent hpq hcs

lemma conjEntails_elements {d : Constraint} (hd : (elements d).Tidy F q) {n : Nat}
    (hn : tupleLength? cs = some n)
    (h : (List.range (min n (cs.length + 1))).all fun index => cs.any fun
      | .elementAt i c => i == index && entails c d
      | _ => false) : Valid F X (s + 1) (.conj cs) (elements d) := by
  intro v hv hs hall
  rw [holds_conj] at hall
  have hnamed : ∀ i < min n (cs.length + 1), ∃ c, .elementAt i c ∈ cs ∧ entails c d := by
    intro i hi
    obtain ⟨c, hc, hi⟩ := List.any_eq_true.mp (List.all_eq_true.mp h i (List.mem_range.mpr hi))
    cases c <;> simp only [Bool.false_eq_true, Bool.and_eq_true, beq_iff_eq] at hi
    obtain ⟨rfl, he⟩ := hi
    exact ⟨_, hc, he⟩
  have hle := le_length_of_named fun i hi => (hnamed i hi).imp fun _ => And.left
  obtain ⟨x, hx, rfl⟩ := mem_of_tupleLength? hn
  have htidy := (tidy_conj.mp hcs).2
  obtain ⟨items, rfl, hlen⟩ := hall _ hx
  have hlt := hv.length_lt (htidy _ hx).1
  have hcount : x.toCount = items.length := by
    refine Number.toCount_eq_of_eq hlt ?_
    have hsame : (Number.ofNat items.length).same x := hlen
    rw [Number.same, Number.isNaN_ofNat, Bool.false_and, Bool.or_false] at hsame
    exact Number.eq_symm hsame
  refine ⟨items, rfl, fun w hw => ?_⟩
  obtain ⟨i, hi⟩ := List.mem_iff_getElem?.mp hw
  obtain ⟨hlt', _⟩ := List.getElem?_eq_some_iff.mp hi
  obtain ⟨c, hc, he⟩ := hnamed i (by omega)
  obtain ⟨_, w', heq, hw', hcw⟩ := hall _ hc
  obtain rfl := Value.array.inj heq
  obtain rfl := Option.some.inj (hi.symm.trans hw')
  refine hent _ _ s c d hpq.below p.below_eq_or (htidy _ hc) hd he w (hv.mem hw) ?_ hcw
  exact Nat.lt_of_lt_of_le (Value.height_lt_of_mem hw) (Nat.lt_succ_iff.mp hs)

lemma conjEntails_elementAt {conj : List Constraint → Constraint} (hconj : Conjoins F conj)
    {index : Nat} {d : Constraint} (hd : (elementAt index d).Tidy F q)
    (hlen : 2 ≤ (statementsAt index cs).length)
    (h : entails (conj ((statementsAt index cs).filter fun c => !c.isAny)) d) :
    Valid F X (s + 1) (.conj cs) (elementAt index d) := by
  intro v hv hs hall
  obtain ⟨items, w, rfl, hw, hc⟩ :=
    holds_elementAt_of_statements hconj hcs hlen hv (holds_conj.mp hall)
  have ht := (hconj _ _ (tidy_statementsAt index (tidy_conj.mp hcs).2)).tidy
  refine ⟨items, w, rfl, hw,
    hent _ _ s _ d hpq.below p.below_eq_or ht hd h w (hv.getElem? hw) ?_ hc⟩
  exact Nat.lt_of_lt_of_le (Value.height_lt_of_mem (List.mem_of_getElem? hw))
    (Nat.lt_succ_iff.mp hs)

omit hpq in
lemma conjEntails_length {conj : List Constraint → Constraint} (hconj : Conjoins F conj)
    (hidle : F.idle = false) {d : Constraint} (hd : (length d).Tidy F q)
    (h : entails (conj (lengthStatements cs)) d) :
    Valid F X (s + 1) (.conj cs) (length d) := by
  intro v hv _ hall
  rw [holds_conj] at hall
  have hstate := hconj _ _ (tidy_lengthStatements (tidy_conj.mp hcs).2)
  obtain ⟨hl, hex, hplain⟩ := hd
  have hnumber (x : Number) (hx : ∀ c ∈ lengthStatements cs, c.Holds X (.number x)) :
      d.Holds X (.number x) :=
    hent _ _ 1 _ d (.refl _) (Or.inl rfl) hstate.tidy hplain h _ (F.covers_number x) Nat.one_pos
      ((hstate.holds X _ (F.covers_number x)).mpr hx)
  by_cases harr : ∃ items, v = .array items
  · obtain ⟨items, rfl⟩ := harr
    exact ⟨items, rfl, hnumber _ (holds_lengthStatements hl hv hall)⟩
  · -- nothing is said about a length or an item, so every number that is not negative would do
    obtain ⟨x, hx, hn⟩ := hex.resolve_left (by simp [hidle])
    refine absurd ((holds_iff_of_isFixFree hplain.isFixFree _ _).mp (hnumber x ?_)) hn
    intro c hc
    rcases mem_lengthStatements hc with rfl | rfl | hc | ⟨i, e, he, rfl⟩
    · rfl
    · exact ⟨x, rfl, hx⟩
    · obtain ⟨items, rfl, _⟩ := hall _ hc
      exact absurd ⟨items, rfl⟩ harr
    · obtain ⟨items, _, rfl, _⟩ := hall _ he
      exact absurd ⟨items, rfl⟩ harr

lemma conjEntails_sound {conj : List Constraint → Constraint} (hconj : Conjoins F conj)
    (hidle : F.idle = false) {goal : Constraint} (hg : goal.Tidy F q)
    (h : conjEntails conj entails cs goal) : Valid F X (s + 1) (.conj cs) goal := by
  unfold conjEntails at h
  split at h
  · next d =>
    cases hn : tupleLength? cs with
    | none => simp [hn] at h
    | some n =>
      rw [hn] at h
      exact conjEntails_elements hent hpq hcs hg hn h
  · next index d =>
    simp only [Bool.and_eq_true, decide_eq_true_eq] at h
    exact conjEntails_elementAt hent hpq hcs hconj hg h.1 h.2
  · exact conjEntails_length hent hcs hconj hidle hg h
  · intro v hv _ hall
    simp only [Bool.and_eq_true, List.any_eq_true] at h
    obtain ⟨⟨hn, c, hc, hk⟩, hsub⟩ := h
    obtain rfl := hpq.mpr (eq_plain_of_isNumeric hn hg)
    obtain ⟨x, rfl⟩ := holds_of_kind?_number (eq_of_beq hk) (holds_conj.mp hall c hc)
    cases hw : Interval.ofAtom? goal with
    | none => simp [hw] at hsub
    | some want => exact holds_of_isSubset hcs hn hw (by simpa [hw] using hsub) hall

end Conjuncts

lemma atomEntails_sound {entails : Constraint → Constraint → Bool}
    (hent : FindsValid F X s p entails) (hpq : p.Meets q) {a b : Constraint} (ha : a.Tidy F p)
    (hb : b.Tidy F q) (h : atomEntails entails a b) : Valid F X (s + 1) a b := by
  intro v hv hs hav
  have hbelow {w : Value} (hw : w.height < v.height) : w.height < s :=
    Nat.lt_of_lt_of_le hw (Nat.lt_succ_iff.mp hs)
  unfold atomEntails at h
  split at h
  · next want =>
    cases hk : a.kind? with
    | none => simp [hk] at h
    | some k => exact Kind.refines_trans (kind_refines_of_holds hk hav) (by simpa [hk] using h)
  · next m c n d =>
    simp only [Bool.and_eq_true, beq_iff_eq] at h
    obtain ⟨rfl, h⟩ := h
    obtain ⟨fields, w, rfl, hw, hc⟩ := hav
    exact ⟨fields, w, rfl, hw, hent _ _ s c d (hpq.belowField m) (F.below_eq_or m p) ha hb h w
      (hv.find? hw) (hbelow (Value.height_lt_of_find? hw)) hc⟩
  · next c d =>
    obtain ⟨items, rfl, hall⟩ := hav
    exact ⟨items, rfl, fun w hw => hent _ _ s c d hpq.below p.below_eq_or ha hb h w (hv.mem hw)
      (hbelow (Value.height_lt_of_mem hw)) (hall w hw)⟩
  · next c d =>
    obtain ⟨items, rfl, hc⟩ := hav
    exact ⟨items, rfl, hent _ _ 1 c d (.refl _) (Or.inl rfl) ha.2.2 hb.2.2 h _ (F.covers_number _)
      Nat.one_pos hc⟩
  · next i c j d =>
    simp only [Bool.and_eq_true, beq_iff_eq] at h
    obtain ⟨rfl, h⟩ := h
    obtain ⟨items, w, rfl, hw, hc⟩ := hav
    exact ⟨items, w, rfl, hw, hent _ _ s c d hpq.below p.below_eq_or ha hb h w (hv.getElem? hw)
      (hbelow (Value.height_lt_of_mem (List.mem_of_getElem? hw))) hc⟩
  · next r n _ =>
    split at h
    · next want hn hw =>
      obtain ⟨x, rfl, hx⟩ := hav
      obtain rfl := ha.1
      exact holds_of_isSubset ha hn hw h ⟨x, rfl, hx⟩
    · simp at h
  · simp at h

/-! ### One step -/

/-- The assumed pairs hold of the values below a height. A pair that may be met at this height is
known to hold there too. -/
def Ready (F : Fragment) (X : Value → Prop) (s : Nat) (p q : Position) (assumed : Assumptions) :
    Prop :=
  p ≠ .plain → ∀ r ∈ assumed, r.1.isWellFormed ∧ r.2.isWellFormed ∧ Valid F X s r.1 r.2 ∧
    (r.1.Exceeds p ∨ r.2.Exceeds q ∨ Valid F X (s + 1) r.1 r.2)

def EntailsUnder (F : Fragment) (entails : Assumptions → Constraint → Constraint → Bool) : Prop :=
  ∀ (X : Value → Prop) (s : Nat) (p q : Position) (assumed : Assumptions) (a b : Constraint),
    p.Meets q → Ready F X s p q assumed → a.Tidy F p → b.Tidy F q → entails assumed a b →
      Valid F X (s + 1) a b

section Assumed

variable {assumed : Assumptions} {entails : Assumptions → Constraint → Constraint → Bool}

lemma ready_nil : Ready F X s p q [] := by simp [Ready]

lemma Ready.lower {t : Nat} (h : Ready F X s p q assumed) (hts : t < s) {p' q' : Position}
    (hp : p ≠ .plain) : Ready F X t p' q' assumed := by
  intro _ r hr
  obtain ⟨hx, hy, hv, _⟩ := h hp r hr
  exact ⟨hx, hy, hv.mono (Nat.le_of_lt hts), Or.inr (Or.inr (hv.mono hts))⟩

lemma Ready.of_le {p' q' : Position} (h : Ready F X s p q assumed) (hp : p'.Le p) (hq : q'.Le q) :
    Ready F X s p' q' assumed := by
  intro hne r hr
  have hne' : p ≠ .plain := by
    rintro rfl
    cases p' <;> simp_all [Position.Le]
  obtain ⟨hx, hy, hv, hmet⟩ := h hne' r hr
  exact ⟨hx, hy, hv, hmet.imp (·.of_le hp) (Or.imp_left (·.of_le hq))⟩

lemma EntailsUnder.findsValid (hent : EntailsUnder F entails) (h : Ready F X s p q assumed) :
    FindsValid F X s p (entails assumed) := by
  intro p' q' t a b hpq ht ha hb he
  cases t with
  | zero => exact fun v _ hv => absurd hv (Nat.not_lt_zero _)
  | succ t =>
    refine hent X t p' q' assumed a b hpq ?_ ha hb he
    rcases ht with rfl | ⟨hp, ht⟩
    · exact fun hne => absurd rfl hne
    · exact h.lower ht hp

lemma EntailsUnder.entails_nil (hent : EntailsUnder F entails) : Entails F (entails []) :=
  fun p a b ha hb he X v hv =>
    hent X v.height p p [] a b (.refl p) ready_nil ha hb he v hv (Nat.lt_succ_self _)

end Assumed

def FindsClash (F : Fragment) (normal : Constraint → Constraint) : Prop :=
  ∀ (p : Position) (a b : Constraint), a.Tidy F p → b.Tidy F p → (normal (.conj [a, b])).isNever →
    Clash F [a, b]

structure IsNormal (F : Fragment) (p : Position) (d c : Constraint) : Prop where
  tidy : d.Tidy F p
  holds : ∀ (X : Value → Prop) (v : Value), F.Covers v → (d.Holds X v ↔ c.Holds X v)

def Normalizes (F : Fragment) (normal : Constraint → Constraint) : Prop :=
  ∀ (p : Position) (c : Constraint), c.Tidy F p → IsNormal F p (normal c) c

def isFix : Constraint → Bool
  | .fix _ => true
  | _ => false

section Step

variable {normal : Constraint → Constraint} (hnormal : Normalizes F normal)
  {entails : Assumptions → Constraint → Constraint → Bool} (hent : EntailsUnder F entails)
  {assumed : Assumptions} {a b : Constraint}

include hnormal in
lemma unroll_spec (ha : a.Tidy F p) : ∃ p', p'.Le p ∧
    IsNormal F p' (entailsStep.unroll normal a) a ∧ (a.isFix → a.Exceeds p') := by
  cases a with
  | fix body =>
    obtain ⟨ht, hex, hle⟩ := fits_unfold_at_depth ha
    have hn := hnormal _ _ ht
    obtain ⟨k, _, hb⟩ := ha
    exact ⟨_, hle, ⟨hn.tidy, fun X v hv => (hn.holds X v hv).trans (holds_unfold hb)⟩,
      fun _ => hex⟩
  | _ => exact ⟨p, .refl p, ⟨ha, fun _ _ _ => Iff.rfl⟩, by simp [isFix]⟩

lemma ne_plain_of_isFix (ha : a.Tidy F p) (h : a.isFix) : p ≠ .plain := by
  cases a with
  | fix body =>
    obtain ⟨k, hk, _⟩ := ha
    rintro rfl
    exact hk
  | _ => simp [isFix] at h

lemma valid_of_assumed (ha : a.Tidy F p) (hb : b.Tidy F q) (hp : p ≠ .plain)
    (hready : Ready F X s p q assumed) (h : assumed.any fun (x, y) => x == a && y == b) :
    Valid F X (s + 1) a b := by
  obtain ⟨⟨x, y⟩, hm, hxy⟩ := List.any_eq_true.mp h
  simp only [Bool.and_eq_true] at hxy
  obtain ⟨hx, hy, _, hmet⟩ := hready hp _ hm
  rcases hmet with hex | hex | hvalid
  · have hd := depth_eq_of_same hxy.1
    refine absurd ?_ ha.not_exceeds
    cases p <;> simp_all [Exceeds]
  · have hd := depth_eq_of_same hxy.2
    refine absurd ?_ hb.not_exceeds
    cases q <;> simp_all [Exceeds]
  · intro v hv hs hav
    exact (holds_congr hy hv.1 hxy.2).mp (hvalid v hv hs ((holds_congr hx hv.1 hxy.1).mpr hav))

include hnormal hent in
lemma unrolled_step (hpq : p.Meets q) (ha : a.Tidy F p) (hb : b.Tidy F q)
    (hfix : a.isFix ∨ b.isFix) (hp : p ≠ .plain) (hready : Ready F X s p q assumed)
    (hlower : Valid F X s a b) (h : entailsStep.unrolled normal entails assumed a b) :
    Valid F X (s + 1) a b := by
  simp only [entailsStep.unrolled] at h
  split_ifs at h with hmem
  · exact valid_of_assumed ha hb hp hready hmem
  · obtain ⟨p', hp', hna, hexa⟩ := unroll_spec hnormal ha
    obtain ⟨q', hq', hnb, hexb⟩ := unroll_spec hnormal hb
    have hready' : Ready F X s p' q' (assumed ++ [(a, b)]) := by
      intro hne r hr
      rcases List.mem_append.mp hr with hr | hr
      · exact hready.of_le hp' hq' hne r hr
      · obtain rfl := List.mem_singleton.mp hr
        exact ⟨ha.isWellFormed, hb.isWellFormed, hlower, hfix.imp hexa fun h => Or.inl (hexb h)⟩
    have hvalid := hent X s p' q' _ _ _ (hpq.of_le hp' hq') hready' hna.tidy hnb.tidy h
    intro v hv hs hav
    exact (hnb.holds X v hv).mp (hvalid v hv hs ((hna.holds X v hv).mpr hav))

include hnormal hent in
lemma unrolled_sound (hpq : p.Meets q) (ha : a.Tidy F p) (hb : b.Tidy F q)
    (hfix : a.isFix ∨ b.isFix) (hready : Ready F X s p q assumed)
    (h : entailsStep.unrolled normal entails assumed a b) : Valid F X (s + 1) a b := by
  have hp : p ≠ .plain := fun hp =>
    hfix.elim (fun h => ne_plain_of_isFix ha h hp) fun h => ne_plain_of_isFix hb h (hpq.mp hp)
  -- by induction on the height: of lower values the pair is known to hold
  induction s with
  | zero =>
    have hlower : Valid F X 0 a b := fun v _ hv => absurd hv (Nat.not_lt_zero _)
    exact unrolled_step hnormal hent hpq ha hb hfix hp hready hlower h
  | succ s ih =>
    have hlower := ih (hready.lower (Nat.lt_succ_self s) hp)
    exact unrolled_step hnormal hent hpq ha hb hfix hp hready hlower h

include hnormal hent in
lemma entailsStep_sound {conj : List Constraint → Constraint} (hconj : Conjoins F conj)
    (hclash : FindsClash F normal) (hidle : F.idle = false) :
    EntailsUnder F (entailsStep normal conj entails) := by
  intro X s p q assumed a b hpq hready ha hb h
  have hsame {a' b' : Constraint} (ha' : a'.Tidy F p) (hb' : b'.Tidy F q)
      (h' : entails assumed a' b') : Valid F X (s + 1) a' b' :=
    hent X s p q assumed a' b' hpq hready ha' hb' h'
  have hfinds := hent.findsValid hready
  unfold entailsStep at h
  split_ifs at h with hab
  · exact fun v hv _ => (holds_congr ha.isWellFormed hv.1 hab).mp
  · split at h
    · exact fun v _ _ hav => hav.elim
    · exact fun v _ _ _ => trivial
    · simp at h
    · next xs _ _ =>
      intro v hv hs hav
      obtain ⟨x, hx, hxv⟩ := holds_disj.mp hav
      exact hsame ((fits_disj.mp ha).2 x hx) hb (List.all_eq_true.mp h x hx) v hv hs hxv
    · next ys _ _ _ =>
      intro v hv hs hav
      refine holds_conj.mpr fun y hy => ?_
      exact hsame ha ((tidy_conj.mp hb).2 y hy) (List.all_eq_true.mp h y hy) v hv hs hav
    · next w _ _ _ =>
      intro v hv _ hav
      obtain ⟨rfl, hw, _⟩ := ha
      obtain rfl := hpq.mp rfl
      exact (holds_value_congr hb.isFixFree hv.1 hw hav).mpr ((hb.admits_iff X).mp h)
    · exact unrolled_sound hnormal hent hpq ha hb (Or.inl rfl) hready h
    · exact unrolled_sound hnormal hent hpq ha hb (Or.inr rfl) hready h
    · next ys _ _ _ _ _ _ =>
      intro v hv hs hav
      obtain ⟨y, hy, h⟩ := List.any_eq_true.mp h
      exact holds_disj.mpr ⟨y, hy, hsame ha ((fits_disj.mp hb).2 y hy) h v hv hs hav⟩
    · next xs _ _ _ _ _ =>
      rw [Bool.or_eq_true] at h
      rcases h with h | h
      · intro v hv hs hav
        obtain ⟨x, hx, h⟩ := List.any_eq_true.mp h
        exact hsame ((tidy_conj.mp ha).2 x hx) hb h v hv hs (holds_conj.mp hav x hx)
      · exact conjEntails_sound hfinds hpq ha hconj hidle hb h
    · next x y =>
      intro v hv _ hav hy
      obtain ⟨_, rfl, hx⟩ := ha
      obtain ⟨_, rfl, hy'⟩ := hb
      exact hav (hfinds _ _ (v.height + 1) y x hpq (Or.inl rfl) hy' hx h v hv (Nat.lt_succ_self _)
        hy)
    · next y _ _ _ _ _ _ =>
      intro v hv _ hav hy
      obtain ⟨_, rfl, hy'⟩ := hb
      obtain rfl := hpq.mpr rfl
      exact hclash _ a y ha hy' h X v hv (by simpa using ⟨hav, hy⟩)
    · simp at h
    · simp at h
    · exact atomEntails_sound hfinds hpq ha hb h

end Step

end Constraint

end Stagewise
