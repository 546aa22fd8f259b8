import Stagewise.Constraint.Conjunction
import Stagewise.Proofs.Tidy

/-! Ranges of numbers: which numbers the operations on intervals keep. NaN belongs to the full
range only, and an end that is NaN leaves nothing. -/

set_option autoImplicit false

namespace Stagewise

lemma Comparison.holds_complement (r : Comparison) {x n : Number} (hx : x.isNaN = false)
    (hn : n.isNaN = false) : r.complement.holds x n = !r.holds x n := by
  cases r <;> rw [Bool.eq_iff_iff] <;> simp [complement, holds, Number.lt, Number.le, hx, hn]

lemma Comparison.not_isNaN_of_holds {r : Comparison} {x n : Number} (h : r.holds x n) :
    x.isNaN = false ∧ n.isNaN = false := by
  cases r <;> simp_all [holds, Number.lt, Number.le]

namespace Number

lemma same_iff_eq {x y : Number} (hy : y.isNaN = false) : x.same y ↔ x.eq y := by
  simp [same, hy]

end Number

namespace Interval

open Constraint.NumericParts (openEnd endsAt exclude)

def clearsLow (e : Option Endpoint) (x : Number) : Bool :=
  match e with
  | some a => a.value.lt x || (a.inclusive && x.eq a.value)
  | none => true

def clearsHigh (e : Option Endpoint) (x : Number) : Bool :=
  match e with
  | some b => x.lt b.value || (b.inclusive && x.eq b.value)
  | none => true

lemma contains_eq (i : Interval) (x : Number) :
    i.contains x = (clearsLow i.lo x && clearsHigh i.hi x) := rfl

def IsProperEnd (e : Option Endpoint) : Prop := ∀ a ∈ e, a.value.isNaN = false

def IsProper (i : Interval) : Prop := IsProperEnd i.lo ∧ IsProperEnd i.hi

lemma isProper_full : full.IsProper := by simp [IsProper, IsProperEnd, full]

lemma isProper_ofBound {r : Comparison} {n : Number} (h : n.isNaN = false) :
    (ofBound r n).IsProper := by
  cases r <;> simp [IsProper, IsProperEnd, ofBound, h]

lemma isProperEnd_tighter {beyond : Number → Number → Bool} {a b : Option Endpoint}
    (ha : IsProperEnd a) (hb : IsProperEnd b) : IsProperEnd (tighter beyond a b) := by
  cases a <;> cases b <;> simp_all [IsProperEnd, tighter]
  split_ifs <;> simp_all

lemma IsProper.intersect {i j : Interval} (hi : i.IsProper) (hj : j.IsProper) :
    (i.intersect j).IsProper := by
  simp only [IsProper, Interval.intersect]
  exact ⟨isProperEnd_tighter hi.1 hj.1, isProperEnd_tighter hi.2 hj.2⟩

lemma clearsLow_tighter {a b : Option Endpoint} (ha : IsProperEnd a) (hb : IsProperEnd b)
    (x : Number) : clearsLow (tighter (fun x y => y.lt x) a b) x =
      (clearsLow a x && clearsLow b x) := by
  rcases a with _ | ⟨m, p⟩ <;> rcases b with _ | ⟨n, q⟩ <;>
    simp_all [IsProperEnd, tighter, clearsLow]
  simp only [Number.lt, Number.eq, ha, hb]
  split_ifs <;> grind

lemma clearsHigh_tighter {a b : Option Endpoint} (ha : IsProperEnd a) (hb : IsProperEnd b)
    (x : Number) : clearsHigh (tighter Number.lt a b) x = (clearsHigh a x && clearsHigh b x) := by
  rcases a with _ | ⟨m, p⟩ <;> rcases b with _ | ⟨n, q⟩ <;>
    simp_all [IsProperEnd, tighter, clearsHigh]
  simp only [Number.lt, Number.eq, ha, hb]
  split_ifs <;> grind

lemma contains_intersect {i j : Interval} (hi : i.IsProper) (hj : j.IsProper) (x : Number) :
    (i.intersect j).contains x = (i.contains x && j.contains x) := by
  simp only [contains_eq, intersect, clearsLow_tighter hi.1 hj.1, clearsHigh_tighter hi.2 hj.2]
  ac_rfl

lemma isProperEnd_of_clearsLow {e : Option Endpoint} {x : Number} (h : clearsLow e x) :
    IsProperEnd e := by
  rcases e with _ | a <;> simp_all [IsProperEnd, clearsLow, Number.lt, Number.eq]
  grind

lemma isProperEnd_of_clearsHigh {e : Option Endpoint} {x : Number} (h : clearsHigh e x) :
    IsProperEnd e := by
  rcases e with _ | a <;> simp_all [IsProperEnd, clearsHigh, Number.lt, Number.eq]
  grind

lemma isProper_of_contains {i : Interval} {x : Number} (h : i.contains x) : i.IsProper := by
  rw [contains_eq, Bool.and_eq_true] at h
  exact ⟨isProperEnd_of_clearsLow h.1, isProperEnd_of_clearsHigh h.2⟩

lemma contains_intersect_of_contains {i j : Interval} {x : Number} (hi : i.contains x)
    (hj : j.contains x) : (i.intersect j).contains x := by
  simp [contains_intersect (isProper_of_contains hi) (isProper_of_contains hj), hi, hj]

@[simp] lemma contains_full (x : Number) : full.contains x := rfl

@[simp] lemma contains_ofBound (r : Comparison) (x n : Number) :
    (ofBound r n).contains x = r.holds x n := by
  cases r <;> simp only [contains_eq, clearsLow, clearsHigh, ofBound, Comparison.holds,
    Number.lt, Number.le, Number.eq] <;> grind

lemma contains_point {x n : Number} : (point n).contains x ↔ x.eq n := by
  simp only [contains_eq, clearsLow, clearsHigh, point, Number.lt, Number.eq]
  grind

lemma contains_congr (i : Interval) {x y : Number} (h : x.same y) :
    i.contains x = i.contains y := by
  obtain ⟨lo, hi⟩ := i
  simp only [Number.same, Bool.or_eq_true, Bool.and_eq_true] at h
  rcases lo with _ | a <;> rcases hi with _ | b <;>
    simp only [contains_eq, clearsLow, clearsHigh, Number.lt, Number.eq] at h ⊢ <;> grind

lemma not_contains_of_isEmpty {i : Interval} (h : i.isEmpty) (x : Number) :
    i.contains x = false := by
  obtain ⟨lo, hi⟩ := i
  rcases lo with _ | a <;> rcases hi with _ | b <;>
    simp only [isEmpty, contains_eq, clearsLow, clearsHigh, Number.lt, Number.eq] at h ⊢ <;>
    grind

lemma not_isNaN_of_contains {i : Interval} {x : Number} (hf : i.isFull = false)
    (h : i.contains x) : x.isNaN = false := by
  obtain ⟨lo, hi⟩ := i
  rcases lo with _ | a <;> rcases hi with _ | b <;>
    simp_all [isFull, contains_eq, clearsLow, clearsHigh, Number.lt, Number.eq] <;> grind

lemma contains_of_isSubset {i j : Interval} (h : i.isSubset j) {x : Number} (hx : i.contains x) :
    j.contains x := by
  have he : i.isEmpty = false := by
    by_contra he
    rw [not_contains_of_isEmpty (by simpa using he)] at hx
    simp at hx
  obtain ⟨lo, hi⟩ := i
  obtain ⟨lo', hi'⟩ := j
  simp only [isSubset, he, Bool.false_or] at h
  rcases lo with _ | a <;> rcases hi with _ | b <;> rcases lo' with _ | c <;>
    rcases hi' with _ | d <;>
    simp only [contains_eq, clearsLow, clearsHigh, Number.lt, Number.eq] at h hx ⊢ <;> grind

lemma IsProper.hull {i j : Interval} (hi : i.IsProper) (hj : j.IsProper) :
    (i.hull j).IsProper := by
  obtain ⟨lo, hi'⟩ := i
  obtain ⟨lo', hi''⟩ := j
  rcases lo with _ | a <;> rcases hi' with _ | b <;> rcases lo' with _ | c <;>
    rcases hi'' with _ | d <;>
    simp_all [IsProper, IsProperEnd, Interval.hull, looser] <;> split_ifs <;> simp_all

lemma clearsLow_hull {i j : Interval} (hi : IsProperEnd i.lo) (hj : IsProperEnd j.lo) {x : Number}
    (h : clearsLow i.lo x ∨ clearsLow j.lo x) : clearsLow (i.hull j).lo x := by
  obtain ⟨lo, _⟩ := i
  obtain ⟨lo', _⟩ := j
  rcases lo with _ | ⟨m, p⟩ <;> rcases lo' with _ | ⟨n, q⟩ <;>
    simp_all [IsProperEnd, hull, looser, clearsLow]
  simp only [Number.lt, Number.eq, hi, hj] at h ⊢
  split_ifs <;> grind

lemma clearsHigh_hull {i j : Interval} (hi : IsProperEnd i.hi) (hj : IsProperEnd j.hi)
    {x : Number} (h : clearsHigh i.hi x ∨ clearsHigh j.hi x) : clearsHigh (i.hull j).hi x := by
  obtain ⟨_, hi'⟩ := i
  obtain ⟨_, hi''⟩ := j
  rcases hi' with _ | ⟨m, p⟩ <;> rcases hi'' with _ | ⟨n, q⟩ <;>
    simp_all [IsProperEnd, hull, looser, clearsHigh]
  simp only [Number.lt, Number.eq, hi, hj] at h ⊢
  split_ifs <;> grind

lemma contains_hull {i j : Interval} (hi : i.IsProper) (hj : j.IsProper) {x : Number}
    (h : i.contains x ∨ j.contains x) : (i.hull j).contains x := by
  simp only [contains_eq, Bool.and_eq_true] at h ⊢
  exact ⟨clearsLow_hull hi.1 hj.1 (h.imp And.left And.left),
    clearsHigh_hull hi.2 hj.2 (h.imp And.right And.right)⟩

lemma isFull_hull {i j : Interval} (h : i.isFull ∨ j.isFull) : (i.hull j).isFull := by
  obtain ⟨lo, hi⟩ := i
  obtain ⟨lo', hi'⟩ := j
  rcases lo with _ | a <;> rcases hi with _ | b <;> rcases lo' with _ | c <;>
    rcases hi' with _ | d <;> simp_all [isFull, hull]

def IsBlank (i : Interval) : Prop :=
  (∀ a ∈ i.lo, a.value.isNaN) ∧ ∀ b ∈ i.hi, b.value.isNaN

lemma isBlank_full : full.IsBlank := by simp [IsBlank, full]

lemma IsBlank.intersect {i j : Interval} (hi : i.IsBlank) (hj : j.IsBlank) :
    (i.intersect j).IsBlank := by
  obtain ⟨lo, hi'⟩ := i
  obtain ⟨lo', hi''⟩ := j
  rcases lo with _ | a <;> rcases hi' with _ | b <;> rcases lo' with _ | c <;>
    rcases hi'' with _ | d <;>
    simp_all [IsBlank, Interval.intersect, tighter, Number.lt]

lemma isFull_of_isBlank {i : Interval} (hb : i.IsBlank) (hp : i.IsProper) : i.isFull := by
  obtain ⟨lo, hi⟩ := i
  rcases lo with _ | a <;> rcases hi with _ | b <;>
    simp_all [IsBlank, IsProper, IsProperEnd, isFull]

lemma isBlank_of_isFull {i : Interval} (h : i.isFull) : i.IsBlank := by
  obtain ⟨lo, hi⟩ := i
  rcases lo with _ | a <;> rcases hi with _ | b <;> simp_all [IsBlank, isFull]

lemma IsBlank.isSubset_eq_false {i j : Interval} (hi : i.IsBlank) (hj : j.isFull = false) :
    i.isSubset j = false := by
  obtain ⟨lo, hi'⟩ := i
  obtain ⟨lo', hi''⟩ := j
  rcases lo with _ | a <;> rcases hi' with _ | b <;> rcases lo' with _ | c <;>
    rcases hi'' with _ | d <;>
    simp_all [IsBlank, isSubset, isEmpty, isFull, Number.lt, Number.eq]

lemma clearsLow_openEnd (n : Number) (e : Option Endpoint) (x : Number) :
    clearsLow (openEnd n e) x = (clearsLow e x && !(endsAt n e && x.same n)) := by
  rcases e with _ | ⟨m, p⟩
  · simp [openEnd, endsAt, clearsLow]
  · simp only [openEnd, endsAt]
    split_ifs <;> simp only [clearsLow, Number.same, Number.lt, Number.eq] at * <;> grind

lemma clearsHigh_openEnd (n : Number) (e : Option Endpoint) (x : Number) :
    clearsHigh (openEnd n e) x = (clearsHigh e x && !(endsAt n e && x.same n)) := by
  rcases e with _ | ⟨m, p⟩
  · simp [openEnd, endsAt, clearsHigh]
  · simp only [openEnd, endsAt]
    split_ifs <;> simp only [clearsHigh, Number.same, Number.lt, Number.eq] at * <;> grind

lemma contains_opened (i : Interval) (n x : Number) :
    (Interval.mk (openEnd n i.lo) (openEnd n i.hi)).contains x =
      (i.contains x && !((endsAt n i.lo || endsAt n i.hi) && x.same n)) := by
  simp only [contains_eq, clearsLow_openEnd, clearsHigh_openEnd]
  grind

lemma exclude_iff (i : Interval) (ns : List Number) (x : Number) :
    ((exclude i ns).1.contains x ∧ ∀ n ∈ (exclude i ns).2, ¬ x.same n) ↔
      i.contains x ∧ ∀ n ∈ ns, ¬ x.same n := by
  induction ns generalizing i with
  | nil => simp [exclude]
  | cons n ns ih =>
    have hopen := contains_opened i n x
    have hrest := ih ⟨openEnd n i.lo, openEnd n i.hi⟩
    simp only [exclude]
    cases ha : endsAt n i.lo || endsAt n i.hi with
    | true =>
      simp only [ha, Bool.true_and] at hopen
      rw [Bool.not_true, Bool.false_and, if_neg Bool.false_ne_true, hrest, hopen]
      simp [and_assoc]
    | false =>
      simp only [ha, Bool.false_and, Bool.not_false, Bool.and_true] at hopen
      simp only [Bool.not_false, Bool.true_and, List.forall_mem_cons]
      split_ifs with hn
      · simp only [List.forall_mem_cons]
        rw [and_left_comm, hrest, hopen]
        tauto
      · rw [hrest, hopen]
        refine ⟨fun h => ⟨h.1, fun hs => hn ?_, h.2⟩, fun h => ⟨h.1, h.2.2⟩⟩
        rw [← contains_congr _ hs, hopen]
        exact h.1

lemma isSome_openEnd (n : Number) (e : Option Endpoint) : (openEnd n e).isSome = e.isSome := by
  cases e with
  | none => rfl
  | some a => simp only [openEnd]; split_ifs <;> rfl

lemma isFull_exclude (i : Interval) (ns : List Number) : (exclude i ns).1.isFull = i.isFull := by
  induction ns generalizing i with
  | nil => rfl
  | cons n ns ih =>
    rw [exclude, ih, isFull, isFull, ← Option.not_isSome, ← Option.not_isSome, isSome_openEnd,
      isSome_openEnd, Option.not_isSome, Option.not_isSome]

lemma holds_bounds_iff (i : Interval) (x : Number) (X : Value → Prop) :
    (∀ c ∈ i.bounds, c.Holds X (.number x)) ↔ i.contains x := by
  obtain ⟨lo, hi⟩ := i
  rcases lo with _ | ⟨m, p⟩ <;> rcases hi with _ | ⟨n, q⟩
  · simp [bounds, point?, contains_eq, clearsLow, clearsHigh]
  · cases q <;> simp [bounds, point?, contains_eq, clearsLow, clearsHigh, Constraint.Holds,
      Comparison.holds, Number.lt, Number.le, Number.eq]
    grind
  · cases p <;> simp [bounds, point?, contains_eq, clearsLow, clearsHigh, Constraint.Holds,
      Comparison.holds, Number.lt, Number.le, Number.eq]
    grind
  · cases p <;> cases q <;> simp only [bounds, point?] <;> split_ifs <;>
      simp_all [contains_eq, clearsLow, clearsHigh, Constraint.Holds, Comparison.holds,
        Value.same, Number.same, Number.lt, Number.le, Number.eq] <;> grind

lemma kind?_of_mem_bounds {i : Interval} {c : Constraint} (h : c ∈ i.bounds) :
    c.kind? = some .number := by
  obtain ⟨lo, hi⟩ := i
  rcases lo with _ | a <;> rcases hi with _ | b <;> simp only [bounds, point?] at h <;>
    (try split_ifs at h) <;> simp_all <;> grind [Constraint.kind?, Value.kind]

lemma bounds_ne_nil {i : Interval} (h : i.isFull = false) : i.bounds ≠ [] := by
  obtain ⟨lo, hi⟩ := i
  rcases lo with _ | a <;> rcases hi with _ | b <;> simp_all [isFull, bounds, point?]
  split_ifs <;> simp

end Interval

/-! ### Description -/

def Value.proper? : Value → Option Number
  | .number x => if x.isNaN then none else some x
  | _ => none

lemma Value.proper?_eq_some {v : Value} {x : Number} :
    v.proper? = some x ↔ v = .number x ∧ x.isNaN = false := by
  cases v <;> simp only [proper?, reduceCtorEq, false_and, number.injEq]
  next y =>
    split_ifs with hy
    · simp only [false_iff, not_and, Bool.not_eq_false]
      exact fun h => h ▸ hy
    · simp only [Option.some.injEq, iff_self_and]
      exact fun h => h ▸ eq_false_of_ne_true hy

namespace Interval

/-- A number belongs to the range; where NaN or another value is described, no number bounds the
range. -/
def Describes (i : Interval) (v : Value) : Prop :=
  match v.proper? with
  | some x => i.contains x
  | none => i.IsBlank

variable {i j : Interval} {v : Value}

lemma describes_full (v : Value) : full.Describes v := by
  unfold Describes
  split
  · rfl
  · exact isBlank_full

lemma Describes.intersect (hi : i.Describes v) (hj : j.Describes v) :
    (i.intersect j).Describes v := by
  unfold Describes at *
  cases hv : v.proper? with
  | some x =>
    simp only [hv] at hi hj
    exact contains_intersect_of_contains hi hj
  | none =>
    simp only [hv] at hi hj
    exact IsBlank.intersect hi hj

lemma Describes.hull (hi : i.IsProper) (hj : j.IsProper) (h : i.Describes v ∨ j.Describes v) :
    (i.hull j).Describes v := by
  unfold Describes at *
  cases hv : v.proper? with
  | some x =>
    simp only [hv] at h
    exact contains_hull hi hj h
  | none =>
    simp only [hv] at h
    have hfull := isFull_hull (h.imp (isFull_of_isBlank · hi) (isFull_of_isBlank · hj))
    exact isBlank_of_isFull hfull

end Interval

namespace Interval

variable {acc : Interval} {cs : List Constraint} {v : Value}

lemma IsProper.ofConj (ha : acc.IsProper) (h : ∀ c ∈ cs, (of c).IsProper) :
    (ofConj acc cs).IsProper := by
  induction cs generalizing acc with
  | nil => rwa [Interval.ofConj]
  | cons c cs ih =>
    rw [List.forall_mem_cons] at h
    rw [Interval.ofConj]
    exact ih (ha.intersect h.1) h.2

lemma IsProper.ofDisj (ha : acc.IsProper) (h : ∀ c ∈ cs, (of c).IsProper) :
    (ofDisj acc cs).IsProper := by
  induction cs generalizing acc with
  | nil => rwa [Interval.ofDisj]
  | cons c cs ih =>
    rw [List.forall_mem_cons] at h
    rw [Interval.ofDisj]
    exact ih (ha.hull h.1) h.2

lemma Describes.ofConj (ha : acc.Describes v) (h : ∀ c ∈ cs, (of c).Describes v) :
    (ofConj acc cs).Describes v := by
  induction cs generalizing acc with
  | nil => rwa [Interval.ofConj]
  | cons c cs ih =>
    rw [List.forall_mem_cons] at h
    rw [Interval.ofConj]
    exact ih (ha.intersect h.1) h.2

lemma Describes.ofDisj (ha : acc.IsProper) (hp : ∀ c ∈ cs, (of c).IsProper)
    (h : acc.Describes v ∨ ∃ c ∈ cs, (of c).Describes v) : (ofDisj acc cs).Describes v := by
  induction cs generalizing acc with
  | nil =>
    rw [Interval.ofDisj]
    exact h.resolve_right (by simp)
  | cons c cs ih =>
    rw [List.forall_mem_cons] at hp
    simp only [List.mem_cons, exists_eq_or_imp, ← or_assoc] at h
    rw [Interval.ofDisj]
    exact ih (ha.hull hp.1) hp.2 (h.imp_left (.hull ha hp.1))

end Interval

namespace Constraint

mutual

/-- No literal and no bound is NaN in a union, parts and negations apart; `inside` tells whether
there is a union around. -/
def hasProperUnions (inside : Bool) : Constraint → Bool
  | .equals v => !(inside && v.isNaN)
  | .bound _ n => !(inside && n.isNaN)
  | .conj cs => haveProperUnions inside cs
  | .disj cs => haveProperUnions true cs
  | _ => true
termination_by structural c => c

def haveProperUnions (inside : Bool) : List Constraint → Bool
  | [] => true
  | c :: cs => c.hasProperUnions inside && haveProperUnions inside cs
termination_by structural cs => cs

end

lemma haveProperUnions_iff {inside : Bool} {cs : List Constraint} :
    haveProperUnions inside cs ↔ ∀ c ∈ cs, c.hasProperUnions inside := by
  induction cs with
  | nil => simp [haveProperUnions]
  | cons c cs ih => simp [haveProperUnions, ih]

theorem isProper_of_hasProperUnions : ∀ {c : Constraint}, c.hasProperUnions true →
    (Interval.of c).IsProper
  | .conj cs, h => by
    rw [hasProperUnions, haveProperUnions_iff] at h
    rw [Interval.of]
    exact Interval.isProper_full.ofConj fun c hc => isProper_of_hasProperUnions (h c hc)
  | .disj (c :: cs), h => by
    rw [hasProperUnions, haveProperUnions_iff, List.forall_mem_cons] at h
    rw [Interval.of]
    exact (isProper_of_hasProperUnions h.1).ofDisj fun c hc =>
      isProper_of_hasProperUnions (h.2 c hc)
  | .equals v, h => by
    cases v with
    | number n =>
      have hn : n.isNaN = false := by simpa [hasProperUnions, Value.isNaN] using h
      simp [Interval.of, Interval.ofAtom?, Interval.IsProper, Interval.IsProperEnd, Interval.point,
        hn]
    | _ => exact Interval.isProper_full
  | .bound r n, h => Interval.isProper_ofBound (by simpa [hasProperUnions] using h)
  | .kind k, _ => by cases k <;> exact Interval.isProper_full
  | .disj [], _ | .field _ _, _ | .elements _, _ | .elementAt _ _, _ | .length _, _ | .neg _, _
  | .any, _ | .never, _ | .fix _, _ | .bvar _, _ | .ref _, _ | .var _, _ => Interval.isProper_full

structure TellsRange (S : Constraint → Prop) (v : Value) : Prop where
  equals : ∀ {u : Value}, S (.equals u) → v.same u
  bound : ∀ {r : Comparison} {n : Number}, S (.bound r n) → ∃ x, v = .number x ∧ r.holds x n
  conj : ∀ {cs : List Constraint}, S (.conj cs) → ∀ c ∈ cs, S c
  disj : ∀ {cs : List Constraint}, S (.disj cs) → ∃ c ∈ cs, S c

lemma tellsRange_holds (X : Value → Prop) (v : Value) : TellsRange (fun c => c.Holds X v) v :=
  ⟨id, id, holds_conj.mp, holds_disj.mp⟩

section Describes

variable {S : Constraint → Prop} {v : Value} (hS : TellsRange S v)
include hS

lemma describes_equals {u : Value} (h : S (.equals u)) : (Interval.of (.equals u)).Describes v := by
  replace h := hS.equals h
  cases u with
  | number n =>
    cases v <;> simp only [Value.same, Bool.false_eq_true] at h
    next x =>
    simp only [Interval.of, Interval.ofAtom?, Option.getD_some, Interval.Describes, Value.proper?]
    by_cases hx : x.isNaN
    · have hn : n.isNaN := by
        have heq := Value.isNaN_eq_of_same (v := .number x) (w := .number n) h
        simpa [Value.isNaN, hx] using heq.symm
      simp [hx, Interval.IsBlank, Interval.point, hn]
    · have heq : x.eq n := by simpa [Number.same, hx] using h
      simpa [hx] using Interval.contains_point.mpr heq
  | _ => exact Interval.describes_full v

lemma describes_bound {r : Comparison} {n : Number} (h : S (.bound r n)) :
    (Interval.of (.bound r n)).Describes v := by
  obtain ⟨x, rfl, hx⟩ := hS.bound h
  have hnan := (Comparison.not_isNaN_of_holds hx).1
  simpa [Interval.of, Interval.ofAtom?, Interval.Describes, Value.proper?, hnan] using hx

theorem describes_of_hasProperUnions : ∀ {c : Constraint} {inside : Bool},
    c.hasProperUnions inside → S c → (Interval.of c).Describes v
  | .conj cs, _, hc, h => by
    rw [hasProperUnions, haveProperUnions_iff] at hc
    rw [Interval.of]
    exact (Interval.describes_full v).ofConj fun c hm =>
      describes_of_hasProperUnions (hc c hm) (hS.conj h c hm)
  | .disj (c :: cs), _, hc, h => by
    rw [hasProperUnions, haveProperUnions_iff] at hc
    obtain ⟨d, hd, h⟩ := hS.disj h
    have hdesc := describes_of_hasProperUnions (hc d hd) h
    rw [List.forall_mem_cons] at hc
    rw [Interval.of]
    refine .ofDisj (isProper_of_hasProperUnions hc.1)
      (fun e he => isProper_of_hasProperUnions (hc.2 e he)) ?_
    rcases List.mem_cons.mp hd with rfl | hd
    · exact Or.inl hdesc
    · exact Or.inr ⟨d, hd, hdesc⟩
  | .equals u, _, _, h => describes_equals hS h
  | .bound r n, _, _, h => describes_bound hS h
  | .kind k, _, _, _ => by cases k <;> exact Interval.describes_full v
  | .disj [], _, _, _ | .field _ _, _, _, _ | .elements _, _, _, _ | .elementAt _ _, _, _, _
  | .length _, _, _, _ | .neg _, _, _, _ | .any, _, _, _ | .never, _, _, _ | .fix _, _, _, _
  | .bvar _, _, _, _ | .ref _, _, _, _ | .var _, _, _, _ => Interval.describes_full v

end Describes

theorem Fits.hasProperUnions {F : Fragment} : ∀ {c : Constraint}, c.Tidy F .plain →
    c.hasProperUnions F.unions
  | .conj cs, h => by
    rw [Constraint.hasProperUnions, haveProperUnions_iff]
    exact fun c hc => Fits.hasProperUnions ((fits_conj.mp h).2 c hc)
  | .disj cs, h => by
    rw [Constraint.hasProperUnions, haveProperUnions_iff]
    exact fun c hc => h.1 ▸ Fits.hasProperUnions ((fits_disj.mp h).2 c hc)
  | .equals v, h => by
    cases hu : F.unions with
    | true => simp [Constraint.hasProperUnions, h.2.2.1 hu]
    | false => rfl
  | .bound r n, h => by simp [Constraint.hasProperUnions, h.2 rfl]
  | .kind _, _ | .field _ _, _ | .elements _, _ | .elementAt _ _, _ | .length _, _ | .neg _, _
  | .any, _ | .never, _ | .fix _, _ | .bvar _, _ | .ref _, _ | .var _, _ => rfl

end Constraint

end Stagewise
