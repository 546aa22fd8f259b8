import Mathlib.Data.EReal.Operations
import Stagewise.Proofs.Comparisons

/-! Intervals as sets of numbers. Every operation on intervals is described by the numbers that the
result contains; sums and differences, which round, by the exact values of the numbers. -/

set_option autoImplicit false

namespace Stagewise

/-! ### Exact values -/

namespace Number

def ratio (x : Number) : ℚ :=
  (if x.isNegative then -(x.significand : ℚ) else x.significand) * 2 ^ x.scale

noncomputable def exact (x : Number) : EReal :=
  if x.isFinite then ((x.ratio : ℝ) : EReal) else if x.isNegative then ⊥ else ⊤

def unsigned (m : Nat) : ℚ :=
  ((if m / leadingBit = 0 then m else leadingBit + m % leadingBit : Nat) : ℚ) *
    2 ^ (((m / leadingBit) ⊔ 1 : Nat) - 1075 : Int)

lemma unsigned_magnitude (x : Number) : unsigned x.magnitude = x.significand * 2 ^ x.scale := rfl

lemma unsigned_lt_succ (m : Nat) : unsigned m < unsigned (m + 1) := by
  have hpos (e : Int) : (0 : ℚ) < 2 ^ e := zpow_pos two_pos e
  have hmod := Nat.mod_lt m (show 0 < leadingBit by decide)
  have hsplit := Nat.div_add_mod m leadingBit
  simp only [unsigned]
  by_cases hlast : m % leadingBit + 1 = leadingBit
  · -- the significand is full, and the next one starts with an exponent that is one higher
    have hdiv : (m + 1) / leadingBit = m / leadingBit + 1 := by
      rw [show m + 1 = leadingBit * (m / leadingBit + 1) by rw [Nat.mul_add]; omega]
      exact Nat.mul_div_cancel_left _ (by decide)
    have hrem : (m + 1) % leadingBit = 0 := by
      rw [show m + 1 = leadingBit * (m / leadingBit + 1) by rw [Nat.mul_add]; omega]
      exact Nat.mul_mod_right _ _
    rw [hdiv, hrem, if_neg (Nat.succ_ne_zero _)]
    split_ifs with hzero
    · have hm : m < leadingBit := by rw [hzero] at hsplit; omega
      simp only [hzero, zero_add, Nat.add_zero, show (0 ⊔ 1 : Nat) = 1 from rfl,
        show (1 ⊔ 1 : Nat) = 1 from rfl]
      exact mul_lt_mul_of_pos_right (by exact_mod_cast hm) (hpos _)
    · obtain ⟨e, he⟩ := Nat.exists_eq_succ_of_ne_zero hzero
      have hexp : (((m / leadingBit + 1) ⊔ 1 : Nat) - 1075 : Int) =
          (((m / leadingBit) ⊔ 1 : Nat) - 1075 : Int) + 1 := by omega
      rw [hexp, zpow_add_one₀ two_ne_zero, ← mul_assoc, mul_right_comm]
      refine mul_lt_mul_of_pos_right ?_ (hpos _)
      norm_cast
      omega
  · have hdiv : (m + 1) / leadingBit = m / leadingBit := by
      unfold leadingBit at *
      omega
    have hrem : (m + 1) % leadingBit = m % leadingBit + 1 := by
      rw [Nat.add_mod, Nat.mod_eq_of_lt (show 1 < leadingBit by decide)]
      exact Nat.mod_eq_of_lt (by omega)
    rw [hdiv, hrem]
    refine mul_lt_mul_of_pos_right ?_ (hpos _)
    norm_cast
    split_ifs <;> omega

lemma unsigned_strictMono : StrictMono unsigned := strictMono_nat_of_lt_succ unsigned_lt_succ

lemma unsigned_zero : unsigned 0 = 0 := by simp [unsigned]

def signed (p : Int) : ℚ := p.sign * unsigned p.natAbs

lemma signed_of_nonneg {p : Int} (hp : 0 ≤ p) : signed p = unsigned p.natAbs := by
  rcases hp.eq_or_lt with rfl | hp
  · simp [signed, unsigned_zero]
  · simp [signed, Int.sign_eq_one_of_pos hp]

lemma signed_neg (p : Int) : signed (-p) = -signed p := by simp [signed]

lemma signed_lt_signed {p q : Int} (hlt : p < q) : signed p < signed q := by
  by_cases hp : 0 ≤ p
  · rw [signed_of_nonneg hp, signed_of_nonneg (hp.trans hlt.le)]
    exact unsigned_strictMono (by omega)
  · have hneg : signed p = -unsigned p.natAbs := by
      rw [← neg_neg p, signed_neg, signed_of_nonneg (by omega), neg_neg, Int.natAbs_neg]
    rw [hneg, neg_lt]
    by_cases hq : 0 ≤ q
    · have hzero : unsigned 0 ≤ unsigned q.natAbs := unsigned_strictMono.monotone (Nat.zero_le _)
      have hpos : unsigned 0 < unsigned p.natAbs := unsigned_strictMono (by omega)
      rw [unsigned_zero] at hzero hpos
      rw [signed_of_nonneg hq]
      exact lt_of_le_of_lt (neg_nonpos.mpr hzero) hpos
    · rw [← signed_neg, signed_of_nonneg (by omega), Int.natAbs_neg]
      exact unsigned_strictMono (by omega)

lemma signed_lt_signed_iff {p q : Int} : signed p < signed q ↔ p < q := by
  refine ⟨fun h => ?_, signed_lt_signed⟩
  by_contra hle
  rcases eq_or_lt_of_le (Int.not_lt.mp hle) with rfl | hlt
  · exact lt_irrefl _ h
  · exact lt_asymm h (signed_lt_signed hlt)

lemma ratio_eq_signed (x : Number) : x.ratio = signed x.place := by
  rw [ratio, place]
  split_ifs
  · rw [signed_neg, signed_of_nonneg (Int.natCast_nonneg _), Int.natAbs_natCast,
      unsigned_magnitude, neg_mul]
  · rw [signed_of_nonneg (Int.natCast_nonneg _), Int.natAbs_natCast, unsigned_magnitude]

lemma exact_of_isFinite {x : Number} (h : x.isFinite) : x.exact = ((x.ratio : ℝ) : EReal) :=
  if_pos h

variable {x y : Number}

lemma exact_lt_exact (hx : x.isNaN = false) (hy : y.isNaN = false) :
    x.exact < y.exact ↔ x.place < y.place := by
  have hpos : 0 < infinityMagnitude := by decide
  simp only [isNaN, decide_eq_false_iff_not, not_lt] at hx hy
  by_cases hfx : x.isFinite <;> by_cases hfy : y.isFinite
  · rw [exact_of_isFinite hfx, exact_of_isFinite hfy, EReal.coe_lt_coe_iff, Rat.cast_lt,
      ratio_eq_signed, ratio_eq_signed, signed_lt_signed_iff]
  all_goals
    simp only [isFinite, decide_eq_true_eq, not_lt] at hfx hfy
    simp only [exact, isFinite, place, hfx, hfy, decide_true, if_true, not_lt.mpr, decide_false,
      Bool.false_eq_true, if_false]
    split_ifs <;> simp <;> omega

lemma exact_eq_exact (hx : x.isNaN = false) (hy : y.isNaN = false) :
    x.exact = y.exact ↔ x.place = y.place := by
  have hlt := exact_lt_exact hx hy
  have hgt := exact_lt_exact hy hx
  rcases lt_trichotomy x.exact y.exact with h | h | h
  · exact iff_of_false h.ne (hlt.mp h).ne
  · refine iff_of_true h (le_antisymm ?_ ?_)
    · exact not_lt.mp fun hp => (hgt.mpr hp).ne' h
    · exact not_lt.mp fun hp => (hlt.mpr hp).ne h
  · exact iff_of_false h.ne' (hgt.mp h).ne'

lemma magnitude_neg (x : Number) : x.neg.magnitude = x.magnitude := by
  have hbits := x.bits.toNat_lt
  simp only [magnitude, neg, ofMagnitude, UInt64.toNat_ofNat']
  split_ifs <;> omega

lemma isNegative_neg (x : Number) : x.neg.isNegative = !x.isNegative := by
  have hbits := x.bits.toNat_lt
  have hmag : x.magnitude < 0x8000000000000000 := Nat.mod_lt _ (by decide)
  rw [isNegative, neg, ofMagnitude]
  cases x.isNegative <;>
    simp [UInt64.le_iff_toNat_le, UInt64.toNat_ofNat'] <;> omega

lemma isNaN_neg (x : Number) : x.neg.isNaN = x.isNaN := by rw [isNaN, isNaN, magnitude_neg]

lemma place_neg (x : Number) : x.neg.place = -x.place := by
  rw [place, place, isNegative_neg, magnitude_neg]
  cases x.isNegative <;> simp

lemma exact_neg (x : Number) : x.neg.exact = -x.exact := by
  rw [exact, exact, isFinite, isFinite, magnitude_neg, ratio_eq_signed, place_neg, signed_neg,
    ← ratio_eq_signed, isNegative_neg]
  cases x.isNegative <;> split_ifs <;> simp_all

def AddsExactly (x y : Number) : Prop :=
  (x.add y).isNaN = false ∧ (x.add y).exact = x.exact + y.exact

end Number

/-! ### The values that an interval spans -/

namespace Interval

open Constraint

variable {i j : Interval} {x y : Number} {q r : ℚ}

def Spans (i : Interval) (q : ℚ) : Prop :=
  (∀ a ∈ i.lo, a.value.exact < (q : ℝ) ∨ a.inclusive ∧ a.value.exact = (q : ℝ)) ∧
    ∀ b ∈ i.hi, (q : ℝ) < b.value.exact ∨ b.inclusive ∧ (q : ℝ) = b.value.exact

lemma clearsLow_iff {e : Option Endpoint} (he : IsProperEnd e) (hx : x.isNaN = false) :
    clearsLow e x ↔ ∀ a ∈ e, a.value.exact < x.exact ∨ a.inclusive ∧ a.value.exact = x.exact := by
  rcases e with _ | a
  · simp [clearsLow]
  · have ha : a.value.isNaN = false := he a rfl
    simp [clearsLow, Number.lt, Number.eq, ha, hx, Number.exact_lt_exact ha hx,
      Number.exact_eq_exact ha hx, @eq_comm _ x.place]

lemma clearsHigh_iff {e : Option Endpoint} (he : IsProperEnd e) (hx : x.isNaN = false) :
    clearsHigh e x ↔ ∀ b ∈ e, x.exact < b.value.exact ∨ b.inclusive ∧ x.exact = b.value.exact := by
  rcases e with _ | b
  · simp [clearsHigh]
  · have hb : b.value.isNaN = false := he b rfl
    simp [clearsHigh, Number.lt, Number.eq, hb, hx, Number.exact_lt_exact hx hb,
      Number.exact_eq_exact hx hb]

lemma contains_iff_spans (hi : i.IsProper) (hx : x.isFinite) :
    i.contains x ↔ i.Spans x.ratio := by
  have hnan : x.isNaN = false := by
    simp only [Number.isFinite, Number.isNaN, decide_eq_true_eq, decide_eq_false_iff_not] at hx ⊢
    omega
  rw [contains_eq, Bool.and_eq_true, clearsLow_iff hi.1 hnan, clearsHigh_iff hi.2 hnan,
    Number.exact_of_isFinite hx, Spans]

/-! ### Sums and differences -/

def AddsExactly (i j : Interval) : Prop :=
  (∀ a ∈ i.lo, ∀ b ∈ j.lo, a.value.AddsExactly b.value) ∧
    ∀ a ∈ i.hi, ∀ b ∈ j.hi, a.value.AddsExactly b.value

lemma Spans.add (h : i.AddsExactly j) (hq : i.Spans q) (hr : j.Spans r) :
    (i.add j).Spans (q + r) := by
  obtain ⟨lo, hi⟩ := i
  obtain ⟨lo', hi'⟩ := j
  rw [Spans, Rat.cast_add, EReal.coe_add]
  constructor
  · rcases lo with _ | a <;> rcases lo' with _ | b <;> simp only [Interval.add, addEnds,
      Option.mem_def, reduceCtorEq, false_implies, implies_true, Option.some.injEq, forall_eq']
    rw [(h.1 a rfl b rfl).2]
    rcases hq.1 a rfl with ha | ⟨ha, he⟩ <;> rcases hr.1 b rfl with hb | ⟨hb, he'⟩
    · exact Or.inl (EReal.add_lt_add ha hb)
    · exact Or.inl (he' ▸ EReal.add_lt_add_right_coe ha _)
    · exact Or.inl (he ▸ EReal.add_lt_add_left_coe hb _)
    · exact Or.inr ⟨by simp [ha, hb], by rw [he, he']⟩
  · rcases hi with _ | a <;> rcases hi' with _ | b <;> simp only [Interval.add, addEnds,
      Option.mem_def, reduceCtorEq, false_implies, implies_true, Option.some.injEq, forall_eq']
    rw [(h.2 a rfl b rfl).2]
    rcases hq.2 a rfl with ha | ⟨ha, he⟩ <;> rcases hr.2 b rfl with hb | ⟨hb, he'⟩
    · exact Or.inl (EReal.add_lt_add ha hb)
    · exact Or.inl (he' ▸ EReal.add_lt_add_right_coe ha _)
    · exact Or.inl (he ▸ EReal.add_lt_add_left_coe hb _)
    · exact Or.inr ⟨by simp [ha, hb], by rw [he, he']⟩

lemma Spans.neg (h : i.Spans q) : i.neg.Spans (-q) := by
  obtain ⟨lo, hi⟩ := i
  rw [Spans, Rat.cast_neg, EReal.coe_neg]
  constructor
  · rcases hi with _ | b
    · simp [Interval.neg, negEnd]
    · simpa [Interval.neg, negEnd, Number.exact_neg, EReal.neg_lt_neg_iff, @eq_comm _ ((q : ℝ) : EReal)]
        using h.2 b rfl
  · rcases lo with _ | a
    · simp [Interval.neg, negEnd]
    · simpa [Interval.neg, negEnd, Number.exact_neg, EReal.neg_lt_neg_iff, @eq_comm _ ((q : ℝ) : EReal)]
        using h.1 a rfl

lemma Spans.sub (h : i.AddsExactly j.neg) (hq : i.Spans q) (hr : j.Spans r) :
    (i.sub j).Spans (q - r) := by
  rw [sub_eq_add_neg]
  exact hq.add h hr.neg

lemma contains_neg (i : Interval) (x : Number) : i.neg.contains x.neg = i.contains x := by
  have hbeq (p q : Int) : (-p == -q) = (p == q) := by
    rw [Bool.eq_iff_iff, beq_iff_eq, beq_iff_eq, neg_inj]
  have hlow (e : Option Endpoint) : clearsLow (negEnd e) x.neg = clearsHigh e x := by
    cases e <;> simp [negEnd, clearsLow, clearsHigh, Number.lt, Number.eq, Number.isNaN_neg,
      Number.place_neg, Bool.and_comm, hbeq]
  have hhigh (e : Option Endpoint) : clearsHigh (negEnd e) x.neg = clearsLow e x := by
    cases e <;> simp [negEnd, clearsLow, clearsHigh, Number.lt, Number.eq, Number.isNaN_neg,
      Number.place_neg, Bool.and_comm, hbeq]
  rw [contains_eq, contains_eq, neg, hlow, hhigh, Bool.and_comm]

/-! ### Intervals and constraints -/

lemma lt_of_contains_of_isBelow (h : i.isBelow j) (hx : i.contains x) (hy : j.contains y) :
    x.lt y := by
  obtain ⟨lo, hi⟩ := i
  obtain ⟨lo', hi'⟩ := j
  rcases hi with _ | a
  · simp [isBelow] at h
  rcases lo' with _ | b
  · simp [isBelow] at h
  simp only [contains_eq, clearsLow, clearsHigh, isBelow, Number.lt, Number.eq] at *
  grind

lemma areFixFree_bounds (i : Interval) : areFixFree i.bounds := by
  obtain ⟨lo, hi⟩ := i
  rcases lo with _ | a <;> rcases hi with _ | b <;> simp only [bounds, point?] <;>
    (try split_ifs) <;> rfl

lemma admits_toConstraint (i : Interval) (x : Number) :
    i.toConstraint.admits (.number x) ↔ i.contains x := by
  have hbounds := holds_bounds_iff i x fun _ => True
  have hnever : Constraint.never.admits (.number x) = false := rfl
  unfold toConstraint
  split_ifs with he
  · simp [hnever, not_contains_of_isEmpty he]
  rw [← hbounds]
  cases hp : i.point? with
  | some n => simp [admits_iff_holds (c := .equals (.number n)) rfl fun _ => True, bounds, hp]
  | none =>
    have hfree := areFixFree_bounds i
    cases hb : i.bounds with
    | nil => exact iff_of_true rfl (by simp)
    | cons c cs =>
      rw [hb] at hfree
      rw [admits_iff_holds (c := .conj (.kind .number :: c :: cs)) hfree fun _ => True, holds_conj,
        List.forall_mem_cons]
      exact and_iff_right rfl

end Interval

namespace Constraint

variable {unrolled : Nat → Value → Constraint → Bool × Nat} {budget : Nat} {v : Value}

lemma tellsRange_checkWith :
    TellsRange (fun c => ∃ budget, (checkWith unrolled budget v c).1) v where
  equals := fun ⟨_, h⟩ => by simpa [checkWith, BEq.beq] using h
  bound := fun ⟨_, h⟩ => by cases v <;> simp_all [checkWith]
  conj := fun ⟨_, h⟩ => by
    rw [checkWith, checkConj_eq_checkAll] at h
    exact exists_of_checkAll h
  disj := fun ⟨budget, h⟩ => by
    rw [checkWith, checkDisj_eq_checkAll] at h
    by_contra hn
    simp only [not_exists, not_and, Bool.not_eq_true] at hn
    have hall := @checkAll_of_forall _ (fun b c => opposite (checkWith unrolled b v c)) _ budget
      fun c hc b => by rw [opposite, hn c hc b, Bool.not_false]
    rw [opposite, hall] at h
    exact absurd h Bool.false_ne_true

lemma contains_of_admits {c : Constraint} {x : Number} (hc : c.hasProperUnions true)
    (h : c.admits (.number x)) : (Interval.of c).contains x := by
  have hd : (Interval.of c).Describes (.number x) := by
    rw [admits, show maxUnrolls = 4095 + 1 from rfl, check] at h
    exact describes_of_hasProperUnions tellsRange_checkWith hc ⟨_, h⟩
  by_cases hx : x.isNaN
  · have hf := Interval.isFull_of_isBlank (by simpa [Interval.Describes, Value.proper?, hx] using hd)
      (isProper_of_hasProperUnions hc)
    generalize Interval.of c = i at hf
    obtain ⟨lo, hi⟩ := i
    cases lo <;> cases hi <;> simp_all [Interval.isFull, Interval.contains]
  · simpa [Interval.Describes, Value.proper?, hx] using hd

end Constraint

namespace Interval

/-- The operations on intervals whose ends are numbers are the operations on the sets of numbers,
sums and differences are those of exact values where no end is rounded, and the range of a
constraint contains its numbers. -/
theorem intervals_as_sets {a b : Interval} (ha : a.IsProper) (hb : b.IsProper) :
    (∀ n, (a.intersect b).contains n ↔ a.contains n ∧ b.contains n) ∧
      (∀ n, a.contains n ∨ b.contains n → (a.hull b).contains n) ∧
      (a.isSubset b → ∀ n, a.contains n → b.contains n) ∧
      (a.isBelow b → ∀ n m, a.contains n → b.contains m → n.lt m) ∧
      (a.isEmpty → ∀ n, ¬ a.contains n) ∧
      (∀ n, a.contains n ↔ a.neg.contains n.neg) ∧
      (∀ n, a.toConstraint.admits (.number n) ↔ a.contains n) ∧
      (∀ n, n.isFinite → (a.contains n ↔ a.Spans n.ratio)) ∧
      (a.AddsExactly b → ∀ q r, a.Spans q → b.Spans r → (a.add b).Spans (q + r)) ∧
      (a.AddsExactly b.neg → ∀ q r, a.Spans q → b.Spans r → (a.sub b).Spans (q - r)) ∧
      ∀ c : Constraint, c.hasProperUnions true → ∀ n, c.admits (.number n) →
        (Interval.of c).contains n := by
  refine ⟨fun n => ?_, fun n => contains_hull ha hb, fun h n => contains_of_isSubset h,
    fun h n m => lt_of_contains_of_isBelow h, fun h n => ?_, fun n => ?_,
    admits_toConstraint a, fun n => contains_iff_spans ha, fun h q r => Spans.add h,
    fun h q r => Spans.sub h, fun c hc n => Constraint.contains_of_admits hc⟩
  · rw [contains_intersect ha hb, Bool.and_eq_true]
  · simp [not_contains_of_isEmpty h]
  · rw [contains_neg]

theorem intervals_as_sets_one_two :
    let a : Interval := ⟨some ⟨.ofNat 1, true⟩, some ⟨.ofNat 2, false⟩⟩
    let b : Interval := ⟨some ⟨.ofNat 3, true⟩, none⟩
    a.IsProper ∧ b.IsProper ∧ a.AddsExactly b ∧ a.Spans 1 ∧ b.Spans 3 ∧ (a.add b).Spans (1 + 3) ∧
      a.isBelow b ∧ (Number.ofNat 1).lt (.ofNat 3) := by
  intro a b
  have ha : a.IsProper := by simp [IsProper, IsProperEnd, a, Number.isNaN_ofNat]
  have hb : b.IsProper := by simp [IsProper, IsProperEnd, b, Number.isNaN_ofNat]
  have hsum : a.AddsExactly b := by
    have hexact : (Number.ofNat 1).AddsExactly (.ofNat 3) := by
      refine ⟨by decide +kernel, ?_⟩
      rw [Number.exact_of_isFinite (by decide +kernel), Number.exact_of_isFinite (by decide),
        Number.exact_of_isFinite (by decide), ← EReal.coe_add, ← Rat.cast_add]
      exact congrArg (fun q : ℚ => ((q : ℝ) : EReal)) (by decide +kernel)
    simp [AddsExactly, a, b, hexact]
  obtain ⟨-, -, -, hbelow, -, -, -, hspans, hadd, -, -⟩ := intervals_as_sets ha hb
  have hone : a.Spans 1 := by
    have h := (hspans (.ofNat 1) (by decide)).mp (by decide)
    rwa [show (Number.ofNat 1).ratio = 1 by decide +kernel] at h
  have hthree : b.Spans 3 := by
    have h := (contains_iff_spans hb (x := .ofNat 3) (by decide)).mp (by decide)
    rwa [show (Number.ofNat 3).ratio = 3 by decide +kernel] at h
  exact ⟨ha, hb, hsum, hone, hthree, hadd hsum 1 3 hone hthree, by decide,
    hbelow (by decide) _ _ (by decide) (by decide)⟩

end Interval

end Stagewise
