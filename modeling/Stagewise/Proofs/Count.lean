import Mathlib.Algebra.Group.Nat.Defs
import Mathlib.Tactic.Common
import Stagewise.Number.Basic

/-! Counts as numbers: below `2 ^ 53` they are exact, so their order is that of the counts. -/

set_option autoImplicit false

namespace Stagewise.Number

def exactCount : Nat := 2 ^ 53

lemma toNat_bits_ofMagnitude {m : Nat} (h : m ≤ infinityMagnitude) :
    (ofMagnitude false m).bits.toNat = m := by
  simp only [ofMagnitude, Bool.false_eq_true, if_false, Nat.zero_add, UInt64.toNat_ofNat']
  exact Nat.mod_eq_of_lt (Nat.lt_of_le_of_lt h (by decide))

lemma magnitude_ofMagnitude {m : Nat} (h : m ≤ infinityMagnitude) :
    (ofMagnitude false m).magnitude = m := by
  rw [magnitude, toNat_bits_ofMagnitude h]
  exact Nat.mod_eq_of_lt (Nat.lt_of_le_of_lt h (by decide))

lemma place_ofMagnitude {m : Nat} (h : m ≤ infinityMagnitude) :
    (ofMagnitude false m).place = m := by
  have hn : (ofMagnitude false m).isNegative = false := by
    rw [isNegative, decide_eq_false_iff_not, UInt64.le_iff_toNat_le, toNat_bits_ofMagnitude h]
    exact Nat.not_le.mpr (Nat.lt_of_le_of_lt h (by decide))
  simp [place, hn, magnitude_ofMagnitude h]

lemma isNaN_ofMagnitude {m : Nat} (h : m ≤ infinityMagnitude) :
    (ofMagnitude false m).isNaN = false := by
  simpa [isNaN, magnitude_ofMagnitude h] using h

def countMagnitude (n : Nat) : Nat :=
  if n = 0 then 0 else (n.log2 + 1022) * leadingBit + n * 2 ^ (52 - n.log2)

lemma log2_le_of_lt_exactCount {n : Nat} (h : n < exactCount) : n.log2 ≤ 52 := by
  by_cases hn : n = 0
  · simp [hn]
  · exact Nat.lt_succ_iff.mp ((Nat.log2_lt hn).mpr h)

lemma countMagnitude_lt {n : Nat} (h : n < exactCount) :
    countMagnitude n < (n.log2 + 1024) * leadingBit := by
  unfold countMagnitude
  split_ifs with hn
  · exact Nat.mul_pos (by omega) (by decide)
  · have ht := log2_le_of_lt_exactCount h
    have hlt : n * 2 ^ (52 - n.log2) < 2 ^ (n.log2 + 1) * 2 ^ (52 - n.log2) :=
      Nat.mul_lt_mul_of_pos_right Nat.lt_log2_self (Nat.two_pow_pos _)
    rw [← Nat.pow_add, show n.log2 + 1 + (52 - n.log2) = 53 by omega] at hlt
    simp only [leadingBit]
    omega

lemma le_countMagnitude {n : Nat} (hn : n ≠ 0) (h : n < exactCount) :
    (n.log2 + 1023) * leadingBit ≤ countMagnitude n := by
  rw [countMagnitude, if_neg hn]
  have ht := log2_le_of_lt_exactCount h
  have hle : 2 ^ n.log2 * 2 ^ (52 - n.log2) ≤ n * 2 ^ (52 - n.log2) :=
    Nat.mul_le_mul_right _ (Nat.log2_self_le hn)
  rw [← Nat.pow_add, show n.log2 + (52 - n.log2) = 52 by omega] at hle
  rw [show n.log2 + 1023 = n.log2 + 1022 + 1 by omega, Nat.succ_mul]
  exact Nat.add_le_add_left hle _

lemma countMagnitude_le {n : Nat} (h : n < exactCount) : countMagnitude n ≤ infinityMagnitude := by
  have hlt := countMagnitude_lt h
  have ht := log2_le_of_lt_exactCount h
  simp only [leadingBit, infinityMagnitude] at hlt ⊢
  omega

lemma countMagnitude_strictMono {m n : Nat} (hmn : m < n) (h : n < exactCount) :
    countMagnitude m < countMagnitude n := by
  have hn : n ≠ 0 := by omega
  have hlower := le_countMagnitude hn h
  by_cases hm : m = 0
  · rw [countMagnitude, if_pos hm]
    exact Nat.lt_of_lt_of_le (Nat.mul_pos (by omega) (by decide)) hlower
  · rcases Nat.lt_or_ge m.log2 n.log2 with hlog | hlog
    · have hupper := countMagnitude_lt (Nat.lt_trans hmn h)
      have hstep : (m.log2 + 1024) * leadingBit ≤ (n.log2 + 1023) * leadingBit :=
        Nat.mul_le_mul_right _ (by omega)
      omega
    · have heq : m.log2 = n.log2 := by
        have h1 : 2 ^ m.log2 < 2 ^ (n.log2 + 1) :=
          Nat.lt_of_le_of_lt (Nat.log2_self_le hm) (Nat.lt_trans hmn Nat.lt_log2_self)
        have := (Nat.pow_lt_pow_iff_right (by decide : 1 < 2)).mp h1
        omega
      rw [countMagnitude, countMagnitude, if_neg hm, if_neg hn, heq]
      exact Nat.add_lt_add_left (Nat.mul_lt_mul_of_pos_right hmn (Nat.two_pow_pos _)) _

lemma shiftRounded_zero (n : Nat) : shiftRounded n 0 = n := by
  simp [shiftRounded, Nat.mod_one]

lemma ofNat_eq {n : Nat} (h : n < exactCount) :
    ofNat n = ofMagnitude false (countMagnitude n) := by
  have hle := countMagnitude_le h
  have ht := log2_le_of_lt_exactCount h
  by_cases hn : n = 0
  · simp [ofNat, ofScaled, countMagnitude, hn]
  · have hunit : Max.max ((n.log2 : Int) + 0 - 52) (-1074) = n.log2 - 52 := by omega
    have hexp : ((n.log2 : Int) - 52 + 1074).toNat = n.log2 + 1022 := by omega
    have hround : (if 0 ≤ ((n.log2 : Int) - 52 - 0) then
        shiftRounded n ((n.log2 : Int) - 52 - 0).toNat
        else n <<< (-((n.log2 : Int) - 52 - 0)).toNat) = n * 2 ^ (52 - n.log2) := by
      split_ifs with hdrop
      · have he : n.log2 = 52 := by omega
        simp [he, shiftRounded_zero]
      · rw [Nat.shiftLeft_eq, show (-((n.log2 : Int) - 52 - 0)).toNat = 52 - n.log2 by omega]
    simp only [ofNat, ofScaled, if_neg hn, hunit, hexp, hround]
    rw [countMagnitude, if_neg hn] at hle ⊢
    rw [Nat.min_eq_left hle]

lemma isNaN_ofNat (n : Nat) : (ofNat n).isNaN = false := by
  rw [ofNat, ofScaled]
  split_ifs
  · exact isNaN_ofMagnitude (by decide)
  · exact isNaN_ofMagnitude (Nat.min_le_right _ _)

lemma zero_le_ofNat {n : Nat} (h : n < exactCount) : zero.le (ofNat n) := by
  rw [le, isNaN_ofNat, ofNat_eq h, place_ofMagnitude (countMagnitude_le h), zero,
    isNaN_ofMagnitude (by decide), place_ofMagnitude (by decide)]
  simp

lemma exists_ofNat_eq {m : Nat} (h : exactCount ≤ m) :
    ∃ k, 1076 * leadingBit ≤ k ∧ ofNat m = ofMagnitude false (Min.min k infinityMagnitude) := by
  have hm : m ≠ 0 := by
    simp only [exactCount] at h
    omega
  have ht : 53 ≤ m.log2 := (Nat.le_log2 hm).mpr h
  have hunit : Max.max ((m.log2 : Int) + 0 - 52) (-1074) = m.log2 - 52 := by omega
  have hexp : ((m.log2 : Int) - 52 + 1074).toNat = m.log2 + 1022 := by omega
  have hdrop : (0 : Int) ≤ (m.log2 : Int) - 52 - 0 := by omega
  have hround : leadingBit ≤ shiftRounded m ((m.log2 : Int) - 52 - 0).toNat := by
    have hq : leadingBit ≤ m / 2 ^ (m.log2 - 52) := by
      rw [Nat.le_div_iff_mul_le (Nat.two_pow_pos _), leadingBit,
        show 0x10000000000000 = 2 ^ 52 by rfl, ← Nat.pow_add,
        show 52 + (m.log2 - 52) = m.log2 by omega]
      exact Nat.log2_self_le hm
    have hk : ((m.log2 : Int) - 52 - 0).toNat = m.log2 - 52 := by omega
    rw [hk, shiftRounded]
    simp only [Nat.shiftLeft_eq, Nat.one_mul]
    split_ifs <;> omega
  refine ⟨(m.log2 + 1022) * leadingBit + shiftRounded m ((m.log2 : Int) - 52 - 0).toNat, ?_, ?_⟩
  · have hle : 1075 * leadingBit ≤ (m.log2 + 1022) * leadingBit :=
      Nat.mul_le_mul_right _ (by omega)
    omega
  · simp only [ofNat, ofScaled, if_neg hm, hunit, hexp, if_pos hdrop]

lemma countMagnitude_lt_infinity {n : Nat} (h : n < exactCount) :
    countMagnitude n < Min.min (1076 * leadingBit) infinityMagnitude := by
  have ht := log2_le_of_lt_exactCount h
  have hupper : (n.log2 + 1024) * leadingBit ≤ 1076 * leadingBit :=
    Nat.mul_le_mul_right _ (by omega)
  have hlt := Nat.lt_of_lt_of_le (countMagnitude_lt h) hupper
  exact Nat.lt_min.mpr ⟨hlt, Nat.lt_of_lt_of_le hlt (by decide)⟩

lemma place_ofNat_lt_place_ofNat {m n : Nat} (hmn : m < n) (h : m < exactCount) :
    (ofNat m).place < (ofNat n).place := by
  rw [ofNat_eq h, place_ofMagnitude (countMagnitude_le h)]
  by_cases hn : n < exactCount
  · rw [ofNat_eq hn, place_ofMagnitude (countMagnitude_le hn), Int.ofNat_lt]
    exact countMagnitude_strictMono hmn hn
  · obtain ⟨k, hk, he⟩ := exists_ofNat_eq (Nat.not_lt.mp hn)
    rw [he, place_ofMagnitude (Nat.min_le_right _ _), Int.ofNat_lt]
    obtain ⟨hlt, hinf⟩ := Nat.lt_min.mp (countMagnitude_lt_infinity h)
    exact Nat.lt_min.mpr ⟨Nat.lt_of_lt_of_le hlt hk, hinf⟩

lemma ofNat_lt_ofNat {m n : Nat} (hmn : m < n) (h : m < exactCount) :
    (ofNat m).lt (ofNat n) := by
  simpa [lt, isNaN_ofNat] using place_ofNat_lt_place_ofNat hmn h

lemma ofNat_le_ofNat {m n : Nat} (hmn : m ≤ n) (h : m < exactCount) :
    (ofNat m).le (ofNat n) := by
  rcases Nat.lt_or_eq_of_le hmn with hlt | rfl
  · simpa [le, isNaN_ofNat] using Int.le_of_lt (place_ofNat_lt_place_ofNat hlt h)
  · simp [le, isNaN_ofNat]

lemma not_ofNat_le_ofNat {m n : Nat} (hmn : m < n) (h : m < exactCount) :
    (ofNat n).le (ofNat m) = false := by
  simpa [le, isNaN_ofNat] using place_ofNat_lt_place_ofNat hmn h

lemma not_ofNat_lt_ofNat {m n : Nat} (hnm : n ≤ m) (h : n < exactCount) :
    (ofNat m).lt (ofNat n) = false := by
  rcases Nat.lt_or_eq_of_le hnm with hlt | rfl
  · simpa [lt, isNaN_ofNat] using Int.le_of_lt (place_ofNat_lt_place_ofNat hlt h)
  · simp [lt, isNaN_ofNat]

lemma eq_of_same_ofNat {m n : Nat} (h : m < exactCount) (hs : (ofNat m).same (ofNat n)) :
    m = n := by
  have hplace : (ofNat m).place = (ofNat n).place := by
    simpa [same, eq, isNaN_ofNat] using hs
  rcases Nat.lt_trichotomy m n with hlt | he | hlt
  · have := place_ofNat_lt_place_ofNat hlt h
    omega
  · exact he
  · have := place_ofNat_lt_place_ofNat hlt (Nat.lt_trans hlt h)
    omega

lemma parts_of_magnitude {x : Number} {n : Nat} (hn : n ≠ 0) (h : n < exactCount)
    (hx : x.magnitude = countMagnitude n) :
    x.significand = n * 2 ^ (52 - n.log2) ∧ x.scale = (n.log2 : Int) - 52 := by
  have ht := log2_le_of_lt_exactCount h
  have hlo := le_countMagnitude hn h
  have hhi := countMagnitude_lt h
  -- the leading bit of the significand carries into the exponent
  have hdiv : x.magnitude / leadingBit = n.log2 + 1023 := by
    rw [hx, Nat.div_eq_iff (by decide)]
    simp only [leadingBit] at hlo hhi ⊢
    omega
  constructor
  · have hmod := Nat.mod_add_div x.magnitude leadingBit
    rw [significand, if_neg (by omega)]
    rw [hdiv] at hmod
    rw [hx, countMagnitude, if_neg hn] at hmod
    rw [hx, countMagnitude, if_neg hn]
    simp only [leadingBit] at hmod ⊢
    omega
  · rw [scale, hdiv]
    omega

lemma wholeMagnitude_of_magnitude {x : Number} {n : Nat} (h : n < exactCount)
    (hx : x.magnitude = countMagnitude n) : x.wholeMagnitude = n := by
  by_cases hn : n = 0
  · simp [wholeMagnitude, scale, significand, hx, countMagnitude, hn]
  · have ht := log2_le_of_lt_exactCount h
    obtain ⟨hsig, hscale⟩ := parts_of_magnitude hn h hx
    rw [wholeMagnitude, hscale, hsig]
    split_ifs with h0
    · have he : n.log2 = 52 := by omega
      simp [he]
    · rw [show (-((n.log2 : Int) - 52)).toNat = 52 - n.log2 by omega, Nat.shiftRight_eq_div_pow,
        Nat.mul_div_cancel _ (Nat.two_pow_pos _)]

lemma isIntegral_ofNat {n : Nat} (h : n < exactCount) : (ofNat n).isIntegral := by
  by_cases hn : n = 0
  · subst hn
    decide
  · have ht := log2_le_of_lt_exactCount h
    have hlt := (Nat.lt_min.mp (countMagnitude_lt_infinity h)).2
    have hm : (ofNat n).magnitude = countMagnitude n := by
      rw [ofNat_eq h, magnitude_ofMagnitude (countMagnitude_le h)]
    obtain ⟨hsig, hscale⟩ := parts_of_magnitude hn h hm
    have hfinite : (ofNat n).isFinite := by
      rw [isFinite, hm]
      exact decide_eq_true hlt
    have hunits : (-((n.log2 : Int) - 52)).toNat = 52 - n.log2 := by omega
    simp only [isIntegral, hfinite, hscale, hsig, hunits, Nat.shiftLeft_eq, Nat.one_mul,
      Nat.mul_mod_left, beq_self_eq_true, Bool.or_true, Bool.and_self]

lemma toCount_eq_of_eq {x : Number} {n : Nat} (h : n < exactCount) (hx : x.eq (ofNat n)) :
    x.toCount = n := by
  have hle := countMagnitude_le h
  have hlt := countMagnitude_lt h
  have ht := log2_le_of_lt_exactCount h
  simp only [eq, Bool.and_eq_true, Bool.not_eq_true', beq_iff_eq] at hx
  obtain ⟨⟨hnan, _⟩, hplace⟩ := hx
  rw [ofNat_eq h, place_ofMagnitude hle, place] at hplace
  rw [toCount, hnan, Bool.false_or]
  split_ifs at hplace ⊢ with hneg hinf
  · by_contra hn
    have hpos := le_countMagnitude (Ne.symm hn) h
    simp only [leadingBit] at hpos
    omega
  · simp only [isInfinite, beq_iff_eq, infinityMagnitude] at hinf
    simp only [leadingBit] at hlt
    omega
  · rw [wholeMagnitude_of_magnitude h (by omega)]
    simp only [exactCount] at h
    simp only [maxCount]
    omega

end Stagewise.Number
