import Pseudocode.Proofs.Number.ReadBack
import Mathlib.Algebra.Order.Field.Basic
import Mathlib.Algebra.Order.Ring.Rat

/-!
# The range of floats

A decimal has a closest magnitude as long as it lies closer to the largest one, 2¹⁰²⁴ - 2⁹⁷¹, than
to 2¹⁰²⁴. Half way between the two the even mantissa is the one that does not fit any more, so the
limit itself is out of range already.
-/
namespace Pseudocode.Number

/-- Rounding to an even number or beyond it begins half a step below it. -/
theorem le_nearestEven_iff {n d k : Nat} (hd : 0 < d) (heven : k % 2 = 0) (hk : 0 < k) :
    k ≤ nearestEven n d ↔ (2 * k - 1) * d ≤ 2 * n := by
  have hsplit : d * (n / d) + n % d = n := Nat.div_add_mod n d
  have hmod : n % d < d := Nat.mod_lt n hd
  rcases Nat.lt_trichotomy k (n / d + 1) with hlt | heq | hgt
  · -- the quotient has reached it without rounding
    have hle : k ≤ nearestEven n d := Nat.le_trans (Nat.le_of_lt_succ hlt) (div_le_nearestEven n d)
    have hmul : (2 * k - 1) * d ≤ 2 * (n / d) * d := Nat.mul_le_mul_right d (by omega)
    have hassoc : 2 * (n / d) * d = 2 * (d * (n / d)) := by ring
    simp only [hle, true_iff]
    omega
  · -- the quotient is one short of it, and odd
    have hmul : (2 * k - 1) * d = 2 * (d * (n / d)) + d := by
      rw [heq, show 2 * (n / d + 1) - 1 = 2 * (n / d) + 1 by omega]
      ring
    rw [nearestEven]
    split <;> omega
  · have hnot : ¬ k ≤ nearestEven n d := by
      rw [nearestEven]
      split <;> omega
    have hmul : (2 * (n / d) + 3) * d ≤ (2 * k - 1) * d := Nat.mul_le_mul_right d (by omega)
    have hassoc : (2 * (n / d) + 3) * d = 2 * (d * (n / d)) + 3 * d := by ring
    simp only [hnot, false_iff]
    omega

namespace Magnitude

/-- Half way between the largest magnitude and the power of two behind it. -/
def limit : Nat := (Nat.pow 2 54 - 1) * Nat.pow 2 970

theorem limit_eq : limit = (2 * Nat.pow 2 53 - 1) * Nat.pow 2 970 := by
  have hdouble : Nat.pow 2 54 = 2 * Nat.pow 2 53 := Nat.pow_succ'
  rw [limit, hdouble]

/-- A sum in the exponent of two, where the exponents are too large to be computed with. -/
theorem two_pow_of_eq_add {n a b : Nat} (h : n = a + b) :
    Nat.pow 2 n = Nat.pow 2 a * Nat.pow 2 b := by
  rw [h]
  exact Nat.pow_add 2 a b

theorem two_pow_of_eq_add_units {n a : Nat} (h : n = a + (1073 + 1)) :
    Nat.pow 2 n = Nat.pow 2 a * unitsPerOne := by
  rw [unitsPerOne_eq]
  exact two_pow_of_eq_add h

/-- The limit lies below the power of two behind the largest magnitude. -/
theorem limit_le_pow : limit ≤ Nat.pow 2 54 * Nat.pow 2 970 :=
  Nat.mul_le_mul_right _ (Nat.sub_le _ 1)

/-- The limit lies above the power of two in front of it, so it has the greatest exponent. -/
theorem pow_le_limit : Nat.pow 2 53 * Nat.pow 2 970 ≤ limit := by
  rw [limit_eq]
  have hpos := two_pow_pos 53
  exact Nat.mul_le_mul_right _ (by omega)

section Rounding
variable {num den : Nat} (hd : 0 < den)

/-- A ratio is out of range by its exponent, or because its mantissa is rounded up. -/
theorem nearest?_eq_none_iff_exponent :
    nearest? num den hd = none ↔
      2046 ≤ exponentFor (num * unitsPerOne) den ∨
      exponentFor (num * unitsPerOne) den = 2045 ∧
        Nat.pow 2 53 ≤ nearestEven (num * unitsPerOne) (stepFor (num * unitsPerOne) den) := by
  simp only [nearest?]
  split
  · next hm =>
    split
    · next he => simp only [reduceCtorEq, false_iff]; omega
    · next he => simp only [true_iff]; omega
  · next hm =>
    split
    · next he => simp only [reduceCtorEq, false_iff]; omega
    · next he => simp only [true_iff]; omega

include hd in
/-- Below the greatest exponent a ratio lies well below the limit. -/
theorem lt_limit_mul_of_exponentFor_lt (h : exponentFor (num * unitsPerOne) den < 2045) :
    num < limit * den := by
  have hunits : Nat.pow 2 2044 = Nat.pow 2 970 * unitsPerOne := two_pow_of_eq_add_units rfl
  have hstep : stepFor (num * unitsPerOne) den ≤ den * Nat.pow 2 2044 :=
    Nat.mul_le_mul_left den (Nat.pow_le_pow_right (by decide) (by omega))
  have hmul : num * unitsPerOne < Nat.pow 2 53 * Nat.pow 2 970 * den * unitsPerOne :=
    calc num * unitsPerOne < Nat.pow 2 53 * stepFor (num * unitsPerOne) den :=
          lt_pow_mul_stepFor _ hd
      _ ≤ Nat.pow 2 53 * (den * Nat.pow 2 2044) := Nat.mul_le_mul_left _ hstep
      _ = Nat.pow 2 53 * Nat.pow 2 970 * den * unitsPerOne := by rw [hunits]; ring
  calc num < Nat.pow 2 53 * Nat.pow 2 970 * den := Nat.lt_of_mul_lt_mul_right hmul
    _ ≤ limit * den := Nat.mul_le_mul_right den pow_le_limit

include hd in
/-- Above the greatest exponent a ratio lies beyond the limit. -/
theorem limit_mul_le_of_lt_exponentFor (h : 2045 < exponentFor (num * unitsPerOne) den) :
    limit * den ≤ num := by
  have hunits : Nat.pow 2 2098 = Nat.pow 2 54 * Nat.pow 2 970 * unitsPerOne := by
    have hsplit : Nat.pow 2 2098 = Nat.pow 2 1024 * unitsPerOne := two_pow_of_eq_add_units rfl
    have hpow : Nat.pow 2 1024 = Nat.pow 2 54 * Nat.pow 2 970 := two_pow_of_eq_add rfl
    rw [hsplit, hpow]
  have hlog : 2098 ≤ (num * unitsPerOne / den).log2 := by
    unfold exponentFor at h
    omega
  have hquotient : Nat.pow 2 2098 ≤ num * unitsPerOne / den := by
    have hne : num * unitsPerOne / den ≠ 0 := by
      intro hzero
      simp [hzero] at hlog
    exact Nat.le_trans (Nat.pow_le_pow_right (by decide) hlog) (Nat.log2_self_le hne)
  have hmul : Nat.pow 2 54 * Nat.pow 2 970 * den * unitsPerOne ≤ num * unitsPerOne := by
    rw [Nat.le_div_iff_mul_le hd, hunits] at hquotient
    rw [Nat.mul_right_comm]
    exact hquotient
  calc limit * den ≤ Nat.pow 2 54 * Nat.pow 2 970 * den := Nat.mul_le_mul_right den limit_le_pow
    _ ≤ num := Nat.le_of_mul_le_mul_right hmul unitsPerOne_pos

include hd in
/-- At the greatest exponent the mantissa is rounded up from the limit on. -/
theorem pow_le_nearestEven_iff (h : exponentFor (num * unitsPerOne) den = 2045) :
    Nat.pow 2 53 ≤ nearestEven (num * unitsPerOne) (stepFor (num * unitsPerOne) den) ↔
      limit * den ≤ num := by
  have hunits : Nat.pow 2 2045 = Nat.pow 2 970 * (2 * unitsPerOne) := by
    have hsplit : Nat.pow 2 2045 = Nat.pow 2 971 * unitsPerOne := two_pow_of_eq_add_units rfl
    have hdouble : Nat.pow 2 971 = Nat.pow 2 970 * Nat.pow 2 1 := two_pow_of_eq_add rfl
    rw [hsplit, hdouble, Nat.mul_assoc]
  have hlimit : (2 * Nat.pow 2 53 - 1) * (den * Nat.pow 2 2045) =
      limit * den * (2 * unitsPerOne) := by
    rw [limit_eq, hunits]
    ring
  have hnum : 2 * (num * unitsPerOne) = num * (2 * unitsPerOne) := by ring
  have hpos : 0 < 2 * unitsPerOne := Nat.mul_pos (by decide) unitsPerOne_pos
  rw [le_nearestEven_iff (stepFor_pos _ hd) (by decide) (two_pow_pos 53), stepFor, h, hlimit, hnum]
  exact Nat.mul_le_mul_right_iff hpos

/-- **A ratio has no closest magnitude exactly from the limit on.** -/
theorem nearest?_eq_none_iff : nearest? num den hd = none ↔ limit * den ≤ num := by
  rw [nearest?_eq_none_iff_exponent]
  rcases Nat.lt_trichotomy (exponentFor (num * unitsPerOne) den) 2045 with hlt | heq | hgt
  · have hnum := lt_limit_mul_of_exponentFor_lt hd hlt
    omega
  · rw [← pow_le_nearestEven_iff hd heq]
    omega
  · have hnum := limit_mul_le_of_lt_exponentFor hd hgt
    omega

end Rounding

end Magnitude

/-- **A decimal is out of range exactly from the limit on.** -/
theorem Decimal.magnitude?_eq_none_iff (d : Decimal) :
    d.magnitude? = none ↔ (Magnitude.limit : ℚ) ≤ d.value := by
  have hpos : (0 : ℚ) < d.ratio.2 := Nat.cast_pos.2 d.ratio_pos
  rw [magnitude?, Magnitude.nearest?_eq_none_iff, value_eq_ratio, le_div_iff₀ hpos]
  exact_mod_cast Iff.rfl

end Pseudocode.Number
