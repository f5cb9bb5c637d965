/-!
# Binary floating-point numbers of 64 bits

An exact model of the numbers that a float literal can denote. A magnitude is a whole
number of units of 2⁻¹⁰⁷⁴, written `mantissa · 2 ^ exponent` with a mantissa of at most 53
bits that is as large as possible; so equal magnitudes are equal pairs, and equality is
decidable without any appeal to machine arithmetic. Reading a ratio rounds it to the nearest
magnitude, an exact half to the even mantissa, and has no answer beyond the largest one.
-/
namespace Pseudocode.Number

/-- The whole number closest to `n / d`; of two equally close ones, the even one. -/
def nearestEven (n d : Nat) : Nat :=
  if 2 * (n % d) < d ∨ (2 * (n % d) = d ∧ (n / d) % 2 = 0) then n / d else n / d + 1

/-- Rounding never falls below the whole part. -/
theorem div_le_nearestEven (n d : Nat) : n / d ≤ nearestEven n d := by
  unfold nearestEven
  split <;> omega

/-- The number of units in one: a unit is 2⁻¹⁰⁷⁴. -/
def unitsPerOne : Nat := Nat.pow 2 1074

/-- A non-negative finite number, `mantissa · 2 ^ exponent` units. -/
structure Magnitude where
  mantissa : Nat
  exponent : Nat
  mantissa_lt : mantissa < Nat.pow 2 53
  exponent_le : exponent ≤ 2045
  /-- Only the smallest exponent admits a short mantissa. -/
  normal : exponent = 0 ∨ Nat.pow 2 52 ≤ mantissa
  deriving DecidableEq

namespace Magnitude

/-- How many units a magnitude is. -/
def units (m : Magnitude) : Nat := m.mantissa * Nat.pow 2 m.exponent

/-- The exponent for `u / den` units: the one that leaves 53 bits before rounding. -/
def exponentFor (u den : Nat) : Nat := (u / den).log2 - 52

/-- The step between magnitudes with the exponent for `u / den` units, in units of `1 / den`. -/
def stepFor (u den : Nat) : Nat := den * Nat.pow 2 (exponentFor u den)

theorem stepFor_pos (u : Nat) {den : Nat} (hd : 0 < den) : 0 < stepFor u den :=
  Nat.mul_pos hd (Nat.pow_pos (by decide))

/-- The mantissa has at most 53 bits before rounding. -/
theorem lt_pow_mul_stepFor (u : Nat) {den : Nat} (hd : 0 < den) :
    u < Nat.pow 2 53 * stepFor u den := by
  have bound : u / den < Nat.pow 2 (53 + exponentFor u den) :=
    Nat.lt_of_lt_of_le Nat.lt_log2_self
      (Nat.pow_le_pow_right (by decide) (by unfold exponentFor; omega))
  have split : Nat.pow 2 (53 + exponentFor u den) = Nat.pow 2 53 * Nat.pow 2 (exponentFor u den) :=
    Nat.pow_add 2 _ _
  rw [split, Nat.div_lt_iff_lt_mul hd, Nat.mul_assoc, Nat.mul_comm _ den] at bound
  exact bound

/-- Above the smallest exponent the mantissa has all of its 53 bits before rounding. -/
theorem pow_le_div_stepFor {u den : Nat} (hd : 0 < den) (h : exponentFor u den ≠ 0) :
    Nat.pow 2 52 ≤ u / stepFor u den := by
  have hne : u / den ≠ 0 := by
    intro h0
    simp [exponentFor, h0] at h
  have split : Nat.pow 2 (u / den).log2 = Nat.pow 2 52 * Nat.pow 2 (exponentFor u den) := by
    have hlog : (u / den).log2 = 52 + exponentFor u den := by
      unfold exponentFor at h ⊢
      omega
    rw [hlog]
    exact Nat.pow_add 2 _ _
  have bound : Nat.pow 2 (u / den).log2 ≤ u / den := Nat.log2_self_le hne
  rw [split, Nat.le_div_iff_mul_le hd, Nat.mul_assoc, Nat.mul_comm _ den] at bound
  exact (Nat.le_div_iff_mul_le (stepFor_pos u hd)).2 bound

/-- The magnitude closest to `num / den`, or nothing if that lies beyond the largest one. A
mantissa that rounds up to 54 bits is halved, which is exact. -/
def nearest? (num den : Nat) (hd : 0 < den) : Option Magnitude :=
  let u := num * unitsPerOne
  let e := exponentFor u den
  let m := nearestEven u (stepFor u den)
  if hm : m < Nat.pow 2 53 then
    if he : e ≤ 2045 then
      some ⟨m, e, hm, he, by
        rcases Nat.eq_zero_or_pos e with h0 | h0
        · exact .inl h0
        · exact .inr (Nat.le_trans (pow_le_div_stepFor hd (Nat.ne_of_gt h0))
            (div_le_nearestEven u _))⟩
    else none
  else
    if he : e + 1 ≤ 2045 then
      some ⟨Nat.pow 2 52, e + 1, by decide, he, .inr (Nat.le_refl _)⟩
    else none

end Magnitude

/-- A floating-point number of 64 bits. Zero has a sign; NaN is one value. -/
inductive Binary64 where
  | finite (negative : Bool) (magnitude : Magnitude)
  | infinite (negative : Bool)
  | nan
  deriving DecidableEq

/-- A decimal number, `significand · 10 ^ exponent`. -/
structure Decimal where
  significand : Nat
  exponent : Int
  deriving DecidableEq

namespace Decimal

/-- A decimal as a ratio of natural numbers. -/
def ratio (d : Decimal) : Nat × Nat :=
  match d.exponent with
  | .ofNat k => (d.significand * Nat.pow 10 k, 1)
  | .negSucc k => (d.significand, Nat.pow 10 (k + 1))

theorem ratio_pos (d : Decimal) : 0 < d.ratio.2 := by
  unfold ratio
  split
  · exact Nat.one_pos
  · exact Nat.pow_pos (by decide)

/-- The magnitude closest to a decimal, if there is one. -/
def magnitude? (d : Decimal) : Option Magnitude :=
  Magnitude.nearest? d.ratio.1 d.ratio.2 d.ratio_pos

end Decimal

/-- The number with a given sign and magnitude; without a magnitude it is infinite. -/
def Binary64.ofMagnitude? (negative : Bool) : Option Magnitude → Binary64
  | some m => .finite negative m
  | none => .infinite negative

/-- The number closest to a signed decimal; beyond the largest magnitude it is infinite. -/
def Binary64.ofDecimal (negative : Bool) (d : Decimal) : Binary64 :=
  .ofMagnitude? negative d.magnitude?

end Pseudocode.Number
