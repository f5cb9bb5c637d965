import Pseudocode.Literal
import Mathlib.Algebra.Field.Rat
import Mathlib.Algebra.GroupWithZero.Units.Basic
import Mathlib.Data.List.TakeWhile
import Mathlib.Tactic.FieldSimp
import Mathlib.Tactic.Ring

/-!
# Floats read back

The text of a float is read as the same float, provided that it is written without an exponent.
Rounding depends on a decimal only through its value, so that the zeros which the text drops or
adds, and the place of its point, do not matter; and the shortest decimal was chosen because it
reads back.
-/
namespace Pseudocode.Number

/-- Rounding a fraction does not depend on how far it is reduced. -/
theorem nearestEven_mul (n d : Nat) {k : Nat} (hk : 0 < k) :
    nearestEven (n * k) (d * k) = nearestEven n d := by
  have hlt : 2 * (n % d * k) < d * k ↔ 2 * (n % d) < d := by
    rw [← Nat.mul_assoc]
    exact Nat.mul_lt_mul_right hk
  have heq : 2 * (n % d * k) = d * k ↔ 2 * (n % d) = d := by
    rw [← Nat.mul_assoc]
    exact Nat.mul_left_inj (Nat.ne_of_gt hk)
  simp only [nearestEven, Nat.mul_mod_mul_right, Nat.mul_div_mul_right _ _ hk, hlt, heq]

namespace Magnitude

/-- The magnitude closest to a ratio does not depend on how far it is reduced. -/
theorem nearest?_mul {num den k : Nat} (hd : 0 < den) (hk : 0 < k) :
    nearest? (num * k) (den * k) (Nat.mul_pos hd hk) = nearest? num den hd := by
  have hu : num * k * unitsPerOne = num * unitsPerOne * k := Nat.mul_right_comm _ _ _
  have hexponent : exponentFor (num * unitsPerOne * k) (den * k) =
      exponentFor (num * unitsPerOne) den := by
    rw [exponentFor, Nat.mul_div_mul_right _ _ hk, exponentFor]
  have hstep : stepFor (num * unitsPerOne * k) (den * k) =
      stepFor (num * unitsPerOne) den * k := by
    rw [stepFor, hexponent, stepFor, Nat.mul_right_comm]
  have hmantissa : nearestEven (num * unitsPerOne * k) (stepFor (num * unitsPerOne * k) (den * k)) =
      nearestEven (num * unitsPerOne) (stepFor (num * unitsPerOne) den) := by
    rw [hstep, nearestEven_mul _ _ hk]
  simp only [nearest?, hu, hexponent, hmantissa]

/-- Equal ratios have the same closest magnitude. -/
theorem nearest?_congr {n d n' d' : Nat} (hd : 0 < d) (hd' : 0 < d') (h : n * d' = n' * d) :
    nearest? n d hd = nearest? n' d' hd' := by
  rw [← nearest?_mul hd hd', ← nearest?_mul hd' hd]
  simp only [h, Nat.mul_comm d d']

end Magnitude

namespace Decimal

/-- A decimal as a rational number. -/
def value (d : Decimal) : ℚ := d.significand * 10 ^ d.exponent

/-- The value of a decimal is the quotient of the ratio that is rounded. -/
theorem value_eq_ratio (d : Decimal) : d.value = (d.ratio.1 : ℚ) / d.ratio.2 := by
  obtain ⟨significand, exponent⟩ := d
  cases exponent with
  | ofNat k => simp [value, ratio]
  | negSucc k => simp [value, ratio, zpow_negSucc, div_eq_mul_inv]

/-- Decimals of one value have the same closest magnitude. -/
theorem magnitude?_congr {d d' : Decimal} (h : d.value = d'.value) :
    d.magnitude? = d'.magnitude? := by
  refine Magnitude.nearest?_congr d.ratio_pos d'.ratio_pos ?_
  have hpos : (d.ratio.2 : ℚ) ≠ 0 := Nat.cast_ne_zero.2 (Nat.ne_of_gt d.ratio_pos)
  have hpos' : (d'.ratio.2 : ℚ) ≠ 0 := Nat.cast_ne_zero.2 (Nat.ne_of_gt d'.ratio_pos)
  rw [value_eq_ratio, value_eq_ratio, div_eq_div_iff hpos hpos'] at h
  exact_mod_cast h

theorem ratio_negSucc (significand k : Nat) :
    (Decimal.mk significand (.negSucc k)).ratio = (significand, Nat.pow 10 (k + 1)) := rfl

end Decimal

theorem two_pow_pos (n : Nat) : 0 < Nat.pow 2 n := Nat.pow_pos (by decide)

theorem ten_pow_eq (n : Nat) : Nat.pow 10 n = Nat.pow 5 n * Nat.pow 2 n := Nat.mul_pow 5 2 n

theorem unitsPerOne_eq : unitsPerOne = Nat.pow 2 (1073 + 1) := congrArg (Nat.pow 2) rfl

theorem unitsPerOne_pos : 0 < unitsPerOne := by
  rw [unitsPerOne_eq]
  exact two_pow_pos _

namespace Magnitude

/-- The exponent of a magnitude can be told from its number of units. -/
theorem log2_units_sub (m : Magnitude) : m.units.log2 - 52 = m.exponent := by
  have hlt := m.mantissa_lt
  rcases m.normal with h | h
  · have hunits : m.units = m.mantissa := by rw [units, h]; exact Nat.mul_one _
    rw [hunits, h]
    by_cases hzero : m.mantissa = 0
    · simp [hzero]
    · have hlog : m.mantissa.log2 < 53 := (Nat.log2_lt hzero).2 hlt
      omega
  · have hlower : Nat.pow 2 (52 + m.exponent) ≤ m.units := by
      have hpow : Nat.pow 2 (52 + m.exponent) = Nat.pow 2 52 * Nat.pow 2 m.exponent :=
        Nat.pow_add 2 _ _
      rw [hpow]
      exact Nat.mul_le_mul_right _ h
    have hupper : m.units < Nat.pow 2 (52 + m.exponent + 1) := by
      have hpow : Nat.pow 2 (52 + m.exponent + 1) = Nat.pow 2 53 * Nat.pow 2 m.exponent := by
        rw [Nat.add_right_comm]
        exact Nat.pow_add 2 _ _
      rw [hpow]
      exact (Nat.mul_lt_mul_right (two_pow_pos m.exponent)).2 hlt
    have hne : m.units ≠ 0 := Nat.ne_of_gt (Nat.lt_of_lt_of_le (two_pow_pos _) hlower)
    have hlog : m.units.log2 = 52 + m.exponent := (Nat.log2_eq_iff hne).2 ⟨hlower, hupper⟩
    omega

/-- A magnitude is the one closest to itself. -/
theorem nearest?_units (m : Magnitude) (hpos : 0 < unitsPerOne) :
    nearest? m.units unitsPerOne hpos = some m := by
  have hexponent : exponentFor (m.units * unitsPerOne) unitsPerOne = m.exponent := by
    rw [exponentFor, Nat.mul_div_cancel _ hpos, log2_units_sub]
  have hmantissa : nearestEven (m.units * unitsPerOne)
      (stepFor (m.units * unitsPerOne) unitsPerOne) = m.mantissa := by
    have hstep : stepFor (m.units * unitsPerOne) unitsPerOne =
        1 * (Nat.pow 2 m.exponent * unitsPerOne) := by
      rw [stepFor, hexponent, Nat.one_mul, Nat.mul_comm]
    have hunits : m.units * unitsPerOne = m.mantissa * (Nat.pow 2 m.exponent * unitsPerOne) :=
      Nat.mul_assoc _ _ _
    rw [hstep, hunits, nearestEven_mul _ _ (Nat.mul_pos (two_pow_pos m.exponent) hpos)]
    simp [nearestEven, Nat.mod_one]
  simp only [nearest?, hexponent, hmantissa, m.mantissa_lt, m.exponent_le, dif_pos]

/-- The exact decimal of a magnitude has as many places as a single unit has. -/
theorem exact_eq (m : Magnitude) :
    m.exact = ⟨m.units * Nat.pow 5 (1073 + 1), .negSucc 1073⟩ := by
  have hsignificand : Nat.pow 5 1074 = Nat.pow 5 (1073 + 1) := congrArg (Nat.pow 5) rfl
  rw [exact, hsignificand]
  rfl

/-- The exact decimal reads back. -/
theorem magnitude?_exact (m : Magnitude) : m.exact.magnitude? = some m := by
  rw [← nearest?_units m unitsPerOne_pos]
  refine nearest?_congr _ _ ?_
  rw [exact_eq, Decimal.ratio_negSucc, ten_pow_eq, unitsPerOne_eq]
  exact Nat.mul_assoc _ _ _

theorem readsBack_iff {m : Magnitude} {d : Decimal} :
    m.readsBack d = true ↔ d.magnitude? = some m := by
  simp [readsBack]

theorem test_choose? {test : Decimal → Bool} {below above closer d : Decimal}
    (hcloser : closer = below ∨ closer = above) (h : choose? test below above closer = some d) :
    test d = true := by
  unfold choose? at h
  split at h
  · next hbelow habove =>
    obtain rfl := Option.some.inj h
    rcases hcloser with rfl | rfl
    · exact hbelow
    · exact habove
  · next hbelow _ =>
    obtain rfl := Option.some.inj h
    exact hbelow
  · next _ habove =>
    obtain rfl := Option.some.inj h
    exact habove
  · cases h

/-- A decimal that was found with a given number of digits reads back. -/
theorem magnitude?_withDigits? {m : Magnitude} {n : Nat} {d : Decimal}
    (h : m.withDigits? n = some d) : d.magnitude? = some m := by
  refine readsBack_iff.1 (test_choose? ?_ h)
  split
  · exact .inl rfl
  · exact .inr rfl

/-- The shortest decimal of a magnitude reads back. -/
theorem magnitude?_shortest (m : Magnitude) : m.shortest.magnitude? = some m := by
  rw [shortest]
  by_cases hzero : m.mantissa = 0
  · rw [if_pos hzero, ← magnitude?_exact m]
    have hunits : m.units = 0 := by rw [units, hzero, Nat.zero_mul]
    refine Decimal.magnitude?_congr ?_
    simp [Decimal.value, exact, hunits]
  · rw [if_neg hzero]
    cases hfound : (List.range' 1 17).findSome? m.withDigits? with
    | none => exact magnitude?_exact m
    | some d =>
        obtain ⟨n, -, hn⟩ := List.exists_of_findSome?_eq_some hfound
        exact magnitude?_withDigits? hn

end Magnitude

/-- Digits read behind a number shift it to the left. -/
theorem foldl_digits (n : Nat) (ds : List Char) :
    ds.foldl (fun n c => 10 * n + digitValue c) n = n * 10 ^ ds.length + ofDigits ds := by
  induction ds generalizing n with
  | nil => simp [ofDigits]
  | cons c ds ih =>
      rw [ofDigits, List.foldl_cons, List.foldl_cons, ih, ih, List.length_cons, Nat.pow_succ]
      ring

/-- The digits in front count as many places more as there are behind them. -/
theorem ofDigits_append (xs ys : List Char) :
    ofDigits (xs ++ ys) = ofDigits xs * 10 ^ ys.length + ofDigits ys := by
  rw [ofDigits, List.foldl_append, foldl_digits]
  rfl

theorem ofDigits_zeros (n : Nat) : ofDigits (List.replicate n '0') = 0 := by
  induction n with
  | zero => rfl
  | succ n ih =>
      rw [List.replicate_succ, ofDigits, List.foldl_cons, foldl_digits, ih]
      simp [digitValue]

theorem ofDigits_zero_cons (ds : List Char) : ofDigits ('0' :: ds) = ofDigits ds := by
  rw [ofDigits, List.foldl_cons, foldl_digits]
  simp [digitValue]

/-- The digits that are dropped are zeros. -/
theorem exists_dropFinalZeros_append (ds : List Char) :
    ∃ n, ds = dropFinalZeros ds ++ List.replicate n '0' := by
  refine ⟨(ds.reverse.takeWhile (· = '0')).length, ?_⟩
  have hzeros : ds.reverse.takeWhile (· = '0') =
      List.replicate (ds.reverse.takeWhile (· = '0')).length '0' := by
    rw [List.eq_replicate_iff]
    refine ⟨rfl, fun c hc => ?_⟩
    simpa using List.mem_takeWhile_imp hc
  have hsplit : ds.reverse = ds.reverse.takeWhile (· = '0') ++ ds.reverse.dropWhile (· = '0') :=
    (List.takeWhile_append_dropWhile).symm
  have hreverse := congrArg List.reverse hsplit
  rw [List.reverse_reverse, List.reverse_append, hzeros, List.reverse_replicate] at hreverse
  simpa [dropFinalZeros] using hreverse

/-- What is left of the digits of a positive number without the zeros at their end. -/
theorem exists_digits_eq {n : Nat} (hn : n ≠ 0) :
    ∃ k, digits n = dropFinalZeros (digits n) ++ List.replicate k '0' ∧
      n = ofDigits (dropFinalZeros (digits n)) * 10 ^ k ∧ dropFinalZeros (digits n) ≠ [] ∧
      ∀ c ∈ dropFinalZeros (digits n), c.isDigit = true := by
  obtain ⟨k, hk⟩ := exists_dropFinalZeros_append (digits n)
  have hvalue : n = ofDigits (dropFinalZeros (digits n)) * 10 ^ k := by
    have hdigits := ofDigits_digits n
    rw [hk, ofDigits_append, ofDigits_zeros] at hdigits
    simpa using hdigits.symm
  refine ⟨k, hk, hvalue, ?_, ?_⟩
  · intro hnil
    rw [hnil] at hvalue
    exact hn (by simpa [ofDigits] using hvalue)
  · intro c hc
    have hmem : c ∈ digits n := by
      rw [hk]
      exact List.mem_append_left _ hc
    exact isDigit_of_mem_digits hmem

/-- A text is the two rows of digits with a point between them. -/
structure PlainParts (cs whole fraction : List Char) : Prop where
  text_eq : cs = whole ++ '.' :: fraction
  whole_ne : whole ≠ []
  fraction_ne : fraction ≠ []
  whole_digit : ∀ c ∈ whole, c.isDigit = true
  fraction_digit : ∀ c ∈ fraction, c.isDigit = true

/-- Digits, a point, and digits. -/
def IsPlain (cs : List Char) : Prop := ∃ whole fraction, PlainParts cs whole fraction

/-- A plain text with the value that it is read as. -/
def PlainWith (cs : List Char) (value : ℚ) : Prop :=
  ∃ whole fraction, PlainParts cs whole fraction ∧
    (Binary64.decimalOf whole fraction 0).value = value

/-- A decimal has the value of all its digits, divided by a power of ten for the fraction. -/
theorem value_decimalOf (whole fraction : List Char) :
    (Binary64.decimalOf whole fraction 0).value =
      ofDigits (whole ++ fraction) / 10 ^ fraction.length := by
  simp [Binary64.decimalOf, Decimal.value, div_eq_mul_inv]

theorem isDigit_of_mem_zeros {n : Nat} {c : Char} (h : c ∈ List.replicate n '0') :
    c.isDigit = true := by
  rw [List.eq_of_mem_replicate h]
  rfl

section Point
variable {ds : List Char} (hds : ds ≠ []) (hdigit : ∀ c ∈ ds, c.isDigit = true)
include hds hdigit

/-- The point stands before the digits. -/
theorem plainWith_before (n : Nat) :
    PlainWith ('0' :: '.' :: (List.replicate n '0' ++ ds))
      (ofDigits ds * 10 ^ (-((n + ds.length : Nat) : Int))) := by
  refine ⟨['0'], List.replicate n '0' ++ ds, ⟨rfl, by simp, by simp [hds], by simp, ?_⟩, ?_⟩
  · intro c hc
    rcases List.mem_append.1 hc with hc | hc
    · exact isDigit_of_mem_zeros hc
    · exact hdigit c hc
  · rw [value_decimalOf, List.singleton_append, ofDigits_zero_cons, ofDigits_append,
      ofDigits_zeros, zpow_neg, zpow_natCast, div_eq_mul_inv]
    simp

/-- The point stands behind the digits. -/
theorem plainWith_behind (n : Nat) :
    PlainWith (ds ++ List.replicate n '0' ++ ['.', '0']) (ofDigits ds * 10 ^ (n : Int)) := by
  refine ⟨ds ++ List.replicate n '0', ['0'], ⟨by simp, by simp [hds], by simp, ?_, by simp⟩, ?_⟩
  · intro c hc
    rcases List.mem_append.1 hc with hc | hc
    · exact hdigit c hc
    · exact isDigit_of_mem_zeros hc
  · rw [value_decimalOf, ofDigits_append, ofDigits_append, ofDigits_zeros, zpow_natCast]
    simp [ofDigits, digitValue]

/-- The point stands within the digits. -/
theorem plainWith_within {k : Nat} (hk : k ≠ 0) (hlen : k < ds.length) :
    PlainWith (ds.take k ++ '.' :: ds.drop k)
      (ofDigits ds * 10 ^ (-((ds.length - k : Nat) : Int))) := by
  refine ⟨ds.take k, ds.drop k, ⟨rfl, by simp [hds, hk], by simpa using hlen, ?_, ?_⟩, ?_⟩
  · intro c hc
    exact hdigit c (List.mem_of_mem_take hc)
  · intro c hc
    exact hdigit c (List.mem_of_mem_drop hc)
  · rw [value_decimalOf, List.take_append_drop, List.length_drop, zpow_neg, zpow_natCast,
      div_eq_mul_inv]

/-- A decimal written with all its places is plain and has its value. -/
theorem plainWith_positional (point : Int) :
    PlainWith (positional ds point) (ofDigits ds * 10 ^ (point - ds.length)) := by
  cases point with
  | negSucc k =>
      have hpoint : Int.negSucc k - ds.length = -((k + 1 + ds.length : Nat) : Int) := by omega
      rw [hpoint]
      exact plainWith_before hds hdigit (k + 1)
  | ofNat k =>
      rw [positional]
      by_cases hk : k = 0
      · have hpoint : Int.ofNat k - ds.length = -((0 + ds.length : Nat) : Int) := by simp [hk]
        rw [if_pos hk, hpoint]
        exact plainWith_before hds hdigit 0
      rw [if_neg hk]
      by_cases hlen : ds.length ≤ k
      · have hpoint : Int.ofNat k - ds.length = ((k - ds.length : Nat) : Int) := by
          simp [Int.ofNat_sub hlen]
        rw [if_pos hlen, hpoint]
        exact plainWith_behind hds hdigit (k - ds.length)
      · have hpoint : Int.ofNat k - ds.length = -((ds.length - k : Nat) : Int) := by
          rw [Int.ofNat_eq_natCast]
          omega
        rw [if_neg hlen, hpoint]
        exact plainWith_within hds hdigit hk (Nat.lt_of_not_le hlen)

end Point

/-- A decimal that is written without an exponent has a plain text of its value. -/
theorem plainWith_text {style : Style} {d : Decimal} (h : 'e' ∉ d.text style) :
    PlainWith (d.text style) d.value := by
  rw [Decimal.text] at h ⊢
  by_cases hzero : d.significand = 0
  · rw [if_pos hzero]
    refine ⟨['0'], ['0'], ⟨rfl, by simp, by simp, by simp, by simp⟩, ?_⟩
    rw [value_decimalOf, Decimal.value, hzero]
    simp [ofDigits, digitValue]
  · rw [if_neg hzero] at h ⊢
    dsimp only at h ⊢
    by_cases hstyle : style.leastPoint ≤ (digits d.significand).length + d.exponent ∧
        (digits d.significand).length + d.exponent ≤ style.greatestPoint
    · rw [if_pos hstyle]
      obtain ⟨n, hn, hsignificand, hds, hdigit⟩ := exists_digits_eq hzero
      generalize dropFinalZeros (digits d.significand) = ds at hn hsignificand hds hdigit
      have hvalue : d.value =
          ofDigits ds * 10 ^ ((digits d.significand).length + d.exponent - ds.length) := by
        have hexponent : (digits d.significand).length + d.exponent - (ds.length : Int) =
            n + d.exponent := by
          rw [hn]
          simp only [List.length_append, List.length_replicate]
          omega
        rw [hexponent, zpow_add₀ (by norm_num), zpow_natCast, Decimal.value, hsignificand]
        push_cast
        ring
      rw [hvalue]
      exact plainWith_positional hds hdigit _
    · rw [if_neg hstyle] at h
      exact absurd (by simp [scientific]) h

/-- A plain text has digits in it and a point, and nothing else. -/
theorem isDigit_or_of_isPlain {cs : List Char} (h : IsPlain cs) :
    ∀ c ∈ cs, c.isDigit = true ∨ c = '.' := by
  obtain ⟨whole, fraction, hparts⟩ := h
  intro c hc
  rw [hparts.text_eq, List.mem_append, List.mem_cons] at hc
  rcases hc with hc | hc | hc
  · exact .inl (hparts.whole_digit c hc)
  · exact .inr hc
  · exact .inl (hparts.fraction_digit c hc)

/-- The two forms of a decimal: digits, a point and digits, or a row of digits, with or without a
point, and behind it a mark and an exponent. -/
theorem text_cases (style : Style) (d : Decimal) :
    IsPlain (d.text style) ∨ ∃ front exponent,
      d.text style = front ++ 'e' :: (integerText exponent).toList ∧
      (IsPlain front ∨ (front ≠ [] ∧ ∀ c ∈ front, c.isDigit = true)) := by
  rw [Decimal.text]
  by_cases hzero : d.significand = 0
  · rw [if_pos hzero]
    exact .inl ⟨['0'], ['0'], rfl, by simp, by simp, by simp, by simp⟩
  rw [if_neg hzero]
  dsimp only
  obtain ⟨-, -, -, hds, hdigit⟩ := exists_digits_eq hzero
  generalize dropFinalZeros (digits d.significand) = ds at hds hdigit
  by_cases hstyle : style.leastPoint ≤ (digits d.significand).length + d.exponent ∧
      (digits d.significand).length + d.exponent ≤ style.greatestPoint
  · rw [if_pos hstyle]
    obtain ⟨whole, fraction, hparts, -⟩ :=
      plainWith_positional hds hdigit ((digits d.significand).length + d.exponent)
    exact .inl ⟨whole, fraction, hparts⟩
  · rw [if_neg hstyle]
    refine .inr ⟨_, _, rfl, ?_⟩
    obtain ⟨c, rest, rfl⟩ := List.exists_cons_of_ne_nil hds
    rw [List.forall_mem_cons] at hdigit
    cases rest with
    | nil => exact .inr ⟨by simp, by simpa using hdigit.1⟩
    | cons b rest =>
        exact .inl ⟨[c], b :: rest, rfl, by simp, by simp, by simpa using hdigit.1, hdigit.2⟩

/-- **Plain texts read back**: if a float is written as digits, a point and digits, then reading
them gives the float. -/
theorem exists_readBack_of_isPlain {x : Binary64} (h : IsPlain (Literal.floatText x).toList) :
    ∃ whole fraction, PlainParts (Literal.floatText x).toList whole fraction ∧
      Binary64.ofDecimal false (Binary64.decimalOf whole fraction 0) = x := by
  have hchars := isDigit_or_of_isPlain h
  cases x with
  | nan => exact absurd (hchars 'N' (by decide)) (by decide)
  | infinite negative =>
      cases negative with
      | true => exact absurd (hchars '-' (by decide)) (by decide)
      | false => exact absurd (hchars 'i' (by decide)) (by decide)
  | finite negative m =>
      cases negative with
      | true =>
          have hsign : '-' ∈ (Literal.floatText (.finite true m)).toList := by
            simp [Literal.floatText, Binary64.text]
          exact absurd (hchars '-' hsign) (by decide)
      | false =>
          have htext : (Literal.floatText (.finite false m)).toList =
              m.shortest.text Literal.floatStyle := by
            simp [Literal.floatText, Binary64.text]
          rw [htext] at hchars ⊢
          have hexponent : 'e' ∉ m.shortest.text Literal.floatStyle := by
            intro he
            exact absurd (hchars 'e' he) (by decide)
          obtain ⟨whole, fraction, hparts, hvalue⟩ := plainWith_text hexponent
          refine ⟨whole, fraction, hparts, ?_⟩
          rw [Binary64.ofDecimal, Decimal.magnitude?_congr hvalue, m.magnitude?_shortest,
            Binary64.ofMagnitude?]

end Pseudocode.Number
