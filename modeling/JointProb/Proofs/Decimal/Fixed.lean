/-
  JointProb — decimals with a set number of places, written and read again.

  * `Text.readNumeral?_eq_some`: digits are read as the number that they
    denote;
  * `length_padded` and `ofDigitChars_padded`: zeros in front of digits give
    the width and leave the number;
  * `Literal.read?_withPoint`: what is written with a point is read as the
    same number;
  * `abs_roundQuotient_sub_le`: the nearest natural number is at most a half
    away;
  * `rounded places p` is `p` with that many places; `abs_rounded_sub_le`: how
    far it is from `p`, `rounded_eq_self`: a number that has no more places
    stays as it is;
  * `read?_fixed`: it is what a reader of the text for `p` finds.
-/
import JointProb.Decimal.Fixed
import JointProb.Proofs.Decimal.Literal
import JointProb.Proofs.Exact
import JointProb.Proofs.Spec.Line
import Mathlib.Algebra.Order.Field.Basic

namespace JointProb

/-- Digits are read as the number that they denote. -/
theorem Text.readNumeral?_eq_some {base : Nat} {cs : List Char} (hne : cs ≠ [])
    (hds : ∀ c ∈ cs, c.isDigit ∧ c.toNat - '0'.toNat < base)
    (hword : Nat.ofDigitChars base cs 0 < wordLimit) :
    readNumeral? base cs = some (Nat.ofDigitChars base cs 0) := by
  have hsign : ∀ ds, cs ≠ '+' :: ds := by
    rintro ds rfl
    exact absurd (hds '+' (List.mem_cons_self ..)).1 (by decide)
  have hdigits : ¬ (cs.isEmpty ∨
      ¬ cs.all fun c => c.isDigit && c.toNat - '0'.toNat < base) := by
    rw [not_or, not_not, List.isEmpty_iff, List.all_eq_true]
    exact ⟨hne, fun c hc => by simpa using hds c hc⟩
  simp only [readNumeral?, if_neg hdigits, if_pos hword]

namespace Decimal

/-! ## Digits -/

section

variable {base width n : Nat}

theorem length_padded (hbase : 1 < base) (hwidth : 0 < width) (h : n < base ^ width) :
    (padded base width n).length = width := by
  have hle := (Nat.length_toDigits_le_iff hbase hwidth).2 h
  simp only [padded, List.length_append, List.length_replicate]
  omega

/-- Zeros in front leave the number. -/
theorem ofDigitChars_padded (hbase : 1 < base) (hten : base ≤ 10) :
    Nat.ofDigitChars base (padded base width n) 0 = n := by
  rw [padded, Nat.ofDigitChars_append, Nat.ofDigitChars_replicate_zero, Nat.mul_zero,
    Nat.ofDigitChars_toDigits hbase hten]

theorem isDigit_of_mem_padded (hbase : 0 < base) (hten : base ≤ 10) :
    ∀ c ∈ padded base width n, c.isDigit := by
  intro c hc
  rcases List.mem_append.1 hc with hc | hc
  · rw [List.eq_of_mem_replicate hc]
    rfl
  · exact Nat.isDigit_of_mem_toDigits hbase hten hc

end

theorem tenPow_eq (n : Nat) : tenPow n = 10 ^ n := rfl

/-! ## Reading what is written -/

namespace Literal

/-- **What is written with a point is read as the same number.** -/
theorem read?_withPoint {places : Nat} (hplaces : 0 < places) (n : Nat) :
    read? (withPoint places n) = some (.finite false n (-places)) := by
  have hwhole : ∀ c ∈ Nat.toDigits 10 (n / tenPow places), c.isDigit :=
    fun c hc => Nat.isDigit_of_mem_toDigits (by decide) (by decide) hc
  have hfraction : ∀ c ∈ padded 10 places (n % tenPow places), c.isDigit :=
    isDigit_of_mem_padded (by decide) (by decide)
  have hlength : (padded 10 places (n % tenPow places)).length = places :=
    length_padded (by decide) hplaces (Nat.mod_lt n (Nat.pow_pos (by decide)))
  have hvalue : Nat.ofDigitChars 10
      (Nat.toDigits 10 (n / tenPow places) ++ padded 10 places (n % tenPow places)) 0 = n := by
    rw [Nat.ofDigitChars_append, Nat.ofDigitChars_ten_toDigits,
      Nat.ofDigitChars_eq_ofDigitChars_zero, hlength,
      ofDigitChars_padded (by decide) (by decide), tenPow_eq, Nat.div_add_mod]
  have hunsigned := Unsigned.mk hwhole (.point hfraction) (.inl Nat.toDigits_ne_nil) .absent
  rw [hvalue, hlength, List.append_nil, zero_sub] at hunsigned
  rw [withPoint, if_neg hplaces.ne']
  exact (Denotes.finite .absent hunsigned).read?_eq

end Literal

/-- As a rational number it has the power of ten as denominator. -/
theorem ofLiteral?_places {places : Nat} (hplaces : 0 < places) (n : Nat) :
    Scalar.ofLiteral? (.finite false n (-places)) = some ((n : ℚ) / 10 ^ places) := by
  have hexponent : (-(places : Int)).natAbs = places := by omega
  have hnegative : decide (-(places : Int) < 0) = true := by simp [hplaces]
  have hvalue : (OfScientific.ofScientific n true places : ℚ) = n / 10 ^ places := by
    change Rat.ofScientific n true places = _
    rw [Rat.ofScientific_true_def, Rat.mkRat_eq_div, Int.cast_natCast, Nat.cast_pow]
    rfl
  simp only [Scalar.ofLiteral?, hexponent, hnegative]
  rw [if_neg Bool.false_ne_true]
  exact congrArg some hvalue

/-! ## Rounding -/

/-- **The nearest natural number is at most a half away.** -/
theorem abs_roundQuotient_sub_le (num : Nat) {den : Nat} (hden : 0 < den) :
    |(roundQuotient num den : ℚ) - num / den| ≤ 1 / 2 := by
  have hpos : (0 : ℚ) < den := Nat.cast_pos.2 hden
  have hsplit : (num : ℚ) / den = (num / den : ℕ) + (num % den : ℕ) / den := by
    rw [div_eq_iff hpos.ne', add_mul, div_mul_cancel₀ _ hpos.ne', mul_comm]
    exact_mod_cast (Nat.div_add_mod num den).symm
  have hrest : num % den < den := Nat.mod_lt num hden
  unfold roundQuotient
  dsimp only
  split_ifs with hdown
  · have hle : 2 * (num % den) ≤ den := by omega
    have hhalf : ((num % den : ℕ) : ℚ) / den ≤ 1 / 2 := by
      rw [div_le_div_iff₀ hpos two_pos, one_mul, mul_comm]
      exact_mod_cast hle
    rw [hsplit, sub_add_cancel_left, abs_neg, abs_of_nonneg (div_nonneg (Nat.cast_nonneg _) hpos.le)]
    exact hhalf
  · have hge : den ≤ 2 * (num % den) := by omega
    have hhalf : 1 / 2 ≤ ((num % den : ℕ) : ℚ) / den := by
      rw [div_le_div_iff₀ two_pos hpos, one_mul, mul_comm]
      exact_mod_cast hge
    have hone : ((num % den : ℕ) : ℚ) / den ≤ 1 :=
      (div_le_one₀ hpos).2 (Nat.cast_le.2 hrest.le)
    rw [hsplit, Nat.cast_add, Nat.cast_one, add_sub_add_left_eq_sub, abs_of_nonneg (by linarith)]
    linarith

variable {places : Nat} {p : ℚ}

/-- The number with a number of places that is nearest to a number that is not
    negative. -/
def rounded (places : Nat) (p : ℚ) : ℚ :=
  roundQuotient (p.num.natAbs * tenPow places) p.den / 10 ^ places

/-- How many units of the last place a number is. -/
theorem units_eq (hp : 0 ≤ p) :
    ((p.num.natAbs * tenPow places : ℕ) : ℚ) / p.den = p * 10 ^ places := by
  have hnum : ((p.num.natAbs : ℕ) : ℚ) = p.num := by
    rw [← Int.cast_natCast, Int.natAbs_of_nonneg (Rat.num_nonneg.2 hp)]
  rw [Nat.cast_mul, hnum, tenPow_eq, Nat.cast_pow, mul_div_right_comm, Rat.num_div_den]
  rfl

/-- **A number is rounded by at most half a unit of the last place.** -/
theorem abs_rounded_sub_le (hp : 0 ≤ p) : |rounded places p - p| ≤ 1 / 2 / 10 ^ places := by
  have hten : (0 : ℚ) < 10 ^ places := by positivity
  have hnear := abs_roundQuotient_sub_le (p.num.natAbs * tenPow places) p.den_pos
  rw [units_eq hp] at hnear
  have hscale : rounded places p - p =
      (roundQuotient (p.num.natAbs * tenPow places) p.den - p * 10 ^ places) / 10 ^ places := by
    rw [rounded, sub_div, mul_div_cancel_right₀ _ hten.ne']
  rw [hscale, abs_div, abs_of_pos hten]
  exact div_le_div_of_nonneg_right hnear hten.le

/-- A natural number at most a half above a bound is within it. -/
theorem le_of_abs_sub_le {m n : Nat} {x : ℚ} (h : |(m : ℚ) - x| ≤ 1 / 2) (hx : x ≤ n) : m ≤ n := by
  have hlt : (m : ℚ) < n + 1 := by linarith [(abs_le.1 h).2]
  exact Nat.lt_succ_iff.1 (by exact_mod_cast hlt)

theorem isProbability_rounded (hp : IsProbability p) : IsProbability (rounded places p) := by
  have hten : (0 : ℚ) < 10 ^ places := by positivity
  have hnear := abs_roundQuotient_sub_le (p.num.natAbs * tenPow places) p.den_pos
  rw [units_eq hp.1] at hnear
  refine ⟨div_nonneg (Nat.cast_nonneg _) hten.le, ?_⟩
  rw [rounded, div_le_one₀ hten]
  have hle : p * 10 ^ places ≤ (10 ^ places : ℕ) := by
    rw [Nat.cast_pow]
    exact mul_le_of_le_one_left hten.le hp.2
  exact_mod_cast le_of_abs_sub_le hnear hle

/-- **A number with that many places stays as it is.** -/
theorem rounded_eq_self {k : Nat} (hk : p = k / 10 ^ places) : rounded places p = p := by
  have hten : (0 : ℚ) < 10 ^ places := by positivity
  have hp : 0 ≤ p := hk ▸ div_nonneg (Nat.cast_nonneg k) hten.le
  have hunits : p * 10 ^ places = k := by rw [hk, div_mul_cancel₀ _ hten.ne']
  have hnear := abs_roundQuotient_sub_le (p.num.natAbs * tenPow places) p.den_pos
  rw [units_eq hp, hunits] at hnear
  have hle := le_of_abs_sub_le hnear le_rfl
  rw [abs_sub_comm] at hnear
  have hge := le_of_abs_sub_le hnear le_rfl
  rw [rounded, Nat.le_antisymm hle hge, hk]

/-! ## Rational numbers as texts -/

/-- A rational number in full is a fraction. -/
instance : DecimalText ℚ where
  shortest p := toString p
  fixed places p := fixed places (p < 0) p.num.natAbs p.den

theorem toList_fixed (places : Nat) (hp : 0 ≤ p) :
    (DecimalText.fixed places p).toList =
      withPoint places (roundQuotient (p.num.natAbs * tenPow places) p.den) := by
  have hsign : decide (p < 0) = false := decide_eq_false (not_lt.2 hp)
  simp only [DecimalText.fixed, fixed, signed, hsign, Bool.false_eq_true, if_false,
    String.toList_ofList]

/-- **What is written is read as the rounded number.** -/
theorem read?_fixed (hplaces : 0 < places) (hp : 0 ≤ p) :
    (Literal.read? (DecimalText.fixed places p).toList).bind Scalar.ofLiteral? =
      some (rounded places p) := by
  rw [toList_fixed places hp, Literal.read?_withPoint hplaces, Option.bind_some,
    ofLiteral?_places hplaces, rounded]

theorem inNumber_fixed (hplaces : 0 < places) (hp : 0 ≤ p) :
    ∀ c ∈ (DecimalText.fixed places p).toList, Literal.inNumber c := by
  rw [toList_fixed places hp]
  exact Literal.forall_inNumber (Literal.read?_withPoint hplaces _)

end Decimal

end JointProb
