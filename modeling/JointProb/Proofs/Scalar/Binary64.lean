/-
  JointProb — arithmetic of binary64 floating point.

  A sum of two numbers is the exact one, rounded to 53 digits, or fewer for the
  least exponent.

  * `Binary64.rank` is the order of the numbers; values that are not numbers
    have no place in it;
  * `Binary64.Rounded` says which significands and exponents numbers have, and
    `Binary64.exists_round` that rounding does not go below a number that is not
    above the exact value;
  * `Binary64.rounds`: adding a weight does not lower a sum;
  * `Binary64.Plus` are the numbers with a positive sign, which products and
    quotients keep;
  * `Binary64.mul_comm`: the factors of a product may be exchanged.
-/
import JointProb.Proofs.Weights
import JointProb.Scalar.Binary64
import Mathlib

namespace JointProb.Binary64

open Float.Model (UnpackedFloat Format totalExponent)
open Float.Model.UnpackedFloat

/-! ## Order -/

theorem le_iff_unpack (x y : Float) : x ≤ y ↔ x.toModel.unpack.le y.toModel.unpack = true := by
  change decide _ = true ↔ _
  rw [decide_eq_true_eq]
  rfl

theorem lt_iff_unpack (x y : Float) : x < y ↔ x.toModel.unpack.lt y.toModel.unpack = true := by
  change decide _ = true ↔ _
  rw [decide_eq_true_eq]
  rfl

theorem unpack_zero : (0 : Float).toModel.unpack = .zero .positive := rfl

/-- The place of a number in the order of all: its sign first, then its exponent
    and its significand, which count backwards below zero. -/
def rank : UnpackedFloat → Option (ℤ ×ₗ ℤ ×ₗ ℤ)
  | .notANumber => none
  | .infinity .negative => some (toLex (-2, toLex (0, 0)))
  | .finite .negative m e _ => some (toLex (-1, toLex (-e, -m)))
  | .zero _ => some (toLex (0, toLex (0, 0)))
  | .finite .positive m e _ => some (toLex (1, toLex (e, m)))
  | .infinity .positive => some (toLex (2, toLex (0, 0)))

theorem isLE_compare_then (e e' : ℤ) (m m' : ℕ) :
    ((compare e e').then (compare m m')).isLE = true ↔ e < e' ∨ e = e' ∧ m ≤ m' := by
  rw [Ordering.isLE_then_iff_or, Nat.isLE_compare, compare_lt_iff_lt, compare_eq_iff_eq]

theorem isGE_compare_then (e e' : ℤ) (m m' : ℕ) :
    ((compare e e').then (compare m m')).isGE = true ↔ e' < e ∨ e = e' ∧ m' ≤ m := by
  rw [Ordering.isGE_iff_ne_lt, Ordering.then_eq_lt, compare_lt_iff_lt, compare_eq_iff_eq,
    compare_lt_iff_lt]
  omega

theorem le_iff_rank (a b : UnpackedFloat) :
    a.le b = true ↔ ∃ x ∈ rank a, ∃ y ∈ rank b, x ≤ y := by
  have hnn : compare Sign.negative Sign.negative = .eq := rfl
  have hnp : compare Sign.negative Sign.positive = .lt := rfl
  have hpn : compare Sign.positive Sign.negative = .gt := rfl
  have hpp : compare Sign.positive Sign.positive = .eq := rfl
  rcases a with (_ | _) | _ | _ | ⟨_ | _, _, _, _⟩ <;>
    rcases b with (_ | _) | _ | _ | ⟨_ | _, _, _, _⟩ <;>
    simp [UnpackedFloat.le, UnpackedFloat.compare, rank, Prod.Lex.le_iff, isLE_compare_then,
      isGE_compare_then, hnn, hnp, hpn, hpp]

theorem le_trans {x y z : Float} (hxy : x ≤ y) (hyz : y ≤ z) : x ≤ z := by
  rw [le_iff_unpack, le_iff_rank] at *
  obtain ⟨a, ha, b, hb, hab⟩ := hxy
  obtain ⟨b', hb', c, hc, hbc⟩ := hyz
  obtain rfl := Option.mem_unique hb hb'
  exact ⟨a, ha, c, hc, hab.trans hbc⟩

/-- The numbers that are not negative. -/
theorem nonneg_cases {x : Float} (hx : 0 ≤ x) : (∃ s, x.toModel.unpack = .zero s) ∨
    (∃ m e h, x.toModel.unpack = .finite .positive m e h) ∨
      x.toModel.unpack = .infinity .positive := by
  rw [le_iff_unpack, unpack_zero] at hx
  generalize x.toModel.unpack = u at hx ⊢
  rcases u with (_ | _) | _ | s | ⟨_ | _, m, e, h⟩
  · cases hx
  · exact Or.inr (Or.inr rfl)
  · cases hx
  · exact Or.inl ⟨s, rfl⟩
  · cases hx
  · exact Or.inr (Or.inl ⟨m, e, h, rfl⟩)

theorem not_le_of_pos {x : Float} (hx : 0 < x) : ¬ x ≤ 0 := fun hle => by
  rw [lt_iff_unpack, unpack_zero] at hx
  rw [le_iff_unpack, unpack_zero] at hle
  generalize x.toModel.unpack = u at hx hle
  rcases u with (_ | _) | _ | s | ⟨_ | _, m, e, h⟩ <;>
    simp [UnpackedFloat.lt, UnpackedFloat.le, UnpackedFloat.compare] at hx hle

/-- A number that is neither infinite nor undefined is positive or not. -/
theorem pos_of_not_le {x : Float} (hfinite : x.isFinite) (hx : ¬ x ≤ 0) : 0 < x := by
  rw [lt_iff_unpack, unpack_zero]
  rw [le_iff_unpack, unpack_zero] at hx
  change x.toModel.unpack.isFinite = true at hfinite
  generalize x.toModel.unpack = u at hfinite hx ⊢
  rcases u with (_ | _) | _ | s | ⟨_ | _, m, e, h⟩ <;>
    simp [UnpackedFloat.lt, UnpackedFloat.le, UnpackedFloat.compare,
      UnpackedFloat.isFinite] at hfinite hx ⊢

/-! ## Rounding -/

/-- The significands and exponents that rounding leaves: at most 53 digits, and
    not less unless the exponent is the least one. -/
structure Rounded (m : ℕ) (e : ℤ) : Prop where
  lt : m < 2 ^ 53
  le_exponent : -1074 ≤ e
  normal : 2 ^ 52 ≤ m ∨ e = -1074

theorem targetExponent_eq (m : ℕ) (e : ℤ) :
    Format.binary64.targetExponent (totalExponent m e) = max (m.log2 + 1 + e - 53) (-1074) := rfl

theorem mantissa_shiftRight (em : ExtendedMantissa) (n : ℕ) :
    (em >>> n).mantissa = em.mantissa / 2 ^ n := by
  change (n.repeat ExtendedMantissa.shiftRightOne em).mantissa = _
  induction n with
  | zero => simp [Nat.repeat]
  | succ n ih =>
    rw [Nat.repeat, ExtendedMantissa.shiftRightOne, ih, Nat.div_div_eq_div_mul, Nat.pow_succ]

/-- Rounding a significand takes it to itself or to the next one. -/
theorem roundedMantissa_mem (em : ExtendedMantissa) :
    em.mantissa ≤ em.roundedMantissa ∧ em.roundedMantissa ≤ em.mantissa + 1 := by
  rcases em with ⟨m, _ | _, _ | _⟩ <;>
    simp only [ExtendedMantissa.roundedMantissa, ExtendedMantissa.accuracy,
      Accuracy.roundToNearestEven] <;> omega

/-- Digits too many are shifted out. -/
theorem exists_shift {m n : ℕ} {e : ℤ}
    (hn : (max (m.log2 + 1 + e - 53) (-1074) - e).toNat = n) : ∃ em : ExtendedMantissa,
      shiftToTargetExponent .binary64 m e .exact = (em, e + n) ∧ em.mantissa = m / 2 ^ n := by
  refine ⟨_, ?_, mantissa_shiftRight (ExtendedMantissa.ofMantissaAndAccuracy m .exact) n⟩
  rw [shiftToTargetExponent, shiftToExponent, targetExponent_eq, hn]

/-- The second shift: when rounding has carried to one digit more, the last
    digit is zero and goes. -/
theorem exists_carry {m : ℕ} {e : ℤ} (hm : m ≤ 2 ^ 53) (he : -1074 ≤ e)
    (hnormal : 2 ^ 52 ≤ m ∨ e = -1074) : ∃ em e',
      shiftToTargetExponent .binary64 m e .exact = (em, e') ∧ Rounded em.mantissa e' ∧
        (e < e' ∨ e = e' ∧ m ≤ em.mantissa) := by
  rcases hm.lt_or_eq with hlt | rfl
  · have hlog : m.log2 ≤ 52 := by
      rcases Nat.eq_zero_or_pos m with rfl | hpos
      · exact Nat.zero_le _
      · exact Nat.le_of_lt_succ ((Nat.log2_lt hpos.ne').2 hlt)
    obtain ⟨em, hshift, hem⟩ := exists_shift (m := m) (e := e) (n := 0) (by omega)
    rw [pow_zero, Nat.div_one] at hem
    rw [Nat.cast_zero, add_zero] at hshift
    exact ⟨em, e, hshift, hem ▸ ⟨hlt, he, hnormal⟩, Or.inr ⟨rfl, hem.ge⟩⟩
  · have hlog : (2 ^ 53 : ℕ).log2 = 53 := Nat.log2_two_pow
    obtain ⟨em, hshift, hem⟩ := exists_shift (m := 2 ^ 53) (e := e) (n := 1) (by omega)
    have hem' : em.mantissa = 2 ^ 52 := hem
    exact ⟨em, _, hshift, ⟨by omega, by omega, Or.inl hem'.ge⟩, Or.inl (by omega)⟩

theorem roundWithAccuracy_eq {m : ℕ} {e t e' : ℤ} {em em' : ExtendedMantissa}
    (hfirst : shiftToTargetExponent .binary64 m e .exact = (em, t))
    (hlast : shiftToTargetExponent .binary64 em.roundedMantissa t .exact = (em', e'))
    (h : 0 < em'.mantissa) :
    roundWithAccuracy .binary64 .positive m e .exact = .finite .positive em'.mantissa e' h := by
  simp only [roundWithAccuracy, hfirst, hlast]
  exact dif_neg h.ne'

theorem round_eq_of_le {m : ℕ} {e : ℤ} (h : e ≤ max (m.log2 + 1 + e - 53) (-1074)) :
    UnpackedFloat.round .binary64 .positive m e =
      roundWithAccuracy .binary64 .positive m e .exact := by
  have hshift : (e - Format.binary64.targetExponent (totalExponent m e)).toNat = 0 := by
    rw [targetExponent_eq]
    omega
  simp [UnpackedFloat.round, decreaseExponent, hshift]

/-- **Rounding does not go below a rounded number** that is not above the exact
    one. -/
theorem exists_round {m₀ m : ℕ} {e₀ e : ℤ} (h₀ : Rounded m₀ e₀) (hpos : 0 < m₀) (he : e ≤ e₀)
    (hm : m₀ * 2 ^ (e₀ - e).toNat ≤ m) : ∃ m' e' h,
      UnpackedFloat.round .binary64 .positive m e = .finite .positive m' e' h ∧ Rounded m' e' ∧
        (e₀ < e' ∨ e₀ = e' ∧ m₀ ≤ m') := by
  have hm0 : m ≠ 0 := ((Nat.mul_pos hpos (Nat.two_pow_pos _)).trans_le hm).ne'
  have htarget : e₀ ≤ max (m.log2 + 1 + e - 53) (-1074) := by
    rcases h₀.normal with h52 | rfl
    · have hlog : 52 + (e₀ - e).toNat ≤ m.log2 := by
        rw [Nat.le_log2 hm0, pow_add]
        exact (Nat.mul_le_mul_right _ h52).trans hm
      omega
    · exact le_max_right _ _
  rw [round_eq_of_le (he.trans htarget)]
  obtain ⟨n, hn⟩ : ∃ n, (max (m.log2 + 1 + e - 53) (-1074) - e).toNat = n := ⟨_, rfl⟩
  obtain ⟨em, hfirst, hem⟩ := exists_shift hn
  obtain ⟨hlow, hhigh⟩ := roundedMantissa_mem em
  -- the digits that are left are 53, or the exponent is the least one
  have hlt : em.mantissa < 2 ^ 53 := by
    rw [hem, Nat.div_lt_iff_lt_mul (Nat.two_pow_pos n), ← pow_add]
    exact Nat.lt_log2_self.trans_le (Nat.pow_le_pow_right two_pos (by omega))
  have hnormal : 2 ^ 52 ≤ em.mantissa ∨ e + n = -1074 := by
    rcases eq_or_ne (e + n) (-1074) with h | h
    · exact Or.inr h
    · rw [hem, Nat.le_div_iff_mul_le (Nat.two_pow_pos n), ← pow_add]
      exact Or.inl ((Nat.pow_le_pow_right two_pos (by omega)).trans (Nat.log2_self_le hm0))
  obtain ⟨em', e', hlast, hrounded, hcarry⟩ := exists_carry (e := e + n) (hhigh.trans hlt)
    (by omega) (hnormal.imp_left fun h => h.trans hlow)
  have hbound : e₀ < e' ∨ e₀ = e' ∧ m₀ ≤ em'.mantissa := by
    rcases (show e₀ ≤ e + n by omega).lt_or_eq with h | h
    · omega
    · have hquot : m₀ ≤ em.mantissa := by
        rw [hem, Nat.le_div_iff_mul_le (Nat.two_pow_pos n)]
        convert hm
        omega
      omega
  have hpos' : 0 < em'.mantissa := by
    rcases hrounded.normal with h | h
    · exact (Nat.two_pow_pos 52).trans_le h
    · have := h₀.le_exponent
      omega
  exact ⟨_, _, hpos', roundWithAccuracy_eq hfirst hlast hpos', hrounded, hbound⟩

/-! ## Bits -/

theorem toNat_one_append (m : BitVec 52) : (1#1 ++ m).toNat = 2 ^ 52 + m.toNat := by
  rw [BitVec.toNat_append, ← Nat.shiftLeft_add_eq_or_of_lt m.isLt]
  rfl

/-- Numbers that are stored are rounded, and not too large. -/
theorem rounded_of_unpack {b : BitVec Format.binary64.numBits} {s : Sign} {m : ℕ} {e : ℤ} {h : 0 < m}
    (hb : unpack .binary64 b = .finite s m e h) : Rounded m e ∧ e ≤ 971 := by
  have hm : (unpackMantissa b).toNat < 2 ^ 52 := (unpackMantissa b).isLt
  have he : (unpackExponent b).toNat < 2 ^ 11 := (unpackExponent b).isLt
  have hbias : ((Format.binary64.exponentBias : ℕ) : ℤ) = 1023 := rfl
  rw [unpack] at hb
  split_ifs at hb with h1 h2 h3 h4
  · cases hb
    rw [h3]
    exact ⟨⟨by omega, by decide, Or.inr rfl⟩, by decide⟩
  · cases hb
    have h1' : (unpackExponent b).toNat ≠ 2 ^ 11 - 1 := fun h =>
      h1 (BitVec.eq_of_toNat_eq h)
    have h3' : (unpackExponent b).toNat ≠ 0 := fun h =>
      h3 (BitVec.eq_of_toNat_eq h)
    rw [toNat_one_append, hbias]
    push_cast
    exact ⟨⟨by omega, by omega, Or.inl (by omega)⟩, by omega⟩

theorem unpack_normal {s : Sign} {e : BitVec 11} {m : BitVec 52} (htop : e ≠ -1#11)
    (hbottom : e ≠ 0#11) : unpack .binary64 (packComponents .binary64 s e m) =
      .finite s (2 ^ 52 + m.toNat) (e.toNat - 1075) (by omega) := by
  simp only [unpack, unpackExponent_packComponents, unpackMantissa_packComponents,
    unpackSign_packComponents, Sign.ofBitVec_toBitVec, if_neg htop, if_neg hbottom,
    toNat_one_append]
  rfl

theorem unpack_subnormal {s : Sign} {m : BitVec 52} (hm : 0 < m.toNat) :
    unpack .binary64 (packComponents .binary64 s 0#11 m) = .finite s m.toNat (-1074) hm := by
  have htop : 0#11 ≠ -1#11 := by decide
  have hne : m ≠ 0#52 := by
    rintro rfl
    exact hm.ne rfl
  simp only [unpack, unpackExponent_packComponents, unpackMantissa_packComponents,
    unpackSign_packComponents, Sign.ofBitVec_toBitVec, if_neg htop, if_true, dif_neg hne]
  rfl

/-- Rounded numbers come back from their bits, if they are not too large. -/
theorem unpack_pack_finite {s : Sign} {m : ℕ} {e : ℤ} {h : 0 < m} (hr : Rounded m e)
    (he : e ≤ 971) : unpack .binary64 (pack .binary64 (.finite s m e h)) = .finite s m e h := by
  obtain ⟨hlt, hmin, hnormal⟩ := hr
  have hexponent : (e + Format.binary64.exponentBias +
      Format.binary64.mantissaBitsWithoutImplicit).toNat = (e + 1075).toNat := by
    change (e + 1023 + 52).toNat = _
    omega
  have hfits : ¬ 2 ^ Format.binary64.exponentBits ≤ (e + 1075).toNat + 1 := by
    change ¬ 2 ^ 11 ≤ _
    omega
  have hdigits : m.log2 + 1 = Format.binary64.mantissaBits ↔ 2 ^ 52 ≤ m := by
    rw [← Nat.le_log2 h.ne']
    have hlog := (Nat.log2_lt h.ne').2 hlt
    change m.log2 + 1 = 53 ↔ _
    omega
  simp only [pack, hexponent, if_neg hfits]
  split_ifs with hlog
  · rw [hdigits] at hlog
    obtain ⟨k, hk⟩ : ∃ k, (e + 1075).toNat = k := ⟨_, rfl⟩
    have hk' : (BitVec.ofNat 11 k).toNat = k := by
      rw [BitVec.toNat_ofNat]
      omega
    have hm : (BitVec.ofNat 52 m).toNat = m - 2 ^ 52 := by
      rw [BitVec.toNat_ofNat]
      omega
    have htop : BitVec.ofNat 11 k ≠ -1#11 := fun h => by
      have : k = 2 ^ 11 - 1 := hk' ▸ congrArg BitVec.toNat h
      omega
    have hbottom : BitVec.ofNat 11 k ≠ 0#11 := fun h => by
      have : k = 0 := hk' ▸ congrArg BitVec.toNat h
      omega
    rw [hk]
    refine (unpack_normal htop hbottom).trans ?_
    rw [UnpackedFloat.finite.injEq, hm, hk']
    exact ⟨rfl, by omega, by omega⟩
  · rw [hdigits] at hlog
    have hm : (BitVec.ofNat 52 m).toNat = m := by
      rw [BitVec.toNat_ofNat]
      omega
    refine (unpack_subnormal (hm.symm ▸ h)).trans ?_
    rw [UnpackedFloat.finite.injEq, hm]
    exact ⟨rfl, rfl, (hnormal.resolve_left hlog).symm⟩

theorem unpack_pack_of_lt {s : Sign} {m : ℕ} {e : ℤ} {h : 0 < m} (he : 971 < e) :
    unpack .binary64 (pack .binary64 (.finite s m e h)) = .infinity s := by
  have hbias : (Format.binary64.exponentBias : ℤ) = 1023 := rfl
  have hlarge : 2 ^ Format.binary64.exponentBits ≤
    (e + Format.binary64.exponentBias + Format.binary64.mantissaBitsWithoutImplicit).toNat + 1 := by
    rw [hbias]
    change 2 ^ 11 ≤ (e + 1023 + 52).toNat + 1
    omega
  rw [pack, if_pos hlarge]
  cases s <;> rfl

/-! ## Sums -/

theorem unpack_add (x y : Float) : (x + y).toModel.unpack =
    unpack .binary64 (pack .binary64 (add .binary64 x.toModel.unpack y.toModel.unpack)) := rfl

/-- Numbers come back from their bits. -/
theorem unpack_pack_unpack (x : Float) :
    unpack .binary64 (pack .binary64 x.toModel.unpack) = x.toModel.unpack :=
  congrArg (unpack .binary64) (pack_unpack_of_valid x.toModel.valid)

theorem le_refl {x : Float} (hx : 0 ≤ x) : x ≤ x := by
  rw [le_iff_unpack, le_iff_rank]
  obtain ⟨s, h⟩ | ⟨m, e, hm, h⟩ | h := nonneg_cases hx
  all_goals
    rw [h]
    exact ⟨_, rfl, _, rfl, le_rfl⟩

theorem add_zero_le {x : Float} (hx : 0 ≤ x) : x + 0 ≤ x := by
  have hback := unpack_pack_unpack x
  have hrefl := (le_iff_unpack x x).1 (le_refl hx)
  rw [le_iff_unpack, unpack_add, unpack_zero]
  obtain ⟨s, h⟩ | ⟨m, e, hm, h⟩ | h := nonneg_cases hx
  · cases s <;> rw [h] <;> rfl
  · rw [h] at hback hrefl ⊢
    exact (congrArg (UnpackedFloat.le · _) hback).trans hrefl
  · rw [h]
    rfl

theorem normalize_natCast {m : ℕ} (hm : 0 < m) (e : ℤ) :
    UnpackedFloat.normalize .binary64 m e .positive =
      UnpackedFloat.round .binary64 .positive m e := by
  have hgt : compare (m : ℤ) 0 = .gt := compare_gt_iff_gt.2 (by exact_mod_cast hm)
  rw [UnpackedFloat.normalize, hgt]
  rfl

/-- A sum of positive numbers is the exact one, rounded. -/
theorem add_finite {m₁ m₂ : ℕ} {e₁ e₂ : ℤ} (h₁ : 0 < m₁) (h₂ : 0 < m₂) :
    add .binary64 (.finite .positive m₁ e₁ h₁) (.finite .positive m₂ e₂ h₂) =
      UnpackedFloat.round .binary64 .positive
        (m₁ * 2 ^ (e₁ - min e₁ e₂).toNat + m₂ * 2 ^ (e₂ - min e₁ e₂).toNat) (min e₁ e₂) := by
  have hpos : 0 < m₁ * 2 ^ (e₁ - min e₁ e₂).toNat + m₂ * 2 ^ (e₂ - min e₁ e₂).toNat :=
    Nat.add_pos_left (Nat.mul_pos h₁ (Nat.two_pow_pos _)) _
  rw [← normalize_natCast hpos, add]
  simp only [decreaseExponent, Nat.shiftLeft_eq, Sign.apply, Nat.cast_add]

theorem finite_le_add {m₁ m₂ : ℕ} {e₁ e₂ : ℤ} {h₁ : 0 < m₁} {h₂ : 0 < m₂} (hr : Rounded m₁ e₁) :
    (UnpackedFloat.finite .positive m₁ e₁ h₁).le (unpack .binary64 (pack .binary64
      (add .binary64 (.finite .positive m₁ e₁ h₁) (.finite .positive m₂ e₂ h₂)))) = true := by
  obtain ⟨m, e, h, hround, hr', hbound⟩ := exists_round hr h₁ (min_le_left e₁ e₂)
    (Nat.le_add_right _ (m₂ * 2 ^ (e₂ - min e₁ e₂).toNat))
  rw [add_finite h₁ h₂, hround]
  rcases le_or_gt e 971 with he | he
  · rw [unpack_pack_finite hr' he, UnpackedFloat.le, UnpackedFloat.compare]
    exact (isLE_compare_then ..).2 hbound
  · -- the sum is too large, and is infinite
    rw [unpack_pack_of_lt he]
    rfl

theorem le_add {x y : Float} (hx : 0 ≤ x) (hy : 0 ≤ y) : x ≤ x + y := by
  have hbackx := unpack_pack_unpack x
  have hbacky := unpack_pack_unpack y
  have hrefl := (le_iff_unpack x x).1 (le_refl hx)
  have hrounded {s m e h} := @rounded_of_unpack x.toModel.toBits.toBitVec s m e h
  have hcasesx := nonneg_cases hx
  have hcasesy := nonneg_cases hy
  rw [le_iff_unpack, unpack_add]
  change ∀ {s m e h}, x.toModel.unpack = _ → _ at hrounded
  generalize x.toModel.unpack = a at *
  generalize y.toModel.unpack = b at *
  obtain ⟨s, rfl⟩ | ⟨m, e, hm, rfl⟩ | rfl := hcasesx
  · obtain ⟨s', rfl⟩ | ⟨m', e', hm', rfl⟩ | rfl := hcasesy
    · cases s <;> cases s' <;> rfl
    · exact congrArg (UnpackedFloat.le _ ·) hbacky
    · exact congrArg (UnpackedFloat.le _ ·) hbacky
  · obtain ⟨s', rfl⟩ | ⟨m', e', hm', rfl⟩ | rfl := hcasesy
    · exact (congrArg (UnpackedFloat.le _ ·) hbackx).trans hrefl
    · exact finite_le_add (hrounded rfl).1
    · exact congrArg (UnpackedFloat.le _ ·) hbacky
  · obtain ⟨s', rfl⟩ | ⟨m', e', hm', rfl⟩ | rfl := hcasesy
    all_goals exact (congrArg (UnpackedFloat.le _ ·) hbackx).trans hrefl

/-! ## Products and quotients -/

theorem unpacked_mul_comm (u v : UnpackedFloat) :
    UnpackedFloat.mul .binary64 u v = UnpackedFloat.mul .binary64 v u := by
  have hsign (s t : Sign) : s * t = t * s := by cases s <;> cases t <;> rfl
  rcases u with _ | _ | _ | ⟨_, m, e, _⟩ <;> rcases v with _ | _ | _ | ⟨_, m', e', _⟩ <;>
    simp only [UnpackedFloat.mul, hsign]
  rw [Nat.mul_comm, Int.add_comm]

/-- **The factors of a product may be exchanged**, also where it is rounded or is
    not a number. -/
theorem mul_comm (x y : Float) : x * y = y * x := by
  change Float.ofModel (Float.Model.pack (UnpackedFloat.mul .binary64 _ _)) = _
  rw [unpacked_mul_comm]
  rfl

/-- Numbers with a positive sign, a zero and an infinite one among them. -/
inductive Plus : UnpackedFloat → Prop
  | zero : Plus (.zero .positive)
  | finite {m e} (h : 0 < m) : Plus (.finite .positive m e h)
  | infinity : Plus (.infinity .positive)

theorem Plus.nonneg {x : Float} (h : Plus x.toModel.unpack) : 0 ≤ x := by
  rw [le_iff_unpack, unpack_zero]
  generalize x.toModel.unpack = u at h
  cases h <;> rfl

theorem plus_packComponents {e : BitVec 11} {m : BitVec 52} (htop : e ≠ -1#11) :
    Plus (unpack .binary64 (packComponents .binary64 .positive e m)) := by
  simp only [unpack, unpackExponent_packComponents, unpackMantissa_packComponents,
    unpackSign_packComponents, Sign.ofBitVec_toBitVec, if_neg htop]
  split_ifs
  · exact .zero
  · exact .finite _
  · exact .finite _

/-- A positive sign is kept in the bits. -/
theorem Plus.pack {u : UnpackedFloat} (h : Plus u) :
    Plus (unpack .binary64 (UnpackedFloat.pack .binary64 u)) := by
  cases h with
  | zero => exact .zero
  | infinity => exact .infinity
  | @finite m e h =>
    simp only [UnpackedFloat.pack]
    split_ifs with hlarge hlog
    · exact .infinity
    · refine plus_packComponents fun htop => ?_
      generalize (e + Format.binary64.exponentBias +
        Format.binary64.mantissaBitsWithoutImplicit).toNat = k at hlarge htop
      have hwrap : k % 2 ^ 11 = 2 ^ 11 - 1 :=
        (BitVec.toNat_ofNat k 11).symm.trans (congrArg BitVec.toNat htop)
      change ¬ 2 ^ 11 ≤ k + 1 at hlarge
      omega
    · exact plus_packComponents (by decide)

theorem plus_round (m : ℕ) (e : ℤ) (a : Accuracy) :
    Plus (roundWithAccuracy .binary64 .positive m e a) := by
  simp only [roundWithAccuracy]
  split_ifs
  · exact .zero
  · exact .finite _

theorem exists_finite_of_pos {x : Float} (hx : 0 < x) (hfinite : x.isFinite) :
    ∃ m e h, x.toModel.unpack = .finite .positive m e h := by
  rw [lt_iff_unpack, unpack_zero] at hx
  change x.toModel.unpack.isFinite = true at hfinite
  generalize x.toModel.unpack = u at hfinite hx ⊢
  rcases u with (_ | _) | _ | s | ⟨_ | _, m, e, h⟩
  · cases hx
  · cases hfinite
  · cases hfinite
  · cases hx
  · cases hx
  · exact ⟨m, e, h, rfl⟩

theorem Plus.mul_finite {u : UnpackedFloat} {m : ℕ} {e : ℤ} {h : 0 < m} (hu : Plus u) :
    Plus (UnpackedFloat.mul .binary64 u (.finite .positive m e h)) := by
  cases hu with
  | zero => exact .zero
  | finite => exact plus_round ..
  | infinity => exact .infinity

theorem Plus.div_finite {u : UnpackedFloat} {m : ℕ} {e : ℤ} {h : 0 < m} (hu : Plus u) :
    Plus (UnpackedFloat.div .binary64 u (.finite .positive m e h)) := by
  cases hu with
  | zero => exact .zero
  | finite => exact plus_round ..
  | infinity => exact .infinity

section

variable {x y : Float}

theorem Plus.mul (hx : Plus x.toModel.unpack) (hy : 0 < y) (hfinite : y.isFinite) :
    Plus (x * y).toModel.unpack := by
  change Plus (unpack .binary64 (UnpackedFloat.pack .binary64
    (UnpackedFloat.mul .binary64 x.toModel.unpack y.toModel.unpack)))
  obtain ⟨m, e, h, hy⟩ := exists_finite_of_pos hy hfinite
  rw [hy]
  exact hx.mul_finite.pack

theorem Plus.div (hx : Plus x.toModel.unpack) (hy : 0 < y) (hfinite : y.isFinite) :
    Plus (x / y).toModel.unpack := by
  change Plus (unpack .binary64 (UnpackedFloat.pack .binary64
    (UnpackedFloat.div .binary64 x.toModel.unpack y.toModel.unpack)))
  obtain ⟨m, e, h, hy⟩ := exists_finite_of_pos hy hfinite
  rw [hy]
  exact hx.div_finite.pack

end

theorem plus_ofUInt64 (n : UInt64) : Plus n.toFloat.toModel.unpack := by
  refine Plus.pack (u := UnpackedFloat.ofNat .binary64 n.toNat) ?_
  rw [UnpackedFloat.ofNat, UnpackedFloat.ofInt]
  rcases Nat.eq_zero_or_pos n.toNat with h | h
  · rw [h]
    exact .zero
  · rw [normalize_natCast h]
    exact plus_round ..

theorem plus_decimal (n : ℕ) (e : ℤ) : Plus (UnpackedFloat.ofScientific .binary64 n e) := by
  rcases Nat.eq_zero_or_pos n with rfl | hpos
  · exact .zero
  · simp only [UnpackedFloat.ofScientific, hpos.ne', dite_false]
    split_ifs
    · exact .infinity
    · exact .zero
    · exact Plus.mul_finite (.finite _)
    · exact Plus.div_finite (.finite _)

theorem pos_powerOfTen : ∀ x ∈ Float.exactlyRepresentablePowersOfTen, 0 < x ∧ x.isFinite := by
  decide +kernel

/-- Decimals have a positive sign, also those that are too large or too small. -/
theorem plus_ofScientific (n : ℕ) (s : Bool) (e : ℕ) :
    Plus (OfScientific.ofScientific n s e : Float).toModel.unpack := by
  change Plus (Float.ofScientific n s e).toModel.unpack
  rw [Float.ofScientific]
  split
  · -- the digits and the power are numbers, and only one operation rounds
    obtain ⟨hpos, hfinite⟩ := pos_powerOfTen _ (Array.getElem_mem _)
    cases s with
    | true => exact (plus_ofUInt64 _).div hpos hfinite
    | false => exact (plus_ofUInt64 _).mul hpos hfinite
  · exact (plus_decimal n _).pack

/-- **Binary64 numbers round sums**, infinite ones and zeros with a sign among
    them. -/
theorem rounds : Scalar.Rounds Float where
  zero_le_zero := by decide
  le_trans := le_trans
  not_le_of_pos := not_le_of_pos
  le_add := le_add
  add_zero_le := add_zero_le

end JointProb.Binary64
