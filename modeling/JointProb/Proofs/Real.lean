/-
  JointProb — real numbers as scalars.

  Logarithms are not rational: what they measure is computed here with real
  numbers, exactly.

  * the instance of `Scalar` has the usual operations and order of the real
    numbers, all of them finite, that of `NaturalLog` the natural logarithm;
  * `Weights.compensatedSum_real`: the sum with compensation is the sum;
  * `Information.entropy_eq`: the entropy of probabilities is what it says.
-/
import JointProb.Information
import JointProb.Proofs.Exact
import Mathlib.Analysis.SpecialFunctions.Log.Basic

namespace JointProb

-- without these it depends on the imports which operations are meant
noncomputable instance zeroReal : Zero ℝ := MulZeroClass.toZero

noncomputable instance oneReal : One ℝ := AddMonoidWithOne.toOne

noncomputable instance divReal : Div ℝ := DivInvMonoid.toDiv

noncomputable instance : Scalar ℝ where
  zero := 0
  one := 1
  decLe := inferInstance
  decLt := inferInstance
  isFinite _ := true

noncomputable instance : NaturalLog ℝ where
  log := Real.log

theorem Scalar.lossless_real : Scalar.Lossless ℝ where
  add_zero x := by ring
  zero_add x := by ring
  add_assoc x y z := by ring
  sub_add_left x y := by ring
  sub_add_right x y := by ring

/-- **The sum with compensation is the sum.** -/
@[simp] theorem Weights.compensatedSum_real (ws : List ℝ) : compensatedSum ws = ws.sum :=
  compensatedSum_of_lossless Scalar.lossless_real ws

namespace Information

variable {base : ℝ}

/-- The bases that a logarithm may have: those with a logarithm. -/
theorem validBase_iff : validBase base ↔ 0 < base ∧ base ≠ 1 := by
  simp [validBase, Scalar.isFinite]

theorem surprise_eq {p : ℝ} (hp : 0 ≤ p) : surprise base p = p * Real.log p / Real.log base := by
  rw [surprise]
  split_ifs with h
  · rw [le_antisymm h hp, zero_mul, zero_div]
  · rfl

/-- **The entropy of probabilities**, impossible ones among them. -/
theorem entropy_eq {ps : List ℝ} (hps : ∀ p ∈ ps, 0 ≤ p) :
    entropy base ps = -(ps.map fun p => p * Real.log p).sum / Real.log base := by
  have hmap : ps.map (surprise base) = ps.map fun p => p * Real.log p / Real.log base :=
    List.map_congr_left fun p hp => surprise_eq (hps p hp)
  have hsum : -Weights.compensatedSum (ps.map (surprise base)) =
      -(ps.map fun p => p * Real.log p).sum / Real.log base := by
    rw [Weights.compensatedSum_real, hmap]
    simp only [div_eq_mul_inv, List.sum_map_mul_right, neg_mul]
  rw [entropy, hsum]
  split_ifs with h
  · exact (eq_of_beq h).symm
  · rfl

end Information

end JointProb
