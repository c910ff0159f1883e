/-
  JointProb — rational numbers as scalars.

  With rational numbers nothing is rounded and nothing overflows, so that the
  library computes what its formulas say.

  * the instance of `Scalar` has the usual operations and order of the
    rational numbers, all of them finite;
  * `Scalar.Lossless` are the laws by which a sum with compensation is the sum:
    `Weights.compensatedSum_eq_sum`;
  * `Weights.normalizeWithin_eq_ok_iff`: when weights are scaled, and to what.
-/
import JointProb.Weights
import Mathlib.Algebra.BigOperators.Ring.List
import Mathlib.Algebra.Order.Field.Rat
import Mathlib.Algebra.Order.BigOperators.Group.List
import Mathlib.Tactic.Linarith
import Mathlib.Tactic.Ring

namespace JointProb

-- without these it depends on the imports which zero and which one are meant
instance zeroRat : Zero ℚ := MulZeroClass.toZero

instance oneRat : One ℚ := AddMonoidWithOne.toOne

instance : Scalar ℚ where
  zero := 0
  one := 1
  decLe := inferInstance
  decLt := inferInstance
  isFinite _ := true

namespace Scalar

@[simp] theorem isFinite_rat (x : ℚ) : Scalar.isFinite x = true := rfl

theorem abs_eq_abs (x : ℚ) : Scalar.abs x = |x| := by
  rw [Scalar.abs]
  split_ifs with h
  · exact (abs_of_neg h).symm
  · exact (abs_of_nonneg (not_lt.1 h)).symm

theorem positivePart_eq_max (x : ℚ) : Scalar.positivePart x = max 0 x := by
  rw [Scalar.positivePart]
  split_ifs with h
  · exact (max_eq_right h.le).symm
  · exact (max_eq_left (not_lt.1 h)).symm

theorem positivePart_nonneg (x : ℚ) : 0 ≤ Scalar.positivePart x :=
  positivePart_eq_max x ▸ le_max_left 0 x

/-- Sums that lose nothing, in whatever order they are taken. -/
structure Lossless (α : Type) [Scalar α] : Prop where
  add_zero (x : α) : x + 0 = x
  zero_add (x : α) : 0 + x = x
  add_assoc (x y z : α) : x + y + z = x + (y + z)
  sub_add_left (x y : α) : x - (x + y) + y = 0
  sub_add_right (x y : α) : y - (x + y) + x = 0

theorem lossless_rat : Lossless ℚ where
  add_zero x := by ring
  zero_add x := by ring
  add_assoc x y z := by ring
  sub_add_left x y := by ring
  sub_add_right x y := by ring

end Scalar

namespace Weights

/-! ## Sums -/

section

variable {α : Type} [Scalar α]

/-- Nothing is lost: what the running sum has lost stays as it was. -/
theorem Running.add_eq (h : Scalar.Lossless α) (r : Running α) (w : α) :
    r.add w = ⟨r.sum + w, r.lost⟩ := by
  simp only [Running.add]
  split_ifs
  · rw [h.sub_add_left, h.add_zero]
  · rw [h.sub_add_right, h.add_zero]

theorem foldl_add (h : Scalar.Lossless α) (r : Running α) (ws : List α) :
    ws.foldl Running.add r = ⟨r.sum + ws.sum, r.lost⟩ := by
  induction ws generalizing r with
  | nil => rw [List.foldl_nil, List.sum_nil, h.add_zero]
  | cons w ws ih => rw [List.foldl_cons, ih, Running.add_eq h, List.sum_cons, h.add_assoc]

theorem compensatedSum_of_lossless (h : Scalar.Lossless α) (ws : List α) :
    compensatedSum ws = ws.sum := by
  rw [compensatedSum, foldl_add h, h.zero_add, h.add_zero]

end

/-- **The sum with compensation is the sum.** -/
@[simp] theorem compensatedSum_eq_sum (ws : List ℚ) : compensatedSum ws = ws.sum :=
  compensatedSum_of_lossless Scalar.lossless_rat ws

theorem near_iff {tolerance x y : ℚ} : near tolerance x y ↔ |x - y| ≤ tolerance := by
  rw [near, decide_eq_true_eq, Scalar.abs_eq_abs]

/-! ## Scaling to one -/

theorem scalable_iff (total : ℚ) : scalable total ↔ 0 < total := by simp [scalable]

theorem rescale_eq_map (total : ℚ) (ws : List ℚ) : rescale total ws = ws.map (· / total) := by
  simp only [rescale, div_eq_mul_inv, one_mul]

theorem sum_rescale {total : ℚ} {ws : List ℚ} (h : ws.sum = total) (hpos : 0 < total) :
    (rescale total ws).sum = 1 := by
  rw [rescale, List.sum_map_mul_right, List.map_id', h, one_div, mul_inv_cancel₀ hpos.ne']

/-- **When weights are scaled, and to what.** -/
theorem normalizeWithin_eq_ok_iff {band : ℚ} {ws vs : List ℚ} :
    normalizeWithin band ws = .ok vs ↔
      0 < ws.sum ∧ |ws.sum - 1| / ws.sum ≤ band ∧ vs = ws.map (· / ws.sum) := by
  simp only [normalizeWithin, compensatedSum_eq_sum, Scalar.abs_eq_abs, ← rescale_eq_map]
  split_ifs with h
  · simp only [Bool.and_eq_true, scalable_iff, Bool.not_eq_true', decide_eq_false_iff_not,
      not_lt] at h
    simp [h, eq_comm]
  · refine iff_of_false (by simp) ?_
    rintro ⟨h1, h2, -⟩
    exact h (by simp [scalable_iff, h1, h2])

/-- Weights that are not scaled are reported with their sum. -/
theorem normalizeWithin_eq_error {band : ℚ} {ws : List ℚ}
    (h : ¬ (0 < ws.sum ∧ |ws.sum - 1| / ws.sum ≤ band)) :
    normalizeWithin band ws = .error ws.sum := by
  cases hws : normalizeWithin band ws with
  | ok vs =>
    obtain ⟨hpos, hband, -⟩ := normalizeWithin_eq_ok_iff.1 hws
    exact absurd ⟨hpos, hband⟩ h
  | error s =>
    simp only [normalizeWithin, compensatedSum_eq_sum] at hws
    split_ifs at hws
    exact hws.symm

/-! ## Weights that are probabilities -/

theorem le_sum_of_mem {ws : List ℚ} (h : ∀ w ∈ ws, 0 ≤ w) {w : ℚ} (hw : w ∈ ws) : w ≤ ws.sum :=
  List.single_le_sum h w hw

/-- Non-negative weights are scaled to probabilities. -/
theorem probabilities_of_normalizeWithin {band : ℚ} {ws vs : List ℚ} (hws : ∀ w ∈ ws, 0 ≤ w)
    (h : normalizeWithin band ws = .ok vs) : (∀ v ∈ vs, 0 ≤ v ∧ v ≤ 1) ∧ vs.sum = 1 := by
  obtain ⟨hpos, -, rfl⟩ := normalizeWithin_eq_ok_iff.1 h
  refine ⟨fun v hv => ?_, ?_⟩
  · obtain ⟨w, hw, rfl⟩ := List.mem_map.1 hv
    exact ⟨div_nonneg (hws w hw) hpos.le, (div_le_one₀ hpos).2 (le_sum_of_mem hws hw)⟩
  · rw [← rescale_eq_map, sum_rescale rfl hpos]

end Weights

end JointProb
