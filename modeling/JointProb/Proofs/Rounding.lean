/-
  JointProb — weights that are known up to an error.

  When each of some weights changes by at most an error, so does their sum, by
  at most as many errors as there are weights.  Scaling the sum back to one
  changes the weights once more.

  * `Weights.abs_sum_map_sub_le`: the error of the sum;
  * `Weights.abs_div_sum_sub_le`: the error of a probability after scaling.
-/
import JointProb.Proofs.Spec.Line
import Mathlib.Algebra.Order.Field.Basic

namespace JointProb.Weights

variable {f : ℚ → ℚ} {error : ℚ} {ws : List ℚ}

/-- The errors of the terms add up. -/
theorem abs_sum_map_sub_le (h : ∀ w ∈ ws, |f w - w| ≤ error) :
    |(ws.map f).sum - ws.sum| ≤ ws.length * error := by
  induction ws with
  | nil => simp
  | cons w ws ih =>
    obtain ⟨hw, hws⟩ := List.forall_mem_cons.1 h
    have hsplit : ((w :: ws).map f).sum - (w :: ws).sum =
        (f w - w) + ((ws.map f).sum - ws.sum) := by
      rw [List.map_cons, List.sum_cons, List.sum_cons]
      ring
    calc |((w :: ws).map f).sum - (w :: ws).sum|
        = |(f w - w) + ((ws.map f).sum - ws.sum)| := by rw [hsplit]
      _ ≤ |f w - w| + |(ws.map f).sum - ws.sum| := abs_add_le _ _
      _ ≤ error + ws.length * error := add_le_add hw (ih hws)
      _ = (w :: ws).length * error := by
        rw [List.length_cons, Nat.cast_succ]
        ring

/-- The sum without one of its terms. -/
theorem abs_sum_map_sub_sub_le (h : ∀ w ∈ ws, |f w - w| ≤ error) {w : ℚ} (hw : w ∈ ws) :
    |((ws.map f).sum - ws.sum) - (f w - w)| ≤ (ws.length - 1) * error := by
  have hperm := List.perm_cons_erase hw
  have hrest := @abs_sum_map_sub_le f error (ws.erase w) fun v hv => h v (List.mem_of_mem_erase hv)
  have hlength : ((ws.erase w).length : ℚ) = ws.length - 1 := by
    rw [hperm.length_eq, List.length_cons, Nat.cast_succ, add_sub_cancel_right]
  have hsum : ws.sum = w + (ws.erase w).sum := by rw [hperm.sum_eq, List.sum_cons]
  have hmap : (ws.map f).sum = f w + ((ws.erase w).map f).sum := by
    rw [(hperm.map f).sum_eq, List.map_cons, List.sum_cons]
  have hcancel : ((ws.map f).sum - ws.sum) - (f w - w) =
      ((ws.erase w).map f).sum - (ws.erase w).sum := by
    rw [hsum, hmap]
    ring
  rwa [hcancel, ← hlength]

/-- **The error of a probability after scaling.** -/
theorem abs_div_sum_sub_le (h : ∀ w ∈ ws, |f w - w| ≤ error) (hsum : ws.sum = 1)
    (htwo : 2 ≤ ws.length) (hsmall : ws.length * error < 1) {w : ℚ} (hw : w ∈ ws)
    (hp : IsProbability w) :
    |f w / (ws.map f).sum - w| ≤ (ws.length - 1) * error / (1 - ws.length * error) := by
  have herror : 0 ≤ error := (abs_nonneg _).trans (h w hw)
  have htwo' : (2 : ℚ) ≤ ws.length := by exact_mod_cast htwo
  have htotal := abs_sum_map_sub_le h
  rw [hsum] at htotal
  have hlow : 1 - ws.length * error ≤ (ws.map f).sum := by linarith [(abs_le.1 htotal).1]
  have hpos : 0 < (ws.map f).sum := (sub_pos.2 hsmall).trans_le hlow
  have hothers := abs_sum_map_sub_sub_le h hw
  rw [hsum] at hothers
  -- what the entry loses by rounding and what it loses to the other entries
  have hsplit : f w / (ws.map f).sum - w =
      ((1 - w) * (f w - w) - w * (((ws.map f).sum - 1) - (f w - w))) / (ws.map f).sum := by
    rw [eq_div_iff hpos.ne', sub_mul, div_mul_cancel₀ _ hpos.ne']
    ring
  have hrounded : |(1 - w) * (f w - w)| ≤ (1 - w) * ((ws.length - 1) * error) := by
    rw [abs_mul, abs_of_nonneg hp.complement.1]
    refine mul_le_mul_of_nonneg_left ((h w hw).trans ?_) hp.complement.1
    exact le_mul_of_one_le_left herror (by linarith)
  have hscaled : |w * (((ws.map f).sum - 1) - (f w - w))| ≤ w * ((ws.length - 1) * error) := by
    rw [abs_mul, abs_of_nonneg hp.1]
    exact mul_le_mul_of_nonneg_left hothers hp.1
  have hnumerator : |(1 - w) * (f w - w) - w * (((ws.map f).sum - 1) - (f w - w))| ≤
      (ws.length - 1) * error := by
    calc |(1 - w) * (f w - w) - w * (((ws.map f).sum - 1) - (f w - w))|
        ≤ |(1 - w) * (f w - w)| + |w * (((ws.map f).sum - 1) - (f w - w))| := abs_sub _ _
      _ ≤ (1 - w) * ((ws.length - 1) * error) + w * ((ws.length - 1) * error) :=
        add_le_add hrounded hscaled
      _ = (ws.length - 1) * error := by ring
  rw [hsplit, abs_div, abs_of_pos hpos]
  exact div_le_div₀ (mul_nonneg (by linarith) herror) hnumerator (sub_pos.2 hsmall) hlow

end JointProb.Weights
