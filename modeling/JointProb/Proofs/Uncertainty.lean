/-
  JointProb — the uncertainty of what is told of an outcome.

  Outcomes have weights, and a label tells something of each of them: those
  with one label are a class.

  * `classWeight` is the weight of a class, `uncertainty` the mean of how
    little a label is expected, in natural units;
  * `sum_classWeight_mul_log`: class by class this is an entropy;
  * `uncertainty_congr`: it depends on the classes only, whatever their labels
    are;
  * `uncertainty_le_of_guess`: no guess of the weights does better, which gives
    `uncertainty_le_log_card`, a bound by the number of labels;
  * `uncertainty_pair_le`, `uncertainty_le_pair`: two labels together are not
    less expected than each of them is, and not better than one of them.
-/
import Mathlib.Algebra.BigOperators.Field
import Mathlib.Algebra.Order.BigOperators.Ring.Finset
import Mathlib.Analysis.SpecialFunctions.Log.Basic

namespace JointProb

variable {ι β γ : Type} [DecidableEq β] [DecidableEq γ]

/-- The weight of the outcomes with a label. -/
def classWeight (s : Finset ι) (p : ι → ℝ) (f : ι → β) (b : β) : ℝ := ∑ i ∈ s with f i = b, p i

/-- The mean of the logarithm of the inverse weight of a class. -/
noncomputable def uncertainty (s : Finset ι) (p : ι → ℝ) (f : ι → β) : ℝ :=
  -∑ i ∈ s, p i * Real.log (classWeight s p f (f i))

variable {s : Finset ι} {p : ι → ℝ} {f : ι → β} {g : ι → γ}

/-! ## Classes -/

theorem classWeight_nonneg (hp : ∀ i ∈ s, 0 ≤ p i) (b : β) : 0 ≤ classWeight s p f b :=
  Finset.sum_nonneg fun i hi => hp i (Finset.mem_filter.1 hi).1

/-- The class of an outcome has at least its weight. -/
theorem le_classWeight (hp : ∀ i ∈ s, 0 ≤ p i) {i : ι} (hi : i ∈ s) :
    p i ≤ classWeight s p f (f i) :=
  Finset.single_le_sum (fun j hj => hp j (Finset.mem_filter.1 hj).1)
    (Finset.mem_filter.2 ⟨hi, rfl⟩)

/-- A sum over all outcomes is one over all classes. -/
theorem sum_classWeight_mul {t : Finset β} (ht : ∀ i ∈ s, f i ∈ t) (h : β → ℝ) :
    ∑ b ∈ t, classWeight s p f b * h b = ∑ i ∈ s, p i * h (f i) := by
  rw [← Finset.sum_fiberwise_of_maps_to ht]
  refine Finset.sum_congr rfl fun b _ => ?_
  rw [classWeight, Finset.sum_mul]
  refine Finset.sum_congr rfl fun i hi => ?_
  rw [(Finset.mem_filter.1 hi).2]

theorem sum_classWeight {t : Finset β} (ht : ∀ i ∈ s, f i ∈ t) :
    ∑ b ∈ t, classWeight s p f b = ∑ i ∈ s, p i := Finset.sum_fiberwise_of_maps_to ht p

/-- **Class by class, uncertainty is an entropy.** -/
theorem sum_classWeight_mul_log {t : Finset β} (ht : ∀ i ∈ s, f i ∈ t) :
    ∑ b ∈ t, classWeight s p f b * Real.log (classWeight s p f b) = -uncertainty s p f := by
  rw [sum_classWeight_mul ht fun b => Real.log (classWeight s p f b), uncertainty, neg_neg]

/-- **Only the classes matter**, not how they are called. -/
theorem uncertainty_congr (h : ∀ i ∈ s, ∀ j ∈ s, f i = f j ↔ g i = g j) :
    uncertainty s p f = uncertainty s p g := by
  refine congrArg Neg.neg (Finset.sum_congr rfl fun i hi => ?_)
  have hclass : (s.filter fun j => f j = f i) = s.filter fun j => g j = g i :=
    Finset.filter_congr fun j hj => h j hj i hi
  rw [classWeight, classWeight, hclass]

/-- A label that tells outcomes apart tells all of them. -/
theorem uncertainty_of_injOn (hf : Set.InjOn f s) :
    uncertainty s p f = -∑ i ∈ s, p i * Real.log (p i) := by
  refine congrArg Neg.neg (Finset.sum_congr rfl fun i hi => ?_)
  have hclass : (s.filter fun j => f j = f i) = {i} := by
    ext j
    rw [Finset.mem_filter, Finset.mem_singleton]
    refine ⟨fun h => hf h.1 hi h.2, ?_⟩
    rintro rfl
    exact ⟨hi, rfl⟩
  rw [classWeight, hclass, Finset.sum_singleton]

/-! ## Guesses -/

/-- **No guess of the weights makes labels better expected than they are**: the
    logarithm lies below its tangent. -/
theorem uncertainty_le_of_guess (hp : ∀ i ∈ s, 0 ≤ p i) (hsum : ∑ i ∈ s, p i = 1) {t : Finset β}
    (ht : ∀ i ∈ s, f i ∈ t) {q : β → ℝ} (hq : ∀ b ∈ t, 0 ≤ q b) (hqsum : ∑ b ∈ t, q b ≤ 1)
    (hpos : ∀ i ∈ s, 0 < p i → 0 < q (f i)) :
    uncertainty s p f ≤ -∑ i ∈ s, p i * Real.log (q (f i)) := by
  have hterm : ∀ i ∈ s, p i - p i * (q (f i) / classWeight s p f (f i)) ≤
      p i * Real.log (classWeight s p f (f i)) - p i * Real.log (q (f i)) := by
    intro i hi
    rcases (hp i hi).eq_or_lt with hzero | hpi
    · simp [← hzero]
    have hclass := hpi.trans_le (le_classWeight (f := f) hp hi)
    have hlog := Real.one_sub_inv_le_log_of_pos (div_pos hclass (hpos i hi hpi))
    rw [inv_div, Real.log_div hclass.ne' (hpos i hi hpi).ne'] at hlog
    linarith [mul_le_mul_of_nonneg_left hlog hpi.le]
  have hle (x y : ℝ) (hy : 0 ≤ y) : x * (y / x) ≤ y := by
    rcases eq_or_ne x 0 with rfl | hx
    · rwa [zero_mul]
    · exact (mul_div_cancel₀ y hx).le
  have hguess : ∑ i ∈ s, p i * (q (f i) / classWeight s p f (f i)) ≤ 1 :=
    calc ∑ i ∈ s, p i * (q (f i) / classWeight s p f (f i))
        = ∑ b ∈ t, classWeight s p f b * (q b / classWeight s p f b) :=
          (sum_classWeight_mul ht fun b => q b / classWeight s p f b).symm
      _ ≤ ∑ b ∈ t, q b := Finset.sum_le_sum fun b hb => hle _ _ (hq b hb)
      _ ≤ 1 := hqsum
  have htotal := Finset.sum_le_sum hterm
  rw [Finset.sum_sub_distrib, Finset.sum_sub_distrib, hsum] at htotal
  rw [uncertainty]
  linarith

/-- **There is nothing more uncertain than labels that are all alike.** -/
theorem uncertainty_le_log_card (hp : ∀ i ∈ s, 0 ≤ p i) (hsum : ∑ i ∈ s, p i = 1) {t : Finset β}
    (ht : ∀ i ∈ s, f i ∈ t) : uncertainty s p f ≤ Real.log t.card := by
  have hne : t.Nonempty := by
    rcases s.eq_empty_or_nonempty with rfl | ⟨i, hi⟩
    · simp at hsum
    · exact ⟨f i, ht i hi⟩
  have hcard : (0 : ℝ) < t.card := Nat.cast_pos.2 hne.card_pos
  refine (uncertainty_le_of_guess hp hsum ht (q := fun _ => (t.card : ℝ)⁻¹)
    (fun _ _ => (inv_pos.2 hcard).le) ?_ fun _ _ _ => inv_pos.2 hcard).trans_eq ?_
  · rw [Finset.sum_const, nsmul_eq_mul, mul_inv_cancel₀ hcard.ne']
  · rw [← Finset.sum_mul, hsum, one_mul, Real.log_inv, neg_neg]

/-! ## Two labels -/

/-- What both labels tell. -/
abbrev both (f : ι → β) (g : ι → γ) (i : ι) : β × γ := (f i, g i)

/-- **Two labels together are not less expected than each of them is**: guess
    that they are independent. -/
theorem uncertainty_pair_le (hp : ∀ i ∈ s, 0 ≤ p i) (hsum : ∑ i ∈ s, p i = 1) :
    uncertainty s p (both f g) ≤ uncertainty s p f + uncertainty s p g := by
  classical
  have hf : ∀ i ∈ s, f i ∈ s.image f := fun i hi => Finset.mem_image_of_mem f hi
  have hg : ∀ i ∈ s, g i ∈ s.image g := fun i hi => Finset.mem_image_of_mem g hi
  have hclass {i : ι} (hi : i ∈ s) (hpi : 0 < p i) :
      0 < classWeight s p f (f i) ∧ 0 < classWeight s p g (g i) :=
    ⟨hpi.trans_le (le_classWeight hp hi), hpi.trans_le (le_classWeight hp hi)⟩
  refine (uncertainty_le_of_guess hp hsum (t := s.image f ×ˢ s.image g)
    (q := fun b => classWeight s p f b.1 * classWeight s p g b.2)
    (fun i hi => Finset.mem_product.2 ⟨hf i hi, hg i hi⟩)
    (fun b _ => mul_nonneg (classWeight_nonneg hp _) (classWeight_nonneg hp _)) ?_
    fun i hi hpi => mul_pos (hclass hi hpi).1 (hclass hi hpi).2).trans_eq ?_
  · rw [Finset.sum_product, ← Finset.sum_mul_sum, sum_classWeight hf, sum_classWeight hg, hsum,
      one_mul]
  · have hlog : ∀ i ∈ s, p i * Real.log (classWeight s p f (f i) * classWeight s p g (g i)) =
        p i * Real.log (classWeight s p f (f i)) + p i * Real.log (classWeight s p g (g i)) := by
      intro i hi
      rcases (hp i hi).eq_or_lt with hzero | hpi
      · simp [← hzero]
      · rw [Real.log_mul (hclass hi hpi).1.ne' (hclass hi hpi).2.ne', mul_add]
    rw [Finset.sum_congr rfl hlog, Finset.sum_add_distrib, neg_add, uncertainty, uncertainty]

/-- **Two labels together are not better expected than the second one is**: each
    class of both is part of a class of that one. -/
theorem uncertainty_le_pair (hp : ∀ i ∈ s, 0 ≤ p i) :
    uncertainty s p g ≤ uncertainty s p (both f g) := by
  refine neg_le_neg (Finset.sum_le_sum fun i hi => ?_)
  rcases (hp i hi).eq_or_lt with hzero | hpi
  · simp [← hzero]
  have hpart : classWeight s p (both f g) (both f g i) ≤ classWeight s p g (g i) := by
    refine Finset.sum_le_sum_of_subset_of_nonneg (fun j hj => ?_)
      fun j hj _ => hp j (Finset.mem_filter.1 hj).1
    rw [Finset.mem_filter, Prod.mk.injEq] at hj
    exact Finset.mem_filter.2 ⟨hj.1, hj.2.2⟩
  have hclass := hpi.trans_le (le_classWeight (f := both f g) hp hi)
  exact mul_le_mul_of_nonneg_left (Real.log_le_log hclass hpart) hpi.le

end JointProb
