/-
  JointProb — draws from a distribution.

  * `Sampler.total` is the last running sum, which numbers of the unit interval
    are scaled to;
  * `Distribution.DrawsExactly`: when nothing is rounded, an assignment is drawn
    by an interval of numbers, as long as its share of the total;
  * `Distribution.DrawsPossible`: under rounding, assignments without probability
    are still not drawn;
  * `Distribution.possible_sample`: nor are they in binary64;
  * `Distribution.draws`: all distributions are drawn from in this way.
-/
import JointProb.Proofs.Catalog.InStep
import JointProb.Proofs.MixedRadix
import JointProb.Proofs.Scalar.Binary64
import JointProb.Sampler

namespace JointProb

variable {α : Type} [Scalar α]

/-- The last running sum. -/
def Sampler.total (s : Sampler α) : α := s.sums.getLast?.getD 0

namespace Distribution

/-! ## Under rounding -/

section

variable {d : Distribution α} {u p : α} {states : List Nat} {i : Nat}

theorem index_eq (d : Distribution α) (u : α) : d.sampler.index u =
    (Weights.firstAbove? (Weights.cumulative d.probs) (u * d.sampler.total)).getD
      d.sampler.lastPositive := rfl

/-- Without a positive probability, the total is not positive. -/
theorem exists_pos_of_total (h : Scalar.Rounds α) (hprobs : ∀ p ∈ d.probs, 0 ≤ p)
    (htotal : 0 < d.sampler.total) : ∃ p ∈ d.probs, 0 < p := by
  by_contra hnone
  push Not at hnone
  refine h.not_le_of_pos htotal ?_
  rw [Sampler.total]
  cases hlast : d.sampler.sums.getLast? with
  | none => exact h.zero_le_zero
  | some c =>
    exact Weights.mem_cumulativeFrom_le h h.zero_le_zero hprobs hnone c
      (List.mem_of_getLast? hlast)

/-- The assignment that is kept for numbers past all sums is the last one with a
    positive probability. -/
theorem lastPositive_spec (hpos : ∃ p ∈ d.probs, 0 < p) :
    (∃ p, d.probs[d.sampler.lastPositive]? = some p ∧ 0 < p) ∧
      ∀ i p, d.sampler.lastPositive < i → d.probs[i]? = some p → ¬ 0 < p := by
  obtain ⟨p, hp, hp0⟩ := hpos
  have hfound := List.findIdx?_eq_some_of_exists (p := fun p => decide (0 < p))
    ⟨p, List.mem_reverse.2 hp, decide_eq_true hp0⟩
  obtain ⟨hj, hpj, hafter⟩ := List.findIdx?_eq_some_iff_getElem.1 hfound
  have hlast : d.sampler.lastPositive =
      d.probs.length - 1 - d.probs.reverse.findIdx fun p => decide (0 < p) := by
    rw [sampler, hfound, Option.getD_some]
  generalize List.findIdx _ d.probs.reverse = j at *
  rw [List.length_reverse] at hj
  refine ⟨⟨d.probs[d.probs.length - 1 - j], ?_, ?_⟩, fun i p hi hp => ?_⟩
  · rw [hlast, List.getElem?_eq_getElem]
  · simpa [List.getElem_reverse] using hpj
  · obtain ⟨hlen, rfl⟩ := List.getElem?_eq_some_iff.1 hp
    have hback : d.probs.length - 1 - (d.probs.length - 1 - i) = i := by omega
    simpa [List.getElem_reverse, hback] using hafter (d.probs.length - 1 - i) (by omega)

/-- **Only assignments with a positive probability are drawn.** -/
theorem index_pos (h : Scalar.Rounds α) (hprobs : ∀ p ∈ d.probs, 0 ≤ p)
    (htotal : 0 < d.sampler.total) (hu : 0 ≤ u * d.sampler.total) :
    ∃ p, d.probs[d.sampler.index u]? = some p ∧ 0 < p := by
  rw [index_eq]
  cases hfound : Weights.firstAbove? (Weights.cumulative d.probs) (u * d.sampler.total) with
  | none => exact (lastPositive_spec (exists_pos_of_total h hprobs htotal)).1
  | some i => exact Weights.pos_of_firstAbove? h hprobs hu hfound

/-- Numbers that rounding takes to the top of the table draw the last assignment
    with a positive probability. -/
theorem index_top (h : Scalar.Rounds α) (hprobs : ∀ p ∈ d.probs, 0 ≤ p)
    (hu : d.sampler.total ≤ u * d.sampler.total) : d.sampler.index u = d.sampler.lastPositive := by
  have hzero := h.le_trans (Weights.le_getLast?_cumulativeFrom h h.zero_le_zero hprobs) hu
  rw [index_eq, (Weights.firstAbove?_eq_none_iff h hprobs hzero).2 hu, Option.getD_none]

/-- The states of an assignment that has a positive probability. -/
def Possible (d : Distribution α) (states : List Nat) : Prop :=
  MixedRadix.Below d.catalog.cardinalities states ∧
    ∃ p, d.probs[d.catalog.encode states]? = some p ∧ 0 < p

theorem possible_decode (hp : d.probs[i]? = some p) (hpos : 0 < p) :
    d.Possible (d.catalog.decode i) := by
  have hi : i < d.catalog.size := d.length_probs ▸ (List.getElem?_eq_some_iff.1 hp).1
  refine ⟨MixedRadix.below_digits hi, p, ?_, hpos⟩
  rwa [Catalog.encode, Catalog.decode, MixedRadix.value_digits hi]

/-- What is drawn under rounding, which may take a number past all sums. -/
structure DrawsPossible (d : Distribution α) : Prop where
  /-- An assignment with a positive probability is drawn. -/
  index_pos {u : α} (hu : 0 ≤ u * d.sampler.total) :
    ∃ p, d.probs[d.sampler.index u]? = some p ∧ 0 < p
  /-- At the top of the table, it is the last one. -/
  index_top {u : α} (hu : d.sampler.total ≤ u * d.sampler.total) {i : Nat} {p : α}
    (hi : d.sampler.index u < i) (hp : d.probs[i]? = some p) : ¬ 0 < p
  /-- One assignment is drawn for each word, all of them possible. -/
  sample {words : List Nat} (h : ∀ w ∈ words, 0 ≤ unitOfWord w * d.sampler.total) :
    (d.sample words).length = words.length ∧ ∀ states ∈ d.sample words, d.Possible states

theorem drawsPossible (h : Scalar.Rounds α) (hprobs : ∀ p ∈ d.probs, 0 ≤ p)
    (htotal : 0 < d.sampler.total) : d.DrawsPossible where
  index_pos := index_pos h hprobs htotal
  index_top hu i p hi := by
    rw [index_top h hprobs hu] at hi
    exact (lastPositive_spec (exists_pos_of_total h hprobs htotal)).2 i p hi
  sample {words} hwords := by
    refine ⟨by simp [sample], fun states hstates => ?_⟩
    obtain ⟨w, hw, rfl⟩ := List.mem_map.1 hstates
    obtain ⟨p, hp, hpos⟩ := index_pos h hprobs htotal (hwords w hw)
    exact possible_decode hp hpos

/-- The numbers that words make are not negative. -/
theorem plus_unitOfWord (w : Nat) : Binary64.Plus (unitOfWord w : Float).toModel.unpack :=
  (Binary64.plus_ofScientific _ _ _).div (by decide +kernel) (by decide +kernel)

/-- **Samples in binary64 are possible**, whatever the words, unless the total is
    infinite. -/
theorem possible_sample {d : Distribution Float} (hprobs : ∀ p ∈ d.probs, 0 ≤ p)
    (htotal : 0 < d.sampler.total) (hfinite : d.sampler.total.isFinite) (words : List Nat) :
    ∀ states ∈ d.sample words, d.Possible states :=
  ((drawsPossible Binary64.rounds hprobs htotal).sample fun w _ =>
    ((plus_unitOfWord w).mul htotal hfinite).nonneg).2

end

/-! ## Without rounding -/

section

variable {d : Distribution ℝ} {u p : ℝ} {i : Nat}

theorem total_sampler (hprobs : ∀ p ∈ d.probs, 0 ≤ p) : d.sampler.total = d.probs.sum :=
  (Weights.getLast?_cumulativeFrom hprobs).trans (zero_add _)

/-- What numbers of the unit interval draw when nothing is rounded. -/
structure DrawsExactly (d : Distribution ℝ) : Prop where
  /-- A number draws the assignment that its part of the total falls into. -/
  index_eq_iff {u : ℝ} {i : Nat} (hlow : 0 ≤ u) (hhigh : u < 1) : d.sampler.index u = i ↔
    i < d.probs.length ∧ (d.probs.take i).sum ≤ u * d.probs.sum ∧
      u * d.probs.sum < (d.probs.take (i + 1)).sum
  /-- The numbers that draw an assignment are an interval, as long as its share of
      the total. -/
  setOf_index_eq {i : Nat} {p : ℝ} (hp : d.probs[i]? = some p) :
    {u | 0 ≤ u ∧ u < 1 ∧ d.sampler.index u = i} =
      Set.Ico ((d.probs.take i).sum / d.probs.sum)
        ((d.probs.take i).sum / d.probs.sum + p / d.probs.sum)

/-- **A number draws the assignment that its part of the total falls into.** -/
theorem index_eq_iff (hprobs : ∀ p ∈ d.probs, 0 ≤ p) (htotal : 0 < d.probs.sum) (hlow : 0 ≤ u)
    (hhigh : u < 1) : d.sampler.index u = i ↔
      i < d.probs.length ∧ (d.probs.take i).sum ≤ u * d.probs.sum ∧
        u * d.probs.sum < (d.probs.take (i + 1)).sum := by
  have htarget := mul_nonneg hlow htotal.le
  rw [index_eq, total_sampler hprobs, ← Weights.firstAbove?_eq_some_iff hprobs htarget]
  cases hfound : Weights.firstAbove? (Weights.cumulative d.probs) (u * d.probs.sum) with
  | none =>
    -- this is what rounding could do
    have hle := (Weights.firstAbove?_eq_none_iff Scalar.rounds_real hprobs htarget).1 hfound
    have hlt := mul_lt_of_lt_one_left htotal hhigh
    exact absurd ((total_sampler hprobs).ge.trans hle) hlt.not_ge
  | some j => simp

theorem sum_take_succ (hp : d.probs[i]? = some p) :
    (d.probs.take (i + 1)).sum = (d.probs.take i).sum + p := by
  rw [List.take_add_one, hp, List.sum_append]
  simp

/-- **The numbers that draw an assignment are an interval**, as long as its share
    of the total. -/
theorem setOf_index_eq (hprobs : ∀ p ∈ d.probs, 0 ≤ p) (htotal : 0 < d.probs.sum)
    (hp : d.probs[i]? = some p) : {u | 0 ≤ u ∧ u < 1 ∧ d.sampler.index u = i} =
      Set.Ico ((d.probs.take i).sum / d.probs.sum)
        ((d.probs.take i).sum / d.probs.sum + p / d.probs.sum) := by
  have hi := (List.getElem?_eq_some_iff.1 hp).1
  ext u
  rw [← add_div, ← sum_take_succ hp, Set.mem_Ico, div_le_iff₀ htotal, lt_div_iff₀ htotal]
  constructor
  · rintro ⟨hlow, hhigh, hindex⟩
    exact ((index_eq_iff hprobs htotal hlow hhigh).1 hindex).2
  · rintro ⟨hlow, hhigh⟩
    have hbefore : 0 ≤ (d.probs.take i).sum :=
      List.sum_nonneg fun p hp => hprobs p (List.mem_of_mem_take hp)
    have hupto : (d.probs.take (i + 1)).sum ≤ d.probs.sum := by
      have hafter : 0 ≤ (d.probs.drop (i + 1)).sum :=
        List.sum_nonneg fun p hp => hprobs p (List.mem_of_mem_drop hp)
      linarith [d.probs.sum_take_add_sum_drop (i + 1)]
    have hu0 : 0 ≤ u := nonneg_of_mul_nonneg_left (hbefore.trans hlow) htotal
    have hu1 : u < 1 := lt_of_mul_lt_mul_right (by linarith) htotal.le
    exact ⟨hu0, hu1, (index_eq_iff hprobs htotal hu0 hu1).2 ⟨hi, hlow, hhigh⟩⟩

theorem drawsExactly (hprobs : ∀ p ∈ d.probs, 0 ≤ p) (htotal : 0 < d.probs.sum) :
    d.DrawsExactly where
  index_eq_iff := index_eq_iff hprobs htotal
  setOf_index_eq := setOf_index_eq hprobs htotal

end

/-- **Assignments are drawn by their probabilities**: exactly when nothing is
    rounded, and never without one when sums are rounded. -/
theorem draws :
    (∀ d : Distribution ℝ, (∀ p ∈ d.probs, 0 ≤ p) → 0 < d.probs.sum → d.DrawsExactly) ∧
    ∀ (α : Type) [Scalar α], Scalar.Rounds α → ∀ d : Distribution α, (∀ p ∈ d.probs, 0 ≤ p) →
      0 < d.sampler.total → d.DrawsPossible :=
  ⟨fun _ => drawsExactly, fun _ _ h _ => drawsPossible h⟩

/-- Two possible assignments among four. -/
def gapped (p q : α) : Distribution α :=
  ⟨.of [.boolean "Rain", .boolean "Wet"], [0, p, 0, q], rfl⟩

/-- Halves, exactly, and the least positive binary64 number, where the greatest
    number below one is rounded up to the total. -/
theorem draws_gapped :
    (gapped (1 / 2 : ℝ) (1 / 2)).DrawsExactly ∧
    (gapped (5e-324 : Float) 0).sampler.total ≤
      0.9999999999999999 * (gapped (5e-324 : Float) 0).sampler.total ∧
    (gapped (5e-324 : Float) 0).DrawsPossible := by
  refine ⟨draws.1 _ ?_ ?_, by decide +kernel, draws.2 Float Binary64.rounds _ ?_ ?_⟩
  · simp [gapped]
  · norm_num [gapped]
  · decide +kernel
  · decide +kernel

end Distribution

end JointProb
