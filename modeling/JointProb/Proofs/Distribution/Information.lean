/-
  JointProb — the information that variables share.

  * `Distribution.uncertaintyOf` is the uncertainty of the states of variables,
    in natural units, and `Distribution.sharedNats` what two lists of
    variables have of it in common;
  * `Distribution.probs_marginalOf_eq_classWeight`: a marginal distribution has
    the weights of the classes of assignments;
  * `Distribution.entropy_eq_ok`: entropy is uncertainty in units of a base;
  * `Distribution.sharedNats_nonneg` and `Distribution.sharedNats_comm`: what is
    shared is never negative, and shared both ways;
  * `Distribution.Shares` says what is answered for it in each base;
    `Distribution.shares`: so it is for all variables.  With a base below
    one the logarithm falls, and what is shared is reported as negative:
    `Distribution.mutualInformation_half`.
-/
import JointProb.Proofs.Distribution.Marginal
import JointProb.Proofs.Real
import JointProb.Proofs.Uncertainty
import JointProb.Statistics

namespace JointProb.Distribution

variable (d : Distribution ℝ)

/-! ## Classes of assignments -/

/-- The probability of the assignment with a number. -/
noncomputable def probAt (i : Nat) : ℝ := (d.probs[i]?).getD 0

/-- The states of variables in the assignment with a number. -/
def statesOf (vars : List Nat) (i : Nat) : List Nat := vars.map (d.catalog.stateAt i)

/-- The uncertainty of the states of variables. -/
noncomputable def uncertaintyOf (vars : List Nat) : ℝ :=
  uncertainty (Finset.range d.catalog.size) d.probAt (d.statesOf vars)

/-- The uncertainty that two lists of variables have in common. -/
noncomputable def sharedNats (a b : List Nat) : ℝ :=
  d.uncertaintyOf a + d.uncertaintyOf b - d.uncertaintyOf (a ++ b)

variable {d} {vars a b : List Nat}

theorem probAt_nonneg (hprobs : ∀ p ∈ d.probs, 0 ≤ p) (i : Nat) : 0 ≤ d.probAt i := by
  rw [probAt]
  cases hi : d.probs[i]? with
  | none => exact le_rfl
  | some p => exact hprobs p (List.mem_of_getElem? hi)

theorem sum_probAt : ∑ i ∈ Finset.range d.catalog.size, d.probAt i = d.probs.sum := by
  have hmap : (List.range d.catalog.size).map d.probAt = d.probs := by
    refine List.ext_getElem (by simp [d.length_probs]) fun i hi hi' => ?_
    simp [probAt, hi']
  exact congrArg List.sum hmap

/-- Assignments have the same states of variables if they have the same state
    of each. -/
theorem statesOf_eq_iff {i j : Nat} : d.statesOf vars i = d.statesOf vars j ↔
    ∀ v ∈ vars, d.catalog.stateAt i v = d.catalog.stateAt j v := List.map_inj_left

/-- Repetitions do not matter, nor does the order. -/
theorem uncertaintyOf_congr {us ws : List Nat} (h : ∀ v, v ∈ us ↔ v ∈ ws) :
    d.uncertaintyOf us = d.uncertaintyOf ws :=
  uncertainty_congr fun i _ j _ => by simp only [statesOf_eq_iff, h]

/-- Two lists of variables tell what both of them tell. -/
theorem uncertaintyOf_append : d.uncertaintyOf (a ++ b) =
    uncertainty (Finset.range d.catalog.size) d.probAt (both (d.statesOf a) (d.statesOf b)) :=
  uncertainty_congr fun i _ j _ => by
    simp only [both, Prod.mk.injEq, statesOf_eq_iff, List.forall_mem_append]

/-- **What is shared is never negative.** -/
theorem sharedNats_nonneg (hprobs : ∀ p ∈ d.probs, 0 ≤ p) (hsum : d.probs.sum = 1) :
    0 ≤ d.sharedNats a b := by
  rw [sharedNats, uncertaintyOf_append]
  exact sub_nonneg.2 (uncertainty_pair_le (fun i _ => probAt_nonneg hprobs i)
    (sum_probAt.trans hsum))

/-- **It is shared both ways.** -/
theorem sharedNats_comm : d.sharedNats b a = d.sharedNats a b := by
  have hunion : d.uncertaintyOf (b ++ a) = d.uncertaintyOf (a ++ b) :=
    uncertaintyOf_congr fun v => by rw [List.mem_append, List.mem_append, or_comm]
  rw [sharedNats, sharedNats, hunion, add_comm (d.uncertaintyOf b)]

/-! ## Marginal distributions -/

/-- The number of the states of variables. -/
def cellOf (d : Distribution ℝ) (vars : List Nat) (i : Nat) : Nat :=
  MixedRadix.value (vars.map fun v => (d.catalog.cardinalities[v]?).getD 0) (d.statesOf vars i)

theorem below_statesOf (hvars : ∀ v ∈ vars, v < d.catalog.vars.length) {i : Nat}
    (hi : i < d.catalog.size) :
    MixedRadix.Below (vars.map fun v => (d.catalog.cardinalities[v]?).getD 0)
      (d.statesOf vars i) :=
  Catalog.below_map_stateAt hvars hi

/-- Assignments are in one cell if they have the same states. -/
theorem uncertaintyOf_eq (hvars : ∀ v ∈ vars, v < d.catalog.vars.length) :
    uncertainty (Finset.range d.catalog.size) d.probAt (d.cellOf vars) = d.uncertaintyOf vars := by
  refine uncertainty_congr fun i hi j hj => ⟨fun h => ?_, fun h => by rw [cellOf, cellOf, h]⟩
  exact MixedRadix.eq_of_value_eq (below_statesOf hvars (Finset.mem_range.1 hi))
    (below_statesOf hvars (Finset.mem_range.1 hj)) h

/-- **A marginal distribution has the weights of classes.** -/
theorem probs_marginalOf_eq_classWeight : (d.marginalOf vars).probs =
    (List.range (MixedRadix.size (vars.map fun v => (d.catalog.cardinalities[v]?).getD 0))).map
      (classWeight (Finset.range d.catalog.size) d.probAt (d.cellOf vars)) := by
  rw [probs_marginalOf Scalar.lossless_real]
  refine List.map_congr_left fun l _ => ?_
  refine (Weights.sum_filter_zipIdx d.probs (fun i => d.cellOf vars i == l) 0).trans ?_
  simp only [d.length_probs, classWeight, Finset.sum_filter, probAt, Nat.zero_add, beq_iff_eq]

/-! ## Entropy -/

variable {base : ℝ}

/-- **Entropy is uncertainty in units of a base.** -/
theorem entropy_eq_ok (hprobs : ∀ p ∈ d.probs, 0 ≤ p)
    (hvars : ∀ v ∈ vars, v < d.catalog.vars.length) (hbase : Information.validBase base) :
    d.entropy base (some vars) = .ok (d.uncertaintyOf vars / Real.log base) := by
  have hmem : ∀ v, v ∈ vars.eraseDups ↔ v ∈ vars := fun v => List.mem_eraseDups
  have hdistinct : ∀ v ∈ vars.eraseDups, v < d.catalog.vars.length :=
    fun v hv => hvars v ((hmem v).1 hv)
  have hnonneg : ∀ i ∈ Finset.range d.catalog.size, 0 ≤ d.probAt i :=
    fun i _ => probAt_nonneg hprobs i
  have hmarginal : ∀ p ∈ (d.marginalOf vars.eraseDups).probs, 0 ≤ p := by
    rw [probs_marginalOf_eq_classWeight]
    intro p hp
    obtain ⟨l, -, rfl⟩ := List.mem_map.1 hp
    exact classWeight_nonneg hnonneg l
  have hcells : ∀ i ∈ Finset.range d.catalog.size, d.cellOf vars.eraseDups i ∈ Finset.range
      (MixedRadix.size (vars.eraseDups.map fun v => (d.catalog.cardinalities[v]?).getD 0)) :=
    fun i hi => Finset.mem_range.2
      (MixedRadix.value_lt_size (below_statesOf hdistinct (Finset.mem_range.1 hi)))
  have hsum : ((d.marginalOf vars.eraseDups).probs.map fun p => p * Real.log p).sum =
      -d.uncertaintyOf vars := by
    rw [probs_marginalOf_eq_classWeight, List.map_map, ← uncertaintyOf_congr hmem,
      ← uncertaintyOf_eq hdistinct]
    exact sum_classWeight_mul_log hcells
  rw [entropy, if_pos hbase, probsOf, marginal_eq_ok hvars]
  simp only [Except.map, Information.entropy_eq hmarginal, hsum, neg_neg]

/-- Mutual information is what is shared, in units of a base, unless it is
    below a tolerance. -/
theorem mutualInformation_eq (hprobs : ∀ p ∈ d.probs, 0 ≤ p)
    (ha : ∀ v ∈ a, v < d.catalog.vars.length) (hb : ∀ v ∈ b, v < d.catalog.vars.length)
    (hbase : Information.validBase base) (tolerance : ℝ) :
    d.mutualInformation tolerance base a b =
      if d.sharedNats a b / Real.log base < -tolerance then
        .error (.negativeInformation (d.sharedNats a b / Real.log base) tolerance)
      else .ok (d.sharedNats a b / Real.log base) := by
  have hab : ∀ v ∈ a ++ b, v < d.catalog.vars.length := List.forall_mem_append.2 ⟨ha, hb⟩
  have hvalue : d.uncertaintyOf a / Real.log base + d.uncertaintyOf b / Real.log base -
      d.uncertaintyOf (a ++ b) / Real.log base = d.sharedNats a b / Real.log base := by
    rw [sharedNats, sub_div, add_div]
  simp only [mutualInformation, entropy_eq_ok hprobs ha hbase, entropy_eq_ok hprobs hb hbase,
    entropy_eq_ok hprobs hab hbase, bind, Except.bind, hvalue]

/-- What is answered for the information that two lists of variables share.
    The bases of logarithms are those above one and those below. -/
structure Shares (d : Distribution ℝ) (a b : List Nat) : Prop where
  /-- What they share is not negative. -/
  nonneg : 0 ≤ d.sharedNats a b
  /-- In a base above one that is the answer, both ways. -/
  of_one_lt {base tolerance : ℝ} (hbase : 1 < base) (ht : 0 ≤ tolerance) :
    ∃ x, 0 ≤ x ∧ x = d.sharedNats a b / Real.log base ∧
      d.mutualInformation tolerance base a b = .ok x ∧
      d.mutualInformation tolerance base b a = .ok x
  /-- In a base below one it counts as negative, and is no answer if it is
      more than the tolerance. -/
  of_lt_one {base tolerance : ℝ} (hpos : 0 < base) (hbase : base < 1) :
    ∃ x ≤ 0, x = d.sharedNats a b / Real.log base ∧
      d.mutualInformation tolerance base a b =
        (if x < -tolerance then .error (.negativeInformation x tolerance) else .ok x) ∧
      d.mutualInformation tolerance base b a = d.mutualInformation tolerance base a b

/-- **What variables share is not negative, in bases above one.** -/
theorem shares (hprobs : ∀ p ∈ d.probs, 0 ≤ p) (hsum : d.probs.sum = 1)
    (ha : ∀ v ∈ a, v < d.catalog.vars.length) (hb : ∀ v ∈ b, v < d.catalog.vars.length) :
    d.Shares a b where
  nonneg := sharedNats_nonneg hprobs hsum
  of_one_lt {base tolerance} hbase ht := by
    have hvalid := Information.validBase_iff.2 ⟨one_pos.trans hbase, hbase.ne'⟩
    have hvalue : 0 ≤ d.sharedNats a b / Real.log base :=
      div_nonneg (sharedNats_nonneg hprobs hsum) (Real.log_pos hbase).le
    have hnot : ¬ d.sharedNats a b / Real.log base < -tolerance := by linarith
    refine ⟨_, hvalue, rfl, ?_, ?_⟩
    · rw [mutualInformation_eq hprobs ha hb hvalid, if_neg hnot]
    · rw [mutualInformation_eq hprobs hb ha hvalid, sharedNats_comm, if_neg hnot]
  of_lt_one {base tolerance} hpos hbase := by
    have hvalid := Information.validBase_iff.2 ⟨hpos, hbase.ne⟩
    refine ⟨_, div_nonpos_of_nonneg_of_nonpos (sharedNats_nonneg hprobs hsum)
      (Real.log_neg hpos hbase).le, rfl, mutualInformation_eq hprobs ha hb hvalid tolerance, ?_⟩
    rw [mutualInformation_eq hprobs hb ha hvalid, mutualInformation_eq hprobs ha hb hvalid,
      sharedNats_comm]

/-! ## A coin and its copy -/

/-- Two variables that always have the same state. -/
noncomputable def copied : Distribution ℝ :=
  ⟨.of [.boolean "Coin", .boolean "Copy"], [1 / 2, 0, 0, 1 / 2], rfl⟩

theorem nonneg_copied : ∀ p ∈ copied.probs, 0 ≤ p := by simp [copied]

theorem sum_copied : copied.probs.sum = 1 := by norm_num [copied]

/-- Variables that tell the two possible assignments apart have an uncertainty
    of one bit. -/
theorem uncertaintyOf_copied {vars : List Nat}
    (h : copied.statesOf vars 3 ≠ copied.statesOf vars 0) :
    copied.uncertaintyOf vars = Real.log 2 := by
  have hsize : copied.catalog.size = 4 := rfl
  have hfirst : copied.probAt 0 = 1 / 2 := rfl
  have hmixed : copied.probAt 1 = 0 ∧ copied.probAt 2 = 0 := ⟨rfl, rfl⟩
  have hlast : copied.probAt 3 = 1 / 2 := rfl
  have hbit : Real.log (1 / 2) = -Real.log 2 := by rw [one_div, Real.log_inv]
  simp only [uncertaintyOf, uncertainty, hsize, Finset.sum_range_succ, Finset.sum_range_zero,
    classWeight, Finset.sum_filter, hfirst, hmixed, hlast, h, h.symm, if_true, if_false, ite_self,
    zero_mul, zero_add, add_zero, hbit]
  ring

theorem sharedNats_copied : copied.sharedNats [0] [1] = Real.log 2 := by
  rw [sharedNats, uncertaintyOf_copied (by decide), uncertaintyOf_copied (by decide),
    uncertaintyOf_copied (by decide), add_sub_cancel_right]

/-- They share one bit. -/
theorem shares_copied : (∀ p ∈ copied.probs, 0 ≤ p) ∧ copied.probs.sum = 1 ∧
    (∀ v ∈ [0], v < copied.catalog.vars.length) ∧ (∀ v ∈ [1], v < copied.catalog.vars.length) ∧
    copied.sharedNats [0] [1] = Real.log 2 ∧ copied.Shares [0] [1] := by
  have hfirst : ∀ v ∈ [0], v < copied.catalog.vars.length := by decide
  have hsecond : ∀ v ∈ [1], v < copied.catalog.vars.length := by decide
  exact ⟨nonneg_copied, sum_copied, hfirst, hsecond, sharedNats_copied,
    shares nonneg_copied sum_copied hfirst hsecond⟩

/-- In the base one half, which logarithms may have, the bit that they share is
    refused for being negative. -/
theorem mutualInformation_half : (∀ p ∈ copied.probs, 0 ≤ p) ∧ copied.probs.sum = 1 ∧
    Information.validBase (1 / 2 : ℝ) ∧ copied.mutualInformation (1 / 10 ^ 9) (1 / 2) [0] [1] =
      .error (.negativeInformation (-1) (1 / 10 ^ 9)) := by
  have hvalid : Information.validBase (1 / 2 : ℝ) :=
    Information.validBase_iff.2 ⟨by norm_num, by norm_num⟩
  have hvalue : copied.sharedNats [0] [1] / Real.log (1 / 2) = -1 := by
    have hpos := Real.log_pos one_lt_two
    rw [sharedNats_copied, one_div, Real.log_inv, div_neg, div_self hpos.ne']
  refine ⟨nonneg_copied, sum_copied, hvalid, ?_⟩
  rw [mutualInformation_eq nonneg_copied (by decide) (by decide) hvalid, hvalue,
    if_pos (by norm_num)]

end JointProb.Distribution
