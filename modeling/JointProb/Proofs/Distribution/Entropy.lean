/-
  JointProb — bounds of entropies.

  * `Distribution.uncertaintyOf_le_log`: variables are not more uncertain than
    if all assignments to them were alike;
  * `Distribution.uncertaintyOf_append_le` and
    `Distribution.uncertaintyOf_le_append`: more variables are not less
    uncertain, and together not more than each list by itself;
  * `Distribution.EntropyBounds` says what this means for the answers in a base
    above one; `Distribution.entropyBounds`: so it is for all lists of
    variables.
-/
import JointProb.Network
import JointProb.Proofs.Distribution.Information
import Mathlib.Analysis.SpecialFunctions.Log.Base
import Mathlib.Data.List.Dedup

namespace JointProb.Distribution

variable {d : Distribution ℝ} {vars a b : List Nat} {base : ℝ}

/-! ## Uncertainty -/

/-- Two lists of variables are not more uncertain than one and then the other. -/
theorem uncertaintyOf_append_le (hprobs : ∀ p ∈ d.probs, 0 ≤ p) (hsum : d.probs.sum = 1) :
    d.uncertaintyOf (a ++ b) ≤ d.uncertaintyOf a + d.uncertaintyOf b :=
  sub_nonneg.1 (sharedNats_nonneg hprobs hsum)

/-- More variables are not less uncertain. -/
theorem uncertaintyOf_le_append (hprobs : ∀ p ∈ d.probs, 0 ≤ p) :
    d.uncertaintyOf b ≤ d.uncertaintyOf (a ++ b) := by
  rw [uncertaintyOf_append]
  exact uncertainty_le_pair fun i _ => probAt_nonneg hprobs i

theorem uncertaintyOf_le_log_size (hprobs : ∀ p ∈ d.probs, 0 ≤ p) (hsum : d.probs.sum = 1)
    (hvars : ∀ v ∈ vars, v < d.catalog.vars.length) :
    d.uncertaintyOf vars ≤ Real.log (MixedRadix.size (vars.map d.catalog.cardinalityAt)) := by
  have hcells : ∀ i ∈ Finset.range d.catalog.size,
      d.cellOf vars i ∈ Finset.range (MixedRadix.size (vars.map d.catalog.cardinalityAt)) :=
    fun i hi => Finset.mem_range.2
      (MixedRadix.value_lt_size (below_statesOf hvars (Finset.mem_range.1 hi)))
  have hle := uncertainty_le_log_card (fun i _ => probAt_nonneg hprobs i)
    (sum_probAt.trans hsum) hcells
  rwa [uncertaintyOf_eq hvars, Finset.card_range] at hle

/-- **Variables are not more uncertain than if all assignments were alike**,
    each variable counted once. -/
theorem uncertaintyOf_le_log (hprobs : ∀ p ∈ d.probs, 0 ≤ p) (hsum : d.probs.sum = 1)
    (hvars : ∀ v ∈ vars, v < d.catalog.vars.length) :
    d.uncertaintyOf vars ≤ Real.log (∏ v ∈ vars.toFinset, d.catalog.cardinalityAt v : ℕ) := by
  have hmem (v : Nat) : v ∈ vars.dedup ↔ v ∈ vars := List.mem_dedup
  have hset : vars.dedup.toFinset = vars.toFinset := by
    ext v
    rw [List.mem_toFinset, List.mem_toFinset, hmem]
  have hle := uncertaintyOf_le_log_size hprobs hsum fun v hv => hvars v ((hmem v).1 hv)
  rwa [MixedRadix.size_eq_prod, ← List.prod_toFinset _ vars.nodup_dedup, hset,
    uncertaintyOf_congr hmem] at hle

/-! ## All variables -/

theorem statesOf_range (i : Nat) :
    d.statesOf (List.range d.catalog.vars.length) i = d.catalog.decode i :=
  d.catalog.map_stateAt_range i

/-- All variables together tell the assignments apart. -/
theorem uncertaintyOf_range : d.uncertaintyOf (List.range d.catalog.vars.length) =
    -(d.probs.map fun p => p * Real.log p).sum := by
  have hinj : Set.InjOn (d.statesOf (List.range d.catalog.vars.length))
      (Finset.range d.catalog.size) := by
    intro i hi j hj h
    rw [Finset.coe_range, Set.mem_Iio] at hi hj
    rw [statesOf_range, statesOf_range, Catalog.decode, Catalog.decode] at h
    rw [← MixedRadix.value_digits hi, h, MixedRadix.value_digits hj]
  have hmap : (List.range d.catalog.size).map (fun i => d.probAt i * Real.log (d.probAt i)) =
      d.probs.map fun p => p * Real.log p := by
    refine List.ext_getElem (by simp [d.length_probs]) fun i hi hi' => ?_
    rw [List.length_map] at hi'
    simp [probAt, hi']
  rw [uncertaintyOf, uncertainty_of_injOn hinj, ← hmap]
  rfl

/-- Without a list, entropy is that of all variables. -/
theorem entropy_none (hprobs : ∀ p ∈ d.probs, 0 ≤ p) (hbase : Information.validBase base) :
    d.entropy base none = d.entropy base (some (List.range d.catalog.vars.length)) := by
  rw [entropy_eq_ok hprobs (fun v hv => List.mem_range.1 hv) hbase, uncertaintyOf_range, entropy,
    if_pos hbase, probsOf]
  exact congrArg Except.ok (Information.entropy_eq hprobs)

/-! ## Answers -/

/-- Conditional entropy is the uncertainty that the givens leave, in units of a
    base. -/
theorem conditionalEntropy_eq_ok (hprobs : ∀ p ∈ d.probs, 0 ≤ p)
    (ha : ∀ v ∈ a, v < d.catalog.vars.length) (hb : ∀ v ∈ b, v < d.catalog.vars.length)
    (hbase : Information.validBase base) : d.conditionalEntropy base a b =
      .ok ((d.uncertaintyOf (a ++ b) - d.uncertaintyOf b) / Real.log base) := by
  have hab : ∀ v ∈ a ++ b, v < d.catalog.vars.length := List.forall_mem_append.2 ⟨ha, hb⟩
  simp only [conditionalEntropy, entropy_eq_ok hprobs hab hbase, entropy_eq_ok hprobs hb hbase,
    bind, Except.bind, sub_div]

/-- What is answered for entropies in a base. -/
structure EntropyBounds (d : Distribution ℝ) (base : ℝ) (targets givens : List Nat) : Prop where
  /-- Nothing is less than certain, what is given does not make the targets
      more uncertain, and they are not more uncertain than if all assignments to
      them were alike, each variable counted once. -/
  bounds : ∃ h c, d.entropy base (some targets) = .ok h ∧
    d.conditionalEntropy base targets givens = .ok c ∧ 0 ≤ c ∧ c ≤ h ∧
      h ≤ Real.logb base (∏ v ∈ targets.toFinset, d.catalog.cardinalityAt v : ℕ)
  /-- Repetitions do not matter, nor does the order. -/
  entropy_congr {other : List Nat} (h : ∀ v, v ∈ other ↔ v ∈ targets) :
    d.entropy base (some other) = d.entropy base (some targets)
  /-- Without a list, the entropy is that of all variables. -/
  entropy_none : d.entropy base none = d.entropy base (some (List.range d.catalog.vars.length))

/-- **Entropies are bounded**, in bases above one. -/
theorem entropyBounds {targets givens : List Nat} (hprobs : ∀ p ∈ d.probs, 0 ≤ p)
    (hsum : d.probs.sum = 1) (htargets : ∀ v ∈ targets, v < d.catalog.vars.length)
    (hgivens : ∀ v ∈ givens, v < d.catalog.vars.length) (hbase : 1 < base) :
    d.EntropyBounds base targets givens := by
  have hvalid := Information.validBase_iff.2 ⟨one_pos.trans hbase, hbase.ne'⟩
  have hlog := (Real.log_pos hbase).le
  have hunion : d.uncertaintyOf (targets ++ givens) - d.uncertaintyOf givens ≤
      d.uncertaintyOf targets := sub_le_iff_le_add.2 (uncertaintyOf_append_le hprobs hsum)
  refine ⟨⟨_, _, entropy_eq_ok hprobs htargets hvalid,
    conditionalEntropy_eq_ok hprobs htargets hgivens hvalid, ?_, ?_, ?_⟩, fun {other} h => ?_,
    entropy_none hprobs hvalid⟩
  · exact div_nonneg (sub_nonneg.2 (uncertaintyOf_le_append hprobs)) hlog
  · exact div_le_div_of_nonneg_right hunion hlog
  · rw [Real.logb]
    exact div_le_div_of_nonneg_right (uncertaintyOf_le_log hprobs hsum htargets) hlog
  · rw [entropy_eq_ok hprobs (fun v hv => htargets v ((h v).1 hv)) hvalid,
      entropy_eq_ok hprobs htargets hvalid, uncertaintyOf_congr h]

/-- A coin and its copy, asked about with repetitions, and with the coin
    given. -/
theorem entropyBounds_copied : (∀ p ∈ copied.probs, 0 ≤ p) ∧ copied.probs.sum = 1 ∧
    (∀ v ∈ [1, 0, 1], v < copied.catalog.vars.length) ∧
    (∀ v ∈ [0], v < copied.catalog.vars.length) ∧ (1 : ℝ) < 2 ∧
    copied.EntropyBounds 2 [1, 0, 1] [0] := by
  have htargets : ∀ v ∈ [1, 0, 1], v < copied.catalog.vars.length := by decide
  have hgivens : ∀ v ∈ [0], v < copied.catalog.vars.length := by decide
  exact ⟨nonneg_copied, sum_copied, htargets, hgivens, one_lt_two,
    entropyBounds nonneg_copied sum_copied htargets hgivens one_lt_two⟩

end JointProb.Distribution
