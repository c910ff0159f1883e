/-
  JointProb — when the entries of a joint distribution are probabilities.

  A network is accepted if its tables fit, whatever numbers they hold.

  * `Weights.isProbability_normalizeWithin_iff`: scaled weights are
    probabilities if no weight is negative, and only then;
  * `Network.sum_and_range_of_expand`: so the entries of a joint distribution
    have the sum one, and are probabilities exactly if no assignment has a
    negative product;
  * `Network.expand_out_of_range`: a network with the entries 2 and -1 is
    accepted, and expanded to these.
-/
import JointProb.Proofs.Network.Expand
import JointProb.Proofs.Spec.Line

namespace JointProb

namespace Weights

variable {band : ℚ} {ws vs : List ℚ}

theorem sum_of_normalizeWithin (h : normalizeWithin band ws = .ok vs) : vs.sum = 1 := by
  obtain ⟨hpos, -, rfl⟩ := normalizeWithin_eq_ok_iff.1 h
  rw [← rescale_eq_map]
  exact sum_rescale rfl hpos

/-- **Scaled weights are probabilities** if no weight is negative, and only
    then. -/
theorem isProbability_normalizeWithin_iff (h : normalizeWithin band ws = .ok vs) :
    (∀ v ∈ vs, IsProbability v) ↔ ∀ w ∈ ws, 0 ≤ w := by
  constructor
  · intro hvs w hw
    obtain ⟨hpos, -, rfl⟩ := normalizeWithin_eq_ok_iff.1 h
    -- scaling by a positive total keeps the sign
    have hscaled := (hvs _ (List.mem_map_of_mem hw)).1
    rwa [le_div_iff₀ hpos, zero_mul] at hscaled
  · intro hws
    exact (probabilities_of_normalizeWithin hws h).1

end Weights

namespace Network

variable {n : Network ℚ} {settings : Settings ℚ} {d : Distribution ℚ}

/-- The weights are the products of the entries, in whatever order the
    variables are taken. -/
theorem forall_mem_weights_iff {order : List Nat} (h : n.ParentsFirst order) {P : ℚ → Prop} :
    (∀ w ∈ n.weights order, P w) ↔
      ∀ i < n.catalog.size, P (n.nodes.map (·.entry n.catalog (n.catalog.decode i))).prod := by
  simp only [weights, List.forall_mem_map, List.mem_range]
  refine forall₂_congr fun i hi => ?_
  rw [weight_eq_prod_entry h hi]

/-- **The entries of a joint distribution have the sum one.**  They are
    probabilities exactly if no assignment has a negative product of entries,
    so always if no table has a negative entry. -/
theorem sum_and_range_of_expand (h : n.expand settings = .ok d) : d.probs.sum = 1 ∧
    ((∀ p ∈ d.probs, IsProbability p) ↔ ∀ i < n.catalog.size,
      0 ≤ (n.nodes.map (·.entry n.catalog (n.catalog.decode i))).prod) ∧
    ((∀ m ∈ n.nodes, ∀ p ∈ m.table, 0 ≤ p) → ∀ p ∈ d.probs, IsProbability p) := by
  obtain ⟨-, order, horder, hprobs⟩ := expand_eq_ok_iff.1 h
  have hrange := Weights.isProbability_normalizeWithin_iff hprobs
  refine ⟨Weights.sum_of_normalizeWithin hprobs, ?_, fun htables => ?_⟩
  · rw [hrange, forall_mem_weights_iff (parentsFirst_of_order horder)]
  · exact hrange.2 (nonneg_weights htables order)

/-- The rows of the second table do not have the sum one, the total is scaled. -/
theorem sum_and_range_of_expand_late :
    let c : Catalog := .of [.boolean "Rain", .boolean "Late"]
    let rain : Node ℚ := ⟨0, [], [7 / 10, 3 / 10]⟩
    let late : Node ℚ := ⟨1, [0], [9 / 10, 1 / 5, 2 / 5, 1 / 2]⟩
    let n : Network ℚ := ⟨c, [rain, late]⟩
    ∃ d, n.expand .default = .ok d ∧ (∀ m ∈ n.nodes, ∀ p ∈ m.table, 0 ≤ p) ∧
      d.probs.sum = 1 ∧ ∀ p ∈ d.probs, IsProbability p := by
  intro c rain late n
  have hprobs : (n.expand .default).toOption.map (·.probs) =
      some [63 / 104, 14 / 104, 12 / 104, 15 / 104] := by decide +kernel
  obtain ⟨d, hd, -⟩ := Option.map_eq_some_iff.1 hprobs
  have hexpand := toOption_eq_some.1 hd
  have htables : ∀ m ∈ n.nodes, ∀ p ∈ m.table, 0 ≤ p := by decide +kernel
  obtain ⟨hsum, -, hrange⟩ := sum_and_range_of_expand hexpand
  exact ⟨d, hexpand, htables, hsum, hrange htables⟩

/-- **A network is accepted and expanded to what are no probabilities**, under
    settings without a problem: its total is one. -/
theorem expand_out_of_range : ∃ (n : Network ℚ) (d : Distribution ℚ),
    Network.ofNodes (.of [.boolean "A"]) [⟨0, [], [2, -1]⟩] =
        (.ok n : Except (SpecError ℚ) (Network ℚ)) ∧
      (Settings.default : Settings ℚ).check = .ok () ∧ n.expand .default = .ok d ∧
      d.probs = [2, -1] ∧ d.probs.sum = 1 ∧ ¬ ∀ p ∈ d.probs, IsProbability p := by
  have hprobs : (Network.expand (⟨.of [.boolean "A"], [⟨0, [], [2, -1]⟩]⟩ : Network ℚ)
      .default).toOption.map (·.probs) = some [2, -1] := by decide +kernel
  obtain ⟨d, hd, hprobs⟩ := Option.map_eq_some_iff.1 hprobs
  have hproblems : (Settings.default : Settings ℚ).problems.isEmpty := by decide +kernel
  refine ⟨_, d, rfl, if_pos hproblems, toOption_eq_some.1 hd, hprobs, ?_⟩
  rw [hprobs]
  decide +kernel

end Network

end JointProb
