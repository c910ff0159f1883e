/-
  JointProb — independence in the graph of a network.

  * `Distribution.independentUnder_eq_true`: products are within every
    tolerance;
  * `Network.IsJoint.mass_pair`: the masses of variables without a common
    ancestor multiply;
  * `Network.respectsGraph_of_expand`: what the graph of a network says to be
    independent is so in its joint distribution.
-/
import JointProb.Proofs.Network.Expand
import JointProb.Proofs.Query.Independence

namespace JointProb

/-! ## Answers -/

namespace Distribution

variable {d : Distribution ℚ}

/-- Products are within every tolerance. -/
theorem independentUnder_eq_true {measure : List Constraint → ℚ} {tolerance : ℚ} {a b : Nat}
    (htol : 0 ≤ tolerance) (h : ∀ x ∈ d.choices a, ∀ y ∈ d.choices b,
      measure [x, y] = measure [x] * measure [y]) :
    d.independentUnder measure tolerance a b = true := by
  refine independentUnder_iff.2 fun x hx y hy => ?_
  rw [deviation_eq_abs, excess, h x hx y hy, sub_self, abs_zero]
  exact not_lt.2 htol

end Distribution

namespace Network

variable {n : Network ℚ} {d : Distribution ℚ}

/-! ## Masses -/

/-- **The masses of variables without a common ancestor multiply.** -/
theorem IsJoint.mass_pair (hd : n.IsJoint d) (hn : n.WellFormed) (hs : n.Stochastic)
    {x y : Constraint} (h : Disjoint (n.ancestors x.var) (n.ancestors y.var)) :
    d.mass [x, y] = d.mass [x] * d.mass [y] := by
  obtain ⟨order, -, hmass⟩ := hd.mass_eq hn hs
  have hclosed : ∀ v, (n.kernels hn hs).Closed (n.ancestors v) :=
    fun v u hu p hp => Relation.ReflTransGen.head hp hu
  have hdepends : ∀ z : Constraint, DependsOn (meets [z]) (n.ancestors z.var) :=
    fun z => (dependsOn_meets_singleton z).mono fun v hv =>
      Set.mem_singleton_iff.1 hv ▸ Relation.ReflTransGen.refl
  rw [hmass, hmass, hmass, ← List.singleton_append, meets_append,
    (n.kernels hn hs).expect_mul (hclosed x.var) (hclosed y.var) h (hdepends x) (hdepends y),
    Pi.mul_apply]

/-- With the state of its only parent, the state of a variable counts with
    some factor, whatever else is fixed that does not come from it. -/
theorem IsJoint.exists_mass_cons (hd : n.IsJoint d) (hn : n.WellFormed) (hs : n.Stochastic)
    {x z : Constraint} (hxlt : x.var < n.nodes.length)
    (hx : x.state < n.catalog.cardinalityAt x.var) (hz : z.state < n.catalog.cardinalityAt z.var)
    (hparent : ∀ p, n.IsParent p x.var ↔ p = z.var) :
    ∃ q, ∀ fixed, z ∈ fixed → (∀ y ∈ fixed, x.var ∉ n.ancestors y.var) →
      d.mass (x :: fixed) = q * d.mass fixed := by
  have hm := List.getElem?_eq_getElem hxlt
  have hmem : ∀ p ∈ n.nodes[x.var].parents, p = z.var := fun p hp =>
    (hparent p).1 (by rwa [IsParent, parentsOf_eq hm])
  have hbelow : MixedRadix.Below (n.nodes[x.var].radices n.catalog)
      (n.nodes[x.var].parents.map fun _ => z.state) :=
    Node.below_radices_iff.2 fun p hp => by rwa [hmem p hp]
  refine ⟨_, fun fixed hzmem hfixed => hd.mass_cons hn hs hm hx
    (MixedRadix.value_lt_size hbelow) ?_ hfixed⟩
  intro y hy
  rw [Node.conditions, MixedRadix.digits_value hbelow, List.zipWith_map_right,
    List.zipWith_self] at hy
  obtain ⟨p, hp, rfl⟩ := List.mem_map.1 hy
  rwa [hmem p hp]

/-! ## Queries -/

/-- The answers about independence that the graph of a network gives. -/
structure RespectsGraph (n : Network ℚ) (d : Distribution ℚ) (tolerances : Tolerances ℚ) :
    Prop where
  independence {x y : Nat} (hx : x < n.nodes.length) (hy : y < n.nodes.length)
    (h : Disjoint (n.ancestors x) (n.ancestors y)) :
    Query.evaluateWith d tolerances (.independence x y) = .ok (.truth true)
  condIndependence {x y b : Nat} (hx : x < n.nodes.length) (hy : y < n.nodes.length)
    (hparent : ∀ p, n.IsParent p x ↔ p = b) (hne : y ≠ x) (h : ¬ n.IsDescendant x y) :
    Query.evaluateWith d tolerances (.condIndependence x y b) = .ok (.truth true)

theorem IsJoint.independent (hd : n.IsJoint d) (hn : n.WellFormed) (hs : n.Stochastic)
    {tolerance : ℚ} (htol : 0 ≤ tolerance) {x y : Nat}
    (h : Disjoint (n.ancestors x) (n.ancestors y)) : d.independent tolerance x y = true := by
  refine Distribution.independentUnder_eq_true htol fun u hu v hv => hd.mass_pair hn hs ?_
  rwa [(Distribution.mem_choices.1 hu).1, (Distribution.mem_choices.1 hv).1]

theorem IsJoint.condIndependent (hd : n.IsJoint d) (hn : n.WellFormed) (hs : n.Stochastic)
    {tolerance : ℚ} (htol : 0 ≤ tolerance) {x y b : Nat} (hx : x < n.nodes.length)
    (hparent : ∀ p, n.IsParent p x ↔ p = b) (h : x ∉ n.ancestors y) :
    d.condIndependent tolerance x y b = true := by
  have hb : x ∉ n.ancestors b := hn.notMem_ancestors ((hparent b).2 rfl)
  simp only [Distribution.condIndependent, List.all_eq_true]
  intro z hz
  obtain ⟨hzvar, hzstate⟩ := Distribution.mem_choices.1 hz
  split_ifs with hweight
  · rfl
  refine Distribution.independentUnder_eq_true htol fun u hu v hv => ?_
  obtain ⟨huvar, hustate⟩ := Distribution.mem_choices.1 hu
  obtain ⟨hvvar, -⟩ := Distribution.mem_choices.1 hv
  rw [hd.catalog_eq] at hzstate hustate
  obtain ⟨q, hq⟩ := hd.exists_mass_cons hn hs (x := u) (z := z) (by rwa [huvar])
    (by rwa [huvar]) (by rwa [hzvar]) (by rwa [huvar, hzvar])
  have hpair : d.mass [u, v, z] = q * d.mass [v, z] :=
    hq [v, z] (by simp) (by simp [huvar, hvvar, hzvar, h, hb])
  have hsingle : d.mass [u, z] = q * d.mass [z] := hq [z] (by simp) (by simp [huvar, hzvar, hb])
  have hne : d.mass [z] ≠ 0 := (not_le.1 hweight).ne'
  calc d.mass [u, v, z] / d.mass [z] = q * (d.mass [v, z] / d.mass [z]) := by
        rw [hpair, mul_div_assoc]
    _ = d.mass [u, z] / d.mass [z] * (d.mass [v, z] / d.mass [z]) := by
        rw [hsingle, mul_div_cancel_right₀ q hne]

/-- **The answers about independence respect the graph** of an accepted
    stochastic network, whatever the tolerance is. -/
theorem respectsGraph_of_expand {c : Catalog} {nodes : List (Node ℚ)} {settings : Settings ℚ}
    {tolerances : Tolerances ℚ} (h : ofNodes c nodes = .ok n) (hs : n.Stochastic)
    (htol : 0 ≤ tolerances.independence) :
    (0 ≤ settings.tolerances.normalizationBand → ∃ d, n.expand settings = .ok d) ∧
      ∀ d, n.expand settings = .ok d → n.RespectsGraph d tolerances := by
  have hn := (of_ofNodes h).2.2
  refine ⟨exists_expand hn hs, fun d hd => ?_⟩
  have hd := isJoint_of_expand hn hs hd
  have hlen : n.nodes.length = d.catalog.vars.length := by rw [hd.catalog_eq, hn.length_nodes]
  constructor
  · intro x y hx hy hdisjoint
    rw [Query.evaluateWith_independence (hlen ▸ hx) (hlen ▸ hy),
      hd.independent hn hs htol hdisjoint]
  · intro x y b hx hy hparent hne hdescendant
    have hb : b < n.nodes.length := hn.parent_lt ((hparent b).2 rfl)
    have hanc : x ∉ n.ancestors y := fun hmem =>
      (Relation.reflTransGen_iff_eq_or_transGen.1 hmem).elim hne hdescendant
    rw [Query.evaluateWith_condIndependence (hlen ▸ hx) (hlen ▸ hy) (hlen ▸ hb),
      hd.condIndependent hn hs htol hx hparent hanc]

/-- Two causes of one effect, and what comes of it. -/
theorem respectsGraph_of_expand_late :
    let c : Catalog :=
      .of [.boolean "Rain", .boolean "Wind", ⟨"Road", ["Dry", "Wet", "Blocked"]⟩, .boolean "Late"]
    let n : Network ℚ := ⟨c, [⟨0, [], [7 / 10, 3 / 10]⟩, ⟨1, [], [4 / 5, 1 / 5]⟩,
      ⟨2, [0, 1], [1, 0, 0, 9 / 10, 0, 1 / 10, 0, 1, 0, 0, 1 / 2, 1 / 2]⟩,
      ⟨3, [2], [9 / 10, 1 / 10, 3 / 5, 2 / 5, 1 / 5, 4 / 5]⟩]⟩
    let settings : Settings ℚ := .default
    (ofNodes c n.nodes : Except (SpecError ℚ) (Network ℚ)) = .ok n ∧ n.Stochastic ∧
      0 ≤ settings.tolerances.independence ∧ ∃ d, n.expand settings = .ok d ∧
        Query.evaluateWith d settings.tolerances (.independence 0 1) = .ok (.truth true) ∧
        Query.evaluateWith d settings.tolerances (.condIndependence 3 0 2) = .ok (.truth true) := by
  intro c n settings
  have h : (ofNodes c n.nodes : Except (SpecError ℚ) (Network ℚ)) = .ok n := rfl
  have hs : n.Stochastic := by decide +kernel
  have htol : 0 ≤ settings.tolerances.independence := by decide +kernel
  have hband : 0 ≤ settings.tolerances.normalizationBand := by decide +kernel
  obtain ⟨hexists, hall⟩ := respectsGraph_of_expand h hs htol
  obtain ⟨d, hd⟩ := hexists hband
  have hrain : n.ancestors 0 = {0} := ancestors_eq_singleton rfl
  have hwind : n.ancestors 1 = {1} := ancestors_eq_singleton rfl
  refine ⟨h, hs, htol, d, hd, (hall d hd).independence (by decide) (by decide) ?_,
    (hall d hd).condIndependence (by decide) (by decide) (fun p => ?_) (by decide) fun hlate => ?_⟩
  · rw [hrain, hwind]
    exact Set.disjoint_singleton.2 (by decide)
  · simp [IsParent, parentsOf, parentsIn, n]
  · have hmem : 3 ∈ n.ancestors 0 := hlate.to_reflTransGen
    rw [hrain] at hmem
    exact absurd hmem (by decide)

end Network

end JointProb
