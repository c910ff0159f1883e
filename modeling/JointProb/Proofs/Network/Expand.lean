/-
  JointProb — the joint distributions of networks.

  * `Network.IsJoint` holds of a distribution with the weights of a network;
    `Network.isJoint_of_expand` and `Network.exists_expand`: a stochastic
    network is expanded to it;
  * `Network.IsJoint.mass_cons`: once the parents of a variable are among constraints,
    its state counts as its entry in the table says;
  * `Network.exists_expand_recovers`: all tables can be recovered from the
    joint distribution.
-/
import JointProb.Proofs.Catalog.InStep
import JointProb.Proofs.Distribution
import JointProb.Proofs.Network.Kernel

namespace JointProb

namespace Network

variable {n : Network ℚ} {d : Distribution ℚ}

/-! ## Expansion -/

/-- The distribution has the weights of a network as they are. -/
structure IsJoint (n : Network ℚ) (d : Distribution ℚ) : Prop where
  catalog_eq : d.catalog = n.catalog
  exists_order : ∃ order, n.order = .ok order ∧ d.probs = n.weights order

/-- The weights of a stochastic network need not be scaled. -/
theorem sum_weights_eq_one (hn : n.WellFormed) (hs : n.Stochastic) {order : List Nat}
    (h : n.ParentsFirst order) : (n.weights order).sum = 1 := by
  have hsum := sum_weights hn hs h 1
  simp only [Pi.one_apply, one_mul, Kernels.expect_one] at hsum
  exact hsum

theorem isJoint_of_expand (hn : n.WellFormed) (hs : n.Stochastic) {settings : Settings ℚ}
    (h : n.expand settings = .ok d) : n.IsJoint d := by
  obtain ⟨hcatalog, order, horder, hprobs⟩ := expand_eq_ok_iff.1 h
  refine ⟨hcatalog, order, horder, ?_⟩
  rw [(Weights.normalizeWithin_eq_ok_iff.1 hprobs).2.2,
    sum_weights_eq_one hn hs (parentsFirst_of_order horder)]
  simp

theorem exists_expand (hn : n.WellFormed) (hs : n.Stochastic) {settings : Settings ℚ}
    (hband : 0 ≤ settings.tolerances.normalizationBand) : ∃ d, n.expand settings = .ok d := by
  refine exists_expand_of_total hn fun order horder => ?_
  rw [sum_weights_eq_one hn hs (parentsFirst_of_order horder)]
  simpa using hband

/-! ## Masses -/

/-- **A mass is the probability of drawing an assignment that meets the
    constraints.** -/
theorem IsJoint.mass_eq (hd : n.IsJoint d) (hn : n.WellFormed) (hs : n.Stochastic) :
    ∃ order, n.ParentsFirst order ∧ ∀ fixed,
      d.mass fixed = (n.kernels hn hs).expect order (meets fixed) fun _ => 0 := by
  obtain ⟨hcatalog, order, horder, hprobs⟩ := hd
  refine ⟨order, parentsFirst_of_order horder, fun fixed => ?_⟩
  rw [← sum_weights hn hs (parentsFirst_of_order horder), d.mass_eq_sum, hcatalog]
  refine Finset.sum_congr rfl fun i hi => ?_
  have hi := Finset.mem_range.1 hi
  simp [hprobs, weights, hi]

theorem IsJoint.mass_nil (hd : n.IsJoint d) (hn : n.WellFormed) (hs : n.Stochastic) :
    d.mass [] = 1 := by
  obtain ⟨order, -, hmass⟩ := hd.mass_eq hn hs
  rw [hmass, meets_nil, Kernels.expect_one, Pi.one_apply]

/-- States that meet the conditions of a row are those of the row. -/
theorem map_eq_of_conditions {ps ds : List Nat} (hlen : ds.length = ps.length) {a : Assignment}
    (h : ∀ x ∈ List.zipWith Constraint.mk ps ds, a x.var = x.state) : ps.map a = ds := by
  refine List.ext_getElem (by simp [hlen]) fun i hi hi' => ?_
  rw [List.length_map] at hi
  have hmem : Constraint.mk ps[i] ds[i] ∈ List.zipWith Constraint.mk ps ds := by
    rw [List.mem_iff_getElem]
    exact ⟨i, by simp [hi, hi'], by simp⟩
  simpa using h _ hmem

/-- The states of a row have the probabilities that it says. -/
theorem probAt_of_conditions (hn : n.WellFormed) {x : Constraint} {m : Node ℚ} {row : Nat}
    (hm : n.nodes[x.var]? = some m) (hx : x.state < n.catalog.cardinalityAt x.var)
    (hrow : row < m.rowCount n.catalog) {a : Assignment}
    (ha : ∀ y ∈ m.conditions n.catalog row, a y.var = y.state) :
    n.probAt x.var (Function.update a x.var x.state) = m.entryAt n.catalog row x.state := by
  have hdigits : m.parents.map a = MixedRadix.digits (m.radices n.catalog) row :=
    map_eq_of_conditions (by simp [MixedRadix.length_digits, Node.radices]) ha
  have hrange : ∀ p ∈ m.parents, a p < n.catalog.cardinalityAt p :=
    Node.below_radices_iff.1 (hdigits ▸ MixedRadix.below_digits hrow)
  have hclamp : m.parents.map (n.catalog.clamp a) = m.parents.map a :=
    List.map_congr_left fun p hp => by
      rw [Catalog.clamp, Catalog.radixAt_eq (hn.parents_lt (List.mem_of_getElem? hm) p hp),
        Nat.mod_eq_of_lt (hrange p hp)]
  rw [probAt_update hn hm hx, hclamp, hdigits, MixedRadix.value_digits hrow]

/-- **Once its parents are fixed, the state of a variable counts as its table
    says**, whatever else is fixed that does not come from it. -/
theorem IsJoint.mass_cons (hd : n.IsJoint d) (hn : n.WellFormed) (hs : n.Stochastic)
    {x : Constraint} {fixed : List Constraint} {m : Node ℚ} {row : Nat} (hm : n.nodes[x.var]? = some m)
    (hx : x.state < n.catalog.cardinalityAt x.var) (hrow : row < m.rowCount n.catalog)
    (hconditions : m.conditions n.catalog row ⊆ fixed)
    (hfixed : ∀ y ∈ fixed, x.var ∉ n.ancestors y.var) :
    d.mass (x :: fixed) = m.entryAt n.catalog row x.state * d.mass fixed := by
  obtain ⟨order, hfirst, hmass⟩ := hd.mass_eq hn hs
  have hlt : x.var < n.nodes.length := (List.getElem?_eq_some_iff.1 hm).1
  -- the variables that do not come from it have their parents among them
  have hclosed : (n.kernels hn hs).Closed {v | x.var ∉ n.ancestors v} :=
    fun v hv p hp hanc => hv (Relation.ReflTransGen.tail hanc hp)
  have hdepends : DependsOn (meets fixed) {v | x.var ∉ n.ancestors v} :=
    (dependsOn_meets fixed).mono <| by
      rintro v ⟨y, hy, rfl⟩
      exact hfixed y hy
  have hradix : x.state < n.catalog.radixAt x.var := by
    rwa [Catalog.radixAt_eq (hn.length_nodes ▸ hlt)]
  have hexpect := (n.kernels hn hs).expect_meets_mul (hfirst.inOrder hn hs)
    (hfirst.mem_iff.2 hlt) hradix hclosed (fun h => h Relation.ReflTransGen.refl) hdepends
    fun a ha => probAt_of_conditions hn hm hx hrow fun y hy =>
      meets_ne_zero_iff.1 ha y (hconditions hy)
  rw [hmass, hmass, ← List.singleton_append, meets_append, hexpect, Pi.mul_apply]

/-! ## Recovered tables -/

theorem nodesIn_range (n : Network ℚ) : n.nodesIn (List.range n.nodes.length) = n.nodes := by
  suffices hall : ∀ ms : List (Node ℚ), (List.range ms.length).filterMap (ms[·]?) = ms from
    hall n.nodes
  intro ms
  induction ms using List.reverseRecOn with
  | nil => rfl
  | append_singleton ms m ih =>
    rw [List.length_append, List.length_singleton, List.range_succ, List.filterMap_append]
    congr 1
    · refine Eq.trans (List.filterMap_congr fun i hi => ?_) ih
      rw [List.getElem?_append_left (List.mem_range.1 hi)]
    · simp

/-- In whatever order the variables are, the weight of an assignment is the
    product of the entries for it. -/
theorem weight_eq_prod_entry {order : List Nat} (h : n.ParentsFirst order) {i : Nat}
    (hi : i < n.catalog.size) : n.weight (n.nodesIn order) i =
      (n.nodes.map (·.entry n.catalog (n.catalog.decode i))).prod := by
  rw [weight_eq_prod_probAt order hi, (h.perm.map n.probAt).prod_eq, ← weight_eq_prod_probAt _ hi,
    nodesIn_range, weight_eq_prod]

/-- The conditions of a row are on parents and on states that they have. -/
theorem of_mem_conditions {v row : Nat} {m : Node ℚ} (hm : n.nodes[v]? = some m)
    (hrow : row < m.rowCount n.catalog) {x : Constraint} (hx : x ∈ m.conditions n.catalog row) :
    n.IsParent x.var v ∧ x.state < n.catalog.cardinalityAt x.var := by
  have hbelow := MixedRadix.below_digits hrow
  rw [MixedRadix.Below, Node.radices, List.forall₂_map_right_iff] at hbelow
  rw [Node.conditions, ← List.map_uncurry_zip_eq_zipWith] at hx
  obtain ⟨⟨p, s⟩, hps, rfl⟩ := List.mem_map.1 hx
  refine ⟨?_, (List.forall₂_iff_zip.1 hbelow.flip).2 hps⟩
  rw [IsParent, parentsOf_eq hm]
  exact (List.of_mem_zip hps).1

/-- A distribution is the product of the tables of a network, and they can be
    recovered from it. -/
structure Recovers (n : Network ℚ) (d : Distribution ℚ) : Prop extends n.IsJoint d where
  sum_weights {order : List Nat} (h : n.order = .ok order) : (n.weights order).sum = 1
  getElem?_probs {i : Nat} (h : i < n.catalog.size) :
    d.probs[i]? = some (n.nodes.map (·.entry n.catalog (n.catalog.decode i))).prod
  conditional_eq {v s row : Nat} {m : Node ℚ} (hm : n.nodes[v]? = some m)
    (hs : s < n.catalog.cardinalityAt v) (hrow : row < m.rowCount n.catalog)
    (hpos : 0 < d.mass (m.conditions n.catalog row)) :
    d.conditional [⟨v, s⟩] (m.conditions n.catalog row) = .ok (m.entryAt n.catalog row s)
  probability_eq {v s : Nat} {m : Node ℚ} (hm : n.nodes[v]? = some m) (hroot : m.parents = [])
    (hs : s < n.catalog.cardinalityAt v) : d.probability [⟨v, s⟩] = .ok (m.entryAt n.catalog 0 s)

theorem IsJoint.check_eq_ok (hd : n.IsJoint d) {fixed : List Constraint}
    (h : ∀ x ∈ fixed, x.state < n.catalog.cardinalityAt x.var) : d.check fixed = .ok () :=
  d.check_eq_ok_iff.2 fun x hx => by
    rw [hd.catalog_eq, ← Catalog.lt_cardinalityAt_iff]
    exact h x hx

/-- The state of a variable counts in a row as the table says. -/
theorem IsJoint.mass_cons_conditions (hd : n.IsJoint d) (hn : n.WellFormed) (hs : n.Stochastic)
    {x : Constraint} {row : Nat} {m : Node ℚ} (hm : n.nodes[x.var]? = some m)
    (hx : x.state < n.catalog.cardinalityAt x.var) (hrow : row < m.rowCount n.catalog) :
    d.mass (x :: m.conditions n.catalog row) =
      m.entryAt n.catalog row x.state * d.mass (m.conditions n.catalog row) :=
  hd.mass_cons hn hs hm hx hrow (List.Subset.refl _) fun _ hy =>
    hn.notMem_ancestors (of_mem_conditions hm hrow hy).1

theorem recovers_of_isJoint (hd : n.IsJoint d) (hn : n.WellFormed) (hs : n.Stochastic) :
    n.Recovers d where
  toIsJoint := hd
  sum_weights h := sum_weights_eq_one hn hs (parentsFirst_of_order h)
  getElem?_probs hi := by
    obtain ⟨order, horder, hprobs⟩ := hd.exists_order
    rw [hprobs, weights, List.getElem?_map, List.getElem?_range hi, Option.map_some,
      weight_eq_prod_entry (parentsFirst_of_order horder) hi]
  conditional_eq {v s row m} hm hlt hrow hpos := by
    rw [d.conditional_eq_ok (hd.check_eq_ok (by simpa using hlt))
      (hd.check_eq_ok fun x hx => (of_mem_conditions hm hrow hx).2) (hd.mass_nil hn hs) hpos.ne',
      List.singleton_append, hd.mass_cons_conditions hn hs (x := ⟨v, s⟩) hm hlt hrow,
      mul_div_cancel_right₀ _ hpos.ne']
  probability_eq {v s m} hm hroot hlt := by
    have hrow : 0 < m.rowCount n.catalog := by
      simp [Node.rowCount, Node.radices, hroot, MixedRadix.size]
    have hmass := hd.mass_cons_conditions hn hs (x := ⟨v, s⟩) hm hlt hrow
    rw [Node.conditions, hroot, List.zipWith_nil_left, hd.mass_nil hn hs, mul_one] at hmass
    rw [Distribution.probability, hd.check_eq_ok (by simpa using hlt), ← hmass]
    rfl

/-- **All tables can be recovered from the joint distribution** of an accepted
    stochastic network, which always has one. -/
theorem exists_expand_recovers {c : Catalog} {nodes : List (Node ℚ)} {settings : Settings ℚ}
    (h : ofNodes c nodes = .ok n) (hs : n.Stochastic)
    (hband : 0 ≤ settings.tolerances.normalizationBand) :
    ∃ d, n.expand settings = .ok d ∧ n.Recovers d := by
  have hn := (of_ofNodes h).2.2
  obtain ⟨d, hd⟩ := exists_expand hn hs hband
  exact ⟨d, hd, recovers_of_isJoint (isJoint_of_expand hn hs hd) hn hs⟩

/-- Two and three states, the parents of the last variable not in their order. -/
theorem exists_expand_recovers_late :
    let c : Catalog := .of [.boolean "Rain", ⟨"Sky", ["Clear", "Grey", "Dark"]⟩, .boolean "Late"]
    let rain : Node ℚ := ⟨0, [], [7 / 10, 3 / 10]⟩
    let sky : Node ℚ := ⟨1, [0], [6 / 10, 3 / 10, 1 / 10, 0, 1 / 2, 1 / 2]⟩
    let late : Node ℚ := ⟨2, [1, 0],
      [1, 0, 1 / 2, 1 / 2, 9 / 10, 1 / 10, 8 / 10, 2 / 10, 7 / 10, 3 / 10, 1 / 4, 3 / 4]⟩
    let n : Network ℚ := ⟨c, [rain, sky, late]⟩
    (ofNodes c [late, rain, sky] : Except (SpecError ℚ) (Network ℚ)) = .ok n ∧ n.Stochastic ∧
      0 ≤ (Settings.default : Settings ℚ).tolerances.normalizationBand ∧
      ∃ d, n.expand .default = .ok d ∧ n.Recovers d := by
  intro c rain sky late n
  have h : (ofNodes c [late, rain, sky] : Except (SpecError ℚ) (Network ℚ)) = .ok n := rfl
  have hs : n.Stochastic := by decide +kernel
  have hband : 0 ≤ (Settings.default : Settings ℚ).tolerances.normalizationBand := by
    decide +kernel
  exact ⟨h, hs, hband, exists_expand_recovers h hs hband⟩

end Network

end JointProb
