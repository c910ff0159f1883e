/-
  JointProb — what networks are and what their tables multiply to.

  * `Network.Shaped` says that there is one node for each variable, in their
    order, and that its table fits, `Network.WellFormed` also that there is an
    order to multiply the tables in;
  * `Network.of_ofNodes`: all networks that are accepted are of this kind and
    have the given nodes;
  * `Network.weight_eq_prod`: the product that stops at zero is the product;
    `Network.nonneg_weights`: it is not negative if no entry is;
  * `Network.expand_eq_ok_iff`: when a network has a joint distribution;
  * `Catalog.prod_cardinalityAt_dvd_size`: distinct variables have no more
    assignments than all.
-/
import JointProb.Network
import JointProb.Proofs.Exact
import JointProb.Proofs.MixedRadix
import JointProb.Proofs.Result
import Mathlib.Algebra.BigOperators.Group.List.Lemmas
import Mathlib.Algebra.Order.BigOperators.GroupWithZero.List
import Mathlib.Data.List.Nodup
import Mathlib.Data.List.Perm.Subperm

namespace JointProb

variable {α : Type}

theorem Catalog.lt_cardinalityAt_iff {c : Catalog} {v s : Nat} :
    s < c.cardinalityAt v ↔ ∃ w, c.vars[v]? = some w ∧ s < w.cardinality := by
  cases hv : c.vars[v]? <;> simp [cardinalityAt, cardinalities, hv]

theorem Catalog.map_cardinalityAt_range (c : Catalog) :
    (List.range c.vars.length).map c.cardinalityAt = c.cardinalities := by
  refine List.ext_getElem (by simp [cardinalities]) fun i hi hi' => ?_
  simp [cardinalityAt, hi']

/-- The states of variables in range. -/
theorem Catalog.below_map_iff {c : Catalog} {vs : List Nat} {a : Nat → Nat} :
    MixedRadix.Below (vs.map c.cardinalityAt) (vs.map a) ↔ ∀ v ∈ vs, a v < c.cardinalityAt v := by
  rw [MixedRadix.Below, List.forall₂_map_left_iff, List.forall₂_map_right_iff, List.forall₂_same]

/-- Distinct variables have no more assignments than all. -/
theorem Catalog.prod_cardinalityAt_dvd_size {c : Catalog} {vs : List Nat} (hnodup : vs.Nodup)
    (hlt : ∀ v ∈ vs, v < c.vars.length) : (vs.map c.cardinalityAt).prod ∣ c.size := by
  have hsub : vs ⊆ List.range c.vars.length := fun v hv => List.mem_range.2 (hlt v hv)
  obtain ⟨us, hperm, hsublist⟩ := List.subperm_of_subset hnodup hsub
  rw [size, MixedRadix.size_eq_prod, ← map_cardinalityAt_range,
    ← (hperm.map c.cardinalityAt).prod_eq]
  exact (hsublist.map c.cardinalityAt).prod_dvd_prod

theorem Node.checkShape_eq_ok_iff {c : Catalog} {m : Node α} :
    m.checkShape c = .ok () ↔ m.child < c.vars.length ∧ (∀ p ∈ m.parents, p < c.vars.length) ∧
      m.table.length = m.expectedEntries c := by
  rw [checkShape]
  cases hv : c.vars[m.child]? with
  | none =>
    have hle := List.getElem?_eq_none_iff.1 hv
    simp [Nat.not_lt.2 hle]
  | some v =>
    have hlt : m.child < c.vars.length := (List.getElem?_eq_some_iff.1 hv).1
    cases hp : m.parents.find? (c.vars.length ≤ ·) with
    | none =>
      have hparents : ∀ p ∈ m.parents, p < c.vars.length := by simpa using hp
      simp only [hlt, true_and]
      split_ifs with hlen
      · exact iff_of_true rfl ⟨hparents, hlen⟩
      · exact iff_of_false (by simp) fun h => hlen h.2
    | some p =>
      have hle : c.vars.length ≤ p := by simpa using List.find?_some hp
      have hmem := List.mem_of_find?_eq_some hp
      exact iff_of_false (by simp) fun h => Nat.not_lt.2 hle (h.2.1 p hmem)

/-- An entry is in the table, or zero outside. -/
theorem Node.entry_nonneg {c : Catalog} {m : Node ℚ} (h : ∀ p ∈ m.table, 0 ≤ p)
    (states : List Nat) : 0 ≤ m.entry c states := by
  rw [entry]
  generalize m.row c states * c.cardinalityAt m.child + (states[m.child]?).getD 0 = place
  cases hplace : m.table[place]? with
  | none => exact le_rfl
  | some p => exact h p (List.mem_of_getElem? hplace)

namespace Network

/-! ## Construction -/

/-- One node for each variable, in their order, each with a table that fits,
    whatever its parents wait for. -/
structure Shaped (n : Network α) : Prop where
  length_nodes : n.nodes.length = n.catalog.vars.length
  child_eq {i : Nat} {m : Node α} (h : n.nodes[i]? = some m) : m.child = i
  parents_lt {m : Node α} (h : m ∈ n.nodes) : ∀ p ∈ m.parents, p < n.catalog.vars.length
  length_table {m : Node α} (h : m ∈ n.nodes) : m.table.length = m.expectedEntries n.catalog

/-- The same, and parents that do not wait for each other in a circle. -/
structure WellFormed (n : Network α) : Prop extends n.Shaped where
  exists_order : ∃ order, n.order = .ok order

theorem checkShapes_eq_ok_iff {c : Catalog} {nodes : List (Node α)} :
    checkShapes c nodes = .ok () ↔ ∀ m ∈ nodes, m.checkShape c = .ok () := by
  induction nodes with
  | nil => simp [checkShapes]
  | cons m ms ih =>
    rw [checkShapes]
    cases hm : m.checkShape c with
    | error e => simp [hm]
    | ok u => simp [hm, ih]

theorem checkDistinct_eq_ok_iff {c : Catalog} {nodes : List (Node α)} :
    checkDistinct c nodes = .ok () ↔
      ∀ i < c.vars.length, nodes.countP (·.child == i) ≤ 1 := by
  have hiff := find?_zipIdx_eq_none_iff c.vars fun i => decide (1 < nodes.countP (·.child == i))
  simp only [decide_eq_false_iff_not, Nat.not_lt] at hiff
  rw [← hiff, checkDistinct]
  split
  · next hfound => simp [hfound]
  · next hnone => simp [hnone]

/-- The node at a position is a given one of the variable there. -/
theorem of_arrange {c : Catalog} {nodes arranged : List (Node α)}
    (h : arrange c nodes = .ok arranged) : arranged.length = c.vars.length ∧
      ∀ i m, arranged[i]? = some m → m ∈ nodes ∧ m.child = i := by
  obtain ⟨hlen, hget⟩ := List.forall₂_iff_get.1 (mapM_eq_ok.1 h)
  rw [List.length_zipIdx] at hlen
  refine ⟨hlen.symm, fun i m hm => ?_⟩
  obtain ⟨hi, rfl⟩ := List.getElem?_eq_some_iff.1 hm
  have hnode := hget i (by rw [List.length_zipIdx]; omega) hi
  simp only [List.get_eq_getElem, List.getElem_zipIdx, Nat.zero_add] at hnode
  split at hnode
  · rename_i m' hfind
    cases hnode
    exact ⟨List.mem_of_find?_eq_some hfind, by simpa using List.find?_some hfind⟩
  · cases hnode

/-- **Accepted networks are well-formed** and have the given catalog and only
    given nodes. -/
theorem of_ofNodes {c : Catalog} {nodes : List (Node α)} {n : Network α}
    (h : ofNodes c nodes = .ok n) :
    n.catalog = c ∧ (∀ m ∈ n.nodes, m ∈ nodes) ∧ n.WellFormed := by
  simp only [ofNodes, bind_eq_ok, map_eq_ok] at h
  obtain ⟨_, hshapes, _, -, arranged, harranged, order, horder, rfl⟩ := h
  obtain ⟨hlen, hget⟩ := of_arrange harranged
  have hmem : ∀ m ∈ arranged, m ∈ nodes := fun m hm => by
    obtain ⟨i, hi⟩ := List.getElem?_of_mem hm
    exact (hget i m hi).1
  have hshape : ∀ m ∈ arranged, m.child < c.vars.length ∧ (∀ p ∈ m.parents, p < c.vars.length) ∧
      m.table.length = m.expectedEntries c :=
    fun m hm => Node.checkShape_eq_ok_iff.1 (checkShapes_eq_ok_iff.1 hshapes m (hmem m hm))
  exact ⟨rfl, hmem, ⟨hlen, fun hm => (hget _ _ hm).2, fun hm => (hshape _ hm).2.1,
    fun hm => (hshape _ hm).2.2⟩, order, horder⟩

/-! ## Products of entries -/

/-- Stopping at zero does not change the product. -/
theorem weightFrom_eq_prod (c : Catalog) (states : List Nat) (factor : ℚ)
    (nodes : List (Node ℚ)) :
    weightFrom c states factor nodes = factor * (nodes.map (·.entry c states)).prod := by
  induction nodes generalizing factor with
  | nil => simp [weightFrom]
  | cons m ms ih =>
    rw [weightFrom, List.map_cons, List.prod_cons, ← mul_assoc]
    split_ifs with h
    · rw [beq_iff_eq] at h
      rw [h, zero_mul]
    · exact ih _

/-- **The weight of an assignment is the product of the entries for it.** -/
theorem weight_eq_prod (n : Network ℚ) (nodes : List (Node ℚ)) (linear : Nat) :
    n.weight nodes linear =
      (nodes.map (·.entry n.catalog (n.catalog.decode linear))).prod := by
  rw [weight, weightFrom_eq_prod]
  exact one_mul _

/-- Entries that are not negative multiply to weights that are not. -/
theorem nonneg_weights {n : Network ℚ} (h : ∀ m ∈ n.nodes, ∀ p ∈ m.table, 0 ≤ p)
    (order : List Nat) : ∀ w ∈ n.weights order, 0 ≤ w := by
  intro w hw
  obtain ⟨linear, -, rfl⟩ := List.mem_map.1 hw
  rw [weight_eq_prod]
  refine List.prod_nonneg fun x hx => ?_
  obtain ⟨m, hm, rfl⟩ := List.mem_map.1 hx
  obtain ⟨v, -, hv⟩ := List.mem_filterMap.1 hm
  exact m.entry_nonneg (h m (List.mem_of_getElem? hv)) _

/-! ## Expansion -/

/-- **When a network has a joint distribution.** -/
theorem expand_eq_ok_iff [Scalar α] {n : Network α} {settings : Settings α}
    {d : Distribution α} : n.expand settings = .ok d ↔ d.catalog = n.catalog ∧
    ∃ order, n.order = .ok order ∧
      Weights.normalizeWithin settings.tolerances.normalizationBand (n.weights order) =
        .ok d.probs := by
  rw [expand]
  split
  · rename_i e he
    simp [he]
  · rename_i order horder
    simp only [horder, Except.ok.injEq, exists_eq_left']
    split
    · rename_i sum hsum
      simp [hsum]
    · rename_i probs hprobs
      obtain ⟨catalog, ps, hlen⟩ := d
      simp [hprobs, eq_comm]

/-- A network with a total near one has a joint distribution. -/
theorem exists_expand_of_total {n : Network ℚ} {settings : Settings ℚ} (hn : n.WellFormed)
    (h : ∀ order, n.order = .ok order → 0 < (n.weights order).sum ∧
      |(n.weights order).sum - 1| / (n.weights order).sum ≤
        settings.tolerances.normalizationBand) : ∃ d, n.expand settings = .ok d := by
  obtain ⟨order, horder⟩ := hn.exists_order
  obtain ⟨hpos, hband⟩ := h order horder
  have hlen : ((n.weights order).map (· / (n.weights order).sum)).length = n.catalog.size := by
    simp [weights]
  exact ⟨⟨n.catalog, _, hlen⟩, expand_eq_ok_iff.2
    ⟨rfl, order, horder, Weights.normalizeWithin_eq_ok_iff.2 ⟨hpos, hband, rfl⟩⟩⟩

end Network

end JointProb
