/-
  JointProb — the same network with its variables at other positions.

  * `Network.Renumbered` says that two networks have the same nodes over the
    same variables; `Network.exists_ofNodes_renumber`: with one of them the
    other one is accepted, whatever order its nodes are in;
  * `sumAll_renumber`: sums over all assignments do not notice that positions
    change;
  * `Network.exists_expand_renumber`: so both networks are expanded to the same
    distribution, `Distribution.Renumbered`, if one of them is.
-/
import JointProb.Proofs.Catalog.Renumbering
import JointProb.Proofs.Distribution
import JointProb.Proofs.Network.Acyclic
import JointProb.Proofs.Network.Kernel
import Mathlib.Algebra.BigOperators.Field

namespace JointProb

variable {α : Type} {σ : Equiv.Perm ℕ}

/-! ## Nodes -/

namespace Node

variable {c c' : Catalog}

/-- The node of the variable at another position. -/
def renumber (σ : Equiv.Perm ℕ) (m : Node α) : Node α := ⟨σ m.child, m.parents.map σ, m.table⟩

theorem renumber_refl (m : Node α) : m.renumber (Equiv.refl ℕ) = m := by simp [renumber]

theorem radices_renumber (h : Renumbering σ c.vars c'.vars) (m : Node α) :
    (m.renumber σ).radices c' = m.radices c := by
  simp only [radices, renumber, List.map_map, Function.comp_def, Catalog.cardinalityAt_renumber h]

theorem expectedEntries_renumber (h : Renumbering σ c.vars c'.vars) (m : Node α) :
    (m.renumber σ).expectedEntries c' = m.expectedEntries c := by
  rw [expectedEntries, expectedEntries, radices_renumber h]
  simp only [renumber, Catalog.cardinalityAt_renumber h]

/-- An assignment to the new positions is one to the old ones. -/
theorem entryOf_renumber (h : Renumbering σ c.vars c'.vars) (m : Node ℚ) (a : Assignment) :
    (m.renumber σ).entryOf c' a = m.entryOf c (a ∘ σ) := by
  rw [entryOf, entryOf, radices_renumber h]
  simp only [entryAt, renumber, List.map_map, Catalog.cardinalityAt_renumber h,
    Function.comp_apply]

end Node

theorem Catalog.radixAt_renumber {c c' : Catalog} (h : Renumbering σ c.vars c'.vars) (i : ℕ) :
    c'.radixAt (σ i) = c.radixAt i := by
  rw [radixAt, radixAt, cardinalities, cardinalities, h.map]

theorem Catalog.clamp_renumber {c c' : Catalog} (h : Renumbering σ c.vars c'.vars)
    (a : Assignment) : c'.clamp a ∘ σ = c.clamp (a ∘ σ) := by
  funext i
  simp only [Function.comp_apply, clamp, radixAt_renumber h]

/-! ## Sums -/

theorem sumOver_renumber {k k' : ℕ → ℕ} (hk : ∀ v, k' (σ v) = k v) {f f' : Assignment → ℚ}
    (hf : ∀ a, f' a = f (a ∘ σ)) (v : ℕ) (a : Assignment) :
    sumOver k' (σ v) f' a = sumOver k v f (a ∘ σ) := by
  simp only [sumOver, hk, hf, Function.update_comp_eq_of_injective a σ.injective]

/-- **Sums do not notice that positions change.** -/
theorem sumAll_renumber {k k' : ℕ → ℕ} (hk : ∀ v, k' (σ v) = k v) {f f' : Assignment → ℚ}
    (hf : ∀ a, f' a = f (a ∘ σ)) (vs : List ℕ) (a : Assignment) :
    sumAll k' (vs.map σ) f' a = sumAll k vs f (a ∘ σ) := by
  induction vs generalizing a with
  | nil => exact hf a
  | cons v vs ih => exact sumOver_renumber hk ih v a

theorem meets_renumber (fixed : List Constraint) (a : Assignment) :
    meets (fixed.map (Constraint.renumber σ)) a = meets fixed (a ∘ σ) := by
  simp only [meets, List.forall_mem_map, Constraint.renumber, Function.comp_apply]

/-! ## Networks -/

namespace Network

/-- The same nodes over the same variables, at other positions. -/
structure Renumbered (σ : Equiv.Perm ℕ) (n n' : Network α) : Prop where
  vars : Renumbering σ n.catalog.vars n'.catalog.vars
  nodes : Renumbering σ (n.nodes.map (Node.renumber σ)) n'.nodes

variable {n n' : Network α}

theorem Renumbered.getElem?_nodes (h : n.Renumbered σ n') (i : ℕ) :
    n'.nodes[σ i]? = n.nodes[i]?.map (Node.renumber σ) := by
  rw [h.nodes, List.getElem?_map]

theorem Renumbered.length_nodes (h : n.Renumbered σ n') : n'.nodes.length = n.nodes.length := by
  rw [h.nodes.length_eq, List.length_map]

theorem Renumbered.parentsOf_eq (h : n.Renumbered σ n') (v : ℕ) :
    n'.parentsOf (σ v) = (n.parentsOf v).map σ := by
  rw [parentsOf, parentsIn, h.getElem?_nodes, parentsOf, parentsIn]
  cases n.nodes[v]? <;> rfl

/-- Circles go around both networks or none. -/
theorem Renumbered.acyclic (h : n.Renumbered σ n') (hn : n.Acyclic) : n'.Acyclic := by
  have hparent (p q : ℕ) (hpq : n'.IsParent p q) : n.IsParent (σ.symm p) (σ.symm q) := by
    rw [IsParent, ← σ.apply_symm_apply q, h.parentsOf_eq] at hpq
    obtain ⟨u, hu, rfl⟩ := List.mem_map.1 hpq
    rwa [σ.symm_apply_apply]
  intro v hv
  exact hn (σ.symm v) (Relation.TransGen.lift σ.symm hparent v v hv)

/-- **What fits together at some positions does so at others.** -/
theorem Renumbered.wellFormed (h : n.Renumbered σ n') (hn : n.WellFormed) : n'.WellFormed := by
  have hmem {m : Node α} (hm : m ∈ n'.nodes) : ∃ m₀ ∈ n.nodes, m₀.renumber σ = m :=
    List.mem_map.1 (h.nodes.perm.mem_iff.2 hm)
  have hlength : n'.nodes.length = n'.catalog.vars.length := by
    rw [h.length_nodes, hn.length_nodes, h.vars.length_eq]
  have hlt (v : ℕ) : ∀ p ∈ n'.parentsOf v, p < n'.nodes.length := by
    intro p hp
    rw [← σ.apply_symm_apply v, h.parentsOf_eq] at hp
    obtain ⟨u, hu, rfl⟩ := List.mem_map.1 hp
    rw [h.nodes.lt_iff, List.length_map]
    exact hn.parent_lt hu
  refine ⟨⟨hlength, fun {i m} hm => ?_, fun {m} hm p hp => ?_, fun {m} hm => ?_⟩,
    (h.acyclic hn.acyclic).exists_order hlt⟩
  · rw [← σ.apply_symm_apply i, h.getElem?_nodes] at hm
    obtain ⟨m₀, hm₀, rfl⟩ := Option.map_eq_some_iff.1 hm
    rw [Node.renumber, hn.child_eq hm₀, σ.apply_symm_apply]
  · obtain ⟨m₀, hm₀, rfl⟩ := hmem hm
    obtain ⟨q, hq, rfl⟩ := List.mem_map.1 hp
    exact h.vars.lt_iff.2 (hn.parents_lt hm₀ q hq)
  · obtain ⟨m₀, hm₀, rfl⟩ := hmem hm
    rw [Node.expectedEntries_renumber h.vars]
    exact hn.length_table hm₀

/-- Nodes that are accepted are of different variables. -/
theorem nodup_child_of_ofNodes {c : Catalog} {nodes : List (Node α)}
    (h : ofNodes c nodes = .ok n) : (nodes.map Node.child).Nodup := by
  simp only [ofNodes, bind_eq_ok] at h
  obtain ⟨_, hshapes, _, hdistinct, -⟩ := h
  refine List.nodup_iff_count_le_one.2 fun i => ?_
  have hcount : (nodes.map Node.child).count i = nodes.countP (·.child == i) := by
    rw [List.count, List.countP_map]
    rfl
  rw [hcount]
  by_cases hi : i < c.vars.length
  · exact checkDistinct_eq_ok_iff.1 hdistinct i hi
  · -- no node is of a variable that does not exist
    rw [List.countP_eq_zero.2 fun m hm => ?_]
    · exact Nat.zero_le 1
    · have hshape := Node.checkShape_eq_ok_iff.1 (checkShapes_eq_ok_iff.1 hshapes m hm)
      have hne : m.child ≠ i := by
        rintro rfl
        exact hi hshape.1
      simpa using hne

/-- **Nodes that are accepted are those of the network**, in some order. -/
theorem perm_of_ofNodes {c : Catalog} {nodes : List (Node α)} (h : ofNodes c nodes = .ok n) :
    nodes.Perm n.nodes := by
  obtain ⟨rfl, hmem, hn⟩ := of_ofNodes h
  have hnodup := nodup_child_of_ofNodes h
  have hnodes : n.nodes.Nodup := by
    refine List.Nodup.of_map Node.child ?_
    rw [hn.map_child]
    exact List.nodup_range
  refine (List.perm_ext_iff_of_nodup (List.Nodup.of_map _ hnodup) hnodes).2 fun m =>
    ⟨fun hm => ?_, hmem m⟩
  simp only [ofNodes, bind_eq_ok] at h
  obtain ⟨_, hshapes, -⟩ := h
  have hlt := (Node.checkShape_eq_ok_iff.1 (checkShapes_eq_ok_iff.1 hshapes m hm)).1
  have hget := List.getElem?_eq_getElem (hn.length_nodes ▸ hlt)
  have hfound := List.mem_of_getElem? hget
  rwa [List.inj_on_of_nodup_map hnodup hm (hmem _ hfound) (hn.child_eq hget).symm]

/-- **With one network the other one is accepted**, in whatever order its nodes
    are. -/
theorem exists_ofNodes_renumber {c c' : Catalog} (hc : Renumbering σ c.vars c'.vars)
    {nodes nodes' : List (Node α)} (hnodes : (nodes.map (Node.renumber σ)).Perm nodes')
    (h : ofNodes c nodes = .ok n) : ∃ n', ofNodes c' nodes' = .ok n' ∧ n.Renumbered σ n' := by
  obtain ⟨rfl, -, hn⟩ := of_ofNodes h
  obtain ⟨arranged, harranged⟩ : ∃ arranged, Renumbering σ (n.nodes.map (Node.renumber σ)) arranged :=
    hc.exists_of_length (by rw [List.length_map, hn.length_nodes])
  have hrenumbered : n.Renumbered σ ⟨c', arranged⟩ := ⟨hc, harranged⟩
  refine ⟨⟨c', arranged⟩, (hrenumbered.wellFormed hn).ofNodes_eq_ok ?_, hrenumbered⟩
  exact hnodes.symm.trans (((perm_of_ofNodes h).map _).trans harranged.perm)

/-! ## Expansion -/

section

variable {n n' : Network ℚ}

theorem Renumbered.probAt_eq (h : n.Renumbered σ n') (v : ℕ) (a : Assignment) :
    n'.probAt (σ v) a = n.probAt v (a ∘ σ) := by
  rw [probAt, probAt, h.getElem?_nodes]
  cases n.nodes[v]? with
  | none => rfl
  | some m =>
    simp only [Option.map_some, Option.elim_some, Node.entryOf_renumber h.vars,
      Catalog.clamp_renumber h.vars]

theorem prod_map_apply (f : ℕ → Assignment → ℚ) (vs : List ℕ) (a : Assignment) :
    (vs.map f).prod a = (vs.map (f · a)).prod := by
  induction vs with
  | nil => rfl
  | cons v vs ih => rw [List.map_cons, List.prod_cons, Pi.mul_apply, ih, List.map_cons, List.prod_cons]

/-- **The weights of the assignments with a property are the same in sum.** -/
theorem Renumbered.sum_weight (h : n.Renumbered σ n') (hn : n.WellFormed) {order order' : List ℕ}
    (horder : n.ParentsFirst order) (horder' : n'.ParentsFirst order') {f f' : Assignment → ℚ}
    (hf : ∀ a, f' a = f (a ∘ σ)) :
    ∑ i ∈ Finset.range n'.catalog.size,
        f' (.ofList (n'.catalog.decode i)) * n'.weight (n'.nodesIn order') i =
      ∑ i ∈ Finset.range n.catalog.size,
        f (.ofList (n.catalog.decode i)) * n.weight (n.nodesIn order) i := by
  have hn' := h.wellFormed hn
  have hperm : order'.Perm (order.map σ) := by
    refine horder'.perm.trans (List.Perm.trans (.symm ?_) (horder.perm.symm.map σ))
    simpa using h.nodes.map_range_perm
  have hprod (a : Assignment) : ((order'.map n'.probAt).prod * f') a =
      ((order.map n.probAt).prod * f) (a ∘ σ) := by
    rw [(hperm.map n'.probAt).prod_eq, Pi.mul_apply, Pi.mul_apply, hf, prod_map_apply,
      prod_map_apply, List.map_map]
    simp only [Function.comp_def, h.probAt_eq]
  rw [sum_range_weight hn' horder', sum_range_weight hn horder, sumAll_perm hperm,
    sumAll_renumber (Catalog.radixAt_renumber h.vars) hprod]
  rfl

end

end Network

namespace Distribution

/-- The same masses over the same variables, at other positions. -/
structure Renumbered (σ : Equiv.Perm ℕ) (d d' : Distribution ℚ) : Prop where
  vars : Renumbering σ d.catalog.vars d'.catalog.vars
  mass_eq (fixed : List Constraint) : d'.mass (fixed.map (Constraint.renumber σ)) = d.mass fixed

end Distribution

namespace Network

variable {n n' : Network ℚ}

/-- All weights together. -/
theorem sum_weights_eq (n : Network ℚ) (order : List ℕ) : (n.weights order).sum =
    ∑ i ∈ Finset.range n.catalog.size,
      meets [] (.ofList (n.catalog.decode i)) * n.weight (n.nodesIn order) i := by
  simp only [meets_nil, Pi.one_apply, one_mul]
  rfl

/-- A mass is a share of all weights. -/
theorem mass_of_expand {settings : Settings ℚ} {d : Distribution ℚ} {order : List ℕ}
    (horder : n.order = .ok order) (h : n.expand settings = .ok d) (fixed : List Constraint) :
    d.mass fixed = (∑ i ∈ Finset.range n.catalog.size,
      meets fixed (.ofList (n.catalog.decode i)) * n.weight (n.nodesIn order) i) /
        (n.weights order).sum := by
  obtain ⟨hcatalog, order', horder', hprobs⟩ := expand_eq_ok_iff.1 h
  obtain rfl : order = order' := Except.ok.inj (horder.symm.trans horder')
  have hscaled := (Weights.normalizeWithin_eq_ok_iff.1 hprobs).2.2
  rw [d.mass_eq_sum, hcatalog, Finset.sum_div]
  refine Finset.sum_congr rfl fun i hi => ?_
  have hi := Finset.mem_range.1 hi
  simp [hscaled, weights, hi, mul_div_assoc]

/-- **The other network is expanded as well**, to the same distribution. -/
theorem Renumbered.exists_expand (h : n.Renumbered σ n') (hn : n.WellFormed)
    {settings : Settings ℚ} {d : Distribution ℚ} (hd : n.expand settings = .ok d) :
    ∃ d', n'.expand settings = .ok d' ∧ d.Renumbered σ d' := by
  obtain ⟨hcatalog, order, horder, hprobs⟩ := expand_eq_ok_iff.1 hd
  obtain ⟨order', horder'⟩ := (h.wellFormed hn).exists_order
  have hfirst := parentsFirst_of_order horder
  have hfirst' := parentsFirst_of_order horder'
  have htotal : (n'.weights order').sum = (n.weights order).sum := by
    rw [sum_weights_eq, sum_weights_eq]
    exact h.sum_weight hn hfirst hfirst' fun _ => rfl
  obtain ⟨hpos, hband, -⟩ := Weights.normalizeWithin_eq_ok_iff.1 hprobs
  obtain ⟨d', hd'⟩ : ∃ d', n'.expand settings = .ok d' := by
    refine exists_expand_of_total (h.wellFormed hn) fun order'' horder'' => ?_
    obtain rfl : order' = order'' := Except.ok.inj (horder'.symm.trans horder'')
    rw [htotal]
    exact ⟨hpos, hband⟩
  refine ⟨d', hd', ?_, fun fixed => ?_⟩
  · rw [hcatalog, (expand_eq_ok_iff.1 hd').1]
    exact h.vars
  · rw [mass_of_expand horder' hd', mass_of_expand horder hd, htotal,
      h.sum_weight hn hfirst hfirst' (meets_renumber fixed)]

end Network

end JointProb
