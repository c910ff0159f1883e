/-
  JointProb — families of conditional probabilities.

  * `Catalog.Spellable` and `Network.Family` say that a network has conditional
    probabilities for each variable of a catalog with spellable names and
    labels;
  * `Network.Family.length_table_le`: no table is larger than the joint table;
  * `Network.Family.wellFormed`: such a family is a well-formed network.
-/
import JointProb.Proofs.Catalog.InStep
import JointProb.Proofs.Network.Acyclic
import JointProb.Proofs.Spec.FullTable

namespace JointProb

open Text

variable {α : Type}

/-! ## Families of conditional probabilities -/

/-- Distinct identifiers name the variables and lead to them, and each has at
    least two labels that can be told from each other and from what stands
    around them. -/
structure Catalog.Spellable (c : Catalog) : Prop extends c.InStep where
  isIdentifier : ∀ v ∈ c.vars, isIdentifier v.name
  two_le : ∀ v ∈ c.vars, 2 ≤ v.states.length
  nodup_states : ∀ v ∈ c.vars, v.states.Nodup
  isLabel : ∀ v ∈ c.vars, ∀ l ∈ v.states, IsLabel l

/-- There is a table for each variable, over distinct parents that go around
    no circle, with probabilities that sum to one in each row. -/
structure Network.Family [Scalar α] (settings : Settings α) (n : Network α) : Prop where
  vars_ne_nil : n.catalog.vars ≠ []
  spellable : n.catalog.Spellable
  size_le : n.catalog.size ≤ settings.maxAssignments
  map_child : n.nodes.map Node.child = List.range n.catalog.vars.length
  parents_nodup : ∀ m ∈ n.nodes, m.parents.Nodup
  parents_lt : ∀ m ∈ n.nodes, ∀ p ∈ m.parents, p < n.catalog.vars.length
  acyclic : n.Acyclic
  length_table : ∀ m ∈ n.nodes,
    m.table.length = m.rowCount n.catalog * n.catalog.cardinalityAt m.child
  probabilities : ∀ m ∈ n.nodes, ∀ p ∈ m.table, Scalar.isFinite p ∧ 0 ≤ p ∧ p ≤ 1
  rows_near : ∀ m ∈ n.nodes, ∀ ps ∈ m.rows n.catalog,
    Weights.near settings.tolerances.sum (Weights.compensatedSum ps) 1

/-! ## Sizes -/

namespace Catalog

variable {c : Catalog}

theorem Spellable.size_pos (h : c.Spellable) : 0 < c.size := by
  refine MixedRadix.size_pos fun r hr => ?_
  obtain ⟨v, hv, rfl⟩ := List.mem_map.1 hr
  exact Nat.lt_of_lt_of_le Nat.two_pos (h.two_le v hv)

end Catalog

namespace Network.Family

variable [Scalar α] {settings : Settings α} {n : Network α}

theorem length_nodes (h : n.Family settings) : n.nodes.length = n.catalog.vars.length := by
  have hlen := congrArg List.length h.map_child
  rwa [List.length_map, List.length_range] at hlen

theorem child_eq (h : n.Family settings) {i : Nat} {m : Node α} (hi : n.nodes[i]? = some m) :
    m.child = i := by
  have hget : (n.nodes.map Node.child)[i]? = some m.child := by rw [List.getElem?_map, hi]; rfl
  rw [h.map_child] at hget
  obtain ⟨hlt, hchild⟩ := List.getElem?_eq_some_iff.1 hget
  rw [← hchild, List.getElem_range]

/-- Parents are variables. -/
theorem parent_lt (h : n.Family settings) (v : Nat) :
    ∀ p ∈ n.parentsOf v, p < n.nodes.length := by
  intro p hp
  have hget := List.getElem?_eq_getElem (lt_of_mem_parentsOf hp)
  rw [parentsOf_eq hget] at hp
  exact h.length_nodes ▸ h.parents_lt _ (List.getElem_mem _) p hp

theorem child_lt (h : n.Family settings) {m : Node α} (hm : m ∈ n.nodes) :
    m.child < n.catalog.vars.length := by
  have hmem : m.child ∈ List.range n.catalog.vars.length := h.map_child ▸ List.mem_map_of_mem hm
  exact List.mem_range.1 hmem

/-- Tables are not larger than the joint table. -/
theorem length_table_le (h : n.Family settings) {m : Node α} (hm : m ∈ n.nodes) :
    m.rowCount n.catalog * n.catalog.cardinalityAt m.child ≤ n.catalog.size := by
  have hself : m.child ∉ m.parents := by
    obtain ⟨i, hi⟩ := List.getElem?_of_mem hm
    have hnot := h.acyclic.notMem_parentsOf i
    rwa [parentsOf_eq hi, ← h.child_eq hi] at hnot
  have hdvd := n.catalog.prod_cardinalityAt_dvd_size
    (List.nodup_cons.2 ⟨hself, h.parents_nodup m hm⟩)
    (List.forall_mem_cons.2 ⟨h.child_lt hm, h.parents_lt m hm⟩)
  rw [List.map_cons, List.prod_cons, Nat.mul_comm, ← MixedRadix.size_eq_prod] at hdvd
  exact Nat.le_of_dvd h.spellable.size_pos hdvd

/-- **Such a family is a well-formed network.** -/
theorem wellFormed (h : n.Family settings) (hword : settings.maxAssignments < wordLimit) :
    n.WellFormed where
  length_nodes := h.length_nodes
  child_eq := h.child_eq
  parents_lt := h.parents_lt _
  length_table hm := by
    have hle := (h.length_table_le hm).trans (h.size_le.trans (Nat.le_sub_one_of_lt hword))
    rw [h.length_table _ hm, Node.expectedEntries]
    exact (Nat.min_eq_left hle).symm
  exists_order := h.acyclic.exists_order h.parent_lt

theorem ofVariables_eq_ok (h : n.Family settings) (hword : settings.maxAssignments < wordLimit) :
    (Catalog.ofVariables n.catalog.vars settings.maxAssignments : Except (SpecError α) Catalog) =
      .ok n.catalog := by
  refine Catalog.ofVariables_eq_ok_iff.2
    ⟨rfl, h.spellable.toInStep, h.size_le, h.size_le.trans_lt hword, fun name hname => ?_⟩
  obtain ⟨v, hv, rfl⟩ := List.mem_map.1 hname
  exact h.spellable.isIdentifier v hv

end Network.Family

end JointProb
