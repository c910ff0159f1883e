/-
  JointProb — networks as kernels.

  * `Node.Stochastic` and `Network.Stochastic` say that every row of every
    table has the probabilities of all states, `Node.Near` and `Network.Near`
    that it almost does;
  * `Network.kernels` are the kernels of such a network, its parents theirs;
  * `Network.sum_weights`: the weights of assignments are the probabilities
    of drawing them, parents first.
-/
import JointProb.Proofs.Kernel
import JointProb.Proofs.Network.Order

namespace JointProb

/-! ## Rows -/

namespace Node

section

variable {α : Type} (c : Catalog) (m : Node α)

/-- The number of rows of the table. -/
def rowCount : Nat := MixedRadix.size (m.radices c)

/-- The states of the parents that a row is for. -/
def conditions (row : Nat) : List Constraint :=
  List.zipWith Constraint.mk m.parents (MixedRadix.digits (m.radices c) row)

end

variable (c : Catalog) (m : Node ℚ)

/-- The entry of the table for a state in a row. -/
def entryAt (row state : Nat) : ℚ := (m.table[row * c.cardinalityAt m.child + state]?).getD 0

/-- The entry of the table for an assignment as a function. -/
def entryOf (a : Assignment) : ℚ :=
  m.entryAt c (MixedRadix.value (m.radices c) (m.parents.map a)) (a m.child)

theorem entry_eq_entryOf (states : List Nat) : m.entry c states = m.entryOf c (.ofList states) :=
  rfl

variable {c} {m} in
/-- The digits of rows are the states of parents in range. -/
theorem below_radices_iff {a : Assignment} :
    MixedRadix.Below (m.radices c) (m.parents.map a) ↔
      ∀ p ∈ m.parents, a p < c.cardinalityAt p :=
  Catalog.below_map_iff

/-- No entry is negative, and the sum of each row is one. -/
structure Stochastic : Prop where
  nonneg : ∀ p ∈ m.table, 0 ≤ p
  sum_row : ∀ row < m.rowCount c,
    ∑ s ∈ Finset.range (c.cardinalityAt m.child), m.entryAt c row s = 1

instance : Decidable (m.Stochastic c) :=
  decidable_of_iff ((∀ p ∈ m.table, 0 ≤ p) ∧ ∀ row < m.rowCount c,
    ∑ s ∈ Finset.range (c.cardinalityAt m.child), m.entryAt c row s = 1)
    ⟨fun h => ⟨h.1, h.2⟩, fun h => ⟨h.nonneg, h.sum_row⟩⟩

/-- No entry is negative, and the sum of each row is one up to a tolerance. -/
structure Near (tolerance : ℚ) : Prop where
  nonneg : ∀ p ∈ m.table, 0 ≤ p
  sum_row : ∀ row < m.rowCount c,
    |∑ s ∈ Finset.range (c.cardinalityAt m.child), m.entryAt c row s - 1| ≤ tolerance

variable {c} {m} in
theorem Stochastic.near (h : m.Stochastic c) : m.Near c 0 where
  nonneg := h.nonneg
  sum_row row hrow := by rw [h.sum_row row hrow, sub_self, abs_zero]

theorem entryAt_nonneg {m : Node ℚ} (h : ∀ p ∈ m.table, 0 ≤ p) (row state : Nat) :
    0 ≤ m.entryAt c row state := by
  rw [entryAt]
  cases he : m.table[row * c.cardinalityAt m.child + state]? with
  | none => exact le_rfl
  | some p => exact h p (List.mem_of_getElem? he)

end Node

namespace Catalog

variable (c : Catalog)

/-- The number of states of a variable; one if there is no such variable. -/
def radixAt (v : Nat) : Nat := (c.cardinalities[v]?).getD 1

/-- The assignment with states in range: another state stands for what is left
    of it by the number of states. -/
def clamp (a : Assignment) : Assignment := fun v => a v % c.radixAt v

variable {c}

theorem radixAt_eq {v : Nat} (h : v < c.vars.length) : c.radixAt v = c.cardinalityAt v := by
  have hlt : v < c.cardinalities.length := by simpa [cardinalities] using h
  rw [radixAt, cardinalityAt, List.getElem?_eq_getElem hlt]
  rfl

theorem clamp_update {v s : Nat} (hs : s < c.radixAt v) (a : Assignment) :
    c.clamp (Function.update a v s) = Function.update (c.clamp a) v s := by
  funext u
  rcases eq_or_ne u v with rfl | hne
  · rw [clamp, Function.update_self, Function.update_self, Nat.mod_eq_of_lt hs]
  · rw [clamp, Function.update_of_ne hne, Function.update_of_ne hne, clamp]

/-- The states of numbered assignments are in range. -/
theorem clamp_ofList_decode {i : Nat} (hi : i < c.size) :
    c.clamp (.ofList (c.decode i)) = .ofList (c.decode i) := by
  have hbelow := MixedRadix.below_digits hi
  funext v
  rw [clamp, Assignment.ofList]
  rcases Nat.lt_or_ge v c.cardinalities.length with hlt | hge
  · have hlt' : v < (c.decode i).length := hbelow.length_eq ▸ hlt
    have hv := List.forall₂_iff_get.1 hbelow |>.2 v hlt' hlt
    rw [radixAt, List.getElem?_eq_getElem hlt, List.getElem?_eq_getElem hlt']
    exact Nat.mod_eq_of_lt hv
  · rw [List.getElem?_eq_none (hbelow.length_eq ▸ hge)]
    exact Nat.zero_mod _

end Catalog

namespace Network

variable (n : Network ℚ)

/-- All tables have the probabilities of all states in every row. -/
def Stochastic : Prop := ∀ m ∈ n.nodes, m.Stochastic n.catalog

instance : Decidable n.Stochastic :=
  inferInstanceAs (Decidable (∀ m ∈ n.nodes, m.Stochastic n.catalog))

/-- All tables have rows whose sums are one up to a tolerance. -/
def Near (tolerance : ℚ) : Prop := ∀ m ∈ n.nodes, m.Near n.catalog tolerance

variable {n} in
theorem Stochastic.near (h : n.Stochastic) : n.Near 0 := fun m hm => (h m hm).near

/-- The probability of the state of a variable given those of its parents; one
    if there is no such variable. -/
def probAt (v : Nat) (a : Assignment) : ℚ :=
  (n.nodes[v]?).elim 1 fun m => m.entryOf n.catalog (n.catalog.clamp a)

variable {n}

theorem dependsOn_probAt (hn : n.WellFormed) (v : Nat) :
    DependsOn (n.probAt v) (insert v {p | n.IsParent p v}) := fun a b h => by
  rw [probAt, probAt]
  cases hv : n.nodes[v]? with
  | none => rfl
  | some m =>
    have hclamp : ∀ u ∈ insert v {p | n.IsParent p v},
        n.catalog.clamp a u = n.catalog.clamp b u := fun u hu => by
      rw [Catalog.clamp, Catalog.clamp, h u hu]
    have hparents : m.parents.map (n.catalog.clamp a) = m.parents.map (n.catalog.clamp b) :=
      List.map_congr_left fun p hp => hclamp p (Or.inr (by
        rwa [Set.mem_ofPred_eq, IsParent, parentsOf_eq hv]))
    simp only [Option.elim, Node.entryOf, hparents, hn.child_eq hv, hclamp v (Or.inl rfl)]

theorem probAt_nonneg {tolerance : ℚ} (hs : n.Near tolerance) (v : Nat) (a : Assignment) :
    0 ≤ n.probAt v a := by
  rw [probAt]
  cases hm : n.nodes[v]? with
  | none => exact zero_le_one
  | some m => exact Node.entryAt_nonneg _ (hs m (List.mem_of_getElem? hm)).nonneg _ _

/-- There is no variable without a state, whose rows would have the sum zero. -/
theorem cardinalityAt_pos {tolerance : ℚ} (hn : n.WellFormed) (hs : n.Near tolerance)
    (ht : tolerance < 1) : ∀ v < n.nodes.length, 0 < n.catalog.cardinalityAt v := by
  refine hn.parents_induction fun v hv hparents => ?_
  have hm := List.getElem?_eq_getElem hv
  have hrows : 0 < n.nodes[v].rowCount n.catalog := by
    refine MixedRadix.size_pos fun r hr => ?_
    obtain ⟨p, hp, rfl⟩ := List.mem_map.1 hr
    exact hparents p (by rwa [parentsOf_eq hm])
  have hsum := (hs _ (List.mem_of_getElem? hm)).sum_row 0 hrows
  rw [hn.child_eq hm] at hsum
  refine Nat.pos_of_ne_zero fun h0 => ?_
  rw [h0, Finset.sum_range_zero, zero_sub, abs_neg, abs_of_pos one_pos] at hsum
  exact absurd hsum (not_le.2 ht)

theorem clamp_lt (hn : n.WellFormed)
    (hpos : ∀ v < n.nodes.length, 0 < n.catalog.cardinalityAt v) {v : Nat}
    (hv : v < n.nodes.length) (a : Assignment) :
    n.catalog.clamp a v < n.catalog.cardinalityAt v := by
  rw [Catalog.clamp, Catalog.radixAt_eq (hn.length_nodes ▸ hv)]
  exact Nat.mod_lt _ (hpos v hv)

/-- The row for an assignment does not change with the state of the variable
    itself. -/
theorem probAt_update (hn : n.WellFormed) {v s : Nat} {m : Node ℚ} (hm : n.nodes[v]? = some m)
    (hs : s < n.catalog.cardinalityAt v) (a : Assignment) :
    n.probAt v (Function.update a v s) = m.entryAt n.catalog
      (MixedRadix.value (m.radices n.catalog) (m.parents.map (n.catalog.clamp a))) s := by
  have hv : v < n.nodes.length := (List.getElem?_eq_some_iff.1 hm).1
  rw [← Catalog.radixAt_eq (hn.length_nodes ▸ hv)] at hs
  have hparents : m.parents.map (Function.update (n.catalog.clamp a) v s) =
      m.parents.map (n.catalog.clamp a) := List.map_congr_left fun p hp => by
    refine Function.update_of_ne ?_ _ _
    rintro rfl
    exact hn.notMem_parentsOf (by rwa [parentsOf_eq hm])
  rw [probAt, hm, Option.elim, Node.entryOf, Catalog.clamp_update hs, hparents, hn.child_eq hm,
    Function.update_self]

theorem sum_probAt_of_none (hn : n.WellFormed) {v : Nat} (hv : n.nodes[v]? = none)
    (a : Assignment) : sumOver n.catalog.radixAt v (n.probAt v) a = 1 := by
  have hge : n.catalog.cardinalities.length ≤ v := by
    simpa [Catalog.cardinalities, hn.length_nodes] using hv
  rw [sumOver, Catalog.radixAt, List.getElem?_eq_none hge, Option.getD_none, Finset.sum_range_one,
    probAt, hv, Option.elim]

/-- The sum over the states of a variable is that of a row of its table. -/
theorem exists_sum_probAt (hn : n.WellFormed)
    (hpos : ∀ v < n.nodes.length, 0 < n.catalog.cardinalityAt v) {v : Nat} {m : Node ℚ}
    (hm : n.nodes[v]? = some m) (a : Assignment) : ∃ row < m.rowCount n.catalog,
      sumOver n.catalog.radixAt v (n.probAt v) a =
        ∑ s ∈ Finset.range (n.catalog.cardinalityAt m.child), m.entryAt n.catalog row s := by
  have hv : v < n.nodes.length := (List.getElem?_eq_some_iff.1 hm).1
  refine ⟨MixedRadix.value (m.radices n.catalog) (m.parents.map (n.catalog.clamp a)),
    MixedRadix.value_lt_size <| Node.below_radices_iff.2 fun p hp =>
      clamp_lt hn hpos (hn.length_nodes ▸ hn.parents_lt (List.mem_of_getElem? hm) p hp) a, ?_⟩
  rw [sumOver, hn.child_eq hm, Catalog.radixAt_eq (hn.length_nodes ▸ hv)]
  exact Finset.sum_congr rfl fun s hlt => probAt_update hn hm (Finset.mem_range.1 hlt) a

theorem sum_probAt (hn : n.WellFormed) (hs : n.Stochastic) (v : Nat) :
    sumOver n.catalog.radixAt v (n.probAt v) = 1 := by
  funext a
  cases hm : n.nodes[v]? with
  | none => exact sum_probAt_of_none hn hm a
  | some m =>
    obtain ⟨row, hrow, hsum⟩ := exists_sum_probAt hn (cardinalityAt_pos hn hs.near one_pos) hm a
    rw [hsum, (hs m (List.mem_of_getElem? hm)).sum_row row hrow, Pi.one_apply]

/-- The kernels of a stochastic network. -/
def kernels (hn : n.WellFormed) (hs : n.Stochastic) : Kernels where
  card := n.catalog.radixAt
  parents v := {p | n.IsParent p v}
  prob := n.probAt
  dependsOn_prob := dependsOn_probAt hn
  sum_prob := sum_probAt hn hs

/-! ## Weights -/

theorem ParentsFirst.pairwise_notMem_insert {order : List Nat} (h : n.ParentsFirst order) :
    order.Pairwise fun u v => v ∉ insert u {p | n.IsParent p u} := by
  refine (h.pairwise.and h.nodup).imp ?_
  rintro u v ⟨hparent, hne⟩ (he | hp)
  · exact hne he.symm
  · exact hparent hp

theorem ParentsFirst.inOrder {order : List Nat} (h : n.ParentsFirst order) (hn : n.WellFormed)
    (hs : n.Stochastic) : (n.kernels hn hs).InOrder order := h.pairwise_notMem_insert

/-- The weight of an assignment is the product of the probabilities of its
    states. -/
theorem weight_eq_prod_probAt (order : List Nat) {i : Nat} (hi : i < n.catalog.size) :
    n.weight (n.nodesIn order) i = (order.map n.probAt).prod (.ofList (n.catalog.decode i)) := by
  rw [weight_eq_prod, nodesIn]
  induction order with
  | nil => rfl
  | cons v order ih =>
    rw [List.map_cons, List.prod_cons, Pi.mul_apply, ← ih, probAt, List.filterMap_cons]
    cases n.nodes[v]? with
    | none => simp
    | some m =>
      simp only [List.map_cons, List.prod_cons, Option.elim, Catalog.clamp_ofList_decode hi,
        Node.entry_eq_entryOf]

/-- A sum over all assignments is a sum over the states of all variables. -/
theorem sum_range_weight (hn : n.WellFormed) {order : List Nat} (h : n.ParentsFirst order)
    (f : Assignment → ℚ) :
    ∑ i ∈ Finset.range n.catalog.size,
        f (.ofList (n.catalog.decode i)) * n.weight (n.nodesIn order) i =
      sumAll n.catalog.radixAt order ((order.map n.probAt).prod * f) fun _ => 0 := by
  have hradix : ∀ v (hv : v < n.catalog.cardinalities.length),
      n.catalog.radixAt v = n.catalog.cardinalities[v] := fun v hv => by
    rw [Catalog.radixAt, List.getElem?_eq_getElem hv, Option.getD_some]
  have hlen : n.catalog.cardinalities.length = n.nodes.length := by
    rw [Catalog.cardinalities, List.length_map, hn.length_nodes]
  rw [sumAll_perm h.perm, ← hlen]
  refine Eq.trans (Finset.sum_congr rfl fun i hi => ?_) (MixedRadix.sum_digits hradix _)
  rw [weight_eq_prod_probAt order (Finset.mem_range.1 hi), mul_comm]
  rfl

/-- **The weights of assignments are the probabilities of drawing them.** -/
theorem sum_weights (hn : n.WellFormed) (hs : n.Stochastic) {order : List Nat}
    (h : n.ParentsFirst order) (f : Assignment → ℚ) :
    ∑ i ∈ Finset.range n.catalog.size,
        f (.ofList (n.catalog.decode i)) * n.weight (n.nodesIn order) i =
      (n.kernels hn hs).expect order f fun _ => 0 := by
  rw [sum_range_weight hn h, ← (n.kernels hn hs).sumAll_prod (h.inOrder hn hs)]
  rfl

end Network

end JointProb
