/-
  JointProb — networks whose nodes list their parents in other orders.

  The rows of a table are numbered by the states of the parents, so the order
  of the parents decides which row is where.

  * `Catalog.SameRow` says of two numbers that they are those of one row, with
    the parents in one order and in another; `SameRow.eq_iff` and
    `exists_sameRow`: each row has one number in either order;
  * `Node.Rearranged` says that two tables have the same rows, and
    `Node.Rearranged.entry_eq` that they have the same entry for each
    assignment;
  * `Network.Rearranged.order_eq` and `weights_eq`: networks of such nodes are
    put in the same order and multiplied to the same weights, number by number;
  * `Network.Rearranged.expand_eq_ok`: so they have the same distribution,
    whatever is used for numbers.
-/
import JointProb.Proofs.Network.Kernel
import JointProb.Proofs.Network.Renumbering

namespace JointProb

variable {α : Type} {c : Catalog} {ps ps' : List ℕ} {k i i' j j' r r' t t' : ℕ}

/-! ## Rows -/

namespace Catalog

/-- The number of the row for the states of some variables. -/
def rowOf (c : Catalog) (ps : List ℕ) (a : Assignment) : ℕ :=
  MixedRadix.value (ps.map c.cardinalityAt) (ps.map a)

/-- The numbers of one row, with the variables in two orders. -/
def SameRow (c : Catalog) (ps ps' : List ℕ) (r r' : ℕ) : Prop :=
  ∃ a : Assignment, (∀ p ∈ ps, a p < c.cardinalityAt p) ∧ c.rowOf ps a = r ∧ c.rowOf ps' a = r'

theorem rowOf_lt {a : Assignment} (h : ∀ p ∈ ps, a p < c.cardinalityAt p) :
    c.rowOf ps a < MixedRadix.size (ps.map c.cardinalityAt) :=
  MixedRadix.value_lt_size (below_map_iff.2 h)

/-- Rows are told apart by the states that they are for. -/
theorem rowOf_eq_iff {a b : Assignment} (ha : ∀ p ∈ ps, a p < c.cardinalityAt p)
    (hb : ∀ p ∈ ps, b p < c.cardinalityAt p) :
    c.rowOf ps a = c.rowOf ps b ↔ ∀ p ∈ ps, a p = b p := by
  rw [← List.map_inj_left]
  refine ⟨MixedRadix.eq_of_value_eq (below_map_iff.2 ha) (below_map_iff.2 hb), fun h => ?_⟩
  rw [rowOf, rowOf, h]

/-- There are as many rows in each order. -/
theorem size_perm (h : ps'.Perm ps) :
    MixedRadix.size (ps'.map c.cardinalityAt) = MixedRadix.size (ps.map c.cardinalityAt) := by
  rw [MixedRadix.size_eq_prod, MixedRadix.size_eq_prod, (h.map _).prod_eq]

namespace SameRow

theorem lt (h : c.SameRow ps ps' r r') : r < MixedRadix.size (ps.map c.cardinalityAt) := by
  obtain ⟨a, ha, rfl, -⟩ := h
  exact rowOf_lt ha

theorem symm (hperm : ps'.Perm ps) (h : c.SameRow ps ps' r r') : c.SameRow ps' ps r' r := by
  obtain ⟨a, ha, hr, hr'⟩ := h
  exact ⟨a, fun p hp => ha p (hperm.mem_iff.1 hp), hr', hr⟩

/-- **Rows that differ in one order do so in the other.** -/
theorem eq_iff (hperm : ps'.Perm ps) (h : c.SameRow ps ps' r r') (h' : c.SameRow ps ps' t t') :
    r = t ↔ r' = t' := by
  obtain ⟨a, ha, rfl, rfl⟩ := h
  obtain ⟨b, hb, rfl, rfl⟩ := h'
  have hmem {p : ℕ} : p ∈ ps' → p ∈ ps := hperm.mem_iff.1
  rw [rowOf_eq_iff ha hb, rowOf_eq_iff (fun p hp => ha p (hmem hp)) fun p hp => hb p (hmem hp)]
  simp only [hperm.mem_iff]

end SameRow

/-- **Each row has a number in the other order.** -/
theorem exists_sameRow (hnodup : ps.Nodup) (hr : r < MixedRadix.size (ps.map c.cardinalityAt))
    (ps' : List ℕ) : ∃ r', c.SameRow ps ps' r r' := by
  have hbelow := MixedRadix.below_digits hr
  obtain ⟨a, ha⟩ := Assignment.exists_map_eq hnodup (by simpa using hbelow.length_eq)
  rw [← ha, below_map_iff] at hbelow
  refine ⟨_, a, hbelow, ?_, rfl⟩
  rw [rowOf, ha, MixedRadix.value_digits hr]

/-- The places of one entry in tables with rows of a length, with the variables
    in two orders. -/
def SameCell (c : Catalog) (k : ℕ) (ps ps' : List ℕ) (i i' : ℕ) : Prop :=
  ∃ r r' s, c.SameRow ps ps' r r' ∧ s < k ∧ r * k + s = i ∧ r' * k + s = i'

/-- A place in a table tells the row and the state. -/
theorem cell_eq_iff {s u : ℕ} (hs : s < k) (hu : u < k) :
    r * k + s = t * k + u ↔ r = t ∧ s = u := by
  have hpos : 0 < k := Nat.zero_lt_of_lt hs
  refine ⟨fun h => ?_, fun ⟨hrow, hstate⟩ => by rw [hrow, hstate]⟩
  have hleft := (Nat.div_mod_unique hpos).2 ⟨(by ring : s + k * r = r * k + s), hs⟩
  have hright := (Nat.div_mod_unique hpos).2 ⟨(by rw [h]; ring : u + k * t = r * k + s), hu⟩
  exact ⟨hleft.1.symm.trans hright.1, hleft.2.symm.trans hright.2⟩

theorem cell_lt {rows s : ℕ} (hr : r < rows) (hs : s < k) : r * k + s < rows * k :=
  calc r * k + s < r * k + k := Nat.add_lt_add_left hs _
    _ = (r + 1) * k := (Nat.succ_mul r k).symm
    _ ≤ rows * k := Nat.mul_le_mul_right k hr

theorem SameCell.eq_iff (hperm : ps'.Perm ps) (h : c.SameCell k ps ps' i i')
    (h' : c.SameCell k ps ps' j j') : i = j ↔ i' = j' := by
  obtain ⟨r, r', s, hrow, hs, rfl, rfl⟩ := h
  obtain ⟨t, t', u, hrow', hu, rfl, rfl⟩ := h'
  rw [cell_eq_iff hs hu, cell_eq_iff hs hu, hrow.eq_iff hperm hrow']

/-- Both places are in the table. -/
theorem SameCell.lt (hperm : ps'.Perm ps) (h : c.SameCell k ps ps' i i') :
    i < MixedRadix.size (ps.map c.cardinalityAt) * k ∧
      i' < MixedRadix.size (ps.map c.cardinalityAt) * k := by
  obtain ⟨r, r', s, hrow, hs, rfl, rfl⟩ := h
  have hlt' := (hrow.symm hperm).lt
  rw [size_perm hperm] at hlt'
  exact ⟨cell_lt hrow.lt hs, cell_lt hlt' hs⟩

end Catalog

/-! ## Nodes -/

/-- The same table for the same parents, these in other orders. -/
structure Node.Rearranged (c : Catalog) (m m' : Node α) : Prop where
  child_eq : m'.child = m.child
  parents_perm : m'.parents.Perm m.parents
  length_eq : m'.table.length = m.table.length
  table_eq {i i' : ℕ} (h : c.SameCell (c.cardinalityAt m.child) m.parents m'.parents i i') :
    m'.table[i']? = m.table[i]?

namespace Node.Rearranged

variable {m m' : Node α}

theorem refl (c : Catalog) (m : Node α) : m.Rearranged c m where
  child_eq := rfl
  parents_perm := .refl _
  length_eq := rfl
  table_eq {i i'} h := by
    obtain ⟨r, r', s, ⟨a, -, hr, hr'⟩, -, rfl, rfl⟩ := h
    rw [← hr, hr']

theorem expectedEntries_eq (h : m.Rearranged c m') :
    m'.expectedEntries c = m.expectedEntries c := by
  rw [expectedEntries, expectedEntries, h.child_eq, radices, radices,
    Catalog.size_perm h.parents_perm]

/-- **The same entry for each assignment.** -/
theorem entry_eq [Zero α] (h : m.Rearranged c m') {states : List ℕ}
    (hchild : Assignment.ofList states m.child < c.cardinalityAt m.child)
    (hparents : ∀ p ∈ m.parents, Assignment.ofList states p < c.cardinalityAt p) :
    m'.entry c states = m.entry c states := by
  have hcell : c.SameCell (c.cardinalityAt m.child) m.parents m'.parents
      (m.row c states * c.cardinalityAt m.child + Assignment.ofList states m.child)
      (m'.row c states * c.cardinalityAt m.child + Assignment.ofList states m.child) :=
    ⟨_, _, _, ⟨.ofList states, hparents, rfl, rfl⟩, hchild, rfl, rfl⟩
  have hentry := h.table_eq hcell
  simp only [Assignment.ofList] at hentry
  simp only [entry, h.child_eq, hentry]

end Node.Rearranged

/-! ## Networks -/

namespace Network

/-- The same tables, their rows in the orders of the parents. -/
structure Rearranged (n n' : Network α) : Prop where
  catalog_eq : n'.catalog = n.catalog
  nodes : List.Forall₂ (Node.Rearranged n.catalog) n.nodes n'.nodes

variable {nodes nodes' : List (Node α)}

theorem settle_eq (h : List.Forall₂ (Node.Rearranged c) nodes nodes') (v : ℕ)
    (waiting : List ℕ) : settle nodes' v waiting = settle nodes v waiting := by
  induction h generalizing waiting with
  | nil => rfl
  | cons hm _ ih =>
    cases waiting with
    | nil => rfl
    | cons count waiting =>
      have hrest := ih waiting
      simp only [settle] at hrest
      simp only [settle, List.zipWith_cons_cons, hm.parents_perm.count_eq, hrest]

/-- Which variable is next depends on the parents, and not on their order. -/
theorem orderFrom_eq (h : List.Forall₂ (Node.Rearranged c) nodes nodes')
    (listed waiting : List ℕ) (left : ℕ) :
    orderFrom nodes' listed waiting left = orderFrom nodes listed waiting left := by
  induction left generalizing listed waiting with
  | zero => rfl
  | succ left ih =>
    simp only [orderFrom, settle_eq h, ih, h.length_eq]

namespace Rearranged

variable {n n' : Network α}

/-- **The variables are listed in the same order.** -/
theorem order_eq (h : n.Rearranged n') :
    (n'.order : Except (SpecError α) (List ℕ)) = n.order := by
  have hwaiting : n'.nodes.map (fun m => m.parents.length) =
      n.nodes.map fun m => m.parents.length := by
    refine List.forall₂_eq_eq_eq ▸ List.forall₂_map_left_iff.2 (List.forall₂_map_right_iff.2 ?_)
    exact h.nodes.flip.imp fun _ _ hm => hm.parents_perm.length_eq
  have hnames : n'.namesOf = n.namesOf := by
    funext vars
    rw [namesOf, namesOf, h.catalog_eq]
  rw [order, order, hwaiting, orderFrom_eq h.nodes, ← h.nodes.length_eq, hnames]

theorem wellFormed (h : n.Rearranged n') (hn : n.WellFormed) : n'.WellFormed := by
  have hmem {m' : Node α} (hm' : m' ∈ n'.nodes) : ∃ m ∈ n.nodes, m.Rearranged n.catalog m' :=
    exists_left_of_forall₂ h.nodes hm'
  refine ⟨⟨?_, fun {i m'} hm' => ?_, fun {m'} hm' p hp => ?_, fun {m'} hm' => ?_⟩, ?_⟩
  · rw [← h.nodes.length_eq, h.catalog_eq, hn.length_nodes]
  · obtain ⟨hi', rfl⟩ := List.getElem?_eq_some_iff.1 hm'
    have hi : i < n.nodes.length := h.nodes.length_eq ▸ hi'
    have hm : n.nodes[i].Rearranged n.catalog n'.nodes[i] :=
      (List.forall₂_iff_get.1 h.nodes).2 i hi hi'
    rw [hm.child_eq, hn.child_eq (List.getElem?_eq_getElem hi)]
  · obtain ⟨m, hm, hrearranged⟩ := hmem hm'
    rw [h.catalog_eq]
    exact hn.parents_lt hm p (hrearranged.parents_perm.mem_iff.1 hp)
  · obtain ⟨m, hm, hrearranged⟩ := hmem hm'
    rw [h.catalog_eq, hrearranged.length_eq, hrearranged.expectedEntries_eq, hn.length_table hm]
  · obtain ⟨order, horder⟩ := hn.exists_order
    exact ⟨order, h.order_eq.trans horder⟩

end Rearranged

/-- **With such nodes, in whatever order, there is such a network.** -/
theorem exists_ofNodes_rearranged {n : Network α} (h : ofNodes c nodes = .ok n)
    {nodes₁ : List (Node α)} (hnodes : List.Forall₂ (Node.Rearranged c) nodes nodes₁)
    (hperm : nodes₁.Perm nodes') : ∃ n', ofNodes c nodes' = .ok n' ∧ n.Rearranged n' := by
  obtain ⟨rfl, -, hn⟩ := of_ofNodes h
  obtain ⟨arranged, harranged, hperm'⟩ :=
    List.perm_comp_forall₂ (perm_of_ofNodes h).symm hnodes
  have hrearranged : n.Rearranged ⟨n.catalog, arranged⟩ := ⟨rfl, harranged⟩
  exact ⟨_, (hrearranged.wellFormed hn).ofNodes_eq_ok (hperm.symm.trans hperm'.symm), hrearranged⟩

/-! ## Expansion -/

theorem weightFrom_eq [Scalar α] {states : List ℕ} {ms ms' : List (Node α)}
    (h : List.Forall₂ (fun m m' => m'.entry c states = m.entry c states) ms ms') (factor : α) :
    weightFrom c states factor ms' = weightFrom c states factor ms := by
  induction h generalizing factor with
  | nil => rfl
  | cons hm _ ih => simp only [weightFrom, hm, ih]

namespace Rearranged

variable {n n' : Network α}

theorem nodesIn (h : n.Rearranged n') (order : List ℕ) :
    List.Forall₂ (fun m m' => m ∈ n.nodes ∧ m.Rearranged n.catalog m') (n.nodesIn order)
      (n'.nodesIn order) := by
  induction order with
  | nil => exact .nil
  | cons v order ih =>
    rw [Network.nodesIn, Network.nodesIn, List.filterMap_cons, List.filterMap_cons]
    by_cases hv : v < n.nodes.length
    · have hv' : v < n'.nodes.length := h.nodes.length_eq ▸ hv
      rw [List.getElem?_eq_getElem hv, List.getElem?_eq_getElem hv']
      exact .cons ⟨List.getElem_mem hv, (List.forall₂_iff_get.1 h.nodes).2 v hv hv'⟩ ih
    · have hv' : ¬ v < n'.nodes.length := h.nodes.length_eq ▸ hv
      rw [List.getElem?_eq_none (Nat.not_lt.1 hv), List.getElem?_eq_none (Nat.not_lt.1 hv')]
      exact ih

variable [Scalar α]

/-- **All weights are the same**, multiplied in the same order. -/
theorem weights_eq (h : n.Rearranged n') (hn : n.WellFormed) (order : List ℕ) :
    n'.weights order = n.weights order := by
  rw [weights, weights, h.catalog_eq]
  refine List.map_congr_left fun i hi => ?_
  rw [weight, weight, h.catalog_eq]
  refine weightFrom_eq ((h.nodesIn order).imp fun m m' hm => ?_) 1
  have hrange {v : ℕ} (hv : v < n.catalog.vars.length) :
      Assignment.ofList (n.catalog.decode i) v < n.catalog.cardinalityAt v :=
    Catalog.lt_cardinalityAt_iff.2 ⟨_, List.getElem?_eq_getElem hv,
      Catalog.ofList_decode_lt (List.mem_range.1 hi) (List.getElem?_eq_getElem hv)⟩
  obtain ⟨j, hj, rfl⟩ := List.getElem_of_mem hm.1
  refine hm.2.entry_eq (hrange ?_) fun p hp => hrange (hn.parents_lt hm.1 p hp)
  rw [hn.child_eq (List.getElem?_eq_getElem hj), ← hn.length_nodes]
  exact hj

/-- **The same distribution, number by number.** -/
theorem expand_eq_ok (h : n.Rearranged n') (hn : n.WellFormed) {settings : Settings α}
    {d : Distribution α} (hd : n.expand settings = .ok d) : n'.expand settings = .ok d := by
  obtain ⟨hcatalog, order, horder, hprobs⟩ := expand_eq_ok_iff.1 hd
  refine expand_eq_ok_iff.2 ⟨hcatalog.trans h.catalog_eq.symm, order, h.order_eq.trans horder, ?_⟩
  rwa [h.weights_eq hn]

end Rearranged

end Network

end JointProb
