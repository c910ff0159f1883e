/-
  JointProb — which order the variables of a network have.

  The variables are listed in passes: always the first one whose parents are
  all listed, until no variable is left or each of them waits.

  * `Reached.le_of_orderFrom`: taking the first one each time gives the least
    of all lists with parents first, in the order of dictionaries;
  * `Reached.count_le`: no variable ever waits for less than is taken off;
  * `Network.Orders` says all this of a network, whatever its parents are, and
    which variables are reported if it has no order;
  * `Network.exists_orders`: so it is for all nodes that fit a catalog, one for
    each variable.
-/
import JointProb.Proofs.Catalog.InStep
import JointProb.Proofs.Network.Acyclic
import Mathlib.Data.List.Forall2

namespace JointProb.Network

variable {α : Type} {n : Network α} {nodes : List (Node α)} {listed waiting order other : List Nat}

/-! ## Passes -/

theorem Reached.length_le (h : Reached nodes listed waiting) : listed.length ≤ nodes.length := by
  have hsub : listed ⊆ List.range nodes.length :=
    fun v hv => List.mem_range.2 (h.ordering.lt v hv)
  simpa using (List.subperm_of_subset h.ordering.nodup hsub).length_le

/-- **No variable waits for less than is taken off** when one of its parents
    is listed. -/
theorem Reached.count_le (h : Reached nodes listed waiting) {v : Nat}
    (hv : nextReady? listed waiting = some v) :
    List.Forall₂ (fun m count => m.parents.count v ≤ count) nodes waiting := by
  rw [h.ordering.waiting_eq] at hv ⊢
  have hnew := (nextReady?_eq_some_iff.1 hv).1.notMem
  rw [waitingFor, List.forall₂_map_right_iff, List.forall₂_same]
  intro m _
  rw [countP_notMem_eq_add hnew]
  exact Nat.le_add_left _ _

/-! ## The first of those that are ready -/

theorem prefix_of_orderFrom {left : Nat} (hrun : orderFrom nodes listed waiting left = .ok order) :
    listed <+: order := by
  induction left generalizing listed waiting with
  | zero =>
    cases hrun
    exact List.prefix_rfl
  | succ left ih =>
    rw [orderFrom] at hrun
    split at hrun
    · cases hrun
    · exact (List.prefix_append _ _).trans (ih hrun)

/-- What comes next in a list with parents first is ready. -/
theorem ParentsFirst.ready {v : Nat} {rest : List Nat}
    (h : n.ParentsFirst (listed ++ v :: rest))
    (hlt : ∀ v, ∀ p ∈ n.parentsOf v, p < n.nodes.length) : Ready n.nodes listed v where
  lt := h.mem_iff.1 (by simp)
  notMem hv := List.disjoint_of_nodup_append h.nodup hv List.mem_cons_self
  parents_mem p hp := by
    have happend : n.ParentsFirst ((listed ++ [v]) ++ rest) := by simpa using h
    rcases List.mem_append.1 (happend.mem_of_append (by simp) hp (hlt v p hp)) with hmem | hmem
    · exact hmem
    · obtain rfl := List.mem_singleton.1 hmem
      exact absurd hp (h.not_self p (by simp))

/-- **The first each time gives the least list**: from some listed variables
    on, no list with parents first goes on with less. -/
theorem Reached.le_of_orderFrom {left : Nat} {more rest : List Nat}
    (h : Reached n.nodes listed waiting)
    (hrun : orderFrom n.nodes listed waiting left = .ok (listed ++ more))
    (hother : n.ParentsFirst (listed ++ rest))
    (hlt : ∀ v, ∀ p ∈ n.parentsOf v, p < n.nodes.length) :
    more = rest ∨ List.Lex (· < ·) more rest := by
  induction left generalizing listed waiting more rest with
  | zero =>
    rw [orderFrom, Except.ok.injEq, List.self_eq_append_right] at hrun
    rw [hrun]
    cases rest with
    | nil => exact .inl rfl
    | cons => exact .inr .nil
  | succ left ih =>
    rw [orderFrom] at hrun
    split at hrun
    · cases hrun
    · rename_i v hv
      have hpass := h.pass hv
      rw [h.ordering.waiting_eq, nextReady?_eq_some_iff] at hv
      obtain ⟨hready, hfirst⟩ := hv
      obtain ⟨more, rfl⟩ : ∃ more', more = v :: more' := by
        obtain ⟨more', hmore⟩ := prefix_of_orderFrom hrun
        rw [List.append_assoc] at hmore
        exact ⟨more', (List.append_cancel_left hmore).symm⟩
      cases rest with
      | nil =>
        rw [List.append_nil] at hother
        exact absurd (hother.mem_iff.2 hready.lt) hready.notMem
      | cons w rest =>
        rcases Nat.lt_trichotomy v w with hvw | rfl | hwv
        · exact .inr (.rel hvw)
        · rw [List.append_cons listed v more] at hrun
          rw [List.append_cons listed v rest] at hother
          exact (ih hpass hrun hother).imp (congrArg _) .cons
        · exact absurd (hother.ready hlt) (hfirst w hwv)

/-! ## The order of a network -/

/-- What can be said of the order of a network, whatever its parents are. -/
structure Orders (n : Network α) : Prop where
  /-- There is an order exactly if no variable is its own descendant. -/
  exists_iff : (∃ order, n.order = .ok order) ↔ n.Acyclic
  /-- It lists each variable once, after all its parents. -/
  parentsFirst {order : List Nat} (h : n.order = .ok order) : n.ParentsFirst order
  /-- No such list comes before it in the order of dictionaries. -/
  least {order other : List Nat} (h : n.order = .ok order) (hother : n.ParentsFirst other) :
    order = other ∨ List.Lex (· < ·) order other
  /-- Otherwise the variables on a circle or behind one are reported by name,
      in the order of the catalog. -/
  reported {e : SpecError α} (h : n.order = .error e) : ∃ (vars : List Nat) (names : List String),
    e = .cyclic names ∧ vars.Pairwise (· < ·) ∧ (∀ v, v ∈ vars ↔ n.Looped v) ∧
      vars.map (fun v => n.catalog.vars[v]?.map Variable.name) = names.map some
  /-- The passes end when all variables are listed, or when all others wait. -/
  ends : (∃ order waiting, Reached n.nodes order waiting ∧ order.length = n.nodes.length ∧
      n.order = .ok order) ∨
    ∃ listed waiting, Stuck n.nodes listed waiting ∧ n.order =
      .error (.cyclic (n.namesOf ((List.range n.nodes.length).filter fun v => v ∉ listed)))
  /-- Each pass lists one variable more, so there are not more of them than
      variables. -/
  length_le {listed waiting : List Nat} (h : Reached n.nodes listed waiting) :
    listed.length ≤ n.nodes.length
  /-- No count of parents that are waited for falls below zero. -/
  count_le {listed waiting : List Nat} {v : Nat} (h : Reached n.nodes listed waiting)
    (hv : nextReady? listed waiting = some v) :
    List.Forall₂ (fun m count => m.parents.count v ≤ count) n.nodes waiting

/-- Variables of the catalog have names. -/
theorem map_namesOf {vars : List Nat} (h : ∀ v ∈ vars, v < n.catalog.vars.length) :
    vars.map (fun v => n.catalog.vars[v]?.map Variable.name) = (n.namesOf vars).map some := by
  induction vars with
  | nil => rfl
  | cons v vars ih =>
    obtain ⟨hv, h⟩ := List.forall_mem_cons.1 h
    rw [List.map_cons, ih h, namesOf, namesOf, List.filterMap_cons, List.getElem?_eq_getElem hv]
    rfl

namespace Shaped

/-- What is reported if variables are stuck. -/
theorem reported_of_stuck (hn : n.Shaped) (h : Stuck n.nodes listed waiting) :
    let vars := (List.range n.nodes.length).filter fun v => v ∉ listed
    vars.Pairwise (· < ·) ∧ (∀ v, v ∈ vars ↔ n.Looped v) ∧
      vars.map (fun v => n.catalog.vars[v]?.map Variable.name) = (n.namesOf vars).map some := by
  refine ⟨List.pairwise_lt_range.filter _, fun v => ?_, map_namesOf fun v hv => ?_⟩
  · rw [← h.notMem_iff fun _ _ => hn.parent_lt, List.mem_filter, List.mem_range, decide_eq_true_eq]
  · exact hn.length_nodes ▸ List.mem_range.1 (List.mem_filter.1 hv).1

/-- **The order of a network**, or what stands in its way. -/
theorem orders (hn : n.Shaped) : n.Orders where
  exists_iff := by
    refine ⟨fun ⟨order, horder⟩ => ?_, fun h => h.exists_order fun _ _ => hn.parent_lt⟩
    have hwf : n.WellFormed := ⟨hn, order, horder⟩
    exact hwf.acyclic
  parentsFirst := parentsFirst_of_order
  least h hother :=
    Reached.start.le_of_orderFrom (mapError_eq_ok.1 h) hother fun _ _ => hn.parent_lt
  reported {e} h := by
    obtain ⟨_, _, _, _, horder⟩ | ⟨listed, waiting, hstuck, hnone⟩ := n.order_cases
    · cases h.symm.trans horder
    · cases h.symm.trans hnone
      exact ⟨_, _, rfl, hn.reported_of_stuck hstuck⟩
  ends := n.order_cases
  length_le := Reached.length_le
  count_le h hv := h.count_le hv

end Shaped

/-! ## Nodes in any order -/

/-- Nodes that fit, one for each variable, can be put in their order. -/
theorem exists_shaped {c : Catalog} (hshape : ∀ m ∈ nodes, m.checkShape c = .ok ())
    (hone : (nodes.map Node.child).Perm (List.range c.vars.length)) :
    ∃ n : Network α, n.catalog = c ∧ n.nodes.Perm nodes ∧ n.Shaped := by
  have hchild : List.Forall₂ (fun i m => i = m.child) (nodes.map Node.child) nodes :=
    List.forall₂_map_left_iff.2 (List.forall₂_same.2 fun _ _ => rfl)
  obtain ⟨arranged, harranged, hperm⟩ := List.perm_comp_forall₂ hone.symm hchild
  have hshapes : ∀ m ∈ arranged, m.child < c.vars.length ∧ (∀ p ∈ m.parents, p < c.vars.length) ∧
      m.table.length = m.expectedEntries c :=
    fun m hm => Node.checkShape_eq_ok_iff.1 (hshape m (hperm.mem_iff.1 hm))
  refine ⟨⟨c, arranged⟩, rfl, hperm, ?_, fun {i m} hm => ?_, fun hm => (hshapes _ hm).2.1,
    fun hm => (hshapes _ hm).2.2⟩
  · rw [← harranged.length_eq, List.length_range]
  · obtain ⟨hi, rfl⟩ := List.getElem?_eq_some_iff.1 hm
    have hget := (List.forall₂_iff_get.1 harranged).2 i (harranged.length_eq ▸ hi) hi
    simpa using hget.symm

/-- **Which order variables have**, for all nodes that fit a catalog, one for
    each variable, in any order and with any parents. -/
theorem exists_orders {c : Catalog} {nodes : List (Node α)}
    (hshape : ∀ m ∈ nodes, m.checkShape c = .ok ())
    (hone : (nodes.map Node.child).Perm (List.range c.vars.length)) :
    ∃ n : Network α, n.catalog = c ∧ n.nodes.Perm nodes ∧
      (∀ (i : Nat) (m : Node α), n.nodes[i]? = some m → m.child = i) ∧
      ofNodes c nodes = n.order.map (fun _ => n) ∧ n.Orders := by
  obtain ⟨n, rfl, hperm, hn⟩ := exists_shaped hshape hone
  exact ⟨n, rfl, hperm, fun _ _ => hn.child_eq, hn.ofNodes_eq hperm.symm, hn.orders⟩

/-- Of four variables `B` and `C` are each other's parents and `D` is behind
    them. -/
theorem exists_orders_circle :
    let c : Catalog := .of [.boolean "A", .boolean "B", .boolean "C", .boolean "D"]
    let nodes : List (Node ℚ) := [⟨3, [0, 2], List.replicate 8 (1 / 2)⟩,
      ⟨1, [2, 2], List.replicate 8 (1 / 2)⟩, ⟨2, [1], List.replicate 4 (1 / 2)⟩,
      ⟨0, [], List.replicate 2 (1 / 2)⟩]
    (∀ m ∈ nodes, m.checkShape c = .ok ()) ∧
      (nodes.map Node.child).Perm (List.range c.vars.length) ∧
        ∃ n : Network ℚ, n.nodes.Perm nodes ∧ n.order = .error (.cyclic ["B", "C", "D"]) ∧
          n.Orders := by
  intro c nodes
  have hshape : ∀ m ∈ nodes, m.checkShape c = .ok () := by decide
  have hone : (nodes.map Node.child).Perm (List.range c.vars.length) := by decide
  obtain ⟨n, -, hperm, -, hnodes, hn⟩ := exists_orders hshape hone
  have hcircle : ofNodes c nodes = .error (.cyclic ["B", "C", "D"]) := by decide
  refine ⟨hshape, hone, n, hperm, ?_, hn⟩
  rw [hnodes] at hcircle
  cases horder : n.order with
  | ok order =>
    rw [horder] at hcircle
    cases hcircle
  | error e =>
    rw [horder] at hcircle
    cases hcircle
    rfl

/-- Children of the last variable come after it, and otherwise in their order. -/
example : Network.order (α := ℚ) ⟨.of [.boolean "A", .boolean "B", .boolean "C"],
    [⟨0, [2], List.replicate 4 (1 / 2)⟩, ⟨1, [2], List.replicate 4 (1 / 2)⟩,
      ⟨2, [], List.replicate 2 (1 / 2)⟩]⟩ = .ok [2, 0, 1] := by decide

end JointProb.Network
