/-
  JointProb — networks whose parents go around no circle.

  * `Network.Acyclic` says this of a network, and `WellFormed.acyclic` that it
    holds of all that are accepted;
  * `Network.Looped` says of a variable that it is on a circle or behind one;
    `Stuck.notMem_iff`: those are the ones that cannot be listed;
  * `Acyclic.exists_order`: without circles all variables are listed, parents
    first;
  * `Shaped.ofNodes_eq` and `WellFormed.ofNodes_eq_ok`: nodes are accepted in
    any order, and arranged, if their variables can be listed.
-/
import JointProb.Proofs.Network.Order
import Mathlib.Order.WellFoundedSet

namespace JointProb.Network

variable {α : Type} {n : Network α} {listed waiting : List Nat}

/-- No variable is among its parents, their parents and so on. -/
def Acyclic (n : Network α) : Prop := ∀ v, ¬ n.IsDescendant v v

/-- **Accepted networks go around no circle.** -/
theorem WellFormed.acyclic (hn : n.WellFormed) : n.Acyclic := by
  intro v hv
  obtain ⟨p, hanc, hp⟩ := Relation.TransGen.tail'_iff.1 hv
  exact hn.notMem_ancestors hp hanc

theorem Acyclic.notMem_parentsOf (h : n.Acyclic) (v : Nat) : v ∉ n.parentsOf v :=
  fun hv => h v (.single hv)

/-- Parents in front of their children go around no circle. -/
theorem acyclic_of_lt (h : ∀ v < n.nodes.length, ∀ p ∈ n.parentsOf v, p < v) : n.Acyclic := by
  have hlt : ∀ v w, n.IsDescendant v w → v < w := by
    intro v w hvw
    induction hvw with
    | single hp => exact h _ (lt_of_mem_parentsOf hp) _ hp
    | tail _ hp ih => exact ih.trans (h _ (lt_of_mem_parentsOf hp) _ hp)
  exact fun v hv => Nat.lt_irrefl v (hlt v v hv)

/-! ## On a circle or behind one -/

/-- Whether a variable is on a circle or behind one: among its ancestors, itself
    included, is one that is its own descendant. -/
def Looped (n : Network α) (v : Nat) : Prop := ∃ u ∈ n.ancestors v, n.IsDescendant u u

theorem acyclic_iff : n.Acyclic ↔ ∀ v, ¬ n.Looped v :=
  ⟨fun h _ ⟨u, _, hu⟩ => h u hu, fun h v hv => h v ⟨v, .refl, hv⟩⟩

theorem Looped.child {p v : Nat} (h : n.Looped p) (hp : n.IsParent p v) : n.Looped v := by
  obtain ⟨u, hanc, hu⟩ := h
  exact ⟨u, hanc.tail hp, hu⟩

/-- On the way back there is always a parent on a circle or behind one. -/
theorem Looped.exists_parent {v : Nat} (h : n.Looped v) : ∃ p ∈ n.parentsOf v, n.Looped p := by
  obtain ⟨u, hanc, hu⟩ := h
  rcases Relation.ReflTransGen.cases_tail hanc with rfl | ⟨p, hup, hp⟩
  · obtain ⟨p, hvp, hp⟩ := Relation.TransGen.tail'_iff.1 hu
    exact ⟨p, hp, v, hvp, hu⟩
  · exact ⟨p, hp, u, hup, hu⟩

/-- **If each of some variables has a parent among them, all of them are on
    circles or behind**: the way back has no end, and there are only
    finitely many. -/
theorem looped_of_exists_parent {S : Set Nat} (hlt : ∀ v ∈ S, v < n.nodes.length)
    (hS : ∀ v ∈ S, ∃ p ∈ n.parentsOf v, p ∈ S) : ∀ v ∈ S, n.Looped v := by
  -- between variables that are not looped, descent never comes back
  have : IsStrictOrder Nat fun u v => n.IsDescendant u v ∧ ¬ n.Looped v :=
    { irrefl := fun v hv => hv.2 ⟨v, .refl, hv.1⟩
      trans := fun _ _ _ huv hvw => ⟨huv.1.trans hvw.1, hvw.2⟩ }
  intro v hv
  refine (Set.finite_lt_nat n.nodes.length |>.subset hlt).wellFoundedOn.induction
    (r := fun u v => n.IsDescendant u v ∧ ¬ n.Looped v) hv fun u hu ih => ?_
  by_contra hnot
  obtain ⟨p, hp, hpS⟩ := hS u hu
  exact hnot ((ih p hpS ⟨.single hp, hnot⟩).child hp)

/-! ## Listing variables -/

/-- What is listed is neither on a circle nor behind one. -/
theorem Reached.not_looped (h : Reached n.nodes listed waiting) : ∀ v ∈ listed, ¬ n.Looped v := by
  induction h with
  | start => simp
  | pass h hv ih =>
    rw [h.ordering.waiting_eq] at hv
    obtain ⟨hready, -⟩ := nextReady?_eq_some_iff.1 hv
    intro u hu hlooped
    rcases List.mem_append.1 hu with hu | hu
    · exact ih u hu hlooped
    · obtain rfl := List.mem_singleton.1 hu
      obtain ⟨p, hp, hplooped⟩ := hlooped.exists_parent
      exact ih p (hready.parents_mem p hp) hplooped

/-- **What is stuck is on a circle or behind one**, and nothing else is. -/
theorem Stuck.notMem_iff (h : Stuck n.nodes listed waiting)
    (hlt : ∀ v, ∀ p ∈ n.parentsOf v, p < n.nodes.length) {v : Nat} :
    v < n.nodes.length ∧ v ∉ listed ↔ n.Looped v := by
  refine ⟨fun hv => ?_, fun hlooped => ⟨?_, fun hv => h.reached.not_looped v hv hlooped⟩⟩
  · have hnone := h.nextReady?_eq_none
    rw [h.reached.ordering.waiting_eq, nextReady?_eq_none_iff] at hnone
    refine looped_of_exists_parent (S := {v | v < n.nodes.length ∧ v ∉ listed})
      (fun u hu => hu.1) (fun u hu => ?_) v hv
    by_contra! hlisted
    exact hnone u ⟨hu.1, hu.2, fun p hp => by_contra fun hnew => hlisted p hp ⟨hlt u p hp, hnew⟩⟩
  · obtain ⟨p, hp, -⟩ := hlooped.exists_parent
    exact lt_of_mem_parentsOf hp

/-- Where variables are stuck, one of them is left. -/
theorem Stuck.exists_looped (h : Stuck n.nodes listed waiting)
    (hlt : ∀ v, ∀ p ∈ n.parentsOf v, p < n.nodes.length) : ∃ v, n.Looped v := by
  by_contra! hnone
  have hsub : List.range n.nodes.length ⊆ listed := fun v hv => by
    by_contra hnew
    exact hnone v ((h.notMem_iff hlt).1 ⟨List.mem_range.1 hv, hnew⟩)
  have hle := (List.subperm_of_subset List.nodup_range hsub).length_le
  have hlength := h.length_lt
  rw [List.length_range] at hle
  omega

/-- **Without circles all variables can be listed, parents first.** -/
theorem Acyclic.exists_order (h : n.Acyclic)
    (hlt : ∀ v, ∀ p ∈ n.parentsOf v, p < n.nodes.length) : ∃ order, n.order = .ok order := by
  obtain ⟨order, _, _, _, horder⟩ | ⟨_, _, hstuck, _⟩ := n.order_cases
  · exact ⟨order, horder⟩
  · obtain ⟨v, hv⟩ := hstuck.exists_looped hlt
    exact absurd hv (acyclic_iff.1 h v)

/-! ## Construction -/

namespace Shaped

variable {nodes : List (Node α)}

theorem map_child (hn : n.Shaped) : n.nodes.map Node.child = List.range n.nodes.length := by
  refine List.ext_getElem (by simp) fun i hi _ => ?_
  rw [List.length_map] at hi
  rw [List.getElem_map, List.getElem_range]
  exact hn.child_eq (List.getElem?_eq_getElem hi)

/-- The only node of a variable is the one at its place. -/
theorem getElem?_child (hn : n.Shaped) {m : Node α} (hm : m ∈ n.nodes) :
    n.nodes[m.child]? = some m := by
  obtain ⟨i, hi⟩ := List.getElem?_of_mem hm
  rwa [hn.child_eq hi]

theorem checkShapes_eq_ok (hn : n.Shaped) (hperm : nodes.Perm n.nodes) :
    checkShapes n.catalog nodes = .ok () := by
  refine checkShapes_eq_ok_iff.2 fun m hm => Node.checkShape_eq_ok_iff.2 ?_
  have hmem := hperm.mem_iff.1 hm
  have hchild := (List.getElem?_eq_some_iff.1 (hn.getElem?_child hmem)).1
  exact ⟨hn.length_nodes ▸ hchild, hn.parents_lt hmem, hn.length_table hmem⟩

theorem checkDistinct_eq_ok (hn : n.Shaped) (hperm : nodes.Perm n.nodes) :
    checkDistinct n.catalog nodes = .ok () := by
  refine checkDistinct_eq_ok_iff.2 fun i _ => ?_
  have hmap : nodes.countP (·.child == i) = (n.nodes.map Node.child).count i := by
    rw [hperm.countP_eq, List.count, List.countP_map]
    rfl
  rw [hmap, hn.map_child]
  exact List.nodup_iff_count_le_one.1 List.nodup_range i

theorem arrange_eq_ok (hn : n.Shaped) (hperm : nodes.Perm n.nodes) :
    arrange n.catalog nodes = .ok n.nodes := by
  refine mapM_eq_ok.2 (List.forall₂_iff_get.2 ⟨by simp [hn.length_nodes], fun i hi hi' => ?_⟩)
  have hat := List.getElem?_eq_getElem hi'
  have hfound : nodes.find? (·.child == i) = some n.nodes[i] := by
    have hsome : (nodes.find? (·.child == i)).isSome := by
      rw [List.find?_isSome]
      exact ⟨n.nodes[i], hperm.mem_iff.2 (List.getElem_mem _), by simp [hn.child_eq hat]⟩
    obtain ⟨m, hm⟩ := Option.isSome_iff_exists.1 hsome
    have hmi : m.child = i := by simpa using List.find?_some hm
    have hget := hn.getElem?_child (hperm.mem_iff.1 (List.mem_of_find?_eq_some hm))
    rw [hmi, hat] at hget
    rw [hm, ← hget]
  simp only [List.get_eq_getElem, List.getElem_zipIdx, Nat.zero_add, hfound]

/-- **Nodes that fit are accepted if they can be ordered**, in whatever order
    they are given. -/
theorem ofNodes_eq (hn : n.Shaped) (hperm : nodes.Perm n.nodes) :
    ofNodes n.catalog nodes = n.order.map fun _ => n := by
  rw [ofNodes, hn.checkShapes_eq_ok hperm, hn.checkDistinct_eq_ok hperm, hn.arrange_eq_ok hperm]
  rfl

end Shaped

/-- **The nodes of a well-formed network are accepted in any order.** -/
theorem WellFormed.ofNodes_eq_ok {nodes : List (Node α)} (hn : n.WellFormed)
    (hperm : nodes.Perm n.nodes) : ofNodes n.catalog nodes = .ok n := by
  obtain ⟨order, horder⟩ := hn.exists_order
  rw [hn.ofNodes_eq hperm, horder]
  rfl

end JointProb.Network
