/-
  JointProb — the order of the variables of a network.

  * `Network.parentsOf` are the parents of a variable;
  * `Ready` is what can be listed next; `nextReady?_eq_some_iff`: the first one
    is;
  * `Ordering` holds while variables are listed: what is listed has its
    parents listed, and each variable waits for as many parents as are not;
  * `Reached` are the states that passes of the loop lead to, and `Stuck` those
    where it ends too early: `order_cases`;
  * `ParentsFirst` says of a full list that all parents come first;
  * `Network.parentsFirst_of_order`: the order of a network is such a list;
  * `WellFormed.parents_induction`: induction from the parents of variables to
    the variables;
  * `Network.ancestors` and `Network.IsDescendant` follow the parents up and
    down, any number of steps; `WellFormed.notMem_ancestors`: there is no way
    around a circle.
-/
import JointProb.Proofs.Network.Basic
import Mathlib.Data.List.Induction
import Mathlib.Data.List.Nodup
import Mathlib.Data.List.Perm.Subperm
import Mathlib.Logic.Relation

namespace JointProb.Network

variable {α : Type} {nodes : List (Node α)} {listed waiting : List Nat}

/-- The parents of the node at a position. -/
def parentsIn (nodes : List (Node α)) (v : Nat) : List Nat :=
  (nodes[v]?.map Node.parents).getD []

/-- The parents of a variable. -/
def parentsOf (n : Network α) (v : Nat) : List Nat := parentsIn n.nodes v

theorem parentsIn_eq {v : Nat} {m : Node α} (h : nodes[v]? = some m) :
    parentsIn nodes v = m.parents := by
  simp [parentsIn, h]

/-! ## Listing variables -/

/-- How many parents each variable waits for when some are listed. -/
def waitingFor (nodes : List (Node α)) (listed : List Nat) : List Nat :=
  nodes.map fun m => m.parents.countP (· ∉ listed)

/-- Some variables are listed, with all their parents, and the others wait for
    the parents that are not. -/
structure Ordering (nodes : List (Node α)) (listed waiting : List Nat) : Prop where
  nodup : listed.Nodup
  lt : ∀ v ∈ listed, v < nodes.length
  parents_mem : ∀ v ∈ listed, ∀ p ∈ parentsIn nodes v, p ∈ listed
  pairwise : listed.Pairwise fun u v => v ∉ parentsIn nodes u
  not_self : ∀ v ∈ listed, v ∉ parentsIn nodes v
  waiting_eq : waiting = waitingFor nodes listed

theorem ordering_nil : Ordering nodes [] (nodes.map fun m => m.parents.length) where
  nodup := List.nodup_nil
  lt := by simp
  parents_mem := by simp
  pairwise := List.Pairwise.nil
  not_self := by simp
  waiting_eq := by simp [waitingFor]

/-- A further variable that is listed is waited for no longer, as often as it
    is a parent. -/
theorem countP_notMem_eq_add {v : Nat} (hv : v ∉ listed) (ps : List Nat) :
    ps.countP (· ∉ listed) = ps.countP (· ∉ listed ++ [v]) + ps.count v := by
  induction ps with
  | nil => rfl
  | cons p ps ih =>
    simp only [List.countP_cons, List.count_cons, ih]
    by_cases hp : p = v
    · subst hp
      simp [hv]
      omega
    · simp [hp]
      omega

theorem settle_waitingFor {v : Nat} (hv : v ∉ listed) :
    settle nodes v (waitingFor nodes listed) = waitingFor nodes (listed ++ [v]) := by
  refine List.ext_getElem (by simp [settle, waitingFor]) fun i hi hi' => ?_
  simp only [settle, waitingFor, List.getElem_zipWith, List.getElem_map]
  rw [countP_notMem_eq_add hv, Nat.add_sub_cancel_right]

/-! ## What is ready -/

/-- A variable that is not listed while all its parents are. -/
structure Ready (nodes : List (Node α)) (listed : List Nat) (v : Nat) : Prop where
  lt : v < nodes.length
  notMem : v ∉ listed
  parents_mem : ∀ p ∈ parentsIn nodes v, p ∈ listed

/-- What is ready waits for no parent. -/
theorem ready_iff {v : Nat} : Ready nodes listed v ↔
    v < nodes.length ∧ v ∉ listed ∧ (waitingFor nodes listed)[v]? = some 0 := by
  have hzero (hv : v < nodes.length) : (waitingFor nodes listed)[v]? = some 0 ↔
      ∀ p ∈ parentsIn nodes v, p ∈ listed := by
    have hget := List.getElem?_eq_getElem hv
    simp [waitingFor, hget, parentsIn_eq hget, List.countP_eq_zero]
  exact ⟨fun ⟨hv, hnew, hparents⟩ => ⟨hv, hnew, (hzero hv).2 hparents⟩,
    fun ⟨hv, hnew, hnone⟩ => ⟨hv, hnew, (hzero hv).1 hnone⟩⟩

/-- **The next variable is the first that is ready.** -/
theorem nextReady?_eq_some_iff {v : Nat} : nextReady? listed (waitingFor nodes listed) = some v ↔
    Ready nodes listed v ∧ ∀ w < v, ¬ Ready nodes listed w := by
  have hlen : (waitingFor nodes listed).length = nodes.length := by simp [waitingFor]
  rw [nextReady?, hlen, List.find?_range_eq_some, List.mem_range]
  simp only [Bool.not_eq_true', decide_eq_true_eq, decide_eq_false_iff_not, ready_iff]
  constructor
  · rintro ⟨hready, hv, hfirst⟩
    exact ⟨⟨hv, hready⟩, fun w hw h => hfirst w hw h.2⟩
  · rintro ⟨⟨hv, hready⟩, hfirst⟩
    exact ⟨hready, hv, fun w hw h => hfirst w hw ⟨hw.trans hv, h⟩⟩

theorem nextReady?_eq_none_iff : nextReady? listed (waitingFor nodes listed) = none ↔
    ∀ v, ¬ Ready nodes listed v := by
  have hlen : (waitingFor nodes listed).length = nodes.length := by simp [waitingFor]
  simp only [nextReady?, hlen, List.find?_eq_none, List.mem_range, decide_eq_true_eq, ready_iff,
    not_and]

/-- **Listing what is ready keeps the order.** -/
theorem Ordering.append {v : Nat} (h : Ordering nodes listed waiting)
    (hv : nextReady? listed waiting = some v) :
    Ordering nodes (listed ++ [v]) (settle nodes v waiting) := by
  obtain ⟨hnodup, hlt, hparents, hpair, hself, rfl⟩ := h
  obtain ⟨⟨hvlt, hnew, hvparents⟩, -⟩ := nextReady?_eq_some_iff.1 hv
  refine ⟨?_, ?_, ?_, ?_, ?_, settle_waitingFor hnew⟩
  · refine List.nodup_append.2 ⟨hnodup, List.nodup_singleton v, fun u hu w hw he => ?_⟩
    rw [he, List.mem_singleton.1 hw] at hu
    exact hnew hu
  · intro u hu
    rcases List.mem_append.1 hu with hu | hu
    · exact hlt u hu
    · rwa [List.mem_singleton.1 hu]
  · intro u hu p hp
    rcases List.mem_append.1 hu with hu | hu
    · exact List.mem_append_left _ (hparents u hu p hp)
    · rw [List.mem_singleton.1 hu] at hp
      exact List.mem_append_left _ (hvparents p hp)
  · refine List.pairwise_append.2 ⟨hpair, List.pairwise_singleton _ v, fun u hu w hw hp => ?_⟩
    rw [List.mem_singleton.1 hw] at hp
    exact hnew (hparents u hu v hp)
  · intro u hu
    rcases List.mem_append.1 hu with hu | hu
    · exact hself u hu
    · rw [List.mem_singleton.1 hu]
      exact fun hp => hnew (hvparents v hp)

/-- What is listed, and what the variables wait for, after some passes of the
    loop: each lists one variable more. -/
inductive Reached (nodes : List (Node α)) : List Nat → List Nat → Prop
  | start : Reached nodes [] (nodes.map fun m => m.parents.length)
  | pass {listed waiting : List Nat} {v : Nat} (h : Reached nodes listed waiting)
      (hv : nextReady? listed waiting = some v) :
      Reached nodes (listed ++ [v]) (settle nodes v waiting)

theorem Reached.ordering (h : Reached nodes listed waiting) : Ordering nodes listed waiting := by
  induction h with
  | start => exact ordering_nil
  | pass _ hv ih => exact ih.append hv

/-- Where no pass can follow although not all variables are listed. -/
structure Stuck (nodes : List (Node α)) (listed waiting : List Nat) : Prop where
  reached : Reached nodes listed waiting
  nextReady?_eq_none : nextReady? listed waiting = none
  length_lt : listed.length < nodes.length

/-- **How the loop ends**: all variables are listed, or the others are stuck. -/
theorem Reached.ends_orderFrom {left : Nat} (h : Reached nodes listed waiting)
    (hleft : listed.length + left = nodes.length) :
    Ends (fun stuck => ∃ listed waiting, Stuck nodes listed waiting ∧
        stuck = (List.range nodes.length).filter fun v => v ∉ listed)
      (fun order => order.length = nodes.length ∧ ∃ waiting, Reached nodes order waiting)
      (orderFrom nodes listed waiting left) := by
  induction left generalizing listed waiting with
  | zero => exact ⟨hleft, waiting, h⟩
  | succ left ih =>
    rw [orderFrom]
    cases hv : nextReady? listed waiting with
    | none => exact ⟨listed, waiting, ⟨h, hv, by omega⟩, rfl⟩
    | some v => exact ih (h.pass hv) (by rw [List.length_append, List.length_singleton]; omega)

/-! ## The order of a network -/

/-- All variables, each once, with all parents in front. -/
structure ParentsFirst (n : Network α) (order : List Nat) : Prop where
  perm : order.Perm (List.range n.nodes.length)
  pairwise : order.Pairwise fun u v => v ∉ n.parentsOf u
  not_self : ∀ v ∈ order, v ∉ n.parentsOf v

/-- **A network has an order, or some of its variables are stuck.** -/
theorem order_cases (n : Network α) :
    (∃ order waiting, Reached n.nodes order waiting ∧ order.length = n.nodes.length ∧
      n.order = .ok order) ∨
    ∃ listed waiting, Stuck n.nodes listed waiting ∧ n.order =
      .error (.cyclic (n.namesOf ((List.range n.nodes.length).filter fun v => v ∉ listed))) := by
  have hstart : Reached n.nodes [] (n.nodes.map fun m => m.parents.length) := .start
  have hends := hstart.ends_orderFrom (Nat.zero_add _)
  rw [order]
  cases hrun : orderFrom n.nodes [] (n.nodes.map fun m => m.parents.length) n.nodes.length with
  | ok order =>
    rw [hrun] at hends
    obtain ⟨hlen, waiting, hreached⟩ := hends
    exact .inl ⟨order, waiting, hreached, hlen, rfl⟩
  | error stuck =>
    rw [hrun] at hends
    obtain ⟨listed, waiting, hstuck, rfl⟩ := hends
    exact .inr ⟨listed, waiting, hstuck, rfl⟩

/-- **The order of a network has all parents first.** -/
theorem parentsFirst_of_order {n : Network α} {order : List Nat} (h : n.order = .ok order) :
    n.ParentsFirst order := by
  obtain ⟨order', waiting, hreached, hlen, horder⟩ | ⟨_, _, _, hnone⟩ := n.order_cases
  · cases h.symm.trans horder
    have hord := hreached.ordering
    have hsub : order ⊆ List.range n.nodes.length :=
      fun v hv => List.mem_range.2 (hord.lt v hv)
    exact ⟨(List.subperm_of_subset hord.nodup hsub).perm_of_length_le (by simp [hlen]),
      hord.pairwise, hord.not_self⟩
  · cases h.symm.trans hnone

namespace ParentsFirst

variable {n : Network α} {order before after : List Nat}

theorem mem_iff (h : n.ParentsFirst order) {v : Nat} : v ∈ order ↔ v < n.nodes.length := by
  rw [h.perm.mem_iff, List.mem_range]

theorem nodup (h : n.ParentsFirst order) : order.Nodup := h.perm.nodup_iff.2 List.nodup_range

/-- The parents of a variable are in front of all variables after it. -/
theorem mem_of_append (h : n.ParentsFirst (before ++ after)) {v p : Nat} (hv : v ∈ before)
    (hp : p ∈ n.parentsOf v) (hlt : p < n.nodes.length) : p ∈ before := by
  rcases List.mem_append.1 (h.mem_iff.2 hlt) with hmem | hmem
  · exact hmem
  · exact absurd hp ((List.pairwise_append.1 h.pairwise).2.2 v hv p hmem)

end ParentsFirst

/-! ## Parents -/

variable {n : Network α} {m : Node α} {v p : Nat}

theorem parentsOf_eq (h : n.nodes[v]? = some m) : n.parentsOf v = m.parents := parentsIn_eq h

/-- Only variables have parents. -/
theorem lt_of_mem_parentsOf (hp : p ∈ n.parentsOf v) : v < n.nodes.length := by
  by_contra hv
  rw [parentsOf, parentsIn, List.getElem?_eq_none (Nat.not_lt.1 hv)] at hp
  exact List.not_mem_nil hp

/-- Only variables are parents. -/
theorem Shaped.parent_lt (hn : n.Shaped) (hp : p ∈ n.parentsOf v) : p < n.nodes.length := by
  have hget := List.getElem?_eq_getElem (lt_of_mem_parentsOf hp)
  rw [parentsOf_eq hget] at hp
  rw [hn.length_nodes]
  exact hn.parents_lt (List.mem_of_getElem? hget) p hp

namespace WellFormed

theorem exists_parentsFirst (hn : n.WellFormed) : ∃ order, n.ParentsFirst order := by
  obtain ⟨order, horder⟩ := hn.exists_order
  exact ⟨order, parentsFirst_of_order horder⟩

theorem notMem_parentsOf (hn : n.WellFormed) : v ∉ n.parentsOf v := by
  intro hp
  obtain ⟨order, horder⟩ := hn.exists_parentsFirst
  exact horder.not_self v (horder.mem_iff.2 (lt_of_mem_parentsOf hp)) hp

/-- **What holds of a variable if it holds of its parents holds of all.** -/
theorem parents_induction (hn : n.WellFormed) {P : Nat → Prop}
    (step : ∀ v < n.nodes.length, (∀ p ∈ n.parentsOf v, P p) → P v) :
    ∀ v < n.nodes.length, P v := by
  obtain ⟨order, horder⟩ := hn.exists_parentsFirst
  suffices hbefore : ∀ before after, order = before ++ after → ∀ v ∈ before, P v from
    fun v hv => hbefore order [] (by simp) v (horder.mem_iff.2 hv)
  intro before
  induction before using List.reverseRecOn with
  | nil => simp
  | append_singleton before u ih =>
    rintro after rfl v hv
    have ih := ih ([u] ++ after) (by simp)
    rcases List.mem_append.1 hv with hv | hv
    · exact ih v hv
    · rw [List.mem_singleton.1 hv]
      refine step u (horder.mem_iff.1 (by simp)) fun p hp => ih p ?_
      have hu : u ∈ before ++ [u] := by simp
      rcases List.mem_append.1 (horder.mem_of_append hu hp (hn.parent_lt hp)) with hmem | hmem
      · exact hmem
      · obtain rfl := List.mem_singleton.1 hmem
        exact absurd hp hn.notMem_parentsOf

end WellFormed

/-! ## Ancestors and descendants -/

/-- Whether one variable is a parent of another. -/
def IsParent (n : Network α) (p v : Nat) : Prop := p ∈ n.parentsOf v

/-- A variable, its parents, their parents and so on. -/
def ancestors (n : Network α) (v : Nat) : Set Nat := {u | Relation.ReflTransGen n.IsParent u v}

/-- Whether a variable can be reached from another one by a step or more from
    a parent to a child. -/
def IsDescendant (n : Network α) (v w : Nat) : Prop := Relation.TransGen n.IsParent v w

/-- A variable without parents is its only ancestor. -/
theorem ancestors_eq_singleton (h : n.parentsOf v = []) : n.ancestors v = {v} := by
  ext u
  refine ⟨fun hu => ?_, fun hu => Set.mem_singleton_iff.1 hu ▸ Relation.ReflTransGen.refl⟩
  rcases Relation.ReflTransGen.cases_tail hu with rfl | ⟨w, -, hw⟩
  · rfl
  · rw [IsParent, h] at hw
    exact absurd hw List.not_mem_nil

/-- Ancestors come first. -/
theorem ParentsFirst.mem_of_ancestor {before after : List Nat}
    (h : n.ParentsFirst (before ++ after)) (hn : n.WellFormed) {u : Nat}
    (hu : u ∈ n.ancestors v) (hv : v ∈ before) : u ∈ before := by
  induction hu using Relation.ReflTransGen.head_induction_on with
  | refl => exact hv
  | head huw _ ih => exact h.mem_of_append ih huw (hn.parent_lt huw)

/-- **No variable is an ancestor of its parents.** -/
theorem WellFormed.notMem_ancestors (hn : n.WellFormed) (hp : n.IsParent p v) :
    v ∉ n.ancestors p := by
  intro hanc
  obtain ⟨order, h⟩ := hn.exists_parentsFirst
  obtain ⟨before, after, rfl⟩ := List.append_of_mem (h.mem_iff.2 (lt_of_mem_parentsOf hp))
  -- the parent is in front of the variable, so its ancestors are as well
  have hpmem : p ∈ before := by
    rcases List.mem_append.1 (h.mem_iff.2 (hn.parent_lt hp)) with hmem | hmem
    · exact hmem
    · rcases List.mem_cons.1 hmem with rfl | hmem
      · exact absurd hp hn.notMem_parentsOf
      · exact absurd hp ((List.pairwise_cons.1 (List.pairwise_append.1 h.pairwise).2.1).1 p hmem)
  exact List.disjoint_of_nodup_append h.nodup (h.mem_of_ancestor hn hanc hpmem) (by simp)

end JointProb.Network
