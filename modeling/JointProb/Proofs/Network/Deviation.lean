/-
  JointProb — the total of a network whose rows are not quite one.

  * `sumAll_prod_mem`: if the probabilities of each variable have a sum between
    two bounds, whatever the states of its parents are, then the sum over the
    states of all variables is between the powers of the bounds;
  * `Network.Near.sum_weights_mem`: so is the total of a network.
-/
import JointProb.Proofs.Network.Kernel
import Mathlib.Algebra.Order.BigOperators.Group.Finset

namespace JointProb

/-! ## Sums of products -/

section

variable {k : Nat → Nat} {v : Nat} {f g : Assignment → ℚ} {lo hi lo' hi' : ℚ}

/-- A factor between bounds changes a sum of non-negative terms by at most
    these. -/
theorem sumOver_mul_mem (hf : ∀ a, 0 ≤ f a) (hg : ∀ a, g a ∈ Set.Icc lo' hi') (hlo : 0 ≤ lo')
    {a : Assignment} (hsum : sumOver k v f a ∈ Set.Icc lo hi) :
    sumOver k v (f * g) a ∈ Set.Icc (lo * lo') (hi * hi') := by
  have hhi : 0 ≤ hi' := hlo.trans ((hg a).1.trans (hg a).2)
  constructor
  · calc lo * lo' ≤ sumOver k v f a * lo' := mul_le_mul_of_nonneg_right hsum.1 hlo
      _ = ∑ s ∈ Finset.range (k v), f (Function.update a v s) * lo' := Finset.sum_mul ..
      _ ≤ sumOver k v (f * g) a :=
        Finset.sum_le_sum fun s _ => mul_le_mul_of_nonneg_left (hg _).1 (hf _)
  · calc sumOver k v (f * g) a
        ≤ ∑ s ∈ Finset.range (k v), f (Function.update a v s) * hi' :=
          Finset.sum_le_sum fun s _ => mul_le_mul_of_nonneg_left (hg _).2 (hf _)
      _ = sumOver k v f a * hi' := (Finset.sum_mul ..).symm
      _ ≤ hi * hi' := mul_le_mul_of_nonneg_right hsum.2 hhi

/-- **The sum over all variables is between the powers of the bounds** for one
    variable: with parents first, the variables behind one are summed out
    before it, and what is left of them is between the bounds for fewer. -/
theorem sumAll_prod_mem {prob : Nat → Assignment → ℚ} {parents : Nat → Set Nat} {vs : List Nat}
    (hdepends : ∀ v, DependsOn (prob v) (insert v (parents v))) (hnonneg : ∀ v a, 0 ≤ prob v a)
    (hlo : 0 ≤ lo) (hsum : ∀ v a, sumOver k v (prob v) a ∈ Set.Icc lo hi)
    (horder : vs.Pairwise fun u v => v ∉ insert u (parents u)) (a : Assignment) :
    sumAll k vs (vs.map prob).prod a ∈ Set.Icc (lo ^ vs.length) (hi ^ vs.length) := by
  induction vs generalizing a with
  | nil => simp
  | cons v vs ih =>
    obtain ⟨hv, hvs⟩ := List.pairwise_cons.1 horder
    rw [List.map_cons, List.prod_cons, sumAll_cons, sumAll_mul (hdepends v) hv, List.length_cons,
      pow_succ', pow_succ']
    exact sumOver_mul_mem (hnonneg v) (ih hvs) (pow_nonneg hlo _) (hsum v a)

end

/-! ## Networks -/

namespace Network

variable {n : Network ℚ} {tolerance : ℚ}

theorem Near.sum_probAt_mem (hs : n.Near tolerance) (hn : n.WellFormed) (h0 : 0 ≤ tolerance)
    (h1 : tolerance < 1) (v : Nat) (a : Assignment) :
    sumOver n.catalog.radixAt v (n.probAt v) a ∈ Set.Icc (1 - tolerance) (1 + tolerance) := by
  cases hm : n.nodes[v]? with
  | none =>
    rw [sum_probAt_of_none hn hm]
    exact ⟨sub_le_self 1 h0, le_add_of_nonneg_right h0⟩
  | some m =>
    obtain ⟨row, hrow, hsum⟩ := exists_sum_probAt hn (cardinalityAt_pos hn hs h1) hm a
    have hnear := abs_le.1 ((hs m (List.mem_of_getElem? hm)).sum_row row hrow)
    rw [hsum]
    constructor <;> linarith

/-- **The total of a network is as near to one as its rows allow.** -/
theorem Near.sum_weights_mem (hs : n.Near tolerance) (hn : n.WellFormed) (h0 : 0 ≤ tolerance)
    (h1 : tolerance < 1) {order : List Nat} (h : n.ParentsFirst order) :
    (n.weights order).sum ∈ Set.Icc ((1 - tolerance) ^ n.catalog.vars.length)
      ((1 + tolerance) ^ n.catalog.vars.length) := by
  have hlen : order.length = n.catalog.vars.length := by
    rw [h.perm.length_eq, List.length_range, hn.length_nodes]
  have hsum : (n.weights order).sum =
      sumAll n.catalog.radixAt order (order.map n.probAt).prod fun _ => 0 := by
    have := sum_range_weight hn h 1
    simp only [Pi.one_apply, one_mul, mul_one] at this
    exact this
  rw [hsum, ← hlen]
  exact sumAll_prod_mem (dependsOn_probAt hn) (probAt_nonneg hs) (sub_nonneg.2 h1.le)
    (hs.sum_probAt_mem hn h0 h1) h.pairwise_notMem_insert _

end Network

end JointProb
