/-
  JointProb — states that are drawn one after the other.

  A kernel gives the states of a variable their probabilities once those of
  its parents are known.

  * `Kernels` has one for each variable, `draw` takes the mean of a function
    over the states of one variable and `expect` over those of several;
  * `sumAll_prod`: with parents first, the sum of products of probabilities
    is a mean;
  * `expect_mul`: the mean of a product is the product of the means where no
    ancestor is shared;
  * `expect_meets_mul`: once the parents of a variable are fixed, its state is
    drawn whatever else is known that does not come from it.
-/
import JointProb.Proofs.Assignment
import Mathlib.Order.CompletePartialOrder

namespace JointProb

/-- For each variable the number of its states and their probabilities, which
    depend on the states of its parents. -/
structure Kernels where
  card : Nat → Nat
  parents : Nat → Set Nat
  prob : Nat → Assignment → ℚ
  dependsOn_prob (v : Nat) : DependsOn (prob v) (insert v (parents v))
  sum_prob (v : Nat) : sumOver card v (prob v) = 1

namespace Kernels

variable (K : Kernels) {v : Nat} {vs : List Nat} {f g : Assignment → ℚ} {S T : Set Nat}

/-- The mean of a function over the states of a variable. -/
def draw (v : Nat) (f : Assignment → ℚ) : Assignment → ℚ := sumOver K.card v (K.prob v * f)

/-- The mean of a function over the states of several variables, where those
    in front are drawn first. -/
def expect (vs : List Nat) (f : Assignment → ℚ) : Assignment → ℚ := vs.foldr K.draw f

/-- A set of variables with all their parents. -/
def Closed (S : Set Nat) : Prop := ∀ v ∈ S, K.parents v ⊆ S

/-- Variables that each come once and after their parents. -/
def InOrder (vs : List Nat) : Prop := vs.Pairwise fun u v => v ∉ insert u (K.parents u)

/-! ## One variable -/

/-- A factor that does not depend on the variable can be taken out. -/
theorem draw_mul (hf : DependsOn f S) (hv : v ∉ S) : K.draw v (f * g) = f * K.draw v g := by
  rw [draw, mul_left_comm, sumOver_mul hf hv, draw]

theorem draw_eq_self (hf : DependsOn f S) (hv : v ∉ S) : K.draw v f = f := by
  rw [← mul_one f, K.draw_mul hf hv, draw, mul_one, K.sum_prob]

theorem dependsOn_draw (hf : DependsOn f S) :
    DependsOn (K.draw v f) ((insert v (K.parents v) ∪ S) \ {v}) :=
  dependsOn_sumOver (dependsOn_mul (K.dependsOn_prob v) hf)

theorem Closed.dependsOn_draw (hS : K.Closed S) (hf : DependsOn f S) :
    DependsOn (K.draw v f) S := by
  by_cases hv : v ∈ S
  · refine (K.dependsOn_draw hf).mono fun i hi => ?_
    rcases hi.1 with (rfl | hi) | hi
    exacts [hv, hS v hv hi, hi]
  · rwa [K.draw_eq_self hf hv]

/-! ## Several variables -/

@[simp] theorem expect_cons : K.expect (v :: vs) f = K.draw v (K.expect vs f) := rfl

theorem expect_append {ws : List Nat} : K.expect (vs ++ ws) f = K.expect vs (K.expect ws f) :=
  List.foldr_append

@[simp] theorem expect_one : K.expect vs 1 = 1 := by
  induction vs with
  | nil => rfl
  | cons v vs ih => rw [expect_cons, ih, draw, mul_one, K.sum_prob]

theorem expect_mul_left (hf : DependsOn f S) (hvs : ∀ v ∈ vs, v ∉ S) :
    K.expect vs (f * g) = f * K.expect vs g := by
  induction vs with
  | nil => rfl
  | cons v vs ih =>
    rw [expect_cons, ih fun w hw => hvs w (List.mem_cons_of_mem v hw), expect_cons,
      K.draw_mul hf (hvs v (by simp))]

theorem Closed.dependsOn_expect (hS : K.Closed S) (hf : DependsOn f S) :
    DependsOn (K.expect vs f) S := by
  induction vs with
  | nil => exact hf
  | cons v vs ih => exact hS.dependsOn_draw K ih

/-- **The sum of the products of all probabilities is a mean**, since nothing
    that is drawn later matters to a factor. -/
theorem sumAll_prod (h : K.InOrder vs) :
    sumAll K.card vs ((vs.map K.prob).prod * f) = K.expect vs f := by
  induction vs with
  | nil => exact one_mul f
  | cons v vs ih =>
    obtain ⟨hv, hvs⟩ := List.pairwise_cons.1 h
    rw [sumAll_cons, List.map_cons, List.prod_cons, mul_assoc,
      sumAll_mul (K.dependsOn_prob v) hv, ih hvs, expect_cons, draw]

/-! ## Independence -/

/-- **Functions without a common ancestor are independent.** -/
theorem expect_mul (hS : K.Closed S) (hT : K.Closed T) (hST : Disjoint S T)
    (hf : DependsOn f S) (hg : DependsOn g T) :
    K.expect vs (f * g) = K.expect vs f * K.expect vs g := by
  induction vs with
  | nil => rfl
  | cons v vs ih =>
    have hF : DependsOn (K.expect vs f) S := hS.dependsOn_expect K hf
    have hG : DependsOn (K.expect vs g) T := hT.dependsOn_expect K hg
    rw [expect_cons, ih, expect_cons, expect_cons]
    -- the variable belongs to one of the sets at most
    by_cases hv : v ∈ S
    · have hvT : v ∉ T := Set.disjoint_left.1 hST hv
      rw [K.draw_eq_self hG hvT, mul_comm, K.draw_mul hG hvT, mul_comm]
    · rw [K.draw_eq_self hF hv, K.draw_mul hF hv]

/-! ## Fixed parents -/

variable {x : Constraint}

theorem draw_meets (hx : x.state < K.card x.var) (a : Assignment) :
    K.draw x.var (meets [x]) a = K.prob x.var (Function.update a x.var x.state) := by
  simp only [draw, sumOver, Pi.mul_apply, meets, List.mem_singleton, forall_eq,
    Function.update_self, mul_ite, mul_one, mul_zero]
  rw [Finset.sum_ite_eq' _ x.state, if_pos (Finset.mem_range.2 hx)]

theorem dependsOn_draw_meets : DependsOn (K.draw x.var (meets [x])) (K.parents x.var) := by
  refine (K.dependsOn_draw (dependsOn_meets_singleton x)).mono fun i hi => ?_
  rcases hi.1 with (hi' | hi') | hi'
  exacts [absurd hi' hi.2, hi', absurd hi' hi.2]

/-- **Once its parents are fixed, a variable does not depend on anything that
    does not come from it**: its state has the same
    probability wherever a function of other variables is not zero. -/
theorem expect_meets_mul (h : K.InOrder vs) (hmem : x.var ∈ vs) (hx : x.state < K.card x.var)
    (hS : K.Closed S) (hxS : x.var ∉ S) (hf : DependsOn f S) {q : ℚ}
    (hq : ∀ a, f a ≠ 0 → K.prob x.var (Function.update a x.var x.state) = q) :
    K.expect vs (meets [x] * f) = (fun _ => q) * K.expect vs f := by
  obtain ⟨before, after, rfl⟩ := List.append_of_mem hmem
  have hafter := (List.pairwise_cons.1 (List.pairwise_append.1 h).2.1).1
  have hconst : DependsOn (fun _ : Assignment => q) ∅ := dependsOn_const q
  have hF : DependsOn (K.expect after f) S := hS.dependsOn_expect K hf
  have hfixed : K.draw x.var (meets [x]) * f = (fun _ => q) * f := by
    funext b
    by_cases hb : f b = 0
    · rw [Pi.mul_apply, Pi.mul_apply, hb, mul_zero, mul_zero]
    · rw [Pi.mul_apply, Pi.mul_apply, K.draw_meets hx, hq b hb]
  have hdraw : K.draw x.var (K.expect after (meets [x] * f)) = (fun _ => q) * K.expect after f :=
    calc K.draw x.var (K.expect after (meets [x] * f))
        = K.draw x.var (K.expect after f * meets [x]) := by
          rw [K.expect_mul_left (dependsOn_meets_singleton x) fun w hw he =>
            hafter w hw (Or.inl he), mul_comm]
      _ = K.draw x.var (meets [x]) * K.expect after f := by rw [K.draw_mul hF hxS, mul_comm]
      _ = K.expect after (K.draw x.var (meets [x]) * f) :=
          (K.expect_mul_left K.dependsOn_draw_meets fun w hw hp => hafter w hw (Or.inr hp)).symm
      _ = (fun _ => q) * K.expect after f := by rw [hfixed, K.expect_mul_left hconst fun _ _ => id]
  rw [expect_append, expect_append, expect_cons, expect_cons, hdraw, K.draw_eq_self hF hxS,
    K.expect_mul_left hconst fun _ _ => id]

end Kernels

end JointProb
