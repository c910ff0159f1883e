/-
  JointProb — sums over assignments.

  An assignment is here a function with a state for every position, so that
  one state can be replaced while the others stay.

  * `Assignment.ofList` reads a list of states in this way;
  * `sumOver` sums over the states of one variable, `sumAll` over those of
    several, which may be in any order;
  * `sum_digits`: the sum over all numbers below a size is the sum over the
    states of all variables;
  * `meets` counts the assignments that meet constraints.
-/
import JointProb.Catalog.Basic
import JointProb.Proofs.MixedRadix
import Mathlib.Algebra.Order.Field.Rat
import Mathlib.Algebra.BigOperators.Fin
import Mathlib.Algebra.BigOperators.Ring.Finset
import Mathlib.Data.List.Perm.Basic
import Mathlib.Logic.Function.DependsOn

namespace JointProb

/-- The states of all variables by their positions. -/
abbrev Assignment := Nat → Nat

/-- The assignment with the given first states; the others are zero. -/
def Assignment.ofList (states : List Nat) : Assignment := fun v => (states[v]?).getD 0

theorem Assignment.ofList_nil : ofList [] = fun _ => 0 := by
  funext v
  simp [ofList]

theorem Assignment.ofList_append_singleton (states : List Nat) (s : Nat) :
    ofList (states ++ [s]) = Function.update (ofList states) states.length s := by
  funext v
  rcases lt_trichotomy v states.length with hlt | rfl | hgt
  · simp [ofList, Function.update_of_ne hlt.ne, List.getElem?_append_left hlt]
  · simp [ofList]
  · simp [ofList, Function.update_of_ne hgt.ne', List.getElem?_append_right hgt.le,
      Nat.sub_ne_zero_of_lt hgt, hgt.le]

/-- Any states of different variables are those of an assignment. -/
theorem Assignment.exists_map_eq {vs ds : List Nat} (hnodup : vs.Nodup)
    (hlen : ds.length = vs.length) : ∃ a : Assignment, vs.map a = ds := by
  induction vs generalizing ds with
  | nil => exact ⟨fun _ => 0, (List.length_eq_zero_iff.1 hlen).symm⟩
  | cons v vs ih =>
    obtain ⟨hv, hnodup⟩ := List.nodup_cons.1 hnodup
    obtain ⟨d, ds, rfl⟩ := List.exists_cons_of_length_eq_add_one hlen
    obtain ⟨a, rfl⟩ := ih hnodup (Nat.succ.inj hlen)
    refine ⟨Function.update a v d, ?_⟩
    rw [List.map_cons, Function.update_self]
    congr 1
    refine List.map_congr_left fun u hu => Function.update_of_ne ?_ _ _
    rintro rfl
    exact hv hu

/-- Every numbered assignment has a state for every variable. -/
theorem Catalog.ofList_decode_lt {c : Catalog} {i v : Nat} {w : Variable} (hi : i < c.size)
    (hv : c.vars[v]? = some w) : Assignment.ofList (c.decode i) v < w.cardinality := by
  have hbelow : MixedRadix.Below c.cardinalities (c.decode i) := MixedRadix.below_digits hi
  have hradix : c.cardinalities[v]? = some w.cardinality := by simp [cardinalities, hv]
  obtain ⟨hlt, hcard⟩ := List.getElem?_eq_some_iff.1 hradix
  have hlt' : v < (c.decode i).length := hbelow.length_eq ▸ hlt
  have hdigit := (List.forall₂_iff_get.1 hbelow).2 v hlt' hlt
  simpa [Assignment.ofList, hlt', hcard] using hdigit

/-! ## Sums over variables -/

/-- The sum over the states of a variable, given the numbers of states. -/
def sumOver (k : Nat → Nat) (v : Nat) (f : Assignment → ℚ) : Assignment → ℚ :=
  fun a => ∑ s ∈ Finset.range (k v), f (Function.update a v s)

/-- The sum over the states of several variables. -/
def sumAll (k : Nat → Nat) (vs : List Nat) (f : Assignment → ℚ) : Assignment → ℚ :=
  vs.foldr (sumOver k) f

section

variable {k : Nat → Nat} {v : Nat} {f g : Assignment → ℚ} {S : Set Nat}

@[simp] theorem sumAll_nil : sumAll k [] f = f := rfl

@[simp] theorem sumAll_cons {vs : List Nat} :
    sumAll k (v :: vs) f = sumOver k v (sumAll k vs f) := rfl

theorem sumAll_append {vs ws : List Nat} : sumAll k (vs ++ ws) f = sumAll k vs (sumAll k ws f) :=
  List.foldr_append

/-- What does not depend on a variable keeps its value when the state changes. -/
theorem apply_update (hf : DependsOn f S) (hv : v ∉ S) (a : Assignment) (s : Nat) :
    f (Function.update a v s) = f a := by
  refine hf fun i hi => Function.update_of_ne ?_ _ _
  rintro rfl
  exact hv hi

theorem dependsOn_mul {T : Set Nat} (hf : DependsOn f S) (hg : DependsOn g T) :
    DependsOn (f * g) (S ∪ T) := fun a b h => by
  rw [Pi.mul_apply, Pi.mul_apply, hf fun i hi => h i (Or.inl hi), hg fun i hi => h i (Or.inr hi)]

theorem dependsOn_sumOver (hf : DependsOn f S) : DependsOn (sumOver k v f) (S \ {v}) := by
  refine fun a b h => Finset.sum_congr rfl fun s _ => hf fun i hi => ?_
  by_cases hiv : i = v
  · rw [hiv, Function.update_self, Function.update_self]
  · rw [Function.update_of_ne hiv, Function.update_of_ne hiv]
    exact h i ⟨hi, hiv⟩

/-- A factor that does not depend on the variable can be taken out of a sum. -/
theorem sumOver_mul (hf : DependsOn f S) (hv : v ∉ S) :
    sumOver k v (f * g) = f * sumOver k v g := by
  funext a
  simp only [sumOver, Pi.mul_apply, apply_update hf hv, Finset.mul_sum]

theorem sumAll_mul {vs : List Nat} (hf : DependsOn f S) (hvs : ∀ v ∈ vs, v ∉ S) :
    sumAll k vs (f * g) = f * sumAll k vs g := by
  induction vs with
  | nil => rfl
  | cons v vs ih =>
    rw [sumAll_cons, ih fun w hw => hvs w (List.mem_cons_of_mem v hw), sumAll_cons,
      sumOver_mul hf (hvs v (by simp))]

theorem sumOver_comm (v w : Nat) :
    sumOver k v (sumOver k w f) = sumOver k w (sumOver k v f) := by
  rcases eq_or_ne v w with rfl | hne
  · rfl
  · funext a
    simp only [sumOver]
    rw [Finset.sum_comm]
    simp only [Function.update_comm hne]

/-- **Sums over several variables may be in any order.** -/
theorem sumAll_perm {vs ws : List Nat} (h : vs.Perm ws) : sumAll k vs f = sumAll k ws f :=
  h.foldr_eq' (fun v _ w _ _ => sumOver_comm w v) f

end

/-! ## Sums over numbers -/

namespace MixedRadix

theorem size_append_singleton (rs : List Nat) (r : Nat) : size (rs ++ [r]) = size rs * r := by
  simp [size_eq_prod]

theorem digits_append_singleton {r s : Nat} (rs : List Nat) (n : Nat) (hs : s < r) :
    digits (rs ++ [r]) (n * r + s) = digits rs n ++ [s] := by
  have hdiv : (n * r + s) / r = n := by
    rw [Nat.mul_comm, Nat.mul_add_div (Nat.zero_lt_of_lt hs), Nat.div_eq_of_lt hs, Nat.add_zero]
  induction rs with
  | nil => simp [digits, size, Nat.mod_eq_of_lt hs]
  | cons q rs ih =>
    rw [List.cons_append, digits, ih, digits, size_append_singleton, Nat.mul_comm (size rs),
      ← Nat.div_div_eq_div_mul, hdiv, List.cons_append]

theorem sum_range_mul (f : Nat → ℚ) (m r : Nat) :
    ∑ i ∈ Finset.range (m * r), f i =
      ∑ i ∈ Finset.range m, ∑ s ∈ Finset.range r, f (i * r + s) := by
  induction m with
  | zero => simp
  | succ m ih => rw [Nat.succ_mul, Finset.sum_range_add, ih, Finset.sum_range_succ]

/-- **The sum over all numbers is the sum over the digits at all places.** -/
theorem sum_digits {k : Nat → Nat} {rs : List Nat} (hk : ∀ v (h : v < rs.length), k v = rs[v])
    (f : Assignment → ℚ) : ∑ i ∈ Finset.range (size rs), f (.ofList (digits rs i)) =
      sumAll k (List.range rs.length) f fun _ => 0 := by
  induction rs using List.reverseRecOn generalizing f with
  | nil => simp [size, digits, Assignment.ofList_nil]
  | append_singleton rs r ih =>
    have hr : k rs.length = r := by simpa using hk rs.length (by simp)
    have hrs : ∀ v (h : v < rs.length), k v = rs[v] := fun v h => by
      rw [hk v (by simp; omega), List.getElem_append_left h]
    rw [List.length_append, List.length_singleton, List.range_succ, sumAll_append, ← ih hrs,
      size_append_singleton, sum_range_mul]
    refine Finset.sum_congr rfl fun i _ => ?_
    rw [sumAll_cons, sumAll_nil, sumOver, hr]
    refine Finset.sum_congr rfl fun s hs => ?_
    rw [digits_append_singleton rs i (Finset.mem_range.1 hs), Assignment.ofList_append_singleton,
      length_digits]

theorem digit_eq_getD (rs : List Nat) (n v : Nat) :
    digit rs v n = Assignment.ofList (digits rs n) v := by
  induction rs generalizing v with
  | nil => simp [digit, digits, Assignment.ofList]
  | cons r rs ih =>
    cases v with
    | zero => rfl
    | succ v => simpa [digit, digits, Assignment.ofList] using ih v

end MixedRadix

/-! ## Constraints -/

/-- One where an assignment meets constraints, zero elsewhere. -/
def meets (fixed : List Constraint) (a : Assignment) : ℚ :=
  if ∀ x ∈ fixed, a x.var = x.state then 1 else 0

@[simp] theorem meets_nil : meets [] = 1 := by
  funext a
  simp [meets]

theorem meets_ne_zero_iff {fixed : List Constraint} {a : Assignment} :
    meets fixed a ≠ 0 ↔ ∀ x ∈ fixed, a x.var = x.state := by
  rw [meets]
  split_ifs with h
  · exact iff_of_true one_ne_zero h
  · exact iff_of_false (not_not.2 rfl) h

theorem meets_append (xs ys : List Constraint) : meets (xs ++ ys) = meets xs * meets ys := by
  funext a
  simp only [meets, Pi.mul_apply, List.forall_mem_append]
  split_ifs <;> simp_all

theorem dependsOn_meets (fixed : List Constraint) :
    DependsOn (meets fixed) {v | ∃ x ∈ fixed, x.var = v} := fun a b h => by
  have hiff : (∀ x ∈ fixed, a x.var = x.state) ↔ ∀ x ∈ fixed, b x.var = x.state :=
    forall₂_congr fun x hx => by rw [h x.var ⟨x, hx, rfl⟩]
  simp only [meets, hiff]

theorem dependsOn_meets_singleton (x : Constraint) : DependsOn (meets [x]) {x.var} :=
  (dependsOn_meets [x]).mono (by simp)

end JointProb
