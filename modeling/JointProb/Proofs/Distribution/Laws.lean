/-
  JointProb — the laws of probability.

  * `Catalog.Admits` are the constraints on variables and states that exist;
  * `Distribution.sum_mass_append`: masses add up over the states of a
    variable, since every assignment has exactly one of them;
  * `Distribution.mass_congr` and `Distribution.mass_eq_zero`: only the set of
    constraints counts, and constraints that contradict each other have no
    mass;
  * `Distribution.conditional_eq_error` and `Distribution.conditional_eq_ok`:
    when a conditional probability is refused, and what it is otherwise;
  * `Distribution.Lawful` has the laws, and `Distribution.lawful`: every
    distribution of non-negative numbers with the sum one obeys them.
-/
import JointProb.Proofs.Catalog.InStep
import JointProb.Proofs.Distribution
import Mathlib.Algebra.BigOperators.Field
import Mathlib.Algebra.Order.BigOperators.Group.Finset

namespace JointProb

/-! ## Constraints -/

/-- Constraints on variables and states that exist. -/
def Catalog.Admits (c : Catalog) (fixed : List Constraint) : Prop :=
  ∀ x ∈ fixed, ∃ v, c.vars[x.var]? = some v ∧ x.state < v.cardinality

theorem Catalog.admits_append {c : Catalog} {xs ys : List Constraint} (hxs : c.Admits xs)
    (hys : c.Admits ys) : c.Admits (xs ++ ys) := by
  intro x hx
  rcases List.mem_append.1 hx with hx | hx
  · exact hxs x hx
  · exact hys x hx

theorem Catalog.admits_singleton {c : Catalog} {v s : Nat} {w : Variable}
    (hv : c.vars[v]? = some w) (hs : s < w.cardinality) : c.Admits [⟨v, s⟩] := by
  intro x hx
  rw [List.mem_singleton.1 hx]
  exact ⟨w, hv, hs⟩

theorem meets_nonneg (fixed : List Constraint) (a : Assignment) : 0 ≤ meets fixed a := by
  rw [meets]
  split_ifs
  · exact zero_le_one
  · exact le_rfl

theorem meets_le_one (fixed : List Constraint) (a : Assignment) : meets fixed a ≤ 1 := by
  rw [meets]
  split_ifs
  · exact le_rfl
  · exact zero_le_one

/-- An assignment meets one of the constraints on the state of a variable. -/
theorem sum_meets_append (fixed : List Constraint) {a : Assignment} {v k : Nat} (h : a v < k) :
    ∑ s ∈ Finset.range k, meets (fixed ++ [⟨v, s⟩]) a = meets fixed a := by
  have hone : ∑ s ∈ Finset.range k, meets [⟨v, s⟩] a = 1 := by
    simp only [meets, List.mem_singleton, forall_eq]
    rw [Finset.sum_ite_eq, if_pos (Finset.mem_range.2 h)]
  simp only [meets_append, Pi.mul_apply]
  rw [← Finset.mul_sum, hone, mul_one]

namespace Distribution

variable {d : Distribution ℚ} {t c : List Constraint}

/-! ## Masses -/

/-- **Masses add up over the states of a variable.** -/
theorem sum_mass_append (d : Distribution ℚ) (t : List Constraint) {v : Nat} {w : Variable}
    (hv : d.catalog.vars[v]? = some w) :
    ∑ s ∈ Finset.range w.cardinality, d.mass (t ++ [⟨v, s⟩]) = d.mass t := by
  simp only [mass_eq_sum]
  rw [Finset.sum_comm]
  refine Finset.sum_congr rfl fun i hi => ?_
  have hstate := Catalog.ofList_decode_lt (Finset.mem_range.1 hi) hv
  rw [← Finset.sum_mul, sum_meets_append t hstate]

/-- **Only the set of constraints counts**, not their order or how often they
    come, however numbers are added up: the same assignments agree with them. -/
theorem mass_congr {α : Type} [Scalar α] (d : Distribution α) (h : ∀ x, x ∈ t ↔ x ∈ c) :
    d.mass t = d.mass c := by
  have hagrees : agrees d.catalog.cardinalities t = agrees d.catalog.cardinalities c := by
    funext linear
    rw [Bool.eq_iff_iff, agrees, agrees, List.all_eq_true, List.all_eq_true]
    exact forall_congr' fun x => imp_congr_left (h x)
  rw [mass_eq, mass_eq, hagrees]

/-- **Constraints that contradict each other have no mass.** -/
theorem mass_eq_zero (d : Distribution ℚ) {x y : Constraint} (hx : x ∈ t) (hy : y ∈ t)
    (hvar : x.var = y.var) (hstate : x.state ≠ y.state) : d.mass t = 0 := by
  rw [mass_eq_sum]
  refine Finset.sum_eq_zero fun i _ => ?_
  have hnot : meets t (.ofList (d.catalog.decode i)) = 0 := by
    by_contra hne
    have hall := meets_ne_zero_iff.1 hne
    apply hstate
    calc x.state = Assignment.ofList (d.catalog.decode i) x.var := (hall x hx).symm
      _ = Assignment.ofList (d.catalog.decode i) y.var := by rw [hvar]
      _ = y.state := hall y hy
  rw [hnot, zero_mul]

theorem mass_nil (d : Distribution ℚ) : d.mass [] = d.probs.sum := by
  rw [mass_eq, Weights.compensatedSum_eq_sum]
  simp [agrees]

theorem getD_nonneg (hnonneg : ∀ p ∈ d.probs, 0 ≤ p) (i : Nat) : 0 ≤ (d.probs[i]?).getD 0 := by
  cases hi : d.probs[i]? with
  | none => exact le_rfl
  | some p => exact hnonneg p (List.mem_of_getElem? hi)

theorem mass_nonneg (hnonneg : ∀ p ∈ d.probs, 0 ≤ p) (t : List Constraint) : 0 ≤ d.mass t := by
  rw [mass_eq_sum]
  exact Finset.sum_nonneg fun i _ => mul_nonneg (meets_nonneg t _) (getD_nonneg hnonneg i)

/-- Further constraints leave less. -/
theorem mass_append_le (hnonneg : ∀ p ∈ d.probs, 0 ≤ p) (t c : List Constraint) :
    d.mass (t ++ c) ≤ d.mass c := by
  rw [mass_eq_sum, mass_eq_sum]
  refine Finset.sum_le_sum fun i _ => ?_
  rw [meets_append, Pi.mul_apply]
  refine mul_le_mul_of_nonneg_right ?_ (getD_nonneg hnonneg i)
  exact mul_le_of_le_one_left (meets_nonneg c _) (meets_le_one t _)

/-! ## Conditional probabilities -/

theorem check_of_admits {α : Type} {d : Distribution α} {t : List Constraint}
    (ht : d.catalog.Admits t) : d.check t = .ok () :=
  d.check_eq_ok_iff.2 ht

theorem probability_eq_ok (ht : d.catalog.Admits t) : d.probability t = .ok (d.mass t) := by
  rw [probability, check_of_admits ht]
  rfl

/-- **Conditions without mass are refused.** -/
theorem conditional_eq_error (ht : d.catalog.Admits t) (hc : d.catalog.Admits c) (hne : c ≠ [])
    (hzero : d.mass c = 0) :
    d.conditional t c = .error (.query (.zeroCondition (d.catalog.describe c))) := by
  have hempty : c.isEmpty = false := by simpa using hne
  rw [conditional, check_of_admits ht, check_of_admits hc]
  simp only [conditionalMass, hempty, hzero]
  rfl

/-- There are either conditions without mass or quotients of masses. -/
theorem mass_ne_zero (hsum : d.probs.sum = 1) (h : ¬ (c ≠ [] ∧ d.mass c = 0)) : d.mass c ≠ 0 := by
  intro hzero
  rcases eq_or_ne c [] with rfl | hne
  · rw [mass_nil, hsum] at hzero
    exact one_ne_zero hzero
  · exact h ⟨hne, hzero⟩

theorem conditional_eq_div (hsum : d.probs.sum = 1) (ht : d.catalog.Admits t)
    (hc : d.catalog.Admits c) (h : ¬ (c ≠ [] ∧ d.mass c = 0)) :
    d.conditional t c = .ok (d.mass (t ++ c) / d.mass c) :=
  d.conditional_eq_ok (check_of_admits ht) (check_of_admits hc) (d.mass_nil.trans hsum)
    (mass_ne_zero hsum h)

/-- A conditional probability counts as much as its conditions do. -/
theorem mul_of_conditional (hsum : d.probs.sum = 1) (ht : d.catalog.Admits t)
    (hc : d.catalog.Admits c) {p : ℚ} (h : d.conditional t c = .ok p) :
    ¬ (c ≠ [] ∧ d.mass c = 0) ∧ p * d.mass c = d.mass (t ++ c) := by
  have hdefined : ¬ (c ≠ [] ∧ d.mass c = 0) := by
    rintro ⟨hne, hzero⟩
    rw [conditional_eq_error ht hc hne hzero] at h
    cases h
  refine ⟨hdefined, ?_⟩
  rw [conditional_eq_div hsum ht hc hdefined] at h
  cases h
  exact div_mul_cancel₀ _ (mass_ne_zero hsum hdefined)

/-- The laws of probability, for all constraints on variables and states that
    exist. -/
structure Lawful (d : Distribution ℚ) : Prop where
  /-- Constraints have their mass as probability. -/
  probability_eq {t : List Constraint} (ht : d.catalog.Admits t) :
    d.probability t = .ok (d.mass t)
  /-- Probabilities add up over the states of a variable. -/
  sum_mass {t : List Constraint} {v : Nat} {w : Variable} (ht : d.catalog.Admits t)
    (hv : d.catalog.vars[v]? = some w) :
    (∀ s < w.cardinality, d.catalog.Admits (t ++ [⟨v, s⟩])) ∧
      ∑ s ∈ Finset.range w.cardinality, d.mass (t ++ [⟨v, s⟩]) = d.mass t
  /-- The order of constraints and their repetition do not matter. -/
  mass_eq {t u : List Constraint} (ht : d.catalog.Admits t) (h : ∀ x, x ∈ t ↔ x ∈ u) :
    d.catalog.Admits u ∧ d.mass t = d.mass u
  /-- Constraints that contradict each other have the probability zero. -/
  mass_contradiction {t : List Constraint} {x y : Constraint} (ht : d.catalog.Admits t)
    (hx : x ∈ t) (hy : y ∈ t) (hvar : x.var = y.var) (hstate : x.state ≠ y.state) :
    d.mass t = 0
  /-- Only conditions with the probability zero are refused. -/
  conditional_error_iff {t c : List Constraint} (ht : d.catalog.Admits t)
    (hc : d.catalog.Admits c) {e : Failure ℚ} : d.conditional t c = .error e ↔
      e = .query (.zeroCondition (d.catalog.describe c)) ∧ c ≠ [] ∧ d.mass c = 0
  /-- Otherwise there is a probability that counts as much as the conditions
      do. -/
  exists_conditional {t c : List Constraint} (ht : d.catalog.Admits t)
    (hc : d.catalog.Admits c) (h : ¬ (c ≠ [] ∧ d.mass c = 0)) :
    ∃ p, d.conditional t c = .ok p ∧ 0 ≤ p ∧ p ≤ 1 ∧ p * d.mass c = d.mass (t ++ c)
  /-- The states of a variable exhaust what the conditions leave. -/
  sum_conditional {c : List Constraint} {v : Nat} {w : Variable} (hc : d.catalog.Admits c)
    (hv : d.catalog.vars[v]? = some w) (h : ¬ (c ≠ [] ∧ d.mass c = 0)) :
    ∃ p : Nat → ℚ, (∀ s < w.cardinality, d.conditional [⟨v, s⟩] c = .ok (p s)) ∧
      ∑ s ∈ Finset.range w.cardinality, p s = 1
  /-- Targets and conditions can be exchanged. -/
  bayes {t c : List Constraint} (ht : d.catalog.Admits t) (hc : d.catalog.Admits c) {p q : ℚ}
    (hp : d.conditional t c = .ok p) (hq : d.conditional c t = .ok q) :
    p * d.mass c = q * d.mass t

/-- **Distributions obey the laws of probability**: non-negative numbers with
    the sum one, one for each assignment, are enough. -/
theorem lawful (hnonneg : ∀ p ∈ d.probs, 0 ≤ p) (hsum : d.probs.sum = 1) : d.Lawful where
  probability_eq ht := probability_eq_ok ht
  sum_mass ht hv :=
    ⟨fun _ hs => Catalog.admits_append ht (Catalog.admits_singleton hv hs),
      d.sum_mass_append _ hv⟩
  mass_eq ht h := ⟨fun x hx => ht x ((h x).2 hx), d.mass_congr h⟩
  mass_contradiction _ hx hy hvar hstate := d.mass_eq_zero hx hy hvar hstate
  conditional_error_iff {t c} ht hc e := by
    constructor
    · intro he
      by_cases h : c ≠ [] ∧ d.mass c = 0
      · rw [conditional_eq_error ht hc h.1 h.2] at he
        exact ⟨(Except.error.inj he).symm, h⟩
      · rw [conditional_eq_div hsum ht hc h] at he
        cases he
    · rintro ⟨rfl, hne, hzero⟩
      exact conditional_eq_error ht hc hne hzero
  exists_conditional {t c} ht hc h := by
    have hpos : 0 < d.mass c :=
      lt_of_le_of_ne (mass_nonneg hnonneg c) (mass_ne_zero hsum h).symm
    refine ⟨_, conditional_eq_div hsum ht hc h, ?_, ?_, ?_⟩
    · exact div_nonneg (mass_nonneg hnonneg _) hpos.le
    · exact (div_le_one₀ hpos).2 (mass_append_le hnonneg t c)
    · exact div_mul_cancel₀ _ hpos.ne'
  sum_conditional {c v w} hc hv h := by
    refine ⟨fun s => d.mass ([⟨v, s⟩] ++ c) / d.mass c, fun s hs => ?_, ?_⟩
    · exact conditional_eq_div hsum (Catalog.admits_singleton hv hs) hc h
    · have hswap : ∀ s, d.mass ([⟨v, s⟩] ++ c) = d.mass (c ++ [⟨v, s⟩]) :=
        fun s => d.mass_congr fun x => by simp [or_comm]
      simp only [hswap]
      rw [← Finset.sum_div, d.sum_mass_append c hv, div_self (mass_ne_zero hsum h)]
  bayes {t c} ht hc p q hp hq := by
    calc p * d.mass c = d.mass (t ++ c) := (mul_of_conditional hsum ht hc hp).2
      _ = d.mass (c ++ t) := d.mass_congr fun x => by simp [or_comm]
      _ = q * d.mass t := (mul_of_conditional hsum hc ht hq).2.symm

/-- Three and two states, one of them without mass. -/
theorem lawful_dark :
    let sky : Variable := ⟨"Sky", ["Clear", "Grey", "Dark"]⟩
    let d : Distribution ℚ :=
      ⟨.of [sky, .boolean "Late"], [1/2, 1/8, 1/4, 1/8, 0, 0], rfl⟩
    (∀ p ∈ d.probs, 0 ≤ p) ∧ d.probs.sum = 1 ∧ d.Lawful ∧
      d.conditional [⟨1, 1⟩] [⟨0, 1⟩] = .ok (1/3) ∧
      d.conditional [⟨1, 1⟩] [⟨0, 2⟩] = .error (.query (.zeroCondition "Sky=Dark")) := by
  intro sky d
  have hnonneg : ∀ p ∈ d.probs, 0 ≤ p := by decide +kernel
  have hsum : d.probs.sum = 1 := by decide +kernel
  exact ⟨hnonneg, hsum, lawful hnonneg hsum, by decide +kernel, by decide +kernel⟩

end Distribution

end JointProb
