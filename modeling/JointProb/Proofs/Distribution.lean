/-
  JointProb — probabilities as sums.

  * `Distribution.mass_eq`: without constraints all entries are added up, as for
    constraints that all assignments agree with;
  * `Distribution.mass_eq_sum`: a mass is the sum over the assignments that
    meet the constraints;
  * `Distribution.mass_of_full`: the mass of one full assignment is its entry;
  * `Distribution.check_eq_ok_iff`: the constraints that are accepted;
  * `Distribution.conditional_eq_ok`: a conditional probability is a quotient
    of masses.
-/
import JointProb.Distribution
import JointProb.Proofs.Assignment
import JointProb.Proofs.Exact
import JointProb.Proofs.Result

namespace JointProb

theorem Weights.sum_filter_zipIdx {M : Type} [AddCommMonoid M] (ws : List M) (p : Nat → Bool)
    (start : Nat) :
    (((ws.zipIdx start).filter fun (_, i) => p i).map Prod.fst).sum =
      ∑ i ∈ Finset.range ws.length, if p (start + i) then (ws[i]?).getD 0 else 0 := by
  induction ws generalizing start with
  | nil => simp
  | cons w ws ih =>
    rw [List.zipIdx_cons, List.length_cons, Finset.sum_range_succ', List.filter_cons]
    have hshift : ∀ i, start + 1 + i = start + (i + 1) := fun i => by omega
    have ih := ih (start + 1)
    simp only [hshift] at ih
    cases hp : p start with
    | true => simp [ih, hp, add_comm w]
    | false => simp [ih, hp]

/-- A property that one position of a list has picks what stands there. -/
theorem filter_zipIdx_eq_singleton {β : Type} {ws : List β} {w : β} {k : Nat} {p : Nat → Bool}
    (hk : ws[k]? = some w) (hp : ∀ i < ws.length, p i = true ↔ i = k) :
    ws.zipIdx.filter (fun (_, i) => p i) = [(w, k)] := by
  have hnodup : ws.zipIdx.Nodup :=
    .of_map Prod.snd (by rw [List.zipIdx_map_snd]; exact List.nodup_range')
  rw [← List.perm_singleton,
    List.perm_ext_iff_of_nodup (hnodup.filter _) (List.nodup_singleton _)]
  rintro ⟨u, i⟩
  rw [List.mem_filter, List.mem_zipIdx_iff_getElem?, List.mem_singleton, Prod.mk.injEq]
  constructor
  · rintro ⟨hu, hi⟩
    obtain rfl := (hp i (List.getElem?_eq_some_iff.1 hu).1).1 hi
    exact ⟨Option.some_inj.1 (hu.symm.trans hk), rfl⟩
  · rintro ⟨rfl, rfl⟩
    exact ⟨hk, (hp _ (List.getElem?_eq_some_iff.1 hk).1).2 rfl⟩

namespace Distribution

/-- **The constraints that are accepted**: those on states that exist. -/
theorem check_eq_ok_iff {α : Type} (d : Distribution α) {fixed : List Constraint} :
    d.check fixed = .ok () ↔
      ∀ x ∈ fixed, ∃ v, d.catalog.vars[x.var]? = some v ∧ x.state < v.cardinality := by
  induction fixed with
  | nil => simp [check]
  | cons x xs ih =>
    rw [check, List.forall_mem_cons]
    cases hv : d.catalog.vars[x.var]? with
    | none => simp
    | some v =>
      by_cases hx : x.state < v.cardinality
      · simp [hx, ih]
      · simp [hx]

/-- One assignment agrees with constraints on all variables. -/
theorem agrees_iff_of_full {radices states : List Nat} (h : MixedRadix.Below radices states)
    {fixed : List Constraint} (hfixed : ∀ x, x ∈ fixed ↔ states[x.var]? = some x.state) {n : Nat}
    (hn : n < MixedRadix.size radices) :
    agrees radices fixed n = true ↔ n = MixedRadix.value radices states := by
  have hdigit {i s : Nat} (hs : states[i]? = some s) :
      MixedRadix.digit radices i n = s ↔ (MixedRadix.digits radices n)[i]? = some s := by
    have hlt : i < radices.length := h.length_eq ▸ (List.getElem?_eq_some_iff.1 hs).1
    rw [MixedRadix.getElem?_digits _ _ _ hlt, Option.some_inj]
  have hagrees : agrees radices fixed n = true ↔ MixedRadix.digits radices n = states := by
    simp only [agrees, List.all_eq_true, beq_iff_eq]
    constructor
    · intro hall
      refine List.ext_getElem? fun i => ?_
      cases hs : states[i]? with
      | some s => exact (hdigit hs).1 (hall ⟨i, s⟩ ((hfixed _).2 hs))
      | none =>
        rw [List.getElem?_eq_none_iff] at hs ⊢
        rwa [MixedRadix.length_digits, ← h.length_eq]
    · rintro heq x hx
      have hs := (hfixed x).1 hx
      exact (hdigit hs).2 (heq ▸ hs)
  rw [hagrees]
  constructor
  · rintro rfl
    exact (MixedRadix.value_digits hn).symm
  · rintro rfl
    exact MixedRadix.digits_value h

/-- **The entries that agree with constraints are added up**, however numbers are
    added, and without constraints that is all of them. -/
theorem mass_eq {α : Type} [Scalar α] (d : Distribution α) (fixed : List Constraint) :
    d.mass fixed = Weights.compensatedSum ((d.probs.zipIdx.filter fun (_, linear) =>
      agrees d.catalog.cardinalities fixed linear).map Prod.fst) := by
  cases fixed with
  | nil =>
    have hall : (d.probs.zipIdx.filter fun (_, linear) =>
        agrees d.catalog.cardinalities [] linear) = d.probs.zipIdx :=
      List.filter_eq_self.2 fun _ _ => rfl
    rw [hall, List.zipIdx_map_fst]
    rfl
  | cons x xs => rfl

/-- **The mass of one full assignment is its entry**, when nothing is rounded. -/
theorem mass_of_full {α : Type} [Scalar α] (h : Scalar.Lossless α) {d : Distribution α}
    {states : List Nat} (hbelow : MixedRadix.Below d.catalog.cardinalities states)
    {fixed : List Constraint} (hfixed : ∀ x, x ∈ fixed ↔ states[x.var]? = some x.state) {p : α}
    (hp : d.probs[d.catalog.encode states]? = some p) : d.mass fixed = p := by
  have honly (i : Nat) (hi : i < d.probs.length) :
      agrees d.catalog.cardinalities fixed i = true ↔ i = d.catalog.encode states :=
    agrees_iff_of_full hbelow hfixed (hi.trans_eq d.length_probs)
  rw [mass_eq, filter_zipIdx_eq_singleton hp honly, Weights.compensatedSum_of_lossless h]
  exact h.add_zero p

variable (d : Distribution ℚ)

/-- **A mass is the sum over the assignments that meet the constraints.** -/
theorem mass_eq_sum (fixed : List Constraint) :
    d.mass fixed = ∑ i ∈ Finset.range d.catalog.size,
      meets fixed (.ofList (d.catalog.decode i)) * (d.probs[i]?).getD 0 := by
  rw [mass_eq, Weights.compensatedSum_eq_sum, Weights.sum_filter_zipIdx, d.length_probs]
  refine Finset.sum_congr rfl fun i _ => ?_
  have hiff : agrees d.catalog.cardinalities fixed (0 + i) ↔
      ∀ x ∈ fixed, Assignment.ofList (d.catalog.decode i) x.var = x.state := by
    simp [agrees, MixedRadix.digit_eq_getD, Catalog.decode]
  by_cases h : ∀ x ∈ fixed, Assignment.ofList (d.catalog.decode i) x.var = x.state
  · rw [if_pos (hiff.2 h), meets, if_pos h, one_mul]
  · rw [if_neg (mt hiff.1 h), meets, if_neg h, zero_mul]

/-- If all probabilities have the sum one, a conditional probability is a
    quotient of masses, with or without conditions. -/
theorem conditional_eq_ok {targets conditions : List Constraint}
    (htargets : d.check targets = .ok ()) (hconditions : d.check conditions = .ok ())
    (hone : d.mass [] = 1) (hne : d.mass conditions ≠ 0) :
    d.conditional targets conditions =
      .ok (d.mass (targets ++ conditions) / d.mass conditions) := by
  rw [conditional, htargets, hconditions]
  refine mapError_eq_ok.2 ?_
  rw [conditionalMass]
  cases conditions with
  | nil => simp [hone]
  | cons x xs => simp [hne]

end Distribution

end JointProb
