/-
  JointProb — questions about independence.

  An answer compares, for all states of two variables, how far the measure of
  both is from the product of the measures of each.

  * `Distribution.deviation` is what is compared;
    `Distribution.independentUnder_iff` and `Distribution.condIndependent_iff`
    are all the comparisons;
  * `Distribution.deviation_comm`: it is the same both ways if the factors of a
    product may be exchanged;
  * `Distribution.IsMeasure.deviation_eq`: between two variables with two states
    all deviations are the same, so that one of them decides:
    `Distribution.decidedByCell`.
-/
import JointProb.Proofs.Query.Positions
import JointProb.Proofs.Network.Basic
import Mathlib.Tactic.IntervalCases

namespace JointProb

/-! ## What is compared -/

namespace Distribution

theorem mem_choices {α : Type} {d : Distribution α} {v : Nat} {x : Constraint} :
    x ∈ d.choices v ↔ x.var = v ∧ x.state < d.catalog.cardinalityAt v := by
  rw [choices, Catalog.cardinalityAt, Catalog.cardinalities, List.getElem?_map, List.mem_map]
  constructor
  · rintro ⟨s, hs, rfl⟩
    exact ⟨rfl, List.mem_range.1 hs⟩
  · rintro ⟨rfl, hs⟩
    exact ⟨x.state, List.mem_range.2 hs, rfl⟩

section

variable {α : Type} [Scalar α] {d : Distribution α} {measure : List Constraint → α}
  {tolerance : α} {a b given : Nat}

/-- How far the measure of two constraints is from the product of their
    measures. -/
def deviation (measure : List Constraint → α) (x y : Constraint) : α :=
  Scalar.abs (measure [x, y] - measure [x] * measure [y])

/-- The measure of constraints among the assignments that meet another one. -/
def massGiven (d : Distribution α) (z : Constraint) (fixed : List Constraint) : α :=
  d.mass (fixed ++ [z]) / d.mass [z]

/-- No state of one variable and state of the other one deviate by more than the
    tolerance. -/
theorem independentUnder_iff : d.independentUnder measure tolerance a b ↔
    ∀ x ∈ d.choices a, ∀ y ∈ d.choices b, ¬ tolerance < deviation measure x y := by
  simp [independentUnder, deviation]

/-- So it is given each state of the third variable that has a mass. -/
theorem condIndependent_iff : d.condIndependent tolerance a b given ↔
    ∀ z ∈ d.choices given, ¬ d.mass [z] ≤ 0 →
      d.independentUnder (d.massGiven z) tolerance a b := by
  simp only [condIndependent, List.all_eq_true]
  refine forall₂_congr fun z _ => ?_
  split_ifs with hz
  · simp [hz]
  · exact ⟨fun h _ => h, fun h => h hz⟩

end

end Distribution

namespace Query

variable {α : Type} [Scalar α] {d : Distribution α} {tolerances : Tolerances α} {a b given : Nat}

theorem evaluateWith_independence (ha : a < d.catalog.vars.length)
    (hb : b < d.catalog.vars.length) :
    evaluateWith d tolerances (.independence a b) =
      .ok (.truth (d.independent tolerances.independence a b)) := by
  rw [evaluateWith, inRange, variableInRange_eq_ok ha, variableInRange_eq_ok hb]
  rfl

theorem evaluateWith_condIndependence (ha : a < d.catalog.vars.length)
    (hb : b < d.catalog.vars.length) (hgiven : given < d.catalog.vars.length) :
    evaluateWith d tolerances (.condIndependence a b given) =
      .ok (.truth (d.condIndependent tolerances.independence a b given)) := by
  rw [evaluateWith, inRange, variableInRange_eq_ok ha, variableInRange_eq_ok hb,
    variableInRange_eq_ok hgiven]
  rfl

end Query

/-! ## Both ways -/

namespace Distribution

section

variable {α : Type} [Scalar α] {measure : List Constraint → α}

/-- **The order of constraints does not matter**, however numbers are added up. -/
theorem mass_perm (d : Distribution α) {fixed fixed' : List Constraint} (h : fixed.Perm fixed') :
    d.mass fixed = d.mass fixed' :=
  d.mass_congr fun _ => h.mem_iff

theorem massGiven_perm (d : Distribution α) (z : Constraint) {fixed fixed' : List Constraint}
    (h : fixed.Perm fixed') : d.massGiven z fixed = d.massGiven z fixed' := by
  rw [massGiven, massGiven, d.mass_perm (h.append_right [z])]

/-- A deviation is the same both ways if the factors of a product may be
    exchanged. -/
theorem deviation_comm (hmul : ∀ x y : α, x * y = y * x)
    (hmeasure : ∀ x y, measure [x, y] = measure [y, x]) (x y : Constraint) :
    deviation measure x y = deviation measure y x := by
  rw [deviation, deviation, hmeasure, hmul]

end

/-! ## One pair of states -/

variable {d : Distribution ℚ} {measure : List Constraint → ℚ} {tolerance : ℚ}
  {tolerances : Tolerances ℚ} {a b given : Nat} {v w : Variable}

/-- A measure of constraints that adds up over the states of a variable, with the
    total one. -/
structure IsMeasure (d : Distribution ℚ) (measure : List Constraint → ℚ) : Prop where
  nil_eq_one : measure [] = 1
  sum_append (fixed : List Constraint) {a : Nat} {v : Variable}
    (hv : d.catalog.vars[a]? = some v) :
    ∑ s ∈ Finset.range v.cardinality, measure (fixed ++ [⟨a, s⟩]) = measure fixed
  comm (x y : Constraint) : measure [x, y] = measure [y, x]

theorem isMeasure_mass (hsum : d.probs.sum = 1) : d.IsMeasure d.mass where
  nil_eq_one := d.mass_nil.trans hsum
  sum_append fixed _ _ hv := d.sum_mass_append fixed hv
  comm x y := d.mass_perm (.swap y x [])

theorem isMeasure_massGiven {z : Constraint} (hz : d.mass [z] ≠ 0) :
    d.IsMeasure (d.massGiven z) where
  nil_eq_one := div_self hz
  sum_append fixed a v hv := by
    have hmove (s : Nat) : d.massGiven z (fixed ++ [⟨a, s⟩]) =
        d.mass (fixed ++ [z] ++ [⟨a, s⟩]) / d.mass [z] := by
      rw [massGiven, List.append_assoc, List.append_assoc,
        d.mass_perm (List.perm_append_comm.append_left fixed)]
    simp only [hmove]
    rw [← Finset.sum_div, d.sum_mass_append _ hv, massGiven]
  comm x y := d.massGiven_perm z (.swap y x [])

/-- What both constraints have more than the product, or less. -/
def excess (measure : List Constraint → ℚ) (x y : Constraint) : ℚ :=
  measure [x, y] - measure [x] * measure [y]

theorem deviation_eq_abs (x y : Constraint) : deviation measure x y = |excess measure x y| :=
  Scalar.abs_eq_abs _

/-- Over all states of a variable, the excess is made up for. -/
theorem IsMeasure.sum_excess (h : d.IsMeasure measure) (x : Constraint)
    (hb : d.catalog.vars[b]? = some w) :
    ∑ s ∈ Finset.range w.cardinality, excess measure x ⟨b, s⟩ = 0 := by
  have hpair := h.sum_append [x] hb
  have hone := h.sum_append [] hb
  simp only [excess, Finset.sum_sub_distrib, ← Finset.mul_sum]
  simp only [List.singleton_append, List.nil_append] at hpair hone
  rw [hpair, hone, h.nil_eq_one, mul_one, sub_self]

/-- A variable with two states deviates alike in both. -/
theorem IsMeasure.deviation_eq_right (h : d.IsMeasure measure) (x : Constraint)
    (hb : d.catalog.vars[b]? = some w) (hw : w.cardinality = 2) {j j' : Nat} (hj : j < 2)
    (hj' : j' < 2) : deviation measure x ⟨b, j⟩ = deviation measure x ⟨b, j'⟩ := by
  have hsum := h.sum_excess x hb
  rw [hw, Finset.sum_range_succ, Finset.sum_range_one] at hsum
  have hopposite : |excess measure x ⟨b, 0⟩| = |excess measure x ⟨b, 1⟩| := by
    rw [eq_neg_of_add_eq_zero_left hsum, abs_neg]
  simp only [deviation_eq_abs]
  interval_cases j <;> interval_cases j' <;> simp [hopposite]

/-- **Two variables with two states each deviate alike in all states.** -/
theorem IsMeasure.deviation_eq (h : d.IsMeasure measure) (ha : d.catalog.vars[a]? = some v)
    (hv : v.cardinality = 2) (hb : d.catalog.vars[b]? = some w) (hw : w.cardinality = 2)
    {i i' j j' : Nat} (hi : i < 2) (hi' : i' < 2) (hj : j < 2) (hj' : j' < 2) :
    deviation measure ⟨a, i⟩ ⟨b, j⟩ = deviation measure ⟨a, i'⟩ ⟨b, j'⟩ := by
  have hcomm := deviation_comm mul_comm h.comm
  rw [h.deviation_eq_right _ hb hw hj hj', hcomm, h.deviation_eq_right _ ha hv hi hi', hcomm]

/-- One pair of states decides. -/
theorem IsMeasure.independentUnder_iff_cell (h : d.IsMeasure measure) {x y : Constraint}
    (hv : d.catalog.vars[x.var]? = some v) (hvtwo : v.cardinality = 2)
    (hw : d.catalog.vars[y.var]? = some w) (hwtwo : w.cardinality = 2) (hx : x.state < 2)
    (hy : y.state < 2) : d.independentUnder measure tolerance x.var y.var ↔
      deviation measure x y ≤ tolerance := by
  have hcard {a : Nat} {v : Variable} (hv : d.catalog.vars[a]? = some v)
      (htwo : v.cardinality = 2) (s : Nat) : s < d.catalog.cardinalityAt a ↔ s < 2 := by
    rw [Catalog.lt_cardinalityAt_iff, hv]
    simp [htwo]
  rw [independentUnder_iff]
  constructor
  · intro hall
    exact not_lt.1 (hall x (mem_choices.2 ⟨rfl, (hcard hv hvtwo _).2 hx⟩)
      y (mem_choices.2 ⟨rfl, (hcard hw hwtwo _).2 hy⟩))
  · rintro hle ⟨a, i⟩ hi ⟨b, j⟩ hj
    obtain ⟨rfl, hi⟩ := mem_choices.1 hi
    obtain ⟨rfl, hj⟩ := mem_choices.1 hj
    rw [h.deviation_eq hv hvtwo hw hwtwo ((hcard hv hvtwo _).1 hi) hx ((hcard hw hwtwo _).1 hj) hy]
    exact not_lt.2 hle

/-- The probabilities of two constraints, of one and of the other are answered,
    and the first is that far from the product. -/
def Deviates (probability : List Constraint → Except (Failure ℚ) ℚ) (x y : Constraint) (e : ℚ) :
    Prop :=
  ∃ p q r, probability [x, y] = .ok p ∧ probability [x] = .ok q ∧ probability [y] = .ok r ∧
    e = |p - q * r|

/-- Questions about the independence of two variables are decided by one state of
    each. -/
structure DecidedByCell (d : Distribution ℚ) (tolerances : Tolerances ℚ) (x y : Constraint)
    (given : Nat) : Prop where
  independence : ∃ e t, Deviates d.probability x y e ∧
    Query.evaluateWith d tolerances (.independence x.var y.var) = .ok (.truth t) ∧
      (t = true ↔ e ≤ tolerances.independence)
  /-- With a third variable, by these in each of its states that has a mass. -/
  condIndependence : ∃ (e : Nat → ℚ) (t : Bool),
    (∀ s < d.catalog.cardinalityAt given, 0 < d.mass [⟨given, s⟩] →
      Deviates (fun fixed => d.conditional fixed [⟨given, s⟩]) x y (e s)) ∧
    Query.evaluateWith d tolerances (.condIndependence x.var y.var given) = .ok (.truth t) ∧
      (t = true ↔ ∀ s < d.catalog.cardinalityAt given, 0 < d.mass [⟨given, s⟩] →
        e s ≤ tolerances.independence)

/-- **One pair of states decides about two variables with two states**, whichever
    pair it is, and the two variables and the third one may be the same. -/
theorem decidedByCell (hsum : d.probs.sum = 1) {x y : Constraint}
    (hv : d.catalog.vars[x.var]? = some v) (hvtwo : v.cardinality = 2)
    (hw : d.catalog.vars[y.var]? = some w) (hwtwo : w.cardinality = 2) (hx : x.state < 2)
    (hy : y.state < 2) (hgiven : given < d.catalog.vars.length) :
    d.DecidedByCell tolerances x y given := by
  have hxlt := (List.getElem?_eq_some_iff.1 hv).1
  have hylt := (List.getElem?_eq_some_iff.1 hw).1
  have hxadmits : d.catalog.Admits [x] := Catalog.admits_singleton hv (hvtwo ▸ hx)
  have hyadmits : d.catalog.Admits [y] := Catalog.admits_singleton hw (hwtwo ▸ hy)
  have hadmits : d.catalog.Admits [x, y] := Catalog.admits_append hxadmits hyadmits
  constructor
  · refine ⟨deviation d.mass x y, _, ⟨_, _, _, probability_eq_ok hadmits,
      probability_eq_ok hxadmits, probability_eq_ok hyadmits, deviation_eq_abs x y⟩,
      Query.evaluateWith_independence hxlt hylt, ?_⟩
    exact (isMeasure_mass hsum).independentUnder_iff_cell hv hvtwo hw hwtwo hx hy
  · refine ⟨fun s => deviation (d.massGiven ⟨given, s⟩) x y, _, fun s hs hpos => ?_,
      Query.evaluateWith_condIndependence hxlt hylt hgiven, ?_⟩
    · obtain ⟨u, hu, hs⟩ := Catalog.lt_cardinalityAt_iff.1 hs
      have hzadmits : d.catalog.Admits [⟨given, s⟩] := Catalog.admits_singleton hu hs
      have hdefined : ¬ ([(⟨given, s⟩ : Constraint)] ≠ [] ∧ d.mass [⟨given, s⟩] = 0) :=
        fun h => hpos.ne' h.2
      exact ⟨_, _, _, conditional_eq_div hsum hadmits hzadmits hdefined,
        conditional_eq_div hsum hxadmits hzadmits hdefined,
        conditional_eq_div hsum hyadmits hzadmits hdefined, deviation_eq_abs x y⟩
    · have hcell (s : Nat) (hpos : 0 < d.mass [⟨given, s⟩]) :
          d.independentUnder (d.massGiven ⟨given, s⟩) tolerances.independence x.var y.var ↔
            deviation (d.massGiven ⟨given, s⟩) x y ≤ tolerances.independence :=
        (isMeasure_massGiven hpos.ne').independentUnder_iff_cell hv hvtwo hw hwtwo hx hy
      rw [condIndependent_iff]
      constructor
      · intro hall s hs hpos
        exact (hcell s hpos).1 (hall _ (mem_choices.2 ⟨rfl, hs⟩) (not_le.2 hpos))
      · rintro hall ⟨_, s⟩ hz hpos
        obtain ⟨rfl, hs⟩ := mem_choices.1 hz
        exact (hcell s (not_le.1 hpos)).2 (hall s hs (not_le.1 hpos))

/-- Two variables with two states that depend on each other, but hardly once a
    third variable with a state that never comes is known. -/
theorem decidedByCell_sky :
    let sky : Variable := ⟨"Sky", ["Clear", "Grey", "Dark"]⟩
    let d : Distribution ℚ := ⟨.of [.boolean "Wet", sky, ⟨"Road", ["Free", "Full"]⟩],
      [3/8, 1/8, 1/32, 3/32, 0, 0, 1/16, 0, 1/16, 1/4, 0, 0], rfl⟩
    let tolerances : Tolerances ℚ := { Tolerances.default with independence := 1/20 }
    d.probs.sum = 1 ∧ d.catalog.vars[0]? = some (.boolean "Wet") ∧
      d.catalog.vars[2]? = some ⟨"Road", ["Free", "Full"]⟩ ∧ 1 < d.catalog.vars.length ∧
      d.DecidedByCell tolerances ⟨0, 1⟩ ⟨2, 0⟩ 1 ∧
      Query.evaluateWith d tolerances (.independence 0 2) = .ok (.truth false) ∧
      Query.evaluateWith d tolerances (.condIndependence 0 2 1) = .ok (.truth true) := by
  intro sky d tolerances
  have hsum : d.probs.sum = 1 := by decide +kernel
  have hwet : d.catalog.vars[0]? = some (.boolean "Wet") := rfl
  have hroad : d.catalog.vars[2]? = some ⟨"Road", ["Free", "Full"]⟩ := rfl
  have hgiven : 1 < d.catalog.vars.length := by decide
  exact ⟨hsum, hwet, hroad, hgiven,
    decidedByCell hsum hwet rfl hroad rfl (by decide) (by decide) hgiven, by decide +kernel,
    by decide +kernel⟩

end Distribution

end JointProb
