/-
  JointProb — association and independence.

                 outcome   no outcome
      exposed      a          b
      not          c          d

  With the sum one, `a - (a + b) (a + c) = a d - b c`.  The odds ratio compares
  the two products on the right, the relative risk the two quotients that they
  come from, and the question about independence the difference on the left.

  * `TwoByTwo.oddsRatio_eq_value_iff` and `TwoByTwo.relativeRisk_eq_value_iff`:
    when there are the two measures, and what they are;
  * `TwoByTwo.eq_one_of_oddsRatio` and `TwoByTwo.eq_one_of_relativeRisk`: when
    they are one;
  * `TwoByTwo.eq_mul_iff_ofMargins`: when the difference is nothing;
  * `Distribution.twoByTwo_eq_ok`: the four cells of two variables with two
    states, and `Distribution.cells_eq_ofMargins` what they are;
  * `Distribution.exists_associates`: so all three say the same.
-/
import JointProb.Proofs.Query.Independence
import JointProb.Statistics
import Mathlib.Tactic.LinearCombination

namespace JointProb

/-! ## Four cells -/

namespace TwoByTwo

variable {t : TwoByTwo ℚ} {r : ℚ}

theorem ratio_eq_value_iff {num den : ℚ} :
    Association.ratio num den = .value r ↔ den ≠ 0 ∧ num / den = r := by
  rw [Association.ratio]
  by_cases h : den = 0 <;> simp [h]

/-- There is an odds ratio if both of its denominators are something. -/
theorem oddsRatio_eq_value_iff : t.oddsRatio = .value r ↔
    (t.exposureOnly ≠ 0 ∧ t.outcomeOnly ≠ 0) ∧
      t.both * t.neither / (t.exposureOnly * t.outcomeOnly) = r := by
  rw [oddsRatio, ratio_eq_value_iff, mul_ne_zero_iff]

/-- There is a relative risk if there are two risks, and the one to compare with
    is something. -/
theorem relativeRisk_eq_value_iff : t.relativeRisk = .value r ↔
    (t.both + t.exposureOnly ≠ 0 ∧ t.outcomeOnly + t.neither ≠ 0 ∧ t.outcomeOnly ≠ 0) ∧
      t.both / (t.both + t.exposureOnly) / (t.outcomeOnly / (t.outcomeOnly + t.neither)) = r := by
  by_cases hrow : t.both + t.exposureOnly = 0
  · simp [relativeRisk, Association.ratio, hrow]
  by_cases hrow' : t.outcomeOnly + t.neither = 0
  · simp [relativeRisk, Association.ratio, hrow, hrow']
  have hexposed : Association.ratio t.both (t.both + t.exposureOnly) = .value _ :=
    ratio_eq_value_iff.2 ⟨hrow, rfl⟩
  have hbaseline : Association.ratio t.outcomeOnly (t.outcomeOnly + t.neither) = .value _ :=
    ratio_eq_value_iff.2 ⟨hrow', rfl⟩
  rw [relativeRisk, hexposed, hbaseline]
  simp [ratio_eq_value_iff, hrow, hrow']

/-- The odds ratio is one if the products are equal. -/
theorem eq_one_of_oddsRatio (h : t.oddsRatio = .value r) :
    r = 1 ↔ t.both * t.neither = t.exposureOnly * t.outcomeOnly := by
  obtain ⟨⟨hne, hne'⟩, rfl⟩ := oddsRatio_eq_value_iff.1 h
  exact div_eq_one_iff_eq (mul_ne_zero hne hne')

/-- So is the relative risk. -/
theorem eq_one_of_relativeRisk (h : t.relativeRisk = .value r) :
    r = 1 ↔ t.both * t.neither = t.exposureOnly * t.outcomeOnly := by
  obtain ⟨⟨hrow, hrow', hne⟩, rfl⟩ := relativeRisk_eq_value_iff.1 h
  rw [div_eq_one_iff_eq (div_ne_zero hne hrow'), div_eq_div_iff hrow hrow']
  constructor
  · intro heq
    linear_combination heq
  · intro heq
    linear_combination heq

/-- The cells with the sum one and with given probabilities of both, of the
    exposure and of the outcome. -/
def ofMargins (both exposed affected : ℚ) : TwoByTwo ℚ where
  both := both
  exposureOnly := exposed - both
  outcomeOnly := affected - both
  neither := 1 - exposed - affected + both

section

variable {both exposed affected : ℚ}

theorem oddsRatio_ofMargins_iff : (ofMargins both exposed affected).oddsRatio = .value r ↔
    (both ≠ exposed ∧ both ≠ affected) ∧
      both * (1 - exposed - affected + both) / ((exposed - both) * (affected - both)) = r := by
  rw [oddsRatio_eq_value_iff, ofMargins, sub_ne_zero, sub_ne_zero, ne_comm, ne_comm (a := affected)]

theorem relativeRisk_ofMargins_iff : (ofMargins both exposed affected).relativeRisk = .value r ↔
    (exposed ≠ 0 ∧ exposed ≠ 1 ∧ both ≠ affected) ∧
      both / exposed / ((affected - both) / (1 - exposed)) = r := by
  have hrow : both + (exposed - both) = exposed := by ring
  have hrow' : affected - both + (1 - exposed - affected + both) = 1 - exposed := by ring
  rw [relativeRisk_eq_value_iff]
  simp only [ofMargins, hrow, hrow', sub_ne_zero]
  rw [ne_comm (a := 1), ne_comm (a := affected)]

/-- With the sum one, the products are equal if the first cell is the product of
    its row and its column. -/
theorem eq_mul_iff_ofMargins : both = exposed * affected ↔
    let t := ofMargins both exposed affected
    t.both * t.neither = t.exposureOnly * t.outcomeOnly := by
  simp only [ofMargins]
  constructor
  · intro heq
    linear_combination heq
  · intro heq
    linear_combination heq

end

/-- The exposure and the outcome exchanged. -/
def transpose (t : TwoByTwo ℚ) : TwoByTwo ℚ := ⟨t.both, t.outcomeOnly, t.exposureOnly, t.neither⟩

theorem oddsRatio_transpose (t : TwoByTwo ℚ) : t.transpose.oddsRatio = t.oddsRatio := by
  rw [oddsRatio, oddsRatio, transpose, mul_comm t.outcomeOnly]

end TwoByTwo

/-! ## Two variables -/

/-- The states of a variable that count as false and true: those that the labels
    tell, or else the first and the second. -/
def Variable.binaryStates (v : Variable) : DefaultStates := v.defaults?.getD ⟨0, 1⟩

theorem Variable.binaryStates_eq (v : Variable) :
    v.binaryStates = ⟨0, 1⟩ ∨ v.binaryStates = ⟨1, 0⟩ := by
  rw [binaryStates, defaults?]
  split
  · split_ifs <;> simp
  · simp

namespace Distribution

variable {d : Distribution ℚ} {tolerances : Tolerances ℚ} {a b : Nat} {v w : Variable}

/-- The mass of a case. -/
def cell (d : Distribution ℚ) (a b x y : Nat) : ℚ := d.mass [⟨a, x⟩, ⟨b, y⟩]

/-- The cases of two variables with two states. -/
def cells (d : Distribution ℚ) (a b : Nat) (v w : Variable) : TwoByTwo ℚ where
  both := d.cell a b v.binaryStates.trueState w.binaryStates.trueState
  exposureOnly := d.cell a b v.binaryStates.trueState w.binaryStates.falseState
  outcomeOnly := d.cell a b v.binaryStates.falseState w.binaryStates.trueState
  neither := d.cell a b v.binaryStates.falseState w.binaryStates.falseState

theorem binaryStates_eq_ok (ha : d.catalog.vars[a]? = some v) (hv : v.cardinality = 2) :
    d.binaryStates a = .ok v.binaryStates := by
  rw [binaryStates, ha]
  simp [Variable.isBinary, hv, Variable.binaryStates]

theorem twoByTwo_eq_ok (ha : d.catalog.vars[a]? = some v) (hv : v.cardinality = 2)
    (hb : d.catalog.vars[b]? = some w) (hw : w.cardinality = 2) :
    d.twoByTwo a b = .ok (d.cells a b v w) := by
  have hlt := (List.getElem?_eq_some_iff.1 ha).1
  have hlt' := (List.getElem?_eq_some_iff.1 hb).1
  have hcheck : d.checkVariables [a, b] = .ok () := by
    simp [checkVariables, hlt, hlt']
  rw [twoByTwo, hcheck, binaryStates_eq_ok ha hv, binaryStates_eq_ok hb hw]
  rfl

theorem cell_comm (d : Distribution ℚ) (a b x y : Nat) : d.cell b a y x = d.cell a b x y :=
  d.mass_perm (.swap _ _ _)

/-- The same cases with the variables exchanged. -/
theorem cells_comm (d : Distribution ℚ) (a b : Nat) (v w : Variable) :
    d.cells b a w v = (d.cells a b v w).transpose := by
  simp only [cells, TwoByTwo.transpose, d.cell_comm a b]

/-- The cases of one state of a variable make up this state. -/
theorem cell_add_cell (hb : d.catalog.vars[b]? = some w) (hw : w.cardinality = 2) (x : Nat) :
    d.cell a b x w.binaryStates.trueState + d.cell a b x w.binaryStates.falseState =
      d.mass [⟨a, x⟩] := by
  have hsum := d.sum_mass_append [⟨a, x⟩] hb
  rw [hw, Finset.sum_range_succ, Finset.sum_range_one] at hsum
  rcases w.binaryStates_eq with heq | heq
  · rw [heq, ← hsum, add_comm]
    rfl
  · rw [heq, ← hsum]
    rfl

/-- The states of a variable make up all. -/
theorem mass_add_mass (hsum : d.probs.sum = 1) (ha : d.catalog.vars[a]? = some v)
    (hv : v.cardinality = 2) :
    d.mass [⟨a, v.binaryStates.trueState⟩] + d.mass [⟨a, v.binaryStates.falseState⟩] = 1 := by
  have hall := d.sum_mass_append [] ha
  rw [hv, Finset.sum_range_succ, Finset.sum_range_one, d.mass_nil, hsum] at hall
  rcases v.binaryStates_eq with heq | heq
  · rw [heq, ← hall, add_comm]
    rfl
  · rw [heq, ← hall]
    rfl

/-- The cells are known from the joint probability and those of the two. -/
theorem cells_eq_ofMargins (hsum : d.probs.sum = 1) (ha : d.catalog.vars[a]? = some v)
    (hv : v.cardinality = 2) (hb : d.catalog.vars[b]? = some w) (hw : w.cardinality = 2) :
    let x : Constraint := ⟨a, v.binaryStates.trueState⟩
    let y : Constraint := ⟨b, w.binaryStates.trueState⟩
    d.cells a b v w = .ofMargins (d.mass [x, y]) (d.mass [x]) (d.mass [y]) := by
  intro x y
  have hrow : d.mass [x, y] + (d.cells a b v w).exposureOnly = d.mass [x] := cell_add_cell hb hw _
  have hother : (d.cells a b v w).outcomeOnly + (d.cells a b v w).neither =
      d.mass [⟨a, v.binaryStates.falseState⟩] := cell_add_cell hb hw _
  have hcolumn : d.mass [x, y] + (d.cells a b v w).outcomeOnly = d.mass [y] := by
    have hcolumn := cell_add_cell (a := b) ha hv w.binaryStates.trueState
    rwa [d.cell_comm a b, d.cell_comm a b] at hcolumn
  have htotal : d.mass [x] + d.mass [⟨a, v.binaryStates.falseState⟩] = 1 :=
    mass_add_mass hsum ha hv
  have hneither : (d.cells a b v w).neither = 1 - d.mass [x] - d.mass [y] + d.mass [x, y] := by
    linear_combination hother + htotal - hcolumn
  rw [TwoByTwo.ofMargins, ← hneither, ← hrow, ← hcolumn, add_sub_cancel_left, add_sub_cancel_left]
  rfl

/-- What the odds ratio, the relative risk and the question about independence
    say of an exposure and an outcome with these probabilities of both, of the
    one and of the other. -/
structure Associates (d : Distribution ℚ) (tolerances : Tolerances ℚ) (exposure outcome : Nat)
    (both exposed affected : ℚ) : Prop where
  /-- The odds ratio is the same both ways, also if it is undefined. -/
  oddsRatio_comm : ∃ odds, d.oddsRatio exposure outcome = .ok odds ∧
    d.oddsRatio outcome exposure = .ok odds
  /-- It is defined if each of the two can be there without the other. -/
  oddsRatio_eq_iff {r : ℚ} : d.oddsRatio exposure outcome = .ok (.value r) ↔
    (both ≠ exposed ∧ both ≠ affected) ∧
      both * (1 - exposed - affected + both) / ((exposed - both) * (affected - both)) = r
  exists_relativeRisk : ∃ risk, d.relativeRisk exposure outcome = .ok risk
  /-- The relative risk is defined if the exposure can be there and can be absent,
      with the outcome even so. -/
  relativeRisk_eq_iff {r : ℚ} : d.relativeRisk exposure outcome = .ok (.value r) ↔
    (exposed ≠ 0 ∧ exposed ≠ 1 ∧ both ≠ affected) ∧
      both / exposed / ((affected - both) / (1 - exposed)) = r
  /-- Without a tolerance, independent is what has the product of the two as the
      probability of both. -/
  exists_independence : ∃ t,
    Query.evaluateWith d { tolerances with independence := 0 } (.independence exposure outcome) =
      .ok (.truth t) ∧ (t = true ↔ both = exposed * affected)
  /-- This has the odds ratio one, if it has any. -/
  oddsRatio_eq_one_iff {r : ℚ} (h : d.oddsRatio exposure outcome = .ok (.value r)) :
    r = 1 ↔ both = exposed * affected
  /-- It has the relative risk one, if it has any. -/
  relativeRisk_eq_one_iff {r : ℚ} (h : d.relativeRisk exposure outcome = .ok (.value r)) :
    r = 1 ↔ both = exposed * affected

/-- **The odds ratio, the relative risk and the question about independence say
    the same** of two variables with two states each, whatever their labels. -/
theorem exists_associates (hsum : d.probs.sum = 1) (ha : d.catalog.vars[a]? = some v)
    (hv : v.cardinality = 2) (hb : d.catalog.vars[b]? = some w) (hw : w.cardinality = 2) :
    let x : Constraint := ⟨a, v.binaryStates.trueState⟩
    let y : Constraint := ⟨b, w.binaryStates.trueState⟩
    ∃ both exposed affected, d.probability [x, y] = .ok both ∧ d.probability [x] = .ok exposed ∧
      d.probability [y] = .ok affected ∧ d.Associates tolerances a b both exposed affected := by
  intro x y
  have hx : x.state < 2 := by rcases v.binaryStates_eq with h | h <;> simp [x, h]
  have hy : y.state < 2 := by rcases w.binaryStates_eq with h | h <;> simp [y, h]
  have hxadmits : d.catalog.Admits [x] := Catalog.admits_singleton ha (hv ▸ hx)
  have hyadmits : d.catalog.Admits [y] := Catalog.admits_singleton hb (hw ▸ hy)
  have hcells : d.cells a b v w = .ofMargins (d.mass [x, y]) (d.mass [x]) (d.mass [y]) :=
    cells_eq_ofMargins hsum ha hv hb hw
  refine ⟨_, _, _, probability_eq_ok (Catalog.admits_append hxadmits hyadmits),
    probability_eq_ok hxadmits, probability_eq_ok hyadmits, ?_⟩
  have hodds : d.oddsRatio a b = .ok (d.cells a b v w).oddsRatio := by
    rw [oddsRatio, twoByTwo_eq_ok ha hv hb hw, Except.map]
  have hrisk : d.relativeRisk a b = .ok (d.cells a b v w).relativeRisk := by
    rw [relativeRisk, twoByTwo_eq_ok ha hv hb hw, Except.map]
  rw [hcells] at hodds hrisk
  refine ⟨⟨_, hodds, ?_⟩, ?_, ⟨_, hrisk⟩, ?_, ⟨_, Query.evaluateWith_independence
    (List.getElem?_eq_some_iff.1 ha).1 (List.getElem?_eq_some_iff.1 hb).1, ?_⟩, ?_, ?_⟩
  · rw [oddsRatio, twoByTwo_eq_ok hb hw ha hv, Except.map, cells_comm,
      TwoByTwo.oddsRatio_transpose, hcells]
  · intro r
    rw [hodds, Except.ok.injEq, TwoByTwo.oddsRatio_ofMargins_iff]
  · intro r
    rw [hrisk, Except.ok.injEq, TwoByTwo.relativeRisk_ofMargins_iff]
  · rw [independent, (isMeasure_mass hsum).independentUnder_iff_cell (x := x) (y := y) ha hv hb hw
      hx hy, deviation_eq_abs, abs_nonpos_iff, excess, sub_eq_zero]
  · intro r h
    rw [hodds] at h
    exact (TwoByTwo.eq_one_of_oddsRatio (Except.ok.inj h)).trans TwoByTwo.eq_mul_iff_ofMargins.symm
  · intro r h
    rw [hrisk] at h
    exact (TwoByTwo.eq_one_of_relativeRisk (Except.ok.inj h)).trans
      TwoByTwo.eq_mul_iff_ofMargins.symm

/-- Labels in either order, and a relative risk of one. -/
theorem exists_associates_smoking :
    let smokes : Variable := ⟨"Smokes", ["yes", "no"]⟩
    let cough : Variable := ⟨"Cough", ["never", "often"]⟩
    let d : Distribution ℚ := ⟨.of [cough, .boolean "Rain", smokes],
      [1/16, 3/16, 1/16, 3/16, 1/16, 3/16, 1/16, 3/16], rfl⟩
    d.probs.sum = 1 ∧ d.catalog.vars[2]? = some smokes ∧ smokes.cardinality = 2 ∧
      d.catalog.vars[0]? = some cough ∧ cough.cardinality = 2 ∧
      d.relativeRisk 2 0 = .ok (.value 1) ∧ d.probability [⟨2, 0⟩, ⟨0, 1⟩] = .ok (1/8) ∧
      ∃ both exposed affected, d.probability [⟨2, 0⟩, ⟨0, 1⟩] = .ok both ∧
        d.probability [⟨2, 0⟩] = .ok exposed ∧ d.probability [⟨0, 1⟩] = .ok affected ∧
        d.Associates .default 2 0 both exposed affected := by
  intro smokes cough d
  have hsum : d.probs.sum = 1 := by decide +kernel
  have hexposure : d.catalog.vars[2]? = some smokes := rfl
  have houtcome : d.catalog.vars[0]? = some cough := rfl
  have hsmokes : smokes.binaryStates = ⟨1, 0⟩ := by decide +kernel
  have hcough : cough.binaryStates = ⟨0, 1⟩ := by decide +kernel
  obtain ⟨both, exposed, affected, hagree⟩ := exists_associates hsum hexposure rfl houtcome rfl
  rw [hsmokes, hcough] at hagree
  exact ⟨hsum, hexposure, rfl, houtcome, rfl, by decide +kernel, by decide +kernel, _, _, _, hagree⟩

end Distribution

end JointProb
