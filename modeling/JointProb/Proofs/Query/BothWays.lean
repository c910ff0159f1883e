/-
  JointProb — questions about independence, both ways.

  Exchanging two variables exchanges the constraints of each comparison and the
  factors of each product, and visits the comparisons in another order.

  * `Distribution.AnswersBothWays` says that the variables may be exchanged;
  * `Distribution.answersBothWays`: so they may if the factors of a product may,
    which includes floating point (`Binary64.mul_comm`).
-/
import JointProb.Proofs.Query.Independence
import JointProb.Proofs.Scalar.Binary64

namespace JointProb.Distribution

variable {α : Type} [Scalar α] {d : Distribution α} {measure : List Constraint → α}
  {tolerance : α} {tolerances : Tolerances α} {a b given : Nat}

/-- The comparisons may be made in any order. -/
theorem independentUnder_comm (h : ∀ x y, deviation measure x y = deviation measure y x) :
    d.independentUnder measure tolerance a b = d.independentUnder measure tolerance b a := by
  rw [Bool.eq_iff_iff, independentUnder_iff, independentUnder_iff]
  exact ⟨fun hab y hy x hx => h x y ▸ hab x hx y hy, fun hba x hx y hy => h x y ▸ hba y hy x hx⟩

/-- Questions about two variables have the same answers both ways. -/
structure AnswersBothWays (d : Distribution α) (tolerances : Tolerances α) (a b given : Nat) :
    Prop where
  independence : ∃ t, Query.evaluateWith d tolerances (.independence a b) = .ok (.truth t) ∧
    Query.evaluateWith d tolerances (.independence b a) = .ok (.truth t)
  condIndependence : ∃ t,
    Query.evaluateWith d tolerances (.condIndependence a b given) = .ok (.truth t) ∧
      Query.evaluateWith d tolerances (.condIndependence b a given) = .ok (.truth t)
  /-- The same numbers are compared with the tolerance. -/
  deviation_mass (x y : Constraint) : deviation d.mass x y = deviation d.mass y x
  deviation_massGiven (x y z : Constraint) :
    deviation (d.massGiven z) x y = deviation (d.massGiven z) y x

/-- **Questions about independence have the same answers both ways** if the
    factors of a product may be exchanged, whatever else is true of the numbers. -/
theorem answersBothWays (hmul : ∀ x y : α, x * y = y * x) (ha : a < d.catalog.vars.length)
    (hb : b < d.catalog.vars.length) (hgiven : given < d.catalog.vars.length) :
    d.AnswersBothWays tolerances a b given := by
  have hswap (x y : Constraint) : [x, y].Perm [y, x] := .swap y x []
  have hmass := deviation_comm hmul fun x y => d.mass_perm (hswap x y)
  have hmassGiven (z : Constraint) :=
    deviation_comm hmul fun x y => d.massGiven_perm z (hswap x y)
  have hindependent : d.independent tolerances.independence a b =
      d.independent tolerances.independence b a := independentUnder_comm hmass
  have hcond : d.condIndependent tolerances.independence a b given =
      d.condIndependent tolerances.independence b a given := by
    rw [Bool.eq_iff_iff, condIndependent_iff, condIndependent_iff]
    simp only [independentUnder_comm (hmassGiven _) (a := a) (b := b)]
  refine ⟨⟨_, Query.evaluateWith_independence ha hb, ?_⟩,
    ⟨_, Query.evaluateWith_condIndependence ha hb hgiven, ?_⟩, hmass, fun x y z => hmassGiven z x y⟩
  · rw [Query.evaluateWith_independence hb ha, hindependent]
  · rw [Query.evaluateWith_condIndependence hb ha hgiven, hcond]

/-- Three variables with two, three and two states, and floating point. -/
theorem answersBothWays_binary64 :
    let sky : Variable := ⟨"Sky", ["Clear", "Grey", "Dark"]⟩
    let d : Distribution Float := ⟨.of [.boolean "Wind", sky, .boolean "Late"],
      [0.1, 0.2, 0.05, 0.15, 0.0, 0.1, 0.05, 0.05, 0.1, 0.1, 0.05, 0.05], rfl⟩
    (∀ x y : Float, x * y = y * x) ∧ 0 < d.catalog.vars.length ∧ 1 < d.catalog.vars.length ∧
      2 < d.catalog.vars.length ∧ d.AnswersBothWays .default 0 1 2 := by
  intro sky d
  have hfirst : 0 < d.catalog.vars.length := by decide
  have hsecond : 1 < d.catalog.vars.length := by decide
  have hthird : 2 < d.catalog.vars.length := by decide
  exact ⟨Binary64.mul_comm, hfirst, hsecond, hthird,
    answersBothWays Binary64.mul_comm hfirst hsecond hthird⟩

end JointProb.Distribution
