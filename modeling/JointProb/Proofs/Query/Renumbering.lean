/-
  JointProb — queries under other positions.

  * `Query.renumber` follows a bound query to the new positions;
    `Expr.bind_renumber`: a query binds to these, or fails in the same way;
  * `Query.evaluateWith_renumber`: the answer stays the same;
  * `Distribution.Renumbered.askWith_eq`: so all texts have the same answers.
-/
import JointProb.Proofs.Network.Renumbering
import JointProb.Proofs.Query.Stages

namespace JointProb

variable {α : Type} {σ : Equiv.Perm ℕ}

/-! ## Binding -/

/-- The entry of the variable at its new position. -/
def BoundSpec.renumber (σ : Equiv.Perm ℕ) (x : BoundSpec) : BoundSpec :=
  ⟨x.toConstraint.renumber σ, x.selector⟩

/-- The query on the variables at their new positions. -/
def Query.renumber (σ : Equiv.Perm ℕ) : Query α → Query α
  | .probability targets conditions =>
    .probability (targets.map (BoundSpec.renumber σ)) (conditions.map (BoundSpec.renumber σ))
  | .independence a b => .independence (σ a) (σ b)
  | .condIndependence a b given => .condIndependence (σ a) (σ b) (σ given)
  | .binary op left right => .binary op (renumber σ left) (renumber σ right)
  | .negate operand => .negate (renumber σ operand)
  | .number x => .number x

theorem find?_renumber (bound : List BoundSpec) (v : ℕ) :
    (bound.map (BoundSpec.renumber σ)).find? (·.var == σ v) =
      (bound.find? (·.var == v)).map (BoundSpec.renumber σ) := by
  have hsame : (fun x : BoundSpec => x.var == σ v) ∘ BoundSpec.renumber σ = (·.var == v) := by
    funext x
    rw [Bool.eq_iff_iff, beq_iff_eq]
    simp [BoundSpec.renumber, Constraint.renumber]
  rw [List.find?_map, hsame]

section

variable {c c' : Catalog} (h : Renumbering σ c.vars c'.vars) (hc : c.InStep) (hc' : c'.InStep)
include h hc hc'

theorem VarSpec.bind_renumber (s : VarSpec) :
    s.bind c' = (s.bind c).map (BoundSpec.renumber σ) := by
  rw [bind, bind, Catalog.lookup_renumber h hc hc']
  cases c.lookup s.name with
  | error e => rfl
  | ok v =>
    simp only [Except.map, PlacedVariable.renumber]
    cases s.explicitState v.toVariable with
    | error e => rfl
    | ok stated =>
      simp only
      cases s.choose v.toVariable stated <;> rfl

theorem bindAfter_renumber (ss : List VarSpec) (bound : List BoundSpec) :
    bindAfter c' (bound.map (BoundSpec.renumber σ)) ss =
      (bindAfter c bound ss).map (List.map (BoundSpec.renumber σ)) := by
  induction ss generalizing bound with
  | nil => rfl
  | cons s ss ih =>
    rw [bindAfter, bindAfter, s.bind_renumber h hc hc']
    cases s.bind c with
    | error e => rfl
    | ok x =>
      have hfind : (bound.map (BoundSpec.renumber σ)).find? (·.var == (x.renumber σ).var) =
          (bound.find? (·.var == x.var)).map (BoundSpec.renumber σ) := find?_renumber bound x.var
      simp only [Except.map, hfind]
      cases bound.find? (·.var == x.var) with
      | none =>
        have hrest := ih (bound ++ [x])
        rwa [List.map_append] at hrest
      | some y =>
        change (if y.state = x.state then _ else _) = Except.map _ (if y.state = x.state then _ else _)
        split_ifs
        · exact ih bound
        · rfl

theorem bindSide_renumber (ss : List VarSpec) :
    bindSide c' ss = (bindSide c ss).map (List.map (BoundSpec.renumber σ)) :=
  bindAfter_renumber h hc hc' ss []

theorem Catalog.position_renumber (name : String) :
    c'.position name = (c.position name).map σ := by
  rw [position, position, lookup_renumber h hc hc']
  cases c.lookup name <;> rfl

/-- **A query binds to the new positions**, or fails in the same way. -/
theorem Expr.bind_renumber (x : Expr α) : x.bind c' = (x.bind c).map (Query.renumber σ) := by
  induction x with
  | probability targets conditions =>
    rw [bind, bind, bindSide_renumber h hc hc', bindSide_renumber h hc hc']
    cases bindSide c targets <;> cases bindSide c conditions <;> rfl
  | independence a b =>
    rw [bind, bind, Catalog.position_renumber h hc hc', Catalog.position_renumber h hc hc']
    cases c.position a <;> cases c.position b <;> rfl
  | condIndependence a b given =>
    rw [bind, bind, Catalog.position_renumber h hc hc', Catalog.position_renumber h hc hc',
      Catalog.position_renumber h hc hc']
    cases c.position a <;> cases c.position b <;> cases c.position given <;> rfl
  | binary op left right ihl ihr =>
    rw [bind, bind, ihl, ihr]
    cases bind c left <;> cases bind c right <;> rfl
  | negate operand ih =>
    rw [bind, bind, ih]
    cases bind c operand <;> rfl
  | number x => rfl

end

/-! ## Answers -/

namespace Query

variable {c c' : Catalog}

theorem isPredicate_renumber (q : Query α) : (q.renumber σ).isPredicate = q.isPredicate := by
  cases q <;> rfl

theorem constraints_renumber (xs : List BoundSpec) :
    constraints (xs.map (BoundSpec.renumber σ)) =
      (constraints xs).map (Constraint.renumber σ) := by
  simp only [constraints, List.map_map]
  rfl

theorem admits_renumber (h : Renumbering σ c.vars c'.vars) {fixed : List Constraint}
    (hfixed : c.Admits fixed) : c'.Admits (fixed.map (Constraint.renumber σ)) := by
  intro x hx
  obtain ⟨y, hy, rfl⟩ := List.mem_map.1 hx
  obtain ⟨v, hv, hlt⟩ := hfixed y hy
  exact ⟨v, (h y.var).trans hv, hlt⟩

theorem within_renumber (h : Renumbering σ c.vars c'.vars) {q : Query α} (hq : q.Within c) :
    (q.renumber σ).Within c' := by
  induction q with
  | probability targets conditions =>
    rw [renumber, within_probability, ← List.map_append, constraints_renumber]
    exact admits_renumber h (within_probability.1 hq)
  | independence a b =>
    obtain ⟨ha, hb⟩ := within_independence.1 hq
    exact within_independence.2 ⟨h.lt_iff.2 ha, h.lt_iff.2 hb⟩
  | condIndependence a b given =>
    obtain ⟨ha, hb, hgiven⟩ := within_condIndependence.1 hq
    exact within_condIndependence.2 ⟨h.lt_iff.2 ha, h.lt_iff.2 hb, h.lt_iff.2 hgiven⟩
  | binary op left right ihl ihr =>
    obtain ⟨hleft, hright⟩ := within_binary.1 hq
    exact within_binary.2 ⟨ihl hleft, ihr hright⟩
  | negate operand ih => exact within_negate.2 (ih (within_negate.1 hq))
  | number x => exact within_number

end Query

namespace Distribution.Renumbered

variable {d d' : Distribution ℚ}

theorem conditionalMass_eq (h : d.Renumbered σ d') (targets conditions : List Constraint) :
    d'.conditionalMass (targets.map (Constraint.renumber σ))
        (conditions.map (Constraint.renumber σ)) = d.conditionalMass targets conditions := by
  rw [conditionalMass, conditionalMass, ← List.map_append, h.mass_eq, h.mass_eq,
    Catalog.describe_renumber h.vars, List.isEmpty_map]

theorem choices_eq (h : d.Renumbered σ d') (v : ℕ) :
    d'.choices (σ v) = (d.choices v).map (Constraint.renumber σ) := by
  rw [choices, choices, h.vars, List.map_map]
  rfl

theorem independentUnder_eq (h : d.Renumbered σ d') {measure measure' : List Constraint → ℚ}
    (hmeasure : ∀ fixed, measure' (fixed.map (Constraint.renumber σ)) = measure fixed)
    (tolerance : ℚ) (a b : ℕ) :
    d'.independentUnder measure' tolerance (σ a) (σ b) =
      d.independentUnder measure tolerance a b := by
  have hone (x : Constraint) : measure' [x.renumber σ] = measure [x] := hmeasure [x]
  have htwo (x y : Constraint) : measure' [x.renumber σ, y.renumber σ] = measure [x, y] :=
    hmeasure [x, y]
  simp only [independentUnder, h.choices_eq, List.all_map, Function.comp_def, hone, htwo]

theorem independent_eq (h : d.Renumbered σ d') (tolerance : ℚ) (a b : ℕ) :
    d'.independent tolerance (σ a) (σ b) = d.independent tolerance a b :=
  h.independentUnder_eq h.mass_eq tolerance a b

theorem condIndependent_eq (h : d.Renumbered σ d') (tolerance : ℚ) (a b given : ℕ) :
    d'.condIndependent tolerance (σ a) (σ b) (σ given) =
      d.condIndependent tolerance a b given := by
  have hmeasure (z : Constraint) (fixed : List Constraint) :
      d'.mass (fixed.map (Constraint.renumber σ) ++ [z.renumber σ]) = d.mass (fixed ++ [z]) := by
    rw [← h.mass_eq, List.map_append]
    rfl
  have hone (z : Constraint) : d'.mass [z.renumber σ] = d.mass [z] := h.mass_eq [z]
  have hunder (z : Constraint) :
      d'.independentUnder (fun xs => d'.mass (xs ++ [z.renumber σ]) / d.mass [z]) tolerance
          (σ a) (σ b) =
        d.independentUnder (fun xs => d.mass (xs ++ [z]) / d.mass [z]) tolerance a b :=
    h.independentUnder_eq (fun fixed => by rw [hmeasure]) tolerance a b
  simp only [condIndependent, h.choices_eq, List.all_map, Function.comp_def, hone, hunder]

/-- Arithmetic gives the same number, or fails in the same way. -/
theorem amount_eq (h : d.Renumbered σ d') (q : Query ℚ) :
    (q.renumber σ).amount d' = q.amount d := by
  induction q with
  | probability targets conditions =>
    rw [Query.renumber, Query.amount, Query.amount, Query.constraints_renumber,
      Query.constraints_renumber, h.conditionalMass_eq]
  | independence | condIndependence | number => rfl
  | binary op left right ihl ihr => rw [Query.renumber, Query.amount, Query.amount, ihl, ihr]
  | negate operand ih => rw [Query.renumber, Query.amount, Query.amount, ih]

/-- Questions have the same truth. -/
theorem holds_eq (h : d.Renumbered σ d') (tolerance : ℚ) (q : Query ℚ) :
    (q.renumber σ).holds d' tolerance = q.holds d tolerance := by
  cases q with
  | independence a b => rw [Query.renumber, Query.holds, Query.holds, h.independent_eq]
  | condIndependence a b given => rw [Query.renumber, Query.holds, Query.holds, h.condIndependent_eq]
  | probability | binary | negate | number => rfl

/-- **The answer to a query stays the same.** -/
theorem evaluateWith_eq (h : d.Renumbered σ d') (tolerances : Tolerances ℚ) {q : Query ℚ}
    (hq : q.Within d.catalog) :
    (q.renumber σ).evaluateWith d' tolerances = q.evaluateWith d tolerances := by
  rw [Query.evaluateWith_of_within (Query.within_renumber h.vars hq),
    Query.evaluateWith_of_within hq, Query.isPredicate_renumber, h.holds_eq, h.amount_eq]

/-- **All texts have the same answers.** -/
theorem askWith_eq (h : d.Renumbered σ d') (hd : d.catalog.InStep) (hd' : d'.catalog.InStep)
    (tolerances : Tolerances ℚ) (text : String) :
    d'.askWith tolerances text = d.askWith tolerances text := by
  cases hx : (Expr.parse text : Except QueryError (Expr ℚ)) with
  | error e =>
    rw [d'.askWith_of_parse_error tolerances hx, d.askWith_of_parse_error tolerances hx]
  | ok x =>
    have hbind := x.bind_renumber h.vars hd hd'
    cases hq : x.bind d.catalog with
    | error e =>
      rw [hq] at hbind
      rw [d'.askWith_of_bind_error tolerances hx hbind, d.askWith_of_bind_error tolerances hx hq]
    | ok q =>
      rw [hq] at hbind
      obtain ⟨hwithin, -, -, hask⟩ := d.of_bind tolerances hd hx hq
      rw [(d'.of_bind tolerances hd' hx hbind).2.2.2, hask, h.evaluateWith_eq tolerances hwithin]

end Distribution.Renumbered

end JointProb
