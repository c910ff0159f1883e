/-
  JointProb — answers to queries, every position looked up.

  Evaluation reads states, place values and numbers of states by position.
  Here it is done once more with lookups that may find nothing, and quotients
  that a zero does not have, and then there is no answer.

  * `Catalog.stateAt?` and `Distribution.mass?` look up what states and masses
    are computed from, `Query.evaluateWith?` all that an answer is;
  * `Query.amount?_eq_some` and `Query.holds?_eq_some`: a query within the
    catalog finds all it looks for;
  * `Query.Safe` says of a query that it is answered or refused for what it
    is, and `Query.safe`: every query is, whatever its positions are.
-/
import JointProb.Proofs.MixedRadix
import JointProb.Proofs.Query.Positions

namespace JointProb

/-! ## Lists of lookups -/

section

variable {α β : Type} {xs : List α}

theorem allM_eq_some {f : α → Option Bool} {p : α → Bool} (h : ∀ x ∈ xs, f x = some (p x)) :
    xs.allM f = some (xs.all p) := by
  induction xs with
  | nil => rfl
  | cons x xs ih =>
    obtain ⟨hx, hxs⟩ := List.forall_mem_cons.1 h
    rw [List.allM, hx, List.all_cons]
    cases p x with
    | true => exact ih hxs
    | false => rfl

theorem mapM_eq_some {f : α → Option β} {g : α → β} (h : ∀ x ∈ xs, f x = some (g x)) :
    xs.mapM f = some (xs.map g) := by
  induction xs with
  | nil => rfl
  | cons x xs ih =>
    obtain ⟨hx, hxs⟩ := List.forall_mem_cons.1 h
    simp [List.mapM_cons, hx, ih hxs]

theorem filterM_eq_some {f : α → Option Bool} {p : α → Bool} (h : ∀ x ∈ xs, f x = some (p x)) :
    xs.filterM f = some (xs.filter p) := by
  have haux (acc : List α) : xs.filterAuxM f acc = some ((xs.filter p).reverse ++ acc) := by
    induction xs generalizing acc with
    | nil => rfl
    | cons x xs ih =>
      obtain ⟨hx, hxs⟩ := List.forall_mem_cons.1 h
      rw [List.filterAuxM, hx, List.filter_cons]
      cases p x with
      | true => simpa using ih hxs (x :: acc)
      | false => exact ih hxs acc
  rw [List.filterM, haux]
  simp

end

/-! ## Catalogs -/

namespace Catalog

variable (c : Catalog)

/-- The state of a variable in the assignment with a number, if the variable
    has a place value and states to divide by. -/
def stateAt? (linear var : Nat) : Option Nat := do
  let place ← c.placeValues[var]?
  let v ← c.vars[var]?
  if place = 0 ∨ v.cardinality = 0 then none else some (linear / place % v.cardinality)

/-- Whether the assignment with a number agrees with constraints. -/
def agrees? (fixed : List Constraint) (linear : Nat) : Option Bool :=
  fixed.allM fun x => (c.stateAt? linear x.var).map (· == x.state)

/-- Constraints in words, if there are all their variables. -/
def describe? (fixed : List Constraint) : Option String :=
  (fixed.mapM c.describeConstraint?).map (", ".intercalate ·)

variable {c} {fixed : List Constraint}

/-- **The states of assignments are found.** -/
theorem stateAt?_eq_some {linear var : Nat} (hlinear : linear < c.size)
    (hvar : var < c.vars.length) : c.stateAt? linear var = some (c.stateAt linear var) := by
  have hpos : 0 < c.size := Nat.zero_lt_of_lt hlinear
  have hlen : c.placeValues.length = c.vars.length := by
    rw [placeValues, MixedRadix.length_placeValues, cardinalities, List.length_map]
  have hplace := List.getElem?_eq_getElem (hlen ▸ hvar : var < c.placeValues.length)
  have hv := List.getElem?_eq_getElem hvar
  have hradix : c.cardinalities[var]? = some c.vars[var].cardinality := by
    simp [cardinalities, hv]
  have hplace_pos : c.placeValues[var] ≠ 0 := by
    intro h0
    have hdvd := MixedRadix.dvd_size_of_mem_placeValues (List.mem_of_getElem? hplace)
    rw [h0, zero_dvd_iff] at hdvd
    exact hpos.ne' hdvd
  have hradix_pos : c.vars[var].cardinality ≠ 0 :=
    (MixedRadix.pos_of_size_pos hpos _ (List.mem_of_getElem? hradix)).ne'
  simp only [stateAt?, hplace, hv, Option.bind_eq_bind, Option.bind_some]
  rw [if_neg (by simp [hplace_pos, hradix_pos]), stateAt, MixedRadix.digit_eq linear hplace hradix]

theorem agrees?_eq_some {linear : Nat} (hlinear : linear < c.size) (h : c.Admits fixed) :
    c.agrees? fixed linear = some (Distribution.agrees c.cardinalities fixed linear) := by
  refine allM_eq_some fun x hx => ?_
  obtain ⟨v, hv, -⟩ := h x hx
  rw [stateAt?_eq_some hlinear (List.getElem?_eq_some_iff.1 hv).1]
  rfl

theorem describe?_eq_some (h : c.Admits fixed) : c.describe? fixed = some (c.describe fixed) := by
  have hfound : ∀ x ∈ fixed,
      c.describeConstraint? x = some ((c.describeConstraint? x).getD "") := by
    intro x hx
    obtain ⟨v, hv, -⟩ := h x hx
    simp [describeConstraint?, hv]
  rw [describe?, mapM_eq_some hfound, describe, Option.map_some, ← List.filterMap_eq_map]
  congr 2
  exact List.filterMap_congr fun x hx => (hfound x hx).symm

end Catalog

/-! ## Distributions -/

namespace Distribution

variable {α : Type} [Scalar α] (d : Distribution α)

/-- The sum over all assignments that agree with constraints. -/
def mass? (fixed : List Constraint) : Option α :=
  (d.probs.zipIdx.filterM fun entry => d.catalog.agrees? fixed entry.2).map fun entries =>
    Weights.compensatedSum (entries.map Prod.fst)

/-- The probability of the targets given the conditions. -/
def conditionalMass? (targets conditions : List Constraint) :
    Option (Except QueryError α) := do
  let joint ← d.mass? (targets ++ conditions)
  if conditions.isEmpty then return .ok joint
  else
    let given ← d.mass? conditions
    if given == 0 then return .error (.zeroCondition (← d.catalog.describe? conditions))
    else return .ok (joint / given)

/-- The constraints that a variable has each of its states. -/
def choices? (var : Nat) : Option (List Constraint) :=
  d.catalog.vars[var]?.map fun v => (List.range v.cardinality).map (⟨var, ·⟩)

/-- Whether two variables are independent under a measure of constraints. -/
def independentUnder? (measure : List Constraint → Option α) (tolerance : α) (a b : Nat) :
    Option Bool := do
  let left ← (← d.choices? a).mapM fun x => (measure [x]).map (x, ·)
  let right ← (← d.choices? b).mapM fun y => (measure [y]).map (y, ·)
  left.allM fun (x, p) => right.allM fun (y, q) =>
    (measure [x, y]).map fun joint => !decide (tolerance < Scalar.abs (joint - p * q))

/-- Whether two variables are independent. -/
def independent? (tolerance : α) (a b : Nat) : Option Bool :=
  d.independentUnder? d.mass? tolerance a b

/-- Whether two variables are independent given each state of a third one
    that has a positive probability. -/
def condIndependent? (tolerance : α) (a b given : Nat) : Option Bool := do
  (← d.choices? given).allM fun z => do
    let weight ← d.mass? [z]
    if weight ≤ 0 then return true
    else d.independentUnder? (fun xs => (d.mass? (xs ++ [z])).map (· / weight)) tolerance a b

variable {d}

/-- **The masses of constraints are found.** -/
theorem mass?_eq_some {fixed : List Constraint} (h : d.catalog.Admits fixed) :
    d.mass? fixed = some (d.mass fixed) := by
  rw [mass?, filterM_eq_some (p := fun e => agrees d.catalog.cardinalities fixed e.2), mass_eq]
  · rfl
  · rintro ⟨p, linear⟩ hmem
    have hlt : linear < d.catalog.size := by
      simpa [d.length_probs] using List.snd_lt_of_mem_zipIdx hmem
    exact Catalog.agrees?_eq_some hlt h

theorem conditionalMass?_eq_some {targets conditions : List Constraint}
    (h : d.catalog.Admits (targets ++ conditions)) :
    d.conditionalMass? targets conditions = some (d.conditionalMass targets conditions) := by
  have hconditions : d.catalog.Admits conditions := (List.forall_mem_append.1 h).2
  simp only [conditionalMass?, conditionalMass, mass?_eq_some h, mass?_eq_some hconditions,
    Catalog.describe?_eq_some hconditions, Option.bind_eq_bind, Option.bind_some]
  split_ifs <;> rfl

omit [Scalar α] in
theorem choices?_eq_some {v : Nat} (h : v < d.catalog.vars.length) :
    d.choices? v = some (d.choices v) := by
  simp [choices?, choices, List.getElem?_eq_getElem h]

omit [Scalar α] in
/-- The choices of a variable are states that it has. -/
theorem admits_choices {v : Nat} {x : Constraint} (hx : x ∈ d.choices v) :
    d.catalog.Admits [x] := by
  obtain ⟨s, hs, rfl⟩ := List.mem_map.1 hx
  cases hv : d.catalog.vars[v]? with
  | none => simp [hv] at hs
  | some w => exact Catalog.admits_singleton hv (by simpa [hv] using hs)

theorem independentUnder?_eq_some {measure? : List Constraint → Option α}
    {measure : List Constraint → α} {a b : Nat}
    (hmeasure : ∀ xs, d.catalog.Admits xs → measure? xs = some (measure xs))
    (ha : a < d.catalog.vars.length) (hb : b < d.catalog.vars.length) (tolerance : α) :
    d.independentUnder? measure? tolerance a b =
      some (d.independentUnder measure tolerance a b) := by
  have hsingle (v : Nat) : (d.choices v).mapM (fun x => (measure? [x]).map (x, ·)) =
      some ((d.choices v).map fun x => (x, measure [x])) :=
    mapM_eq_some fun x hx => by rw [hmeasure [x] (admits_choices hx)]; rfl
  simp only [independentUnder?, choices?_eq_some ha, choices?_eq_some hb, hsingle,
    Option.bind_eq_bind, Option.bind_some]
  refine allM_eq_some fun xp hxp => allM_eq_some fun yq hyq => ?_
  obtain ⟨x, hx, rfl⟩ := List.mem_map.1 hxp
  obtain ⟨y, hy, rfl⟩ := List.mem_map.1 hyq
  rw [hmeasure [x, y] (Catalog.admits_append (admits_choices hx) (admits_choices hy))]
  rfl

/-- **Questions about independence find all they look for.** -/
theorem independent?_eq_some {a b : Nat} (ha : a < d.catalog.vars.length)
    (hb : b < d.catalog.vars.length) (tolerance : α) :
    d.independent? tolerance a b = some (d.independent tolerance a b) :=
  independentUnder?_eq_some (fun _ h => mass?_eq_some h) ha hb tolerance

theorem condIndependent?_eq_some {a b given : Nat} (ha : a < d.catalog.vars.length)
    (hb : b < d.catalog.vars.length) (hgiven : given < d.catalog.vars.length) (tolerance : α) :
    d.condIndependent? tolerance a b given = some (d.condIndependent tolerance a b given) := by
  rw [condIndependent?, choices?_eq_some hgiven, Option.bind_eq_bind, Option.bind_some]
  refine allM_eq_some fun z hz => ?_
  have hz := admits_choices hz
  rw [mass?_eq_some hz, Option.bind_eq_bind, Option.bind_some]
  dsimp only
  split_ifs
  · rfl
  · refine independentUnder?_eq_some (fun xs hxs => ?_) ha hb tolerance
    rw [mass?_eq_some (Catalog.admits_append hxs hz)]
    rfl

end Distribution

/-! ## Queries -/

namespace Query

variable {α : Type} [Scalar α] (d : Distribution α)

/-- The number that arithmetic gives. -/
def amount? : Query α → Option (Except QueryError α)
  | .number x => some (.ok x)
  | .negate operand => (amount? operand).map (·.map (-·))
  | .probability targets conditions =>
    d.conditionalMass? (constraints targets) (constraints conditions)
  | .binary op left right => do
    match ← amount? left with
    | .error e => return .error e
    | .ok x =>
      match ← amount? right with
      | .error e => return .error e
      | .ok y => return op.apply x y
  | .independence .. | .condIndependence .. => some (.error (.malformed 0 .predicateInArithmetic))

/-- The truth of a question about independence. -/
def holds? (tolerance : α) : Query α → Option (Except QueryError Bool)
  | .independence a b => (d.independent? tolerance a b).map .ok
  | .condIndependence a b given => (d.condIndependent? tolerance a b given).map .ok
  | _ => some (.error (.malformed 0 .predicateNeeded))

/-- The answer to a query under tolerances. -/
def evaluateWith? (tolerances : Tolerances α) (q : Query α) :
    Option (Except QueryError (Value α)) :=
  match q.inRange d.catalog with
  | .error e => some (.error e)
  | .ok () =>
    if q.isPredicate then (q.holds? d tolerances.independence).map (·.map .truth)
    else (q.amount? d).map (·.map .number)

variable {d}

/-- **Arithmetic within the catalog finds all it looks for.** -/
theorem amount?_eq_some {q : Query α} (h : q.Within d.catalog) :
    q.amount? d = some (q.amount d) := by
  induction q with
  | number x => rfl
  | independence | condIndependence => rfl
  | probability targets conditions =>
    have hadmits := within_probability.1 h
    rw [constraints, List.map_append] at hadmits
    exact Distribution.conditionalMass?_eq_some hadmits
  | negate operand ih =>
    rw [amount?, ih (within_negate.1 h)]
    rfl
  | binary op left right ihl ihr =>
    obtain ⟨hleft, hright⟩ := within_binary.1 h
    simp only [amount?, amount, ihl hleft, ihr hright, Option.bind_eq_bind, Option.bind_some]
    cases amount d left with
    | error e => rfl
    | ok x => cases amount d right <;> rfl

theorem holds?_eq_some {q : Query α} (h : q.Within d.catalog) (tolerance : α) :
    q.holds? d tolerance = some (q.holds d tolerance) := by
  cases q with
  | number | negate | probability | binary => rfl
  | independence a b =>
    obtain ⟨ha, hb⟩ := within_independence.1 h
    rw [holds?, Distribution.independent?_eq_some ha hb]
    rfl
  | condIndependence a b given =>
    obtain ⟨ha, hb, hgiven⟩ := within_condIndependence.1 h
    rw [holds?, Distribution.condIndependent?_eq_some ha hb hgiven]
    rfl

/-- What can be said of the evaluation of a query, whatever its positions are
    and wherever it was bound. -/
structure Safe (d : Distribution α) (tolerances : Tolerances α) (q : Query α) : Prop where
  /-- All that is looked up is found. -/
  evaluateWith?_eq : q.evaluateWith? d tolerances = some (q.evaluateWith d tolerances)
  /-- It is foreign if it has a variable or a state that the catalog has not. -/
  exists_foreign_iff : (∃ e, q.evaluateWith d tolerances = .error e ∧ e.IsForeign) ↔
    (∃ v ∈ q.mentioned, d.catalog.vars.length ≤ v) ∨
      ∃ x ∈ q.stated, ∃ v, d.catalog.vars[x.var]? = some v ∧ v.cardinality ≤ x.state
  /-- Otherwise it has a value, or a quotient by zero, or a question among its
      arithmetic. -/
  exists_ok_or (h : q.Within d.catalog) : (∃ v, q.evaluateWith d tolerances = .ok v) ∨
    ∃ e, q.evaluateWith d tolerances = .error e ∧ (e.IsUndefined ∨ e.IsMalformed)

/-- Within the catalog no position is reported. -/
theorem ends_evaluateWith {q : Query α} (h : q.Within d.catalog) (tolerances : Tolerances α) :
    Ends (fun e => e.IsUndefined ∨ e.IsMalformed) (fun _ => True)
      (q.evaluateWith d tolerances) := by
  rw [evaluateWith_of_within h]
  split_ifs with hpredicate
  · obtain ⟨b, hb⟩ := exists_holds d hpredicate tolerances.independence
    rw [hb]
    trivial
  · exact ((ends_amount d q).map fun _ _ => trivial).mono_error fun _ he => he.imp_right And.left

/-- **Every query is evaluated safely.** -/
theorem safe (d : Distribution α) (tolerances : Tolerances α) (q : Query α) :
    q.Safe d tolerances where
  evaluateWith?_eq := by
    have hrange := ends_inRange (c := d.catalog) q
    rw [evaluateWith?, evaluateWith]
    cases hq : q.inRange d.catalog with
    | error e => rfl
    | ok u =>
      rw [hq] at hrange
      dsimp only
      split_ifs
      · rw [holds?_eq_some hrange]
        rfl
      · rw [amount?_eq_some hrange]
        rfl
  exists_foreign_iff := by
    rw [← not_within_iff]
    constructor
    · rintro ⟨e, he, hforeign⟩ hwithin
      have hends := ends_evaluateWith hwithin tolerances
      rw [he] at hends
      exact hends.elim hforeign.not_isUndefined hforeign.not_isMalformed
    · intro hnot
      have hrange := ends_inRange (c := d.catalog) q
      rw [evaluateWith]
      cases hq : q.inRange d.catalog with
      | error e =>
        rw [hq] at hrange
        exact ⟨e, rfl, hrange⟩
      | ok u =>
        rw [hq] at hrange
        exact absurd hrange hnot
  exists_ok_or h := by
    have hends := ends_evaluateWith h tolerances
    cases hq : q.evaluateWith d tolerances with
    | ok v => exact .inl ⟨v, rfl⟩
    | error e =>
      rw [hq] at hends
      exact .inr ⟨e, rfl, hends⟩

/-- Arithmetic on a variable that there is not finds nothing. -/
example :
    let d : Distribution ℚ := ⟨.of [.boolean "Rain"], [3/4, 1/4], rfl⟩
    amount? d (.probability [⟨⟨1, 0⟩, .explicit⟩] []) = none := by
  decide +kernel

end Query

end JointProb
