/-
  JointProb — the positions in a query.

  * `Query.mentioned` are the variables in a query and `Query.stated` the
    constraints, `Query.Within` says that a catalog has all of them;
  * `Query.inRange_eq_ok`: queries within the catalog are accepted;
  * `Query.ends_inRange`: all others are reported for a variable or a state
    that there is not.
-/
import JointProb.Proofs.Distribution.Laws
import JointProb.Proofs.Query.Evaluation

namespace JointProb.Query

variable {α : Type} {c : Catalog}

/-! ## Positions -/

/-- The constraints in a query. -/
def stated : Query α → List Constraint
  | .probability targets conditions => constraints (targets ++ conditions)
  | .independence .. | .condIndependence .. | .number _ => []
  | .binary _ left right => stated left ++ stated right
  | .negate operand => stated operand

/-- The variables in a query. -/
def mentioned : Query α → List Nat
  | .probability targets conditions => (constraints (targets ++ conditions)).map Constraint.var
  | .independence a b => [a, b]
  | .condIndependence a b given => [a, b, given]
  | .binary _ left right => mentioned left ++ mentioned right
  | .negate operand => mentioned operand
  | .number _ => []

/-- A query on variables and states that a catalog has. -/
structure Within (c : Catalog) (q : Query α) : Prop where
  mentioned_lt : ∀ v ∈ q.mentioned, v < c.vars.length
  stated_lt : ∀ x ∈ q.stated, ∀ v, c.vars[x.var]? = some v → x.state < v.cardinality

/-- Otherwise it has a variable or a state that the catalog has not. -/
theorem not_within_iff {q : Query α} : ¬ q.Within c ↔
    (∃ v ∈ q.mentioned, c.vars.length ≤ v) ∨
      ∃ x ∈ q.stated, ∃ v, c.vars[x.var]? = some v ∧ v.cardinality ≤ x.state := by
  constructor
  · intro h
    by_contra hnone
    rw [not_or] at hnone
    refine h ⟨fun v hv => ?_, fun x hx v hxv => ?_⟩
    · by_contra hge
      exact hnone.1 ⟨v, hv, Nat.not_lt.1 hge⟩
    · by_contra hge
      exact hnone.2 ⟨x, hx, v, hxv, Nat.not_lt.1 hge⟩
  · rintro (⟨v, hv, hge⟩ | ⟨x, hx, v, hxv, hge⟩) h
    · exact Nat.not_lt.2 hge (h.mentioned_lt v hv)
    · exact Nat.not_lt.2 hge (h.stated_lt x hx v hxv)

/-! ## One equation for each kind of query -/

theorem within_probability {targets conditions : List BoundSpec} :
    Within c (.probability targets conditions : Query α) ↔
      c.Admits (constraints (targets ++ conditions)) := by
  constructor
  · rintro ⟨hlt, hstate⟩ x hx
    have hvar : x.var < c.vars.length := hlt _ (List.mem_map_of_mem hx)
    have hget := List.getElem?_eq_getElem hvar
    exact ⟨_, hget, hstate x hx _ hget⟩
  · intro h
    refine ⟨fun v hv => ?_, fun x hx v hxv => ?_⟩
    · obtain ⟨x, hx, rfl⟩ := List.mem_map.1 hv
      obtain ⟨w, hw, -⟩ := h x hx
      exact (List.getElem?_eq_some_iff.1 hw).1
    · obtain ⟨w, hw, hlt⟩ := h x hx
      rw [hxv] at hw
      cases hw
      exact hlt

theorem within_independence {a b : Nat} : Within c (.independence a b : Query α) ↔
    a < c.vars.length ∧ b < c.vars.length := by
  constructor
  · intro h
    exact ⟨h.mentioned_lt a (by simp [mentioned]), h.mentioned_lt b (by simp [mentioned])⟩
  · rintro ⟨ha, hb⟩
    exact ⟨by simp [mentioned, ha, hb], by simp [stated]⟩

theorem within_condIndependence {a b given : Nat} :
    Within c (.condIndependence a b given : Query α) ↔
      a < c.vars.length ∧ b < c.vars.length ∧ given < c.vars.length := by
  constructor
  · intro h
    exact ⟨h.mentioned_lt a (by simp [mentioned]), h.mentioned_lt b (by simp [mentioned]),
      h.mentioned_lt given (by simp [mentioned])⟩
  · rintro ⟨ha, hb, hgiven⟩
    exact ⟨by simp [mentioned, ha, hb, hgiven], by simp [stated]⟩

theorem within_binary {op : Operator} {left right : Query α} :
    Within c (.binary op left right : Query α) ↔ left.Within c ∧ right.Within c := by
  constructor
  · rintro ⟨hlt, hstate⟩
    exact ⟨⟨fun v hv => hlt v (List.mem_append_left _ hv),
        fun x hx => hstate x (List.mem_append_left _ hx)⟩,
      ⟨fun v hv => hlt v (List.mem_append_right _ hv),
        fun x hx => hstate x (List.mem_append_right _ hx)⟩⟩
  · rintro ⟨hleft, hright⟩
    exact ⟨List.forall_mem_append.2 ⟨hleft.mentioned_lt, hright.mentioned_lt⟩,
      List.forall_mem_append.2 ⟨hleft.stated_lt, hright.stated_lt⟩⟩

theorem within_negate {operand : Query α} :
    Within c (.negate operand : Query α) ↔ operand.Within c :=
  ⟨fun h => ⟨h.mentioned_lt, h.stated_lt⟩, fun h => ⟨h.mentioned_lt, h.stated_lt⟩⟩

theorem within_number {x : α} : Within c (.number x : Query α) :=
  ⟨by simp [mentioned], by simp [stated]⟩

/-! ## The check -/

theorem variableInRange_eq_ok {v : Nat} (h : v < c.vars.length) :
    variableInRange c v = .ok c.vars[v] := by
  rw [variableInRange, List.getElem?_eq_getElem h]

theorem constraintsInRange_eq_ok {xs : List Constraint} (h : c.Admits xs) :
    constraintsInRange c xs = .ok () := by
  induction xs with
  | nil => rfl
  | cons x xs ih =>
    obtain ⟨⟨v, hv, hlt⟩, hxs⟩ := List.forall_mem_cons.1 h
    simp [constraintsInRange, variableInRange, hv, hlt, ih hxs]

/-- **Queries within the catalog are accepted.** -/
theorem inRange_eq_ok {q : Query α} (h : q.Within c) : q.inRange c = .ok () := by
  induction q with
  | probability targets conditions =>
    exact constraintsInRange_eq_ok (within_probability.1 h)
  | independence a b =>
    obtain ⟨ha, hb⟩ := within_independence.1 h
    rw [inRange, variableInRange_eq_ok ha, variableInRange_eq_ok hb]
    rfl
  | condIndependence a b given =>
    obtain ⟨ha, hb, hgiven⟩ := within_condIndependence.1 h
    rw [inRange, variableInRange_eq_ok ha, variableInRange_eq_ok hb,
      variableInRange_eq_ok hgiven]
    rfl
  | binary op left right ihl ihr =>
    obtain ⟨hleft, hright⟩ := within_binary.1 h
    rw [inRange, ihl hleft, ihr hright]
    rfl
  | negate operand ih => exact ih (within_negate.1 h)
  | number x => rfl

theorem ends_variableInRange (v : Nat) :
    Ends QueryError.IsForeign (c.vars[v]? = some ·) (variableInRange c v) := by
  rw [variableInRange]
  cases hv : c.vars[v]? with
  | none => exact .unknownVariable _
  | some w => rfl

theorem ends_constraintsInRange (xs : List Constraint) :
    Ends QueryError.IsForeign (fun _ => c.Admits xs) (constraintsInRange c xs) := by
  induction xs with
  | nil => exact fun x hx => absurd hx List.not_mem_nil
  | cons x xs ih =>
    rw [constraintsInRange]
    have hx := ends_variableInRange (c := c) x.var
    cases hv : variableInRange c x.var with
    | error e => rwa [hv] at hx
    | ok v =>
      rw [hv] at hx
      dsimp only
      split_ifs with hlt
      · cases hxs : constraintsInRange c xs with
        | error e => rwa [hxs] at ih
        | ok u =>
          rw [hxs] at ih
          exact List.forall_mem_cons.2 ⟨⟨v, hx, hlt⟩, ih⟩
      · exact .unknownState _ _

/-- **All others are reported** for a variable or a state that there is not. -/
theorem ends_inRange (q : Query α) :
    Ends QueryError.IsForeign (fun _ => q.Within c) (q.inRange c) := by
  have hlt {v : Nat} {w : Variable} (h : c.vars[v]? = some w) : v < c.vars.length :=
    (List.getElem?_eq_some_iff.1 h).1
  have hdiscard (v : Nat) :
      Ends QueryError.IsForeign (fun _ => v < c.vars.length) (discard (variableInRange c v)) :=
    (ends_variableInRange v).map fun _ h => hlt h
  induction q with
  | probability targets conditions =>
    simp only [within_probability]
    exact ends_constraintsInRange _
  | independence a b =>
    simp only [within_independence]
    exact (hdiscard a).bind fun _ ha => (hdiscard b).mono fun _ hb => ⟨ha, hb⟩
  | condIndependence a b given =>
    simp only [within_condIndependence]
    exact (hdiscard a).bind fun _ ha => (hdiscard b).bind fun _ hb =>
      (hdiscard given).mono fun _ hgiven => ⟨ha, hb, hgiven⟩
  | binary op left right ihl ihr =>
    simp only [within_binary]
    exact ihl.bind fun _ hleft => ihr.mono fun _ hright => ⟨hleft, hright⟩
  | negate operand ih =>
    simp only [within_negate]
    exact ih
  | number x => exact within_number

/-! ## Evaluation -/

/-- Within the catalog the check does not matter. -/
theorem evaluateWith_of_within [Scalar α] {d : Distribution α} {q : Query α}
    (h : q.Within d.catalog) (tolerances : Tolerances α) : q.evaluateWith d tolerances =
      if q.isPredicate then (q.holds d tolerances.independence).map .truth
      else (q.amount d).map .number := by
  rw [evaluateWith, inRange_eq_ok h]

end JointProb.Query
