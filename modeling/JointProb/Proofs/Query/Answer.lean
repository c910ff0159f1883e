/-
  JointProb — answers to queries that state everything.

  * `VarSpec.Stands` says of an entry with a name and a state that it stands
    for a constraint;
  * `bindSide_of_stands`: such entries are bound to their constraints;
  * `Distribution.askWith_printed`: a written probability is answered with the
    mass of its constraints, however the text is laid out;
  * `Distribution.mass_full`: the mass of one full assignment is its entry.
-/
import JointProb.Proofs.Query.Positions
import JointProb.Proofs.Query.Printer

namespace JointProb

/-! ## Binding -/

/-- An entry that states what a constraint says. -/
structure VarSpec.Stands (c : Catalog) (s : VarSpec) (x : Constraint) : Prop where
  not_negated : s.negated = false
  exists_state : ∃ label v, s.state = some label ∧ c.lookup s.name = .ok ⟨v, x.var⟩ ∧
    c.vars[x.var]? = some v ∧ v.resolve? label = some x.state ∧ x.state < v.cardinality

variable {c : Catalog}

theorem VarSpec.Stands.bind_eq {s : VarSpec} {x : Constraint} (h : s.Stands c x) :
    s.bind c = .ok ⟨x, .explicit⟩ := by
  obtain ⟨hneg, label, v, hstate, hlookup, -, hresolve, -⟩ := h
  rw [bind, hlookup]
  simp only [explicitState, hstate, hresolve, choose, hneg]
  rfl

/-- The place of an entry does not matter. -/
theorem VarSpec.Stands.of_unplaced {s t : VarSpec} {x : Constraint} (h : s.Stands c x)
    (hst : t.unplaced = s.unplaced) : t.Stands c x := by
  obtain ⟨name, negated, state, position⟩ := s
  obtain ⟨name', negated', state', position'⟩ := t
  cases hst
  exact ⟨h.not_negated, h.exists_state⟩

theorem forall₂_stands_of_unplaced {ss ts : List VarSpec} {xs : List Constraint}
    (h : List.Forall₂ (VarSpec.Stands c) ss xs)
    (hst : ts.map VarSpec.unplaced = ss.map VarSpec.unplaced) :
    List.Forall₂ (VarSpec.Stands c) ts xs := by
  induction h generalizing ts with
  | nil =>
    obtain rfl := List.map_eq_nil_iff.1 hst
    exact .nil
  | cons hs _ ih =>
    obtain ⟨t, us, rfl, ht, hus⟩ := List.map_eq_cons_iff.1 hst
    exact .cons (hs.of_unplaced ht) (ih hus)

theorem bindAfter_of_stands {ss : List VarSpec} {xs : List Constraint}
    (h : List.Forall₂ (VarSpec.Stands c) ss xs) {bound : List BoundSpec}
    (hnodup : ((bound.map fun b => b.var) ++ xs.map Constraint.var).Nodup) :
    bindAfter c bound ss = .ok (bound ++ xs.map fun x => ⟨x, .explicit⟩) := by
  induction h generalizing bound with
  | nil => simp [bindAfter]
  | @cons s x ss xs hs _ ih =>
    have hnew : bound.find? (fun b => b.var == x.var) = none := by
      rw [List.find?_eq_none]
      intro b hb he
      refine List.disjoint_of_nodup_append hnodup (List.mem_map_of_mem hb) ?_
      exact List.mem_map.2 ⟨x, List.mem_cons_self .., (eq_of_beq he).symm⟩
    rw [bindAfter, hs.bind_eq]
    simp only [hnew]
    rw [ih (by simpa using hnodup)]
    simp

/-- **Entries that state everything are bound to their constraints.** -/
theorem bindSide_of_stands {ss : List VarSpec} {xs : List Constraint}
    (h : List.Forall₂ (VarSpec.Stands c) ss xs) (hnodup : (xs.map Constraint.var).Nodup) :
    bindSide c ss = .ok (xs.map fun x => ⟨x, .explicit⟩) :=
  bindAfter_of_stands h hnodup

/-! ## Answers -/

theorem constraintsInRange_of_stands {ss : List VarSpec} {xs : List Constraint}
    (h : List.Forall₂ (VarSpec.Stands c) ss xs) : Query.constraintsInRange c xs = .ok () :=
  Query.constraintsInRange_eq_ok fun x hx => by
    obtain ⟨s, -, hs⟩ := exists_left_of_forall₂ h hx
    obtain ⟨-, label, v, -, -, hv, -, hlt⟩ := hs
    exact ⟨v, hv, hlt⟩

namespace Distribution

/-- **A written probability is answered with the mass of its constraints.** -/
theorem askWith_printed {α : Type} [Scalar α] {d : Distribution α}
    (tolerances : Tolerances α) {targets conditions : List VarSpec} {xs ys : List Constraint}
    (htargets : List.Forall₂ (VarSpec.Stands d.catalog) targets xs)
    (hconditions : List.Forall₂ (VarSpec.Stands d.catalog) conditions ys)
    (hxs : (xs.map Constraint.var).Nodup) (hys : (ys.map Constraint.var).Nodup)
    (hquery : Expr.IsQuery (.probability targets conditions)) {gap : Nat → List Char}
    (hgap : ∀ i, ∀ c ∈ gap i, Token.separates c) :
    d.askWith tolerances (Expr.printed gap (.probability targets conditions)) =
      (d.conditionalMass xs ys).map .number := by
  obtain ⟨y, ts, e, hscan, hy, hsame, -⟩ := Expr.exists_scan_printed hquery hgap
  have hparse := Expr.parse_of_derivesQuery (α := α) hscan hy
  -- the tree that is read differs in the places of the names only
  obtain ⟨us, vs, rfl, hus, hvs⟩ : ∃ us vs, y = .probability us vs ∧
      us.map VarSpec.unplaced = targets.map VarSpec.unplaced ∧
      vs.map VarSpec.unplaced = conditions.map VarSpec.unplaced := by
    cases y with
    | probability us vs =>
      obtain ⟨hus, hvs⟩ := (Tree.probability.injEq ..).mp hsame
      exact ⟨us, vs, rfl, hus, hvs⟩
    | independence | condIndependence | binary | negate | number => cases hsame
  have htargets' := forall₂_stands_of_unplaced htargets hus
  have hconditions' := forall₂_stands_of_unplaced hconditions hvs
  have hrange : Query.constraintsInRange d.catalog (xs ++ ys) = .ok () :=
    constraintsInRange_of_stands (List.rel_append htargets hconditions)
  rw [askWith, hparse]
  simp only [bind, Except.bind, Expr.withValues, Tree.map, Expr.bind, List.map_id,
    bindSide_of_stands htargets' hxs, bindSide_of_stands hconditions' hys]
  have hconstraints (zs : List Constraint) :
      Query.constraints (zs.map fun x => (⟨x, .explicit⟩ : BoundSpec)) = zs := by
    rw [Query.constraints, List.map_map]
    exact List.map_id zs
  rw [Query.evaluateWith, Query.inRange, ← List.map_append, hconstraints, hrange]
  simp only [Query.amount, hconstraints]
  rfl

/-- **The mass of one full assignment is its entry.** -/
theorem mass_full (d : Distribution ℚ) {states : List Nat}
    (h : MixedRadix.Below d.catalog.cardinalities states) :
    d.mass (states.mapIdx fun i s => ⟨i, s⟩) = (d.probs[d.catalog.encode states]?).getD 0 := by
  have hlt : d.catalog.encode states < d.probs.length := by
    rw [d.length_probs]
    exact MixedRadix.value_lt_size h
  rw [List.getElem?_eq_getElem hlt]
  refine mass_of_full Scalar.lossless_rat h (fun x => ?_) (List.getElem?_eq_getElem hlt)
  rw [List.mem_mapIdx, List.getElem?_eq_some_iff]
  constructor
  · rintro ⟨i, hi, rfl⟩
    exact ⟨hi, rfl⟩
  · rintro ⟨hi, hs⟩
    exact ⟨x.var, hi, by rw [hs]⟩

end Distribution

end JointProb
