/-
  JointProb — queries in other words.

      P(Rain, ~Late | Sky=Grey)      P(Late=no, Rain, Not(Late) | Sky=1)

  An entry may change its place on its side of the bar, come again, or be
  written in another way, as long as it denotes the same constraint.

  * `Tree.Reworded` holds of trees that differ in the sides of their bars only;
  * `Expr.bind_reworded`: such queries bind to such queries, or both do not;
  * `Query.amount_reworded`: the numbers are the same, whatever is added up in
    which way, since only the set of constraints counts;
  * `Grammar.FalseSpec.denotes_iff`: `~Late`, `~(Late)`, `Not(Late)` and `Late=no`
    denote the same;
  * `Catalog.BindsSides` has what can be said of the sides of a bar, and of texts
    that differ in them; `Catalog.bindsSides`: so it is for all catalogs
    whose positions are in step, which those are that can be made.
-/
import JointProb.Proofs.Query.Binding
import JointProb.Proofs.Query.Grammar
import JointProb.Proofs.Query.Independence
import JointProb.Proofs.Query.Printer

namespace JointProb

open Query (constraints)

variable {α : Type}

/-! ## Trees -/

/-- Trees that are the same but for the sides of their bars, and there have
    related ones. -/
inductive Tree.Reworded {σ ν : Type} (R : List σ → List σ → Prop) :
    Tree σ ν α → Tree σ ν α → Prop
  | probability {targets targets' conditions conditions' : List σ} (ht : R targets targets')
      (hc : R conditions conditions') :
      Reworded R (.probability targets conditions) (.probability targets' conditions')
  | independence {a b : ν} : Reworded R (.independence a b) (.independence a b)
  | condIndependence {a b given : ν} :
      Reworded R (.condIndependence a b given) (.condIndependence a b given)
  | binary {op : Operator} {x x' y y' : Tree σ ν α} (hx : Reworded R x x')
      (hy : Reworded R y y') : Reworded R (.binary op x y) (.binary op x' y')
  | negate {x x' : Tree σ ν α} (h : Reworded R x x') : Reworded R (.negate x) (.negate x')
  | number {x : α} : Reworded R (.number x) (.number x)

theorem Tree.Reworded.isPredicate_eq {σ ν : Type} {R : List σ → List σ → Prop} {x x' : Tree σ ν α}
    (h : x.Reworded R x') : x.isPredicate = x'.isPredicate := by
  cases h <;> rfl

theorem Expr.withValues_reworded [Scalar α] {R : List VarSpec → List VarSpec → Prop}
    {x x' : Expr String} (h : x.Reworded R x') :
    (x.withValues : Expr α).Reworded R x'.withValues := by
  induction h with
  | probability ht hc =>
    simp only [withValues, Tree.map, List.map_id]
    exact .probability ht hc
  | independence => exact .independence
  | condIndependence => exact .condIndependence
  | binary _ _ ihx ihy => exact .binary ihx ihy
  | negate _ ih => exact .negate ih
  | number => exact .number

/-- The same constraints. -/
def BoundSpec.SameSides (bs bs' : List BoundSpec) : Prop :=
  ∀ x, x ∈ constraints bs ↔ x ∈ constraints bs'

/-- **Such queries bind to such queries**, or both do not. -/
theorem Expr.bind_reworded {c : Catalog} (hc : c.InStep) {x x' : Expr α}
    (h : x.Reworded (SidesAgree c) x') :
    Agree (Tree.Reworded BoundSpec.SameSides) (x.bind c) (x'.bind c) := by
  have hposition (name : String) : Agree Eq (c.position name) (c.position name) := agree_refl
  induction h with
  | probability ht hgiven =>
    exact (ht.bindSide_agree hc).bind fun ts ts' hts =>
      (hgiven.bindSide_agree hc).bind fun us us' hus => .ok (.probability hts hus)
  | @independence a b =>
    refine (hposition a).bind fun i i' hi => (hposition b).bind fun j j' hj => ?_
    exact hi ▸ hj ▸ .ok .independence
  | @condIndependence a b given =>
    refine (hposition a).bind fun i i' hi => (hposition b).bind fun j j' hj =>
      (hposition given).bind fun k k' hk => ?_
    exact hi ▸ hj ▸ hk ▸ .ok .condIndependence
  | binary _ _ ihx ihy =>
    exact ihx.bind fun q q' hq => ihy.bind fun r r' hr => .ok (.binary hq hr)
  | negate _ ih => exact ih.bind fun q q' hq => .ok (.negate hq)
  | number => exact .ok .number

/-! ## Answers -/

section

variable [Scalar α] {d : Distribution α}

theorem Distribution.conditionalMass_agree
    {targets targets' conditions conditions' : List Constraint}
    (ht : ∀ x, x ∈ targets ↔ x ∈ targets') (hc : ∀ x, x ∈ conditions ↔ x ∈ conditions') :
    Agree Eq (d.conditionalMass targets conditions) (d.conditionalMass targets' conditions') := by
  have hjoint : d.mass (targets ++ conditions) = d.mass (targets' ++ conditions') :=
    d.mass_congr fun x => by rw [List.mem_append, List.mem_append, ht, hc]
  have hempty : conditions.isEmpty = conditions'.isEmpty := by
    rw [Bool.eq_iff_iff, List.isEmpty_iff, List.isEmpty_iff, List.eq_nil_iff_forall_not_mem,
      List.eq_nil_iff_forall_not_mem]
    exact forall_congr' fun x => not_congr (hc x)
  rw [conditionalMass, conditionalMass, hjoint, hempty, d.mass_congr hc]
  dsimp only
  split_ifs
  · exact .ok rfl
  · exact .error
  · exact .ok rfl

/-- **Arithmetic gives the same number**, or fails both times. -/
theorem Query.amount_reworded {q q' : Query α} (h : q.Reworded BoundSpec.SameSides q') :
    Agree Eq (q.amount d) (q'.amount d) := by
  induction h with
  | probability ht hc => exact Distribution.conditionalMass_agree ht hc
  | independence | condIndependence => exact .error
  | binary _ _ ihx ihy =>
    exact ihx.bind fun x x' hx => ihy.bind fun y y' hy => hx ▸ hy ▸ agree_refl
  | negate _ ih => exact ih.map fun x x' hx => congrArg _ hx
  | number => exact .ok rfl

/-- Questions have the same truth. -/
theorem Query.holds_reworded {q q' : Query α} (h : q.Reworded BoundSpec.SameSides q')
    (tolerance : α) : q.holds d tolerance = q'.holds d tolerance := by
  cases h <;> rfl

/-- **Texts that say the same have the same answer**, or none. -/
theorem Distribution.askWith_reworded (hd : d.catalog.InStep) (tolerances : Tolerances α)
    {text text' : String} {x x' : Expr α} (hx : Expr.parse text = .ok x)
    (hx' : Expr.parse text' = .ok x') (h : x.Reworded (SidesAgree d.catalog) x') :
    Agree Eq (d.askWith tolerances text) (d.askWith tolerances text') := by
  have hbind := Expr.bind_reworded hd h
  generalize hq : x.bind d.catalog = r, hq' : x'.bind d.catalog = r' at hbind
  cases hbind with
  | error =>
    rw [d.askWith_of_bind_error tolerances hx hq, d.askWith_of_bind_error tolerances hx' hq']
    exact .error
  | ok hsame =>
    obtain ⟨hwithin, -, -, hask⟩ := d.of_bind tolerances hd hx hq
    obtain ⟨hwithin', -, -, hask'⟩ := d.of_bind tolerances hd hx' hq'
    rw [hask, hask', Query.evaluateWith_of_within hwithin, Query.evaluateWith_of_within hwithin',
      hsame.isPredicate_eq, Query.holds_reworded hsame]
    split_ifs
    · exact agree_refl
    · exact (Query.amount_reworded hsame).map fun x y hxy => congrArg _ hxy

end

/-! ## Spellings of the false state -/

/-- The label of the false state leads to it: it is not the other one. -/
theorem Variable.resolve?_falseState {v : Variable} {defaults : DefaultStates} {label : String}
    (h : v.defaults? = some defaults) (hlabel : v.states[defaults.falseState]? = some label) :
    v.resolve? label = some defaults.falseState := by
  rw [defaults?] at h
  split at h
  · next no yes hstates =>
    rw [hstates] at hlabel
    split_ifs at h with hmeans hswap
    · cases h
      cases hlabel
      simp [resolve?, hstates, List.findIdx?_cons]
    · cases h
      cases hlabel
      have hne : no ≠ label := by
        rintro rfl
        exact hmeans hswap
      simp [resolve?, hstates, List.findIdx?_cons, hne]
  · cases h

namespace Grammar

/-- The entries for the false state of a variable: `~ name`, `~ ( name )` and
    `Not ( name )`, perhaps with its label, and `name = label`. -/
inductive FalseSpec (name label : String) : List Token → VarSpec → Prop
  | negated {ts us : List Token} {n : Token} {stated : Option String} (hn : Mention ts n true)
      (hname : n.text = name) (hs : State us stated) (hlabel : ∀ l ∈ stated, l = label) :
      FalseSpec name label (ts ++ us) ⟨name, true, stated, n.start⟩
  | labelled {ts us : List Token} {n : Token} (hn : Mention ts n false) (hname : n.text = name)
      (hs : State us (some label)) :
      FalseSpec name label (ts ++ us) ⟨name, false, some label, n.start⟩

variable {name label : String} {ts : List Token} {s : VarSpec}

theorem FalseSpec.spec (h : FalseSpec name label ts s) : Spec ts s := by
  cases h with
  | negated hn hname hs _ => exact hname ▸ .mk hn hs
  | labelled hn hname hs => exact hname ▸ .mk hn hs

/-- They all denote the false state. -/
theorem FalseSpec.denotes_iff (h : FalseSpec name label ts s) {c : Catalog} (hc : c.InStep)
    {i : Nat} {v : Variable} {defaults : DefaultStates} (hv : c.vars[i]? = some v)
    (hname : v.name = name) (hdefaults : v.defaults? = some defaults)
    (hlabel : v.states[defaults.falseState]? = some label) {x : Constraint} :
    s.Denotes c x ↔ x = ⟨i, defaults.falseState⟩ := by
  have hresolve := Variable.resolve?_falseState hdefaults hlabel
  have hdenotes : s.Denotes c ⟨i, defaults.falseState⟩ := by
    cases h with
    | negated _ _ _ hstated =>
      exact ⟨v, hv, hname, .negated hdefaults fun l hl => hstated l hl ▸ hresolve⟩
    | labelled => exact ⟨v, hv, hname, .stated hresolve⟩
  exact ⟨fun hx => hx.unique hc hdenotes, fun hx => hx ▸ hdenotes⟩

end Grammar

/-! ## Sides -/

/-- What can be said of the entries on one side of a bar, and of texts that
    differ in them. -/
structure Catalog.BindsSides (c : Catalog) : Prop where
  /-- A side is bound if each of its entries denotes a constraint and no two of
      them give a variable different states. -/
  exists_bindSide_iff {ss : List VarSpec} : (∃ bs, bindSide c ss = .ok bs) ↔
    (∀ s ∈ ss, ∃ x, s.Denotes c x) ∧ ∀ s ∈ ss, ∀ t ∈ ss, ∀ x y, s.Denotes c x → t.Denotes c y →
      x.var = y.var → x.state = y.state
  nodup_constraints {ss : List VarSpec} {bs : List BoundSpec} (h : bindSide c ss = .ok bs) :
    ((constraints bs).map Constraint.var).Nodup
  admits_constraints {ss : List VarSpec} {bs : List BoundSpec} (h : bindSide c ss = .ok bs) :
    c.Admits (constraints bs)
  /-- What it is bound to is what its entries denote. -/
  mem_constraints_iff {ss : List VarSpec} {bs : List BoundSpec} (h : bindSide c ss = .ok bs)
    {x : Constraint} : x ∈ constraints bs ↔ ∃ s ∈ ss, s.Denotes c x
  /-- The order of the entries does not matter, nor how often they come. -/
  sidesAgree_of_mem_iff {ss ts : List VarSpec} (h : ∀ s, s ∈ ss ↔ s ∈ ts) : SidesAgree c ss ts
  /-- The false state may be written in each way that there is. -/
  sidesAgree_of_falseSpec {ss : List VarSpec} {us us' : List Token} {s s' : VarSpec}
    {name label : String} {i : Nat} {v : Variable} {defaults : DefaultStates}
    (hv : c.vars[i]? = some v) (hname : v.name = name) (hdefaults : v.defaults? = some defaults)
    (hlabel : v.states[defaults.falseState]? = some label) (hs : Grammar.FalseSpec name label us s)
    (hs' : Grammar.FalseSpec name label us' s') :
    Grammar.Spec us s ∧ Grammar.Spec us' s' ∧ SidesAgree c (s :: ss) (s' :: ss)
  sidesAgree_trans {ss ts us : List VarSpec} (h : SidesAgree c ss ts) (h' : SidesAgree c ts us) :
    SidesAgree c ss us
  /-- Texts whose sides agree have the same answer, or none: the same number in
      each bit, whatever numbers are computed with. -/
  askWith_eq {α : Type} [Scalar α] {d : Distribution α} (hd : d.catalog = c)
    (tolerances : Tolerances α) {text text' : String} {us us' : List Token} {e e' : Token}
    (hscan : Token.scan text = .ok (us ++ [e])) (hscan' : Token.scan text' = .ok (us' ++ [e']))
    {x x' : Expr String} (hx : Grammar.DerivesQuery us x) (hx' : Grammar.DerivesQuery us' x')
    (h : x.Reworded (SidesAgree c) x') :
    (d.askWith tolerances text).toOption = (d.askWith tolerances text').toOption

/-- **What the entries on a side say** is what each of them says, in whatever
    order, number and spelling. -/
theorem Catalog.bindsSides {c : Catalog} (hc : c.InStep) : c.BindsSides where
  exists_bindSide_iff := JointProb.exists_bindSide_iff hc
  nodup_constraints := JointProb.nodup_constraints hc
  admits_constraints {ss bs} h := by
    have hadmits := ends_bindSide hc ss
    rwa [h] at hadmits
  mem_constraints_iff h := JointProb.mem_constraints_iff hc h
  sidesAgree_of_mem_iff := .of_mem_iff
  sidesAgree_of_falseSpec hv hname hdefaults hlabel hs hs' := by
    refine ⟨hs.spec, hs'.spec, .of_forall₂ (.cons (fun x => ?_) ?_)⟩
    on_goal 2 => exact List.forall₂_same.2 fun _ _ _ => Iff.rfl
    rw [hs.denotes_iff hc hv hname hdefaults hlabel, hs'.denotes_iff hc hv hname hdefaults hlabel]
  sidesAgree_trans := .trans
  askWith_eq {_ _ d} hd tolerances {_ _ _ _ _ _} hscan hscan' {_ _} hx hx' h := by
    subst hd
    exact (Distribution.askWith_reworded hc tolerances (Expr.parse_of_derivesQuery hscan hx)
      (Expr.parse_of_derivesQuery hscan' hx') (Expr.withValues_reworded h)).toOption_eq

/-- The targets of the header of this file, written in both ways. -/
theorem Catalog.bindsSides_late :
    let c : Catalog := .of [.boolean "Rain", ⟨"Late", ["no", "yes"]⟩]
    c.InStep ∧ c.BindsSides ∧
      (bindSide c [⟨"Rain", false, none, 2⟩, ⟨"Late", true, none, 9⟩]).map constraints =
        .ok [⟨0, 1⟩, ⟨1, 0⟩] ∧
      (bindSide c [⟨"Late", false, some "no", 2⟩, ⟨"Rain", false, none, 11⟩,
        ⟨"Late", true, none, 21⟩]).map constraints = .ok [⟨1, 0⟩, ⟨0, 1⟩] := by
  intro c
  have hc : c.InStep := inStep_of (by decide)
  exact ⟨hc, bindsSides hc, by decide +kernel, by decide +kernel⟩

end JointProb
