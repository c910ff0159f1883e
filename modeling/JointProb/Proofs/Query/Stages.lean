/-
  JointProb — the stages of a query.

  A text is read, what it says is bound to a catalog, and what is bound is
  evaluated.  Each stage has faults of its own, and leaves less to go wrong.

  * `Expr.ends_parse`: reading finds faults in the text, and in what is read
    there is no question about independence among arithmetic;
  * `Tree.Alike` are trees of the same shape with other entries and names;
  * `Expr.ends_bind`: binding finds names and states that do not say which
    constraint is meant, and what is bound has the shape of what is written
    and is within the catalog;
  * `Distribution.Staged` says which stage a refusal comes from, and what an
    answer is if there is none; `Distribution.staged`: so it is for all texts
    under all tolerances, the default ones of `Distribution.ask` among them, when
    the positions in the catalog are in step.
-/
import JointProb.Proofs.Catalog.InStep
import JointProb.Proofs.Query.Accepted
import JointProb.Proofs.Query.Positions

namespace JointProb

variable {α : Type}

/-! ## Reading -/

theorem Token.isMalformed_of_scanFrom {position : Nat} {cs : List Char} {e : QueryError}
    (h : scanFrom position cs = .error e) : e.IsMalformed := by
  induction position, cs using scanFrom.induct with
  | case1 position =>
    rw [scanFrom] at h
    cases h
  | case2 position c cs hc ih =>
    rw [scanFrom_separator hc] at h
    exact ih h
  | case3 position c cs hc hlex =>
    rw [scanFrom_cons (by simpa using hc), hlex] at h
    cases h
    exact .malformed _ _
  | case4 position c cs hc kind text hlex hpos stop =>
    rename_i ih
    rw [scanFrom_cons (by simpa using hc), hlex] at h
    dsimp only at h
    cases hrest : scanFrom (position + byteLength text) ((c :: cs).drop text.length) with
    | ok ts =>
      rw [hrest] at h
      cases h
    | error e' =>
      rw [hrest] at h
      cases h
      exact ih hrest

theorem Parser.Yields.ends {β : Type} {r : Except QueryError β} {P : β → Prop}
    (h : Yields r P) : Ends QueryError.IsMalformed P r := by
  cases r with
  | error e =>
    obtain ⟨position, fault, rfl⟩ := h
    exact .malformed position fault
  | ok x => exact h

namespace Grammar

/-- Arithmetic has no question about independence in it. -/
theorem Derives.arithmetic {level : Level} {ts : List Token} {x : Expr String}
    (h : Derives level ts x) : x.Arithmetic := by
  induction h with
  | term _ ih | unary _ ih | primary _ ih | plus _ _ ih | parens _ _ _ ih => exact ih
  | sum _ _ _ ihx ihy | product _ _ _ ihx ihy => exact .binary ihx ihy
  | minus _ _ ih => exact .negate ih
  | number => exact .number
  | probability => exact .probability

theorem DerivesQuery.sorted {ts : List Token} {x : Expr String} (h : DerivesQuery ts x) :
    x.Sorted := by
  cases h with
  | independence | condIndependence => exact .inl rfl
  | expr h => exact .inr h.arithmetic

end Grammar

theorem Tree.Sorted.map {σ τ ν β : Type} {x : Tree σ ν α} (h : x.Sorted) (f : σ → τ)
    (g : α → β) : (x.map f g).Sorted := by
  have harithmetic {y : Tree σ ν α} (hy : y.Arithmetic) : (y.map f g).Arithmetic := by
    induction hy with
    | probability => exact .probability
    | binary _ _ ihx ihy => exact .binary ihx ihy
    | negate _ ih => exact .negate ih
    | number => exact .number
  refine h.imp (fun hpredicate => ?_) harithmetic
  cases x with
  | independence | condIndependence => rfl
  | probability | binary | negate | number => cases hpredicate

/-- **What is read has questions about independence at the top only**, and
    all else is a fault in the text. -/
theorem Expr.ends_parse [Scalar α] (text : String) :
    Ends QueryError.IsMalformed Tree.Sorted (parse text : Except QueryError (Expr α)) := by
  cases hscan : Token.scan text with
  | error e =>
    rw [parse, hscan]
    exact Token.isMalformed_of_scanFrom hscan
  | ok ts =>
    rw [parse_of_scan hscan]
    refine (Parser.yields_whole ts).ends.mono ?_
    rintro x ⟨vs, us, y, -, -, hy, rfl⟩
    exact hy.sorted.map id Scalar.ofText

/-! ## Shapes -/

namespace Tree

variable {σ τ ν μ : Type}

/-- Trees of the same shape and with the same numbers. -/
inductive Alike : Tree σ ν α → Tree τ μ α → Prop
  | probability {targets conditions : List σ} {targets' conditions' : List τ} :
      Alike (.probability targets conditions) (.probability targets' conditions')
  | independence {a b : ν} {a' b' : μ} : Alike (.independence a b) (.independence a' b')
  | condIndependence {a b given : ν} {a' b' given' : μ} :
      Alike (.condIndependence a b given) (.condIndependence a' b' given')
  | binary {op : Operator} {x y : Tree σ ν α} {x' y' : Tree τ μ α} (hx : Alike x x')
      (hy : Alike y y') : Alike (.binary op x y) (.binary op x' y')
  | negate {x : Tree σ ν α} {x' : Tree τ μ α} (h : Alike x x') : Alike (.negate x) (.negate x')
  | number {x : α} : Alike (.number x) (.number x)

variable {x : Tree σ ν α} {y : Tree τ μ α}

theorem Alike.isPredicate_eq (h : Alike x y) : y.isPredicate = x.isPredicate := by
  cases h <;> rfl

theorem Alike.arithmetic (h : Alike x y) (hx : x.Arithmetic) : y.Arithmetic := by
  induction h with
  | probability => exact .probability
  | independence | condIndependence => cases hx
  | binary _ _ ihx ihy =>
    obtain ⟨⟩ | ⟨hx, hy⟩ := hx
    exact .binary (ihx hx) (ihy hy)
  | negate _ ih =>
    cases hx with
    | negate hx => exact .negate (ih hx)
  | number => exact .number

theorem Alike.sorted (h : Alike x y) (hx : x.Sorted) : y.Sorted :=
  hx.imp (fun hpredicate => h.isPredicate_eq ▸ hpredicate) h.arithmetic

end Tree

/-! ## Binding -/

section

variable {c : Catalog} (hc : c.InStep)

include hc in
theorem Catalog.ends_lookup (name : String) : Ends QueryError.IsUnbound
    (fun v => c.vars[v.index]? = some v.toVariable) (c.lookup name) := by
  rw [lookup]
  cases hfound : c.named? name with
  | none => exact .unknownVariable name
  | some v => exact (hc.named?_eq_some_iff.1 hfound).1

include hc in
theorem Catalog.ends_position (name : String) :
    Ends QueryError.IsUnbound (· < c.vars.length) (c.position name) :=
  (ends_lookup hc name).map fun _ h => (List.getElem?_eq_some_iff.1 h).1

namespace VarSpec

variable (s : VarSpec) (v : Variable)

theorem ends_explicitState : Ends QueryError.IsUnbound (∀ x ∈ ·, x < v.cardinality)
    (s.explicitState v) := by
  rw [explicitState]
  cases s.state with
  | none => exact fun x hx => by cases hx
  | some label =>
    dsimp only
    cases hresolve : v.resolve? label with
    | none => exact .unknownState _ _
    | some x =>
      rintro y ⟨⟩
      exact v.lt_of_resolve? hresolve

/-- The state that is chosen is one of the variable, whether it is stated or
    goes without saying. -/
theorem ends_choose {stated : Option Nat} (h : ∀ x ∈ stated, x < v.cardinality) :
    Ends QueryError.IsUnbound (fun x => x.1 < v.cardinality) (s.choose v stated) := by
  unfold choose
  split
  · exact h _ rfl
  · exact .stateNeeded _ _
  · rename_i hdefaults
    exact (v.lt_of_defaults? hdefaults).2
  · rename_i hdefaults
    exact (v.lt_of_defaults? hdefaults).1
  · rename_i hdefaults
    split_ifs
    · exact (v.lt_of_defaults? hdefaults).1
    · exact .conflicting _

include hc in
/-- An entry is bound to a state of a variable. -/
theorem ends_bind : Ends QueryError.IsUnbound (fun x => c.Admits [x.toConstraint])
    (s.bind c) := by
  have hlookup := Catalog.ends_lookup hc s.name
  rw [bind]
  cases hvar : c.lookup s.name with
  | error e => rwa [hvar] at hlookup
  | ok v =>
    rw [hvar] at hlookup
    have hstated := s.ends_explicitState v.toVariable
    dsimp only
    cases hstate : s.explicitState v.toVariable with
    | error e => rwa [hstate] at hstated
    | ok stated =>
      rw [hstate] at hstated
      exact (s.ends_choose v.toVariable hstated).map fun _ hlt =>
        Catalog.admits_singleton hlookup hlt

end VarSpec

include hc

theorem ends_bindAfter (ss : List VarSpec) {bound : List BoundSpec}
    (h : c.Admits (Query.constraints bound)) :
    Ends QueryError.IsUnbound (fun xs => c.Admits (Query.constraints xs))
      (bindAfter c bound ss) := by
  induction ss generalizing bound with
  | nil => exact h
  | cons s ss ih =>
    have hs := s.ends_bind hc
    rw [bindAfter]
    cases hx : s.bind c with
    | error e => rwa [hx] at hs
    | ok x =>
      rw [hx] at hs
      dsimp only
      cases bound.find? (·.var == x.var) with
      | none => exact ih (by simpa [Query.constraints] using Catalog.admits_append h hs)
      | some y =>
        dsimp only
        split_ifs
        · exact ih h
        · exact .conflicting _

theorem ends_bindSide (ss : List VarSpec) :
    Ends QueryError.IsUnbound (fun xs => c.Admits (Query.constraints xs)) (bindSide c ss) :=
  ends_bindAfter hc ss fun _ hx => absurd hx List.not_mem_nil

/-- **What is bound has the shape of what is written, and is within the
    catalog.** -/
theorem Expr.ends_bind (x : Expr α) :
    Ends QueryError.IsUnbound (fun q : Query α => q.Within c ∧ x.Alike q) (x.bind c) := by
  induction x with
  | probability targets conditions =>
    refine (ends_bindSide hc targets).bind fun ts hts =>
      (ends_bindSide hc conditions).bind fun us hus => ⟨Query.within_probability.2 ?_, .probability⟩
    simpa [Query.constraints] using Catalog.admits_append hts hus
  | independence a b =>
    exact (Catalog.ends_position hc a).bind fun _ ha => (Catalog.ends_position hc b).bind fun _ hb =>
      ⟨Query.within_independence.2 ⟨ha, hb⟩, .independence⟩
  | condIndependence a b given =>
    exact (Catalog.ends_position hc a).bind fun _ ha => (Catalog.ends_position hc b).bind fun _ hb =>
      (Catalog.ends_position hc given).bind fun _ hgiven =>
        ⟨Query.within_condIndependence.2 ⟨ha, hb, hgiven⟩, .condIndependence⟩
  | binary op left right ihl ihr =>
    exact ihl.bind fun _ ⟨hl, hleft⟩ => ihr.bind fun _ ⟨hr, hright⟩ =>
      ⟨Query.within_binary.2 ⟨hl, hr⟩, .binary hleft hright⟩
  | negate operand ih =>
    exact ih.bind fun _ ⟨h, halike⟩ => ⟨Query.within_negate.2 h, .negate halike⟩
  | number x => exact ⟨Query.within_number, .number⟩

end

/-! ## Stages -/

namespace Distribution

variable [Scalar α]

/-- What can be said of the answer to a text. -/
structure Staged (d : Distribution α) (tolerances : Tolerances α) (text : String) : Prop where
  /-- The text is at fault if it is not read, with the fault that is found there. -/
  malformed_iff {e : QueryError} :
    d.askWith tolerances text = .error e ∧ e.IsMalformed ↔
      (Expr.parse text : Except QueryError (Expr α)) = .error e
  /-- Names and states are at fault if what is read does not bind. -/
  unbound_iff {x : Expr α} (hx : Expr.parse text = .ok x) {e : QueryError} :
    d.askWith tolerances text = .error e ∧ e.IsUnbound ↔ x.bind d.catalog = .error e
  /-- What is bound has positions that all exist. -/
  inRange_eq_ok {x : Expr α} {q : Query α} (hx : Expr.parse text = .ok x)
    (hq : x.bind d.catalog = .ok q) : q.inRange d.catalog = .ok ()
  /-- A question about independence is true or false. -/
  exists_holds {x : Expr α} {q : Query α} (hx : Expr.parse text = .ok x)
    (hq : x.bind d.catalog = .ok q) (hpredicate : x.isPredicate) :
    ∃ b, q.holds d tolerances.independence = .ok b
  /-- Arithmetic has no question about independence in it. -/
  ends_amount {x : Expr α} {q : Query α} (hx : Expr.parse text = .ok x)
    (hq : x.bind d.catalog = .ok q) (hpredicate : ¬ x.isPredicate) :
    Ends QueryError.IsUndefined (fun _ => True) (q.amount d)
  /-- So there is an answer of the kind that was asked for, or a quotient by
      zero. -/
  ends_askWith {x : Expr α} {q : Query α} (hx : Expr.parse text = .ok x)
    (hq : x.bind d.catalog = .ok q) :
    Ends QueryError.IsUndefined
      (fun v => if x.isPredicate then ∃ b, v = .truth b else ∃ p, v = .number p)
      (d.askWith tolerances text)

variable (d : Distribution α) (tolerances : Tolerances α) {text : String}

theorem ends_evaluateWith_of_sorted {q : Query α} (hwithin : q.Within d.catalog)
    (hsorted : q.Sorted) :
    Ends QueryError.IsUndefined
      (fun v => if q.isPredicate then ∃ b, v = .truth b else ∃ p, v = .number p)
      (q.evaluateWith d tolerances) := by
  rw [Query.evaluateWith_of_within hwithin]
  rcases hsorted with hpredicate | harithmetic
  · obtain ⟨b, hb⟩ := Query.exists_holds d hpredicate tolerances.independence
    simp only [hpredicate, if_true, hb]
    exact ⟨b, rfl⟩
  · simp only [harithmetic.isPredicate_eq, Bool.false_eq_true, if_false]
    exact (Query.ends_amount_of_arithmetic d harithmetic).map fun p _ => ⟨p, rfl⟩

/-- What is read and bound, and what remains to be done. -/
theorem of_bind (hd : d.catalog.InStep) {x : Expr α} {q : Query α} (hx : Expr.parse text = .ok x)
    (hq : x.bind d.catalog = .ok q) :
    q.Within d.catalog ∧ q.Sorted ∧ q.isPredicate = x.isPredicate ∧
      d.askWith tolerances text = q.evaluateWith d tolerances := by
  have hparse := Expr.ends_parse (α := α) text
  have hbind := x.ends_bind hd
  rw [hx] at hparse
  rw [hq] at hbind
  obtain ⟨hwithin, halike⟩ := hbind
  refine ⟨hwithin, halike.sorted hparse, halike.isPredicate_eq, ?_⟩
  rw [askWith, hx]
  simp only [bind, Except.bind, hq]

theorem askWith_of_parse_error {e : QueryError}
    (he : (Expr.parse text : Except QueryError (Expr α)) = .error e) :
    d.askWith tolerances text = .error e := by
  rw [askWith, he]
  rfl

theorem askWith_of_bind_error {x : Expr α} (hx : Expr.parse text = .ok x) {e : QueryError}
    (he : x.bind d.catalog = .error e) : d.askWith tolerances text = .error e := by
  rw [askWith, hx]
  simp only [bind, Except.bind, he]

theorem ends_askWith_of_bind (hd : d.catalog.InStep) {x : Expr α} {q : Query α}
    (hx : Expr.parse text = .ok x) (hq : x.bind d.catalog = .ok q) :
    Ends QueryError.IsUndefined
      (fun v => if x.isPredicate then ∃ b, v = .truth b else ∃ p, v = .number p)
      (d.askWith tolerances text) := by
  obtain ⟨hwithin, hsorted, hpredicate, hask⟩ := d.of_bind tolerances hd hx hq
  rw [hask, ← hpredicate]
  exact d.ends_evaluateWith_of_sorted tolerances hwithin hsorted

/-- What is read is not at fault for its text. -/
theorem not_isMalformed_of_parse (hd : d.catalog.InStep) {x : Expr α}
    (hx : Expr.parse text = .ok x) {e : QueryError} (he : d.askWith tolerances text = .error e) :
    ¬ e.IsMalformed := by
  cases hq : x.bind d.catalog with
  | error e' =>
    have hbind := x.ends_bind hd
    rw [hq] at hbind
    rw [d.askWith_of_bind_error tolerances hx hq] at he
    cases he
    exact hbind.not_isMalformed
  | ok q =>
    have hends := d.ends_askWith_of_bind tolerances hd hx hq
    rw [he] at hends
    exact hends.not_isMalformed

/-- **Each stage has faults of its own**, and what it leaves has no others. -/
theorem staged (hd : d.catalog.InStep) (text : String) : d.Staged tolerances text where
  malformed_iff {e} := by
    constructor
    · rintro ⟨he, hmalformed⟩
      cases hx : (Expr.parse text : Except QueryError (Expr α)) with
      | ok x => exact absurd hmalformed (d.not_isMalformed_of_parse tolerances hd hx he)
      | error e' =>
        rw [d.askWith_of_parse_error tolerances hx] at he
        cases he
        rfl
    · intro hx
      have hparse := Expr.ends_parse (α := α) text
      rw [hx] at hparse
      exact ⟨d.askWith_of_parse_error tolerances hx, hparse⟩
  unbound_iff {x} hx e := by
    constructor
    · rintro ⟨he, hunbound⟩
      cases hq : x.bind d.catalog with
      | ok q =>
        have hends := d.ends_askWith_of_bind tolerances hd hx hq
        rw [he] at hends
        exact absurd hunbound hends.not_isUnbound
      | error e' =>
        rw [d.askWith_of_bind_error tolerances hx hq] at he
        cases he
        rfl
    · intro hq
      have hbind := x.ends_bind hd
      rw [hq] at hbind
      exact ⟨d.askWith_of_bind_error tolerances hx hq, hbind⟩
  inRange_eq_ok hx hq := Query.inRange_eq_ok (d.of_bind tolerances hd hx hq).1
  exists_holds hx hq hpredicate := by
    obtain ⟨-, -, heq, -⟩ := d.of_bind tolerances hd hx hq
    exact Query.exists_holds d (heq ▸ hpredicate) tolerances.independence
  ends_amount hx hq hpredicate := by
    obtain ⟨-, hsorted, heq, -⟩ := d.of_bind tolerances hd hx hq
    exact Query.ends_amount_of_arithmetic d (hsorted.resolve_left (heq ▸ hpredicate))
  ends_askWith hx hq := d.ends_askWith_of_bind tolerances hd hx hq

/-- A variable with three states, of which one has to be stated. -/
theorem staged_sky :
    let d : Distribution ℚ := ⟨.of [⟨"Sky", ["Clear", "Grey", "Dark"]⟩, .boolean "Late"],
      [1/2, 1/8, 1/4, 1/8, 0, 0], rfl⟩
    d.catalog.InStep ∧ d.Staged .default "P(Sky)" ∧
      Expr.bind d.catalog (.probability [⟨"Sky", false, none, 2⟩] [] : Expr ℚ) =
        .error (.stateNeeded "Sky" 3) := by
  intro d
  have hd : d.catalog.InStep := Catalog.inStep_of (by decide)
  exact ⟨hd, d.staged .default hd _, rfl⟩

end Distribution

end JointProb
