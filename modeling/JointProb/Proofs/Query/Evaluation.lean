/-
  JointProb — what is reported of queries.

  * `QueryError.IsMalformed`, `QueryError.IsUnbound`, `QueryError.IsForeign`
    and `QueryError.IsUndefined` sort the causes: the text, what does not bind
    to the catalog, positions that it does not have, and quotients by zero;
  * `Tree.Arithmetic` are the trees without a question about independence in
    them, `Tree.Sorted` has them with those that are such a question;
  * `Query.ends_amount`: arithmetic is refused for quotients by zero only,
    unless there is a question in it;
  * `Query.exists_holds`: a question is never refused.
-/
import JointProb.Proofs.Result
import JointProb.Query.Evaluate

namespace JointProb

/-! ## Causes -/

namespace QueryError

/-- The text is no query. -/
inductive IsMalformed : QueryError → Prop
  | malformed (position : Nat) (fault : QueryFault) : IsMalformed (.malformed position fault)

/-- A name or a state does not say which constraint is meant. -/
inductive IsUnbound : QueryError → Prop
  | unknownVariable (name : String) : IsUnbound (.unknownVariable name)
  | unknownState (name state : String) : IsUnbound (.unknownState name state)
  | conflicting (name : String) : IsUnbound (.conflicting name)
  | stateNeeded (name : String) (cardinality : Nat) : IsUnbound (.stateNeeded name cardinality)

/-- There is no such variable, or no such state of it. -/
inductive IsForeign : QueryError → Prop
  | unknownVariable (name : String) : IsForeign (.unknownVariable name)
  | unknownState (name state : String) : IsForeign (.unknownState name state)

/-- A quotient is by zero. -/
inductive IsUndefined : QueryError → Prop
  | zeroCondition (condition : String) : IsUndefined (.zeroCondition condition)
  | divisionByZero : IsUndefined .divisionByZero

variable {e : QueryError}

theorem IsUnbound.not_isMalformed (h : e.IsUnbound) : ¬ e.IsMalformed := by
  rintro ⟨⟩
  cases h

theorem IsForeign.not_isMalformed (h : e.IsForeign) : ¬ e.IsMalformed := by
  rintro ⟨⟩
  cases h

theorem IsForeign.not_isUndefined (h : e.IsForeign) : ¬ e.IsUndefined := by
  rintro ⟨⟩ <;> cases h

theorem IsUndefined.not_isMalformed (h : e.IsUndefined) : ¬ e.IsMalformed := by
  rintro ⟨⟩
  cases h

theorem IsUndefined.not_isUnbound (h : e.IsUndefined) : ¬ e.IsUnbound := by
  rintro ⟨⟩ <;> cases h

end QueryError

/-! ## Questions and arithmetic -/

namespace Tree

variable {σ ν α : Type}

/-- A tree without a question about independence. -/
inductive Arithmetic : Tree σ ν α → Prop
  | probability {targets conditions : List σ} : Arithmetic (.probability targets conditions)
  | binary {op : Operator} {x y : Tree σ ν α} (hx : Arithmetic x) (hy : Arithmetic y) :
      Arithmetic (.binary op x y)
  | negate {x : Tree σ ν α} (h : Arithmetic x) : Arithmetic (.negate x)
  | number {x : α} : Arithmetic (.number x)

/-- A question about independence, or a tree without one. -/
def Sorted (x : Tree σ ν α) : Prop := x.isPredicate ∨ x.Arithmetic

theorem Arithmetic.isPredicate_eq {x : Tree σ ν α} (h : x.Arithmetic) : x.isPredicate = false := by
  cases h <;> rfl

end Tree

namespace Query

variable {α : Type} [Scalar α] (d : Distribution α)

theorem ends_conditionalMass (targets conditions : List Constraint) :
    Ends QueryError.IsUndefined (fun _ => True) (d.conditionalMass targets conditions) := by
  rw [Distribution.conditionalMass]
  dsimp only
  split_ifs
  · trivial
  · exact .zeroCondition _
  · trivial

theorem ends_apply (op : Operator) (x y : α) :
    Ends QueryError.IsUndefined (fun _ => True) (op.apply x y) := by
  cases op with
  | add | sub | mul => trivial
  | div =>
    rw [Operator.apply]
    split_ifs
    · exact .divisionByZero
    · trivial

/-- **Arithmetic is refused for quotients by zero only**, unless there is a
    question about independence in it. -/
theorem ends_amount (q : Query α) :
    Ends (fun e => e.IsUndefined ∨ e.IsMalformed ∧ ¬ q.Arithmetic) (fun _ => True)
      (q.amount d) := by
  induction q with
  | number x => trivial
  | independence | condIndependence => exact .inr ⟨.malformed _ _, fun h => by cases h⟩
  | probability targets conditions =>
    exact (ends_conditionalMass d _ _).mono_error fun _ h => .inl h
  | negate operand ih =>
    refine (ih.map fun _ _ => trivial).mono_error fun e he => he.imp_right ?_
    exact fun ⟨hmalformed, hnot⟩ => ⟨hmalformed, fun | .negate h => hnot h⟩
  | binary op left right ihl ihr =>
    refine (ihl.mono_error fun e he => he.imp_right ?_).bind fun x _ =>
      (ihr.mono_error fun e he => he.imp_right ?_).bind fun y _ =>
        (ends_apply op x y).mono_error fun _ h => .inl h
    · exact fun ⟨hmalformed, hnot⟩ => ⟨hmalformed, fun | .binary h _ => hnot h⟩
    · exact fun ⟨hmalformed, hnot⟩ => ⟨hmalformed, fun | .binary _ h => hnot h⟩

theorem ends_amount_of_arithmetic {q : Query α} (h : q.Arithmetic) :
    Ends QueryError.IsUndefined (fun _ => True) (q.amount d) :=
  (ends_amount d q).mono_error fun _ he => he.elim id fun hnot => absurd h hnot.2

/-- **A question about independence is never refused.** -/
theorem exists_holds {q : Query α} (h : q.isPredicate) (tolerance : α) :
    ∃ b, q.holds d tolerance = .ok b := by
  cases q with
  | independence | condIndependence => exact ⟨_, rfl⟩
  | probability | binary | negate | number => cases h

end Query

end JointProb
