/-
  JointProb — arithmetic, as the parser reads it.

  * `Parser.yields_expr`: what is read is derived;
  * `Parser.GoesOn` says of a rule that it goes on after some tokens as it does
    after the tree that these stand for;
  * `Parser.goesOn_of_derives`: what is derived is read.
-/
import JointProb.Proofs.Query.Entries

namespace JointProb.Parser

open Grammar

variable {α : Type} [Scalar α]

/-! ## Rule by rule -/

theorem values_expr (ts : List Token) : values (expr ts : Read (Expr α) ts) = (do
    let (left, us) ← values (term ts)
    values (exprTail left us)) := by
  rw [expr]
  cases (term ts : Read (Expr α) ts) with
  | error e => rfl
  | ok r =>
    obtain ⟨⟨left, us⟩, h⟩ := r
    simp only [values_ok, bind, Except.bind]
    cases exprTail left us <;> rfl

theorem values_exprTail_of_additive? {left : Expr α} {t : Token} {op : Operator}
    (ts : List Token) (ht : additive? t.kind = some op) : values (exprTail left (t :: ts)) = (do
      let (right, us) ← values (term ts)
      values (exprTail (.binary op left right) us)) := by
  rw [exprTail]
  simp only [ht]
  cases (term ts : Read (Expr α) ts) with
  | error e => rfl
  | ok r =>
    obtain ⟨⟨right, us⟩, h⟩ := r
    simp only [values_ok, bind, Except.bind]
    cases exprTail (.binary op left right) us <;> rfl

theorem values_exprTail_of_none {left : Expr α} {ts : List Token}
    (ht : additive? (kindOf ts) = none) : values (exprTail left ts) = .ok (left, ts) := by
  cases ts with
  | nil => rw [exprTail]; rfl
  | cons t ts =>
    rw [kindOf] at ht
    simp [exprTail, ht]

theorem values_term (ts : List Token) : values (term ts : Read (Expr α) ts) = (do
    let (left, us) ← values (unary ts)
    values (termTail left us)) := by
  rw [term]
  cases (unary ts : Read (Expr α) ts) with
  | error e => rfl
  | ok r =>
    obtain ⟨⟨left, us⟩, h⟩ := r
    simp only [values_ok, bind, Except.bind]
    cases termTail left us <;> rfl

theorem values_termTail_of_multiplicative? {left : Expr α} {t : Token} {op : Operator}
    (ts : List Token) (ht : multiplicative? t.kind = some op) :
    values (termTail left (t :: ts)) = (do
      let (right, us) ← values (unary ts)
      values (termTail (.binary op left right) us)) := by
  rw [termTail]
  simp only [ht]
  cases (unary ts : Read (Expr α) ts) with
  | error e => rfl
  | ok r =>
    obtain ⟨⟨right, us⟩, h⟩ := r
    simp only [values_ok, bind, Except.bind]
    cases termTail (.binary op left right) us <;> rfl

theorem values_termTail_of_none {left : Expr α} {t : Token} {ts : List Token}
    (ht : multiplicative? t.kind = none) : values (termTail left (t :: ts)) =
      if t.kind = .caret ∨ t.kind = .doubleStar then .error (.malformed t.start .exponentiation)
      else .ok (left, t :: ts) := by
  rw [termTail]
  simp only [ht]
  split_ifs <;> rfl

theorem values_unary (t : Token) (ts : List Token) :
    values (unary (t :: ts) : Read (Expr α) _) =
      if t.kind = .minus then (values (unary ts)).map fun (x, us) => (.negate x, us)
      else if t.kind = .plus then values (unary ts)
      else values (primary (t :: ts)) := by
  rw [unary]
  split_ifs
  · cases (unary ts : Read (Expr α) ts) <;> rfl
  · exact values_widen ..
  · rfl

theorem values_primary_parens {t : Token} (ts : List Token) (ht : t.kind = .openParen) :
    values (primary (t :: ts) : Read (Expr α) _) = (do
      let (x, us) ← values (expr ts)
      let (_, vs) ← values (expect .closeParen .closeParen us)
      .ok (x, vs)) := by
  rw [primary.eq_def]
  simp only [ht]
  cases (expr ts : Read (Expr α) ts) with
  | error e => rfl
  | ok r =>
    obtain ⟨⟨x, us⟩, h⟩ := r
    simp only [values_ok, bind, Except.bind]
    cases expect .closeParen .closeParen us <;> rfl

theorem values_primary_number {t : Token} (ts : List Token) (ht : t.kind = .number) :
    values (primary (t :: ts) : Read (Expr α) _) = (numberOf t).map fun x => (x, ts) := by
  rw [primary.eq_def]
  simp only [ht]
  cases (numberOf t : Except QueryError (Expr α)) <;> rfl

theorem values_primary_probability {p o : Token} (ts : List Token) (hp : p.kind = .name)
    (htext : p.text = "P") (ho : o.kind = .openParen) :
    values (primary (p :: o :: ts) : Read (Expr α) _) = values (probability ts) := by
  have hcall : atCall "P" (p :: o :: ts) := atCall_cons.2 ⟨hp, htext, ho⟩
  rw [primary.eq_def]
  simp [hp, hcall]

/-! ## What is read is derived -/

/-- A tree that some tokens in front of the rest stand for. -/
def Reads (level : Level) (ts : List Token) (r : Expr α × List Token) : Prop :=
  ∃ vs x, ts = vs ++ r.2 ∧ Derives level vs x ∧ r.1 = x.withValues

/-- A tree that a tree that has been read and some tokens in front of the rest
    stand for. -/
def ReadsOn (level : Level) (left : Expr α) (ts : List Token) (r : Expr α × List Token) : Prop :=
  ∀ ls l, Derives level ls l → left = l.withValues →
    ∃ vs x, ts = vs ++ r.2 ∧ Derives level (ls ++ vs) x ∧ r.1 = x.withValues

theorem yields_numberOf (t : Token) : Yields (numberOf t : Except QueryError (Expr α)) fun x =>
    x = .number (Scalar.ofText t.text) := by
  rw [numberOf]
  split
  · rename_i v hv
    simp [Scalar.ofText, hv]
  · exact yields_malformed

theorem yields_primary {ts : List Token}
    (ih : ∀ us : List Token, us.length < ts.length →
      Yields (values (expr us : Read (Expr α) us)) (Reads .expr us)) :
    Yields (values (primary ts : Read (Expr α) ts)) (Reads .primary ts) := by
  cases ts with
  | nil =>
    rw [primary.eq_def]
    exact yields_unexpected
  | cons t ts =>
    cases hkind : t.kind with
    | number =>
      rw [values_primary_number ts hkind]
      refine (yields_numberOf t).map fun x hx => ?_
      exact ⟨[t], _, rfl, .number hkind, hx⟩
    | openParen =>
      rw [values_primary_parens ts hkind]
      refine (ih ts (by simp)).bind fun (x, us) ⟨vs, y, hts, hy, hx⟩ => ?_
      refine (yields_expect ..).bind fun (c, ws) ⟨hus, hc⟩ => ?_
      refine ⟨t :: (vs ++ [c]), y, ?_, .parens hkind hy hc, hx⟩
      rw [hts, hus]
      simp
    | name =>
      by_cases hcall : atCall "P" (t :: ts)
      · obtain ⟨-, htext, hparen⟩ := atCall_cons.1 hcall
        obtain ⟨o, us, rfl, ho⟩ := exists_cons_of_kindOf hparen (by simp)
        rw [values_primary_probability us hkind htext ho]
        refine (yields_probability us).mono ?_
        rintro ⟨x, ws⟩ ⟨vs, xs, c, targets, given, hus, htargets, hgiven, hc, hx⟩
        refine ⟨t :: o :: (vs ++ (xs ++ [c])), .probability targets given, ?_,
          .probability hkind htext ho htargets hgiven hc, ?_⟩
        · rw [hus]
          simp
        · simpa [Expr.withValues, Tree.map] using hx
      · rw [primary.eq_def]
        cases ts <;> simp [hkind, hcall]
    | _ =>
      rw [primary.eq_def]
      simp [hkind]

/-- Signs are read off one by one in front of a primary. -/
theorem yields_unary {ts : List Token}
    (ih : ∀ us : List Token, us.length < ts.length →
      Yields (values (expr us : Read (Expr α) us)) (Reads .expr us)) :
    Yields (values (unary ts : Read (Expr α) ts)) (Reads .unary ts) := by
  have hprimary : Yields (values (primary ts : Read (Expr α) ts)) (Reads .unary ts) := by
    refine (yields_primary ih).mono ?_
    rintro _ ⟨vs, x, hts, hx, hr⟩
    exact ⟨vs, x, hts, .primary hx, hr⟩
  induction ts with
  | nil =>
    rw [unary]
    exact hprimary
  | cons t ts ihts =>
    have hrest : Yields (values (unary ts : Read (Expr α) ts)) (Reads .unary ts) := by
      have ih' := fun us hus => ih us (Nat.lt_succ_of_lt hus)
      refine ihts ih' ((yields_primary ih').mono ?_)
      rintro _ ⟨vs, x, hts, hx, hr⟩
      exact ⟨vs, x, hts, .primary hx, hr⟩
    rw [values_unary]
    split_ifs with hminus hplus
    · refine hrest.map ?_
      rintro ⟨x, us⟩ ⟨vs, y, hts, hy, hx⟩
      refine ⟨t :: vs, .negate y, by rw [hts]; rfl, .minus hminus hy, ?_⟩
      simpa [Expr.withValues, Tree.map] using hx
    · refine hrest.mono ?_
      rintro ⟨x, us⟩ ⟨vs, y, hts, hy, hx⟩
      exact ⟨t :: vs, y, by rw [hts]; rfl, .plus hplus hy, hx⟩
    · exact hprimary

/-- Each further factor is multiplied to the product so far. -/
theorem yields_termTail {ts : List Token}
    (ih : ∀ us : List Token, us.length < ts.length →
      Yields (values (unary us : Read (Expr α) us)) (Reads .unary us)) (left : Expr α) :
    Yields (values (termTail left ts)) (ReadsOn .term left ts) := by
  cases ts with
  | nil =>
    rw [termTail]
    exact fun ls l hl hleft => ⟨[], l, rfl, by rwa [List.append_nil], hleft⟩
  | cons t ts =>
    cases hop : multiplicative? t.kind with
    | none =>
      rw [values_termTail_of_none hop]
      split_ifs
      · exact yields_malformed
      · exact fun ls l hl hleft => ⟨[], l, rfl, by rwa [List.append_nil], hleft⟩
    | some op =>
      rw [values_termTail_of_multiplicative? ts hop]
      refine (ih ts (by simp)).bind ?_
      rintro ⟨right, us⟩ ⟨vs, y, hts, hy, hright⟩
      change ts = vs ++ us at hts
      have hlt : us.length < ts.length + 1 := by rw [hts, List.length_append]; omega
      refine (yields_termTail (fun ws hws => ih ws (Nat.lt_trans hws hlt)) _).mono ?_
      rintro ⟨x, ws⟩ hx ls l hl hleft
      obtain ⟨xs, z, hus, hz, hxz⟩ := hx _ _ (.product hl hop hy)
        (congrArg₂ (Tree.binary op) hleft hright)
      exact ⟨t :: (vs ++ xs), z, by simp [hts, hus], by simpa using hz, hxz⟩
termination_by ts.length

theorem yields_term {ts : List Token}
    (ih : ∀ us : List Token, us.length ≤ ts.length →
      Yields (values (unary us : Read (Expr α) us)) (Reads .unary us)) :
    Yields (values (term ts : Read (Expr α) ts)) (Reads .term ts) := by
  rw [values_term]
  refine (ih ts (Nat.le_refl _)).bind fun (left, us) ⟨vs, l, hts, hl, hleft⟩ => ?_
  have hle : us.length ≤ ts.length := by simp [hts]
  refine (yields_termTail (fun ws hws => ih ws (Nat.le_of_lt (Nat.lt_of_lt_of_le hws hle))) _).mono
    fun (x, ws) hx => ?_
  obtain ⟨xs, z, hus, hz, hxz⟩ := hx _ _ (.unary hl) hleft
  exact ⟨vs ++ xs, z, by simp [hts, hus], hz, hxz⟩

/-- Each further term is added to the sum so far. -/
theorem yields_exprTail {ts : List Token}
    (ih : ∀ us : List Token, us.length < ts.length →
      Yields (values (term us : Read (Expr α) us)) (Reads .term us)) (left : Expr α) :
    Yields (values (exprTail left ts)) (ReadsOn .expr left ts) := by
  cases hop : additive? (kindOf ts) with
  | none =>
    rw [values_exprTail_of_none hop]
    exact fun ls l hl hleft => ⟨[], l, rfl, by rwa [List.append_nil], hleft⟩
  | some op =>
    cases ts with
    | nil => cases hop
    | cons t ts =>
      rw [values_exprTail_of_additive? ts hop]
      refine (ih ts (by simp)).bind fun (right, us) ⟨vs, y, hts, hy, hright⟩ => ?_
      change ts = vs ++ us at hts
      have hlt : us.length < ts.length + 1 := by rw [hts, List.length_append]; omega
      refine (yields_exprTail (fun ws hws => ih ws (Nat.lt_trans hws hlt)) _).mono ?_
      intro (x, ws) hx ls l hl hleft
      obtain ⟨xs, z, hus, hz, hxz⟩ := hx _ _ (.sum hl hop hy)
        (congrArg₂ (Tree.binary op) hleft hright)
      exact ⟨t :: (vs ++ xs), z, by simp [hts, hus], by simpa using hz, hxz⟩
termination_by ts.length

/-- **What is read as a sum is derived.** -/
theorem yields_expr (ts : List Token) :
    Yields (values (expr ts : Read (Expr α) ts)) (Reads .expr ts) := by
  have hunary : ∀ us : List Token, us.length ≤ ts.length →
      Yields (values (unary us : Read (Expr α) us)) (Reads .unary us) :=
    fun us hus => yields_unary fun ws hws => yields_expr ws
  have hterm : ∀ us : List Token, us.length ≤ ts.length →
      Yields (values (term us : Read (Expr α) us)) (Reads .term us) :=
    fun us hus => yields_term fun ws hws => hunary ws (Nat.le_trans hws hus)
  rw [values_expr]
  refine (hterm ts (Nat.le_refl _)).bind fun (left, us) ⟨vs, l, hts, hl, hleft⟩ => ?_
  have hle : us.length ≤ ts.length := by simp [hts]
  refine (yields_exprTail (fun ws hws => hterm ws (Nat.le_of_lt (Nat.lt_of_lt_of_le hws hle)))
    _).mono fun (x, ws) hx => ?_
  obtain ⟨xs, z, hus, hz, hxz⟩ := hx _ _ (.term hl) hleft
  exact ⟨vs ++ xs, z, by simp [hts, hus], hz, hxz⟩
termination_by ts.length

/-! ## What is derived is read -/

/-- Whether the value of a number token is known. -/
def Readable (t : Token) : Prop :=
  t.kind = .number → ∃ v : α, (Decimal.Literal.read? t.text.toList).bind Scalar.ofLiteral? = some v

theorem numberOf_of_readable {t : Token} (ht : t.kind = .number) (h : Readable (α := α) t) :
    numberOf t = .ok (.number (Scalar.ofText t.text : α)) := by
  obtain ⟨v, hv⟩ := h ht
  simp [numberOf, Scalar.ofText, hv]

/-- Tokens that a product does not go on with, and that are no power. -/
def EndsTerm (ts : List Token) : Prop :=
  multiplicative? (kindOf ts) = none ∧ ¬ (kindOf ts = .caret ∨ kindOf ts = .doubleStar)

theorem values_termTail_of_endsTerm {left : Expr α} {ts : List Token} (h : EndsTerm ts) :
    values (termTail left ts) = .ok (left, ts) := by
  cases ts with
  | nil => rw [termTail]; rfl
  | cons t ts => exact (values_termTail_of_none h.1).trans (if_neg h.2)

theorem endsTerm_of_additive? {t : Token} {ts : List Token} {op : Operator}
    (h : additive? t.kind = some op) : EndsTerm (t :: ts) := by
  rw [EndsTerm, kindOf]
  cases hk : t.kind <;> simp_all [additive?, multiplicative?]

/-- How a rule goes on with the tokens after those that it derives: as it does
    after the tree that these stand for. -/
def GoesOn (level : Level) (ts : List Token) (x : Expr α) : Prop :=
  match level with
  | .expr => ∀ us, EndsTerm us → values (expr (ts ++ us)) = values (exprTail x us)
  | .term => ∀ us, values (term (ts ++ us)) = values (termTail x us)
  | .unary => ∀ us, values (unary (ts ++ us)) = .ok (x, us)
  | .primary => ∀ us, values (primary (ts ++ us)) = .ok (x, us)

theorem unary_append_of_primary {ts us : List Token} {x : Expr String}
    (h : Derives .primary ts x) :
    values (unary (ts ++ us) : Read (Expr α) _) = values (primary (ts ++ us)) := by
  have hne : ∃ t ts', ts = t :: ts' ∧ t.kind ≠ .minus ∧ t.kind ≠ .plus := by
    cases h with
    | number ht | parens ht _ _ | probability ht _ _ _ _ _ => exact ⟨_, _, rfl, by simp [ht]⟩
  obtain ⟨t, ts', rfl, hminus, hplus⟩ := hne
  rw [List.cons_append, values_unary, if_neg hminus, if_neg hplus]

/-- **What is derived is read**, and what stands after it is left. -/
theorem goesOn_of_derives {level : Level} {ts : List Token} {x : Expr String}
    (h : Derives level ts x) (hread : ∀ t ∈ ts, Readable (α := α) t) :
    GoesOn (α := α) level ts x.withValues := by
  induction h with
  | term _ ih =>
    intro us hus
    rw [values_expr, ih hread us, values_termTail_of_endsTerm hus]
    rfl
  | @sum ts vs o op x y hx ho hy ihx ihy =>
    rw [List.forall_mem_append, List.forall_mem_cons] at hread
    intro us hus
    rw [List.append_assoc, List.cons_append, ihx hread.1 _ (endsTerm_of_additive? ho),
      values_exprTail_of_additive? _ ho, ihy hread.2.2 us, values_termTail_of_endsTerm hus]
    rfl
  | unary _ ih =>
    intro us
    rw [values_term, ih hread us]
    rfl
  | @product ts vs o op x y hx ho hy ihx ihy =>
    rw [List.forall_mem_append, List.forall_mem_cons] at hread
    intro us
    rw [List.append_assoc, List.cons_append, ihx hread.1, values_termTail_of_multiplicative? _ ho,
      ihy hread.2.2 us]
    rfl
  | minus ht _ ih =>
    rw [List.forall_mem_cons] at hread
    intro us
    rw [List.cons_append, values_unary, if_pos ht, ih hread.2 us]
    rfl
  | plus ht _ ih =>
    rw [List.forall_mem_cons] at hread
    intro us
    rw [List.cons_append, values_unary, if_neg (by simp [ht]), if_pos ht]
    exact ih hread.2 us
  | primary h ih =>
    intro us
    rw [unary_append_of_primary h]
    exact ih hread us
  | number ht =>
    intro us
    rw [List.singleton_append, values_primary_number us ht,
      numberOf_of_readable ht (hread _ (List.mem_singleton_self _))]
    rfl
  | @parens o c ts x ho h hc ih =>
    rw [List.forall_mem_cons, List.forall_mem_append] at hread
    intro us
    have hclose : EndsTerm (c :: us) := by simp [EndsTerm, kindOf, hc, multiplicative?]
    have hdone : values (exprTail (x.withValues : Expr α) (c :: us)) =
        .ok (x.withValues, c :: us) := values_exprTail_of_none (by simp [kindOf, hc, additive?])
    rw [List.cons_append, List.append_assoc, List.singleton_append, values_primary_parens _ ho,
      ih hread.2.1 _ hclose, hdone]
    simp only [bind, Except.bind, values_expect_of_kind hc]
  | probability hp htext ho ht hu hc =>
    intro us
    rw [List.cons_append, List.cons_append, values_primary_probability _ hp htext ho,
      List.append_assoc, List.append_assoc, List.singleton_append,
      values_probability_append ht hu hc]
    simp [Expr.withValues, Tree.map]

end JointProb.Parser
