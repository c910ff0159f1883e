/-
  JointProb — the grammar of queries.

  Each rule of the language as a relation between the tokens that it derives
  and the tree that they stand for.  A keyword is a name that the rules put in
  front of an opening parenthesis; everywhere else a name may be any name.

  * `Grammar.Spec` and `Grammar.Specs` derive the entries of a probability;
  * `Grammar.Derives` has the rules of arithmetic, one level of precedence
    above the other, and `Grammar.DerivesQuery` those of whole queries; the trees
    have numbers as they are written;
  * `Expr.withValues` puts the values of the numbers into a tree;
  * `Grammar.DerivesQuery.isPlain`: a query has no operator of powers and no end in it.
-/
import JointProb.Query.Parser

namespace JointProb

/-! ## Trees as they are written -/

/-- A tree with other entries and other numbers of the same shape. -/
def Tree.map {σ τ ν α β : Type} (f : σ → τ) (g : α → β) : Tree σ ν α → Tree τ ν β
  | .probability targets conditions => .probability (targets.map f) (conditions.map f)
  | .independence a b => .independence a b
  | .condIndependence a b given => .condIndependence a b given
  | .binary op left right => .binary op (map f g left) (map f g right)
  | .negate operand => .negate (map f g operand)
  | .number x => .number (g x)

/-- The value of the number that a text denotes, zero if it denotes none. -/
def Scalar.ofText {α : Type} [Scalar α] (text : String) : α :=
  ((Decimal.Literal.read? text.toList).bind Scalar.ofLiteral?).getD 0

/-- A tree with the values of the numbers that it has as texts. -/
def Expr.withValues {α : Type} [Scalar α] (x : Expr String) : Expr α := x.map id Scalar.ofText

namespace Grammar

/-! ## Entries of probabilities -/

/-- `name`, `~ name`, `~ ( name )` or `Not ( name )`: the name, and whether it
    is negated. -/
inductive Mention : List Token → Token → Bool → Prop
  | plain {n : Token} (hn : n.kind = .name) : Mention [n] n false
  | tilde {t n : Token} (ht : t.kind = .tilde) (hn : n.kind = .name) : Mention [t, n] n true
  | tildeParens {t o n c : Token} (ht : t.kind = .tilde) (ho : o.kind = .openParen)
      (hn : n.kind = .name) (hc : c.kind = .closeParen) : Mention [t, o, n, c] n true
  | not {k o n c : Token} (hk : k.kind = .name) (hnot : k.text = "Not") (ho : o.kind = .openParen)
      (hn : n.kind = .name) (hc : c.kind = .closeParen) : Mention [k, o, n, c] n true

/-- `(= state)?`, where a state is a name or a number. -/
inductive State : List Token → Option String → Prop
  | absent : State [] none
  | stated {e s : Token} (he : e.kind = .equals) (hs : s.kind = .name ∨ s.kind = .number) :
      State [e, s] (some s.text)

/-- An entry of a probability. -/
inductive Spec : List Token → VarSpec → Prop
  | mk {ts us : List Token} {n : Token} {negated : Bool} {state : Option String}
      (hn : Mention ts n negated) (hs : State us state) :
      Spec (ts ++ us) ⟨n.text, negated, state, n.start⟩

/-- `spec (, spec)*` -/
inductive Specs : List Token → List VarSpec → Prop
  | one {ts : List Token} {s : VarSpec} (h : Spec ts s) : Specs ts [s]
  | more {ts us : List Token} {c : Token} {s : VarSpec} {ss : List VarSpec} (h : Spec ts s)
      (hc : c.kind = .comma) (hs : Specs us ss) : Specs (ts ++ c :: us) (s :: ss)

/-- `(| specs)?` -/
inductive Conditions : List Token → List VarSpec → Prop
  | absent : Conditions [] []
  | given {b : Token} {ts : List Token} {ss : List VarSpec} (hb : b.kind = .bar)
      (hs : Specs ts ss) : Conditions (b :: ts) ss

/-! ## Arithmetic -/

/-- The levels of precedence, the loosest first. -/
inductive Level where
  | expr
  | term
  | unary
  | primary

/-- The rules of arithmetic.  Sums and products associate to the left. -/
inductive Derives : Level → List Token → Expr String → Prop
  /-- `expr := term` -/
  | term {ts : List Token} {x : Expr String} (h : Derives .term ts x) : Derives .expr ts x
  /-- `expr := expr (+ | -) term` -/
  | sum {ts us : List Token} {o : Token} {op : Operator} {x y : Expr String}
      (hx : Derives .expr ts x) (ho : Parser.additive? o.kind = some op)
      (hy : Derives .term us y) : Derives .expr (ts ++ o :: us) (.binary op x y)
  /-- `term := unary` -/
  | unary {ts : List Token} {x : Expr String} (h : Derives .unary ts x) : Derives .term ts x
  /-- `term := term (* | /) unary` -/
  | product {ts us : List Token} {o : Token} {op : Operator} {x y : Expr String}
      (hx : Derives .term ts x) (ho : Parser.multiplicative? o.kind = some op)
      (hy : Derives .unary us y) : Derives .term (ts ++ o :: us) (.binary op x y)
  /-- `unary := - unary` -/
  | minus {t : Token} {ts : List Token} {x : Expr String} (ht : t.kind = .minus)
      (h : Derives .unary ts x) : Derives .unary (t :: ts) (.negate x)
  /-- `unary := + unary` -/
  | plus {t : Token} {ts : List Token} {x : Expr String} (ht : t.kind = .plus)
      (h : Derives .unary ts x) : Derives .unary (t :: ts) x
  /-- `unary := primary` -/
  | primary {ts : List Token} {x : Expr String} (h : Derives .primary ts x) : Derives .unary ts x
  /-- `primary := number` -/
  | number {t : Token} (ht : t.kind = .number) : Derives .primary [t] (.number t.text)
  /-- `primary := ( expr )` -/
  | parens {o c : Token} {ts : List Token} {x : Expr String} (ho : o.kind = .openParen)
      (h : Derives .expr ts x) (hc : c.kind = .closeParen) :
      Derives .primary (o :: (ts ++ [c])) x
  /-- `primary := P ( specs (| specs)? )` -/
  | probability {p o c : Token} {ts us : List Token} {targets conditions : List VarSpec}
      (hp : p.kind = .name) (htext : p.text = "P") (ho : o.kind = .openParen)
      (ht : Specs ts targets) (hu : Conditions us conditions) (hc : c.kind = .closeParen) :
      Derives .primary (p :: o :: (ts ++ (us ++ [c]))) (.probability targets conditions)

/-! ## Queries -/

/-- `query := predicate | expr`, the predicates with names in parentheses. -/
inductive DerivesQuery : List Token → Expr String → Prop
  | independence {k o a m b c : Token} (hk : k.kind = .name) (htext : k.text = "IsIndep")
      (ho : o.kind = .openParen) (ha : a.kind = .name) (hm : m.kind = .comma)
      (hb : b.kind = .name) (hc : c.kind = .closeParen) :
      DerivesQuery [k, o, a, m, b, c] (.independence a.text b.text)
  | condIndependence {k o a m b r g c : Token} (hk : k.kind = .name)
      (htext : k.text = "IsCondIndep") (ho : o.kind = .openParen) (ha : a.kind = .name)
      (hm : m.kind = .comma) (hb : b.kind = .name) (hr : r.kind = .bar) (hg : g.kind = .name)
      (hc : c.kind = .closeParen) :
      DerivesQuery [k, o, a, m, b, r, g, c] (.condIndependence a.text b.text g.text)
  | expr {ts : List Token} {x : Expr String} (h : Derives .expr ts x) : DerivesQuery ts x

/-! ## Kinds of tokens -/

/-- The kinds of tokens that the rules have. -/
def IsPlain (k : TokenKind) : Prop := k ≠ .caret ∧ k ≠ .doubleStar ∧ k ≠ .ending

theorem Mention.isPlain {ts : List Token} {n : Token} {negated : Bool}
    (h : Mention ts n negated) : ∀ t ∈ ts, IsPlain t.kind := by
  cases h <;> simp [IsPlain, *]

theorem State.isPlain {ts : List Token} {state : Option String} (h : State ts state) :
    ∀ t ∈ ts, IsPlain t.kind := by
  cases h with
  | absent => simp
  | stated he hs => rcases hs with hs | hs <;> simp [IsPlain, he, hs]

theorem Spec.isPlain {ts : List Token} {s : VarSpec} (h : Spec ts s) :
    ∀ t ∈ ts, IsPlain t.kind := by
  obtain ⟨hn, hs⟩ := h
  exact List.forall_mem_append.2 ⟨hn.isPlain, hs.isPlain⟩

theorem Specs.isPlain {ts : List Token} {ss : List VarSpec} (h : Specs ts ss) :
    ∀ t ∈ ts, IsPlain t.kind := by
  induction h with
  | one h => exact h.isPlain
  | more h hc _ ih =>
    exact List.forall_mem_append.2 ⟨h.isPlain, List.forall_mem_cons.2 ⟨by simp [IsPlain, hc], ih⟩⟩

theorem Conditions.isPlain {ts : List Token} {ss : List VarSpec} (h : Conditions ts ss) :
    ∀ t ∈ ts, IsPlain t.kind := by
  cases h with
  | absent => simp
  | given hb hs => exact List.forall_mem_cons.2 ⟨by simp [IsPlain, hb], hs.isPlain⟩

theorem isPlain_of_additive? {k : TokenKind} {op : Operator} (h : Parser.additive? k = some op) :
    IsPlain k := by
  cases k <;> simp_all [Parser.additive?, IsPlain]

theorem isPlain_of_multiplicative? {k : TokenKind} {op : Operator}
    (h : Parser.multiplicative? k = some op) : IsPlain k := by
  cases k <;> simp_all [Parser.multiplicative?, IsPlain]

theorem Derives.isPlain {level : Level} {ts : List Token} {x : Expr String}
    (h : Derives level ts x) : ∀ t ∈ ts, IsPlain t.kind := by
  induction h with
  | term _ ih | unary _ ih | primary _ ih => exact ih
  | sum _ ho _ ihx ihy =>
    exact List.forall_mem_append.2 ⟨ihx, List.forall_mem_cons.2 ⟨isPlain_of_additive? ho, ihy⟩⟩
  | product _ ho _ ihx ihy =>
    exact List.forall_mem_append.2
      ⟨ihx, List.forall_mem_cons.2 ⟨isPlain_of_multiplicative? ho, ihy⟩⟩
  | minus ht _ ih | plus ht _ ih =>
    exact List.forall_mem_cons.2 ⟨by simp [IsPlain, ht], ih⟩
  | number ht => simp [IsPlain, ht]
  | parens ho _ hc ih =>
    refine List.forall_mem_cons.2 ⟨by simp [IsPlain, ho], List.forall_mem_append.2 ⟨ih, ?_⟩⟩
    simp [IsPlain, hc]
  | probability hp _ ho ht hu hc =>
    refine List.forall_mem_cons.2 ⟨?_, List.forall_mem_cons.2 ⟨?_, List.forall_mem_append.2
      ⟨ht.isPlain, List.forall_mem_append.2 ⟨hu.isPlain, List.forall_mem_singleton.2 ?_⟩⟩⟩⟩
    all_goals simp [IsPlain, hp, ho, hc]

/-- **A query has no operator of powers and no end in it.** -/
theorem DerivesQuery.isPlain {ts : List Token} {x : Expr String} (h : DerivesQuery ts x) :
    ∀ t ∈ ts, IsPlain t.kind := by
  cases h with
  | independence | condIndependence => simp [IsPlain, *]
  | expr h => exact h.isPlain

/-- Arithmetic starts with no name but that of probabilities. -/
theorem Derives.exists_cons {level : Level} {ts : List Token} {x : Expr String}
    (h : Derives level ts x) : ∃ t us, ts = t :: us ∧ (t.kind = .name → t.text = "P") := by
  induction h with
  | term _ ih | unary _ ih | primary _ ih => exact ih
  | sum _ _ _ ih _ | product _ _ _ ih _ =>
    obtain ⟨t, us, rfl, ht⟩ := ih
    exact ⟨t, _, rfl, ht⟩
  | minus ht _ _ | plus ht _ _ | number ht | parens ht _ _ _ => exact ⟨_, _, rfl, by simp [ht]⟩
  | probability _ htext _ _ _ _ => exact ⟨_, _, rfl, fun _ => htext⟩

end Grammar

end JointProb
