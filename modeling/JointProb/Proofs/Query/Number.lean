/-
  JointProb — the numbers of queries.

      1. + .5e+3 * 1.e5 - 7e999

  What the scanner takes for a number is a decimal number without a sign, and
  so has a value.  The parser asks for the values of such tokens only.

  * `Parser.Leaves` says of a rule that it leaves the end of its tokens, and that
    a number that it reports as invalid is one of them without a value; there is
    one lemma for each rule, and `Parser.blames_whole` for whole queries;
  * `Expr.parse_ne_invalidNumber`: so no text has a number that is invalid;
  * `Tree.numbers` are the numbers of a tree, and
    `Grammar.DerivesQuery.exists_number`: they are tokens of the text;
  * `Expr.numbersRead` puts together what is said of the numbers of a text.
-/
import JointProb.Proofs.Query.Accepted
import JointProb.Proofs.Query.Offender
import JointProb.Proofs.Query.Scanner
import JointProb.Proofs.Scalar.Binary64

namespace JointProb

open Decimal (Literal)
open Grammar

variable {α : Type} [Scalar α] {β γ : Type} {ts us : List Token}

namespace Parser

/-! ## Faults of numbers -/

/-- A number that is reported as invalid is a token without a value. -/
def Blames (α : Type) [Scalar α] (ts : List Token) : QueryError → Prop
  | .malformed position (.invalidNumber text) =>
    ∃ t ∈ ts, t.start = position ∧ t.text = text ∧ ¬ Readable (α := α) t
  | _ => True

/-- A result with the end of the tokens, or such a fault. -/
def Leaves (α : Type) [Scalar α] (ts : List Token) (r : Except QueryError (β × List Token)) :
    Prop := Ends (Blames α ts) (fun x => x.2 <:+ ts) r

theorem blames_unexpected (expected : Expectation) (ts us : List Token) :
    Blames α ts (unexpected expected us) := by
  unfold unexpected
  split
  · trivial
  · split <;> trivial

theorem Blames.mono {e : QueryError} (h : Blames α us e) (hus : us <:+ ts) : Blames α ts e := by
  unfold Blames at h ⊢
  split at h
  · obtain ⟨t, ht, hat⟩ := h
    exact ⟨t, hus.subset ht, hat⟩
  · trivial

theorem Leaves.mono {r : Except QueryError (β × List Token)} (h : Leaves α us r)
    (hus : us <:+ ts) : Leaves α ts r :=
  (Ends.mono h fun _ hx => hx.trans hus).mono_error fun _ he => he.mono hus

/-- One rule after another, on what the first one has left. -/
theorem Leaves.bind {r : Except QueryError (β × List Token)}
    {f : β × List Token → Except QueryError (γ × List Token)} (hr : Leaves α ts r)
    (hf : ∀ x us, us <:+ ts → Leaves α us (f (x, us))) : Leaves α ts (r >>= f) :=
  Ends.bind hr fun (x, us) hus => (hf x us hus).mono hus

theorem Leaves.map {r : Except QueryError (β × List Token)}
    {f : β × List Token → γ × List Token} (hr : Leaves α ts r) (hf : ∀ x, (f x).2 = x.2) :
    Leaves α ts (r.map f) :=
  Ends.map hr fun x hx => by rwa [hf]

theorem leaves_ok (x : β) : Leaves α ts (.ok (x, ts)) := List.suffix_refl ts

theorem leaves_unexpected {expected : Expectation} :
    Leaves α ts (.error (unexpected expected us) : Except QueryError (β × List Token)) :=
  blames_unexpected expected ts us

/-! ## Entries of probabilities -/

theorem leaves_expect (k : TokenKind) (expected : Expectation) (ts : List Token) :
    Leaves α ts (values (expect k expected ts)) := by
  cases ts with
  | nil => exact leaves_unexpected
  | cons t ts =>
    rw [values_expect]
    split_ifs
    · exact List.suffix_cons t ts
    · exact leaves_unexpected

theorem leaves_nameInParens (ts : List Token) : Leaves α ts (values (nameInParens ts)) := by
  rw [values_nameInParens_eq]
  refine .bind (leaves_expect ..) fun _ us _ => ?_
  refine .bind (leaves_expect ..) fun n vs _ => ?_
  exact .bind (leaves_expect ..) fun _ ws _ => leaves_ok n

theorem leaves_specName (ts : List Token) : Leaves α ts (values (specName ts)) := by
  cases ts with
  | nil => exact leaves_unexpected
  | cons t ts =>
    rw [values_specName]
    split_ifs
    · exact .mono (.map (leaves_nameInParens ts) fun _ => rfl) (List.suffix_cons t ts)
    · exact .mono (.map (leaves_expect ..) fun _ => rfl) (List.suffix_cons t ts)
    · exact .mono (.map (leaves_nameInParens ts) fun _ => rfl) (List.suffix_cons t ts)
    · exact .map (leaves_expect ..) fun _ => rfl

theorem leaves_specState (ts : List Token) : Leaves α ts (values (specState ts)) := by
  cases ts with
  | nil => exact leaves_ok none
  | cons t ts =>
    by_cases ht : t.kind = .equals
    · cases ts with
      | nil =>
        simp only [specState, ht, if_true]
        exact leaves_unexpected
      | cons u us =>
        simp only [specState, ht, if_true]
        split_ifs
        · exact ⟨[t, u], rfl⟩
        · exact leaves_unexpected
    · simp only [specState, ht, if_false]
      exact leaves_ok none

theorem leaves_spec (ts : List Token) : Leaves α ts (values (spec ts)) := by
  rw [values_spec]
  refine (leaves_specName ts).bind fun (n, negated) us _ => ?_
  exact (leaves_specState us).bind fun state vs _ => leaves_ok _

theorem leaves_specs (ts : List Token) : Leaves α ts (values (specs ts)) := by
  rw [values_specs]
  refine (leaves_spec ts).bind fun s us hus => ?_
  dsimp only
  split_ifs with hcomma
  · obtain ⟨c, vs, rfl, -⟩ := exists_cons_of_kindOf hcomma (by simp)
    have hlt : vs.length < ts.length := hus.length_le
    exact .mono (.map (leaves_specs vs) fun _ => rfl) (List.suffix_cons c vs)
  · exact leaves_ok [s]
termination_by ts.length

theorem leaves_conditions (ts : List Token) : Leaves α ts (values (conditions ts)) := by
  rw [values_conditions]
  split_ifs
  · exact (leaves_specs ts.tail).mono (List.tail_suffix ts)
  · exact leaves_ok []

theorem leaves_probability (ts : List Token) :
    Leaves α ts (values (probability ts : Read (Expr α) ts)) := by
  rw [values_probability]
  refine (leaves_specs ts).bind fun targets us _ => ?_
  refine (leaves_conditions us).bind fun given vs _ => ?_
  exact (leaves_expect ..).bind fun _ ws _ => leaves_ok _

/-! ## Arithmetic -/

theorem leaves_number {t : Token} (ht : t.kind = .number) (ts : List Token) :
    Leaves α (t :: ts) (values (primary (t :: ts) : Read (Expr α) _)) := by
  rw [values_primary_number ts ht, numberOf]
  split
  · exact List.suffix_cons t ts
  · rename_i hnone
    refine ⟨t, List.mem_cons_self .., rfl, rfl, fun hread => ?_⟩
    obtain ⟨v, hv⟩ := hread ht
    simp [hnone] at hv

mutual

theorem leaves_expr (ts : List Token) : Leaves α ts (values (expr ts : Read (Expr α) ts)) := by
  rw [values_expr]
  exact (leaves_term ts).bind fun left us hus => leaves_exprTail left us
termination_by (ts.length, 4)
decreasing_by
  · exact Prod.Lex.right _ (by decide)
  · exact Prod.Lex.right' _ hus.length_le (by decide)

theorem leaves_exprTail (left : Expr α) (ts : List Token) :
    Leaves α ts (values (exprTail left ts)) := by
  cases hop : additive? (kindOf ts) with
  | none =>
    rw [values_exprTail_of_none hop]
    exact leaves_ok left
  | some op =>
    cases ts with
    | nil => cases hop
    | cons t ts =>
      rw [values_exprTail_of_additive? ts hop]
      refine Leaves.mono ?_ (List.suffix_cons t ts)
      refine (leaves_term ts).bind fun right us hus => ?_
      have hlt : us.length < (t :: ts).length := Nat.lt_succ_of_le hus.length_le
      exact leaves_exprTail (.binary op left right) us
termination_by (ts.length, 0)

theorem leaves_term (ts : List Token) : Leaves α ts (values (term ts : Read (Expr α) ts)) := by
  rw [values_term]
  exact (leaves_unary ts).bind fun left us hus => leaves_termTail left us
termination_by (ts.length, 3)
decreasing_by
  · exact Prod.Lex.right _ (by decide)
  · exact Prod.Lex.right' _ hus.length_le (by decide)

theorem leaves_termTail (left : Expr α) (ts : List Token) :
    Leaves α ts (values (termTail left ts)) := by
  cases ts with
  | nil =>
    rw [termTail]
    exact leaves_ok left
  | cons t ts =>
    cases hop : multiplicative? t.kind with
    | none =>
      rw [values_termTail_of_none hop]
      split_ifs
      · trivial
      · exact leaves_ok left
    | some op =>
      rw [values_termTail_of_multiplicative? ts hop]
      refine Leaves.mono ?_ (List.suffix_cons t ts)
      refine (leaves_unary ts).bind fun right us hus => ?_
      have hlt : us.length < (t :: ts).length := Nat.lt_succ_of_le hus.length_le
      exact leaves_termTail (.binary op left right) us
termination_by (ts.length, 0)

theorem leaves_unary (ts : List Token) : Leaves α ts (values (unary ts : Read (Expr α) ts)) := by
  cases ts with
  | nil =>
    rw [unary]
    exact leaves_primary []
  | cons t ts =>
    rw [values_unary]
    split_ifs
    · exact .mono (.map (leaves_unary ts) fun _ => rfl) (List.suffix_cons t ts)
    · exact (leaves_unary ts).mono (List.suffix_cons t ts)
    · exact leaves_primary (t :: ts)
termination_by (ts.length, 2)

theorem leaves_primary (ts : List Token) :
    Leaves α ts (values (primary ts : Read (Expr α) ts)) := by
  cases ts with
  | nil =>
    rw [primary.eq_def]
    exact leaves_unexpected
  | cons t ts =>
    cases hkind : t.kind with
    | number => exact leaves_number hkind ts
    | openParen =>
      rw [values_primary_parens ts hkind]
      refine Leaves.mono ?_ (List.suffix_cons t ts)
      refine (leaves_expr ts).bind fun x us _ => ?_
      exact (leaves_expect ..).bind fun _ vs _ => leaves_ok x
    | name =>
      by_cases hcall : atCall "P" (t :: ts)
      · obtain ⟨-, htext, hparen⟩ := atCall_cons.1 hcall
        obtain ⟨o, us, rfl, ho⟩ := exists_cons_of_kindOf hparen (by simp)
        rw [values_primary_probability us hkind htext ho]
        exact (leaves_probability us).mono ⟨[t, o], rfl⟩
      · have hfault : Leaves α (t :: ts) (.error (.malformed t.start (nameFault t.text)) :
            Except QueryError (Expr α × List Token)) := by
          unfold nameFault
          split_ifs <;> trivial
        rw [primary.eq_def]
        cases ts <;> simpa [hkind, hcall] using hfault
    | _ =>
      have hfault : Leaves α (t :: ts) (.error (unexpected .primary (t :: ts)) :
          Except QueryError (Expr α × List Token)) := leaves_unexpected
      rw [primary.eq_def]
      simpa [hkind] using hfault
termination_by (ts.length, 1)

end

/-! ## Queries -/

theorem leaves_plainName (ts : List Token) : Leaves α ts (values (plainName ts)) := by
  have hexpect : Leaves α ts (values (expect .name .variableName ts)) := leaves_expect ..
  rw [plainName]
  split_ifs
  · trivial
  · cases h : expect .name .variableName ts with
    | error e => rwa [h] at hexpect
    | ok r =>
      obtain ⟨⟨n, us⟩, hlt⟩ := r
      rw [h] at hexpect
      dsimp only
      split_ifs
      · trivial
      · exact hexpect

theorem leaves_predicate (conditional : Bool) (ts : List Token) :
    Leaves α ts (values (predicate conditional ts : Read (Expr α) ts)) := by
  rw [values_predicate_eq]
  refine (leaves_plainName ts).bind fun a us _ => ?_
  refine (leaves_expect ..).bind fun _ vs _ => ?_
  refine (leaves_plainName vs).bind fun b ws _ => ?_
  cases conditional with
  | true =>
    refine .bind (leaves_expect ..) fun _ xs _ => ?_
    refine .bind (leaves_plainName xs) fun given ys _ => ?_
    exact .bind (leaves_expect ..) fun _ zs _ => leaves_ok _
  | false => exact .bind (leaves_expect ..) fun _ xs _ => leaves_ok _

theorem leaves_query (ts : List Token) :
    Leaves α ts (values (query ts : Read (Expr α) ts)) := by
  rw [query]
  split_ifs
  · rw [values_widen]
    exact (leaves_predicate false _).mono (List.drop_suffix 2 ts)
  · rw [values_widen]
    exact (leaves_predicate true _).mono (List.drop_suffix 2 ts)
  · exact leaves_expr ts

/-- **A number that a query is rejected for is a token without a value.** -/
theorem blames_whole (ts : List Token) :
    Ends (Blames α ts) (fun _ => True) (whole ts : Except QueryError (Expr α)) := by
  rw [whole_eq]
  refine Ends.bind (leaves_query ts) fun (x, us) _ => ?_
  dsimp only
  split_ifs
  · trivial
  · exact blames_unexpected ..

end Parser

/-! ## Numbers of texts -/

namespace Token

/-- The scanner reports characters only. -/
theorem exists_character_of_scan {source : String} {e : QueryError} (h : scan source = .error e) :
    ∃ position c, e = .malformed position (.unexpectedCharacter c) := by
  obtain ⟨us, m, rest, hscans, rfl | hstuck⟩ := exists_scans 0 source.toList
  · rw [scan_of_scans hscans] at h
    cases h
  · cases rest with
    | nil => exact hstuck.elim
    | cons c rest =>
      rw [scan, hscans.scanFrom_eq, scanFrom_of_stuck hstuck] at h
      cases h
      exact ⟨m, c, rfl⟩

/-- All tokens that are numbers have values, and the end is no number. -/
theorem readable_of_scan {source : String} (h : scan source = .ok ts) :
    ∀ t ∈ ts, Parser.Readable (α := α) t := by
  obtain ⟨us, e, rfl, he, hus⟩ := exists_ended_of_scan h
  rw [List.forall_mem_append]
  refine ⟨fun t ht => readable_of_isLexeme (hus t ht), fun t ht hk => ?_⟩
  obtain rfl := List.mem_singleton.1 ht
  rw [he.ending] at hk
  cases hk

theorem isNumber_of_scan {source : String} (h : scan source = .ok ts) {t : Token} (ht : t ∈ ts)
    (hk : t.kind = .number) : IsNumber t.text.toList := by
  obtain ⟨us, e, rfl, he, hus⟩ := exists_ended_of_scan h
  rcases List.mem_append.1 ht with ht | ht
  · exact (hk ▸ hus t ht).isNumber
  · obtain rfl := List.mem_singleton.1 ht
    rw [he.ending] at hk
    cases hk

/-- A number is a literal, and its value is not negative, also where it is too large
    to be finite or so small that it is zero. -/
theorem IsNumber.exists_value {cs : List Char} (h : IsNumber cs) : ∃ n e, ∃ v : Float,
    Literal.Denotes cs (.finite false n e) ∧
      Scalar.ofLiteral? (.finite false n e) = some v ∧ 0 ≤ v := by
  obtain ⟨n, e, hunsigned⟩ := isNumber_iff.1 h
  have hplus := Binary64.plus_ofScientific n (e < 0) e.natAbs
  exact ⟨n, e, _, .finite .absent hunsigned, rfl, hplus.nonneg⟩

theorem IsNumber.ofText_nonneg {text : String} (h : IsNumber text.toList) :
    (0 : Float) ≤ Scalar.ofText text := by
  obtain ⟨n, e, v, hdenotes, hvalue, hv⟩ := h.exists_value
  rwa [Scalar.ofText, hdenotes.read?_eq, Option.bind_some, hvalue, Option.getD_some]

/-- What is said of a number token. -/
structure Valued (t : Token) : Prop where
  /-- Its text has digits, at most one point and perhaps an exponent; -/
  isNumber : IsNumber t.text.toList
  /-- it is a decimal number without a sign, the value of which is read and is not
      negative. -/
  exists_value : ∃ n e, ∃ v : Float, Literal.Denotes t.text.toList (.finite false n e) ∧
    Scalar.ofLiteral? (.finite false n e) = some v ∧ Parser.numberOf t = .ok (.number v) ∧ 0 ≤ v

theorem IsNumber.valued {t : Token} (h : IsNumber t.text.toList) : t.Valued where
  isNumber := h
  exists_value := by
    obtain ⟨n, e, v, hdenotes, hvalue, hv⟩ := h.exists_value
    refine ⟨n, e, v, hdenotes, hvalue, ?_, hv⟩
    simp only [Parser.numberOf, hdenotes.read?_eq, Option.bind_some, hvalue]

end Token

/-! ## Numbers of trees -/

/-- The numbers of a tree, as they stand. -/
def Tree.numbers {σ ν α : Type} : Tree σ ν α → List α
  | .probability .. | .independence .. | .condIndependence .. => []
  | .binary _ left right => left.numbers ++ right.numbers
  | .negate operand => operand.numbers
  | .number x => [x]

theorem Tree.numbers_map {σ τ ν α β : Type} (f : σ → τ) (g : α → β) (x : Tree σ ν α) :
    (x.map f g).numbers = x.numbers.map g := by
  induction x with
  | probability | independence | condIndependence | number => rfl
  | binary op left right ihl ihr => simp only [Tree.map, numbers, ihl, ihr, List.map_append]
  | negate operand ih => exact ih

theorem Grammar.Derives.exists_number {level : Level} {x : Expr String}
    (h : Derives level ts x) : ∀ text ∈ x.numbers, ∃ t ∈ ts, t.kind = .number ∧ t.text = text := by
  induction h with
  | term _ ih | unary _ ih | primary _ ih => exact ih
  | sum _ _ _ ihx ihy | product _ _ _ ihx ihy =>
    intro text htext
    rcases List.mem_append.1 htext with htext | htext
    · obtain ⟨t, ht, hat⟩ := ihx text htext
      exact ⟨t, List.mem_append_left _ ht, hat⟩
    · obtain ⟨t, ht, hat⟩ := ihy text htext
      exact ⟨t, List.mem_append_right _ (List.mem_cons_of_mem _ ht), hat⟩
  | minus _ _ ih | plus _ _ ih =>
    intro text htext
    obtain ⟨t, ht, hat⟩ := ih text htext
    exact ⟨t, List.mem_cons_of_mem _ ht, hat⟩
  | @number t ht =>
    intro text htext
    exact ⟨t, List.mem_singleton_self t, ht, (List.mem_singleton.1 htext).symm⟩
  | parens _ _ _ ih =>
    intro text htext
    obtain ⟨t, ht, hat⟩ := ih text htext
    exact ⟨t, List.mem_cons_of_mem _ (List.mem_append_left _ ht), hat⟩
  | probability => simp [Tree.numbers]

theorem Grammar.DerivesQuery.exists_number {x : Expr String} (h : DerivesQuery ts x) :
    ∀ text ∈ x.numbers, ∃ t ∈ ts, t.kind = .number ∧ t.text = text := by
  cases h with
  | independence | condIndependence => simp [Tree.numbers]
  | expr h => exact h.exists_number

namespace Expr

/-- **No number is reported as invalid**, whatever numbers are computed with. -/
theorem parse_ne_invalidNumber (source : String) (position : Nat) (text : String) :
    (parse source : Except QueryError (Expr α)) ≠
      .error (.malformed position (.invalidNumber text)) := by
  intro h
  cases hscan : Token.scan source with
  | error e =>
    obtain ⟨_, _, rfl⟩ := Token.exists_character_of_scan hscan
    rw [parse, hscan] at h
    cases h
  | ok ts =>
    have hblames := Parser.blames_whole (α := α) ts
    rw [← parse_of_scan hscan, h] at hblames
    obtain ⟨t, ht, -, -, hread⟩ := hblames
    exact hread (Token.readable_of_scan hscan t ht)

theorem numbers_nonneg {source : String} {x : Expr Float} (h : parse source = .ok x) :
    ∀ v ∈ x.numbers, 0 ≤ v := by
  obtain ⟨ts, hscan, hwhole⟩ := bind_eq_ok.1 h
  have hyields := Parser.yields_whole (α := Float) ts
  rw [hwhole] at hyields
  obtain ⟨us, vs, y, rfl, -, hy, rfl⟩ := hyields
  intro v hv
  rw [withValues, Tree.numbers_map] at hv
  obtain ⟨text, htext, rfl⟩ := List.mem_map.1 hv
  obtain ⟨t, ht, hk, rfl⟩ := hy.exists_number text htext
  exact (Token.isNumber_of_scan hscan (List.mem_append_left _ ht) hk).ofText_nonneg

/-- What is said of the numbers of a text. -/
structure NumbersRead (source : String) : Prop where
  /-- Its number tokens are decimal numbers without a sign, and are read as such. -/
  valued {ts : List Token} (hscan : Token.scan source = .ok ts) {t : Token} (ht : t ∈ ts)
    (hk : t.kind = .number) : t.Valued
  /-- None is reported as invalid, whatever numbers are computed with. -/
  parse_ne {α : Type} [Scalar α] (position : Nat) (text : String) :
    (parse source : Except QueryError (Expr α)) ≠
      .error (.malformed position (.invalidNumber text))
  /-- In its tree no number is negative: a minus in front of one is a negation. -/
  nonneg {x : Expr Float} (h : parse source = .ok x) : ∀ v ∈ x.numbers, 0 ≤ v

/-- **The numbers of all texts are read.** -/
theorem numbersRead (source : String) : NumbersRead source where
  valued hscan _ ht hk := (Token.isNumber_of_scan hscan ht hk).valued
  parse_ne := parse_ne_invalidNumber source
  nonneg := numbers_nonneg

/-- Numbers that end in their point or start with it, and one that is too large. -/
theorem numbersRead_points :
    let ts : List Token := [⟨.number, "1.", 0, 2⟩, ⟨.plus, "+", 2, 3⟩, ⟨.number, ".5e+3", 3, 8⟩,
      ⟨.star, "*", 8, 9⟩, ⟨.number, "1.e5", 9, 13⟩, ⟨.minus, "-", 13, 14⟩,
      ⟨.number, "7E999", 14, 19⟩]
    Token.scan "1.+.5e+3*1.e5-7E999" = .ok (ts ++ [⟨.ending, "", 19, 19⟩]) ∧
      (∀ t ∈ ts, t.kind = .number → t.Valued) ∧
      ∃ x : Expr Float, parse "1.+.5e+3*1.e5-7E999" = .ok x ∧ x.numbers.length = 4 ∧
        ∀ v ∈ x.numbers, 0 ≤ v := by
  intro ts
  have hscan : Token.scan "1.+.5e+3*1.e5-7E999" = .ok (ts ++ [⟨.ending, "", 19, 19⟩]) := by
    rw [← toOption_eq_some]
    decide +kernel
  have hread := numbersRead "1.+.5e+3*1.e5-7E999"
  refine ⟨hscan, fun t ht hk => hread.valued hscan (List.mem_append_left _ ht) hk, ?_⟩
  have hnumber (t : Token) (ht : t.kind = .number) : Derives .unary [t] (.number t.text) :=
    .primary (.number ht)
  have hproduct : Derives .term [⟨.number, ".5e+3", 3, 8⟩, ⟨.star, "*", 8, 9⟩,
      ⟨.number, "1.e5", 9, 13⟩] (.binary .mul (.number ".5e+3") (.number "1.e5")) :=
    .product (.unary (hnumber ⟨.number, ".5e+3", 3, 8⟩ rfl)) rfl (hnumber _ rfl)
  have hplus : Parser.additive? (⟨.plus, "+", 2, 3⟩ : Token).kind = some .add := rfl
  have hminus : Parser.additive? (⟨.minus, "-", 13, 14⟩ : Token).kind = some .sub := rfl
  have hsum := Derives.sum (.term (.unary (hnumber ⟨.number, "1.", 0, 2⟩ rfl))) hplus hproduct
  have hquery := Derives.sum hsum hminus (.unary (hnumber ⟨.number, "7E999", 14, 19⟩ rfl))
  have hended : Parser.Ended ts ⟨.ending, "", 19, 19⟩ := ⟨rfl, by decide⟩
  have hreadable : ∀ t ∈ ts, Parser.Readable (α := Float) t :=
    fun t ht => Token.readable_of_scan hscan t (List.mem_append_left _ ht)
  have hparse := (parse_of_scan hscan).trans
    ((Parser.whole_eq_ok_iff hended hreadable).2 ⟨_, .expr hquery, rfl⟩)
  refine ⟨_, hparse, ?_, hread.nonneg hparse⟩
  rw [withValues, Tree.numbers_map]
  rfl

end Expr

end JointProb
