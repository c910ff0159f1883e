/-
  JointProb — reading queries.

  The grammar over tokens, with the usual precedences and left association:

      query     := predicate | expr
      predicate := IsIndep ( name , name ) | IsCondIndep ( name , name | name )
      expr      := term ((+ | -) term)*
      term      := unary ((* | /) unary)*
      unary     := (- | +) unary | primary
      primary   := number | ( expr ) | P ( specs ) | P ( specs | specs )
      specs     := spec (, spec)*
      spec      := (name | ~ name | ~ ( name ) | Not ( name )) (= (name | number))?

  A word is a keyword only in front of an opening parenthesis, and the
  predicates stand only at the top.

  * each rule is a function that takes tokens off the front of a list and
    returns the rest, with the bound that makes the recursion end;
  * `Expr.parse` reads a whole query, and reports the first token that cannot
    go on.
-/
import JointProb.Query.Token
import JointProb.Query.Tree

namespace JointProb

namespace Parser

variable {α : Type} [Scalar α] {β : Type}

/-! ## Results -/

/-- What a rule reads off `ts`, with fewer tokens left. -/
abbrev Read (β : Type) (ts : List Token) : Type :=
  Except QueryError { r : β × List Token // r.2.length < ts.length }

/-- What a rule that may read nothing reads off `ts`. -/
abbrev ReadMore (β : Type) (ts : List Token) : Type :=
  Except QueryError { r : β × List Token // r.2.length ≤ ts.length }

/-- The kind of the first token. -/
def kindOf : List Token → TokenKind
  | t :: _ => t.kind
  | [] => .ending

/-- Where the first token stands. -/
def positionOf : List Token → Nat
  | t :: _ => t.start
  | [] => 0

/-- Whether tokens go on with a keyword and a parenthesis. -/
def atCall (keyword : String) : List Token → Bool
  | t :: u :: _ => t.kind == .name && t.text == keyword && u.kind == .openParen
  | _ => false

/-- The fault of a token where something else is expected. -/
def unexpected (expected : Expectation) (ts : List Token) : QueryError :=
  .malformed (positionOf ts) <|
    match ts with
    | [] => .unexpectedEnd expected
    | t :: _ =>
      match t.kind with
      | .caret | .doubleStar => .exponentiation
      | .ending => .unexpectedEnd expected
      | _ => .unexpectedToken expected t.text

/-- A token of a kind. -/
def expect (kind : TokenKind) (expected : Expectation) (ts : List Token) : Read Token ts :=
  match ts with
  | t :: ts =>
    if t.kind = kind then .ok ⟨(t, ts), by simp⟩ else .error (unexpected expected (t :: ts))
  | [] => .error (unexpected expected [])

/-- The same result, read off more tokens. -/
def Read.widen {ts us : List Token} (h : ts.length ≤ us.length) : Read β ts → Read β us
  | .ok ⟨r, hr⟩ => .ok ⟨r, Nat.lt_of_lt_of_le hr h⟩
  | .error e => .error e

/-- One rule after another. -/
def Read.andThen {γ : Type} {ts : List Token} (r : Read β ts)
    (f : β → (us : List Token) → us.length < ts.length → Read γ us) : Read γ ts :=
  match r with
  | .error e => .error e
  | .ok ⟨(x, us), h⟩ => (f x us h).widen (Nat.le_of_lt h)

/-! ## Entries of probabilities -/

/-- A name in parentheses. -/
def nameInParens (ts : List Token) : Read Token ts :=
  (expect .openParen .openParen ts).andThen fun _ us _ =>
    (expect .name .variableName us).andThen fun name vs _ =>
      match expect .closeParen .closeParen vs with
      | .error e => .error e
      | .ok ⟨(_, ws), h⟩ => .ok ⟨(name, ws), h⟩

/-- A name and whether it is negated. -/
def specName (ts : List Token) : Read (Token × Bool) ts :=
  let negated (us : List Token) : Read Token us → Read (Token × Bool) us
    | .error e => .error e
    | .ok ⟨(name, vs), h⟩ => .ok ⟨((name, true), vs), h⟩
  match ts with
  | [] => .error (unexpected .variableName [])
  | t :: us =>
    if t.kind = .tilde then
      if kindOf us = .openParen then (negated us (nameInParens us)).widen (by simp)
      else (negated us (expect .name .variableName us)).widen (by simp)
    else if atCall "Not" (t :: us) then (negated us (nameInParens us)).widen (by simp)
    else
      match expect .name .variableName (t :: us) with
      | .error e => .error e
      | .ok ⟨(name, vs), h⟩ => .ok ⟨((name, false), vs), h⟩

/-- The state after an equals sign, if there is one. -/
def specState (ts : List Token) : ReadMore (Option String) ts :=
  match ts with
  | t :: us =>
    if t.kind = .equals then
      match us with
      | u :: vs =>
        if u.kind = .name ∨ u.kind = .number then
          .ok ⟨(some u.text, vs), by simp only [List.length_cons]; omega⟩
        else .error (unexpected .state (u :: vs))
      | [] => .error (unexpected .state [])
    else .ok ⟨(none, t :: us), Nat.le_refl _⟩
  | [] => .ok ⟨(none, []), Nat.le_refl _⟩

/-- An entry of a probability. -/
def spec (ts : List Token) : Read VarSpec ts :=
  match specName ts with
  | .error e => .error e
  | .ok ⟨((name, negated), us), h⟩ =>
    match specState us with
    | .error e => .error e
    | .ok ⟨(state, vs), h'⟩ =>
      .ok ⟨(⟨name.text, negated, state, name.start⟩, vs), Nat.lt_of_le_of_lt h' h⟩

/-- Entries of a probability, separated by commas. -/
def specs (ts : List Token) : Read (List VarSpec) ts :=
  match spec ts with
  | .error e => .error e
  | .ok ⟨(s, us), h⟩ =>
    match us, h with
    | u :: vs, h =>
      if u.kind = .comma then
        have : vs.length < ts.length := Nat.lt_of_succ_lt h
        match specs vs with
        | .error e => .error e
        | .ok ⟨(ss, ws), h'⟩ => .ok ⟨(s :: ss, ws), Nat.lt_trans h' this⟩
      else .ok ⟨([s], u :: vs), h⟩
    | [], h => .ok ⟨([s], []), h⟩
termination_by ts.length

/-- The conditions after a bar, if there are any. -/
def conditions (ts : List Token) : ReadMore (List VarSpec) ts :=
  match ts with
  | t :: us =>
    if t.kind = .bar then
      match specs us with
      | .error e => .error e
      | .ok ⟨r, h⟩ => .ok ⟨r, Nat.le_of_lt (Nat.lt_of_lt_of_le h (by simp))⟩
    else .ok ⟨([], t :: us), Nat.le_refl _⟩
  | [] => .ok ⟨([], []), Nat.le_refl _⟩

/-- What stands in the parentheses of a probability, and the closing one. -/
def probability (ts : List Token) : Read (Expr α) ts :=
  (specs ts).andThen fun targets us _ =>
    match conditions us with
    | .error e => .error e
    | .ok ⟨(given, vs), h⟩ =>
      match expect .closeParen .closeParen vs with
      | .error e => .error e
      | .ok ⟨(_, ws), h'⟩ =>
        .ok ⟨(.probability targets given, ws), Nat.lt_of_lt_of_le h' h⟩

/-! ## Arithmetic -/

/-- The number that a token denotes. -/
def numberOf (t : Token) : Except QueryError (Expr α) :=
  match (Decimal.Literal.read? t.text.toList).bind Scalar.ofLiteral? with
  | some x => .ok (.number x)
  | none => .error (.malformed t.start (.invalidNumber t.text))

/-- The fault of a name where a number is expected. -/
def nameFault (name : String) : QueryFault :=
  if name = "IsIndep" ∨ name = "IsCondIndep" then .predicateInArithmetic else .bareName name

/-- Addition and subtraction. -/
def additive? : TokenKind → Option Operator
  | .plus => some .add
  | .minus => some .sub
  | _ => none

/-- Multiplication and division. -/
def multiplicative? : TokenKind → Option Operator
  | .star => some .mul
  | .slash => some .div
  | _ => none

mutual

/-- A sum. -/
def expr (ts : List Token) : Read (Expr α) ts :=
  match term ts with
  | .error e => .error e
  | .ok ⟨(left, us), h⟩ =>
    match exprTail left us with
    | .error e => .error e
    | .ok ⟨r, h'⟩ => .ok ⟨r, Nat.lt_of_le_of_lt h' h⟩
termination_by (ts.length, 4)

/-- The further terms of a sum. -/
def exprTail (left : Expr α) (ts : List Token) : ReadMore (Expr α) ts :=
  match ts with
  | t :: us =>
    match additive? t.kind with
    | some op =>
      match term us with
      | .error e => .error e
      | .ok ⟨(right, vs), h⟩ =>
        have : vs.length < us.length := h
        match exprTail (.binary op left right) vs with
        | .error e => .error e
        | .ok ⟨r, h'⟩ => .ok ⟨r, by simp only [List.length_cons]; omega⟩
    | none => .ok ⟨(left, t :: us), Nat.le_refl _⟩
  | [] => .ok ⟨(left, []), Nat.le_refl _⟩
termination_by (ts.length, 0)

/-- A product. -/
def term (ts : List Token) : Read (Expr α) ts :=
  match unary ts with
  | .error e => .error e
  | .ok ⟨(left, us), h⟩ =>
    match termTail left us with
    | .error e => .error e
    | .ok ⟨r, h'⟩ => .ok ⟨r, Nat.lt_of_le_of_lt h' h⟩
termination_by (ts.length, 3)

/-- The further factors of a product; no power may follow. -/
def termTail (left : Expr α) (ts : List Token) : ReadMore (Expr α) ts :=
  match ts with
  | t :: us =>
    match multiplicative? t.kind with
    | some op =>
      match unary us with
      | .error e => .error e
      | .ok ⟨(right, vs), h⟩ =>
        have : vs.length < us.length := h
        match termTail (.binary op left right) vs with
        | .error e => .error e
        | .ok ⟨r, h'⟩ => .ok ⟨r, by simp only [List.length_cons]; omega⟩
    | none =>
      if t.kind = .caret ∨ t.kind = .doubleStar then .error (.malformed t.start .exponentiation)
      else .ok ⟨(left, t :: us), Nat.le_refl _⟩
  | [] => .ok ⟨(left, []), Nat.le_refl _⟩
termination_by (ts.length, 0)

/-- A primary with signs in front of it. -/
def unary (ts : List Token) : Read (Expr α) ts :=
  match ts with
  | t :: us =>
    if t.kind = .minus then
      match unary us with
      | .error e => .error e
      | .ok ⟨(x, vs), h⟩ => .ok ⟨(.negate x, vs), Nat.lt_succ_of_lt h⟩
    else if t.kind = .plus then (unary us).widen (by simp)
    else primary (t :: us)
  | [] => primary []
termination_by (ts.length, 2)

/-- A number, a sum in parentheses or a probability. -/
def primary (ts : List Token) : Read (Expr α) ts :=
  match ts with
  | t :: us =>
    match t.kind with
    | .number =>
      match numberOf t with
      | .error e => .error e
      | .ok x => .ok ⟨(x, us), by simp⟩
    | .openParen =>
      match expr us with
      | .error e => .error e
      | .ok ⟨(x, vs), h⟩ =>
        match expect .closeParen .closeParen vs with
        | .error e => .error e
        | .ok ⟨(_, ws), h'⟩ => .ok ⟨(x, ws), Nat.lt_succ_of_lt (Nat.lt_trans h' h)⟩
    | .name =>
      match us with
      | u :: vs =>
        if atCall "P" (t :: u :: vs) then
          (probability vs).widen (by simp only [List.length_cons]; omega)
        else .error (.malformed t.start (nameFault t.text))
      | [] => .error (.malformed t.start (nameFault t.text))
    | _ => .error (unexpected .primary (t :: us))
  | [] => .error (unexpected .primary [])
termination_by (ts.length, 1)

end

/-! ## Predicates -/

/-- A name that is neither negated nor has a state. -/
def plainName (ts : List Token) : Read String ts :=
  if kindOf ts = .tilde ∨ atCall "Not" ts then
    .error (.malformed (positionOf ts) .plainNameNeeded)
  else
    match expect .name .variableName ts with
    | .error e => .error e
    | .ok ⟨(name, us), h⟩ =>
      if kindOf us = .equals then .error (.malformed (positionOf us) .plainNameNeeded)
      else .ok ⟨(name.text, us), h⟩

/-- What stands in the parentheses of a predicate, and the closing one. -/
def predicate (conditional : Bool) (ts : List Token) : Read (Expr α) ts :=
  (plainName ts).andThen fun a us _ =>
    (expect .comma .comma us).andThen fun _ vs _ =>
      (plainName vs).andThen fun b ws _ =>
        if conditional then
          (expect .bar .bar ws).andThen fun _ xs _ =>
            (plainName xs).andThen fun given ys _ =>
              match expect .closeParen .closeParen ys with
              | .error e => .error e
              | .ok ⟨(_, zs), h⟩ => .ok ⟨(.condIndependence a b given, zs), h⟩
        else
          match expect .closeParen .closeParen ws with
          | .error e => .error e
          | .ok ⟨(_, xs), h⟩ => .ok ⟨(.independence a b, xs), h⟩

/-! ## Queries -/

/-- A predicate or a sum. -/
def query (ts : List Token) : Read (Expr α) ts :=
  if atCall "IsIndep" ts then
    (predicate false (ts.drop 2)).widen (by simp)
  else if atCall "IsCondIndep" ts then
    (predicate true (ts.drop 2)).widen (by simp)
  else expr ts

/-- A query that is all there is. -/
def whole (ts : List Token) : Except QueryError (Expr α) :=
  match query ts with
  | .error e => .error e
  | .ok ⟨(x, us), _⟩ =>
    if kindOf us = .ending then .ok x else .error (unexpected .operatorOrEnd us)

end Parser

/-- The tree of a query. -/
def Expr.parse {α : Type} [Scalar α] (source : String) : Except QueryError (Expr α) :=
  (Token.scan source).bind Parser.whole

end JointProb
