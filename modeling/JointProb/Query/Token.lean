/-
  JointProb — the tokens of queries.

  A query is cut into marks, numbers and names; blanks, tabs and line ends
  between them are dropped.  Where several tokens could start the longest one
  is taken.

  * `lexeme?` is the longest token that a text starts with;
  * `Token.scan` cuts a whole text, and ends with a token for its end.
-/
import JointProb.Error
import JointProb.Decimal.Literal

namespace JointProb

/-- The kinds of tokens. -/
inductive TokenKind where
  | openParen
  | closeParen
  | comma
  | bar
  | tilde
  | equals
  | plus
  | minus
  | star
  | slash
  | caret
  | doubleStar
  | number
  | name
  | ending
deriving DecidableEq, Repr

/-- The name of a kind in reports. -/
def TokenKind.text : TokenKind → String
  | openParen => "("
  | closeParen => ")"
  | comma => ","
  | bar => "|"
  | tilde => "~"
  | equals => "="
  | plus => "+"
  | minus => "-"
  | star => "*"
  | slash => "/"
  | caret => "^"
  | doubleStar => "**"
  | number => "number"
  | name => "name"
  | ending => "end of input"

/-- A token and where it stands, in bytes. -/
structure Token where
  kind : TokenKind
  text : String
  start : Nat
  stop : Nat
deriving DecidableEq, Repr

namespace Token

/-! ## Lexemes -/

/-- The marks of one character. -/
def markKind? : Char → Option TokenKind
  | '(' => some .openParen
  | ')' => some .closeParen
  | ',' => some .comma
  | '|' => some .bar
  | '~' => some .tilde
  | '=' => some .equals
  | '+' => some .plus
  | '-' => some .minus
  | '*' => some .star
  | '/' => some .slash
  | '^' => some .caret
  | _ => none

/-- Whether a name may start with a character. -/
def startsName (c : Char) : Bool := c.isAlpha || c == '_'

/-- Whether a name may go on with a character. -/
def continuesName (c : Char) : Bool := c.isAlphanum || c == '_'

/-- The exponent that a text starts with, or nothing: `e` or `E`, perhaps a
    sign, and digits. -/
def exponentLexeme : List Char → List Char
  | c :: cs =>
    if c = 'e' ∨ c = 'E' then
      let (sign, ds) : List Char × List Char := match cs with
        | '+' :: ds => (['+'], ds)
        | '-' :: ds => (['-'], ds)
        | ds => ([], ds)
      let digits := ds.takeWhile Char.isDigit
      if digits.isEmpty then [] else c :: sign ++ digits
    else []
  | [] => []

/-- The number that a text starts with: digits with a point among them, after
    them or in front of them, and perhaps an exponent. -/
def numberLexeme? (cs : List Char) : Option (List Char) :=
  let (whole, rest) := Decimal.Literal.splitDigits cs
  match rest with
  | '.' :: rest =>
    let (fraction, rest) := Decimal.Literal.splitDigits rest
    if whole.isEmpty ∧ fraction.isEmpty then none
    else some (whole ++ '.' :: fraction ++ exponentLexeme rest)
  | rest => if whole.isEmpty then none else some (whole ++ exponentLexeme rest)

/-- The longest token that starts with a character and goes on in a text. -/
def lexeme? (c : Char) (cs : List Char) : Option (TokenKind × List Char) :=
  if c = '*' ∧ cs.head? = some '*' then some (.doubleStar, ['*', '*'])
  else if let some kind := markKind? c then some (kind, [c])
  else if startsName c then some (.name, c :: cs.takeWhile continuesName)
  else (numberLexeme? (c :: cs)).map fun ds => (.number, ds)

theorem numberLexeme?_ne_nil {cs ds : List Char} (h : numberLexeme? cs = some ds) : ds ≠ [] := by
  simp only [numberLexeme?] at h
  split at h
  · split at h
    · cases h
    · cases h
      simp
  · split at h
    · cases h
    · cases h
      rename_i hne
      simp_all

theorem lexeme?_ne_nil {c : Char} {cs : List Char} {k : TokenKind} {ds : List Char}
    (h : lexeme? c cs = some (k, ds)) : ds ≠ [] := by
  simp only [lexeme?] at h
  split at h
  · cases h
    simp
  · split at h
    · cases h
      simp
    · split at h
      · cases h
        simp
      · obtain ⟨_, hn, he⟩ := Option.map_eq_some_iff.1 h
        cases he
        exact numberLexeme?_ne_nil hn

/-! ## Scanning -/

/-- Whether a character may stand between tokens. -/
def separates (c : Char) : Bool := c == ' ' || c == '\t' || c == '\r' || c == '\n'

/-- The number of bytes of a text. -/
def byteLength : List Char → Nat
  | [] => 0
  | c :: cs => c.utf8Size + byteLength cs

/-- The tokens of the part of a text from a position on. -/
def scanFrom (position : Nat) (cs : List Char) : Except QueryError (List Token) :=
  match cs with
  | [] => .ok [⟨.ending, "", position, position⟩]
  | c :: cs =>
    if separates c then scanFrom (position + c.utf8Size) cs
    else
      match h : lexeme? c cs with
      | none => .error (.malformed position (.unexpectedCharacter c))
      | some (kind, text) =>
        have : 0 < text.length := List.length_pos_iff.2 (lexeme?_ne_nil h)
        let stop := position + byteLength text
        (scanFrom stop ((c :: cs).drop text.length)).map
          (⟨kind, String.ofList text, position, stop⟩ :: ·)
termination_by cs.length
decreasing_by
  · simp
  · simp only [List.length_drop, List.length_cons]
    omega

/-- The tokens of a query, and one for its end. -/
def scan (source : String) : Except QueryError (List Token) := scanFrom 0 source.toList

end Token

end JointProb
