/-
  JointProb — reading JSON.

  Each rule of the grammar takes characters off the front of a text and
  returns the rest, which is shorter.

  * `Json.read?` reads a whole text as one value.
-/
import JointProb.Json.Basic

namespace JointProb.Json

/-- What a rule reads off a text, with fewer characters left. -/
abbrev Read (β : Type) (cs : List Char) : Type :=
  Option { r : β × List Char // r.2.length < cs.length }

/-- A reading of the end of a text as one of the whole text. -/
def Read.widen {β γ : Type} {cs ds : List Char} (f : β → γ) (h : ds.length ≤ cs.length) :
    Read β ds → Read γ cs
  | some ⟨(x, rest), h'⟩ => some ⟨(f x, rest), Nat.lt_of_lt_of_le h' h⟩
  | none => none

/-- Whether a character may stand between tokens. -/
def isSpace (c : Char) : Bool := c == ' ' || c == '\n' || c == '\t' || c == '\r'

/-- A text without the blanks in front. -/
def skip (cs : List Char) : List Char := cs.dropWhile isSpace

theorem length_skip_le (cs : List Char) : (skip cs).length ≤ cs.length :=
  (List.dropWhile_suffix _).length_le

theorem length_lt_of_skip {cs rest : List Char} {c : Char} (h : skip cs = c :: rest) :
    rest.length < cs.length := by
  have := length_skip_le cs
  rw [h, List.length_cons] at this
  omega

/-- The digits that a text starts with. -/
def digits (cs : List Char) : List Char × { r : List Char // r.length ≤ cs.length } :=
  (cs.takeWhile Char.isDigit, ⟨cs.dropWhile Char.isDigit, (List.dropWhile_suffix _).length_le⟩)

/-! ## Numbers -/

/-- The digits after a point, if there is one: at least one digit. -/
def fraction (cs : List Char) : Option (List Char × { r : List Char // r.length ≤ cs.length }) :=
  match cs with
  | '.' :: cs =>
    match digits cs with
    | ([], _) => none
    | (ds, ⟨rest, h⟩) => some (ds, ⟨rest, Nat.le_succ_of_le h⟩)
  | cs => some ([], ⟨cs, Nat.le_refl _⟩)

/-- The exponent, if there is one: at least one digit. -/
def exponent (cs : List Char) :
    Option (Option Int × { r : List Char // r.length ≤ cs.length }) :=
  match cs with
  | [] => some (none, ⟨[], Nat.le_refl _⟩)
  | c :: cs =>
    if c = 'e' ∨ c = 'E' then
      let (negative, ⟨rest, h⟩) : Bool × { r : List Char // r.length ≤ cs.length } :=
        match cs with
        | '-' :: rest => (true, ⟨rest, Nat.le_succ _⟩)
        | '+' :: rest => (false, ⟨rest, Nat.le_succ _⟩)
        | rest => (false, ⟨rest, Nat.le_refl _⟩)
      match digits rest with
      | ([], _) => none
      | (ds, ⟨rest, h'⟩) =>
        let n : Int := Nat.ofDigitChars 10 ds 0
        some (some (if negative then -n else n), ⟨rest, Nat.le_succ_of_le (Nat.le_trans h' h)⟩)
    else some (none, ⟨c :: cs, Nat.le_refl _⟩)

/-- A number after its sign, from its first digit on.  A zero in front stands
    alone. -/
def number (negative : Bool) (cs : List Char) : Read Value cs :=
  match cs with
  | [] => none
  | c :: cs =>
    if ¬ c.isDigit then none
    else
      let (more, ⟨rest, h⟩) := digits cs
      if c = '0' ∧ ¬ more.isEmpty then none
      else
        match fraction rest with
        | none => none
        | some (ds, ⟨rest, h'⟩) =>
          match exponent rest with
          | none => none
          | some (e, ⟨rest, h''⟩) =>
            some ⟨(.number ⟨negative, c :: more, ds, e⟩, rest),
              Nat.lt_succ_of_le (Nat.le_trans h'' (Nat.le_trans h' h))⟩

/-! ## Strings -/

/-- The value of a hexadecimal digit. -/
def hexDigit? (c : Char) : Option Nat :=
  if c.isDigit then some (c.toNat - '0'.toNat)
  else if 'a' ≤ c ∧ c ≤ 'f' then some (c.toNat - 'a'.toNat + 10)
  else if 'A' ≤ c ∧ c ≤ 'F' then some (c.toNat - 'A'.toNat + 10)
  else none

/-- The value of four hexadecimal digits. -/
def hex4? (a b c d : Char) : Option Nat :=
  match hexDigit? a, hexDigit? b, hexDigit? c, hexDigit? d with
  | some a, some b, some c, some d => some (((a * 16 + b) * 16 + c) * 16 + d)
  | _, _, _, _ => none

/-- The character that a backslash and a letter stand for. -/
def escape? : Char → Option Char
  | '"' => some '"'
  | '\\' => some '\\'
  | '/' => some '/'
  | 'b' => some '\x08'
  | 'f' => some '\x0c'
  | 'n' => some '\n'
  | 'r' => some '\r'
  | 't' => some '\t'
  | _ => none

/-- A string after its opening quote. -/
def string (cs : List Char) : Read (List Piece) cs :=
  match cs with
  | [] => none
  | '"' :: cs => some ⟨([], cs), by simp⟩
  | '\\' :: 'u' :: a :: b :: c :: d :: cs =>
    match hex4? a b c d with
    | some n => (string cs).widen (.unit n :: ·) (by simp only [List.length_cons]; omega)
    | none => none
  | '\\' :: c :: cs =>
    match escape? c with
    | some e => (string cs).widen (.char e :: ·) (by simp only [List.length_cons]; omega)
    | none => none
  | c :: cs =>
    if c = '\\' ∨ c.toNat < 0x20 then none
    else (string cs).widen (.char c :: ·) (by simp)

/-! ## Values -/

/-- A known word in front of a text. -/
def word (w : List Char) (v : Value) (cs : List Char) : Read Value cs :=
  if h : w ≠ [] ∧ w.isPrefixOf cs then
    some ⟨(v, cs.drop w.length), by
      have h₁ := List.length_pos_iff.2 h.1
      have h₂ := (List.isPrefixOf_iff_prefix.1 h.2).length_le
      simp only [List.length_drop]
      omega⟩
  else none

/-- A value that is neither a string nor made of others. -/
def scalar (cs : List Char) : Read Value cs :=
  match cs with
  | [] => none
  | c :: rest =>
    if c = '-' then (number true rest).widen id (Nat.le_succ _)
    else
      (number false (c :: rest)).or <| (word "null".toList .null (c :: rest)).or <|
        (word "true".toList (.bool true) (c :: rest)).or <|
          word "false".toList (.bool false) (c :: rest)

mutual

/-- A value. -/
def value (cs : List Char) : Read Value cs :=
  match h : skip cs with
  | [] => none
  | c :: rest =>
    have shorter := length_lt_of_skip h
    if c = '[' then (elements rest).widen .array (Nat.le_of_lt shorter)
    else if c = '\x7b' then (members rest).widen .object (Nat.le_of_lt shorter)
    else if c = '"' then (string rest).widen .string (Nat.le_of_lt shorter)
    else (scalar (c :: rest)).widen id (show (c :: rest).length ≤ cs.length from shorter)
termination_by (cs.length, 1)

/-- The elements of an array after its opening bracket. -/
def elements (cs : List Char) : Read (List Value) cs :=
  match h : skip cs with
  | [] => none
  | c :: rest => if c = ']' then some ⟨([], rest), length_lt_of_skip h⟩ else moreElements cs
termination_by (cs.length, 3)

/-- At least one element, up to the closing bracket. -/
def moreElements (cs : List Char) : Read (List Value) cs :=
  match value cs with
  | none => none
  | some ⟨(x, rest), h₁⟩ =>
    match h₂ : skip rest with
    | [] => none
    | c :: rest =>
      have shorter : rest.length < cs.length := Nat.lt_trans (length_lt_of_skip h₂) h₁
      if c = ',' then (moreElements rest).widen (x :: ·) (Nat.le_of_lt shorter)
      else if c = ']' then some ⟨([x], rest), shorter⟩
      else none
termination_by (cs.length, 2)

/-- The fields of an object after its opening brace. -/
def members (cs : List Char) : Read (List (List Piece × Value)) cs :=
  match h : skip cs with
  | [] => none
  | c :: rest => if c = '\x7d' then some ⟨([], rest), length_lt_of_skip h⟩ else moreMembers cs
termination_by (cs.length, 3)

/-- A field: its name in quotes, a colon and its value. -/
def member (cs : List Char) : Read (List Piece × Value) cs :=
  match h₁ : skip cs with
  | [] => none
  | c :: rest =>
    if c ≠ '"' then none
    else
      match string rest with
      | none => none
      | some ⟨(key, rest), h₂⟩ =>
        match h₃ : skip rest with
        | [] => none
        | c :: rest =>
          have shorter : rest.length < cs.length :=
            Nat.lt_trans (length_lt_of_skip h₃) (Nat.lt_trans h₂ (length_lt_of_skip h₁))
          if c = ':' then (value rest).widen (key, ·) (Nat.le_of_lt shorter) else none
termination_by (cs.length, 1)

/-- At least one field, up to the closing brace. -/
def moreMembers (cs : List Char) : Read (List (List Piece × Value)) cs :=
  match member cs with
  | none => none
  | some ⟨(field, rest), h₁⟩ =>
    match h₂ : skip rest with
    | [] => none
    | c :: rest =>
      have shorter : rest.length < cs.length := Nat.lt_trans (length_lt_of_skip h₂) h₁
      if c = ',' then (moreMembers rest).widen (field :: ·) (Nat.le_of_lt shorter)
      else if c = '\x7d' then some ⟨([field], rest), shorter⟩
      else none
termination_by (cs.length, 2)

end

/-- The value that makes up a whole text. -/
def read? (text : String) : Option Value :=
  match value text.toList with
  | some ⟨(v, rest), _⟩ => if (skip rest).isEmpty then some v else none
  | none => none

end JointProb.Json
