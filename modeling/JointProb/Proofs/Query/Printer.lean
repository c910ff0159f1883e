/-
  JointProb — queries written out.

  * `Expr.pieces` writes a tree with no more parentheses than the grammar
    asks for, and `Expr.printed` puts blanks between the pieces;
  * `Expr.exists_derives`: wherever the pieces stand, the grammar derives the
    tree from them, with the places of the names;
  * `Expr.parse_printed`: what is written is read, whatever the blanks, and
    `Expr.exists_isQuery_of_parse`: what is read can be written.
-/
import JointProb.Proofs.Query.Accepted
import JointProb.Proofs.Query.Layout

namespace JointProb

open Grammar
open Token (Piece)

/-! ## The pieces of a query -/

namespace Token.Piece

def mark (k : TokenKind) : Piece := ⟨k, k.text, false⟩

def word (name : String) : Piece := ⟨.name, name, false⟩

def literal (text : String) : Piece := ⟨.number, text, false⟩

/-- Pieces in parentheses. -/
def inParens (ps : List Piece) : List Piece := mark .openParen :: (ps ++ [mark .closeParen])

end Token.Piece

open Token.Piece (mark word literal inParens)

/-- How tightly a level binds. -/
def Grammar.Level.rank : Level → Nat
  | .expr => 0
  | .term => 1
  | .unary => 2
  | .primary => 3

/-- Pieces of one level where another is needed. -/
def Grammar.Level.fit (needed level : Level) (ps : List Piece) : List Piece :=
  if level.rank < needed.rank then inParens ps else ps

namespace Operator

def mark : Operator → Piece
  | add => Piece.mark .plus
  | sub => Piece.mark .minus
  | mul => Piece.mark .star
  | div => Piece.mark .slash

/-- The level of what an operator makes, and of its left operand. -/
def level : Operator → Level
  | add | sub => .expr
  | mul | div => .term

/-- The level of the right operand, which is the next one. -/
def rightLevel : Operator → Level
  | add | sub => .term
  | mul | div => .unary

end Operator

namespace VarSpec

def statePieces : Option String → List Piece
  | none => []
  | some s => [mark .equals, if isIdentifier s then word s else literal s]

def pieces (s : VarSpec) : List Piece :=
  (if s.negated then [mark .tilde] else []) ++ ⟨.name, s.name, true⟩ :: statePieces s.state

/-- Entries with commas between them. -/
def listPieces : List VarSpec → List Piece
  | [] => []
  | [s] => s.pieces
  | s :: ss => s.pieces ++ mark .comma :: listPieces ss

def conditionPieces : List VarSpec → List Piece
  | [] => []
  | ss => mark .bar :: listPieces ss

/-- An entry that can be written. -/
def IsWritten (s : VarSpec) : Prop :=
  isIdentifier s.name ∧ ∀ state ∈ s.state, isIdentifier state ∨ Token.IsNumber state.toList

/-- An entry without its place. -/
def unplaced (s : VarSpec) : VarSpec := { s with position := 0 }

end VarSpec

/-- The entries of the probabilities in a tree, from left to right. -/
def Tree.entries {σ ν α : Type} : Tree σ ν α → List σ
  | .probability targets conditions => targets ++ conditions
  | .binary _ left right => left.entries ++ right.entries
  | .negate operand => operand.entries
  | .independence .. | .condIndependence .. | .number _ => []

namespace Expr

/-- The level of a tree. -/
def level : Expr String → Level
  | .binary op _ _ => op.level
  | .negate _ => .unary
  | _ => .primary

def pieces : Expr String → List Piece
  | .probability targets conditions =>
    word "P" :: mark .openParen ::
      (VarSpec.listPieces targets ++ (VarSpec.conditionPieces conditions ++ [mark .closeParen]))
  | .independence a b =>
    [word "IsIndep", mark .openParen, word a, mark .comma, word b, mark .closeParen]
  | .condIndependence a b given =>
    [word "IsCondIndep", mark .openParen, word a, mark .comma, word b, mark .bar, word given,
      mark .closeParen]
  | .binary op left right =>
    op.level.fit (level left) (pieces left) ++
      op.mark :: op.rightLevel.fit (level right) (pieces right)
  | .negate operand => mark .minus :: Level.unary.fit (level operand) (pieces operand)
  | .number text => [literal text]

/-- The text of a query with blanks between its pieces. -/
def printed (gap : Nat → List Char) (x : Expr String) : String :=
  String.ofList (Token.layout gap x.pieces)

/-- A tree without the places of its names. -/
def unplaced (x : Expr String) : Expr String := x.map VarSpec.unplaced id

/-- Arithmetic that can be written. -/
def IsArithmetic : Expr String → Prop
  | .probability targets conditions => targets ≠ [] ∧ ∀ s ∈ targets ++ conditions, s.IsWritten
  | .independence .. | .condIndependence .. => False
  | .binary _ left right => IsArithmetic left ∧ IsArithmetic right
  | .negate operand => IsArithmetic operand
  | .number text => Token.IsNumber text.toList

/-- A query that can be written: predicates stand only at the top. -/
def IsQuery : Expr String → Prop
  | .independence a b => isIdentifier a ∧ isIdentifier b
  | .condIndependence a b given => isIdentifier a ∧ isIdentifier b ∧ isIdentifier given
  | x => x.IsArithmetic

end Expr

/-! ## What is written is derived -/

/-- Pieces and where they start. -/
abbrev Placed : Type := List (Piece × Nat)

namespace Placed

def tokens (l : Placed) : List Token := l.map fun (p, n) => p.at n

/-- The names of entries and where they start. -/
def entries (l : Placed) : List (String × Nat) :=
  (l.filter fun (p, _) => p.isEntry).map fun (p, n) => (p.text, n)

theorem tokens_append (l m : Placed) : tokens (l ++ m) = tokens l ++ tokens m := List.map_append

theorem tokens_cons (p : Piece) (n : Nat) (l : Placed) :
    tokens ((p, n) :: l) = p.at n :: tokens l :=
  rfl

theorem entries_append (l m : Placed) : entries (l ++ m) = entries l ++ entries m := by
  simp [entries]

theorem entries_cons_of_not {p : Piece} (hp : p.isEntry = false) (n : Nat) (l : Placed) :
    entries ((p, n) :: l) = entries l := by
  simp [entries, hp]

theorem exists_cons {p : Piece} {ps : List Piece} {l : Placed} (h : l.map Prod.fst = p :: ps) :
    ∃ n m, l = (p, n) :: m ∧ m.map Prod.fst = ps := by
  obtain ⟨⟨q, n⟩, m, rfl, rfl, hm⟩ := List.map_eq_cons_iff.1 h
  exact ⟨n, m, rfl, hm⟩

/-- One piece, which is no entry. -/
theorem exists_singleton {p : Piece} {l : Placed} (h : l.map Prod.fst = [p])
    (hp : p.isEntry = false) : ∃ n, l = [(p, n)] ∧ l.entries = [] := by
  obtain ⟨n, m, rfl, hm⟩ := exists_cons h
  obtain rfl := List.map_eq_nil_iff.1 hm
  exact ⟨n, rfl, entries_cons_of_not hp n []⟩

end Placed

/-- The name of an entry and its place. -/
def VarSpec.place (s : VarSpec) : String × Nat := (s.name, s.position)

namespace VarSpec

theorem state_of_pieces {state : Option String} {l : Placed}
    (hl : l.map Prod.fst = statePieces state) : State l.tokens state ∧ l.entries = [] := by
  cases state with
  | none =>
    obtain rfl := List.map_eq_nil_iff.1 hl
    exact ⟨.absent, rfl⟩
  | some s =>
    obtain ⟨n, l', rfl, hl'⟩ := Placed.exists_cons hl
    rw [Placed.entries_cons_of_not rfl]
    split_ifs at hl'
    · obtain ⟨m, rfl, hnone⟩ := Placed.exists_singleton hl' rfl
      exact ⟨.stated rfl (.inl rfl), hnone⟩
    · obtain ⟨m, rfl, hnone⟩ := Placed.exists_singleton hl' rfl
      exact ⟨.stated rfl (.inr rfl), hnone⟩

theorem exists_spec {s : VarSpec} {l : Placed} (hl : l.map Prod.fst = s.pieces) :
    ∃ t : VarSpec, Spec l.tokens t ∧ t.unplaced = s.unplaced ∧ l.entries = [t.place] := by
  obtain ⟨name, negated, state, position⟩ := s
  obtain ⟨l₁, l₂, rfl, hl₁, hl₂⟩ := List.map_eq_append_iff.1 hl
  obtain ⟨n, l₃, rfl, hl₃⟩ := Placed.exists_cons hl₂
  obtain ⟨hstate, hnone⟩ := state_of_pieces hl₃
  have hentries : Placed.entries ((⟨.name, name, true⟩, n) :: l₃) = [(name, n)] :=
    congrArg ((name, n) :: ·) hnone
  refine ⟨⟨name, negated, state, n⟩, ?_, rfl, ?_⟩
  · cases negated with
    | false =>
      obtain rfl := List.map_eq_nil_iff.1 hl₁
      exact .mk (.plain rfl) hstate
    | true =>
      obtain ⟨m, rfl, -⟩ := Placed.exists_singleton hl₁ rfl
      exact .mk (.tilde rfl rfl) hstate
  · cases negated with
    | false =>
      obtain rfl := List.map_eq_nil_iff.1 hl₁
      exact hentries
    | true =>
      obtain ⟨m, rfl, -⟩ := Placed.exists_singleton hl₁ rfl
      exact hentries

theorem exists_specs {ss : List VarSpec} (hne : ss ≠ []) {l : Placed}
    (hl : l.map Prod.fst = listPieces ss) : ∃ ts : List VarSpec, Specs l.tokens ts ∧
      ts.map unplaced = ss.map unplaced ∧ l.entries = ts.map place := by
  induction ss generalizing l with
  | nil => exact absurd rfl hne
  | cons s ss ih =>
    cases ss with
    | nil =>
      obtain ⟨t, ht, hsame, hentries⟩ := exists_spec hl
      exact ⟨[t], .one ht, by simp [hsame], hentries⟩
    | cons s' ss =>
      obtain ⟨l₁, l₂, rfl, hl₁, hl₂⟩ := List.map_eq_append_iff.1 hl
      obtain ⟨n, l₃, rfl, hl₃⟩ := Placed.exists_cons hl₂
      obtain ⟨t, ht, hsame, hentries⟩ := exists_spec hl₁
      obtain ⟨ts, hts, hsames, hlast⟩ := ih (List.cons_ne_nil s' ss) hl₃
      refine ⟨t :: ts, ?_, congrArg₂ List.cons hsame hsames, ?_⟩
      · rw [Placed.tokens_append]
        exact .more ht rfl hts
      · rw [Placed.entries_append, Placed.entries_cons_of_not rfl, hentries, hlast]
        rfl

theorem exists_conditions {ss : List VarSpec} {l : Placed}
    (hl : l.map Prod.fst = conditionPieces ss) : ∃ ts : List VarSpec, Conditions l.tokens ts ∧
      ts.map unplaced = ss.map unplaced ∧ l.entries = ts.map place := by
  cases ss with
  | nil =>
    obtain rfl := List.map_eq_nil_iff.1 hl
    exact ⟨[], .absent, rfl, rfl⟩
  | cons s ss =>
    obtain ⟨n, l', rfl, hl'⟩ := Placed.exists_cons hl
    obtain ⟨ts, hts, hsame, hentries⟩ := exists_specs (List.cons_ne_nil s ss) hl'
    exact ⟨ts, .given rfl hts, hsame, (Placed.entries_cons_of_not rfl ..).trans hentries⟩

end VarSpec

namespace Expr

/-- A tree derived from pieces where they stand: the one that was written, but
    for the places of its names. -/
structure StandsFor (l : Placed) (needed : Level) (x y : Expr String) : Prop where
  derives : Derives needed l.tokens y
  unplaced_eq : y.unplaced = x.unplaced
  entries_eq : l.entries = y.entries.map VarSpec.place

/-- What is derived at a level is derived at all looser ones. -/
theorem derives_of_rank_le {needed level : Level} {ts : List Token} {x : Expr String}
    (h : Derives level ts x) (hle : needed.rank ≤ level.rank) : Derives needed ts x := by
  cases level with
  | expr => cases needed <;> first | exact h | simp [Level.rank] at hle
  | term => cases needed <;> first | exact h | exact .term h | simp [Level.rank] at hle
  | unary =>
    cases needed <;>
      first | exact h | exact .unary h | exact .term (.unary h) | simp [Level.rank] at hle
  | primary =>
    have hunary := Derives.primary h
    cases needed <;>
      first | exact h | exact hunary | exact .unary hunary | exact .term (.unary hunary)

/-- Parentheses where they are needed. -/
theorem exists_fit {x : Expr String} (ih : ∀ l : Placed, l.map Prod.fst = x.pieces →
      ∃ y, StandsFor l x.level x y) (needed : Level) {l : Placed}
    (hl : l.map Prod.fst = needed.fit x.level x.pieces) : ∃ y, StandsFor l needed x y := by
  rw [Level.fit] at hl
  split_ifs at hl with h
  · obtain ⟨n, l', rfl, hl'⟩ := Placed.exists_cons hl
    obtain ⟨l₁, l₂, rfl, hl₁, hl₂⟩ := List.map_eq_append_iff.1 hl'
    obtain ⟨m, rfl, hnone⟩ := Placed.exists_singleton hl₂ rfl
    obtain ⟨y, hy, hsame, hentries⟩ := ih l₁ hl₁
    refine ⟨y, ?_, hsame, ?_⟩
    · rw [Placed.tokens_cons, Placed.tokens_append]
      refine derives_of_rank_le (.parens rfl (derives_of_rank_le hy (Nat.zero_le _)) rfl) ?_
      cases needed <;> decide
    · rw [Placed.entries_cons_of_not rfl, Placed.entries_append, hnone, List.append_nil, hentries]
  · obtain ⟨y, hy, hsame, hentries⟩ := ih l hl
    exact ⟨y, derives_of_rank_le hy (Nat.not_lt.1 h), hsame, hentries⟩

/-- **What is written is derived**, wherever its pieces stand. -/
theorem exists_derives {x : Expr String} (hx : x.IsArithmetic) {l : Placed}
    (hl : l.map Prod.fst = x.pieces) : ∃ y, StandsFor l x.level x y := by
  induction x generalizing l with
  | probability targets conditions =>
    obtain ⟨n, l', rfl, hl'⟩ := Placed.exists_cons hl
    obtain ⟨m, l'', rfl, hl''⟩ := Placed.exists_cons hl'
    obtain ⟨l₁, l₂, rfl, hl₁, hl₂⟩ := List.map_eq_append_iff.1 hl''
    obtain ⟨l₃, l₄, rfl, hl₃, hl₄⟩ := List.map_eq_append_iff.1 hl₂
    obtain ⟨k, rfl, hnone⟩ := Placed.exists_singleton hl₄ rfl
    obtain ⟨ts, hts, hsame, hentries⟩ := VarSpec.exists_specs hx.1 hl₁
    obtain ⟨cs, hcs, hsame', hentries'⟩ := VarSpec.exists_conditions hl₃
    refine ⟨.probability ts cs, ?_, congrArg₂ Tree.probability hsame hsame', ?_⟩
    · rw [Placed.tokens_cons, Placed.tokens_cons, Placed.tokens_append, Placed.tokens_append]
      exact .probability rfl rfl rfl hts hcs rfl
    · rw [Placed.entries_cons_of_not rfl, Placed.entries_cons_of_not rfl, Placed.entries_append,
        Placed.entries_append, hnone, List.append_nil, hentries, hentries', ← List.map_append]
      rfl
  | independence | condIndependence => exact hx.elim
  | binary op left right ihl ihr =>
    obtain ⟨l₁, l₂, rfl, hl₁, hl₂⟩ := List.map_eq_append_iff.1 hl
    obtain ⟨n, l₃, rfl, hl₃⟩ := Placed.exists_cons hl₂
    obtain ⟨y, hy, hsamey, hentriesy⟩ := exists_fit (fun _ => ihl hx.1) _ hl₁
    obtain ⟨z, hz, hsamez, hentriesz⟩ := exists_fit (fun _ => ihr hx.2) _ hl₃
    refine ⟨.binary op y z, ?_, ?_, ?_⟩
    · rw [Placed.tokens_append, Placed.tokens_cons]
      cases op with
      | add | sub => exact .sum hy rfl hz
      | mul | div => exact .product hy rfl hz
    · exact congrArg₂ (Tree.binary op) hsamey hsamez
    · have hop : op.mark.isEntry = false := by cases op <;> rfl
      rw [Placed.entries_append, Placed.entries_cons_of_not hop, hentriesy, hentriesz,
        ← List.map_append]
      rfl
  | negate operand ih =>
    obtain ⟨n, l', rfl, hl'⟩ := Placed.exists_cons hl
    obtain ⟨y, hy, hsame, hentries⟩ := exists_fit (fun _ => ih hx) _ hl'
    exact ⟨.negate y, .minus rfl hy, congrArg Tree.negate hsame, hentries⟩
  | number t =>
    obtain ⟨n, rfl, hnone⟩ := Placed.exists_singleton hl rfl
    exact ⟨.number t, .number rfl, rfl, hnone⟩

theorem exists_derivesQuery {x : Expr String} (hx : x.IsQuery) {l : Placed}
    (hl : l.map Prod.fst = x.pieces) : ∃ y : Expr String, DerivesQuery l.tokens y ∧
      y.unplaced = x.unplaced ∧ l.entries = y.entries.map VarSpec.place := by
  have harithmetic (hx : x.IsArithmetic) : ∃ y : Expr String, DerivesQuery l.tokens y ∧
      y.unplaced = x.unplaced ∧ l.entries = y.entries.map VarSpec.place := by
    obtain ⟨y, hy, hsame, hentries⟩ := exists_derives hx hl
    exact ⟨y, .expr (derives_of_rank_le hy (Nat.zero_le _)), hsame, hentries⟩
  cases x with
  | independence a b =>
    obtain ⟨_, l₁, rfl, hl₁⟩ := Placed.exists_cons hl
    obtain ⟨_, l₂, rfl, hl₂⟩ := Placed.exists_cons hl₁
    obtain ⟨_, l₃, rfl, hl₃⟩ := Placed.exists_cons hl₂
    obtain ⟨_, l₄, rfl, hl₄⟩ := Placed.exists_cons hl₃
    obtain ⟨_, l₅, rfl, hl₅⟩ := Placed.exists_cons hl₄
    obtain ⟨_, rfl, -⟩ := Placed.exists_singleton hl₅ rfl
    exact ⟨_, .independence rfl rfl rfl rfl rfl rfl rfl, rfl, rfl⟩
  | condIndependence a b given =>
    obtain ⟨_, l₁, rfl, hl₁⟩ := Placed.exists_cons hl
    obtain ⟨_, l₂, rfl, hl₂⟩ := Placed.exists_cons hl₁
    obtain ⟨_, l₃, rfl, hl₃⟩ := Placed.exists_cons hl₂
    obtain ⟨_, l₄, rfl, hl₄⟩ := Placed.exists_cons hl₃
    obtain ⟨_, l₅, rfl, hl₅⟩ := Placed.exists_cons hl₄
    obtain ⟨_, l₆, rfl, hl₆⟩ := Placed.exists_cons hl₅
    obtain ⟨_, l₇, rfl, hl₇⟩ := Placed.exists_cons hl₆
    obtain ⟨_, rfl, -⟩ := Placed.exists_singleton hl₇ rfl
    exact ⟨_, .condIndependence rfl rfl rfl rfl rfl rfl rfl rfl rfl, rfl, rfl⟩
  | probability | binary | negate | number => exact harithmetic hx

end Expr

/-! ## The pieces are tokens -/

theorem isName_iff {name : String} : Token.IsName name.toList ↔ isIdentifier name := by
  rw [isIdentifier]
  split
  · rename_i heq
    rw [heq]
    exact iff_of_false (fun h => by cases h) (by simp)
  · rename_i c cs heq
    rw [heq, Bool.and_eq_true, List.all_eq_true]
    constructor
    · rintro ⟨hc, hcs⟩
      exact ⟨hc, hcs⟩
    · rintro ⟨hc, hcs⟩
      exact .mk hc hcs

namespace Token.Piece

/-- A piece that is scanned as a token of its kind. -/
def IsToken (p : Piece) : Prop := IsLexeme p.kind p.text.toList

theorem isToken_word {name : String} (h : isIdentifier name) : IsToken (word name) :=
  .name (isName_iff.2 h)

theorem isToken_literal {t : String} (h : IsNumber t.toList) : IsToken (literal t) := .number h

theorem isToken_inParens {ps : List Piece} (h : ∀ p ∈ ps, p.IsToken) :
    ∀ p ∈ inParens ps, p.IsToken := by
  simp only [inParens, List.forall_mem_cons, List.forall_mem_append]
  exact ⟨.mark rfl, h, .mark rfl, by simp⟩

end Token.Piece

namespace VarSpec

open Token.Piece

theorem isToken_pieces {s : VarSpec} (hs : s.IsWritten) : ∀ p ∈ s.pieces, p.IsToken := by
  obtain ⟨hname, hstate⟩ := hs
  rw [pieces, List.forall_mem_append, List.forall_mem_cons]
  refine ⟨?_, .name (isName_iff.2 hname), ?_⟩
  · split_ifs
    · exact List.forall_mem_singleton.2 (.mark rfl)
    · simp
  · cases hs : s.state with
    | none => simp [statePieces]
    | some state =>
      rw [statePieces, List.forall_mem_cons, List.forall_mem_singleton]
      refine ⟨.mark rfl, ?_⟩
      split_ifs with hid
      · exact isToken_word hid
      · exact isToken_literal ((hstate state hs).resolve_left hid)

theorem isToken_listPieces {ss : List VarSpec} (h : ∀ s ∈ ss, s.IsWritten) :
    ∀ p ∈ listPieces ss, p.IsToken := by
  induction ss with
  | nil => simp [listPieces]
  | cons s ss ih =>
    rw [List.forall_mem_cons] at h
    cases ss with
    | nil => exact isToken_pieces h.1
    | cons s' ss =>
      rw [listPieces, List.forall_mem_append, List.forall_mem_cons]
      · exact ⟨isToken_pieces h.1, .mark rfl, ih h.2⟩
      · simp

theorem isToken_conditionPieces {ss : List VarSpec} (h : ∀ s ∈ ss, s.IsWritten) :
    ∀ p ∈ conditionPieces ss, p.IsToken := by
  cases ss with
  | nil => simp [conditionPieces]
  | cons s ss => exact List.forall_mem_cons.2 ⟨.mark rfl, isToken_listPieces h⟩

end VarSpec

namespace Expr

open Token.Piece

theorem isToken_fit {needed level : Level} {ps : List Piece} (h : ∀ p ∈ ps, p.IsToken) :
    ∀ p ∈ needed.fit level ps, p.IsToken := by
  rw [Level.fit]
  split_ifs
  · exact isToken_inParens h
  · exact h

theorem isToken_of_isArithmetic {x : Expr String} (hx : x.IsArithmetic) :
    ∀ p ∈ x.pieces, p.IsToken := by
  induction x with
  | probability targets conditions =>
    obtain ⟨-, hs⟩ := hx
    rw [List.forall_mem_append] at hs
    simp only [pieces, List.forall_mem_cons, List.forall_mem_append]
    exact ⟨isToken_word (by decide), .mark rfl, VarSpec.isToken_listPieces hs.1,
      VarSpec.isToken_conditionPieces hs.2, .mark rfl, by simp⟩
  | independence | condIndependence => exact hx.elim
  | binary op left right ihl ihr =>
    rw [pieces, List.forall_mem_append, List.forall_mem_cons]
    refine ⟨isToken_fit (ihl hx.1), ?_, isToken_fit (ihr hx.2)⟩
    cases op <;> exact .mark rfl
  | negate operand ih =>
    rw [pieces, List.forall_mem_cons]
    exact ⟨.mark rfl, isToken_fit (ih hx)⟩
  | number t => exact List.forall_mem_singleton.2 (isToken_literal hx)

theorem isToken_of_isQuery {x : Expr String} (hx : x.IsQuery) : ∀ p ∈ x.pieces, p.IsToken := by
  cases x with
  | independence a b =>
    obtain ⟨ha, hb⟩ := hx
    simp only [pieces, List.forall_mem_cons]
    exact ⟨isToken_word (by decide), .mark rfl, isToken_word ha, .mark rfl, isToken_word hb,
      .mark rfl, by simp⟩
  | condIndependence a b given =>
    obtain ⟨ha, hb, hgiven⟩ := hx
    simp only [pieces, List.forall_mem_cons]
    exact ⟨isToken_word (by decide), .mark rfl, isToken_word ha, .mark rfl, isToken_word hb,
      .mark rfl, isToken_word hgiven, .mark rfl, by simp⟩
  | probability | binary | negate | number => exact isToken_of_isArithmetic hx

/-! ## What is derived can be written -/

/-- A token with a text of its kind. -/
def HasText (t : Token) : Prop := Token.IsLexeme t.kind t.text.toList

theorem isIdentifier_of_hasText {t : Token} (h : HasText t) (hk : t.kind = .name) :
    isIdentifier t.text := by
  rw [HasText, hk] at h
  exact isName_iff.1 h.isName

theorem isWritten_of_spec {ts : List Token} {s : VarSpec} (h : Spec ts s)
    (hts : ∀ t ∈ ts, HasText t) : s.IsWritten := by
  obtain ⟨hn, hs⟩ := h
  rw [List.forall_mem_append] at hts
  constructor
  · cases hn <;> exact isIdentifier_of_hasText (hts.1 _ (by simp)) ‹_›
  · cases hs with
    | absent => simp
    | @stated e s he hs =>
      rintro _ ⟨⟩
      have htext : HasText s := hts.2 s (by simp)
      refine hs.imp (isIdentifier_of_hasText htext) fun hk => ?_
      rw [HasText, hk] at htext
      exact htext.isNumber

theorem isWritten_of_specs {ts : List Token} {ss : List VarSpec} (h : Specs ts ss)
    (hts : ∀ t ∈ ts, HasText t) : ss ≠ [] ∧ ∀ s ∈ ss, s.IsWritten := by
  induction h with
  | one h => exact ⟨by simp, List.forall_mem_singleton.2 (isWritten_of_spec h hts)⟩
  | more h _ _ ih =>
    rw [List.forall_mem_append, List.forall_mem_cons] at hts
    exact ⟨by simp, List.forall_mem_cons.2 ⟨isWritten_of_spec h hts.1, (ih hts.2.2).2⟩⟩

theorem isArithmetic_of_derives {needed : Level} {ts : List Token} {x : Expr String}
    (h : Derives needed ts x) (hts : ∀ t ∈ ts, HasText t) : x.IsArithmetic := by
  induction h with
  | term _ ih | unary _ ih | primary _ ih => exact ih hts
  | sum _ _ _ ihx ihy | product _ _ _ ihx ihy =>
    rw [List.forall_mem_append, List.forall_mem_cons] at hts
    exact ⟨ihx hts.1, ihy hts.2.2⟩
  | minus _ _ ih | plus _ _ ih =>
    rw [List.forall_mem_cons] at hts
    exact ih hts.2
  | @number t ht =>
    have htext : HasText t := hts t (by simp)
    rw [HasText, ht] at htext
    exact htext.isNumber
  | parens _ _ _ ih =>
    rw [List.forall_mem_cons, List.forall_mem_append] at hts
    exact ih hts.2.1
  | probability _ _ _ ht hu _ =>
    simp only [List.forall_mem_cons, List.forall_mem_append] at hts
    obtain ⟨-, -, htargets, hconditions, -⟩ := hts
    obtain ⟨hne, hwritten⟩ := isWritten_of_specs ht htargets
    refine ⟨hne, List.forall_mem_append.2 ⟨hwritten, ?_⟩⟩
    cases hu with
    | absent => simp
    | given _ hs => exact (isWritten_of_specs hs (List.forall_mem_cons.1 hconditions).2).2

/-- **What is derived from the tokens of a text can be written.** -/
theorem isQuery_of_derivesQuery {ts : List Token} {x : Expr String} (h : DerivesQuery ts x)
    (hts : ∀ t ∈ ts, HasText t) : x.IsQuery := by
  cases h with
  | independence _ _ _ ha _ hb _ =>
    exact ⟨isIdentifier_of_hasText (hts _ (by simp)) ha,
      isIdentifier_of_hasText (hts _ (by simp)) hb⟩
  | condIndependence _ _ _ ha _ hb _ hg _ =>
    exact ⟨isIdentifier_of_hasText (hts _ (by simp)) ha,
      isIdentifier_of_hasText (hts _ (by simp)) hb, isIdentifier_of_hasText (hts _ (by simp)) hg⟩
  | expr h =>
    have hx := isArithmetic_of_derives h hts
    cases x with
    | independence | condIndependence => exact hx.elim
    | probability | binary | negate | number => exact hx

/-! ## What is written is read -/

/-- Tokens that need no blanks between them are pieces that need none. -/
theorem isChain_of_sealed {l : Placed} (h : Sealed l.tokens) :
    (l.map Prod.fst).IsChain fun p q => Apart p.kind q.kind := by
  have hchain := h.chain
  rw [Placed.tokens, List.isChain_map] at hchain
  rw [List.isChain_map]
  exact hchain

/-- What is written is scanned as tokens that the tree is derived from. -/
theorem exists_scan_printed {x : Expr String} (hx : x.IsQuery) {gap : Nat → List Char}
    (hgap : ∀ i, ∀ c ∈ gap i, Token.separates c) :
    ∃ (y : Expr String) (ts : List Token) (e : Token),
      Token.scan (x.printed gap) = .ok (ts ++ [e]) ∧ DerivesQuery ts y ∧
      y.unplaced = x.unplaced ∧
      y.entries.map VarSpec.place = Placed.entries (Token.places gap 0 x.pieces) := by
  have hl : (Token.places gap 0 x.pieces).map Prod.fst = x.pieces := Token.map_fst_places gap 0 _
  obtain ⟨y, hy, hsame, hentries⟩ := exists_derivesQuery hx hl
  have hpieces : ∀ p ∈ x.pieces, p.IsToken := isToken_of_isQuery hx
  have hpowers : ∀ p ∈ x.pieces, p.kind ≠ .doubleStar := by
    intro p hp
    rw [← hl] at hp
    obtain ⟨⟨p, n⟩, hmem, rfl⟩ := List.mem_map.1 hp
    exact (hy.isPlain (p.at n) (List.mem_map.2 ⟨_, hmem, rfl⟩)).2.1
  obtain ⟨e, -, hscan⟩ := Token.scanFrom_layout hgap (fun p hp => ⟨hpieces p hp, hpowers p hp⟩)
    (hl ▸ isChain_of_sealed hy.sealed) 0
  refine ⟨y, Placed.tokens (Token.places gap 0 x.pieces), e, ?_, hy, hsame, hentries.symm⟩
  rw [Token.scan, printed, String.toList_ofList]
  exact hscan

/-- What is derived from the tokens of a text is read. -/
theorem parse_of_derivesQuery {α : Type} [Scalar α] {source : String} {ts : List Token} {e : Token}
    {y : Expr String} (hscan : Token.scan source = .ok (ts ++ [e])) (hy : DerivesQuery ts y) :
    parse source = .ok (y.withValues : Expr α) := by
  obtain ⟨us, e', hus, he, hlexemes⟩ := Token.exists_ended_of_scan hscan
  obtain ⟨rfl, -⟩ := List.append_inj' hus rfl
  rw [parse_of_scan hscan, hus]
  exact (Parser.whole_eq_ok_iff he fun t ht => Token.readable_of_isLexeme (hlexemes t ht)).2
    ⟨y, hy, rfl⟩

/-- **What is read can be written**: only such queries come of texts. -/
theorem exists_isQuery_of_parse {α : Type} [Scalar α] {source : String} {x : Expr α}
    (h : parse source = .ok x) : ∃ y : Expr String, y.IsQuery ∧ x = y.withValues := by
  cases hscan : Token.scan source with
  | error e =>
    rw [parse, hscan] at h
    cases h
  | ok ts =>
    obtain ⟨us, e, rfl, he, hlexemes⟩ := Token.exists_ended_of_scan hscan
    rw [parse_of_scan hscan] at h
    obtain ⟨y, hy, hx⟩ := (Parser.whole_eq_ok_iff he fun t ht =>
      Token.readable_of_isLexeme (hlexemes t ht)).1 h
    exact ⟨y, isQuery_of_derivesQuery hy hlexemes, hx⟩

/-- **What is written is read**, whatever the blanks, with each name where it
    stands in the text. -/
theorem parse_printed {α : Type} [Scalar α] {x : Expr String} (hx : x.IsQuery)
    {gap : Nat → List Char} (hgap : ∀ i, ∀ c ∈ gap i, Token.separates c) :
    ∃ y : Expr String, parse (x.printed gap) = .ok (y.withValues : Expr α) ∧
      y.unplaced = x.unplaced ∧
      y.entries.map VarSpec.place = Placed.entries (Token.places gap 0 x.pieces) ∧
      ∀ s ∈ y.entries, ∃ front back, (x.printed gap).toList = front ++ (s.name.toList ++ back) ∧
        s.position = Token.byteLength front := by
  obtain ⟨y, ts, e, hscan, hy, hsame, hentries⟩ := exists_scan_printed hx hgap
  refine ⟨y, parse_of_derivesQuery hscan hy, hsame, hentries, fun s hs => ?_⟩
  have hplace : s.place ∈ Placed.entries (Token.places gap 0 x.pieces) :=
    hentries ▸ List.mem_map_of_mem hs
  obtain ⟨⟨p, n⟩, hmem, hp⟩ := List.mem_map.1 hplace
  obtain ⟨front, back, htext, hn⟩ := Token.exists_of_mem_places (List.mem_of_mem_filter hmem)
  obtain ⟨hname, hposition⟩ := Prod.mk.inj hp
  refine ⟨front, back, ?_, ?_⟩
  · rw [printed, String.toList_ofList, htext, hname]
  · rw [← hposition, hn, Nat.zero_add]

/-- Signs, a keyword as a name, and a blank in front only. -/
theorem parse_printed_signs :
    let x : Expr String := .binary .sub (.number "1e-1")
      (.binary .sub (.negate (.probability [⟨"P", true, some "on", 0⟩] [⟨"B", false, some "2", 0⟩]))
        (.number "1"))
    let gap : Nat → List Char := fun i => if i = 0 then [' '] else []
    x.IsQuery ∧ (∀ i, ∀ c ∈ gap i, Token.separates c) ∧
      x.printed gap = " 1e-1-(-P(~P=on|B=2)-1)" ∧
      ∃ y : Expr String, parse " 1e-1-(-P(~P=on|B=2)-1)" = .ok (y.withValues : Expr ℚ) ∧
        y.unplaced = x.unplaced ∧ y.entries.map VarSpec.place = [("P", 11), ("B", 16)] := by
  intro x gap
  have hnumber (t : String) (h : Token.numberLexeme? t.toList = some t.toList) :
      Token.IsNumber t.toList := Token.isNumber_of_numberLexeme? h
  have hx : x.IsQuery := by
    refine ⟨hnumber _ (by decide), ⟨by simp, ?_⟩, hnumber _ (by decide)⟩
    rw [List.cons_append, List.forall_mem_cons, List.nil_append, List.forall_mem_singleton]
    refine ⟨⟨by decide, ?_⟩, by decide, ?_⟩
    · rintro _ ⟨⟩
      exact .inl (by decide)
    · rintro _ ⟨⟩
      exact .inr (hnumber _ (by decide))
  have hgap : ∀ i, ∀ c ∈ gap i, Token.separates c := by
    intro i c hc
    dsimp only [gap] at hc
    split_ifs at hc <;> simp at hc
    rw [hc]
    rfl
  have hprinted : x.printed gap = " 1e-1-(-P(~P=on|B=2)-1)" := by decide +kernel
  obtain ⟨y, hy, hsame, hentries, -⟩ := parse_printed (α := ℚ) hx hgap
  exact ⟨hx, hgap, hprinted, y, hprinted ▸ hy, hsame, hentries.trans (by decide +kernel)⟩

end Expr

end JointProb
