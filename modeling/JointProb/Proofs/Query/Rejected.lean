/-
  JointProb — where queries are rejected.

      2 * (P(~A | Not(B), C=) + 1)
                            ^ a state is missing

  * `Expr.Viable` says of tokens that a text starts with them that is read;
  * `Expr.Rejected` has what is said of the position of a fault, and
    `Expr.rejected_of_scan`: the parser reports such a position.
-/
import JointProb.Proofs.Query.Offender
import JointProb.Proofs.Query.Printer
import JointProb.Proofs.Query.Scanner

namespace JointProb

open Grammar
open Token (Alike IsLexeme Scans ending)

variable {α : Type} [Scalar α] {source : String} {ts us front : List Token} {m position : Nat}

namespace Token

/-- Behind a part of a text that is cut into tokens, others can be put with
    blanks between them. -/
theorem Scans.exists_text {rest : List Char} (h : Scans 0 source.toList ts m rest)
    (hus : ∀ t ∈ us, IsLexeme t.kind t.text.toList) :
    ∃ before after vs n, source.toList = before ++ rest ∧ byteLength before = m ∧
      scan (String.ofList (before ++ after)) = .ok (ts ++ vs ++ [ending n]) ∧ Alike vs us := by
  obtain ⟨before, hbefore, rfl, hback⟩ := h.read
  have hps : ∀ p ∈ us.map shape, p.2 = [] ∨ IsLexeme p.1 p.2 :=
    List.forall_mem_map.2 fun t ht => .inr (hus t ht)
  obtain ⟨vs, n, hvs, hshape⟩ := exists_scans_spaced hps (0 + byteLength before + ' '.utf8Size)
  rw [filter_map_shape hus] at hshape
  have hall := (hback (' ' :: [' '].intercalate ((us.map shape).map Prod.snd))
    (by simp [separates])).trans (.blank rfl hvs)
  rw [← String.toList_ofList (l := before ++ _)] at hall
  exact ⟨before, _, vs, n, hbefore, (Nat.zero_add _).symm, scan_of_scans hall, hshape⟩

/-- The start of a token is reached by the tokens in front of it. -/
theorem exists_scans_start {t : Token} (hscan : scan source = .ok (ts ++ t :: us)) :
    ∃ rest, Scans 0 source.toList ts t.start rest := by
  obtain ⟨vs, m, hvs, hscans⟩ := exists_scans_of_scan hscan
  rcases List.eq_nil_or_concat us with rfl | ⟨us, e, rfl⟩
  · obtain ⟨rfl, he⟩ := List.append_inj' hvs rfl
    obtain rfl := List.singleton_inj.1 he
    exact ⟨[], hscans⟩
  · have hfront : ts ++ t :: us = vs := by
      rw [List.concat_eq_append, ← List.cons_append, ← List.append_assoc] at hvs
      exact (List.append_inj' hvs rfl).1
    subst hfront
    obtain ⟨l, mid, hts, hus⟩ := hscans.exists_mid
    obtain ⟨mid', hblanks, -⟩ := hus.exists_start
    exact ⟨mid', by simpa using hts.trans hblanks⟩

/-- One token starts behind the other. -/
theorem Tokenizes.pairwise_start (h : Tokenizes source ts) :
    ts.Pairwise fun t u => t.start < u.start :=
  h.ordered.imp fun ⟨hne, hle⟩ => hne.trans_le hle

/-- Where tokens start one behind the other, those in front of one are those that
    start in front of it. -/
theorem filter_start_lt {t : Token}
    (h : (front ++ t :: us).Pairwise fun t u => t.start < u.start) :
    (front ++ t :: us).filter (fun u => u.start < t.start) = front := by
  obtain ⟨-, hback, hfront⟩ := List.pairwise_append.1 h
  have hbehind : ∀ u ∈ t :: us, ¬ u.start < t.start :=
    List.forall_mem_cons.2 ⟨lt_irrefl _, fun u hu => (List.rel_of_pairwise_cons hback hu).not_gt⟩
  rw [List.filter_append, List.filter_eq_self.2, List.filter_eq_nil_iff.2, List.append_nil]
  · simpa using hbehind
  · simpa using fun u hu => hfront u hu t List.mem_cons_self

end Token

namespace Expr

/-- The tokens that some text starts with that is read. -/
def Viable (α : Type) [Scalar α] (front : List Token) : Prop :=
  ∃ text more, Token.scan text = .ok (front ++ more) ∧ ∃ x : Expr α, parse text = .ok x

/-- What is said about the position at which a text with given tokens is
    rejected. -/
structure Rejected (α : Type) [Scalar α] (source : String) (ts : List Token) (position : Nat) :
    Prop where
  /-- A token starts there, or the text ends. -/
  exists_token : ∃ t ∈ ts, t.start = position ∧ (t.kind = .ending → position = source.utf8ByteSize)
  /-- Some text that is read starts with the tokens in front of it, -/
  viable : Viable α (ts.filter fun t => t.start < position)
  /-- and one goes on where the position is. -/
  exists_text : ∃ before after back, source.toList = before ++ after ∧
    Token.byteLength before = position ∧
      ∃ x : Expr α, parse (String.ofList (before ++ back)) = .ok x
  /-- No token is passed with which no such text starts any more. -/
  le_of_not_viable {us : List Token} {t : Token} (h : us ++ [t] <+: ts)
    (hnot : ¬ Viable α (us ++ [t])) : position ≤ t.start

theorem Viable.of_append (h : Viable α (front ++ us)) : Viable α front := by
  obtain ⟨text, more, hscan, hx⟩ := h
  exact ⟨text, us ++ more, by rwa [← List.append_assoc], hx⟩

/-- **A text is rejected at the first token with which no query can go on**, or
    in front of it. -/
theorem rejected_of_scan (hscan : Token.scan source = .ok ts) {e : QueryError}
    (h : (parse source : Except QueryError (Expr α)) = .error e) :
    ∃ position fault, e = .malformed position fault ∧ Rejected α source ts position := by
  rw [parse_of_scan hscan] at h
  obtain ⟨front, back, fault, rfl, rfl, more, hmore, x, hx⟩ := Parser.halts_whole ts e h
  obtain ⟨us, m, hus, hscans⟩ := Token.exists_scans_of_scan hscan
  cases back with
  | nil =>
    -- the end of the text is no part of a query
    rw [List.append_nil] at hus
    have hend := hx.isPlain (ending m) (by simp [hus])
    exact absurd rfl hend.2.2
  | cons t back =>
    have hstarts := hscans.tokenizes.pairwise_start
    rw [← hus] at hstarts
    have hfilter := Token.filter_start_lt hstarts
    obtain ⟨rest, hfront⟩ := Token.exists_scans_start hscan
    obtain ⟨before, after, vs, n, hsource, hposition, htext, hvs⟩ := hfront.exists_text hmore
    obtain ⟨y, hy⟩ := hx.alike (Token.alike_append_iff.2 ⟨front, vs, rfl, rfl, hvs⟩)
    have hparse := parse_of_derivesQuery (α := α) htext hy
    have hviable : Viable α front := ⟨_, _, by rwa [← List.append_assoc], _, hparse⟩
    refine ⟨t.start, fault, rfl, ⟨t, by simp, rfl, fun hkind => ?_⟩, ?_,
      ⟨before, rest, after, hsource, hposition, _, hparse⟩, fun {vs u} hinit hnot => ?_⟩
    · have ht : t ∈ us ++ [ending m] := hus ▸ (by simp)
      rcases List.mem_append.1 ht with ht | ht
      · exact absurd hkind (hscans.isLexeme t ht).ne_ending
      · rw [List.mem_singleton.1 ht]
        exact hscans.eq_utf8ByteSize
    · rwa [hfilter]
    · -- tokens up to one in front of the position are among those that go on
      by_contra hlt
      have hpairs := hstarts.sublist hinit.sublist
      have hself : (vs ++ [u]).filter (fun w => w.start < t.start) = vs ++ [u] := by
        rw [List.filter_eq_self, List.forall_mem_append]
        have hu : u.start < t.start := Nat.not_le.1 hlt
        have hvs := (List.pairwise_append.1 hpairs).2.2
        exact ⟨fun w hw => by simpa using (hvs w hw u (by simp)).trans hu, by simpa using hu⟩
      obtain ⟨more', hmore'⟩ : vs ++ [u] <+: front := by
        rw [← hfilter, ← hself]
        exact hinit.filter _
      rw [← hmore'] at hviable
      exact hnot hviable.of_append

/-- A state is missing behind an equals sign. -/
theorem rejected_of_scan_state :
    let ts : List Token := [⟨.minus, "-", 0, 1⟩, ⟨.name, "P", 1, 2⟩, ⟨.openParen, "(", 2, 3⟩,
      ⟨.name, "A", 3, 4⟩, ⟨.equals, "=", 4, 5⟩, ⟨.closeParen, ")", 5, 6⟩, ⟨.ending, "", 6, 6⟩]
    Token.scan "-P(A=)" = .ok ts ∧
      (parse "-P(A=)" : Except QueryError (Expr ℚ)) =
        .error (.malformed 5 (.unexpectedToken .state ")")) ∧
      Rejected ℚ "-P(A=)" ts 5 := by
  intro ts
  have hscan : Token.scan "-P(A=)" = .ok ts := by
    rw [← toOption_eq_some]
    decide +kernel
  have hspec : Parser.values (Parser.spec (ts.drop 3)) =
      .error (.malformed 5 (.unexpectedToken .state ")")) := rfl
  have hspecs : Parser.values (Parser.specs (ts.drop 3)) =
      .error (.malformed 5 (.unexpectedToken .state ")")) := by
    rw [Parser.values_specs, hspec]
    rfl
  have hprobability : Parser.values (Parser.probability (ts.drop 3) : Parser.Read (Expr ℚ) _) =
      .error (.malformed 5 (.unexpectedToken .state ")")) := by
    rw [Parser.values_probability, hspecs]
    rfl
  have hfactor : Parser.values (Parser.unary (ts.drop 1) : Parser.Read (Expr ℚ) _) =
      .error (.malformed 5 (.unexpectedToken .state ")")) :=
    (Parser.values_unary ..).trans
      ((Parser.values_primary_probability _ rfl rfl rfl).trans hprobability)
  have hunary : Parser.values (Parser.unary ts : Parser.Read (Expr ℚ) _) =
      .error (.malformed 5 (.unexpectedToken .state ")")) := by
    refine (Parser.values_unary ..).trans ?_
    rw [if_pos rfl]
    exact congrArg _ hfactor
  have hexpr : Parser.values (Parser.expr ts : Parser.Read (Expr ℚ) _) =
      .error (.malformed 5 (.unexpectedToken .state ")")) := by
    rw [Parser.values_expr, Parser.values_term, hunary]
    rfl
  have hparse : (parse "-P(A=)" : Except QueryError (Expr ℚ)) =
      .error (.malformed 5 (.unexpectedToken .state ")")) := by
    have hquery : (Parser.query ts : Parser.Read (Expr ℚ) _) = Parser.expr ts := rfl
    rw [parse_of_scan hscan, Parser.whole_eq, hquery, hexpr]
    rfl
  obtain ⟨position, fault, he, hrejected⟩ := rejected_of_scan hscan hparse
  cases he
  exact ⟨hscan, hparse, hrejected⟩

end Expr

end JointProb
