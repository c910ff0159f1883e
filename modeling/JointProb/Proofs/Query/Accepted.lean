/-
  JointProb — the queries that are accepted.

  * `Token.readable_of_isLexeme`: the number tokens of a text have values;
  * `Expr.Accepted` says of a text and its tokens when it is read and as what;
  * `Expr.accepted_of_scan`: the texts that are read are those whose tokens
    the grammar derives, and all others are faults in the text.
-/
import JointProb.Proofs.Exact
import JointProb.Proofs.Query.Parser
import JointProb.Proofs.Query.Token

namespace JointProb

open Grammar

variable {α : Type} [Scalar α]

namespace Token

/-- Number tokens have values. -/
theorem readable_of_isLexeme {t : Token} (h : IsLexeme t.kind t.text.toList) :
    Parser.Readable (α := α) t := by
  intro hk
  rw [hk] at h
  obtain ⟨n, e, hread⟩ := h.isNumber.exists_read?
  exact ⟨_, by rw [hread]; rfl⟩

/-- The tokens of a query, up to its end. -/
theorem exists_ended_of_scan {source : String} {ts : List Token} (h : scan source = .ok ts) :
    ∃ us e, ts = us ++ [e] ∧ Parser.Ended us e ∧
      ∀ t ∈ us, IsLexeme t.kind t.text.toList := by
  obtain ⟨us, e, hts, he, hus⟩ := exists_of_scan h
  exact ⟨us, e, hts, ⟨he, fun t ht => (hus t ht).ne_ending⟩, hus⟩

end Token

namespace Expr

theorem parse_of_scan {source : String} {ts : List Token} (h : Token.scan source = .ok ts) :
    (parse source : Except QueryError (Expr α)) = Parser.whole ts := by
  rw [parse, h]
  rfl

/-- What is said about a text that has given tokens in front of its end. -/
structure Accepted (α : Type) [Scalar α] (source : String) (ts : List Token) : Prop where
  /-- It is read if the tokens are derived, and as what they are derived as. -/
  parse_eq_ok_iff {x : Expr α} :
    parse source = .ok x ↔ ∃ y, DerivesQuery ts y ∧ x = y.withValues
  /-- All else is a fault in the text. -/
  exists_malformed (h : ∀ y, ¬ DerivesQuery ts y) : ∃ position fault,
    (parse source : Except QueryError (Expr α)) = .error (.malformed position fault)
  /-- Powers are. -/
  exists_malformed_of_power (h : ∃ t ∈ ts, t.kind = .caret ∨ t.kind = .doubleStar) :
    ∃ position fault,
      (parse source : Except QueryError (Expr α)) = .error (.malformed position fault)
  /-- Names may be any names, those of keywords among them. -/
  parse_probability {p o n c : Token} (hts : ts = [p, o, n, c]) (hp : p.kind = .name)
    (htext : p.text = "P") (ho : o.kind = .openParen) (hn : n.kind = .name)
    (hc : c.kind = .closeParen) : (parse source : Except QueryError (Expr α)) =
      .ok (.probability [⟨n.text, false, none, n.start⟩] [])

/-- **The texts that are read are those whose tokens the grammar derives.** -/
theorem accepted_of_scan {source : String} {ts : List Token} (h : Token.scan source = .ok ts) :
    ∃ us e, ts = us ++ [e] ∧ e.kind = .ending ∧ (∀ t ∈ us, t.kind ≠ .ending) ∧
      Accepted α source us := by
  obtain ⟨us, e, rfl, he, hus⟩ := Token.exists_ended_of_scan h
  have hread : ∀ t ∈ us, Parser.Readable (α := α) t :=
    fun t ht => Token.readable_of_isLexeme (hus t ht)
  have hok : ∀ x : Expr α, parse source = .ok x ↔ ∃ y, DerivesQuery us y ∧ x = y.withValues :=
    fun x => by rw [parse_of_scan h]; exact Parser.whole_eq_ok_iff he hread
  have hmalformed : (∀ y, ¬ DerivesQuery us y) → ∃ position fault,
      (parse source : Except QueryError (Expr α)) = .error (.malformed position fault) := by
    intro hnone
    rw [parse_of_scan h]
    refine Parser.exists_malformed_of_whole _ fun x hx => ?_
    obtain ⟨y, hy, -⟩ := (Parser.whole_eq_ok_iff he hread).1 hx
    exact hnone y hy
  refine ⟨us, e, rfl, he.ending, he.not_ending, fun {x} => hok x, hmalformed, ?_, ?_⟩
  · rintro ⟨t, ht, hpower⟩
    refine hmalformed fun y hy => ?_
    obtain ⟨hcaret, hstar, -⟩ := hy.isPlain t ht
    exact hpower.elim hcaret hstar
  · rintro p o n c rfl hp htext ho hn hc
    have hspecs : Specs [n] [⟨n.text, false, none, n.start⟩] := .one (.mk (.plain hn) .absent)
    exact (hok _).2 ⟨_, .expr (.term (.unary (.primary
      (.probability hp htext ho hspecs .absent hc)))), by simp [withValues, Tree.map]⟩

/-- A keyword as a name is read; a power after it is not. -/
theorem accepted_of_scan_keyword :
    let ts : List Token := [⟨.name, "P", 0, 1⟩, ⟨.openParen, "(", 1, 2⟩, ⟨.name, "Not", 2, 5⟩,
      ⟨.closeParen, ")", 5, 6⟩]
    Token.scan "P(Not)" = .ok (ts ++ [⟨.ending, "", 6, 6⟩]) ∧ Accepted ℚ "P(Not)" ts ∧
      (parse "P(Not)" : Except QueryError (Expr ℚ)) =
        .ok (.probability [⟨"Not", false, none, 2⟩] []) ∧
      ∃ position fault, (parse "P(Not)^2" : Except QueryError (Expr ℚ)) =
        .error (.malformed position fault) := by
  intro ts
  have hscan : Token.scan "P(Not)" = .ok (ts ++ [⟨.ending, "", 6, 6⟩]) := by
    rw [← toOption_eq_some]
    decide +kernel
  have hpower : Token.scan "P(Not)^2" =
      .ok (ts ++ [⟨.caret, "^", 6, 7⟩, ⟨.number, "2", 7, 8⟩] ++ [⟨.ending, "", 8, 8⟩]) := by
    rw [← toOption_eq_some]
    decide +kernel
  obtain ⟨us, e, heq, -, -, haccepted⟩ := accepted_of_scan (α := ℚ) hscan
  obtain ⟨vs, e', heq', -, -, hrejected⟩ := accepted_of_scan (α := ℚ) hpower
  obtain ⟨rfl, -⟩ := List.append_inj' heq rfl
  obtain ⟨rfl, -⟩ := List.append_inj' heq' rfl
  exact ⟨hscan, haccepted, haccepted.parse_probability rfl rfl rfl rfl rfl rfl,
    hrejected.exists_malformed_of_power ⟨⟨.caret, "^", 6, 7⟩, by simp, .inl rfl⟩⟩

end Expr

end JointProb
