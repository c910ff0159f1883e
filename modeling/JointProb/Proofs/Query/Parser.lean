/-
  JointProb — the parser reads what the grammar derives.

  * `Parser.yields_query`: what is read is derived;
  * `Parser.values_query_append`: what is derived is read, in front of the end;
  * `Parser.yields_whole` and `Parser.whole_eq_ok_iff`: the queries that are
    read are those that are derived;
  * `Parser.exists_malformed_of_whole`: all other tokens are a fault in the
    text.
-/
import JointProb.Proofs.Query.Arithmetic

namespace JointProb.Parser

open Grammar

variable {α : Type} [Scalar α]

/-! ## Queries -/

theorem yields_plainName (ts : List Token) :
    Yields (values (plainName ts)) fun (a, us) =>
      ∃ n, ts = n :: us ∧ n.kind = .name ∧ a = n.text := by
  rw [plainName]
  split_ifs with hbad
  · exact yields_malformed
  · have hn := yields_expect .name .variableName ts
    cases h : expect .name .variableName ts with
    | error e => rwa [h] at hn
    | ok r =>
      obtain ⟨⟨n, us⟩, hlt⟩ := r
      rw [h] at hn
      dsimp only
      split_ifs
      · exact yields_malformed
      · exact ⟨n, hn.1, hn.2, rfl⟩

theorem values_plainName {n : Token} (ts : List Token) (hn : n.kind = .name)
    (hparen : kindOf ts ≠ .openParen) (hequals : kindOf ts ≠ .equals) :
    values (plainName (n :: ts)) = .ok (n.text, ts) := by
  have hnot : ¬ atCall "Not" (n :: ts) := fun h => hparen (atCall_cons.1 h).2.2
  simp [plainName, hn, hnot, expect, hequals]

/-- A predicate and the keyword and the parenthesis in front of it. -/
theorem yields_predicate (conditional : Bool) (ts : List Token) :
    Yields (values (predicate conditional ts : Read (Expr α) ts)) fun (x, us) =>
      ∀ k o : Token, k.kind = .name → o.kind = .openParen →
        k.text = (if conditional then "IsCondIndep" else "IsIndep") →
        ∃ vs y, k :: o :: ts = vs ++ us ∧ DerivesQuery vs y ∧ x = y.withValues := by
  rw [predicate]
  refine (yields_plainName ts).andThen fun a us _ ⟨a, hts, ha, hat⟩ => ?_
  refine (yields_expect ..).andThen fun m vs _ ⟨hus, hm⟩ => ?_
  refine (yields_plainName vs).andThen fun b ws _ ⟨b, hvs, hb, hbt⟩ => ?_
  cases conditional with
  | true =>
    refine (yields_expect ..).andThen fun r xs _ ⟨hws, hr⟩ => ?_
    refine (yields_plainName xs).andThen fun g ys _ ⟨g, hxs, hg, hgt⟩ => ?_
    have hc := yields_expect .closeParen .closeParen ys
    cases h : expect .closeParen .closeParen ys with
    | error e => rwa [h] at hc
    | ok r' =>
      obtain ⟨⟨c, zs⟩, hlt⟩ := r'
      rw [h] at hc
      intro k o hk ho htext
      refine ⟨[k, o, a, m, b, r, g, c], _, ?_,
        .condIndependence hk htext ho ha hm hb hr hg hc.2, ?_⟩
      · rw [hts, hus, hvs, hws, hxs, hc.1]
        rfl
      · rw [hat, hbt, hgt]
        rfl
  | false =>
    have hc := yields_expect .closeParen .closeParen ws
    simp only [Bool.false_eq_true, if_false]
    cases h : expect .closeParen .closeParen ws with
    | error e => rwa [h] at hc
    | ok r' =>
      obtain ⟨⟨c, zs⟩, hlt⟩ := r'
      rw [h] at hc
      intro k o hk ho htext
      dsimp only
      refine ⟨[k, o, a, m, b, c], _, ?_, .independence hk htext ho ha hm hb hc.2, ?_⟩
      · rw [hts, hus, hvs, hc.1]
        rfl
      · rw [hat, hbt]
        rfl

/-- **What is read as a query is derived.** -/
theorem yields_query (ts : List Token) : Yields (values (query ts : Read (Expr α) ts))
    fun (x, us) => ∃ vs y, ts = vs ++ us ∧ DerivesQuery vs y ∧ x = y.withValues := by
  rw [query]
  split_ifs with hindep hcond
  · obtain ⟨k, o, us, rfl, hk, htext, ho⟩ := exists_cons_of_atCall hindep
    rw [values_widen]
    exact (yields_predicate false us).mono fun _ h => h k o hk ho htext
  · obtain ⟨k, o, us, rfl, hk, htext, ho⟩ := exists_cons_of_atCall hcond
    rw [values_widen]
    exact (yields_predicate true us).mono fun _ h => h k o hk ho htext
  · exact (yields_expr ts).mono fun _ ⟨vs, y, hts, hy, hx⟩ => ⟨vs, y, hts, .expr hy, hx⟩

omit [Scalar α] in
theorem values_predicate_false {a m b c : Token} (ts : List Token) (ha : a.kind = .name)
    (hm : m.kind = .comma) (hb : b.kind = .name) (hc : c.kind = .closeParen) :
    values (predicate false (a :: m :: b :: c :: ts) : Read (Expr α) _) =
      .ok (.independence a.text b.text, ts) := by
  have hsecond : values (plainName (b :: c :: ts)) = .ok (b.text, c :: ts) :=
    values_plainName _ hb (by simp [hc]) (by simp [hc])
  refine values_andThen (values_plainName _ ha (by simp [hm]) (by simp [hm])) fun _ => ?_
  refine values_andThen (values_expect_of_kind hm) fun _ => ?_
  refine values_andThen hsecond fun _ => ?_
  simp [expect, hc]

omit [Scalar α] in
theorem values_predicate_true {a m b r g c : Token} (ts : List Token) (ha : a.kind = .name)
    (hm : m.kind = .comma) (hb : b.kind = .name) (hr : r.kind = .bar) (hg : g.kind = .name)
    (hc : c.kind = .closeParen) :
    values (predicate true (a :: m :: b :: r :: g :: c :: ts) : Read (Expr α) _) =
      .ok (.condIndependence a.text b.text g.text, ts) := by
  refine values_andThen (values_plainName _ ha (by simp [hm]) (by simp [hm])) fun _ => ?_
  refine values_andThen (values_expect_of_kind hm) fun _ => ?_
  refine values_andThen (values_plainName _ hb (by simp [hr]) (by simp [hr])) fun _ => ?_
  refine values_andThen (values_expect_of_kind hr) fun _ => ?_
  refine values_andThen (values_plainName _ hg (by simp [hc]) (by simp [hc])) fun _ => ?_
  simp [expect, hc]

/-- **A query in front of the end is read.** -/
theorem values_query_append {ts : List Token} {x : Expr String} {e : Token}
    (h : DerivesQuery ts x) (hread : ∀ t ∈ ts, Readable (α := α) t) (he : e.kind = .ending) :
    values (query (ts ++ [e]) : Read (Expr α) _) = .ok (x.withValues, [e]) := by
  cases h with
  | @independence k o a m b c hk htext ho ha hm hb hc =>
    have hcall : atCall "IsIndep" [k, o, a, m, b, c, e] := atCall_cons.2 ⟨hk, htext, ho⟩
    change values (query [k, o, a, m, b, c, e]) = _
    rw [query, if_pos hcall, values_widen]
    exact values_predicate_false [e] ha hm hb hc
  | @condIndependence k o a m b r g c hk htext ho ha hm hb hr hg hc =>
    have hnot : ¬ atCall "IsIndep" [k, o, a, m, b, r, g, c, e] := by simp [atCall_cons, htext]
    have hcall : atCall "IsCondIndep" [k, o, a, m, b, r, g, c, e] :=
      atCall_cons.2 ⟨hk, htext, ho⟩
    change values (query [k, o, a, m, b, r, g, c, e]) = _
    rw [query, if_neg hnot, if_pos hcall, values_widen]
    exact values_predicate_true [e] ha hm hb hr hg hc
  | expr h =>
    obtain ⟨t, us, hts, htext⟩ := h.exists_cons
    have hnot : ∀ keyword, keyword ≠ "P" → ¬ atCall keyword (ts ++ [e]) := by
      rintro keyword hne hcall
      rw [hts, List.cons_append] at hcall
      obtain ⟨hk, hkt, -⟩ := atCall_cons.1 hcall
      exact hne (hkt ▸ htext hk)
    have hend : EndsTerm [e] := by simp [EndsTerm, he, multiplicative?]
    rw [query, if_neg (hnot _ (by decide)), if_neg (hnot _ (by decide)),
      goesOn_of_derives h hread [e] hend]
    exact values_exprTail_of_none (by simp [he, additive?])

/-! ## Whole queries -/

theorem whole_eq (ts : List Token) : (whole ts : Except QueryError (Expr α)) =
    values (query ts) >>= fun (x, us) =>
      if kindOf us = .ending then .ok x else .error (unexpected .operatorOrEnd us) := by
  rw [whole]
  cases (query ts : Read (Expr α) ts) <;> rfl

/-- Tokens with an end after them, which is the only one. -/
structure Ended (ts : List Token) (e : Token) : Prop where
  ending : e.kind = .ending
  not_ending : ∀ t ∈ ts, t.kind ≠ .ending

/-- What is left in front of the end is nothing. -/
theorem Ended.eq_of_append {ts vs us : List Token} {e : Token} (h : Ended ts e)
    (hts : ts ++ [e] = vs ++ us) (hus : kindOf us = .ending) (hvs : ∀ t ∈ vs, t.kind ≠ .ending) :
    vs = ts := by
  rcases List.append_eq_append_iff.1 hts with ⟨ws, hws, he⟩ | ⟨ws, hws, he⟩
  · -- the end is not among the tokens that were read
    cases ws with
    | nil => rw [hws, List.append_nil]
    | cons w ws =>
      obtain ⟨rfl, -⟩ := List.cons.inj he
      exact absurd h.ending (hvs _ (by simp [hws]))
  · -- nothing in front of the end is one
    cases ws with
    | nil => rw [hws, List.append_nil]
    | cons w ws =>
      rw [he] at hus
      exact absurd hus (h.not_ending w (by simp [hws]))

/-- What is read as a whole is derived up to the end. -/
theorem yields_whole (ts : List Token) : Yields (whole ts : Except QueryError (Expr α)) fun x =>
    ∃ vs us y, ts = vs ++ us ∧ kindOf us = .ending ∧ DerivesQuery vs y ∧ x = y.withValues := by
  rw [whole_eq]
  refine (yields_query ts).bind fun (x, us) ⟨vs, y, hts, hy, hx⟩ => ?_
  dsimp only
  split_ifs with hus
  · exact ⟨vs, us, y, hts, hus, hy, hx⟩
  · exact yields_unexpected

/-- **The queries that are read are those that are derived.** -/
theorem whole_eq_ok_iff {ts : List Token} {e : Token} (he : Ended ts e)
    (hread : ∀ t ∈ ts, Readable (α := α) t) {x : Expr α} :
    whole (ts ++ [e]) = .ok x ↔ ∃ y, DerivesQuery ts y ∧ x = y.withValues := by
  constructor
  · intro h
    have hwhole := yields_whole (α := α) (ts ++ [e])
    rw [h] at hwhole
    obtain ⟨vs, us, y, hts, hus, hy, hx⟩ := hwhole
    rw [← he.eq_of_append hts hus fun t ht => (hy.isPlain t ht).2.2]
    exact ⟨y, hy, hx⟩
  · rintro ⟨y, hy, rfl⟩
    rw [whole_eq, values_query_append hy hread he.ending]
    simp [bind, Except.bind, he.ending]

/-- All other tokens are a fault in the text. -/
theorem exists_malformed_of_whole (ts : List Token)
    (h : ∀ x : Expr α, whole ts ≠ .ok x) :
    ∃ position fault,
      (whole ts : Except QueryError (Expr α)) = .error (.malformed position fault) := by
  have hwhole := yields_whole (α := α) ts
  cases hw : (whole ts : Except QueryError (Expr α)) with
  | ok x => exact absurd hw (h x)
  | error e =>
    rw [hw] at hwhole
    obtain ⟨position, fault, rfl⟩ := hwhole
    exact ⟨position, fault, rfl⟩

end JointProb.Parser
