/-
  JointProb — what stands in front of a fault.

      2 * ( P ( ~ A | Not ( B ) , C =   )
      completed:                      A ) )

  A rule stops at the first token that it has no use for, or in front of it.
  What it has taken up to there can be completed, by names and numbers where
  some are missing and a closing parenthesis for each open one.

  * `Parser.Completes` says that tokens can be put behind others such that a
    property holds of all of them;
  * `Parser.StopsIn` says of a fault that it is at a token behind tokens that can
    be completed, and `Parser.Halts` that a rule has no other faults;
  * `Parser.halts_whole`: so it is for whole queries.
-/
import JointProb.Proofs.Query.Parser
import JointProb.Proofs.Query.Token

namespace JointProb.Parser

open Grammar
open Token (IsLexeme)

variable {α : Type} [Scalar α] {β γ : Type} {L R : List Token → Prop} {ts us vs front : List Token}

/-! ## Completions -/

/-- Tokens that can be put behind others such that a property holds of all of
    them. -/
def Completes (R : List Token → Prop) (front : List Token) : Prop :=
  ∃ more, (∀ t ∈ more, IsLexeme t.kind t.text.toList) ∧ R (front ++ more)

/-- Some token of a kind. -/
def sample (k : TokenKind) : Token :=
  ⟨k, match k with
    | .name => "A"
    | .number => "0"
    | k => k.text, 0, 0⟩

theorem isLexeme_sample {k : TokenKind} (hk : k ≠ .ending) :
    IsLexeme (sample k).kind (sample k).text.toList := by
  cases k with
  | name => exact .name (.mk rfl (by simp))
  | number =>
    have hdigits : Token.IsDigits ['0'] := by simp [Token.IsDigits]
    exact .number (.whole (by simp) hdigits .absent)
  | doubleStar => exact .doubleStar
  | ending => exact absurd rfl hk
  | _ => exact .mark rfl

theorem Completes.done (h : R front) : Completes R front := ⟨[], by simp, by simpa using h⟩

theorem Completes.of_sample {k : TokenKind} (hk : k ≠ .ending)
    (h : Completes R (front ++ [sample k])) : Completes R front := by
  obtain ⟨more, hmore, hR⟩ := h
  exact ⟨sample k :: more, List.forall_mem_cons.2 ⟨isLexeme_sample hk, hmore⟩, by simpa using hR⟩

/-- A completion of a part is completed to one of the whole. -/
theorem Completes.within (h : Completes L front) (hL : ∀ ws, L ws → Completes R (vs ++ ws)) :
    Completes R (vs ++ front) := by
  obtain ⟨more, hmore, hl⟩ := h
  obtain ⟨after, hafter, hr⟩ := hL _ hl
  exact ⟨more ++ after, List.forall_mem_append.2 ⟨hmore, hafter⟩, by simpa using hr⟩

/-- The first tokens of a fixed row of kinds are completed by the further ones. -/
theorem completes_row {row : List TokenKind} (hrow : ∀ k ∈ row, k ≠ .ending)
    (h : front.map Token.kind = row.take front.length) :
    Completes (fun ws => ws.map Token.kind = row) front := by
  refine ⟨(row.drop front.length).map sample, ?_, ?_⟩
  · rw [List.forall_mem_map]
    exact fun k hk => isLexeme_sample (hrow k (List.mem_of_mem_drop hk))
  · change List.map Token.kind (front ++ _) = row
    rw [List.map_append, h, List.map_map]
    exact (congrArg _ (List.map_id' _)).trans (List.take_append_drop ..)

/-! ## Faults -/

/-- A fault at a token behind tokens that can be completed. -/
def StopsIn (R : List Token → Prop) (ts : List Token) (e : QueryError) : Prop :=
  ∃ front back fault, ts = front ++ back ∧ e = .malformed (positionOf back) fault ∧
    Completes R front

/-- A result, or such a fault. -/
def Halts (R : List Token → Prop) (ts : List Token) (r : Except QueryError β) : Prop :=
  ∀ e, r = .error e → StopsIn R ts e

@[simp] theorem halts_ok {x : β} : Halts R ts (.ok x) := fun _ h => by cases h

@[simp] theorem halts_error {e : QueryError} :
    Halts R ts (.error e : Except QueryError β) ↔ StopsIn R ts e :=
  ⟨fun h => h e rfl, fun h e' he => by cases he; exact h⟩

/-- Where a property can be reached, the first token may be the fault. -/
theorem stopsIn_malformed {fault : QueryFault} (h : Completes R []) :
    StopsIn R ts (.malformed (positionOf ts) fault) := ⟨[], ts, fault, rfl, rfl, h⟩

theorem stopsIn_unexpected {expected : Expectation} (h : Completes R []) :
    StopsIn R ts (unexpected expected ts) := stopsIn_malformed h

/-- A fault in a part is one in the whole. -/
theorem StopsIn.within {e : QueryError} (h : StopsIn L us e) (hts : ts = vs ++ us)
    (hL : ∀ ws, L ws → Completes R (vs ++ ws)) : StopsIn R ts e := by
  obtain ⟨front, back, fault, rfl, rfl, hfront⟩ := h
  exact ⟨vs ++ front, back, fault, by rw [hts, List.append_assoc], rfl, hfront.within hL⟩

theorem Halts.within {r : Except QueryError β} (h : Halts L us r) (vs : List Token)
    (hts : ts = vs ++ us) (hL : ∀ ws, L ws → Completes R (vs ++ ws)) : Halts R ts r :=
  fun e he => (h e he).within hts hL

/-- A rule as the first part of another one. -/
theorem Halts.first {r : Except QueryError β} (h : Halts L ts r)
    (hL : ∀ ws, L ws → Completes R ws) : Halts R ts r := h.within [] rfl hL

theorem Halts.bind {r : Except QueryError β} {f : β → Except QueryError γ} {P : β → Prop}
    (hr : Halts R ts r) (hP : Yields r P) (hf : ∀ x, P x → Halts R ts (f x)) :
    Halts R ts (r >>= f) := by
  cases r with
  | error e => exact halts_error.2 (halts_error.1 hr)
  | ok x => exact hf x hP

theorem Halts.map {r : Except QueryError β} {f : β → γ} (hr : Halts R ts r) :
    Halts R ts (r.map f) := by
  cases r with
  | error e => exact halts_error.2 (halts_error.1 hr)
  | ok x => exact halts_ok

/-- One rule after another, without bounds. -/
theorem values_andThen_eq {r : Read β ts}
    {f : β → (us : List Token) → us.length < ts.length → Read γ us}
    {g : β × List Token → Except QueryError (γ × List Token)}
    (hf : ∀ x us h, values (f x us h) = g (x, us)) : values (r.andThen f) = values r >>= g := by
  cases r with
  | error e => rfl
  | ok r =>
    obtain ⟨⟨x, us⟩, h⟩ := r
    rw [Read.andThen, values_widen, hf]
    rfl

/-! ## Entries of probabilities -/

theorem halts_expect {k : TokenKind} (hk : k ≠ .ending) (expected : Expectation)
    (ts : List Token) :
    Halts (fun vs => ∃ t, vs = [t] ∧ t.kind = k) ts (values (expect k expected ts)) := by
  have hnil : Completes (fun vs => ∃ t, vs = [t] ∧ t.kind = k) [] :=
    .of_sample hk (.done ⟨sample k, rfl, rfl⟩)
  cases ts with
  | nil => exact halts_error.2 (stopsIn_unexpected hnil)
  | cons t ts =>
    rw [values_expect]
    split_ifs
    · exact halts_ok
    · exact halts_error.2 (stopsIn_unexpected hnil)

theorem values_nameInParens_eq (ts : List Token) : values (nameInParens ts) = (do
    let (_, us) ← values (expect .openParen .openParen ts)
    let (n, vs) ← values (expect .name .variableName us)
    let (_, ws) ← values (expect .closeParen .closeParen vs)
    .ok (n, ws)) := by
  refine values_andThen_eq fun _ us _ => values_andThen_eq fun n vs _ => ?_
  dsimp only
  cases expect .closeParen .closeParen vs <;> rfl

/-- The kinds of the tokens of a name in parentheses. -/
def parensRow : List TokenKind := [.openParen, .name, .closeParen]

theorem halts_nameInParens (ts : List Token) :
    Halts (fun vs => vs.map Token.kind = parensRow) ts (values (nameInParens ts)) := by
  rw [values_nameInParens_eq]
  refine ((halts_expect (by simp) _ ts).first ?_).bind (yields_expect ..)
    fun (o, us) ⟨hts, ho⟩ => ?_
  · rintro _ ⟨o, rfl, ho⟩
    exact completes_row (by simp [parensRow]) (by simp [parensRow, ho])
  refine ((halts_expect (by simp) _ us).within [o] hts ?_).bind (yields_expect ..)
    fun (n, vs) ⟨hus, hn⟩ => ?_
  · rintro _ ⟨n, rfl, hn⟩
    exact completes_row (by simp [parensRow]) (by simp [parensRow, ho, hn])
  refine ((halts_expect (by simp) _ vs).within [o, n] (by simp [hts, hus]) ?_).bind
    (yields_expect ..) fun _ _ => halts_ok
  rintro _ ⟨c, rfl, hc⟩
  exact .done (by simp [parensRow, ho, hn, hc])

theorem exists_of_parensRow (h : ts.map Token.kind = parensRow) : ∃ o n c, ts = [o, n, c] ∧
    o.kind = .openParen ∧ n.kind = .name ∧ c.kind = .closeParen := by
  simpa [parensRow, List.map_eq_cons_iff] using h

theorem halts_specName (ts : List Token) :
    Halts (fun vs => ∃ n negated, Mention vs n negated) ts (values (specName ts)) := by
  have hnil : Completes (fun vs => ∃ n negated, Mention vs n negated) [] :=
    .of_sample (k := .name) (by simp) (.done ⟨_, _, .plain rfl⟩)
  cases ts with
  | nil => exact halts_error.2 (stopsIn_unexpected hnil)
  | cons t ts =>
    rw [values_specName]
    split_ifs with ht hparen hnot
    · refine ((halts_nameInParens ts).within [t] rfl fun ws hws => ?_).map
      obtain ⟨o, n, c, rfl, ho, hn, hc⟩ := exists_of_parensRow hws
      exact .done ⟨n, _, .tildeParens ht ho hn hc⟩
    · refine ((halts_expect (by simp) _ ts).within [t] rfl ?_).map
      rintro _ ⟨n, rfl, hn⟩
      exact .done ⟨n, _, .tilde ht hn⟩
    · refine ((halts_nameInParens ts).within [t] rfl fun ws hws => ?_).map
      obtain ⟨o, n, c, rfl, ho, hn, hc⟩ := exists_of_parensRow hws
      obtain ⟨hk, htext, -⟩ := atCall_cons.1 hnot
      exact .done ⟨n, _, .not hk htext ho hn hc⟩
    · refine ((halts_expect (by simp) _ (t :: ts)).first ?_).map
      rintro _ ⟨n, rfl, hn⟩
      exact .done ⟨n, _, .plain hn⟩

theorem halts_specState (ts : List Token) :
    Halts (fun vs => ∃ state, State vs state) ts (values (specState ts)) := by
  cases ts with
  | nil => exact halts_ok
  | cons t ts =>
    by_cases ht : t.kind = .equals
    · -- the fault is at the token behind the sign, where a name would do
      have hstate : Completes (fun vs => ∃ state, State vs state) [t] :=
        .of_sample (k := .name) (by simp) (.done ⟨_, .stated ht (.inl rfl)⟩)
      have hstop : StopsIn (fun vs => ∃ state, State vs state) (t :: ts) (unexpected .state ts) :=
        ⟨[t], ts, _, rfl, rfl, hstate⟩
      cases ts with
      | nil => simpa [specState, ht] using hstop
      | cons u us =>
        by_cases hu : u.kind = .name ∨ u.kind = .number
        · simp [specState, ht, hu]
        · simpa [specState, ht, hu] using hstop
    · simp [specState, ht]

theorem halts_spec (ts : List Token) :
    Halts (fun vs => ∃ s, Spec vs s) ts (values (spec ts)) := by
  rw [values_spec]
  refine ((halts_specName ts).first ?_).bind (yields_specName ts)
    fun ((n, negated), us) ⟨vs, hts, hn⟩ => ?_
  · rintro ws ⟨n, negated, hn⟩
    exact .done ⟨_, by simpa using Spec.mk hn .absent⟩
  refine ((halts_specState us).within _ hts ?_).bind (yields_specState us) fun _ _ => halts_ok
  rintro ws ⟨state, hs⟩
  exact .done ⟨_, .mk hn hs⟩

theorem halts_specs (ts : List Token) :
    Halts (fun vs => ∃ ss, Specs vs ss) ts (values (specs ts)) := by
  rw [values_specs]
  refine ((halts_spec ts).first ?_).bind (yields_spec ts) fun (s, us) ⟨vs, hts, hs⟩ => ?_
  · rintro ws ⟨s, hs⟩
    exact .done ⟨[s], .one hs⟩
  dsimp only
  split_ifs with hcomma
  · obtain ⟨c, ws, rfl, hc⟩ := exists_cons_of_kindOf hcomma (by simp)
    have hlt : ws.length < ts.length := by rw [hts, List.length_append, List.length_cons]; omega
    refine ((halts_specs ws).within (vs ++ [c]) (by simp [hts]) ?_).map
    rintro xs ⟨ss, hss⟩
    exact .done ⟨s :: ss, by simpa using Specs.more hs hc hss⟩
  · exact halts_ok
termination_by ts.length

theorem halts_conditions (ts : List Token) :
    Halts (fun vs => ∃ ss, Conditions vs ss) ts (values (conditions ts)) := by
  rw [values_conditions]
  split_ifs with hbar
  · obtain ⟨b, us, rfl, hb⟩ := exists_cons_of_kindOf hbar (by simp)
    refine (halts_specs us).within [b] rfl ?_
    rintro ws ⟨ss, hss⟩
    exact .done ⟨ss, .given hb hss⟩
  · exact halts_ok

/-- What stands in the parentheses of a probability, and the closing one. -/
def IsBody (ts : List Token) : Prop :=
  ∃ vs ws c targets given, ts = vs ++ (ws ++ [c]) ∧ Specs vs targets ∧ Conditions ws given ∧
    c.kind = .closeParen

/-- Entries and conditions are completed by a parenthesis. -/
theorem completes_body {ws : List Token} {targets given : List VarSpec} (hvs : Specs vs targets)
    (hws : Conditions ws given) : Completes IsBody (vs ++ ws) :=
  .of_sample (k := .closeParen) (by simp)
    (.done ⟨vs, ws, _, targets, given, List.append_assoc .., hvs, hws, rfl⟩)

omit [Scalar α] in
theorem halts_probability (ts : List Token) :
    Halts IsBody ts (values (probability ts : Read (Expr α) ts)) := by
  rw [values_probability]
  refine ((halts_specs ts).first ?_).bind (yields_specs ts) fun (targets, us) ⟨vs, hts, hvs⟩ => ?_
  · rintro ws ⟨ss, hss⟩
    simpa using completes_body hss .absent
  refine ((halts_conditions us).within _ hts ?_).bind (yields_conditions us)
    fun (given, ws) ⟨xs, hus, hxs⟩ => ?_
  · rintro ws ⟨ss, hss⟩
    exact completes_body hvs hss
  refine ((halts_expect (by simp) _ ws).within (vs ++ xs) (by simp [hts, hus]) ?_).bind
    (yields_expect ..) fun _ _ => halts_ok
  rintro _ ⟨c, rfl, hc⟩
  exact .done ⟨vs, xs, c, targets, given, List.append_assoc .., hvs, hxs, hc⟩

/-! ## Arithmetic -/

/-- Tokens that a level derives. -/
def Forms (level : Level) (ts : List Token) : Prop := ∃ x, Derives level ts x

/-- A number is all that there is to arithmetic at least. -/
theorem completes_nil (level : Level) : Completes (Forms level) [] := by
  have hnumber : Derives .primary [sample .number] (.number "0") := .number rfl
  refine .of_sample (k := .number) (by simp) (.done ?_)
  cases level with
  | primary => exact ⟨_, hnumber⟩
  | unary => exact ⟨_, .primary hnumber⟩
  | term => exact ⟨_, .unary (.primary hnumber)⟩
  | expr => exact ⟨_, .term (.unary (.primary hnumber))⟩

/-- What a level derives, as a part of something else. -/
theorem Halts.derived {level : Level} {r : Except QueryError β} (h : Halts (Forms level) us r)
    (vs : List Token) (hts : ts = vs ++ us) (hR : ∀ ws x, Derives level ws x → R (vs ++ ws)) :
    Halts R ts r := by
  refine h.within vs hts fun ws hws => ?_
  obtain ⟨x, hx⟩ := hws
  exact .done (hR ws x hx)

theorem halts_primary {ts : List Token}
    (ih : ∀ us : List Token, us.length < ts.length →
      Halts (Forms .expr) us (values (expr us : Read (Expr α) us))) :
    Halts (Forms .primary) ts (values (primary ts : Read (Expr α) ts)) := by
  cases ts with
  | nil =>
    rw [primary.eq_def]
    exact halts_error.2 (stopsIn_unexpected (completes_nil _))
  | cons t ts =>
    cases hkind : t.kind with
    | number =>
      rw [values_primary_number ts hkind, numberOf]
      split
      · exact halts_ok
      · exact halts_error.2 (stopsIn_malformed (completes_nil _))
    | openParen =>
      rw [values_primary_parens ts hkind]
      refine ((ih ts (by simp)).within [t] rfl ?_).bind (yields_expr ts) ?_
      · rintro ws ⟨x, hx⟩
        exact .of_sample (k := .closeParen) (by simp) (.done ⟨x, .parens hkind hx rfl⟩)
      rintro ⟨x, us⟩ ⟨vs, y, hts, hy, -⟩
      refine ((halts_expect (by simp) _ us).within (t :: vs) (by rw [hts]; rfl) ?_).bind
        (yields_expect ..) fun _ _ => halts_ok
      rintro _ ⟨c, rfl, hc⟩
      exact .done ⟨y, .parens hkind hy hc⟩
    | name =>
      by_cases hcall : atCall "P" (t :: ts)
      · obtain ⟨-, htext, hparen⟩ := atCall_cons.1 hcall
        obtain ⟨o, us, rfl, ho⟩ := exists_cons_of_kindOf hparen (by simp)
        rw [values_primary_probability us hkind htext ho]
        refine (halts_probability us).within [t, o] rfl ?_
        rintro _ ⟨vs, ws, c, targets, given, rfl, hvs, hws, hc⟩
        exact .done ⟨_, .probability hkind htext ho hvs hws hc⟩
      · -- whatever is said of the name, nothing has been taken in front of it
        have hstop : StopsIn (Forms .primary) (t :: ts) (.malformed t.start (nameFault t.text)) :=
          stopsIn_malformed (completes_nil _)
        rw [primary.eq_def]
        cases ts <;> simpa [hkind, hcall] using hstop
    | _ =>
      have hstop : StopsIn (Forms .primary) (t :: ts) (unexpected .primary (t :: ts)) :=
        stopsIn_unexpected (completes_nil _)
      rw [primary.eq_def]
      simpa [hkind] using hstop

theorem halts_unary {ts : List Token}
    (ih : ∀ us : List Token, us.length < ts.length →
      Halts (Forms .expr) us (values (expr us : Read (Expr α) us))) :
    Halts (Forms .unary) ts (values (unary ts : Read (Expr α) ts)) := by
  have hprimary : Halts (Forms .unary) ts (values (primary ts : Read (Expr α) ts)) :=
    (halts_primary ih).derived [] rfl fun _ x hx => ⟨x, .primary hx⟩
  -- by induction on the signs in front
  induction ts with
  | nil =>
    rw [unary]
    exact hprimary
  | cons t ts ihts =>
    have hrest : Halts (Forms .unary) ts (values (unary ts : Read (Expr α) ts)) := by
      have ih' := fun us hus => ih us (Nat.lt_succ_of_lt hus)
      exact ihts ih' ((halts_primary ih').derived [] rfl fun _ x hx => ⟨x, .primary hx⟩)
    rw [values_unary]
    split_ifs with hminus hplus
    · exact (hrest.derived [t] rfl fun _ _ hx => ⟨_, .minus hminus hx⟩).map
    · exact hrest.derived [t] rfl fun _ _ hx => ⟨_, .plus hplus hx⟩
    · exact hprimary

/-- Behind a product so far, each further factor is completed to a product. -/
theorem halts_termTail {ls ts : List Token} {l : Expr String}
    (ih : ∀ us : List Token, us.length < ts.length →
      Halts (Forms .unary) us (values (unary us : Read (Expr α) us)))
    (hl : Derives .term ls l) (left : Expr α) :
    Halts (fun vs => Forms .term (ls ++ vs)) ts (values (termTail left ts)) := by
  cases ts with
  | nil =>
    rw [termTail]
    exact halts_ok
  | cons t ts =>
    cases hop : multiplicative? t.kind with
    | none =>
      rw [values_termTail_of_none hop]
      split_ifs
      · -- the fault is at an operator for powers, behind a whole product
        exact halts_error.2 (stopsIn_malformed (.done ⟨l, by simpa using hl⟩))
      · exact halts_ok
    | some op =>
      rw [values_termTail_of_multiplicative? ts hop]
      refine ((ih ts (by simp)).derived [t] rfl fun _ _ hx => ⟨_, .product hl hop hx⟩).bind
        (yields_unary fun us _ => yields_expr us) ?_
      rintro ⟨right, us⟩ ⟨vs, y, hts, hy, -⟩
      have hlt : us.length < ts.length + 1 :=
        Nat.lt_succ_of_le (List.IsSuffix.length_le ⟨vs, hts.symm⟩)
      refine (halts_termTail (fun ws hws => ih ws (Nat.lt_trans hws hlt))
        (.product hl hop hy) _).within (t :: vs) (by rw [hts]; rfl) fun ws hws => ?_
      exact .done (by simpa using hws)
termination_by ts.length

theorem halts_term {ts : List Token}
    (ih : ∀ us : List Token, us.length ≤ ts.length →
      Halts (Forms .unary) us (values (unary us : Read (Expr α) us))) :
    Halts (Forms .term) ts (values (term ts : Read (Expr α) ts)) := by
  rw [values_term]
  refine ((ih ts le_rfl).derived [] rfl fun _ x hx => ⟨x, .unary hx⟩).bind
    (yields_unary fun us _ => yields_expr us) ?_
  rintro ⟨left, us⟩ ⟨vs, l, hts, hl, -⟩
  have hle : us.length ≤ ts.length := List.IsSuffix.length_le ⟨vs, hts.symm⟩
  exact (halts_termTail (fun ws hws => ih ws (Nat.le_of_lt (Nat.lt_of_lt_of_le hws hle)))
    (.unary hl) _).within _ hts fun ws hws => .done hws

/-- Behind a sum so far, each further term is completed to a sum. -/
theorem halts_exprTail {ls ts : List Token} {l : Expr String}
    (ih : ∀ us : List Token, us.length < ts.length →
      Halts (Forms .term) us (values (term us : Read (Expr α) us)))
    (hl : Derives .expr ls l) (left : Expr α) :
    Halts (fun vs => Forms .expr (ls ++ vs)) ts (values (exprTail left ts)) := by
  cases hop : additive? (kindOf ts) with
  | none =>
    rw [values_exprTail_of_none hop]
    exact halts_ok
  | some op =>
    cases ts with
    | nil => cases hop
    | cons t ts =>
      rw [values_exprTail_of_additive? ts hop]
      refine ((ih ts (by simp)).derived [t] rfl fun _ _ hx => ⟨_, .sum hl hop hx⟩).bind
        (yields_term fun us _ => yields_unary fun ws _ => yields_expr ws) ?_
      rintro ⟨right, us⟩ ⟨vs, y, hts, hy, -⟩
      have hlt : us.length < ts.length + 1 :=
        Nat.lt_succ_of_le (List.IsSuffix.length_le ⟨vs, hts.symm⟩)
      refine (halts_exprTail (fun ws hws => ih ws (Nat.lt_trans hws hlt))
        (.sum hl hop hy) _).within (t :: vs) (by rw [hts]; rfl) fun ws hws => ?_
      exact .done (by simpa using hws)
termination_by ts.length

/-- **What a sum has taken in front of a fault can be completed to a sum.** -/
theorem halts_expr (ts : List Token) :
    Halts (Forms .expr) ts (values (expr ts : Read (Expr α) ts)) := by
  have hunary : ∀ us : List Token, us.length ≤ ts.length →
      Halts (Forms .unary) us (values (unary us : Read (Expr α) us)) :=
    fun us hus => halts_unary fun ws hws => halts_expr ws
  have hterm : ∀ us : List Token, us.length ≤ ts.length →
      Halts (Forms .term) us (values (term us : Read (Expr α) us)) :=
    fun us hus => halts_term fun ws hws => hunary ws (Nat.le_trans hws hus)
  rw [values_expr]
  refine ((hterm ts le_rfl).derived [] rfl fun _ x hx => ⟨x, .term hx⟩).bind
    (yields_term fun us _ => yields_unary fun ws _ => yields_expr ws) ?_
  rintro ⟨left, us⟩ ⟨vs, l, hts, hl, -⟩
  have hle : us.length ≤ ts.length := List.IsSuffix.length_le ⟨vs, hts.symm⟩
  exact (halts_exprTail (fun ws hws => hterm ws (Nat.le_of_lt (Nat.lt_of_lt_of_le hws hle)))
    (.term hl) _).within _ hts fun ws hws => .done hws
termination_by ts.length

/-! ## Queries -/

/-- Tokens that are derived as a query. -/
def FormsQuery (ts : List Token) : Prop := ∃ x, DerivesQuery ts x

theorem halts_plainName (ts : List Token) :
    Halts (fun vs => ∃ t, vs = [t] ∧ t.kind = .name) ts (values (plainName ts)) := by
  have hexpect := halts_expect (k := .name) (by simp) .variableName ts
  have hyields := yields_expect .name .variableName ts
  rw [plainName]
  split_ifs with hbad
  · exact halts_error.2 (stopsIn_malformed
      (.of_sample (k := .name) (by simp) (.done ⟨_, rfl, rfl⟩)))
  · cases h : expect .name .variableName ts with
    | error e =>
      rw [h] at hexpect
      exact halts_error.2 (halts_error.1 hexpect)
    | ok r =>
      obtain ⟨⟨n, us⟩, hlt⟩ := r
      rw [h] at hyields
      dsimp only
      split_ifs
      · -- an equals sign behind the name is the fault
        exact halts_error.2 ⟨[n], us, _, hyields.1, rfl, .done ⟨n, rfl, hyields.2⟩⟩
      · exact halts_ok

omit [Scalar α] in
theorem values_predicate_eq (conditional : Bool) (ts : List Token) :
    values (predicate conditional ts : Read (Expr α) ts) = (do
      let (a, us) ← values (plainName ts)
      let (_, vs) ← values (expect .comma .comma us)
      let (b, ws) ← values (plainName vs)
      if conditional then do
        let (_, xs) ← values (expect .bar .bar ws)
        let (given, ys) ← values (plainName xs)
        let (_, zs) ← values (expect .closeParen .closeParen ys)
        .ok (.condIndependence a b given, zs)
      else do
        let (_, xs) ← values (expect .closeParen .closeParen ws)
        .ok (.independence a b, xs)) := by
  refine values_andThen_eq fun a us _ => values_andThen_eq fun _ vs _ =>
    values_andThen_eq fun b ws _ => ?_
  dsimp only
  split_ifs
  · refine values_andThen_eq fun _ xs _ => values_andThen_eq fun given ys _ => ?_
    dsimp only
    cases expect .closeParen .closeParen ys <;> rfl
  · cases expect .closeParen .closeParen ws <;> rfl

/-- The kinds of the tokens in the parentheses of a predicate, and of the closing one. -/
def predicateRow (conditional : Bool) : List TokenKind :=
  [.name, .comma, .name] ++ (if conditional then [.bar, .name] else []) ++ [.closeParen]

omit [Scalar α] in
theorem halts_predicate (conditional : Bool) (ts : List Token) :
    Halts (fun vs => vs.map Token.kind = predicateRow conditional) ts
      (values (predicate conditional ts : Read (Expr α) ts)) := by
  have hrow : ∀ k ∈ predicateRow conditional, k ≠ .ending := by
    cases conditional <;> simp [predicateRow]
  rw [values_predicate_eq]
  refine ((halts_plainName ts).first ?_).bind (yields_plainName ts)
    fun (_, us) ⟨a, hts, ha, _⟩ => ?_
  · rintro _ ⟨a, rfl, ha⟩
    exact completes_row hrow (by simp [predicateRow, ha])
  refine ((halts_expect (by simp) _ us).within [a] hts ?_).bind (yields_expect ..)
    fun (m, vs) ⟨hus, hm⟩ => ?_
  · rintro _ ⟨m, rfl, hm⟩
    exact completes_row hrow (by simp [predicateRow, ha, hm])
  refine ((halts_plainName vs).within [a, m] (by simp [hts, hus]) ?_).bind
    (yields_plainName vs) fun (_, ws) ⟨b, hvs, hb, _⟩ => ?_
  · rintro _ ⟨b, rfl, hb⟩
    exact completes_row hrow (by simp [predicateRow, ha, hm, hb])
  cases conditional with
  | true =>
    refine ((halts_expect (by simp) _ ws).within [a, m, b] (by simp [hts, hus, hvs]) ?_).bind
      (yields_expect ..) fun (r, xs) ⟨hws, hr⟩ => ?_
    · rintro _ ⟨r, rfl, hr⟩
      exact completes_row hrow (by simp [predicateRow, ha, hm, hb, hr])
    refine ((halts_plainName xs).within [a, m, b, r] (by simp [hts, hus, hvs, hws]) ?_).bind
      (yields_plainName xs) fun (_, ys) ⟨g, hxs, hg, _⟩ => ?_
    · rintro _ ⟨g, rfl, hg⟩
      exact completes_row hrow (by simp [predicateRow, ha, hm, hb, hr, hg])
    refine ((halts_expect (by simp) _ ys).within [a, m, b, r, g]
      (by simp [hts, hus, hvs, hws, hxs]) ?_).bind (yields_expect ..) fun _ _ => halts_ok
    rintro _ ⟨c, rfl, hc⟩
    exact .done (by simp [predicateRow, ha, hm, hb, hr, hg, hc])
  | false =>
    refine ((halts_expect (by simp) _ ws).within [a, m, b] (by simp [hts, hus, hvs]) ?_).bind
      (yields_expect ..) fun _ _ => halts_ok
    rintro _ ⟨c, rfl, hc⟩
    exact .done (by simp [predicateRow, ha, hm, hb, hc])

/-- Such tokens behind a keyword and a parenthesis are a query. -/
theorem formsQuery_of_predicateRow {conditional : Bool} {k o : Token} (hk : k.kind = .name)
    (htext : k.text = if conditional then "IsCondIndep" else "IsIndep") (ho : o.kind = .openParen)
    (h : vs.map Token.kind = predicateRow conditional) : FormsQuery ([k, o] ++ vs) := by
  cases conditional with
  | true =>
    obtain ⟨a, m, b, r, g, c, rfl, ha, hm, hb, hr, hg, hc⟩ :
        ∃ a m b r g c, vs = [a, m, b, r, g, c] ∧ a.kind = .name ∧ m.kind = .comma ∧
          b.kind = .name ∧ r.kind = .bar ∧ g.kind = .name ∧ c.kind = .closeParen := by
      simpa [predicateRow, List.map_eq_cons_iff] using h
    exact ⟨_, .condIndependence hk htext ho ha hm hb hr hg hc⟩
  | false =>
    obtain ⟨a, m, b, c, rfl, ha, hm, hb, hc⟩ : ∃ a m b c, vs = [a, m, b, c] ∧
        a.kind = .name ∧ m.kind = .comma ∧ b.kind = .name ∧ c.kind = .closeParen := by
      simpa [predicateRow, List.map_eq_cons_iff] using h
    exact ⟨_, .independence hk htext ho ha hm hb hc⟩

theorem halts_query (ts : List Token) :
    Halts FormsQuery ts (values (query ts : Read (Expr α) ts)) := by
  rw [query]
  split_ifs with hindep hcond
  · obtain ⟨k, o, us, rfl, hk, htext, ho⟩ := exists_cons_of_atCall hindep
    rw [values_widen]
    exact (halts_predicate false us).within [k, o] rfl fun ws hws =>
      .done (formsQuery_of_predicateRow hk (by simp [htext]) ho hws)
  · obtain ⟨k, o, us, rfl, hk, htext, ho⟩ := exists_cons_of_atCall hcond
    rw [values_widen]
    exact (halts_predicate true us).within [k, o] rfl fun ws hws =>
      .done (formsQuery_of_predicateRow hk (by simp [htext]) ho hws)
  · exact (halts_expr ts).derived [] rfl fun _ x hx => ⟨x, .expr hx⟩

/-- **What the parser has taken in front of a fault can be completed to a query.** -/
theorem halts_whole (ts : List Token) :
    Halts FormsQuery ts (whole ts : Except QueryError (Expr α)) := by
  rw [whole_eq]
  refine (halts_query ts).bind (yields_query ts) fun (x, us) ⟨vs, y, hts, hy, _⟩ => ?_
  dsimp only
  split_ifs
  · exact halts_ok
  · exact halts_error.2 ⟨vs, us, _, hts, rfl, .done ⟨y, hy⟩⟩

end JointProb.Parser
