/-
  JointProb — the entries of probabilities, as the parser reads them.

  * `Parser.values` forgets the bound on the tokens that are left, and one
    equation for each rule says what is read in these terms;
  * `Parser.Yields` says of a result that it is of some kind, and that its
    absence is a fault in the text;
  * `Parser.yields_probability`: what is read is derived;
  * `Parser.values_probability_append`: what is derived is read.
-/
import JointProb.Proofs.Query.Grammar
import JointProb.Proofs.Result

namespace JointProb.Parser

open Grammar

variable {β γ : Type}

/-! ## Results without bounds -/

/-- A result without the bound on the tokens that are left. -/
def values {P : β → Prop} (r : Except QueryError { x : β // P x }) : Except QueryError β :=
  r.map Subtype.val

@[simp] theorem values_ok {P : β → Prop} (x : { x : β // P x }) :
    values (.ok x : Except QueryError { x : β // P x }) = .ok x.1 := rfl

@[simp] theorem values_error {P : β → Prop} (e : QueryError) :
    values (.error e : Except QueryError { x : β // P x }) = .error e := rfl

@[simp] theorem values_widen {ts us : List Token} (h : ts.length ≤ us.length) (r : Read β ts) :
    values (r.widen h) = values r := by
  cases r <;> rfl

theorem values_andThen {ts us : List Token} {r : Read β ts}
    {f : β → (us : List Token) → us.length < ts.length → Read γ us} {x : β}
    {v : Except QueryError (γ × List Token)} (hr : values r = .ok (x, us))
    (hf : ∀ h, values (f x us h) = v) : values (r.andThen f) = v := by
  cases r with
  | error e => cases hr
  | ok r =>
    obtain ⟨⟨y, vs⟩, h⟩ := r
    cases hr
    rw [Read.andThen, values_widen, hf]

/-- A result of some kind, or a fault in the text. -/
def Yields (r : Except QueryError β) (P : β → Prop) : Prop :=
  match r with
  | .ok x => P x
  | .error e => ∃ position fault, e = .malformed position fault

@[simp] theorem yields_ok {x : β} {P : β → Prop} : Yields (.ok x) P ↔ P x := Iff.rfl

@[simp] theorem yields_malformed {position : Nat} {fault : QueryFault} {P : β → Prop} :
    Yields (.error (.malformed position fault)) P := ⟨position, fault, rfl⟩

@[simp] theorem yields_unexpected {expected : Expectation} {ts : List Token} {P : β → Prop} :
    Yields (.error (unexpected expected ts)) P := ⟨_, _, rfl⟩

theorem Yields.bind {r : Except QueryError β} {f : β → Except QueryError γ} {P : β → Prop}
    {Q : γ → Prop} (hr : Yields r P) (hf : ∀ x, P x → Yields (f x) Q) : Yields (r >>= f) Q := by
  cases r with
  | error e => exact hr
  | ok x => exact hf x hr

theorem Yields.andThen {ts : List Token} {r : Read β ts}
    {f : β → (us : List Token) → us.length < ts.length → Read γ us} {P : β × List Token → Prop}
    {Q : γ × List Token → Prop} (hr : Yields (values r) P)
    (hf : ∀ x us h, P (x, us) → Yields (values (f x us h)) Q) :
    Yields (values (r.andThen f)) Q := by
  cases r with
  | error e => exact hr
  | ok r =>
    obtain ⟨⟨x, us⟩, h⟩ := r
    rw [Read.andThen, values_widen]
    exact hf x us h hr

theorem Yields.mono {r : Except QueryError β} {P Q : β → Prop} (hr : Yields r P)
    (h : ∀ x, P x → Q x) : Yields r Q := by
  cases r with
  | error e => exact hr
  | ok x => exact h x hr

/-! ## Entries of probabilities -/

theorem values_expect (kind : TokenKind) (expected : Expectation) (t : Token) (ts : List Token) :
    values (expect kind expected (t :: ts)) =
      if t.kind = kind then .ok (t, ts) else .error (unexpected expected (t :: ts)) := by
  rw [expect]
  split_ifs <;> rfl

theorem values_expect_of_kind {kind : TokenKind} {expected : Expectation} {t : Token}
    {ts : List Token} (h : t.kind = kind) :
    values (expect kind expected (t :: ts)) = .ok (t, ts) := by
  rw [values_expect, if_pos h]

theorem yields_expect (kind : TokenKind) (expected : Expectation) (ts : List Token) :
    Yields (values (expect kind expected ts)) fun (t, us) => ts = t :: us ∧ t.kind = kind := by
  cases ts with
  | nil => exact yields_unexpected
  | cons t ts =>
    rw [values_expect]
    split_ifs with h
    · exact ⟨rfl, h⟩
    · exact yields_unexpected

theorem yields_nameInParens (ts : List Token) :
    Yields (values (nameInParens ts)) fun (n, us) => ∃ o c, ts = o :: n :: c :: us ∧
      o.kind = .openParen ∧ n.kind = .name ∧ c.kind = .closeParen := by
  refine (yields_expect ..).andThen fun o us _ ⟨hts, ho⟩ => ?_
  refine (yields_expect ..).andThen fun n vs _ ⟨hus, hn⟩ => ?_
  have hc := yields_expect .closeParen .closeParen vs
  cases h : expect .closeParen .closeParen vs with
  | error e => rwa [h] at hc
  | ok r =>
    obtain ⟨⟨c, ws⟩, hlt⟩ := r
    rw [h] at hc
    exact ⟨o, c, by rw [hts, hus, hc.1], ho, hn, hc.2⟩

theorem values_nameInParens {o n c : Token} (ts : List Token) (ho : o.kind = .openParen)
    (hn : n.kind = .name) (hc : c.kind = .closeParen) :
    values (nameInParens (o :: n :: c :: ts)) = .ok (n, ts) := by
  refine values_andThen (values_expect_of_kind ho) fun _ => ?_
  refine values_andThen (values_expect_of_kind hn) fun _ => ?_
  simp [expect, hc]

@[simp] theorem kindOf_cons (t : Token) (ts : List Token) : kindOf (t :: ts) = t.kind := rfl

theorem atCall_cons {keyword : String} {t : Token} {ts : List Token} :
    atCall keyword (t :: ts) ↔ t.kind = .name ∧ t.text = keyword ∧ kindOf ts = .openParen := by
  cases ts with
  | nil => simp [atCall, kindOf]
  | cons u us => simp [atCall, kindOf, and_assoc]

theorem exists_cons_of_atCall {keyword : String} {ts : List Token} (h : atCall keyword ts) :
    ∃ k o us, ts = k :: o :: us ∧ k.kind = .name ∧ k.text = keyword ∧ o.kind = .openParen := by
  match ts with
  | [] => cases h
  | [_] => cases h
  | k :: o :: us => exact ⟨k, o, us, rfl, atCall_cons.1 h⟩

theorem values_specName (t : Token) (ts : List Token) : values (specName (t :: ts)) =
    if t.kind = .tilde then
      if kindOf ts = .openParen then (values (nameInParens ts)).map fun (n, us) => ((n, true), us)
      else (values (expect .name .variableName ts)).map fun (n, us) => ((n, true), us)
    else if atCall "Not" (t :: ts) then
      (values (nameInParens ts)).map fun (n, us) => ((n, true), us)
    else (values (expect .name .variableName (t :: ts))).map fun (n, us) => ((n, false), us) := by
  rw [specName]
  simp only
  split_ifs
  · cases nameInParens ts <;> rfl
  · cases expect .name .variableName ts <;> rfl
  · cases nameInParens ts <;> rfl
  · cases expect .name .variableName (t :: ts) <;> rfl

theorem Yields.map {r : Except QueryError β} {f : β → γ} {P : β → Prop} {Q : γ → Prop}
    (hr : Yields r P) (hf : ∀ x, P x → Q (f x)) : Yields (r.map f) Q := by
  cases r with
  | error e => exact hr
  | ok x => exact hf x hr

theorem yields_specName (ts : List Token) :
    Yields (values (specName ts)) fun ((n, negated), us) =>
      ∃ vs, ts = vs ++ us ∧ Mention vs n negated := by
  cases ts with
  | nil => exact yields_unexpected
  | cons t ts =>
    rw [values_specName]
    split_ifs with ht hparen hnot
    · refine (yields_nameInParens ts).map fun (n, us) ⟨o, c, hts, ho, hn, hc⟩ => ?_
      exact ⟨[t, o, n, c], by rw [hts]; rfl, .tildeParens ht ho hn hc⟩
    · refine (yields_expect ..).map fun (n, us) ⟨hts, hn⟩ => ?_
      exact ⟨[t, n], by rw [hts]; rfl, .tilde ht hn⟩
    · refine (yields_nameInParens ts).map fun (n, us) ⟨o, c, hts, ho, hn, hc⟩ => ?_
      obtain ⟨hk, htext, -⟩ := atCall_cons.1 hnot
      exact ⟨[t, o, n, c], by rw [hts]; rfl, .not hk htext ho hn hc⟩
    · refine (yields_expect ..).map fun (n, us) ⟨hts, hn⟩ => ?_
      exact ⟨[n], hts, .plain hn⟩

/-- A name in front of a parenthesis might be a keyword. -/
theorem values_specName_append {ts us : List Token} {n : Token} {negated : Bool}
    (h : Mention ts n negated) (hus : kindOf us ≠ .openParen) :
    values (specName (ts ++ us)) = .ok ((n, negated), us) := by
  cases h with
  | plain hn =>
    have hnot : ¬ atCall "Not" (n :: us) := fun hcall => hus (atCall_cons.1 hcall).2.2
    simp [values_specName, hn, hnot, values_expect, Except.map]
  | @tilde t n ht hn => simp [values_specName, ht, hn, kindOf, values_expect, Except.map]
  | tildeParens ht ho hn hc =>
    simp [values_specName, ht, ho, kindOf, values_nameInParens us ho hn hc, Except.map]
  | not hk htext ho hn hc =>
    simp [values_specName, hk, htext, ho, atCall, values_nameInParens us ho hn hc, Except.map]

theorem yields_specState (ts : List Token) :
    Yields (values (specState ts)) fun (state, us) => ∃ vs, ts = vs ++ us ∧ State vs state := by
  cases ts with
  | nil => exact ⟨[], rfl, .absent⟩
  | cons t ts =>
    by_cases ht : t.kind = .equals
    · cases ts with
      | nil => simp [specState, ht]
      | cons u us =>
        by_cases hu : u.kind = .name ∨ u.kind = .number
        · simp only [specState, ht, hu, if_true]
          exact ⟨[t, u], rfl, .stated ht hu⟩
        · simp [specState, ht, hu]
    · simp only [specState, ht, if_false]
      exact ⟨[], rfl, .absent⟩

theorem values_specState_append {ts us : List Token} {state : Option String} (h : State ts state)
    (hus : kindOf us ≠ .equals) : values (specState (ts ++ us)) = .ok (state, us) := by
  cases h with
  | absent =>
    cases us with
    | nil => rfl
    | cons u us => simp_all [specState, kindOf]
  | stated he hs => simp [specState, he, hs]

theorem values_spec (ts : List Token) : values (spec ts) = (do
    let ((n, negated), us) ← values (specName ts)
    let (state, vs) ← values (specState us)
    .ok (⟨n.text, negated, state, n.start⟩, vs)) := by
  rw [spec]
  cases specName ts with
  | error e => rfl
  | ok r =>
    obtain ⟨⟨⟨n, negated⟩, us⟩, h⟩ := r
    simp only [values_ok, bind, Except.bind]
    cases specState us <;> rfl

theorem yields_spec (ts : List Token) :
    Yields (values (spec ts)) fun (s, us) => ∃ vs, ts = vs ++ us ∧ Spec vs s := by
  rw [values_spec]
  refine (yields_specName ts).bind fun ((n, negated), us) ⟨vs, hts, hn⟩ => ?_
  refine (yields_specState us).bind fun (state, ws) ⟨xs, hus, hs⟩ => ?_
  exact ⟨vs ++ xs, by rw [hts, hus, List.append_assoc], .mk hn hs⟩

/-- What stands after an entry: no state, and nothing that makes a name a
    keyword. -/
theorem values_spec_append {ts us : List Token} {s : VarSpec} (h : Spec ts s)
    (hparen : kindOf us ≠ .openParen) (hequals : kindOf us ≠ .equals) :
    values (spec (ts ++ us)) = .ok (s, us) := by
  obtain ⟨hn, hs⟩ := h
  rename_i vs ws n negated state
  have hafter : kindOf (ws ++ us) ≠ .openParen := by
    cases hs with
    | absent => exact hparen
    | stated he _ => simp [kindOf, he]
  rw [values_spec, List.append_assoc, values_specName_append hn hafter]
  simp only [bind, Except.bind]
  rw [values_specState_append hs hequals]

theorem exists_cons_of_kindOf {ts : List Token} {k : TokenKind} (h : kindOf ts = k)
    (hk : k ≠ .ending) : ∃ t us, ts = t :: us ∧ t.kind = k := by
  cases ts with
  | nil => exact absurd h.symm hk
  | cons t us => exact ⟨t, us, rfl, h⟩

theorem values_specs (ts : List Token) : values (specs ts) = (do
    let (s, us) ← values (spec ts)
    if kindOf us = .comma then (values (specs us.tail)).map fun (ss, vs) => (s :: ss, vs)
    else .ok ([s], us)) := by
  rw [specs]
  cases spec ts with
  | error e => rfl
  | ok r =>
    obtain ⟨⟨s, us⟩, h⟩ := r
    simp only [values_ok, bind, Except.bind]
    cases us with
    | nil => rfl
    | cons u us =>
      by_cases hu : u.kind = .comma
      · simp only [kindOf, hu, if_true, List.tail_cons]
        cases specs us <;> rfl
      · simp [kindOf, hu]

theorem yields_specs (ts : List Token) :
    Yields (values (specs ts)) fun (ss, us) => ∃ vs, ts = vs ++ us ∧ Specs vs ss := by
  rw [values_specs]
  refine (yields_spec ts).bind fun (s, us) ⟨vs, hts, hs⟩ => ?_
  dsimp only
  split_ifs with hcomma
  · obtain ⟨c, ws, rfl, hc⟩ := exists_cons_of_kindOf hcomma (by simp)
    have hlt : ws.length < ts.length := by rw [hts, List.length_append, List.length_cons]; omega
    refine (yields_specs ws).map fun (ss, us) ⟨xs, hws, hss⟩ => ?_
    exact ⟨vs ++ c :: xs, by rw [hts, hws, List.append_assoc]; rfl, .more hs hc hss⟩
  · exact ⟨vs, hts, .one hs⟩
termination_by ts.length

/-- What stands after entries is no comma either. -/
theorem values_specs_append {ts us : List Token} {ss : List VarSpec} (h : Specs ts ss)
    (hparen : kindOf us ≠ .openParen) (hequals : kindOf us ≠ .equals)
    (hcomma : kindOf us ≠ .comma) : values (specs (ts ++ us)) = .ok (ss, us) := by
  induction h with
  | one h => simp [values_specs, values_spec_append h hparen hequals, bind, Except.bind, hcomma]
  | @more ts vs c s ss h hc _ ih =>
    have hspec : values (spec (ts ++ c :: (vs ++ us))) = .ok (s, c :: (vs ++ us)) :=
      values_spec_append h (by simp [kindOf, hc]) (by simp [kindOf, hc])
    rw [List.append_assoc, List.cons_append, values_specs, hspec]
    simp only [bind, Except.bind, kindOf, hc, if_true, List.tail_cons, ih]
    rfl

theorem values_conditions (ts : List Token) : values (conditions ts) =
    if kindOf ts = .bar then values (specs ts.tail) else .ok ([], ts) := by
  cases ts with
  | nil => rfl
  | cons t ts =>
    by_cases ht : t.kind = .bar
    · simp only [conditions, kindOf, ht, if_true, List.tail_cons]
      cases specs ts <;> rfl
    · simp [conditions, kindOf, ht]

theorem yields_conditions (ts : List Token) :
    Yields (values (conditions ts)) fun (ss, us) => ∃ vs, ts = vs ++ us ∧ Conditions vs ss := by
  rw [values_conditions]
  split_ifs with hbar
  · obtain ⟨b, us, rfl, hb⟩ := exists_cons_of_kindOf hbar (by simp)
    refine (yields_specs us).mono fun (ss, ws) ⟨vs, hus, hss⟩ => ?_
    exact ⟨b :: vs, by rw [hus]; rfl, .given hb hss⟩
  · exact ⟨[], rfl, .absent⟩

theorem values_conditions_append {ts us : List Token} {ss : List VarSpec} (h : Conditions ts ss)
    (hus : kindOf us = .closeParen) : values (conditions (ts ++ us)) = .ok (ss, us) := by
  rw [values_conditions]
  cases h with
  | absent => simp [hus]
  | given hb hs =>
    simp only [List.cons_append, kindOf, hb, if_true, List.tail_cons]
    exact values_specs_append hs (by simp [hus]) (by simp [hus]) (by simp [hus])

theorem values_probability (ts : List Token) :
    values (probability ts : Read (Expr α) ts) = (do
      let (targets, us) ← values (specs ts)
      let (given, vs) ← values (conditions us)
      let (_, ws) ← values (expect .closeParen .closeParen vs)
      .ok (.probability targets given, ws)) := by
  rw [probability]
  cases specs ts with
  | error e => rfl
  | ok r =>
    obtain ⟨⟨targets, us⟩, h⟩ := r
    simp only [Read.andThen, values_ok, values_widen, bind, Except.bind]
    cases conditions us with
    | error e => rfl
    | ok r =>
      obtain ⟨⟨given, vs⟩, h'⟩ := r
      simp only [values_ok]
      cases expect .closeParen .closeParen vs <;> rfl

theorem yields_probability (ts : List Token) :
    Yields (values (probability ts : Read (Expr α) ts)) fun (x, us) =>
      ∃ vs ws c targets given, ts = vs ++ (ws ++ [c]) ++ us ∧ Specs vs targets ∧
        Conditions ws given ∧ c.kind = .closeParen ∧ x = .probability targets given := by
  rw [values_probability]
  refine (yields_specs ts).bind fun (targets, us) ⟨vs, hts, htargets⟩ => ?_
  refine (yields_conditions us).bind fun (given, ws) ⟨xs, hus, hgiven⟩ => ?_
  refine (yields_expect ..).bind fun (c, ys) ⟨hws, hc⟩ => ?_
  exact ⟨vs, xs, c, targets, given, by simp [hts, hus, hws], htargets, hgiven, hc, rfl⟩

theorem values_probability_append {ts us vs : List Token} {targets given : List VarSpec}
    {c : Token} (ht : Specs ts targets) (hu : Conditions us given) (hc : c.kind = .closeParen) :
    values (probability (ts ++ (us ++ c :: vs)) : Read (Expr α) _) =
      .ok (.probability targets given, vs) := by
  have hafter : kindOf (us ++ c :: vs) = .closeParen ∨ kindOf (us ++ c :: vs) = .bar := by
    cases hu with
    | absent => simp [kindOf, hc]
    | given hb _ => simp [kindOf, hb]
  have htargets : values (specs (ts ++ (us ++ c :: vs))) = .ok (targets, us ++ c :: vs) := by
    refine values_specs_append ht ?_ ?_ ?_ <;> rcases hafter with h | h <;> simp [h]
  have hgiven : values (conditions (us ++ c :: vs)) = .ok (given, c :: vs) :=
    values_conditions_append hu hc
  rw [values_probability, htargets]
  simp only [bind, Except.bind, hgiven, values_expect_of_kind hc]

end JointProb.Parser
