/-
  JointProb — the tokens of queries, as they are written.

  * `Token.IsExponent`, `Token.IsNumber` and `Token.IsName` are the texts of
    exponents, numbers and names, `Token.IsLexeme` those of all tokens;
  * `Token.isLexeme_of_lexeme?`: what is taken off the front of a text is such
    a text;
  * `Token.lexeme?_append`: such a text is taken off as a whole if what
    follows does not continue it;
  * `Token.isNumber_iff`: numbers are the decimal numbers without a sign;
  * `Token.exists_of_scan`: the tokens of a text have texts of their kinds,
    and an end after them.
-/
import JointProb.Proofs.Decimal.Grammar
import JointProb.Proofs.Result
import JointProb.Query.Token

namespace JointProb.Token

open Decimal (Literal)

/-! ## Texts -/

/-- Digits only. -/
def IsDigits (ds : List Char) : Prop := ∀ c ∈ ds, c.isDigit

/-- `([eE][+-]?[0-9]+)?` -/
inductive IsExponent : List Char → Prop
  | absent : IsExponent []
  | stated {c : Char} {sign ds : List Char} (hc : c = 'e' ∨ c = 'E')
      (hsign : sign = [] ∨ sign = ['+'] ∨ sign = ['-']) (hne : ds ≠ []) (hds : IsDigits ds) :
      IsExponent (c :: (sign ++ ds))

/-- `[0-9]+(\.[0-9]*)?([eE][+-]?[0-9]+)?` or `\.[0-9]+([eE][+-]?[0-9]+)?` -/
inductive IsNumber : List Char → Prop
  | whole {ds x : List Char} (hne : ds ≠ []) (hds : IsDigits ds) (hx : IsExponent x) :
      IsNumber (ds ++ x)
  | point {ds fs x : List Char} (hne : ds ≠ [] ∨ fs ≠ []) (hds : IsDigits ds) (hfs : IsDigits fs)
      (hx : IsExponent x) : IsNumber (ds ++ '.' :: (fs ++ x))

/-- `[a-zA-Z_][a-zA-Z0-9_]*` -/
inductive IsName : List Char → Prop
  | mk {c : Char} {cs : List Char} (hc : startsName c) (hcs : ∀ d ∈ cs, continuesName d) :
      IsName (c :: cs)

/-- The texts of the kinds of tokens. -/
inductive IsLexeme : TokenKind → List Char → Prop
  | mark {c : Char} {k : TokenKind} (h : markKind? c = some k) : IsLexeme k [c]
  | doubleStar : IsLexeme .doubleStar ['*', '*']
  | number {cs : List Char} (h : IsNumber cs) : IsLexeme .number cs
  | name {cs : List Char} (h : IsName cs) : IsLexeme .name cs

/-! ## Taking a token off a text -/

theorem isDigits_takeWhile (cs : List Char) : IsDigits (cs.takeWhile Char.isDigit) :=
  fun _ hc => List.mem_takeWhile_imp hc

/-- The sign that a text starts with, if there is one, and the rest. -/
def splitSign : List Char → List Char × List Char
  | '+' :: ds => (['+'], ds)
  | '-' :: ds => (['-'], ds)
  | ds => ([], ds)

theorem exponentLexeme_cons {c : Char} (hc : c = 'e' ∨ c = 'E') (cs : List Char) :
    exponentLexeme (c :: cs) =
      if ((splitSign cs).2.takeWhile Char.isDigit).isEmpty then []
      else c :: ((splitSign cs).1 ++ (splitSign cs).2.takeWhile Char.isDigit) :=
  (if_pos hc).trans rfl

theorem splitSign_fst (cs : List Char) :
    (splitSign cs).1 = [] ∨ (splitSign cs).1 = ['+'] ∨ (splitSign cs).1 = ['-'] := by
  unfold splitSign
  split <;> simp

theorem splitSign_append {sign ds : List Char} (hsign : sign = [] ∨ sign = ['+'] ∨ sign = ['-'])
    (hds : ∀ d ∈ ds.head?, d.isDigit) : splitSign (sign ++ ds) = (sign, ds) := by
  rcases hsign with rfl | rfl | rfl
  · rw [List.nil_append]
    unfold splitSign
    split
    · exact absurd (hds '+' rfl) (by decide)
    · exact absurd (hds '-' rfl) (by decide)
    · rfl
  · rfl
  · rfl

theorem isExponent_exponentLexeme (cs : List Char) : IsExponent (exponentLexeme cs) := by
  cases cs with
  | nil => exact .absent
  | cons c cs =>
    by_cases hc : c = 'e' ∨ c = 'E'
    · rw [exponentLexeme_cons hc]
      split_ifs with hempty
      · exact .absent
      · exact .stated hc (splitSign_fst cs) (by simpa using hempty) (isDigits_takeWhile _)
    · simp only [exponentLexeme, if_neg hc]
      exact .absent

theorem isNumber_of_numberLexeme? {cs ds : List Char} (h : numberLexeme? cs = some ds) :
    IsNumber ds := by
  simp only [numberLexeme?] at h
  split at h
  · split at h
    · cases h
    · rename_i hne
      cases h
      rw [List.append_assoc]
      refine .point ?_ (isDigits_takeWhile _) (isDigits_takeWhile _) (isExponent_exponentLexeme _)
      simpa only [Literal.splitDigits, List.isEmpty_iff, not_and_or] using hne
  · split at h
    · cases h
    · rename_i hne
      cases h
      refine .whole ?_ (isDigits_takeWhile _) (isExponent_exponentLexeme _)
      simpa only [Literal.splitDigits, List.isEmpty_iff] using hne

/-- **What is taken off the front of a text is the text of a token.** -/
theorem isLexeme_of_lexeme? {c : Char} {cs ds : List Char} {k : TokenKind}
    (h : lexeme? c cs = some (k, ds)) : IsLexeme k ds := by
  simp only [lexeme?] at h
  split at h
  · cases h
    exact .doubleStar
  · split at h
    · rename_i kind hkind
      cases h
      exact .mark hkind
    · split at h
      · rename_i hstart
        cases h
        exact .name (.mk hstart fun d hd => List.mem_takeWhile_imp hd)
      · obtain ⟨ds, hds, he⟩ := Option.map_eq_some_iff.1 h
        cases he
        exact .number (isNumber_of_numberLexeme? hds)

/-! ## Heads of texts -/

theorem IsDigits.head {ds : List Char} (h : IsDigits ds) : ∀ c ∈ ds.head?, c.isDigit :=
  fun c hc => h c (List.mem_of_mem_head? hc)

theorem not_digit_of_exponent {c : Char} (h : c = 'e' ∨ c = 'E') : c.isDigit = false := by
  rcases h with rfl | rfl <;> rfl

/-! ## Numbers as literals -/

theorem IsExponent.exists_exponent {x : List Char} (h : IsExponent x) :
    ∃ e, Literal.Exponent x e := by
  cases h with
  | absent => exact ⟨0, .absent⟩
  | stated hc hsign hne hds =>
    rcases hsign with rfl | rfl | rfl
    · exact ⟨_, .stated hc .absent hne hds⟩
    · exact ⟨_, .stated hc .plus hne hds⟩
    · exact ⟨_, .stated hc .minus hne hds⟩

theorem isExponent_of_exponent {x : List Char} {e : Int} (h : Literal.Exponent x e) :
    IsExponent x := by
  cases h with
  | absent => exact .absent
  | stated hc hsign hne hds =>
    refine .stated hc ?_ hne hds
    cases hsign <;> simp

/-- **The numbers of queries are the decimal numbers without a sign.** -/
theorem isNumber_iff {cs : List Char} : IsNumber cs ↔ ∃ n e, Literal.Unsigned cs n e := by
  constructor
  · rintro (⟨hne, hds, hx⟩ | ⟨hne, hds, hfs, hx⟩)
    · obtain ⟨e, he⟩ := hx.exists_exponent
      exact ⟨_, _, .mk hds .absent (.inl hne) he⟩
    · obtain ⟨e, he⟩ := hx.exists_exponent
      exact ⟨_, _, .mk hds (.point hfs) hne he⟩
  · rintro ⟨n, e, hds, hfraction, hne, hx⟩
    have hexponent := isExponent_of_exponent hx
    cases hfraction with
    | absent => exact .whole (by simpa using hne) hds hexponent
    | point hfs => exact .point hne hds hfs hexponent

/-- **Every number has a value.** -/
theorem IsNumber.exists_read? {cs : List Char} (h : IsNumber cs) :
    ∃ n e, Literal.read? cs = some (.finite false n e) := by
  obtain ⟨n, e, hunsigned⟩ := isNumber_iff.1 h
  exact ⟨n, e, (Literal.Denotes.finite .absent hunsigned).read?_eq⟩

theorem IsNumber.exists_cons {cs : List Char} (h : IsNumber cs) :
    ∃ c ds, cs = c :: ds ∧ (c.isDigit ∨ c = '.') := by
  obtain ⟨n, e, hunsigned⟩ := isNumber_iff.1 h
  exact hunsigned.exists_cons

/-! ## Where a token ends -/

theorem exponentLexeme_append {x cs : List Char} (hx : IsExponent x)
    (hcs : ∀ c ∈ cs.head?, c.isDigit = false ∧ ¬ (c = 'e' ∨ c = 'E')) :
    exponentLexeme (x ++ cs) = x := by
  cases hx with
  | absent =>
    cases cs with
    | nil => rfl
    | cons c cs => exact if_neg (hcs c rfl).2
  | @stated c sign ds hc hsign hne hds =>
    have hsplit : splitSign (sign ++ ds ++ cs) = (sign, ds ++ cs) := by
      rw [List.append_assoc]
      refine splitSign_append hsign fun d hd => hds.head d ?_
      rwa [List.head?_append_of_ne_nil ds hne] at hd
    rw [List.cons_append, exponentLexeme_cons hc, hsplit,
      Text.takeWhile_append hds fun c h => (hcs c h).1, if_neg (by simpa using hne)]

theorem numberLexeme?_append {ds cs : List Char} (h : IsNumber ds)
    (hcs : ∀ c ∈ cs.head?, c.isDigit = false ∧ c ≠ '.' ∧ ¬ (c = 'e' ∨ c = 'E')) :
    numberLexeme? (ds ++ cs) = some ds := by
  have hexp : ∀ {x}, IsExponent x → exponentLexeme (x ++ cs) = x ∧
      ∀ c ∈ (x ++ cs).head?, c.isDigit = false ∧ c ≠ '.' := by
    intro x hx
    refine ⟨exponentLexeme_append hx fun c h => ⟨(hcs c h).1, (hcs c h).2.2⟩, fun c hc => ?_⟩
    cases hx with
    | absent => exact ⟨(hcs c hc).1, (hcs c hc).2.1⟩
    | stated he =>
      obtain rfl : _ = c := by simpa using hc
      exact ⟨not_digit_of_exponent he, by rcases he with rfl | rfl <;> decide⟩
  obtain ⟨hne, hds, hx⟩ | ⟨hne, hds, hfs, hx⟩ := h
  · rename_i ds x
    obtain ⟨hlex, hhead⟩ := hexp hx
    have hsplit : Literal.splitDigits (ds ++ (x ++ cs)) = (ds, x ++ cs) :=
      Prod.ext (Text.takeWhile_append hds fun c h => (hhead c h).1)
        (Text.dropWhile_append hds fun c h => (hhead c h).1)
    rw [List.append_assoc, numberLexeme?]
    simp only [hsplit]
    split
    · rename_i rest heq
      exact absurd rfl (hhead '.' (by simp [heq])).2
    · rw [if_neg (by simpa using hne), hlex]
  · rename_i ds fs x
    obtain ⟨hlex, hhead⟩ := hexp hx
    have hwhole : Literal.splitDigits (ds ++ '.' :: (fs ++ (x ++ cs))) =
        (ds, '.' :: (fs ++ (x ++ cs))) :=
      Prod.ext (Text.takeWhile_append hds (by simp)) (Text.dropWhile_append hds (by simp))
    have hfraction : Literal.splitDigits (fs ++ (x ++ cs)) = (fs, x ++ cs) :=
      Prod.ext (Text.takeWhile_append hfs fun c h => (hhead c h).1)
        (Text.dropWhile_append hfs fun c h => (hhead c h).1)
    have hempty : ¬ (ds.isEmpty ∧ fs.isEmpty) := by
      simpa only [List.isEmpty_iff, not_and_or] using hne
    rw [List.append_assoc, List.cons_append, List.append_assoc, numberLexeme?]
    simp only [hwhole, hfraction, if_neg hempty, hlex]
    rw [List.append_assoc]
    rfl

/-- A text that does not go on with the token in front of it. -/
def Ends (k : TokenKind) (cs : List Char) : Prop :=
  match k with
  | .number | .name => ∀ c ∈ cs.head?, continuesName c = false ∧ c ≠ '.'
  | .star => cs.head? ≠ some '*'
  | _ => True

/-- Marks are neither in names nor in numbers, and stand between no tokens. -/
theorem of_markKind? {c : Char} {k : TokenKind} (h : markKind? c = some k) :
    continuesName c = false ∧ c ≠ '.' ∧ separates c = false := by
  unfold markKind? at h
  split at h <;> cases h <;> decide

theorem markKind?_eq_none {c : Char} (h : continuesName c ∨ c = '.') : markKind? c = none := by
  rw [Option.eq_none_iff_forall_ne_some]
  intro k hk
  obtain ⟨hname, hpoint, -⟩ := of_markKind? hk
  rcases h with h | h
  · simp [hname] at h
  · exact hpoint h

theorem continuesName_of_startsName {c : Char} (h : startsName c) : continuesName c := by
  simp only [startsName, continuesName, Char.isAlphanum, Bool.or_eq_true] at h ⊢
  tauto

theorem continuesName_of_isDigit {c : Char} (h : c.isDigit) : continuesName c := by
  simp [continuesName, Char.isAlphanum, h]

theorem not_startsName_of_isDigit {c : Char} (h : c.isDigit) : startsName c = false := by
  rw [← Bool.not_eq_true, startsName, Bool.or_eq_true, Text.isAlpha_iff, beq_iff_eq]
  rw [Text.isDigit_iff] at h
  rintro (hc | rfl)
  · omega
  · simp at h

theorem not_separates_of_continuesName {c : Char} (h : continuesName c) : separates c = false := by
  rw [← Bool.not_eq_true]
  intro hc
  simp only [separates, Bool.or_eq_true, beq_iff_eq] at hc
  rcases hc with ((rfl | rfl) | rfl) | rfl <;> simp [continuesName] at h

theorem IsLexeme.exists_cons {k : TokenKind} {cs : List Char} (h : IsLexeme k cs) :
    ∃ c ds, cs = c :: ds ∧ separates c = false := by
  cases h with
  | mark h => exact ⟨_, _, rfl, (of_markKind? h).2.2⟩
  | doubleStar => exact ⟨_, _, rfl, rfl⟩
  | number h =>
    obtain ⟨c, ds, rfl, hc⟩ := h.exists_cons
    refine ⟨c, ds, rfl, ?_⟩
    rcases hc with hc | rfl
    · exact not_separates_of_continuesName (continuesName_of_isDigit hc)
    · rfl
  | name h =>
    obtain ⟨hc, -⟩ := h
    exact ⟨_, _, rfl, not_separates_of_continuesName (continuesName_of_startsName hc)⟩

/-- **The text of a token is taken off as a whole**, if what follows does not
    go on with it. -/
theorem lexeme?_append {k : TokenKind} {c : Char} {cs ds : List Char} (h : IsLexeme k (c :: cs))
    (hds : Ends k ds) : lexeme? c (cs ++ ds) = some (k, c :: cs) := by
  cases h with
  | mark hk =>
    have hstar : ¬ (c = '*' ∧ ds.head? = some '*') := by
      rintro ⟨rfl, hhead⟩
      cases hk
      exact hds hhead
    rw [lexeme?, List.nil_append, if_neg hstar, hk]
  | doubleStar => rfl
  | number h =>
    obtain ⟨_, _, he, hc⟩ := h.exists_cons
    cases he
    have hname : startsName c = false := by
      rcases hc with hc | rfl
      · exact not_startsName_of_isDigit hc
      · rfl
    have hstar : c ≠ '*' := by
      rintro rfl
      simp at hc
    have hnum : numberLexeme? (c :: cs ++ ds) = some (c :: cs) := by
      refine numberLexeme?_append h fun d hd => ?_
      obtain ⟨hcont, hpoint⟩ := hds d hd
      refine ⟨Bool.eq_false_iff.2 fun hdigit => ?_, hpoint, ?_⟩
      · simp [continuesName_of_isDigit hdigit] at hcont
      · rintro (rfl | rfl) <;> simp [continuesName] at hcont
    simp only [lexeme?, hstar, markKind?_eq_none (hc.imp_left continuesName_of_isDigit), hname,
      false_and, if_false]
    exact congrArg (Option.map _) hnum
  | name h =>
    obtain ⟨hc, hcs⟩ := h
    have hstar : c ≠ '*' := by
      rintro rfl
      simp [startsName] at hc
    simp only [lexeme?, hstar, markKind?_eq_none (.inl (continuesName_of_startsName hc)), hc,
      false_and, if_false, if_true]
    rw [Text.takeWhile_append hcs fun c h => (hds c h).1]

/-! ## Scanning -/

theorem scanFrom_separator {c : Char} (hc : separates c) (position : Nat) (cs : List Char) :
    scanFrom position (c :: cs) = scanFrom (position + c.utf8Size) cs := by
  rw [scanFrom, if_pos hc]

theorem scanFrom_cons {c : Char} (hc : separates c = false) (position : Nat) (cs : List Char) :
    scanFrom position (c :: cs) = match lexeme? c cs with
      | none => .error (.malformed position (.unexpectedCharacter c))
      | some (kind, text) =>
        (scanFrom (position + byteLength text) ((c :: cs).drop text.length)).map
          (⟨kind, String.ofList text, position, position + byteLength text⟩ :: ·) := by
  rw [scanFrom, if_neg (by simp [hc])]
  split <;> simp [*]

theorem exists_of_scanFrom {position : Nat} {cs : List Char} {ts : List Token}
    (h : scanFrom position cs = .ok ts) : ∃ us e, ts = us ++ [e] ∧ e.kind = .ending ∧
      ∀ t ∈ us, IsLexeme t.kind t.text.toList := by
  induction position, cs using scanFrom.induct generalizing ts with
  | case1 position =>
    rw [scanFrom] at h
    cases h
    exact ⟨[], _, rfl, rfl, by simp⟩
  | case2 position c cs hc ih =>
    rw [scanFrom_separator hc] at h
    exact ih h
  | case3 position c cs hc hlex =>
    rw [scanFrom_cons (by simpa using hc), hlex] at h
    cases h
  | case4 position c cs hc kind text hlex hpos stop =>
    rename_i ih
    rw [scanFrom_cons (by simpa using hc), hlex] at h
    obtain ⟨us, hus, rfl⟩ := map_eq_ok.1 h
    obtain ⟨vs, e, rfl, he, hvs⟩ := ih hus
    refine ⟨_ :: vs, e, rfl, he, List.forall_mem_cons.2 ⟨?_, hvs⟩⟩
    simpa using isLexeme_of_lexeme? hlex

/-- **The tokens of a query have texts of their kinds**, and an end after
    them. -/
theorem exists_of_scan {source : String} {ts : List Token} (h : scan source = .ok ts) :
    ∃ us e, ts = us ++ [e] ∧ e.kind = .ending ∧ ∀ t ∈ us, IsLexeme t.kind t.text.toList :=
  exists_of_scanFrom h

theorem IsLexeme.ne_ending {k : TokenKind} {cs : List Char} (h : IsLexeme k cs) : k ≠ .ending := by
  cases h with
  | @mark c k h =>
    unfold markKind? at h
    split at h <;> cases h <;> simp
  | doubleStar | number | name => simp

theorem IsLexeme.isNumber {cs : List Char} (h : IsLexeme .number cs) : IsNumber cs := by
  cases h with
  | mark h =>
    unfold markKind? at h
    split at h <;> cases h
  | number h => exact h

theorem IsLexeme.isName {cs : List Char} (h : IsLexeme .name cs) : IsName cs := by
  cases h with
  | mark h =>
    unfold markKind? at h
    split at h <;> cases h
  | name h => exact h

/-- Blanks in front of a text move it. -/
theorem scanFrom_blanks {blanks : List Char} (h : ∀ c ∈ blanks, separates c) (position : Nat)
    (cs : List Char) :
    scanFrom position (blanks ++ cs) = scanFrom (position + byteLength blanks) cs := by
  induction blanks generalizing position with
  | nil => rfl
  | cons c blanks ih =>
    rw [List.forall_mem_cons] at h
    rw [List.cons_append, scanFrom_separator h.1, ih h.2, byteLength, Nat.add_assoc]

/-- A token in front of a text is scanned first. -/
theorem scanFrom_lexeme {k : TokenKind} {ds cs : List Char} (h : IsLexeme k ds) (hcs : Ends k cs)
    (position : Nat) :
    scanFrom position (ds ++ cs) = (scanFrom (position + byteLength ds) cs).map
      (⟨k, String.ofList ds, position, position + byteLength ds⟩ :: ·) := by
  obtain ⟨c, ds, rfl, hc⟩ := h.exists_cons
  rw [List.cons_append, scanFrom_cons hc, lexeme?_append h hcs]
  simp only [← List.cons_append, List.drop_left]

end JointProb.Token
