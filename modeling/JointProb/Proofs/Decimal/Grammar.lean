/-
  JointProb — the grammar of decimal numbers.

      literal  := sign? (unsigned | inf | infinity | nan)
      unsigned := (digits (. digits?)? | . digits) exponent?
      exponent := (e | E) sign? digits

  * `Literal.Sign`, `Literal.Fraction` and `Literal.Exponent` are the parts of
    literals and what they stand for, `Literal.Unsigned` puts them together;
  * `Literal.Denotes` says of a text which literal it is;
  * `Literal.read?_eq_some_iff`: what is read is what is denoted.
-/
import JointProb.Decimal.Literal
import JointProb.Proofs.Text.Char
import JointProb.Proofs.Text.Run
import Mathlib.Data.List.TakeWhile

namespace JointProb.Decimal.Literal

variable {cs sign word fraction fs x : List Char} {negative : Bool} {n : Nat} {e : Int}

/-! ## Rules -/

/-- `[+-]?`, and whether the sign is a minus. -/
inductive Sign : List Char → Bool → Prop
  | absent : Sign [] false
  | plus : Sign ['+'] false
  | minus : Sign ['-'] true

/-- `(\.[0-9]*)?`, and the digits behind the point. -/
inductive Fraction : List Char → List Char → Prop
  | absent : Fraction [] []
  | point {ds : List Char} (hds : ∀ c ∈ ds, c.isDigit) : Fraction ('.' :: ds) ds

/-- `([eE][+-]?[0-9]+)?`, and the power of ten that it names. -/
inductive Exponent : List Char → Int → Prop
  | absent : Exponent [] 0
  | stated {c : Char} {sign ds : List Char} {negative : Bool} (hc : c = 'e' ∨ c = 'E')
      (hsign : Sign sign negative) (hne : ds ≠ []) (hds : ∀ c ∈ ds, c.isDigit) :
      Exponent (c :: (sign ++ ds))
        (if negative then -(Nat.ofDigitChars 10 ds 0 : Int) else Nat.ofDigitChars 10 ds 0)

/-- A number without a sign: its digits, on both sides of the point, and the power
    of ten that the last one counts. -/
inductive Unsigned : List Char → Nat → Int → Prop
  | mk {ds fraction fs x : List Char} {e : Int} (hds : ∀ c ∈ ds, c.isDigit)
      (hfraction : Fraction fraction fs) (hne : ds ≠ [] ∨ fs ≠ []) (hx : Exponent x e) :
      Unsigned (ds ++ (fraction ++ x)) (Nat.ofDigitChars 10 (ds ++ fs) 0) (e - fs.length)

/-- The literal that a text is.  The words may have letters of either case. -/
inductive Denotes : List Char → Literal → Prop
  | finite {sign cs : List Char} {negative : Bool} {n : Nat} {e : Int}
      (hsign : Sign sign negative) (h : Unsigned cs n e) :
      Denotes (sign ++ cs) (.finite negative n e)
  | infinite {sign word : List Char} {negative : Bool} (hsign : Sign sign negative)
      (hword : word.map Char.toLower = "inf".toList ∨
        word.map Char.toLower = "infinity".toList) :
      Denotes (sign ++ word) (.infinite negative)
  | notANumber {sign word : List Char} {negative : Bool} (hsign : Sign sign negative)
      (hword : word.map Char.toLower = "nan".toList) : Denotes (sign ++ word) .notANumber

/-! ## Signs -/

theorem exists_sign (cs : List Char) :
    ∃ sign, Sign sign (splitSign cs).1 ∧ cs = sign ++ (splitSign cs).2 := by
  unfold splitSign
  split
  · exact ⟨['-'], .minus, rfl⟩
  · exact ⟨['+'], .plus, rfl⟩
  · exact ⟨[], .absent, rfl⟩

theorem splitSign_of_head (hcs : ∀ c ∈ cs.head?, c ≠ '+' ∧ c ≠ '-') :
    splitSign cs = (false, cs) := by
  unfold splitSign
  split
  · exact absurd rfl (hcs '-' rfl).2
  · exact absurd rfl (hcs '+' rfl).1
  · rfl

theorem Sign.splitSign_append (h : Sign sign negative)
    (hcs : ∀ c ∈ cs.head?, c ≠ '+' ∧ c ≠ '-') : splitSign (sign ++ cs) = (negative, cs) := by
  cases h with
  | absent => exact splitSign_of_head hcs
  | plus => rfl
  | minus => rfl

theorem ne_sign_of_isDigit {c : Char} (h : c.isDigit) : c ≠ '+' ∧ c ≠ '-' := by
  constructor <;> rintro rfl <;> cases h

/-! ## Exponents -/

theorem Exponent.head (h : Exponent x e) : ∀ c ∈ x.head?, c = 'e' ∨ c = 'E' := by
  cases h with
  | absent => simp
  | stated hc => simpa using hc

/-- An exponent goes on with neither the digits nor the point in front of it. -/
theorem Exponent.head_ends (h : Exponent x e) : ∀ c ∈ x.head?, c.isDigit = false ∧ c ≠ '.' := by
  intro c hc
  rcases h.head c hc with rfl | rfl <;> exact ⟨rfl, by decide⟩

theorem exponent_of_readExponent? (h : readExponent? x = some e) : Exponent x e := by
  cases x with
  | nil =>
    cases h
    exact .absent
  | cons c cs =>
    simp only [readExponent?] at h
    split_ifs at h with hletter hdigits hnegative
    all_goals
      obtain ⟨sign, hsign, hcs⟩ := exists_sign cs
      rw [not_or, not_not, List.isEmpty_iff, List.all_eq_true] at hdigits
      have hstated := Exponent.stated hletter hsign hdigits.1 hdigits.2
      rw [← hcs] at hstated
      cases h
      simpa only [hnegative, Bool.false_eq_true, if_true, if_false] using hstated

theorem Exponent.readExponent?_eq (h : Exponent x e) : readExponent? x = some e := by
  cases h with
  | absent => rfl
  | @stated c sign ds negative hc hsign hne hds =>
    have hsplit : splitSign (sign ++ ds) = (negative, ds) :=
      hsign.splitSign_append fun d hd => ne_sign_of_isDigit (hds d (List.mem_of_mem_head? hd))
    have hdigits : ¬ (ds.isEmpty ∨ ¬ ds.all Char.isDigit) := by
      rw [not_or, not_not, List.isEmpty_iff, List.all_eq_true]
      exact ⟨hne, hds⟩
    simp only [readExponent?, if_pos hc, hsplit, if_neg hdigits]

/-! ## Numbers without a sign -/

theorem exists_fraction (cs : List Char) :
    ∃ fraction, Fraction fraction (splitFraction cs).1 ∧ cs = fraction ++ (splitFraction cs).2 := by
  unfold splitFraction
  split
  · refine ⟨_, .point (fun _ hc => List.mem_takeWhile_imp hc), ?_⟩
    rw [List.cons_append, splitDigits, List.takeWhile_append_dropWhile]
  · exact ⟨[], .absent, rfl⟩

theorem Fraction.splitFraction_append (h : Fraction fraction fs)
    (hcs : ∀ c ∈ cs.head?, c.isDigit = false ∧ c ≠ '.') :
    splitFraction (fraction ++ cs) = (fs, cs) := by
  have hdigit : ∀ c ∈ cs.head?, c.isDigit = false := fun c hc => (hcs c hc).1
  cases h with
  | absent =>
    rw [List.nil_append]
    unfold splitFraction
    split
    · exact absurd rfl (hcs '.' rfl).2
    · rfl
  | point hds => exact Prod.ext (Text.takeWhile_append hds hdigit) (Text.dropWhile_append hds hdigit)

theorem unsigned_of_readFinite? {l : Literal} (h : readFinite? negative cs = some l) :
    ∃ n e, Unsigned cs n e ∧ l = .finite negative n e := by
  simp only [readFinite?] at h
  split_ifs at h with hempty
  obtain ⟨e, he, rfl⟩ := Option.map_eq_some_iff.1 h
  obtain ⟨fraction, hfraction, hrest⟩ := exists_fraction (splitDigits cs).2
  have hcs : cs = (splitDigits cs).1 ++ (fraction ++ (splitFraction (splitDigits cs).2).2) := by
    rw [← hrest]
    exact List.takeWhile_append_dropWhile.symm
  have hds : ∀ c ∈ (splitDigits cs).1, c.isDigit := fun _ hc => List.mem_takeWhile_imp hc
  rw [not_and_or, List.isEmpty_iff, List.isEmpty_iff] at hempty
  have hunsigned := Unsigned.mk hds hfraction hempty (exponent_of_readExponent? he)
  rw [← hcs] at hunsigned
  exact ⟨_, _, hunsigned, rfl⟩

theorem Unsigned.readFinite?_eq (h : Unsigned cs n e) (negative : Bool) :
    readFinite? negative cs = some (.finite negative n e) := by
  obtain ⟨hds, hfraction, hne, hx⟩ := h
  rename_i ds fraction fs x e
  have hrest : ∀ c ∈ (fraction ++ x).head?, c.isDigit = false := by
    cases hfraction with
    | absent => exact fun c hc => (hx.head_ends c hc).1
    | point => simp
  have hwhole : splitDigits (ds ++ (fraction ++ x)) = (ds, fraction ++ x) :=
    Prod.ext (Text.takeWhile_append hds hrest) (Text.dropWhile_append hds hrest)
  have hempty : ¬ (ds.isEmpty ∧ fs.isEmpty) := by
    rwa [List.isEmpty_iff, List.isEmpty_iff, not_and_or]
  simp only [readFinite?, hwhole, hfraction.splitFraction_append hx.head_ends, if_neg hempty,
    hx.readExponent?_eq, Option.map_some]

theorem Unsigned.exists_cons (h : Unsigned cs n e) :
    ∃ c ds, cs = c :: ds ∧ (c.isDigit ∨ c = '.') := by
  obtain ⟨hds, hfraction, hne, -⟩ := h
  rename_i ds fraction fs x e
  cases ds with
  | cons d ds => exact ⟨d, _, rfl, .inl (hds d (List.mem_cons_self ..))⟩
  | nil =>
    cases hfraction with
    | absent => simp at hne
    | point => exact ⟨'.', _, rfl, .inr rfl⟩

/-- Such a number is none of the words. -/
theorem Unsigned.map_toLower_ne {d : Char} {ds : List Char} (h : Unsigned cs n e)
    (hd : d.isLower) : cs.map Char.toLower ≠ d :: ds := by
  obtain ⟨c, cs, rfl, hc⟩ := h.exists_cons
  intro heq
  obtain ⟨rfl, -⟩ := List.cons.inj heq
  rcases hc with hc | rfl
  · rw [Text.isDigit_iff] at hc
    have hupper : c.isUpper = false := by
      rw [← Bool.not_eq_true, Text.isUpper_iff]
      omega
    rw [Text.toLower_eq_self hupper, Text.isLower_iff] at hd
    omega
  · exact absurd hd (by decide)

/-! ## Literals -/

/-- What is another character in lower case is no sign. -/
theorem ne_sign_of_map_toLower {d : Char} {ds : List Char}
    (h : word.map Char.toLower = d :: ds) (hd : d ≠ '+' ∧ d ≠ '-') :
    ∀ c ∈ word.head?, c ≠ '+' ∧ c ≠ '-' := by
  obtain ⟨c, cs, rfl, hc, -⟩ := List.map_eq_cons_iff.1 h
  rintro _ ⟨⟩
  constructor <;> rintro rfl
  · exact hd.1 hc.symm
  · exact hd.2 hc.symm

theorem denotes_of_read? {l : Literal} (h : read? cs = some l) : Denotes cs l := by
  obtain ⟨sign, hsign, hcs⟩ := exists_sign cs
  simp only [read?] at h
  rw [hcs]
  split_ifs at h with hinfinite hnan
  · cases h
    exact .infinite hsign hinfinite
  · cases h
    exact .notANumber hsign hnan
  · obtain ⟨n, e, hunsigned, rfl⟩ := unsigned_of_readFinite? h
    exact .finite hsign hunsigned

theorem Denotes.read?_eq {l : Literal} (h : Denotes cs l) : read? cs = some l := by
  cases h with
  | @finite sign cs negative n e hsign h =>
    have hhead : ∀ c ∈ cs.head?, c ≠ '+' ∧ c ≠ '-' := by
      obtain ⟨c, ds, rfl, hc⟩ := h.exists_cons
      rintro _ ⟨⟩
      rcases hc with hc | rfl
      · exact ne_sign_of_isDigit hc
      · decide
    have hinf : cs.map Char.toLower ≠ "inf".toList := h.map_toLower_ne (by decide)
    have hinfinity : cs.map Char.toLower ≠ "infinity".toList := h.map_toLower_ne (by decide)
    have hnan : cs.map Char.toLower ≠ "nan".toList := h.map_toLower_ne (by decide)
    simp only [read?, hsign.splitSign_append hhead, hinf, hinfinity, hnan, or_self, if_false]
    exact h.readFinite?_eq negative
  | infinite hsign hword =>
    have hhead := hword.elim (ne_sign_of_map_toLower · (by decide))
      (ne_sign_of_map_toLower · (by decide))
    simp only [read?, hsign.splitSign_append hhead, hword, if_true]
  | notANumber hsign hword =>
    have hhead := ne_sign_of_map_toLower hword (by decide)
    simp only [read?, hsign.splitSign_append hhead, hword]
    rfl

/-- **What is read is what is denoted.** -/
theorem read?_eq_some_iff {l : Literal} : read? cs = some l ↔ Denotes cs l :=
  ⟨denotes_of_read?, Denotes.read?_eq⟩

end JointProb.Decimal.Literal
