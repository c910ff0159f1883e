/-
  JointProb — the longest token that a text starts with.

  A text may start with several tokens: `1e5` starts with `1` and with all of
  itself, `1e+` with `1` only, and two stars with one of them.

  * `Token.IsLongest` holds of the longest one, by the texts of the kinds alone;
  * `Token.lexeme?_eq_some_iff` and `Token.lexeme?_eq_none_iff`: it is what is
    taken off the front of a text, and nothing is if there is none;
  * `Token.IsLongest.cut`: tokens have no blanks, so what stands behind one does
    not matter.
-/
import JointProb.Proofs.Query.Layout

namespace JointProb.Token

open Decimal (Literal)

/-- The longest of the tokens that a text starts with. -/
structure IsLongest (k : TokenKind) (ds cs : List Char) : Prop where
  isLexeme : IsLexeme k ds
  starts : ds <+: cs
  length_le {k' : TokenKind} {ds' : List Char} (h : IsLexeme k' ds') (hstart : ds' <+: cs) :
    ds'.length ≤ ds.length

/-- A text that starts with no token. -/
def StartsNone (cs : List Char) : Prop := ∀ k ds, IsLexeme k ds → ¬ ds <+: cs

/-! ## What is taken off stands there -/

theorem splitSign_append_self (cs : List Char) : (splitSign cs).1 ++ (splitSign cs).2 = cs := by
  unfold splitSign
  split <;> rfl

theorem exponentLexeme_starts (cs : List Char) : exponentLexeme cs <+: cs := by
  cases cs with
  | nil => exact List.nil_prefix
  | cons c cs =>
    by_cases hc : c = 'e' ∨ c = 'E'
    · rw [exponentLexeme_cons hc]
      split_ifs
      · exact List.nil_prefix
      · rw [List.cons_prefix_cons]
        refine ⟨rfl, ?_⟩
        conv_rhs => rw [← splitSign_append_self cs]
        rw [List.prefix_append_right_inj]
        exact List.takeWhile_prefix _
    · simp only [exponentLexeme, if_neg hc]
      exact List.nil_prefix

/-- Digits and an exponent after them. -/
theorem digits_exponent_starts (cs : List Char) :
    cs.takeWhile Char.isDigit ++ exponentLexeme (cs.dropWhile Char.isDigit) <+: cs := by
  conv_rhs => rw [← List.takeWhile_append_dropWhile (p := Char.isDigit) (l := cs)]
  rw [List.prefix_append_right_inj]
  exact exponentLexeme_starts _

theorem numberLexeme?_starts {cs ds : List Char} (h : numberLexeme? cs = some ds) : ds <+: cs := by
  have hcs : cs.takeWhile Char.isDigit ++ cs.dropWhile Char.isDigit = cs :=
    List.takeWhile_append_dropWhile
  simp only [numberLexeme?] at h
  split at h
  · next rest hrest =>
    change cs.dropWhile Char.isDigit = '.' :: rest at hrest
    split at h
    · cases h
    · cases h
      rw [hrest] at hcs
      conv_rhs => rw [← hcs]
      rw [List.append_assoc, List.cons_append, Literal.splitDigits, List.prefix_append_right_inj,
        List.cons_prefix_cons]
      exact ⟨rfl, digits_exponent_starts rest⟩
  · split at h
    · cases h
    · cases h
      exact digits_exponent_starts cs

theorem lexeme?_starts {c : Char} {cs ds : List Char} {k : TokenKind}
    (h : lexeme? c cs = some (k, ds)) : ds <+: c :: cs := by
  simp only [lexeme?] at h
  split at h
  · next hstars =>
    cases h
    obtain ⟨rfl, hhead⟩ := hstars
    obtain ⟨cs', rfl⟩ := List.head?_eq_some_iff.1 hhead
    simp
  · split at h
    · cases h
      simp
    · split at h
      · cases h
        exact List.cons_prefix_cons.2 ⟨rfl, List.takeWhile_prefix _⟩
      · obtain ⟨_, hn, he⟩ := Option.map_eq_some_iff.1 h
        cases he
        exact numberLexeme?_starts hn

/-! ## No token that stands there is longer -/

theorem IsExponent.length_le {x : List Char} (h : IsExponent x) (rest : List Char) :
    x.length ≤ (exponentLexeme (x ++ rest)).length := by
  cases h with
  | absent => exact Nat.zero_le _
  | @stated c sign ds hc hsign hne hds =>
    have hsplit : splitSign (sign ++ ds ++ rest) = (sign, ds ++ rest) := by
      rw [List.append_assoc]
      refine splitSign_append hsign fun d hd => hds.head d ?_
      rwa [List.head?_append_of_ne_nil ds hne] at hd
    rw [List.cons_append, exponentLexeme_cons hc, hsplit, List.takeWhile_append_of_pos hds,
      if_neg (by simp [hne])]
    simp only [List.length_cons, List.length_append]
    omega

/-- Digits and an exponent are taken off as a whole, or more digits are. -/
theorem length_le_of_digits {ds x : List Char} (hds : IsDigits ds) (hx : IsExponent x)
    (rest : List Char) : ds.length + x.length ≤
      ((ds ++ (x ++ rest)).takeWhile Char.isDigit).length +
        (exponentLexeme ((ds ++ (x ++ rest)).dropWhile Char.isDigit)).length := by
  cases hx with
  | absent =>
    rw [List.takeWhile_append_of_pos hds, List.length_append, List.length_nil]
    omega
  | @stated e sign es he hsign hne hes =>
    have hlen := (IsExponent.stated he hsign hne hes).length_le rest
    have hhead : ∀ c ∈ (e :: (sign ++ es) ++ rest).head?, c.isDigit = false := by
      simpa using not_digit_of_exponent he
    rw [Text.takeWhile_append hds hhead, Text.dropWhile_append hds hhead]
    omega

theorem IsNumber.exists_numberLexeme? {ds : List Char} (h : IsNumber ds) (rest : List Char) :
    ∃ ds', numberLexeme? (ds ++ rest) = some ds' ∧ ds.length ≤ ds'.length := by
  obtain ⟨hne, hds, hx⟩ | ⟨hne, hds, hfs, hx⟩ := h
  · rename_i ds x
    have hlen := length_le_of_digits hds hx rest
    have hwhole : ((ds ++ (x ++ rest)).takeWhile Char.isDigit) ≠ [] := by
      rw [List.takeWhile_append_of_pos hds]
      simp [hne]
    rw [List.append_assoc, numberLexeme?]
    simp only [Literal.splitDigits, List.isEmpty_iff, hwhole, false_and, if_false]
    split
    · next after hafter =>
      -- a point goes on with the digits, and there is no exponent to compare with
      rw [hafter] at hlen
      refine ⟨_, rfl, ?_⟩
      simp only [exponentLexeme, List.length_append, List.length_cons] at hlen ⊢
      simp at hlen
      omega
    · refine ⟨_, rfl, ?_⟩
      rwa [List.length_append, List.length_append]
  · rename_i ds fs x
    have hlen := length_le_of_digits hfs hx rest
    have hwhole : (ds ++ '.' :: (fs ++ (x ++ rest))).takeWhile Char.isDigit = ds :=
      Text.takeWhile_append hds (by simp)
    have hpoint : (ds ++ '.' :: (fs ++ (x ++ rest))).dropWhile Char.isDigit =
        '.' :: (fs ++ (x ++ rest)) := Text.dropWhile_append hds (by simp)
    have hempty : ¬ (ds.isEmpty ∧ ((fs ++ (x ++ rest)).takeWhile Char.isDigit).isEmpty) := by
      rw [List.takeWhile_append_of_pos hfs, List.isEmpty_iff, List.isEmpty_iff,
        List.append_eq_nil_iff]
      exact fun h => hne.elim (· h.1) (· h.2.1)
    rw [List.append_assoc, List.cons_append, List.append_assoc, numberLexeme?]
    simp only [Literal.splitDigits, hwhole, hpoint, if_neg hempty]
    refine ⟨_, rfl, ?_⟩
    simp only [List.length_append, List.length_cons] at hlen ⊢
    omega

/-- Where some token stands, one is taken off that is not shorter. -/
theorem IsLexeme.exists_lexeme? {k : TokenKind} {c : Char} {cs ds : List Char}
    (h : IsLexeme k ds) (hstart : ds <+: c :: cs) :
    ∃ k' ds', lexeme? c cs = some (k', ds') ∧ ds.length ≤ ds'.length := by
  obtain ⟨rest, hrest⟩ := hstart
  cases h with
  | mark hk =>
    obtain ⟨rfl, -⟩ := List.cons.inj hrest
    rw [lexeme?, hk]
    split
    · exact ⟨_, _, rfl, by simp⟩
    · exact ⟨_, _, rfl, le_rfl⟩
  | doubleStar =>
    cases hrest
    exact ⟨_, _, rfl, le_rfl⟩
  | number hn =>
    obtain ⟨d, ds, rfl, hd⟩ := hn.exists_cons
    obtain ⟨rfl, -⟩ := List.cons.inj hrest
    have hname : startsName d = false := by
      rcases hd with hd | rfl
      · exact not_startsName_of_isDigit hd
      · rfl
    have hstar : d ≠ '*' := by
      rintro rfl
      simp at hd
    obtain ⟨ds', hds', hle⟩ := hn.exists_numberLexeme? rest
    rw [hrest] at hds'
    refine ⟨.number, ds', ?_, hle⟩
    simp only [lexeme?, hstar, markKind?_eq_none (hd.imp_left continuesName_of_isDigit), hname,
      false_and, if_false]
    exact congrArg (Option.map _) hds'
  | name hn =>
    obtain ⟨hc, hds⟩ := hn
    rename_i d ds
    rw [List.cons_append] at hrest
    obtain ⟨rfl, rfl⟩ := List.cons.inj hrest
    have hstar : d ≠ '*' := by
      rintro rfl
      simp [startsName] at hc
    simp only [lexeme?, hstar, markKind?_eq_none (.inl (continuesName_of_startsName hc)), hc,
      false_and, if_false, if_true]
    refine ⟨_, _, rfl, ?_⟩
    rw [List.takeWhile_append_of_pos hds]
    simp

/-! ## The longest token -/

/-- The text of a token tells its kind. -/
theorem IsLexeme.kind_eq {k k' : TokenKind} {ds : List Char} (h : IsLexeme k ds)
    (h' : IsLexeme k' ds) : k = k' := by
  obtain ⟨c, cs, rfl, -⟩ := h.exists_cons
  have heq := (lexeme?_append h (ends_nil k)).symm.trans (lexeme?_append h' (ends_nil k'))
  exact congrArg Prod.fst (Option.some.inj heq)

/-- **What is taken off the front of a text is the longest token there.** -/
theorem lexeme?_eq_some_iff {k : TokenKind} {c : Char} {cs ds : List Char} :
    lexeme? c cs = some (k, ds) ↔ IsLongest k ds (c :: cs) := by
  constructor
  · intro h
    refine ⟨isLexeme_of_lexeme? h, lexeme?_starts h, fun h' hstart => ?_⟩
    obtain ⟨_, _, he, hle⟩ := h'.exists_lexeme? hstart
    rw [h] at he
    cases he
    exact hle
  · intro h
    obtain ⟨k', ds', he, hle⟩ := h.isLexeme.exists_lexeme? h.starts
    have hlexeme := isLexeme_of_lexeme? he
    have hstart := lexeme?_starts he
    obtain rfl : ds = ds' :=
      (List.prefix_of_prefix_length_le h.starts hstart hle).eq_of_length
        (Nat.le_antisymm hle (h.length_le hlexeme hstart))
    rw [he, hlexeme.kind_eq h.isLexeme]

/-- **Nothing is taken off if there is no token.** -/
theorem lexeme?_eq_none_iff {c : Char} {cs : List Char} :
    lexeme? c cs = none ↔ StartsNone (c :: cs) := by
  constructor
  · intro h k ds hlexeme hstart
    obtain ⟨_, _, he, -⟩ := hlexeme.exists_lexeme? hstart
    cases h.symm.trans he
  · intro h
    rw [Option.eq_none_iff_forall_ne_some]
    rintro ⟨k, ds⟩ he
    exact h k ds (isLexeme_of_lexeme? he) (lexeme?_starts he)

/-! ## Blanks -/

theorem IsExponent.continuesName_or {x : List Char} (h : IsExponent x) :
    ∀ c ∈ x, continuesName c ∨ c = '+' ∨ c = '-' := by
  cases h with
  | absent => simp
  | stated hc hsign _ hds =>
    rw [List.forall_mem_cons, List.forall_mem_append]
    refine ⟨.inl ?_, fun c hc => ?_, fun c hc => .inl (continuesName_of_isDigit (hds c hc))⟩
    · rcases hc with rfl | rfl <;> rfl
    · rcases hsign with rfl | rfl | rfl <;> simp_all

/-- **No token has a blank in it.** -/
theorem IsLexeme.separates_eq_false {k : TokenKind} {ds : List Char} (h : IsLexeme k ds) :
    ∀ c ∈ ds, separates c = false := by
  have hdigits {ds : List Char} (hds : IsDigits ds) : ∀ c ∈ ds, separates c = false :=
    fun c hc => not_separates_of_continuesName (continuesName_of_isDigit (hds c hc))
  have hexponent {x : List Char} (hx : IsExponent x) : ∀ c ∈ x, separates c = false := by
    intro c hc
    rcases hx.continuesName_or c hc with hname | rfl | rfl
    · exact not_separates_of_continuesName hname
    · rfl
    · rfl
  cases h with
  | mark hk => simpa using (of_markKind? hk).2.2
  | doubleStar => simp [separates]
  | number hn =>
    obtain ⟨-, hds, hx⟩ | ⟨-, hds, hfs, hx⟩ := hn
    · exact List.forall_mem_append.2 ⟨hdigits hds, hexponent hx⟩
    · exact List.forall_mem_append.2 ⟨hdigits hds, List.forall_mem_cons.2 ⟨rfl,
        List.forall_mem_append.2 ⟨hdigits hfs, hexponent hx⟩⟩⟩
  | name hn =>
    obtain ⟨hc, hcs⟩ := hn
    refine List.forall_mem_cons.2 ⟨?_, fun d hd => not_separates_of_continuesName (hcs d hd)⟩
    exact not_separates_of_continuesName (continuesName_of_startsName hc)

/-- **What stands behind a blank does not matter** to the longest token, nor does
    the end of the text. -/
theorem IsLongest.cut {k : TokenKind} {ds mid rest rest' : List Char}
    (h : IsLongest k ds (ds ++ (mid ++ rest))) (hrest : ∀ c ∈ rest'.head?, separates c) :
    IsLongest k ds (ds ++ (mid ++ rest')) where
  isLexeme := h.isLexeme
  starts := List.prefix_append _ _
  length_le {k' ds'} h' hstart := by
    rw [← List.append_assoc] at hstart
    have hback : ds ++ mid <+: ds ++ mid ++ rest := List.prefix_append _ _
    rcases List.prefix_or_prefix_of_prefix hstart (List.prefix_append _ _) with hshort | hlong
    · exact h.length_le h' (List.append_assoc .. ▸ hshort.trans hback)
    · -- a longer token would have the blank in it
      obtain ⟨more, rfl⟩ := hlong
      rw [List.prefix_append_right_inj] at hstart
      cases more with
      | nil => exact h.length_le (by simpa using h') (by simp [← List.append_assoc])
      | cons c more =>
        obtain ⟨after, rfl⟩ := hstart
        have hc := hrest c rfl
        rw [h'.separates_eq_false c (by simp)] at hc
        cases hc

end JointProb.Token
