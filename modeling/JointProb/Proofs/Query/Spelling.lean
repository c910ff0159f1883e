/-
  JointProb — what queries can ask.

  A query names states by their labels, or by their positions where no label
  reads the same.  Labels may hold what no token does, or read like the
  position of another state; but zeros in front of a position make a number
  that is longer than every label.

  * `Variable.spelling` is such a number for a state; `Variable.resolve?_spelling`:
    it stands for that state, whatever the labels are;
  * `Catalog.spelled` writes a constraint in this way, and
    `Catalog.spelledQuery` a conditional probability;
  * `Distribution.exists_ask_eq_conditional`: so each conditional probability
    by position is the answer to a text.
-/
import JointProb.Proofs.Decimal.Fixed
import JointProb.Proofs.Query.Answer
import JointProb.Proofs.Spec.Catalog

namespace JointProb

/-! ## States -/

namespace Variable

variable (v : Variable) {s : Nat}

/-- More digits than any label has characters, and enough for all positions. -/
def spellingWidth : Nat := (v.states.map fun label => label.length + 1).sum

/-- A number that stands for a state whatever the labels are. -/
def spelling (s : Nat) : String := String.ofList (Decimal.padded 10 v.spellingWidth s)

theorem length_lt_spellingWidth {label : String} (h : label ∈ v.states) :
    label.length < v.spellingWidth :=
  List.single_le_sum (fun _ _ => Nat.zero_le _) _ (List.mem_map_of_mem h)

theorem cardinality_le_spellingWidth : v.cardinality ≤ v.spellingWidth := by
  have hle := List.length_le_sum_of_one_le (v.states.map fun label => label.length + 1) (by simp)
  rwa [List.length_map] at hle

/-- Positions have fewer digits. -/
theorem lt_pow_spellingWidth (h : s < v.cardinality) : s < 10 ^ v.spellingWidth :=
  calc s < v.spellingWidth := h.trans_le v.cardinality_le_spellingWidth
    _ < 10 ^ v.spellingWidth := Nat.lt_pow_self (by decide)

/-- No label reads the same: all of them are shorter. -/
theorem spelling_notMem (h : s < v.cardinality) : v.spelling s ∉ v.states := by
  intro hmem
  have hwidth : 0 < v.spellingWidth := (Nat.zero_lt_of_lt h).trans_le v.cardinality_le_spellingWidth
  have hlength : (v.spelling s).length = v.spellingWidth := by
    rw [spelling, String.length_ofList,
      Decimal.length_padded (by decide) hwidth (v.lt_pow_spellingWidth h)]
  exact absurd hlength (v.length_lt_spellingWidth hmem).ne

end Variable

namespace Decimal

variable {width n : Nat}

theorem padded_ne_nil (width n : Nat) : padded 10 width n ≠ [] := by
  rw [padded]
  exact List.append_ne_nil_of_right_ne_nil _ Nat.toDigits_ne_nil

/-- Zeros in front of digits do not matter to a reader of numerals. -/
theorem readNumeral?_padded (h : n < Text.wordLimit) :
    Text.readNumeral? 10 (padded 10 width n) = some n := by
  have hnumber : Nat.ofDigitChars 10 (padded 10 width n) 0 = n :=
    ofDigitChars_padded (by decide) le_rfl
  have hdigits : ∀ c ∈ padded 10 width n, c.isDigit ∧ c.toNat - '0'.toNat < 10 := by
    intro c hc
    have hdigit := isDigit_of_mem_padded (by decide) le_rfl c hc
    have hrange := Text.isDigit_iff.1 hdigit
    have hzero : '0'.toNat = 48 := rfl
    exact ⟨hdigit, by omega⟩
  rw [Text.readNumeral?_eq_some (padded_ne_nil width n) hdigits (hnumber.symm ▸ h), hnumber]

end Decimal

namespace Variable

variable (v : Variable) {s : Nat}

theorem isNumber_spelling (s : Nat) : Token.IsNumber (v.spelling s).toList := by
  rw [spelling, String.toList_ofList, ← List.append_nil (Decimal.padded 10 v.spellingWidth s)]
  exact .whole (Decimal.padded_ne_nil _ _) (Decimal.isDigit_of_mem_padded (by decide) le_rfl) .absent

/-- **The spelling of a state stands for it**, whatever the labels are. -/
theorem resolve?_spelling (h : s < v.cardinality) (hword : s < Text.wordLimit) :
    v.resolve? (v.spelling s) = some s := by
  have hnone : v.states.findIdx? (· == v.spelling s) = none := by
    rw [List.findIdx?_eq_none_iff]
    intro label hlabel
    rw [beq_eq_false_iff_ne]
    rintro rfl
    exact v.spelling_notMem h hlabel
  rw [resolve?, hnone, spelling, String.toList_ofList, Decimal.readNumeral?_padded hword]
  simp [h]

end Variable

/-! ## Constraints -/

namespace Catalog

/-- A constraint as an entry of a query. -/
def spelled (c : Catalog) (x : Constraint) : VarSpec :=
  ⟨(c.variableAt x.var).name, false, some ((c.variableAt x.var).spelling x.state), 0⟩

/-- A conditional probability as a query. -/
def spelledQuery (c : Catalog) (targets conditions : List Constraint) : Expr String :=
  .probability (targets.map c.spelled) (conditions.map c.spelled)

variable {c : Catalog} {fixed targets conditions : List Constraint}

theorem variableAt_eq {i : Nat} {v : Variable} (h : c.vars[i]? = some v) : c.variableAt i = v := by
  rw [variableAt, h, Option.getD_some]

theorem Sound.isWritten_spelled (hc : c.Sound) (h : c.Admits fixed) :
    ∀ s ∈ fixed.map c.spelled, s.IsWritten := by
  intro s hs
  obtain ⟨x, hx, rfl⟩ := List.mem_map.1 hs
  obtain ⟨v, hv, -⟩ := h x hx
  rw [spelled, variableAt_eq hv]
  refine ⟨hc.isIdentifier_names _ (List.mem_map_of_mem (List.mem_of_getElem? hv)), ?_⟩
  rintro _ ⟨⟩
  exact .inr (v.isNumber_spelling _)

/-- **Spelled constraints stand for themselves.** -/
theorem Sound.stands_spelled (hc : c.Sound) (h : c.Admits fixed) :
    List.Forall₂ (VarSpec.Stands c) (fixed.map c.spelled) fixed := by
  refine List.forall₂_map_left_iff.2 (List.forall₂_same.2 fun x hx => ?_)
  obtain ⟨v, hv, hlt⟩ := h x hx
  have hword := hc.cardinality_lt (List.mem_of_getElem? hv)
  rw [spelled, variableAt_eq hv]
  exact ⟨rfl, _, v, rfl, hc.lookup_eq_ok_iff.2 ⟨hv, rfl⟩, hv,
    v.resolve?_spelling hlt (hlt.trans hword), hlt⟩

theorem Sound.isQuery_spelledQuery (hc : c.Sound) (hne : targets ≠ []) (ht : c.Admits targets)
    (hgiven : c.Admits conditions) : (c.spelledQuery targets conditions).IsQuery := by
  refine ⟨by simpa using hne, ?_⟩
  rw [← List.map_append]
  exact hc.isWritten_spelled (admits_append ht hgiven)

end Catalog

/-! ## Answers -/

namespace Distribution

variable {α : Type} [Scalar α] {d : Distribution α} {targets conditions : List Constraint}

/-- Constraints that exist have a conditional probability unless the condition
    has none. -/
theorem conditional_of_admits (ht : d.catalog.Admits targets)
    (hc : d.catalog.Admits conditions) : d.conditional targets conditions =
      (d.conditionalMass targets conditions).mapError .query := by
  rw [conditional, check_of_admits ht, check_of_admits hc]

theorem exists_zeroCondition {e : QueryError}
    (h : d.conditionalMass targets conditions = .error e) :
    ∃ condition, e = .zeroCondition condition := by
  simp only [conditionalMass] at h
  split_ifs at h
  cases h
  exact ⟨_, rfl⟩

/-- **Each conditional probability by position is the answer to a text**, and
    so is its refusal, if the condition has no probability. -/
theorem exists_ask_eq_conditional {settings : Settings α} {names : Option (List String)}
    {format : Format} {text : String} (h : ofText settings names format text = .ok d)
    (hne : targets ≠ []) (ht : d.catalog.Admits targets) (hc : d.catalog.Admits conditions)
    (htargets : (targets.map Constraint.var).Nodup)
    (hconditions : (conditions.map Constraint.var).Nodup) :
    ∃ query : String,
      (d.ask query).mapError .query = (d.conditional targets conditions).map Value.number ∧
      (∀ tolerances, d.askWith tolerances query = d.ask query) ∧
      ∀ e, d.ask query = .error e → ∃ condition, e = .zeroCondition condition := by
  have hsound := sound_catalog h
  have hask (tolerances : Tolerances α) :
      d.askWith tolerances ((d.catalog.spelledQuery targets conditions).printed fun _ => []) =
        (d.conditionalMass targets conditions).map .number :=
    askWith_printed tolerances (hsound.stands_spelled ht) (hsound.stands_spelled hc) htargets
      hconditions (hsound.isQuery_spelledQuery hne ht hc) (by simp)
  refine ⟨(d.catalog.spelledQuery targets conditions).printed fun _ => [], ?_, fun tolerances => ?_,
    fun e he => ?_⟩
  · rw [conditional_of_admits ht hc]
    refine (congrArg (Except.mapError Failure.query) (hask _)).trans ?_
    cases d.conditionalMass targets conditions <;> rfl
  · exact (hask tolerances).trans (hask _).symm
  · have he := (hask _).symm.trans he
    cases hmass : d.conditionalMass targets conditions with
    | ok p =>
      rw [hmass] at he
      cases he
    | error e' =>
      rw [hmass] at he
      cases he
      exact exists_zeroCondition hmass

/-- Labels that read like the positions of other states, one with a blank, and
    keywords as names. -/
theorem exists_ask_eq_conditional_numerals :
    let text := "variable P \x7b1, 0, a b\x7d\nvariable Not \x7b01, 1\x7d\n" ++
      "P <- None\n1: 0.5\n0: 0.25\na b: 0.25\n" ++
      "Not <- (P)\n(01 | 1): 0.5\n(1 | 1): 0.5\n(01 | 0): 1\n(1 | 0): 0\n" ++
      "(01 | a b): 0.1\n(1 | a b): 0.9"
    ∃ d : Distribution ℚ, ofText .default none .network text = .ok d ∧
      d.catalog = .of [⟨"P", ["1", "0", "a b"]⟩, ⟨"Not", ["01", "1"]⟩] ∧
      d.catalog.Admits [⟨0, 2⟩] ∧ d.catalog.Admits [⟨1, 1⟩, ⟨0, 0⟩] ∧
      d.catalog.spelledQuery [⟨0, 2⟩] [⟨1, 1⟩, ⟨0, 0⟩] =
        .probability [⟨"P", false, some "00000002", 0⟩]
          [⟨"Not", false, some "00001", 0⟩, ⟨"P", false, some "00000000", 0⟩] ∧
      ∃ query : String, (d.ask query).mapError .query =
        (d.conditional [⟨0, 2⟩] [⟨1, 1⟩, ⟨0, 0⟩]).map Value.number := by
  intro text
  have hcatalog : (ofText .default none .network text).toOption.map
      (fun d : Distribution ℚ => d.catalog) =
        some (.of [⟨"P", ["1", "0", "a b"]⟩, ⟨"Not", ["01", "1"]⟩]) := by
    decide +kernel
  obtain ⟨d, hd, hc⟩ := Option.map_eq_some_iff.1 hcatalog
  have htarget : d.catalog.Admits [⟨0, 2⟩] := by
    rw [hc]
    simp [Catalog.Admits, Variable.cardinality]
  have hconditions : d.catalog.Admits [⟨1, 1⟩, ⟨0, 0⟩] := by
    rw [hc]
    simp [Catalog.Admits, Variable.cardinality]
  obtain ⟨query, hquery, -⟩ := exists_ask_eq_conditional (toOption_eq_some.1 hd)
    (List.cons_ne_nil _ _) htarget hconditions (by decide) (by decide)
  refine ⟨d, toOption_eq_some.1 hd, hc, htarget, hconditions, ?_, query, hquery⟩
  rw [hc]
  decide +kernel

end Distribution

end JointProb
