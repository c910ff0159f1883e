/-
  JointProb — what a table says, from its text to the answers.

  * `Table.completed` is the table with what is missing filled in, and
    `Table.total` its sum;
  * `TableDraft.fillMissing_eq`, `TableDraft.fill_eq_ok` and
    `TableDraft.fill_eq_sumFault`: the table is completed and scaled, or a fault;
  * `Distribution.askWith_patternQuery`: the answers of a table over variables
    with the states 0 and 1;
  * `Distribution.ofText_eq_fill`: the table that a text is read into;
  * `Distribution.ofText_of_tableText`: when the text describes a
    distribution, which one, and why not otherwise.
-/
import JointProb.Proofs.Query.Answer
import JointProb.Proofs.Spec.TableReader
import JointProb.Spec.Build

namespace JointProb

open Decimal (Literal)

/-! ## What is missing -/

namespace Table

variable (width : Nat) (entries : List (Bits × ℚ))

/-- The sum of what is listed. -/
def listed : ℚ := (entries.map Prod.snd).sum

/-- A single pattern is missing. -/
def OneMissing : Prop := entries.length + 1 = 2 ^ width

instance : Decidable (OneMissing width entries) := inferInstanceAs (Decidable (_ = _))

/-- What a pattern has that is not listed: what is left of one if it is the
    only one, nothing otherwise. -/
def remainder : ℚ := if OneMissing width entries then max 0 (1 - listed entries) else 0

/-- What each pattern has. -/
def completed (b : Bits) : ℚ := (entries.lookup b).getD (remainder width entries)

/-- The sum over all patterns. -/
def total : ℚ := ((Bits.all width).map (completed width entries)).sum

end Table

theorem sum_single {β : Type} [BEq β] [LawfulBEq β] {l : List β} (hl : l.Nodup) {k : β}
    (hk : k ∈ l) (p : ℚ) : (l.map fun b => if b == k then p else 0).sum = p := by
  induction l with
  | nil => cases hk
  | cons b l ih =>
    rw [List.nodup_cons] at hl
    rw [List.map_cons, List.sum_cons]
    rcases List.mem_cons.1 hk with rfl | hk
    · have hzero : (l.map fun b => if b == k then p else 0).sum = 0 := by
        refine List.sum_eq_zero fun x hx => ?_
        obtain ⟨c, hc, rfl⟩ := List.mem_map.1 hx
        have hck : c ≠ k := fun he => hl.1 (he ▸ hc)
        simp [hck]
      rw [hzero, add_zero, beq_self_eq_true, if_pos rfl]
    · have hne : b ≠ k := fun he => hl.1 (he ▸ hk)
      rw [ih hl.2 hk, beq_false_of_ne hne, if_neg Bool.false_ne_true, zero_add]

/-- The sum over all keys of a table is the sum of its values. -/
theorem sum_lookup {β : Type} [BEq β] [LawfulBEq β] {l : List β} (hl : l.Nodup)
    {cells : List (β × ℚ)} (hmem : ∀ x ∈ cells, x.1 ∈ l) (hnodup : (cells.map Prod.fst).Nodup) :
    (l.map fun b => (cells.lookup b).getD 0).sum = (cells.map Prod.snd).sum := by
  induction cells with
  | nil => simp
  | cons x cells ih =>
    obtain ⟨k, p⟩ := x
    rw [List.forall_mem_cons] at hmem
    rw [List.map_cons, List.nodup_cons] at hnodup
    have hnone : cells.lookup k = none := lookup_eq_none_iff_notMem.2 hnodup.1
    have hsplit : ∀ b ∈ l, (((k, p) :: cells).lookup b).getD 0 =
        (if b == k then p else 0) + (cells.lookup b).getD 0 := by
      intro b _
      rw [List.lookup_cons]
      cases hb : b == k with
      | true => simp [eq_of_beq hb, hnone]
      | false => simp
    rw [List.map_congr_left hsplit, List.sum_map_add, sum_single hl hmem.1,
      ih hmem.2 hnodup.2, List.map_cons, List.sum_cons]

/-- By number the entries are the same as by pattern. -/
theorem lookup_number {width : Nat} {entries : List (Bits × ℚ)}
    (hlength : ∀ e ∈ entries, e.1.length = width) {b : Bits} (hb : b.length = width) :
    (entries.map fun e => (e.1.number, e.2)).lookup b.number = entries.lookup b := by
  induction entries with
  | nil => rfl
  | cons x entries ih =>
    obtain ⟨c, p⟩ := x
    rw [List.forall_mem_cons] at hlength
    rw [List.map_cons, List.lookup_cons, List.lookup_cons, ih hlength.2]
    by_cases hbc : b = c
    · subst hbc
      simp
    · have hne : b.number ≠ c.number :=
        fun he => hbc (Bits.number_inj (hb.trans hlength.1.symm) he)
      rw [beq_false_of_ne hbc, beq_false_of_ne hne]

/-- The catalog of variables with the states `0` and `1`. -/
theorem Catalog.cardinalities_boolean (names : List String) :
    (of (names.map Variable.boolean)).cardinalities = List.replicate names.length 2 := by
  rw [List.eq_replicate_iff]
  simp [Catalog.cardinalities, Variable.boolean, Variable.cardinality]

theorem Catalog.size_boolean (names : List String) :
    (of (names.map Variable.boolean)).size = 2 ^ names.length := by
  rw [Catalog.size, cardinalities_boolean, Bits.size_replicate]

theorem Variable.map_name_boolean (names : List String) :
    (names.map Variable.boolean).map Variable.name = names := by
  rw [List.map_map]
  exact List.map_id names

theorem Catalog.names_boolean (names : List String) :
    (of (names.map Variable.boolean)).names = names := by
  rw [names_of, Variable.map_name_boolean]

theorem Catalog.inStep_boolean {names : List String} (hnodup : names.Nodup) :
    (of (names.map Variable.boolean)).InStep :=
  inStep_of (by rwa [Variable.map_name_boolean])

/-- Names that can be used have a catalog, unless it has too many assignments. -/
theorem Catalog.ofNames_eq {α : Type} {names : List String} (hid : ∀ n ∈ names, isIdentifier n)
    (hnodup : names.Nodup) (cap : Nat) : (ofNames names cap : Except (SpecError α) Catalog) =
      if cap < 2 ^ names.length ∨ Text.wordLimit ≤ 2 ^ names.length then
        .error (.spaceTooLarge (min (2 ^ names.length) countLimit) cap)
      else .ok (of (names.map Variable.boolean)) := by
  have hnames : (checkNames 0 [] names : Except (SpecError α) Unit) = .ok () :=
    checkNames_eq_ok_iff.2 ⟨hid, hnodup, fun _ _ => List.not_mem_nil⟩
  rw [ofNames, ofVariables_eq, size_boolean, Variable.map_name_boolean, hnames]
  rfl

namespace TableDraft

open Table

variable {width : Nat} {entries : List (Bits × ℚ)}

/-- The table by number, in the order of the patterns. -/
theorem map_range_eq {β : Type} (f : Nat → β) :
    (List.range (2 ^ width)).map f = (Bits.all width).map fun b => f b.number := by
  rw [← Bits.map_number_all, List.map_map]
  rfl

theorem lookup_map_all (hlength : ∀ e ∈ entries, e.1.length = width) (p : ℚ) :
    (List.range (2 ^ width)).map
        (fun i => ((entries.map fun e => (e.1.number, e.2)).lookup i).getD p) =
      (Bits.all width).map fun b => (entries.lookup b).getD p := by
  rw [map_range_eq]
  refine List.map_congr_left fun b hb => ?_
  rw [lookup_number hlength (Bits.mem_all.1 hb)]

theorem sum_spread (hlength : ∀ e ∈ entries, e.1.length = width)
    (hnodup : (entries.map Prod.fst).Nodup) :
    (spread (2 ^ width) (entries.map fun e => (e.1.number, e.2))).sum = listed entries := by
  have hmem : ∀ e ∈ entries, e.1 ∈ Bits.all width := fun e he => Bits.mem_all.2 (hlength e he)
  rw [spread, lookup_map_all hlength, sum_lookup (Bits.nodup_all width) hmem hnodup, listed]

/-- **What is missing is filled in**, unless too little is left for it. -/
theorem fillMissing_eq (tolerance : ℚ) (hlength : ∀ e ∈ entries, e.1.length = width)
    (hnodup : (entries.map Prod.fst).Nodup) :
    fillMissing tolerance (2 ^ width) (entries.map fun e => (e.1.number, e.2)) =
      if OneMissing width entries ∧ 1 - listed entries < -tolerance then
        .error (.negativeResidual (listed entries) (1 - listed entries))
      else .ok ((Bits.all width).map (completed width entries)) := by
  have hone : 2 ^ width - (entries.map fun e => (e.1.number, e.2)).length = 1 ↔
      OneMissing width entries := by
    rw [List.length_map, OneMissing]
    omega
  simp only [fillMissing, Weights.compensatedSum_eq_sum, sum_spread hlength hnodup, hone]
  by_cases hmissing : OneMissing width entries
  · have hrest : remainder width entries = Scalar.positivePart (1 - listed entries) := by
      rw [remainder, if_pos hmissing, Scalar.positivePart_eq_max]
    rw [if_pos hmissing, lookup_map_all hlength, ← hrest]
    simp only [hmissing, true_and]
    rfl
  · have hrest : remainder width entries = 0 := if_neg hmissing
    rw [if_neg hmissing, if_neg fun h => hmissing h.1, spread, lookup_map_all hlength, ← hrest]
    rfl

section

variable {settings : Settings ℚ} {c : Catalog} {cells : List (Nat × ℚ)} {probs : List ℚ}

theorem fill_eq_error {e : SpecError ℚ}
    (h : fillMissing settings.tolerances.sum c.size cells = .error e) :
    fill settings c cells = .error e := by
  unfold fill
  split
  next he => exact congrArg Except.error (Except.error.inj (he.symm.trans h))
  next hprobs => cases h.symm.trans hprobs

/-- The sum is near one: the distribution over the catalog. -/
theorem fill_eq_ok (h : fillMissing settings.tolerances.sum c.size cells = .ok probs)
    (hpos : 0 < probs.sum)
    (hband : |probs.sum - 1| ≤ settings.tolerances.normalizationBand * probs.sum) :
    ∃ d, fill settings c cells = .ok d ∧ d.catalog = c ∧
      d.probs = probs.map (· / probs.sum) := by
  have hok := Weights.normalizeWithin_eq_ok_iff.2 ⟨hpos, (div_le_iff₀ hpos).2 hband, rfl⟩
  unfold fill
  split
  next he => cases h.symm.trans he
  next hprobs =>
    cases h.symm.trans hprobs
    split
    next hsum => cases hok.symm.trans hsum
    next hscaled =>
      cases hok.symm.trans hscaled
      exact ⟨_, rfl, rfl, rfl⟩

/-- The sum is not near one: none. -/
theorem fill_eq_sumFault (h : fillMissing settings.tolerances.sum c.size cells = .ok probs)
    (hband : ¬ (0 < probs.sum ∧
      |probs.sum - 1| ≤ settings.tolerances.normalizationBand * probs.sum)) :
    fill settings c cells = .error (sumFault probs.sum) := by
  have herror : Weights.normalizeWithin settings.tolerances.normalizationBand probs =
      .error probs.sum :=
    Weights.normalizeWithin_eq_error fun ⟨hpos, hle⟩ => hband ⟨hpos, (div_le_iff₀ hpos).1 hle⟩
  unfold fill
  split
  next he => cases h.symm.trans he
  next hprobs =>
    cases h.symm.trans hprobs
    split
    next hsum => rw [Except.error.inj (hsum.symm.trans herror)]
    next hscaled => cases herror.symm.trans hscaled

end

/-- The catalog of a table with names that can be used. -/
theorem ofNames_eq_ok {names : List String} {cap : Nat} (hid : ∀ n ∈ names, isIdentifier n)
    (hnodup : names.Nodup) (hcap : 2 ^ names.length ≤ cap) (hword : cap < Text.wordLimit) :
    (Catalog.ofNames names cap : Except (SpecError ℚ) Catalog) =
      .ok (.of (names.map Variable.boolean)) := by
  rw [Catalog.ofNames_eq hid hnodup, if_neg]
  omega

end TableDraft

namespace Distribution

open Table

/-- An entry of a question that gives a variable the state with a bit. -/
def bitSpec (name : String) (x : Bool) : VarSpec := ⟨name, false, some (if x then "1" else "0"), 0⟩

/-- The question for the probability of one pattern. -/
def patternQuery (names : List String) (b : Bits) : Expr String :=
  .probability (List.zipWith bitSpec names b) []

theorem isWritten_bitSpec {name : String} (h : isIdentifier name) (x : Bool) :
    (bitSpec name x).IsWritten := by
  have hzero : Token.numberLexeme? "0".toList = some "0".toList := by decide
  have hone : Token.numberLexeme? "1".toList = some "1".toList := by decide
  refine ⟨h, ?_⟩
  rintro _ ⟨⟩
  cases x with
  | false => exact .inr (Token.isNumber_of_numberLexeme? hzero)
  | true => exact .inr (Token.isNumber_of_numberLexeme? hone)

theorem isQuery_patternQuery {names : List String} (hid : ∀ n ∈ names, isIdentifier n) {b : Bits}
    (hne : b ≠ []) (hb : b.length = names.length) : (patternQuery names b).IsQuery := by
  refine ⟨?_, ?_⟩
  · rw [← List.length_pos_iff, List.length_zipWith, ← hb, Nat.min_self]
    exact List.length_pos_iff.2 hne
  · intro s hs
    rw [List.append_nil] at hs
    obtain ⟨i, hi, rfl⟩ := List.getElem_of_mem hs
    rw [List.getElem_zipWith]
    exact isWritten_bitSpec (hid _ (List.getElem_mem _)) _

theorem resolve?_boolean (name : String) (x : Bool) :
    (Variable.boolean name).resolve? (if x then "1" else "0") = some x.toNat := by
  cases x <;> simp [Variable.resolve?, Variable.boolean, List.findIdx?_cons]

theorem stands_bitSpec {names : List String} (hnodup : names.Nodup) {b : Bits}
    (hb : b.length = names.length) :
    List.Forall₂ (VarSpec.Stands (.of (names.map Variable.boolean))) (List.zipWith bitSpec names b)
      (b.states.mapIdx fun i s => ⟨i, s⟩) := by
  rw [List.forall₂_iff_get]
  refine ⟨by simp [hb], fun i hi hi' => ?_⟩
  have hname : i < names.length := by simp at hi; omega
  have hbit : i < b.length := hb ▸ hname
  have hvar : (Catalog.of (names.map Variable.boolean)).vars[i]? = some (.boolean names[i]) := by
    simp [hname]
  simp only [List.get_eq_getElem, List.getElem_zipWith, List.getElem_mapIdx]
  refine ⟨rfl, _, .boolean names[i], rfl, ?_, hvar, ?_, ?_⟩
  · exact (Catalog.inStep_boolean hnodup).lookup_eq_ok_iff.2 ⟨hvar, rfl⟩
  · simpa [Bits.states] using resolve?_boolean names[i] b[i]
  · simpa [Bits.states, Variable.cardinality, Variable.boolean] using Bool.toNat_lt b[i]

/-- **The answers of a table over variables with the states 0 and 1.** -/
theorem askWith_patternQuery {d : Distribution ℚ} {names : List String}
    (hcatalog : d.catalog = .of (names.map Variable.boolean)) (hid : ∀ n ∈ names, isIdentifier n)
    (hnodup : names.Nodup) {b : Bits} (hne : b ≠ []) (hb : b.length = names.length)
    (tolerances : Tolerances ℚ) {gap : Nat → List Char}
    (hgap : ∀ i, ∀ c ∈ gap i, Token.separates c) :
    d.askWith tolerances ((patternQuery names b).printed gap) =
      .ok (.number ((d.probs[b.number]?).getD 0)) := by
  have hcard : d.catalog.cardinalities = List.replicate b.length 2 := by
    rw [hcatalog, Catalog.cardinalities_boolean, hb]
  have hbelow : MixedRadix.Below d.catalog.cardinalities b.states := hcard ▸ b.below_states
  have hencode : d.catalog.encode b.states = b.number := by rw [Catalog.encode, hcard, Bits.number]
  have hvars : ((b.states.mapIdx fun i s => (⟨i, s⟩ : Constraint)).map Constraint.var).Nodup := by
    have hrange : (b.states.mapIdx fun i s => (⟨i, s⟩ : Constraint)).map Constraint.var =
        List.range b.states.length := List.ext_getElem (by simp) (by simp)
    rw [hrange]
    exact List.nodup_range
  have hask := askWith_printed tolerances (hcatalog ▸ stands_bitSpec hnodup hb) .nil
    hvars List.nodup_nil (isQuery_patternQuery hid hne hb) hgap
  rw [patternQuery, hask, conditionalMass, List.append_nil, mass_full d hbelow, hencode]
  rfl

/-- The names of the variables of a table: given ones, or those of its header,
    or else the default ones. -/
def tableNames (given header : Option (List String)) (width : Nat) : List String :=
  (⟨header, []⟩ : TableDraft ℚ).chooseNames given width

/-- A text is read into a table over variables with these names. -/
theorem ofText_eq_fill {settings : Settings ℚ} {given : Option (List String)} {text : String}
    {header : Option (List String)} {entries : List (Bits × ℚ)} {width : Nat}
    (h : TableText text header entries width)
    (hgiven : ∀ names ∈ given, (∀ n ∈ names, isIdentifier n) ∧ names.Nodup)
    (hcap : 2 ^ width ≤ settings.maxAssignments)
    (hword : settings.maxAssignments < Text.wordLimit) :
    ofText settings given .table text =
      TableDraft.fill settings (.of ((tableNames given header width).map Variable.boolean))
        (entries.map fun e => (e.1.number, e.2)) := by
  obtain ⟨t, hread, hheader, ht⟩ := TableDraft.exists_read h
  have hnames : t.chooseNames given width = tableNames given header width := by
    rw [tableNames, TableDraft.chooseNames, TableDraft.chooseNames, hheader]
  obtain ⟨hid, hnodup⟩ := TableDraft.chooseNames_valid (t := t) width hgiven
    (hheader ▸ h.valid_header)
  have hlength := t.length_chooseNames given width
  have hcatalog := TableDraft.ofNames_eq_ok hid hnodup (by rwa [hlength]) hword
  have hnumbered := TableDraft.numbered_eq_ok ht h.ne_nil fun e he => by
    rw [h.length_eq e he]
    exact (hcap.trans_lt hword).le
  rw [ofText, ofTable, hread, ← hnames]
  simp only [Except.bind, TableDraft.complete, h.width_eq_ok ht, hcatalog, hnumbered, bind]

/-- These names can be used. -/
theorem tableNames_valid {given : Option (List String)} {text : String}
    {header : Option (List String)} {entries : List (Bits × ℚ)} {width : Nat}
    (h : TableText text header entries width)
    (hgiven : ∀ names ∈ given, (∀ n ∈ names, isIdentifier n) ∧ names.Nodup) :
    (tableNames given header width).length = width ∧
      (∀ n ∈ tableNames given header width, isIdentifier n) ∧
      (tableNames given header width).Nodup :=
  ⟨TableDraft.length_chooseNames given width,
    TableDraft.chooseNames_valid width hgiven h.valid_header⟩

/-- **When a table describes a distribution, which one, and why not
    otherwise.** -/
theorem ofText_of_tableText {settings : Settings ℚ} {given : Option (List String)} {text : String}
    {header : Option (List String)} {entries : List (Bits × ℚ)} {width : Nat}
    (h : TableText text header entries width)
    (hgiven : ∀ names ∈ given, (∀ n ∈ names, isIdentifier n) ∧ names.Nodup)
    (hcap : 2 ^ width ≤ settings.maxAssignments)
    (hword : settings.maxAssignments < Text.wordLimit) :
    let left := 1 - listed entries
    let negative := OneMissing width entries ∧ left < -settings.tolerances.sum
    let S := Table.total width entries
    let inBand := 0 < S ∧ |S - 1| ≤ settings.tolerances.normalizationBand * S
    (negative → ofText settings given .table text =
      .error (.negativeResidual (listed entries) left)) ∧
    (¬ negative → inBand → ∃ d, ofText settings given .table text = .ok d ∧
      d.catalog.names.length = width ∧
      ∀ b : Bits, b.length = width → ∀ tolerances,
        ∀ gap : Nat → List Char, (∀ i, ∀ c ∈ gap i, Token.separates c) →
          d.askWith tolerances ((patternQuery d.catalog.names b).printed gap) =
            .ok (.number (completed width entries b / S))) ∧
    (¬ negative → ¬ inBand → 1 < S →
      ofText settings given .table text = .error (.sumAboveBand S)) ∧
    (¬ negative → ¬ inBand → ¬ 1 < S →
      ofText settings given .table text = .error (.sumBelowBand S)) := by
  obtain ⟨hlength, hid, hnodup⟩ := tableNames_valid h hgiven
  have hfill := ofText_eq_fill h hgiven hcap hword
  generalize tableNames given header width = names at hlength hid hnodup hfill
  have hsize : (Catalog.of (names.map Variable.boolean)).size = 2 ^ width := by
    rw [Catalog.size_boolean, hlength]
  have hmissing := TableDraft.fillMissing_eq settings.tolerances.sum h.length_eq h.nodup_patterns
  rw [← hsize] at hmissing
  intro left negative S inBand
  rw [hfill]
  by_cases hneg : negative
  · rw [if_pos hneg] at hmissing
    exact ⟨fun _ => TableDraft.fill_eq_error hmissing, fun h => absurd hneg h,
      fun h => absurd hneg h, fun h => absurd hneg h⟩
  rw [if_neg hneg] at hmissing
  refine ⟨fun h => absurd h hneg, fun _ hin => ?_, fun _ hout habove => ?_, fun _ hout hbelow => ?_⟩
  · obtain ⟨d, hd, hcatalog, hprobs⟩ := TableDraft.fill_eq_ok hmissing hin.1 hin.2
    refine ⟨d, hd, by rw [hcatalog, Catalog.names_boolean, hlength], fun b hb tol gap hgap => ?_⟩
    have hne : b ≠ [] := by
      obtain ⟨e, he⟩ := List.exists_mem_of_ne_nil _ h.entries_ne_nil
      have hlen := h.length_eq e he
      have := List.length_pos_of_ne_nil (h.ne_nil e he)
      rintro rfl
      simp at hb
      omega
    have hentry : (d.probs[b.number]?).getD 0 = completed width entries b / S := by
      have hget : (Bits.all width)[b.number]? = some b := hb ▸ b.getElem?_all
      rw [hprobs, List.getElem?_map, List.getElem?_map, hget]
      rfl
    rw [hcatalog, Catalog.names_boolean,
      askWith_patternQuery hcatalog hid hnodup hne (hb.trans hlength.symm) tol hgap, hentry]
  · rw [TableDraft.fill_eq_sumFault hmissing hout, TableDraft.sumFault]
    exact congrArg Except.error (if_pos habove)
  · rw [TableDraft.fill_eq_sumFault hmissing hout, TableDraft.sumFault]
    exact congrArg Except.error (if_neg hbelow)

/-- Three of four patterns, with a header and a comment. -/
theorem ofText_of_tableText_late :
    let text := "variables: Rain, Late # both\n\n10: 0.25\n 00 : 5e-1\n11: .125"
    let entries : List (Bits × ℚ) := [([true, false], 1/4), ([false, false], 1/2),
      ([true, true], 1/8)]
    TableText text (some ["Rain", "Late"]) entries 2 ∧
      ∃ d : Distribution ℚ, ofText .default none .table text = .ok d ∧
        d.catalog.names.length = 2 ∧
        d.askWith .default ((patternQuery d.catalog.names [false, true]).printed fun _ => []) =
          .ok (.number (1/8)) := by
  intro text entries
  have hcontents : (Line.numbered text).map Prod.snd = ["variables: Rain, Late".toList,
      "10: 0.25".toList, "00 : 5e-1".toList, "11: .125".toList] := by decide +kernel
  have hvalue (value : String) (p : ℚ) (h : ((Literal.read? (Text.trim value.toList)).bind
      Scalar.ofLiteral? : Option ℚ) = some p ∧ IsProbability p) (bits : Bits) (blanks : List Char)
      (hne : bits ≠ []) (hblanks : Text.IsBlanks blanks) :
      TableLine.Says (bits.text ++ (blanks ++ ':' :: value.toList)) (.entry bits p) :=
    .entry hne hblanks h.1 h.2
  have htable : TableText text (some ["Rain", "Late"]) entries 2 := by
    refine ⟨⟨[.header ["Rain", "Late"], .entry [true, false] (1/4), .entry [false, false] (1/2),
      .entry [true, true] (1/8)], ?_, rfl, rfl⟩, by simp [entries], by simp [entries],
      by simp [entries]⟩
    rw [hcontents]
    refine .cons ?_ (.cons ?_ (.cons ?_ (.cons ?_ .nil)))
    · have hheader : Line.variablesHeader? "variables: Rain, Late".toList =
          some "Rain, Late".toList := by decide +kernel
      exact .header hheader (by decide +kernel) (by decide) (by decide)
    · exact hvalue " 0.25" _ (by decide +kernel) [true, false] [] (by simp)
        (by simp [Text.IsBlanks])
    · exact hvalue " 5e-1" _ (by decide +kernel) [false, false] [' '] (by simp)
        (by simp [Text.IsBlanks]; decide)
    · exact hvalue " .125" _ (by decide +kernel) [true, true] [] (by simp) (by simp [Text.IsBlanks])
  obtain ⟨-, hok, -, -⟩ := @ofText_of_tableText .default none _ _ _ _ htable (by simp)
    (by decide +kernel) (by decide +kernel)
  obtain ⟨d, hd, hnames, hask⟩ := hok (by decide +kernel) (by decide +kernel)
  refine ⟨htable, d, hd, hnames, ?_⟩
  rw [hask [false, true] rfl .default (fun _ => []) (by simp)]
  have : completed 2 entries [false, true] / Table.total 2 entries = 1/8 := by decide +kernel
  rw [this]

end Distribution

end JointProb
