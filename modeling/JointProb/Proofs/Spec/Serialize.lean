/-
  JointProb — distributions written as tables, and read again.

  * `Distribution.serialize_eq_ok`: the lines that are written,
    `Distribution.tableText_written`: what they say;
  * `Distribution.exists_ofText_written`: what is read again is the
    probabilities with the written places, scaled to the sum one.
-/
import JointProb.Proofs.Spec.Completion
import JointProb.Proofs.Text.Join
import JointProb.Spec.Serialize

namespace JointProb

open Decimal (Literal rounded)

theorem Variable.eq_boolean {v : Variable} (h : v.isBoolean) : v = .boolean v.name := by
  rw [isBoolean, beq_iff_eq] at h
  rw [boolean, ← h]

/-- Variables with the states `0` and `1` differ in their names only. -/
theorem Catalog.map_boolean_names {c : Catalog} (h : ∀ v ∈ c.vars, v.isBoolean) :
    c.names.map Variable.boolean = c.vars := by
  have hvars : c.vars.map (Variable.boolean ∘ Variable.name) = c.vars.map id :=
    List.map_congr_left fun v hv => (Variable.eq_boolean (h v hv)).symm
  rw [names, List.map_map, hvars, List.map_id]

namespace Distribution

variable {cap : Nat} {d : Distribution ℚ}

/-- All variables have the states `0` and `1`. -/
def IsBoolean (d : Distribution ℚ) : Prop := ∀ v ∈ d.catalog.vars, v.isBoolean

instance (d : Distribution ℚ) : Decidable d.IsBoolean :=
  inferInstanceAs (Decidable (∀ v ∈ d.catalog.vars, v.isBoolean))

/-- The entry of an assignment. -/
def entryAt (d : Distribution ℚ) (b : Bits) : ℚ := (d.probs[b.number]?).getD 0

theorem IsBoolean.size_eq (h : d.IsBoolean) : d.catalog.size = 2 ^ d.catalog.names.length := by
  rw [← Catalog.size_boolean, Catalog.map_boolean_names h, Catalog.size, Catalog.size,
    Catalog.cardinalities, Catalog.cardinalities, Catalog.vars_of]

/-- The table, assignment by assignment. -/
theorem IsBoolean.mapIdx_probs {β : Type} (h : d.IsBoolean) (f : Nat → ℚ → β) :
    d.probs.mapIdx f =
      (Bits.all d.catalog.names.length).map fun b => f b.number (d.entryAt b) := by
  have hlength : d.probs.length = 2 ^ d.catalog.names.length := d.length_probs.trans h.size_eq
  refine Eq.trans ?_ (TableDraft.map_range_eq fun i => f i ((d.probs[i]?).getD 0))
  rw [← hlength]
  refine List.ext_getElem (by simp) fun i hi hi' => ?_
  rw [List.length_mapIdx] at hi
  simp [hi]

theorem IsBoolean.map_probs (h : d.IsBoolean) (f : ℚ → ℚ) :
    d.probs.map f = (Bits.all d.catalog.names.length).map fun b => f (d.entryAt b) := by
  rw [← h.mapIdx_probs fun _ => f]
  exact List.ext_getElem (by simp) (by simp)

/-! ## Lines -/

/-- The line with the names. -/
def headerLine (names : List String) : List Char :=
  "variables: ".toList ++ [','].intercalate (names.map String.toList)

/-- The line of an assignment. -/
def entryLine (b : Bits) (p : ℚ) : List Char :=
  b.text ++ ':' :: ' ' :: (DecimalText.fixed writtenPlaces p).toList

/-- The lines of a distribution. -/
def writtenLines (d : Distribution ℚ) : List (List Char) :=
  headerLine d.catalog.names ::
    (Bits.all d.catalog.names.length).map fun b => entryLine b (d.entryAt b)

theorem toList_writtenEntry {b : Bits} (hne : b ≠ []) (p : ℚ) :
    (writtenEntry b.length b.number p).toList = entryLine b p ++ ['\n'] := by
  have hmark : ": ".toList = [':', ' '] := by decide
  have hfeed : "\n".toList = ['\n'] := by decide
  simp only [writtenEntry, entryLine, String.toList_append, String.toList_ofList,
    Bits.padded_number hne, hmark, hfeed, List.append_assoc, List.cons_append, List.nil_append]

/-- The entries in order, each with a line. -/
theorem IsBoolean.flatMap_entries (h : d.IsBoolean) (hne : d.catalog.vars ≠ []) :
    (d.probs.mapIdx fun linear p => writtenEntry d.catalog.vars.length linear p).flatMap
        String.toList =
      ((Bits.all d.catalog.names.length).map fun b => entryLine b (d.entryAt b)).flatMap
        (· ++ ['\n']) := by
  have hwidth : d.catalog.vars.length = d.catalog.names.length := by simp [Catalog.names]
  rw [h.mapIdx_probs, List.flatMap_map, List.flatMap_map]
  refine List.flatMap_congr fun b hb => ?_
  rw [hwidth, ← Bits.mem_all.1 hb]
  refine toList_writtenEntry (fun hnil => hne ?_) _
  rw [← List.length_eq_zero_iff, hwidth, ← Bits.mem_all.1 hb, hnil, List.length_nil]

/-- **The lines that are written.** -/
theorem serialize_eq_ok (h : d.IsBoolean) (hne : d.catalog.vars ≠ []) :
    d.serialize = .ok (String.ofList (['\n'].intercalate (d.writtenLines ++ [[]]))) := by
  have hfind : d.catalog.vars.find? (fun v => !v.isBoolean) = none := by
    rw [List.find?_eq_none]
    intro v hv
    simp [h v hv]
  have hlines : ['\n'].intercalate (d.writtenLines ++ [[]]) =
      headerLine d.catalog.names ++ ['\n'] ++ (d.probs.mapIdx fun linear p =>
        writtenEntry d.catalog.vars.length linear p).flatMap String.toList := by
    rw [← Text.flatMap_append_mark, writtenLines, List.flatMap_cons,
      h.flatMap_entries hne]
  have htext : ("variables: " ++ ",".intercalate d.catalog.names ++ "\n" ++ String.join
      (d.probs.mapIdx fun linear p => writtenEntry d.catalog.vars.length linear p)) =
        String.ofList (['\n'].intercalate (d.writtenLines ++ [[]])) := by
    have hcomma : ",".toList = [','] := by decide
    have hfeed : "\n".toList = ['\n'] := by decide
    rw [hlines]
    apply String.toList_inj.1
    unfold headerLine
    simp only [String.toList_append, String.toList_intercalate, String.toList_join,
      String.toList_ofList, hcomma, hfeed]
  rw [serialize, hfind]
  exact congrArg Except.ok htext

/-! ## What they say -/

section

variable {names : List String} {b : Bits} {p : ℚ}

/-- The characters of names with commas between them. -/
theorem mem_joined (hid : ∀ n ∈ names, isIdentifier n) {c : Char}
    (hc : c ∈ [','].intercalate (names.map String.toList)) : c = ',' ∨ inName c := by
  rcases Text.mem_intercalate hc with hmark | ⟨x, hx, hcx⟩
  · exact .inl (List.mem_singleton.1 hmark)
  · obtain ⟨n, hn, rfl⟩ := List.mem_map.1 hx
    exact .inr (forall_inName (hid n hn) c hcx)

theorem not_isBlank_joined (hid : ∀ n ∈ names, isIdentifier n) :
    ∀ c ∈ [','].intercalate (names.map String.toList), Text.isBlank c = false := by
  intro c hc
  rcases mem_joined hid hc with rfl | hname
  · rfl
  · exact isBlank_of_inName hname

theorem joined_ne_nil (hne : names ≠ []) (hid : ∀ n ∈ names, isIdentifier n) :
    [','].intercalate (names.map String.toList) ≠ [] := by
  cases names with
  | nil => exact absurd rfl hne
  | cons n names =>
    have hn := ne_nil_of_isIdentifier (hid n (List.mem_cons_self ..))
    cases names with
    | nil => simpa using hn
    | cons m names => simp [List.intercalate_cons_cons]

/-- The names are read back from between the commas. -/
theorem fields_joined (hne : names ≠ []) (hid : ∀ n ∈ names, isIdentifier n) :
    ((Text.fields ([','].intercalate (names.map String.toList))).filter
      fun n => !n.isEmpty).map String.ofList = names := by
  have hcomma : ∀ x ∈ names.map String.toList, ',' ∉ x := by
    intro x hx
    obtain ⟨n, hn, rfl⟩ := List.mem_map.1 hx
    exact notMem_of_isIdentifier (hid n hn) rfl
  have htrim : (names.map String.toList).map Text.trim = names.map String.toList := by
    rw [List.map_map]
    exact List.map_congr_left fun n hn => trim_of_isIdentifier (hid n hn)
  have hfilter : (names.map String.toList).filter (fun n => !n.isEmpty) =
      names.map String.toList := by
    rw [List.filter_eq_self]
    intro x hx
    obtain ⟨n, hn, rfl⟩ := List.mem_map.1 hx
    simpa using ne_nil_of_isIdentifier (hid n hn)
  rw [Text.fields, List.splitOn_intercalate ',' hcomma (by simpa using hne), htrim, hfilter,
    List.map_map]
  simp [Function.comp_def]

/-- The line with the names says so. -/
theorem says_headerLine (hne : names ≠ []) (hid : ∀ n ∈ names, isIdentifier n)
    (hnodup : names.Nodup) : TableLine.Says (headerLine names) (.header names) := by
  have hmark : "variables: ".toList = "variables:".toList ++ [' '] := by decide
  have hheader : Line.variablesHeader? (headerLine names) =
      some ([','].intercalate (names.map String.toList)) := by
    unfold headerLine Line.variablesHeader?
    rw [hmark, List.append_assoc]
    simp only [List.take_left, List.drop_left, Text.equalUpToCase, beq_self_eq_true, if_true,
      List.singleton_append, Text.trim_blank_cons]
    rw [Text.trim_eq_self_of_forall (not_isBlank_joined hid)]
  exact .header hheader (fields_joined hne hid).symm hid hnodup

theorem writtenPlaces_pos : 0 < writtenPlaces := by decide

theorem not_isBlank_fixed (hp : 0 ≤ p) :
    ∀ c ∈ (DecimalText.fixed writtenPlaces p).toList, Text.isBlank c = false :=
  fun c hc => Literal.isBlank_of_inNumber (Decimal.inNumber_fixed writtenPlaces_pos hp c hc)

/-- The line of an assignment gives it the rounded entry. -/
theorem says_entryLine (hne : b ≠ []) (hp : IsProbability p) :
    TableLine.Says (entryLine b p) (.entry b (rounded writtenPlaces p)) := by
  have hread := Decimal.read?_fixed writtenPlaces_pos hp.1
  rw [← Text.trim_eq_self_of_forall (not_isBlank_fixed hp.1), ← Text.trim_blank_cons] at hread
  exact @TableLine.Says.entry b [] _ _ hne (by simp [Text.IsBlanks]) hread
    (Decimal.isProbability_rounded hp)

/-! ## The lines of the text -/

/-- The characters of the lines. -/
def inLine (c : Char) : Bool := inName c || Literal.inNumber c || [':', ' ', ','].contains c

theorem inLine_headerLine (hid : ∀ n ∈ names, isIdentifier n) :
    ∀ c ∈ headerLine names, inLine c := by
  have hmark : "variables: ".toList.all inLine := by decide
  intro c hc
  rcases List.mem_append.1 hc with hc | hc
  · exact List.all_eq_true.1 hmark c hc
  rcases mem_joined hid hc with rfl | hname
  · rfl
  · simp [inLine, hname]

theorem inLine_entryLine (hp : 0 ≤ p) : ∀ c ∈ entryLine b p, inLine c := by
  intro c hc
  rw [entryLine, List.mem_append, List.mem_cons, List.mem_cons] at hc
  rcases hc with hc | rfl | rfl | hc
  · rcases Bits.mem_text hc with rfl | rfl <;> rfl
  · rfl
  · rfl
  · simp [inLine, Decimal.inNumber_fixed writtenPlaces_pos hp c hc]

theorem notMem_of_inLine {cs : List Char} (h : ∀ c ∈ cs, inLine c) {c : Char}
    (hc : inLine c = false) : c ∉ cs := by
  intro hmem
  rw [h c hmem] at hc
  cases hc

theorem content?_headerLine (hne : names ≠ []) (hid : ∀ n ∈ names, isIdentifier n) :
    Line.content? (headerLine names) = some (headerLine names) := by
  have hcomment : '#' ∉ headerLine names := notMem_of_inLine (inLine_headerLine hid) rfl
  have hmark : ['v'] <+: "variables: ".toList := by decide
  have hstart : ['v'] <+: headerLine names := hmark.trans (List.prefix_append _ _)
  have hend : [','].intercalate (names.map String.toList) <:+ headerLine names :=
    List.suffix_append _ _
  refine Line.content?_eq_self hcomment ?_ ?_
  · exact Text.trim_eq_self_of_ends hstart hend (by simp) (joined_ne_nil hne hid)
      (List.forall_mem_singleton.2 rfl) (not_isBlank_joined hid)
  · rintro h
    rw [h] at hstart
    simp at hstart

theorem content?_entryLine (hne : b ≠ []) (hp : 0 ≤ p) :
    Line.content? (entryLine b p) = some (entryLine b p) := by
  have hcomment : '#' ∉ entryLine b p := notMem_of_inLine (inLine_entryLine hp) rfl
  have hvalue : (DecimalText.fixed writtenPlaces p).toList ≠ [] := by
    intro h
    have hread := Decimal.read?_fixed writtenPlaces_pos hp
    rw [h] at hread
    cases hread
  have hstart : b.text <+: entryLine b p := List.prefix_append _ _
  have hend : (DecimalText.fixed writtenPlaces p).toList <:+ entryLine b p :=
    ⟨b.text ++ [':', ' '], by simp [entryLine]⟩
  refine Line.content?_eq_self hcomment ?_ ?_
  · exact Text.trim_eq_self_of_ends hstart hend (by simpa [Bits.text_eq_nil] using hne) hvalue
      Text.not_isBlank_of_bits (not_isBlank_fixed hp)
  · simp [entryLine]

end

/-! ## The whole text -/

/-- The entries with the written places. -/
def writtenEntries (d : Distribution ℚ) : List (Bits × ℚ) :=
  (Bits.all d.catalog.names.length).map fun b => (b, rounded writtenPlaces (d.entryAt b))

theorem WellFormed.isProbability_entryAt (hd : d.WellFormed cap) (b : Bits) :
    IsProbability (d.entryAt b) := by
  rw [entryAt]
  cases hb : d.probs[b.number]? with
  | none => exact .zero
  | some p => exact hd.isProbability_probs p (List.mem_of_getElem? hb)

theorem WellFormed.names_ne_nil (hd : d.WellFormed cap) : d.catalog.names ≠ [] := by
  intro h
  exact hd.wellFormed_catalog.vars_ne_nil (List.map_eq_nil_iff.1 h)

theorem WellFormed.ne_nil_of_mem_all (hd : d.WellFormed cap) {b : Bits}
    (hb : b ∈ Bits.all d.catalog.names.length) : b ≠ [] := by
  rintro rfl
  exact hd.names_ne_nil (List.length_eq_zero_iff.1 (Bits.mem_all.1 hb).symm)

/-- Every written line is what it says, the end of the text is not a line. -/
theorem WellFormed.contents_written (hd : d.WellFormed cap) :
    (Line.numbered (String.ofList (['\n'].intercalate (d.writtenLines ++ [[]])))).map Prod.snd =
      d.writtenLines := by
  have hid := hd.wellFormed_catalog.isIdentifier_names
  have hfeed : ∀ l ∈ d.writtenLines ++ [[]], '\n' ∉ l := by
    intro l hl
    rcases List.mem_append.1 hl with hl | hl
    · rcases List.mem_cons.1 hl with rfl | hl
      · exact notMem_of_inLine (inLine_headerLine hid) rfl
      · obtain ⟨b, -, rfl⟩ := List.mem_map.1 hl
        exact notMem_of_inLine (inLine_entryLine (hd.isProbability_entryAt b).1) rfl
    · rw [List.mem_singleton.1 hl]
      exact List.not_mem_nil
  have hself : ∀ l ∈ d.writtenLines, Line.content? l = some l := by
    intro l hl
    rcases List.mem_cons.1 hl with rfl | hl
    · exact content?_headerLine hd.names_ne_nil hid
    · obtain ⟨b, hb, rfl⟩ := List.mem_map.1 hl
      exact content?_entryLine (hd.ne_nil_of_mem_all hb) (hd.isProbability_entryAt b).1
  have hend : [[]].filterMap Line.content? = [] := rfl
  rw [Line.map_snd_numbered_filterMap (by simp) hfeed, List.filterMap_append, hend,
    List.append_nil, List.filterMap_congr hself, List.filterMap_some]

/-- **The written text lists the rounded entries of all patterns.** -/
theorem tableText_written (hd : d.WellFormed cap) :
    TableText (String.ofList (['\n'].intercalate (d.writtenLines ++ [[]])))
      (some d.catalog.names) d.writtenEntries d.catalog.names.length := by
  have hid := hd.wellFormed_catalog.isIdentifier_names
  refine ⟨⟨.header d.catalog.names :: (Bits.all d.catalog.names.length).map fun b =>
    .entry b (rounded writtenPlaces (d.entryAt b)), ?_, ?_, ?_⟩, ?_, ?_, ?_⟩
  · rw [hd.contents_written, writtenLines]
    refine .cons (says_headerLine hd.names_ne_nil hid hd.wellFormed_catalog.nodup_names) ?_
    rw [List.forall₂_map_left_iff, List.forall₂_map_right_iff, List.forall₂_same]
    intro b hb
    exact says_entryLine (hd.ne_nil_of_mem_all hb) (hd.isProbability_entryAt b)
  · simp [TableLine.headers, TableLine.header?, List.filterMap_map, Function.comp_def]
  · rw [TableLine.entries, List.filterMap_cons_none rfl, List.filterMap_map]
    exact congrFun List.filterMap_eq_map _
  · have hpos : 0 < d.writtenEntries.length := by simp [writtenEntries, Bits.length_all]
    exact List.length_pos_iff.1 hpos
  · intro e he
    obtain ⟨b, hb, rfl⟩ := List.mem_map.1 he
    exact Bits.mem_all.1 hb
  · rw [writtenEntries, List.map_map, Function.comp_def]
    simpa using Bits.nodup_all d.catalog.names.length

/-- Nothing is missing, so nothing is filled in. -/
theorem fillMissing_written (hd : d.WellFormed cap) (h : d.IsBoolean) (tolerance : ℚ) :
    TableDraft.fillMissing tolerance d.catalog.size
        (d.writtenEntries.map fun e => (e.1.number, e.2)) =
      .ok (d.probs.map (rounded writtenPlaces)) := by
  have htext := tableText_written hd
  have hfull : ¬ Table.OneMissing d.catalog.names.length d.writtenEntries := by
    rw [Table.OneMissing, writtenEntries, List.length_map, Bits.length_all]
    omega
  have hcompleted : ∀ b ∈ Bits.all d.catalog.names.length,
      Table.completed d.catalog.names.length d.writtenEntries b =
        rounded writtenPlaces (d.entryAt b) := by
    intro b hb
    rw [Table.completed, writtenEntries,
      List.lookup_graph (fun b => rounded writtenPlaces (d.entryAt b)) hb, Option.getD_some]
  rw [h.size_eq, TableDraft.fillMissing_eq tolerance htext.length_eq htext.nodup_patterns,
    if_neg fun hmissing => hfull hmissing.1, List.map_congr_left hcompleted,
    h.map_probs (rounded writtenPlaces)]

/-- **What is read again are the rounded probabilities, scaled to the sum
    one.** -/
theorem exists_ofText_written {settings : Settings ℚ} (hd : d.WellFormed cap) (h : d.IsBoolean)
    (hcap : d.catalog.size ≤ settings.maxAssignments)
    (hword : settings.maxAssignments < Text.wordLimit)
    (hpos : 0 < (d.probs.map (rounded writtenPlaces)).sum)
    (hband : |(d.probs.map (rounded writtenPlaces)).sum - 1| ≤
      settings.tolerances.normalizationBand * (d.probs.map (rounded writtenPlaces)).sum) :
    ∃ text e, d.serialize = .ok text ∧ ofText settings none .table text = .ok e ∧
      e.catalog = d.catalog ∧
      e.probs = (d.probs.map (rounded writtenPlaces)).map
        (· / (d.probs.map (rounded writtenPlaces)).sum) := by
  have hnames : tableNames none (some d.catalog.names) d.catalog.names.length = d.catalog.names :=
    if_pos rfl
  have hfill := @ofText_eq_fill settings none _ _ _ _ (tableText_written hd) (by simp)
    (h.size_eq ▸ hcap) hword
  rw [hnames, Catalog.map_boolean_names h, hd.wellFormed_catalog.toInStep.of_vars] at hfill
  obtain ⟨e, he, hcatalog, hprobs⟩ :=
    TableDraft.fill_eq_ok (fillMissing_written hd h settings.tolerances.sum) hpos hband
  exact ⟨_, e, serialize_eq_ok h hd.wellFormed_catalog.vars_ne_nil, hfill.trans he, hcatalog,
    hprobs⟩

end Distribution

end JointProb
