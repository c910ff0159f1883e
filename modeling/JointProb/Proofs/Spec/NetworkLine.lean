/-
  JointProb — lines of network specifications, written out.

      variable Sky {Clear, Grey, Dark}
      Bus <- (Sky)
      (Full | Clear): 0.1

  * `IsLabel` says which labels can be told from what stands around them;
  * `NetworkLine.written` is how a declaration, a header or an entry is
    written;
  * `NetworkLine.content?_written`: a written line is its own content;
  * `NetworkLine.disjoint_declarationText` and the like say which marks are not
    in a line, `arrow_declarationText` and `arrow_entryText` that no arrow is.
-/
import JointProb.Proofs.Catalog.Names
import JointProb.Proofs.Decimal.Literal
import JointProb.Proofs.Spec.Line
import JointProb.Proofs.Text.Join
import JointProb.Spec.Network

namespace JointProb

open Text

variable {α : Type}

/-! ## Labels and names -/

/-- The characters that have a meaning next to labels. -/
def labelMarks : List Char := ['#', ',', '\x7b', '\x7d', '(', ')', '|', ':', '\n']

/-- A label that can be told from what stands around it. -/
structure IsLabel (label : String) : Prop where
  trim_eq : trim label.toList = label.toList
  notMem : ∀ c ∈ labelMarks, c ∉ label.toList
  not_arrow : contains ['<', '-'] label.toList = false

instance (label : String) : Decidable (IsLabel label) :=
  decidable_of_iff (trim label.toList = label.toList ∧
      labelMarks.all (fun c => !label.toList.contains c) ∧ contains ['<', '-'] label.toList = false)
    ⟨fun h => ⟨h.1, by simpa using h.2.1, h.2.2⟩,
      fun h => ⟨h.trim_eq, by simpa using h.notMem, h.not_arrow⟩⟩

/-- Letters and digits can be told from all marks. -/
theorem isLabel_of_forall {label : String} (h : ∀ c ∈ label.toList, inName c) : IsLabel label := by
  have hmarks : labelMarks.all (fun c => !inName c) := by decide
  refine ⟨trim_eq_self_of_forall fun c hc => isBlank_of_inName (h c hc), fun c hc hmem => ?_,
    contains_eq_false fun hmem => absurd (h _ hmem) (by decide)⟩
  simpa [h c hmem] using List.all_eq_true.1 hmarks c hc

/-- Names between commas, or labels. -/
def spelled (labels : List String) : List Char := commaList (labels.map String.toList)

theorem notMem_spelled {labels : List String} {c : Char} (hcomma : c ≠ ',') (hblank : c ≠ ' ')
    (h : ∀ l ∈ labels, c ∉ l.toList) : c ∉ spelled labels :=
  notMem_commaList hcomma hblank (by simpa using h)

theorem fields_spelled {labels : List String} (hne : labels ≠ [])
    (hcomma : ∀ l ∈ labels, ',' ∉ l.toList) (htrim : ∀ l ∈ labels, trim l.toList = l.toList) :
    fields (spelled labels) = labels.map String.toList := by
  rw [spelled, fields_commaList (by simpa using hne) (by simpa using hcomma), List.map_map]
  exact List.map_congr_left htrim

theorem fields_blank_spelled {labels : List String} (hne : labels ≠ [])
    (hcomma : ∀ l ∈ labels, ',' ∉ l.toList) (htrim : ∀ l ∈ labels, trim l.toList = l.toList) :
    fields (' ' :: spelled labels) = labels.map String.toList := by
  rw [spelled, fields_blank_commaList (by simpa using hne) (by simpa using hcomma), List.map_map]
  exact List.map_congr_left htrim

/-! ## Lines -/

/-- A line of a specification. -/
inductive NetworkLine where
  | declaration (v : Variable)
  | header (name : String) (parents : List String)
  | entry (state : String) (states : List String) (value : List Char)

namespace NetworkLine

/-- The parents in a header. -/
def parentText (parents : List String) : List Char :=
  if parents.isEmpty then "None".toList else '(' :: (spelled parents ++ [')'])

/-- What stands between the parentheses of a key. -/
def keyLabels (state : String) (states : List String) : List Char :=
  state.toList ++ if states.isEmpty then [] else ' ' :: '|' :: ' ' :: spelled states

/-- The key of an entry. -/
def key (state : String) (states : List String) : List Char :=
  '(' :: (keyLabels state states ++ [')'])

/-- The word in front of a declaration. -/
def keyword : List Char := ['v', 'a', 'r', 'i', 'a', 'b', 'l', 'e']

/-- A key has no blanks at its ends. -/
theorem trim_key (state : String) (states : List String) :
    trim (key state states) = key state states :=
  trim_parens _

/-- The declaration of a variable. -/
def declarationText (v : Variable) : List Char :=
  keyword ++ ' ' :: (v.name.toList ++ ' ' :: '\x7b' :: (spelled v.states ++ ['\x7d']))

/-- The header of a block. -/
def headerText (name : String) (parents : List String) : List Char :=
  name.toList ++ ' ' :: '<' :: '-' :: ' ' :: parentText parents

/-- An entry of a block. -/
def entryText (state : String) (states : List String) (value : List Char) : List Char :=
  key state states ++ ':' :: ' ' :: value

/-- The line as it is written. -/
def written : NetworkLine → List Char
  | declaration v => declarationText v
  | header name parents => headerText name parents
  | entry state states value => entryText state states value

/-- Whether names are identifiers, labels can be told from what stands around
    them and the value of an entry is a number. -/
inductive IsWritable : NetworkLine → Prop
  | declaration {v : Variable} (hname : isIdentifier v.name) (hstates : ∀ l ∈ v.states, IsLabel l) :
      IsWritable (declaration v)
  | header {name : String} {parents : List String} (hname : isIdentifier name)
      (hparents : ∀ p ∈ parents, isIdentifier p) : IsWritable (header name parents)
  | entry {state : String} {states : List String} {value : List Char} (hstate : IsLabel state)
      (hstates : ∀ l ∈ states, IsLabel l) (hne : value ≠ [])
      (hvalue : ∀ c ∈ value, Decimal.Literal.inNumber c) : IsWritable (entry state states value)

/-! ## Contents -/

/-- The marks that end what a line says, the line, and the key of an entry. -/
def lineMarks : List Char := ['#', '\n', ':']

theorem disjoint_name {name : String} (h : isIdentifier name) : lineMarks.Disjoint name.toList := by
  have hmarks : lineMarks.all (fun c => !inName c) := by decide
  exact fun c hc => notMem_of_isIdentifier h (by simpa using List.all_eq_true.1 hmarks c hc)

theorem disjoint_label {label : String} (h : IsLabel label) : lineMarks.Disjoint label.toList :=
  fun c hc => h.notMem c ((by decide : lineMarks ⊆ labelMarks) hc)

theorem disjoint_value {value : List Char} (h : ∀ c ∈ value, Decimal.Literal.inNumber c) :
    lineMarks.Disjoint value := by
  have hmarks : lineMarks.all (fun c => !Decimal.Literal.inNumber c) := by decide
  intro c hc hmem
  simpa [h c hmem] using List.all_eq_true.1 hmarks c hc

theorem disjoint_spelled {labels : List String} (h : ∀ l ∈ labels, lineMarks.Disjoint l.toList) :
    lineMarks.Disjoint (spelled labels) := fun c hc =>
  notMem_spelled (ne_of_mem_of_not_mem hc (by decide)) (ne_of_mem_of_not_mem hc (by decide))
    fun l hl => h l hl hc

theorem disjoint_parentText {parents : List String} (h : ∀ p ∈ parents, isIdentifier p) :
    lineMarks.Disjoint (parentText parents) := by
  have hspelled := disjoint_spelled fun p hp => disjoint_name (h p hp)
  have hmarks : '(' ∉ lineMarks ∧ ')' ∉ lineMarks := by decide
  rw [parentText]
  split_ifs
  · simp [lineMarks]
  · simp [hspelled, hmarks]

theorem disjoint_key {state : String} {states : List String} (hstate : IsLabel state)
    (hstates : ∀ l ∈ states, IsLabel l) : lineMarks.Disjoint (key state states) := by
  have hlabel := disjoint_label hstate
  have hspelled := disjoint_spelled fun l hl => disjoint_label (hstates l hl)
  have hmarks : '(' ∉ lineMarks ∧ ')' ∉ lineMarks ∧ ' ' ∉ lineMarks ∧ '|' ∉ lineMarks := by decide
  rw [key, keyLabels]
  split_ifs <;> simp [hlabel, hspelled, hmarks]

theorem disjoint_declarationText {v : Variable} (hname : isIdentifier v.name)
    (hstates : ∀ l ∈ v.states, IsLabel l) : lineMarks.Disjoint (declarationText v) := by
  have hkeyword : lineMarks.Disjoint keyword := by simp [keyword, lineMarks]
  have hspelled := disjoint_spelled fun l hl => disjoint_label (hstates l hl)
  have hmarks : ' ' ∉ lineMarks ∧ '\x7b' ∉ lineMarks ∧ '\x7d' ∉ lineMarks := by decide
  simp [declarationText, hkeyword, disjoint_name hname, hspelled, hmarks]

theorem disjoint_headerText {name : String} {parents : List String} (hname : isIdentifier name)
    (hparents : ∀ p ∈ parents, isIdentifier p) : lineMarks.Disjoint (headerText name parents) := by
  have hmarks : ' ' ∉ lineMarks ∧ '<' ∉ lineMarks ∧ '-' ∉ lineMarks := by decide
  simp [headerText, disjoint_name hname, disjoint_parentText hparents, hmarks]

/-- The only mark in a line is the colon of an entry. -/
theorem notMem_written {l : NetworkLine} (h : l.IsWritable) {c : Char} (hc : c ∈ lineMarks)
    (hcolon : c ≠ ':') : c ∉ l.written := by
  cases h with
  | declaration hname hstates => exact disjoint_declarationText hname hstates hc
  | header hname hparents => exact disjoint_headerText hname hparents hc
  | @entry state states value hstate hstates _ hvalue =>
    have hkey : c ∉ key state states := disjoint_key hstate hstates hc
    have hnumber : c ∉ value := disjoint_value hvalue hc
    have hblank : c ≠ ' ' := ne_of_mem_of_not_mem hc (by decide)
    simp [written, entryText, hkey, hnumber, hcolon, hblank]

/-- **A written line is its own content.** -/
theorem content?_written {l : NetworkLine} (h : l.IsWritable) :
    Line.content? l.written = some l.written := by
  suffices htrim : trim l.written = l.written ∧ l.written ≠ [] from
    Line.content?_eq_self (notMem_written h (by decide) (by decide)) htrim.1 htrim.2
  cases h with
  | @declaration v =>
    have hlast : ['\x7d'] <:+ declarationText v :=
      ⟨keyword ++ ' ' :: (v.name.toList ++ ' ' :: '\x7b' :: spelled v.states),
        by simp [declarationText]⟩
    have hfirst : ['v'] <+: declarationText v := ⟨_, rfl⟩
    exact ⟨trim_eq_self_of_ends hfirst hlast (by simp) (by simp) (List.forall_mem_singleton.2 rfl)
      (List.forall_mem_singleton.2 rfl), by simp [written, declarationText]⟩
  | @header name parents hid _ =>
    have hne := ne_nil_of_isIdentifier hid
    have hblank : ∀ c ∈ name.toList, isBlank c = false :=
      fun c hc => isBlank_of_inName (forall_inName hid c hc)
    refine ⟨?_, by simp [written, headerText]⟩
    by_cases hp : parents.isEmpty
    · have hlast : ['e'] <:+ headerText name parents :=
        ⟨name.toList ++ " <- Non".toList, by simp [headerText, parentText, hp]⟩
      exact trim_eq_self_of_ends (List.prefix_append name.toList _) hlast hne (by simp) hblank
        (List.forall_mem_singleton.2 rfl)
    · have hlast : [')'] <:+ headerText name parents :=
        ⟨name.toList ++ ' ' :: '<' :: '-' :: ' ' :: '(' :: spelled parents,
          by simp [headerText, parentText, hp]⟩
      exact trim_eq_self_of_ends (List.prefix_append name.toList _) hlast hne (by simp) hblank
        (List.forall_mem_singleton.2 rfl)
  | @entry state states value _ _ hne hvalue =>
    have hlast : value <:+ entryText state states value :=
      ⟨key state states ++ [':', ' '], by simp [entryText]⟩
    have hfirst : ['('] <+: entryText state states value := ⟨_, rfl⟩
    exact ⟨trim_eq_self_of_ends hfirst hlast (by simp) hne (List.forall_mem_singleton.2 rfl)
      fun c hc => Decimal.Literal.isBlank_of_inNumber (hvalue c hc), by simp [written, entryText]⟩

/-! ## No arrows -/

theorem arrow_spelled {labels : List String}
    (h : ∀ l ∈ labels, contains ['<', '-'] l.toList = false) :
    contains ['<', '-'] (spelled labels) = false :=
  contains_commaList (by decide) (by decide) (by decide) (by simpa using h)

theorem arrow_declarationText {v : Variable} (hname : isIdentifier v.name)
    (hstates : ∀ l ∈ v.states, IsLabel l) : contains ['<', '-'] (declarationText v) = false := by
  have hkeyword : contains ['<', '-'] keyword = false := by decide
  have hn : contains ['<', '-'] v.name.toList = false :=
    contains_eq_false (notMem_of_isIdentifier hname (by decide))
  have hs := arrow_spelled fun l hl => (hstates l hl).not_arrow
  simp (disch := decide) only [declarationText, contains_append_cons, contains_cons, contains_nil,
    hkeyword, hn, hs, Bool.or_self]

theorem arrow_key {state : String} {states : List String} (hstate : IsLabel state)
    (hstates : ∀ l ∈ states, IsLabel l) : contains ['<', '-'] (key state states) = false := by
  have hs := arrow_spelled fun l hl => (hstates l hl).not_arrow
  rw [key, keyLabels]
  split_ifs <;> simp (disch := decide) only [List.append_nil, contains_append_cons, contains_cons,
    contains_nil, hstate.not_arrow, hs, Bool.or_self]

theorem arrow_entryText {state : String} {states : List String} {value : List Char}
    (hstate : IsLabel state) (hstates : ∀ l ∈ states, IsLabel l)
    (hvalue : ∀ c ∈ value, Decimal.Literal.inNumber c) :
    contains ['<', '-'] (entryText state states value) = false := by
  have hv : contains ['<', '-'] value = false :=
    contains_eq_false fun hmem => absurd (hvalue _ hmem) (by decide)
  simp (disch := decide) only [entryText, contains_append_cons, contains_cons,
    arrow_key hstate hstates, hv, Bool.or_self]

end NetworkLine

end JointProb
