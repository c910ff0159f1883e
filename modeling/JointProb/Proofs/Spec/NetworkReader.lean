/-
  JointProb — how the lines of network specifications are read.

  A line that is written as one kind is read as this kind, whatever the names
  and labels in it are: a variable may be called `variable` or `None`.

  * `NetworkDraft.readLine_declaration`: a declaration declares its variable;
  * `NetworkDraft.readLine_header`: a header opens the block of its variable;
  * `NetworkDraft.readLine_entry`: an entry is added to the open block.
-/
import JointProb.Proofs.Spec.NetworkLine

namespace JointProb

open Text

variable {α : Type}

/-! ## Reading declarations -/

namespace NetworkDraft

open NetworkLine

theorem readStates_eq_ok {labels : List String} (seen : List String) (hne : "" ∉ labels)
    (hnodup : (seen ++ labels).Nodup) (line : Nat) :
    (readStates line seen (labels.map String.toList) : Except (SpecError α) (List String)) =
      .ok (seen ++ labels) := by
  induction labels generalizing seen with
  | nil => rw [List.append_nil]; rfl
  | cons l labels ih =>
    rw [List.mem_cons, not_or] at hne
    have hempty : ¬ l.toList.isEmpty := by simpa using Ne.symm hne.1
    have hnew : l ∉ seen := fun hmem => List.disjoint_of_nodup_append hnodup hmem (by simp)
    have hrest := ih (seen ++ [l]) hne.2 (by simpa using hnodup)
    rw [List.append_assoc, List.singleton_append] at hrest
    simpa only [List.map_cons, readStates, if_neg hempty, String.ofList_toList, if_neg hnew]
      using hrest

/-- What a declaration says after its first word. -/
theorem declaration?_declarationText {v : Variable} (hname : isIdentifier v.name)
    (hstates : ∀ l ∈ v.states, IsLabel l) :
    declaration? (declarationText v) =
      some (v.name.toList ++ ' ' :: '\x7b' :: (spelled v.states ++ ['\x7d'])) := by
  have hstart : dropStart? "variable".toList (declarationText v) =
      some (' ' :: (v.name.toList ++ ' ' :: '\x7b' :: (spelled v.states ++ ['\x7d']))) :=
    dropStart?_append keyword _
  have hcolon : contains [':'] (declarationText v) = false :=
    contains_eq_false (disjoint_declarationText hname hstates (by decide))
  have hlast : ['\x7d'] <:+ v.name.toList ++ ' ' :: '\x7b' :: (spelled v.states ++ ['\x7d']) :=
    ⟨v.name.toList ++ ' ' :: '\x7b' :: spelled v.states, by simp⟩
  have htrim := trim_eq_self_of_ends (List.prefix_append v.name.toList _) hlast
    (ne_nil_of_isIdentifier hname) (by simp)
    (fun c hc => isBlank_of_inName (forall_inName hname c hc)) (List.forall_mem_singleton.2 rfl)
  have hblank : isBlank ' ' := by decide
  simp only [declaration?, hstart, hblank, arrow_declarationText hname hstates, hcolon, htrim]
  rfl

theorem readVariable_eq_ok {v : Variable} (hname : isIdentifier v.name)
    (hstates : ∀ l ∈ v.states, IsLabel l) (hne : "" ∉ v.states) (hnodup : v.states.Nodup)
    (htwo : 2 ≤ v.states.length) (line : Nat) :
    (readVariable line (v.name.toList ++ ' ' :: '\x7b' :: (spelled v.states ++ ['\x7d'])) :
      Except (SpecError α) Variable) = .ok v := by
  have hcut : cut? ['\x7b'] (v.name.toList ++ ' ' :: '\x7b' :: (spelled v.states ++ ['\x7d'])) =
      some (v.name.toList ++ [' '], spelled v.states ++ ['\x7d']) := by
    have hfront : '\x7b' ∉ v.name.toList ++ [' '] := by
      simpa using notMem_of_isIdentifier hname (by decide)
    simpa using cut?_append hfront (spelled v.states ++ ['\x7d'])
  have hfields : fields (spelled v.states) = v.states.map String.toList :=
    fields_spelled (List.ne_nil_of_length_pos (by omega))
      (fun l hl => (hstates l hl).notMem ',' (by decide)) fun l hl => (hstates l hl).trim_eq
  have hread := readStates_eq_ok (α := α) [] hne (by simpa using hnodup) line
  have htrim : trim (v.name.toList ++ [' ']) = v.name.toList := by
    rw [trim_append_blank, trim_of_isIdentifier hname]
  simp only [readVariable, hcut, readBody, dropEnd?_append, hfields, hread, List.nil_append,
    if_neg (Nat.not_lt.2 htwo), checkedVariable, htrim, String.ofList_toList, hname]
  rfl

/-- **A declaration declares its variable.** -/
theorem readLine_declaration {d : NetworkDraft} {v : Variable} (hd : d.blocks = [])
    (hname : isIdentifier v.name) (hstates : ∀ l ∈ v.states, IsLabel l) (hne : "" ∉ v.states)
    (hnodup : v.states.Nodup) (htwo : 2 ≤ v.states.length)
    (hnew : v.name ∉ d.vars.map Variable.name) (line : Nat) :
    (d.readLine line (declarationText v) : Except (SpecError α) NetworkDraft) =
      .ok { d with vars := d.vars ++ [v] } := by
  have hnone := Line.variablesHeader?_eq_none
    (disjoint_declarationText hname hstates (by decide))
  have hfresh : d.vars.any (·.name == v.name) = false := by
    rw [List.any_eq_false]
    intro w hw heq
    exact hnew (eq_of_beq heq ▸ List.mem_map_of_mem hw)
  simp only [readLine, hnone, declaration?_declarationText hname hstates,
    readVariable_eq_ok hname hstates hne hnodup htwo, checkDeclaring, declare, hd, bind,
    Except.bind, hfresh]
  rfl

/-! ## Reading headers -/

/-- A line with an arrow is no declaration. -/
theorem declaration?_eq_none_of_arrow {cs : List Char} (h : contains ['<', '-'] cs) :
    declaration? cs = none := by
  rw [declaration?]
  split
  · rw [if_neg]
    rintro ⟨-, harrow, -⟩
    exact harrow h
  · rfl

variable {d : NetworkDraft}

theorem nameOf_eq {i : Nat} (hi : i < d.vars.length) : d.nameOf i = d.vars[i].name := by
  simp [nameOf, List.getElem?_eq_getElem hi]

theorem isIdentifier_nameOf (hid : ∀ v ∈ d.vars, isIdentifier v.name) {i : Nat}
    (hi : i < d.vars.length) : isIdentifier (d.nameOf i) := by
  rw [nameOf_eq hi]
  exact hid _ (List.getElem_mem hi)

theorem isIdentifier_names (hid : ∀ v ∈ d.vars, isIdentifier v.name) {is : List Nat}
    (hlt : ∀ i ∈ is, i < d.vars.length) : ∀ n ∈ is.map d.nameOf, isIdentifier n := by
  intro n hn
  obtain ⟨i, hi, rfl⟩ := List.mem_map.1 hn
  exact isIdentifier_nameOf hid (hlt i hi)

/-- A name is found where it is declared. -/
theorem indexOf?_eq_some_iff (hnodup : (d.vars.map Variable.name).Nodup) {name : List Char}
    {i : Nat} :
    d.indexOf? name = some i ↔ (d.vars.map Variable.name)[i]? = some (String.ofList name) := by
  have hget (j : Nat) (hj : j < d.vars.length) :
      (d.vars.map Variable.name)[j]? = some d.vars[j].name := by
    rw [List.getElem?_map, List.getElem?_eq_getElem hj, Option.map_some]
  rw [indexOf?, List.findIdx?_eq_some_iff_getElem]
  simp only [beq_iff_eq]
  constructor
  · rintro ⟨hi, hname, -⟩
    rw [hget i hi, hname]
  · intro h
    have hi : i < d.vars.length := by simpa using (List.getElem?_eq_some_iff.1 h).1
    refine ⟨hi, Option.some_inj.1 ((hget i hi).symm.trans h), fun j hj heq => ?_⟩
    have hsame := (hget j (hj.trans hi)).trans (heq ▸ h.symm)
    have hlt : j < (d.vars.map Variable.name).length := by simpa using hj.trans hi
    exact Nat.ne_of_lt hj ((List.getElem?_inj hlt hnodup).1 hsame)

theorem lookup_nameOf (hnodup : (d.vars.map Variable.name).Nodup) {i : Nat}
    (hi : i < d.vars.length) (line : Nat) :
    (d.lookup line (d.nameOf i).toList : Except (SpecError α) Nat) = .ok i := by
  have hindex : d.indexOf? (d.nameOf i).toList = some i := by
    rw [indexOf?_eq_some_iff hnodup, String.ofList_toList, nameOf_eq hi]
    simp [List.getElem?_eq_getElem hi]
  simp only [lookup, hindex]

theorem readParents_eq_ok (hnodup : (d.vars.map Variable.name).Nodup) {parents : List Nat}
    (seen : List Nat)
    (hlt : ∀ p ∈ parents, p < d.vars.length) (hparents : (seen ++ parents).Nodup)
    (line child : Nat) :
    (d.readParents line child seen ((parents.map d.nameOf).map String.toList) :
      Except (SpecError α) (List Nat)) = .ok (seen ++ parents) := by
  induction parents generalizing seen with
  | nil => rw [List.append_nil]; rfl
  | cons p parents ih =>
    obtain ⟨hp, hlt⟩ := List.forall_mem_cons.1 hlt
    have hnew : p ∉ seen := fun hmem => List.disjoint_of_nodup_append hparents hmem (by simp)
    have hrest := ih (seen ++ [p]) hlt (by simpa using hparents)
    rw [List.append_assoc, List.singleton_append] at hrest
    simpa only [List.map_cons, readParents, lookup_nameOf hnodup hp, if_neg hnew] using hrest

/-- The names after an arrow. -/
theorem parentNames_parentText {parents : List String} (hid : ∀ p ∈ parents, isIdentifier p) :
    parentNames (' ' :: parentText parents) = parents.map String.toList := by
  cases parents with
  | nil => decide
  | cons p ps =>
    have htext : parentText (p :: ps) = '(' :: (spelled (p :: ps) ++ [')']) := rfl
    have hsome : ¬ (('(' :: (spelled (p :: ps) ++ [')'])).isEmpty ∨
        equalUpToCase ('(' :: (spelled (p :: ps) ++ [')'])) "none".toList) := by
      simp [equalUpToCase]
    have hfields : fields (spelled (p :: ps)) = (p :: ps).map String.toList :=
      fields_spelled (List.cons_ne_nil p ps)
        (fun l hl => notMem_of_isIdentifier (hid l hl) (by decide))
        fun l hl => trim_of_isIdentifier (hid l hl)
    simp only [parentNames, htext, trim_blank_cons, trim_parens, if_neg hsome, dropParens,
      Option.getD_some, hfields]
    refine List.filter_eq_self.2 fun n hn => ?_
    obtain ⟨l, hl, rfl⟩ := List.mem_map.1 hn
    simpa using ne_nil_of_isIdentifier (hid l hl)

theorem readHeader_headerText (hid : ∀ v ∈ d.vars, isIdentifier v.name)
    (hnodup : (d.vars.map Variable.name).Nodup) {child : Nat} {parents : List Nat}
    (hchild : child < d.vars.length) (hlt : ∀ p ∈ parents, p < d.vars.length)
    (hparents : parents.Nodup) (line : Nat) :
    (d.readHeader line (headerText (d.nameOf child) (parents.map d.nameOf)) :
      Except (SpecError α) (Option (Nat × List Nat))) = .ok (some (child, parents)) := by
  have hname := isIdentifier_nameOf hid hchild
  have hnames := isIdentifier_names hid hlt
  have hcut : cut? ['<', '-'] (headerText (d.nameOf child) (parents.map d.nameOf)) =
      some ((d.nameOf child).toList ++ [' '], ' ' :: parentText (parents.map d.nameOf)) := by
    have hfront : '<' ∉ (d.nameOf child).toList ++ [' '] := by
      simpa using notMem_of_isIdentifier hname (by decide)
    have hmark : headerText (d.nameOf child) (parents.map d.nameOf) =
        (d.nameOf child).toList ++ [' '] ++
          (['<', '-'] ++ ' ' :: parentText (parents.map d.nameOf)) := by
      simp [headerText]
    rw [hmark]
    exact cut?_append_mark hfront _
  have htrim : trim ((d.nameOf child).toList ++ [' ']) = (d.nameOf child).toList := by
    rw [trim_append_blank, trim_of_isIdentifier hname]
  have hread := readParents_eq_ok (α := α) hnodup [] hlt (by simpa using hparents) line child
  simp only [readHeader, hcut, htrim, lookup_nameOf hnodup hchild, parentNames_parentText hnames,
    hread]
  rfl

/-- **A header opens the block of its variable.** -/
theorem readLine_header (hid : ∀ v ∈ d.vars, isIdentifier v.name)
    (hnodup : (d.vars.map Variable.name).Nodup) {child : Nat} {parents : List Nat}
    (hchild : child < d.vars.length) (hlt : ∀ p ∈ parents, p < d.vars.length)
    (hparents : parents.Nodup) (hnew : ∀ b ∈ d.blocks, b.child ≠ child) (line : Nat) :
    (d.readLine line (headerText (d.nameOf child) (parents.map d.nameOf)) :
      Except (SpecError α) NetworkDraft) =
      .ok { d with blocks := ⟨child, parents, line, []⟩ :: d.blocks } := by
  have hname := isIdentifier_nameOf hid hchild
  have hnames := isIdentifier_names hid hlt
  have hnone := Line.variablesHeader?_eq_none (disjoint_headerText hname hnames (by decide))
  have harrow : contains ['<', '-'] (headerText (d.nameOf child) (parents.map d.nameOf)) := by
    rw [contains_iff (by decide)]
    exact ⟨(d.nameOf child).toList ++ [' '], ' ' :: parentText (parents.map d.nameOf),
      by simp [headerText]⟩
  have hvars : ¬ d.vars.isEmpty := by
    rw [List.isEmpty_iff]
    exact List.ne_nil_of_length_pos (by omega)
  have hfresh : ¬ d.blocks.any (·.child == child) := by simpa using hnew
  simp only [readLine, hnone, declaration?_eq_none_of_arrow harrow, if_neg hvars,
    readHeader_headerText hid hnodup hchild hlt hparents, openBlock, if_neg hfresh]

/-! ## Reading entries -/

/-- A line in parentheses is no declaration. -/
theorem declaration?_paren_cons (cs : List Char) : declaration? ('(' :: cs) = none := by
  have hstart : dropStart? "variable".toList ('(' :: cs) = none := by simp [dropStart?]
  simp only [declaration?, hstart]

theorem variablesHeader?_paren_cons (cs : List Char) :
    Line.variablesHeader? ('(' :: cs) = none := by
  simp [Line.variablesHeader?, equalUpToCase]

/-- The colon after a key is the first one. -/
theorem cut?_entryText {state : String} {states : List String} {value : List Char}
    (hstate : IsLabel state) (hstates : ∀ l ∈ states, IsLabel l) :
    cut? [':'] (entryText state states value) = some (key state states, ' ' :: value) := by
  have hcolon : ':' ∉ key state states := disjoint_key hstate hstates (by decide)
  exact cut?_append hcolon (' ' :: value)

theorem readHeader_entryText (hid : ∀ v ∈ d.vars, isIdentifier v.name) {state : String}
    {states : List String} {value : List Char} (hstate : IsLabel state)
    (hstates : ∀ l ∈ states, IsLabel l) (hvalue : ∀ c ∈ value, Decimal.Literal.inNumber c)
    (line : Nat) :
    (d.readHeader line (entryText state states value) :
      Except (SpecError α) (Option (Nat × List Nat))) = .ok none := by
  have hindex : d.indexOf? (trim (key state states)) = none := by
    rw [indexOf?, List.findIdx?_eq_none_iff]
    intro v hv
    rw [beq_eq_false_iff_ne]
    rintro hname
    have hparen : '(' ∈ v.name.toList := by
      rw [hname, trim_key, String.toList_ofList]
      exact List.mem_cons_self ..
    exact notMem_of_isIdentifier (hid v hv) (by decide) hparen
  simp only [readHeader, cut?_eq_none (arrow_entryText hstate hstates hvalue),
    cut?_entryText hstate hstates, hindex]

/-- **An entry is added to the open block.** -/
theorem readLine_entry (hid : ∀ v ∈ d.vars, isIdentifier v.name) (hvars : d.vars ≠ [])
    {block : Block} {blocks : List Block} (hblocks : d.blocks = block :: blocks) {state : String}
    {states : List String} {value : List Char} (hstate : IsLabel state)
    (hstates : ∀ l ∈ states, IsLabel l) (hvalue : ∀ c ∈ value, Decimal.Literal.inNumber c)
    (line : Nat) :
    (d.readLine line (entryText state states value) : Except (SpecError α) NetworkDraft) =
      .ok { d with blocks := { block with
        entries := block.entries ++ [⟨line, key state states, value⟩] } :: blocks } := by
  have htrim : trim (' ' :: value) = value := by
    rw [trim_blank_cons]
    exact trim_eq_self_of_forall fun c hc => Decimal.Literal.isBlank_of_inNumber (hvalue c hc)
  have hnone : Line.variablesHeader? (entryText state states value) = none :=
    variablesHeader?_paren_cons _
  have hdecl : declaration? (entryText state states value) = none := declaration?_paren_cons _
  have hvars : ¬ d.vars.isEmpty := by rwa [List.isEmpty_iff]
  simp only [readLine, hnone, hdecl, if_neg hvars, readHeader_entryText hid hstate hstates hvalue,
    readEntry, hblocks, cut?_entryText hstate hstates, trim_key, htrim]

end NetworkDraft

end JointProb
