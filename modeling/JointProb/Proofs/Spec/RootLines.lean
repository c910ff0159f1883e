/-
  JointProb — one line or two for a variable without parents.

      variable Rain {yes, no}     variable Rain {yes, no}     variable Rain {yes, no}
      Rain <- None                Rain <- None                Rain <- None
      1: 0.25                     0: 0.75                     1: 0.25
                                                              0: 0.75

  A single bit stands for the state whose label means it.  Two lines are in full
  notation, where a bit is a label or else a position: in the third text `1` is
  the second state, `no`.

  * `Variable.ReadsBits` holds if the bits, read in this way, are the states
    that they mean; `Block.fullPlace_bit`: if not, each is the other one;
  * `Block.node_of_bits`: so two lines give their probabilities to the states
    that they mean, or to the other ones;
  * `Block.rootLines`: how one line and two compare;
  * `Network.ofText_root_lines`: the texts above describe two different tables.
-/
import JointProb.Proofs.Spec.Notation
import JointProb.Spec.Build

namespace JointProb

open Text

/-! ## Bits as labels -/

namespace Bits

/-- A bit as a label. -/
def word (x : Bool) : String := String.ofList (text [x])

theorem toList_word (x : Bool) : (word x).toList = text [x] := String.toList_ofList

theorem isLabel_word (x : Bool) : IsLabel (word x) := by
  cases x <;> exact isLabel_of_lower rfl rfl

/-- Digits have no other case. -/
theorem eq_word {label : String} {x : Bool} (h : label.toList.map Char.toLower = text [x]) :
    label = word x := by
  obtain ⟨c, hlabel, hc⟩ := List.map_eq_singleton_iff.1 h
  have hdigit : c = digit x := eq_of_toLower_eq hc (by cases x <;> rfl)
  rw [← String.toList_inj, hlabel, hdigit, toList_word]
  rfl

end Bits

/-- Labels that mean false and true are the bits, or neither is one. -/
theorem bits_of_meansFalseTrue {no yes : String} (h : meansFalseTrue no yes) :
    (no = Bits.word false ∧ yes = Bits.word true) ∨ ∀ x, no ≠ Bits.word x ∧ yes ≠ Bits.word x := by
  have hwords : ∀ w ∈ booleanLabels, w = ("0", "1") ∨ ∀ x : Bool,
      (Bits.word x).toList.map Char.toLower ≠ w.1.toList.map Char.toLower ∧
        (Bits.word x).toList.map Char.toLower ≠ w.2.toList.map Char.toLower := by decide
  obtain ⟨w, hw, hno, hyes⟩ := exists_of_meansFalseTrue h
  rcases hwords w hw with rfl | hother
  · exact .inl ⟨Bits.eq_word hno, Bits.eq_word hyes⟩
  · refine .inr fun x => ⟨?_, ?_⟩
    · rintro rfl
      exact (hother x).1 hno
    · rintro rfl
      exact (hother x).2 hyes

namespace Variable

variable {v : Variable} {label : Bool → String}

/-- The bits are the labels that mean them, or the states stand in the order
    false, true. -/
def ReadsBits (v : Variable) (label : Bool → String) : Prop :=
  label true = "1" ∨ v.states = [label false, label true]

instance (v : Variable) (label : Bool → String) : Decidable (v.ReadsBits label) :=
  inferInstanceAs (Decidable (_ ∨ _))

/-- If no label is a bit, it is a position. -/
theorem resolve?_word (h : v.cardinality = 2) {x : Bool} (hnone : Bits.word x ∉ v.states) :
    v.resolve? (Bits.word x) = some x.toNat := by
  have hfind : v.states.findIdx? (· == Bits.word x) = none := by
    rw [List.findIdx?_eq_none_iff]
    intro l hl
    exact beq_false_of_ne fun heq => hnone (heq ▸ hl)
  rw [resolve?, hfind, Bits.toList_word, h]
  cases x <;> rfl

/-- A bit leads to the state that it means or to the other one. -/
theorem IsLabelled.stateOf_bit {α : Type} (h : v.IsLabelled label) (e : BlockEntry) (x : Bool) :
    (e.stateOf v (Bits.text [x]) : Except (SpecError α) Nat) =
      .ok (v.states.idxOf (label (if v.ReadsBits label then x else !x))) := by
  rcases bits_of_meansFalseTrue h.means with ⟨hno, hyes⟩ | hnone
  · have hlabel : label x = Bits.word x := by
      cases x
      · exact hno
      · exact hyes
    rw [if_pos (.inl hyes), ← Bits.toList_word, ← hlabel, BlockEntry.stateOf_of_mem (h.mem_states x)]
  · have hmem : Bits.word x ∉ v.states := by
      rcases h.states_eq with hs | hs <;>
        simp [hs, (hnone x).1.symm, (hnone x).2.symm]
    have hposition : (e.stateOf v (Bits.text [x]) : Except (SpecError α) Nat) = .ok x.toNat := by
      rw [BlockEntry.stateOf, ← Bits.word, resolve?_word h.cardinality_eq hmem]
    have hne := h.label_ne
    rw [hposition]
    rcases h.states_eq with hs | hs
    · rw [if_pos (.inr hs), hs]
      cases x <;> simp [hne]
    · have hreads : ¬ v.ReadsBits label := by
        rintro (hyes | hs')
        · exact (hnone true).2 hyes
        · exact hne (List.cons_eq_cons.1 (hs'.symm.trans hs)).1
      rw [if_neg hreads, hs]
      cases x <;> simp [hne.symm]

end Variable

namespace Block

variable {c : Catalog} {label : Nat → Bool → String} {b : Block} {p : ℚ} {settings : Settings ℚ}

/-! ## Two lines -/

/-- The place of an entry for a bit in full notation. -/
theorem fullPlace_bit (h : b.IsLabelled c label) (hroot : b.parents = []) {e : BlockEntry} {x : Bool}
    (hkey : e.key = Bits.text [x]) : (b.fullPlace c e : Except (SpecError ℚ) Nat) =
      .ok (b.placeOf c label [] (if (b.variableIn c).ReadsBits (label b.child) then x else !x)) := by
  have hread := BlockEntry.labels_of_label (α := ℚ) (hkey.trans (Bits.toList_word x).symm)
    (Bits.isLabel_word x)
  rw [Bits.toList_word] at hread
  have hparents : (parentStates c e b.parents [] : Except (SpecError ℚ) (List Nat)) = .ok [] := by
    rw [hroot]
    rfl
  rw [fullPlace_of_labels hread (by simp [hroot]) (h.child.stateOf_bit e x) hparents,
    h.child.cardinality_eq, placeOf, rowOf, List.zipWith_nil_right]
  rfl

theorem chance_not (p : ℚ) (x : Bool) : chance (1 - p) (!x) = chance p x := by
  cases x <;> simp [chance]

/-- **A block with a line for each bit**, in any order. -/
theorem node_of_bits (h : b.IsLabelled c label) (htolerance : 0 ≤ settings.tolerances.sum)
    (hroot : b.parents = []) (hb : b.Lists (fun x => Bits.text [x]) (chance p) [true, false]) :
    b.node c settings = .ok ⟨b.child, b.parents, b.tableOf c label fun _ =>
      if (b.variableIn c).ReadsBits (label b.child) then p else 1 - p⟩ := by
  obtain ⟨order, hperm, hentries⟩ := hb
  have hplaces := hentries.imp fun e x he => And.intro (fullPlace_bit h hroot he.1) he.2
  split_ifs at hplaces ⊢ with hreads
  · exact node_of_two h htolerance hroot hperm hplaces
  · have hflipped : (order.map (!·)).Perm [true, false] :=
      (hperm.map (!·)).trans (List.Perm.swap true false [])
    refine node_of_two h htolerance hroot hflipped (List.forall₂_map_right_iff.2 ?_)
    exact hplaces.imp fun e x he => ⟨he.1, by rw [he.2, chance_not]⟩

/-! ## One line and two -/

/-- A block without parents and with a line for each of some bits, in any
    order. -/
structure IsRoot (v : Nat) (p : ℚ) (xs : List Bool) (b : Block) : Prop where
  child_eq : b.child = v
  parents_eq : b.parents = []
  lists : b.Lists (fun x => Bits.text [x]) (chance p) xs

/-- The table of a variable without parents gives a probability to true. -/
structure Gives (c : Catalog) (label : Nat → Bool → String) (v : Nat) (p : ℚ) (ps : List ℚ) :
    Prop where
  length_eq : ps.length = 2
  getElem?_eq : ∀ x, ps[c.stateMeaning label v x]? = some (chance p x)

variable {v : Nat} {q : ℚ} {xs : List Bool}

theorem IsRoot.isLabelled (hb : b.IsRoot v p xs) (h : (c.variableAt v).IsLabelled (label v)) :
    b.IsLabelled c label := by
  rw [IsLabelled, hb.child_eq, hb.parents_eq, List.forall_mem_singleton]
  exact h

theorem IsRoot.tableOf_eq (hb : b.IsRoot v p xs) {b' : Block} {ys : List Bool}
    (hb' : b'.IsRoot v p ys) (r : ℚ) :
    b'.tableOf c label (fun _ => r) = b.tableOf c label fun _ => r :=
  tableOf_congr (hb'.child_eq.trans hb.child_eq.symm) (hb'.parents_eq.trans hb.parents_eq.symm) _

theorem IsRoot.gives (hb : b.IsRoot v p xs) (h : (c.variableAt v).IsLabelled (label v)) (r : ℚ) :
    Gives c label v r (b.tableOf c label fun _ => r) := by
  have hdescribes := describes_tableOf (hb.isLabelled h) fun _ => r
  refine ⟨by simpa [hb.parents_eq] using hdescribes.length_eq, fun x => ?_⟩
  have hplace : b.placeOf c label [] x = c.stateMeaning label v x := by
    simp [placeOf, rowOf, hb.child_eq, MixedRadix.value]
  rw [← hplace]
  exact hdescribes.getElem?_eq [] x (by simp [hb.parents_eq])

/-- **One line and two for a variable without parents.**  A line for either bit
    gives the same probability to the state that means true.  Both lines
    together do so if the bits are read as the states that they mean, and else
    give it to the other state: then the tables differ, unless both states have
    the same probability. -/
theorem rootLines (h : (c.variableAt v).IsLabelled (label v))
    (htolerance : 0 ≤ settings.tolerances.sum) {b₁ b₀ b₂ : Block} (h₁ : b₁.IsRoot v p [true])
    (h₀ : b₀.IsRoot v p [false]) (h₂ : b₂.IsRoot v p [true, false]) : ∃ ps qs : List ℚ,
      b₁.node c settings = .ok ⟨v, [], ps⟩ ∧ b₀.node c settings = .ok ⟨v, [], ps⟩ ∧
      b₂.node c settings = .ok ⟨v, [], qs⟩ ∧ Gives c label v p ps ∧
      Gives c label v (if (c.variableAt v).ReadsBits (label v) then p else 1 - p) qs ∧
      (qs = ps ↔ (c.variableAt v).ReadsBits (label v) ∨ p = 1 / 2) := by
  have hps := h₁.gives h p
  have hqs := h₂.gives h (if (c.variableAt v).ReadsBits (label v) then p else 1 - p)
  have hnode₁ := node_of_bit settings (h₁.isLabelled h) h₁.parents_eq h₁.lists
  have hnode₀ := node_of_bit settings (h₀.isLabelled h) h₀.parents_eq h₀.lists
  have hnode₂ := node_of_bits (h₂.isLabelled h) htolerance h₂.parents_eq h₂.lists
  rw [variableIn, h₂.child_eq, h₂.parents_eq] at hnode₂
  rw [h₁.child_eq, h₁.parents_eq] at hnode₁
  rw [h₀.child_eq, h₀.parents_eq, h₁.tableOf_eq h₀] at hnode₀
  refine ⟨_, _, hnode₁, hnode₀, hnode₂, hps, hqs, fun heq => ?_, fun hsame => ?_⟩
  · -- both tables give the same probability to true
    have htrue := (hqs.getElem?_eq true).symm.trans (heq ▸ hps.getElem?_eq true)
    simp only [chance, if_true, Option.some.injEq] at htrue
    split_ifs at htrue with hreads
    · exact .inl hreads
    · exact .inr (by linarith)
  · have hp : (if (c.variableAt v).ReadsBits (label v) then p else 1 - p) = p := by
      rcases hsame with hreads | rfl
      · exact if_pos hreads
      · norm_num
    rw [hp, h₁.tableOf_eq h₂]

/-- The true state stands first, and then the false one. -/
theorem rootLines_rain :
    let entry : Nat → String → String → BlockEntry := fun line key value =>
      ⟨line, key.toList, value.toList⟩
    let label : Nat → Bool → String := fun _ x => if x then "yes" else "no"
    let c : Catalog := .of [⟨"Rain", ["yes", "no"]⟩, ⟨"Late", ["no", "yes"]⟩]
    let one : Nat → Block := fun v => ⟨v, [], 3, [entry 4 "1" "0.25"]⟩
    let zero : Nat → Block := fun v => ⟨v, [], 3, [entry 4 "0" "75e-2"]⟩
    let two : Nat → Block := fun v => ⟨v, [], 3, [entry 4 "0" ".75", entry 5 "1" "0.250"]⟩
    0 ≤ (Settings.default : Settings ℚ).tolerances.sum ∧
      (∀ v < 2, (c.variableAt v).IsLabelled (label v) ∧ (one v).IsRoot v (1 / 4) [true] ∧
        (zero v).IsRoot v (1 / 4) [false] ∧ (two v).IsRoot v (1 / 4) [true, false]) ∧
      (∃ ps qs : List ℚ, (one 0).node c .default = .ok ⟨0, [], ps⟩ ∧
        (zero 0).node c .default = .ok ⟨0, [], ps⟩ ∧ (two 0).node c .default = .ok ⟨0, [], qs⟩ ∧
        Gives c label 0 (1 / 4) ps ∧ Gives c label 0 (3 / 4) qs ∧ qs ≠ ps) ∧
      ∃ ps : List ℚ, (one 1).node c .default = .ok ⟨1, [], ps⟩ ∧
        (zero 1).node c .default = .ok ⟨1, [], ps⟩ ∧ (two 1).node c .default = .ok ⟨1, [], ps⟩ ∧
        Gives c label 1 (1 / 4) ps := by
  intro entry label c one zero two
  have htolerance : 0 ≤ (Settings.default : Settings ℚ).tolerances.sum := by decide +kernel
  have hlabelled : ∀ v < 2, (c.variableAt v).IsLabelled (label v) := by decide
  have hone : ∀ v, (one v).IsRoot v (1 / 4) [true] := fun v =>
    ⟨rfl, rfl, [true], .refl _, .cons (by decide +kernel) .nil⟩
  have hzero : ∀ v, (zero v).IsRoot v (1 / 4) [false] := fun v =>
    ⟨rfl, rfl, [false], .refl _, .cons (by decide +kernel) .nil⟩
  have htwo : ∀ v, (two v).IsRoot v (1 / 4) [true, false] := fun v =>
    ⟨rfl, rfl, [false, true], .swap _ _ _,
      .cons (by decide +kernel) (.cons (by decide +kernel) .nil)⟩
  have hrain : ¬ (c.variableAt 0).ReadsBits (label 0) := by decide
  have hlate : (c.variableAt 1).ReadsBits (label 1) := by decide
  obtain ⟨ps, qs, h₁, h₀, h₂, hps, hqs, heq⟩ :=
    rootLines (hlabelled 0 (by decide)) htolerance (hone 0) (hzero 0) (htwo 0)
  obtain ⟨ps', qs', h₁', h₀', h₂', hps', -, heq'⟩ :=
    rootLines (hlabelled 1 (by decide)) htolerance (hone 1) (hzero 1) (htwo 1)
  rw [if_neg hrain] at hqs
  refine ⟨htolerance, fun v hv => ⟨hlabelled v hv, hone v, hzero v, htwo v⟩,
    ⟨ps, qs, h₁, h₀, h₂, hps, by norm_num at hqs; exact hqs, fun hsame => ?_⟩,
    ps', h₁', h₀', heq'.2 (.inl hlate) ▸ h₂', hps'⟩
  rcases heq.1 hsame with hreads | hhalf
  · exact hrain hreads
  · norm_num at hhalf

end Block

/-- **One line and two describe different tables** for a variable that has no
    parents and whose first label means true. -/
theorem Network.ofText_root_lines :
    let text : String → String := fun lines =>
      "variable Rain \x7byes, no\x7d\nRain <- None\n" ++ lines
    let network : List ℚ → Network ℚ := fun table =>
      ⟨.of [⟨"Rain", ["yes", "no"]⟩], [⟨0, [], table⟩]⟩
    0 ≤ (Settings.default : Settings ℚ).tolerances.sum ∧
      ofText .default (text "1: 0.25") = .ok (network [1 / 4, 3 / 4]) ∧
      ofText .default (text "0: 0.75") = .ok (network [1 / 4, 3 / 4]) ∧
      ofText .default (text "1: 0.25\n0: 0.75") = .ok (network [3 / 4, 1 / 4]) := by
  intro text network
  have h (lines : String) (table : List ℚ)
      (hread : (ofText .default (text lines)).toOption = some (network table)) :
      ofText .default (text lines) = .ok (network table) := toOption_eq_some.1 hread
  refine ⟨by decide +kernel, h _ _ ?_, h _ _ ?_, h _ _ ?_⟩
  all_goals
    simp only [ofText, NetworkDraft.read, Line.numbered, text, String.toList_append]
    decide +kernel

end JointProb
