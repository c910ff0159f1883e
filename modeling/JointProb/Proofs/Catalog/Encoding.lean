/-
  JointProb — the numbering of the assignments of a catalog.

  * `Catalog.InRange` are the assignments of a catalog: a state for each
    variable, below the number of its states;
  * `Catalog.Numbered` says that assignments and numbers below the size are
    the same thing in two forms, and that words can compute either from the
    other;
  * `Catalog.numbered_of_ofVariables`: this holds of all catalogs that can be
    made of variables with states.
-/
import JointProb.Proofs.Catalog.InStep
import JointProb.Proofs.MixedRadix

namespace JointProb.Catalog

variable {α : Type}

/-- A state for each variable. -/
def InRange (c : Catalog) (states : List Nat) : Prop :=
  MixedRadix.Below c.cardinalities states

/-- The assignments of a catalog are numbered from zero, in their order, the
    first variable most significant. -/
structure Numbered (c : Catalog) : Prop where
  /-- There are as many numbers as the product of the numbers of states. -/
  size_eq : c.size = (c.vars.map Variable.cardinality).prod
  /-- A product that stays at the limit of reports is the size. -/
  cappedProduct_eq : MixedRadix.cappedProduct countLimit c.cardinalities = c.size
  /-- The place values can be computed with words. -/
  wordPlaceValues : MixedRadix.wordPlaceValues? c.cardinalities = some c.placeValues
  /-- The numbers of assignments can be computed with words. -/
  wordValue {a : List Nat} (h : c.InRange a) :
    MixedRadix.wordValue? c.placeValues a = some (c.encode a)
  encode_lt_size {a : List Nat} (h : c.InRange a) : c.encode a < c.size
  decode_encode {a : List Nat} (h : c.InRange a) : c.decode (c.encode a) = a
  inRange_decode {i : Nat} (h : i < c.size) : c.InRange (c.decode i)
  encode_decode {i : Nat} (h : i < c.size) : c.encode (c.decode i) = i
  /-- The state of one variable is the one in the whole assignment. -/
  getElem?_decode {v : Nat} (i : Nat) (h : v < c.vars.length) :
    (c.decode i)[v]? = some (c.stateAt i v)
  /-- It is found with the place value and the number of states alone. -/
  stateAt_eq {v p r : Nat} (i : Nat) (hp : c.placeValues[v]? = some p)
    (hr : c.cardinalities[v]? = some r) : c.stateAt i v = i / p % r
  /-- The order of numbers is that of assignments, the first variable first. -/
  encode_lt_encode_iff {a b : List Nat} (ha : c.InRange a) (hb : c.InRange b) :
    c.encode a < c.encode b ↔ a < b

theorem cardinalities_pos {c : Catalog} (h : ∀ v ∈ c.vars, 0 < v.cardinality) :
    ∀ r ∈ c.cardinalities, 0 < r := by
  simpa [cardinalities] using h

theorem numbered {c : Catalog} (hpos : ∀ v ∈ c.vars, 0 < v.cardinality)
    (hsize : c.size < Text.wordLimit) : c.Numbered where
  size_eq := MixedRadix.size_eq_prod _
  cappedProduct_eq := by
    have hle : c.size ≤ countLimit := (Nat.le_of_lt hsize).trans (by decide)
    rw [MixedRadix.cappedProduct_eq (by decide)]
    exact Nat.min_eq_left hle
  wordPlaceValues := MixedRadix.wordPlaceValues?_eq_some (cardinalities_pos hpos) hsize
  wordValue h := MixedRadix.wordValue?_eq_some h hsize
  encode_lt_size h := MixedRadix.value_lt_size h
  decode_encode h := MixedRadix.digits_value h
  inRange_decode h := MixedRadix.below_digits h
  encode_decode h := MixedRadix.value_digits h
  getElem?_decode i h := MixedRadix.getElem?_digits _ i _ (by simpa [cardinalities] using h)
  stateAt_eq i hp hr := MixedRadix.digit_eq i hp hr
  encode_lt_encode_iff ha hb := MixedRadix.value_lt_value_iff ha hb

/-- **Catalogs number their assignments.**  A catalog that was made of
    variables with states has a size within the cap, and no computation of
    places, numbers or states leaves the words. -/
theorem numbered_of_ofVariables {vars : List Variable} {cap : Nat} {c : Catalog}
    (hpos : ∀ v ∈ vars, 0 < v.cardinality)
    (h : (ofVariables vars cap : Except (SpecError α) Catalog) = .ok c) :
    c.vars = vars ∧ c.size ≤ cap ∧ c.Numbered := by
  obtain ⟨rfl, -, hcap, hword, -⟩ := ofVariables_eq_ok_iff.1 h
  exact ⟨rfl, hcap, numbered hpos hword⟩

/-- Three variables, of two, three and two states. -/
theorem numbered_of_ofVariables_mixed :
    let vars : List Variable :=
      [.boolean "Rain", ⟨"Sky", ["Clear", "Grey", "Dark"]⟩, .boolean "Late"]
    (∀ v ∈ vars, 0 < v.cardinality) ∧
      (ofVariables vars 12 : Except (SpecError Nat) Catalog) = .ok (.of vars) ∧
      (Catalog.of vars).size ≤ 12 ∧ (Catalog.of vars).Numbered := by
  intro vars
  have hpos : ∀ v ∈ vars, 0 < v.cardinality := by decide
  have h : (ofVariables vars 12 : Except (SpecError Nat) Catalog) = .ok (.of vars) := rfl
  exact ⟨hpos, h, (numbered_of_ofVariables hpos h).2⟩

end JointProb.Catalog
