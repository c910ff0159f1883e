/-
  JointProb — the names and the states of variables.

  * `checkNames_eq_ok_iff`: the lists of names that are accepted are those of
    distinct identifiers, `ends_checkNames`: the faults of all others;
  * `noteNames_eq`: a map from names to positions takes the same ones, each with
    its position, so `noteNames_eq_ok_iff` are the maps that can be made;
  * `forall_inName`: the characters of identifiers, `notMem_of_isIdentifier` and
    `trim_of_isIdentifier`: what they do not have;
  * `Variable.lt_of_resolve?` and `Variable.lt_of_defaults?`: the states that
    labels lead to.
-/
import JointProb.Proofs.Result
import JointProb.Proofs.Text.Cut
import JointProb.Query.Bind
import Mathlib.Data.List.Nodup

namespace JointProb

variable {α : Type}

/-! ## Accepted names -/

theorem checkNames_eq_ok_iff {line : Nat} {seen names : List String} :
    (checkNames line seen names : Except (SpecError α) Unit) = .ok () ↔
      (∀ n ∈ names, isIdentifier n) ∧ names.Nodup ∧ ∀ n ∈ names, n ∉ seen := by
  induction names generalizing seen with
  | nil => simp [checkNames]
  | cons n names ih =>
    by_cases hid : isIdentifier n
    · by_cases hseen : n ∈ seen
      · simp [checkNames, hid, hseen]
      · rw [checkNames, if_neg (not_not.2 hid), if_neg hseen, ih]
        simp only [List.mem_cons, not_or, List.nodup_cons, forall_eq_or_imp]
        constructor
        · rintro ⟨h1, h2, h3⟩
          exact ⟨⟨hid, h1⟩, ⟨fun hn => (h3 n hn).1 rfl, h2⟩, hseen, fun m hm => (h3 m hm).2⟩
        · rintro ⟨⟨-, h1⟩, ⟨h2, h3⟩, -, h4⟩
          exact ⟨h1, h3, fun m hm => ⟨fun he => h2 (he ▸ hm), h4 m hm⟩⟩
    · simp [checkNames, hid]

/-- The faults of names are one that is no identifier and one that comes twice. -/
theorem ends_checkNames {E : SpecError α → Prop} (line : Nat)
    (hinvalid : ∀ name, E (.invalidDeclaration line (.invalidName name)))
    (hrepeated : ∀ name, E (.repeatedVariable line name)) (seen names : List String) :
    Ends E (fun _ => True) (checkNames line seen names) := by
  induction names generalizing seen with
  | nil => trivial
  | cons name names ih =>
    rw [checkNames]
    split_ifs
    · exact hrepeated name
    · exact ih _
    · exact hinvalid name

/-- **A map takes the names that are accepted after those in it**, and gets each
    of them with its position. -/
theorem noteNames_eq (index : Nat) (byName : List (String × Nat)) (names : List String) :
    (noteNames index byName names : Except (SpecError α) _) =
      (checkNames 0 (byName.map Prod.fst) names).map fun _ =>
        (names.zipIdx index).reverse ++ byName := by
  induction names generalizing index byName with
  | nil => rfl
  | cons name names ih =>
    have hseen : (byName.lookup name).isSome ↔ name ∈ byName.map Prod.fst := by
      rw [← not_iff_not, ← lookup_eq_none_iff_notMem, Bool.not_eq_true, Option.isSome_eq_false_iff,
        Option.isNone_iff_eq_none]
    rw [noteNames, checkNames, if_congr hseen rfl rfl]
    split_ifs
    · rfl
    · rw [ih, List.map_cons, List.zipIdx_cons, List.reverse_cons, List.append_assoc]
      rfl
    · rfl

/-- **The maps that can be made**: those of distinct identifiers, the last one in
    front. -/
theorem noteNames_eq_ok_iff {names : List String} {byName : List (String × Nat)} :
    (noteNames 0 [] names : Except (SpecError α) _) = .ok byName ↔
      ((∀ n ∈ names, isIdentifier n) ∧ names.Nodup) ∧ byName = names.zipIdx.reverse := by
  rw [noteNames_eq, List.map_nil, List.append_nil, map_eq_ok]
  constructor
  · rintro ⟨_, hcheck, rfl⟩
    obtain ⟨hid, hnodup, -⟩ := checkNames_eq_ok_iff.1 hcheck
    exact ⟨⟨hid, hnodup⟩, rfl⟩
  · rintro ⟨⟨hid, hnodup⟩, rfl⟩
    exact ⟨(), checkNames_eq_ok_iff.2 ⟨hid, hnodup, by simp⟩, rfl⟩

/-- A letter, a digit or an underscore. -/
def inName (c : Char) : Bool := c.isAlphanum || c == '_'

theorem forall_inName {name : String} (h : isIdentifier name) : ∀ c ∈ name.toList, inName c := by
  rw [isIdentifier] at h
  split at h
  · cases h
  · rename_i c cs heq
    rw [Bool.and_eq_true, List.all_eq_true] at h
    rw [heq]
    refine List.forall_mem_cons.2 ⟨?_, h.2⟩
    rw [inName, Char.isAlphanum, Bool.or_assoc, Bool.or_comm c.isDigit, ← Bool.or_assoc, h.1]
    rfl

theorem ne_nil_of_isIdentifier {name : String} (h : isIdentifier name) : name.toList ≠ [] := by
  intro hnil
  rw [isIdentifier, hnil] at h
  cases h

/-- Names have no blanks. -/
theorem isBlank_of_inName {c : Char} (h : inName c) : Text.isBlank c = false := by
  rw [inName, Bool.or_eq_true, Text.isAlphanum_iff, beq_iff_eq] at h
  rcases h with h | rfl
  · exact Text.isBlank_eq_false (by omega) (by omega)
  · rfl

theorem notMem_of_isIdentifier {name : String} (h : isIdentifier name) {c : Char}
    (hc : inName c = false) : c ∉ name.toList :=
  fun hmem => Bool.eq_false_iff.1 hc (forall_inName h c hmem)

theorem trim_of_isIdentifier {name : String} (h : isIdentifier name) :
    Text.trim name.toList = name.toList :=
  Text.trim_eq_self_of_forall fun c hc => isBlank_of_inName (forall_inName h c hc)

/-! ## States -/

namespace Variable

theorem lt_of_resolve? {v : Variable} {label : String} {s : Nat}
    (h : v.resolve? label = some s) : s < v.cardinality := by
  rw [resolve?] at h
  cases hfind : v.states.findIdx? (· == label) with
  | some i =>
    rw [hfind] at h
    cases h
    exact (List.findIdx?_eq_some_iff_getElem.1 hfind).1
  | none =>
    rw [hfind] at h
    simpa using (Option.filter_eq_some_iff.1 h).2

theorem lt_of_defaults? {v : Variable} {states : DefaultStates}
    (h : v.defaults? = some states) :
    states.falseState < v.cardinality ∧ states.trueState < v.cardinality := by
  rw [defaults?] at h
  split at h
  · rename_i first second hstates
    have hcard : v.cardinality = 2 := by rw [cardinality, hstates]; rfl
    split_ifs at h <;> cases h <;> simp [hcard]
  · cases h

end Variable

end JointProb
