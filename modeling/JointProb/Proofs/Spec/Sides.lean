/-
  JointProb — the two sides of a line.

  A header has an arrow or a colon, an entry a colon.

  * `NetworkDraft.sides?` are the mark of a line and what stands on either side
    of it;
  * `NetworkDraft.readHeader_eq_some_iff` and `readHeader_eq_none_iff`: when a
    line is a header and when it is none, in terms of these;
  * `NetworkDraft.isDeclaration_eq_false_of_sides`: what stands behind the mark
    does not make a line a declaration.
-/
import JointProb.Proofs.Spec.NetworkReader
import JointProb.Proofs.Spec.Network

namespace JointProb.NetworkDraft

open Text

variable {α : Type} {d : NetworkDraft} {line child : ℕ} {content content' : List Char}

/-- The mark of a line, and what stands in front of it and behind it. -/
structure Sides where
  arrow : Bool
  left : List Char
  right : List Char
deriving DecidableEq, Repr

/-- A line is cut at its first arrow, or else at its first colon. -/
def sides? (content : List Char) : Option Sides :=
  match cut? ['<', '-'] content with
  | some sides => some ⟨true, sides.1, sides.2⟩
  | none => (cut? [':'] content).map fun sides => ⟨false, sides.1, sides.2⟩

/-- What marks the line. -/
def Sides.mark (s : Sides) : List Char := if s.arrow then ['<', '-'] else [':']

variable {s : Sides}

theorem eq_of_sides (h : sides? content = some s) : content = s.left ++ (s.mark ++ s.right) := by
  rw [sides?] at h
  split at h
  · next hcut =>
    cases h
    exact eq_of_cut? hcut
  · obtain ⟨_, hcut, rfl⟩ := Option.map_eq_some_iff.1 h
    exact eq_of_cut? hcut

/-! ## Declarations -/

/-- A line with a mark declares variables behind the common header, or none. -/
theorem isDeclaration_eq (h : sides? content = some s) :
    isDeclaration content = (Line.variablesHeader? content).isSome := by
  have hmarked : contains ['<', '-'] content ∨ contains [':'] content := by
    rw [sides?] at h
    split at h
    · next hcut => exact .inl (by rw [contains, hcut]; rfl)
    · obtain ⟨_, hcut, -⟩ := Option.map_eq_some_iff.1 h
      exact .inr (by rw [contains, hcut]; rfl)
  have hnone : declaration? content = none := by
    rw [declaration?]
    split
    · rw [if_neg]
      rintro ⟨-, harrow, hcolon⟩
      exact hmarked.elim harrow hcolon
    · rfl
  rw [isDeclaration, hnone, Option.isSome_none, Bool.or_false]

/-- The common header ends in front of the mark or with it. -/
theorem header_prefix_of_sides (h : sides? content = some s) {word : List Char}
    (hword : word.map Char.toLower = "variables".toList) (hstart : word ++ [':'] <+: content) :
    word ++ [':'] <+: s.left ++ s.mark := by
  have hmark : s.left ++ s.mark <+: content := by
    rw [eq_of_sides h, ← List.append_assoc]
    exact List.prefix_append _ _
  have hlower {c d : Char} (hc : c ∈ word) (hd : c.toLower = d) : d ∈ "variables".toList := by
    rw [← hword, ← hd]
    exact List.mem_map_of_mem hc
  refine (List.prefix_or_prefix_of_prefix hstart hmark).elim id fun hless => ?_
  rcases List.prefix_concat_iff.1 hless with heq | hfront
  · rw [heq]
  · -- then the mark would stand in the word
    cases harrow : s.arrow with
    | true =>
      have hmem : '<' ∈ word := hfront.subset (by simp [Sides.mark, harrow])
      exact absurd (hlower hmem rfl) (by decide)
    | false =>
      have hmem : ':' ∈ word := hfront.subset (by simp [Sides.mark, harrow])
      exact absurd (hlower hmem rfl) (by decide)

/-- **What stands behind the mark** does not make a line a declaration. -/
theorem isDeclaration_eq_false_of_sides {right : List Char} (h : sides? content = some s)
    (h' : sides? content' = some { s with right }) (hdecl : isDeclaration content = false) :
    isDeclaration content' = false := by
  rw [isDeclaration_eq h] at hdecl
  rw [isDeclaration_eq h', Bool.eq_false_iff, Ne, Line.isSome_variablesHeader?_iff]
  rintro ⟨word, hword, hstart⟩
  have hfront : word ++ [':'] <+: s.left ++ s.mark := header_prefix_of_sides h' hword hstart
  refine Bool.eq_false_iff.1 hdecl (Line.isSome_variablesHeader?_iff.2 ⟨word, hword, ?_⟩)
  rw [eq_of_sides h, ← List.append_assoc]
  exact hfront.trans (List.prefix_append _ _)

/-! ## Headers -/

/-- **The parents are distinct variables with the names.** -/
theorem readParents_eq_ok_iff {seen parents : List ℕ} {names : List (List Char)}
    (hseen : seen.Nodup) :
    (d.readParents line child seen names : Except (SpecError α) (List ℕ)) = .ok parents ↔
      ∃ ps, parents = seen ++ ps ∧ List.Forall₂ (fun n p => d.indexOf? n = some p) names ps ∧
        (seen ++ ps).Nodup := by
  induction names generalizing seen with
  | nil =>
    simp only [readParents, Except.ok.injEq, List.forall₂_nil_left_iff]
    constructor
    · rintro rfl
      exact ⟨[], by simp, rfl, by simpa using hseen⟩
    · rintro ⟨ps, rfl, rfl, -⟩
      simp
  | cons name names ih =>
    simp only [readParents, lookup, List.forall₂_cons_left_iff]
    cases hp : d.indexOf? name with
    | none => simp
    | some p =>
      simp only [Option.some.injEq]
      split_ifs with hmem
      · refine iff_of_false (by simp) ?_
        rintro ⟨_, -, ⟨_, ps, rfl, -, rfl⟩, hnodup⟩
        exact List.disjoint_of_nodup_append hnodup hmem (by simp)
      · have hseen' : (seen ++ [p]).Nodup := by
          rw [← List.concat_eq_append]
          exact hseen.concat hmem
        rw [ih hseen']
        constructor
        · rintro ⟨ps, rfl, hps, hnodup⟩
          exact ⟨p :: ps, by simp, ⟨p, ps, rfl, hps, rfl⟩, by simpa using hnodup⟩
        · rintro ⟨_, rfl, ⟨_, ps, rfl, hps, rfl⟩, hnodup⟩
          exact ⟨ps, by simp, hps, by simpa using hnodup⟩

/-- Where the names of the parents lead. -/
def Parents (d : NetworkDraft) (names : List (List Char)) (parents : List ℕ) : Prop :=
  List.Forall₂ (fun n p => d.indexOf? n = some p) names parents ∧ parents.Nodup

theorem readParents_nil_eq_ok_iff {parents : List ℕ} {names : List (List Char)} :
    (d.readParents line child [] names : Except (SpecError α) (List ℕ)) = .ok parents ↔
      d.Parents names parents := by
  rw [readParents_eq_ok_iff List.nodup_nil]
  simp [Parents]

theorem Parents.eq_map {parents : List ℕ} {names : List (List Char)}
    (h : d.Parents names parents) : parents = names.map fun n => (d.indexOf? n).getD 0 := by
  rw [← List.forall₂_eq_eq_eq, List.forall₂_map_right_iff]
  exact h.1.flip.imp fun _ _ hp => by rw [hp, Option.getD_some]

theorem Parents.isSome {parents : List ℕ} {names : List (List Char)}
    (h : d.Parents names parents) : names.all fun n => (d.indexOf? n).isSome := by
  rw [List.all_eq_true]
  intro n hn
  obtain ⟨p, -, hp⟩ := exists_right_of_forall₂ h.1 hn
  rw [hp, Option.isSome_some]

theorem map_readParents_eq_ok_iff {child' : ℕ} {parents : List ℕ} {names : List (List Char)} :
    ((d.readParents line child [] names).map fun ps => some (child, ps) :
        Except (SpecError α) _) = .ok (some (child', parents)) ↔
      child = child' ∧ d.Parents names parents := by
  simp only [map_eq_ok, readParents_nil_eq_ok_iff, Option.some.injEq, Prod.mk.injEq]
  constructor
  · rintro ⟨_, hps, rfl, rfl⟩
    exact ⟨rfl, hps⟩
  · rintro ⟨rfl, hps⟩
    exact ⟨parents, hps, rfl, rfl⟩

/-- **When a line is a header**: declared variables stand on both sides. -/
theorem readHeader_eq_some_iff {parents : List ℕ} :
    (d.readHeader line content : Except (SpecError α) _) = .ok (some (child, parents)) ↔
      ∃ s, sides? content = some s ∧ d.indexOf? (trim s.left) = some child ∧
        d.Parents (parentNames s.right) parents := by
  rw [readHeader, sides?]
  cases cut? ['<', '-'] content with
  | some sides =>
    simp only [lookup, Option.some.injEq, exists_eq_left']
    cases d.indexOf? (trim sides.1) with
    | none => simp
    | some child' => simp only [map_readParents_eq_ok_iff, Option.some.injEq]
  | none =>
    cases cut? [':'] content with
    | none => simp
    | some sides =>
      simp only [Option.map_some, Option.some.injEq, exists_eq_left']
      cases d.indexOf? (trim sides.1) with
      | none => simp
      | some child' =>
        simp only [Option.some.injEq]
        split_ifs with hall
        · exact map_readParents_eq_ok_iff
        · exact iff_of_false (by simp) fun h => hall h.2.isSome

/-- **When a line is no header**: it has no mark, or a colon with a name that is
    not declared. -/
theorem readHeader_eq_none_iff :
    (d.readHeader line content : Except (SpecError α) _) = .ok none ↔
      ∀ s, sides? content = some s → s.arrow = false ∧ (d.indexOf? (trim s.left) = none ∨
        ∃ n ∈ parentNames s.right, d.indexOf? n = none) := by
  rw [readHeader, sides?]
  cases cut? ['<', '-'] content with
  | some sides =>
    simp only [lookup, Option.some.injEq, forall_eq', Bool.true_eq_false, false_and, iff_false]
    cases d.indexOf? (trim sides.1) with
    | none => simp
    | some child => simp [map_eq_ok]
  | none =>
    cases cut? [':'] content with
    | none => simp
    | some sides =>
      simp only [Option.map_some, Option.some.injEq, forall_eq', true_and]
      cases d.indexOf? (trim sides.1) with
      | none => simp
      | some child =>
        simp only [reduceCtorEq, false_or]
        split_ifs with hall
        · refine iff_of_false (by simp [map_eq_ok]) ?_
          rintro ⟨n, hn, hnone⟩
          have hsome := List.all_eq_true.1 hall n hn
          simp [hnone] at hsome
        · refine iff_of_true rfl ?_
          simpa [List.all_eq_true] using hall

end JointProb.NetworkDraft
