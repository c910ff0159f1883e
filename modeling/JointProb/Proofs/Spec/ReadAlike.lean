/-
  JointProb — what is read of a network depends on no kind of numbers.

  Probabilities are texts until a network is made of what has been read.  So
  the kind of numbers shows in the type of faults only, and for declarations
  the number of a line shows in the faults only.

  * `NetworkDraft.readLine_of_declaration`: what a declaration declares;
  * `NetworkDraft.readLine_of_scalar`, `NetworkDraft.readLines_of_scalar` and
    `NetworkDraft.read_of_scalar`: what is read for one kind of numbers is read
    for another one.
-/
import JointProb.Proofs.Spec.NetworkText
import JointProb.Proofs.Spec.Sides

namespace JointProb

open Text

variable {α β : Type}

theorem Line.names_of_line {line : ℕ} {cs : List Char} {names : List String}
    (h : (Line.names line cs : Except (SpecError α) (List String)) = .ok names) (line' : ℕ) :
    (Line.names line' cs : Except (SpecError β) (List String)) = .ok names := by
  obtain ⟨_, hcheck, rfl⟩ := map_eq_ok.1 h
  rw [Line.names, checkNames_eq_ok_iff.2 (checkNames_eq_ok_iff.1 hcheck)]
  rfl

namespace NetworkDraft

variable {d d' : NetworkDraft} {line : ℕ} {content : List Char}

/-! ## Declarations -/

theorem readStates_of_line {states states' : List String} {labels : List (List Char)}
    (h : (readStates line states labels : Except (SpecError α) (List String)) = .ok states')
    (line' : ℕ) :
    (readStates line' states labels : Except (SpecError β) (List String)) = .ok states' := by
  induction labels generalizing states with
  | nil => cases h; rfl
  | cons cs rest ih =>
    simp only [readStates] at h ⊢
    split_ifs at h ⊢ with hempty hseen
    exact ih h

theorem readBody_of_line {body : List Char} {states : List String}
    (h : (readBody line body : Except (SpecError α) (List String)) = .ok states) (line' : ℕ) :
    (readBody line' body : Except (SpecError β) (List String)) = .ok states := by
  rw [readBody] at h ⊢
  split at h
  · cases h
  next =>
  split at h
  · cases h
  next hstates =>
  rw [readStates_of_line hstates line']
  dsimp only
  split_ifs at h ⊢
  cases h
  rfl

theorem checkedVariable_of_line {name : List Char} {states : List String} {v : Variable}
    (h : (checkedVariable line name states : Except (SpecError α) Variable) = .ok v)
    (line' : ℕ) : (checkedVariable line' name states : Except (SpecError β) Variable) = .ok v := by
  simp only [checkedVariable] at h ⊢
  split_ifs at h ⊢
  cases h
  rfl

theorem readVariable_of_line {text : List Char} {v : Variable}
    (h : (readVariable line text : Except (SpecError α) Variable) = .ok v) (line' : ℕ) :
    (readVariable line' text : Except (SpecError β) Variable) = .ok v := by
  rw [readVariable] at h ⊢
  split at h
  · exact checkedVariable_of_line h line'
  · split at h
    · cases h
    next hstates =>
    rw [readBody_of_line hstates line']
    exact checkedVariable_of_line h line'

theorem declare_of_line {v : Variable}
    (h : (d.declare line v : Except (SpecError α) NetworkDraft) = .ok d') (line' : ℕ) :
    (d.declare line' v : Except (SpecError β) NetworkDraft) = .ok d' := by
  rw [declare] at h ⊢
  split_ifs at h ⊢
  cases h
  rfl

theorem declareAll_of_line {names : List String}
    (h : (d.declareAll line names : Except (SpecError α) NetworkDraft) = .ok d') (line' : ℕ) :
    (d.declareAll line' names : Except (SpecError β) NetworkDraft) = .ok d' := by
  rw [declareAll] at h ⊢
  induction names generalizing d with
  | nil => cases h; rfl
  | cons name names ih =>
    rw [List.foldlM_cons, bind_eq_ok] at h ⊢
    obtain ⟨d₁, hname, h⟩ := h
    exact ⟨d₁, declare_of_line hname line', ih h⟩

theorem checkDeclaring_of_line
    (h : (d.checkDeclaring line : Except (SpecError α) Unit) = .ok ()) (line' : ℕ) :
    (d.checkDeclaring line' : Except (SpecError β) Unit) = .ok () := by
  rw [checkDeclaring] at h ⊢
  split_ifs at h ⊢
  rfl

/-- **A declaration declares the same in each line.** -/
theorem readLine_of_declaration (hdecl : isDeclaration content = true)
    (h : (d.readLine line content : Except (SpecError α) NetworkDraft) = .ok d') (line' : ℕ) :
    (d.readLine line' content : Except (SpecError β) NetworkDraft) = .ok d' := by
  rw [readLine] at h ⊢
  cases hheader : Line.variablesHeader? content with
  | some rest =>
    simp only [hheader, bind_eq_ok] at h ⊢
    obtain ⟨_, hcheck, names, hnames, h⟩ := h
    exact ⟨(), checkDeclaring_of_line hcheck line', names, Line.names_of_line hnames line',
      declareAll_of_line h line'⟩
  | none =>
    cases hdeclaration : declaration? content with
    | some text =>
      simp only [hheader, hdeclaration, bind_eq_ok] at h ⊢
      obtain ⟨v, hv, _, hcheck, h⟩ := h
      exact ⟨v, readVariable_of_line hv line', (), checkDeclaring_of_line hcheck line',
        declare_of_line h line'⟩
    | none => simp [isDeclaration, hheader, hdeclaration] at hdecl

/-! ## All lines -/

theorem readHeader_of_scalar {header : Option (ℕ × List ℕ)}
    (h : (d.readHeader line content : Except (SpecError α) _) = .ok header) :
    (d.readHeader line content : Except (SpecError β) _) = .ok header := by
  cases header with
  | none => exact readHeader_eq_none_iff.2 (readHeader_eq_none_iff.1 h)
  | some header => exact readHeader_eq_some_iff.2 (readHeader_eq_some_iff.1 h)

/-- **A line is read for all kinds of numbers or for none.** -/
theorem readLine_of_scalar
    (h : (d.readLine line content : Except (SpecError α) NetworkDraft) = .ok d') :
    (d.readLine line content : Except (SpecError β) NetworkDraft) = .ok d' := by
  cases hdecl : isDeclaration content with
  | true => exact readLine_of_declaration hdecl h line
  | false =>
    obtain ⟨hheader, hdeclaration⟩ := isDeclaration_eq_false_iff.1 hdecl
    simp only [readLine, hheader, hdeclaration] at h ⊢
    split_ifs at h ⊢
    split at h
    · cases h
    · next child parents hread =>
      rw [readHeader_of_scalar hread]
      rw [openBlock] at h
      split_ifs at h with hold
      simp only [openBlock, if_neg hold]
      exact congrArg Except.ok (Except.ok.inj h)
    · next hread =>
      rw [readHeader_of_scalar hread]
      rw [readEntry] at h
      split at h
      · cases h
      next hblocks =>
      split at h
      · cases h
      next hcut =>
      simp only [readEntry, hblocks, hcut]
      exact congrArg Except.ok (Except.ok.inj h)

theorem readLines_of_scalar {ls : List (ℕ × List Char)}
    (h : (d.readLines ls : Except (SpecError α) NetworkDraft) = .ok d') :
    (d.readLines ls : Except (SpecError β) NetworkDraft) = .ok d' := by
  rw [readLines] at h ⊢
  induction ls generalizing d with
  | nil => cases h; rfl
  | cons l ls ih =>
    rw [List.foldlM_cons, bind_eq_ok] at h ⊢
    obtain ⟨d₁, hl, h⟩ := h
    exact ⟨d₁, readLine_of_scalar hl, ih h⟩

theorem read_of_scalar {text : String}
    (h : (read text : Except (SpecError α) NetworkDraft) = .ok d) :
    (read text : Except (SpecError β) NetworkDraft) = .ok d :=
  readLines_of_scalar h

end NetworkDraft

end JointProb
