/-
  JointProb — what specifications describe.

  * `Distribution.wellFormed_ofText`: whatever a text says, in either format,
    under any settings and with any names given, it describes a well-formed
    distribution or none.
-/
import JointProb.Proofs.Spec.Network
import JointProb.Proofs.Spec.Table
import JointProb.Spec.Build

namespace JointProb.Distribution

/-- **Texts describe well-formed distributions.** -/
theorem wellFormed_ofText {settings : Settings ℚ} {names : Option (List String)} {format : Format}
    {text : String} {d : Distribution ℚ} (h : ofText settings names format text = .ok d) :
    d.WellFormed settings.maxAssignments := by
  cases format with
  | table => exact wellFormed_ofTable h
  | network => exact wellFormed_ofNetwork h

/-- Three states, a row of the table a little above one, and another name. -/
theorem wellFormed_ofText_renamed :
    let text := "variable Sky \x7bClear, Grey, Dark\x7d\nSky <- None\n" ++
      "Clear: 0.5\nGrey: 0.3\nDark: 0.2000001"
    ∃ d : Distribution ℚ, ofText .default (some ["Weather"]) .network text = .ok d ∧
      d.catalog.names = ["Weather"] ∧ d.probs.length = 3 ∧
      d.WellFormed (Settings.default : Settings ℚ).maxAssignments := by
  intro text
  have h : (ofText .default (some ["Weather"]) .network text).toOption.map
      (fun d : Distribution ℚ => (d.catalog.names, d.probs.length)) = some (["Weather"], 3) := by
    decide +kernel
  obtain ⟨d, hd, hnames⟩ := Option.map_eq_some_iff.1 h
  have hok := toOption_eq_some.1 hd
  rw [Prod.mk.injEq] at hnames
  exact ⟨d, hok, hnames.1, hnames.2, wellFormed_ofText hok⟩

end JointProb.Distribution
