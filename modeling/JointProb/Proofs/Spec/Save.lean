/-
  JointProb — what saving a distribution touches.

  * `Distribution.save_frame`: the file at the path holds the text and all
    others are as before, or saving fails and all files are as before; only the
    file beside the target, which is written first, is left out of this;
  * `Distribution.save_leaves_file`: it stays behind when a directory is in
    the way.
-/
import JointProb.Proofs.Catalog.InStep
import JointProb.Proofs.Decimal.Fixed
import JointProb.Proofs.FileSystem.Replace
import JointProb.Proofs.Result
import JointProb.Spec.File

namespace JointProb.Distribution

variable {α : Type} [DecimalText α]

theorem dot_mem_temporaryExtension : '.' ∈ temporaryExtension.toList := by decide

/-- **Saving replaces one file or fails.**  It fails without a text, which
    touches nothing, or where a file cannot be replaced. -/
theorem save_frame (d : Distribution α) (fs : FileSystem) (p : Path) :
    (∃ e, d.serialize = .error e ∧ d.save fs p = (.error (.spec e), fs)) ∨
    ∃ text fs', d.serialize = .ok text ∧
      (d.save fs p = (.ok text, fs') ∧
          fs.Replaced p (p.withExtension temporaryExtension) text.toUTF8 fs' ∨
        d.save fs p = (.error .file, fs') ∧
          fs.Unreplaced p (p.withExtension temporaryExtension) text.toUTF8 fs') := by
  cases htext : d.serialize with
  | error e => exact .inl ⟨e, rfl, by rw [save, htext]⟩
  | ok text =>
    cases hfile : fs.replaceFile p temporaryExtension text.toUTF8 with
    | mk done fs' =>
      refine .inr ⟨text, fs', rfl, ?_⟩
      simp only [save, htext, hfile]
      cases done with
      | true =>
        exact .inl ⟨rfl, FileSystem.replaced_of_replaceFile dot_mem_temporaryExtension hfile⟩
      | false => exact .inr ⟨rfl, FileSystem.unreplaced_of_replaceFile hfile⟩

/-- An older file of the name of the one that is written first is lost. -/
example : let fs : FileSystem := ⟨[(["d.inp.tmp"], .file "older".toUTF8)]⟩
    let d : Distribution ℚ := ⟨.of [.boolean "A"], [1 / 4, 3 / 4], rfl⟩
    (d.save fs (.ofString "d.csv")).2.files = ["d.csv"] := by decide +kernel

/-- **A file stays behind when saving fails**: it was written beside the
    directory that it cannot replace. -/
theorem save_leaves_file :
    let fs : FileSystem := ⟨[(["d"], .directory)]⟩
    ∃ d : Distribution ℚ, ofText .default none .table "0: 0.25\n1: 0.75" = .ok d ∧
      ∃ fs', d.save fs (.ofString "d") = (.error .file, fs') ∧
        fs.files = [] ∧ fs'.files = ["d.inp.tmp"] := by
  intro fs
  have hparts : (ofText .default none .table "0: 0.25\n1: 0.75").toOption.map
      (fun d : Distribution ℚ => ((d.save fs (.ofString "d")).1,
        (d.save fs (.ofString "d")).2.files)) = some (.error .file, ["d.inp.tmp"]) := by
    decide +kernel
  obtain ⟨d, hd, hsave⟩ := Option.map_eq_some_iff.1 hparts
  obtain ⟨hfile, hfiles⟩ := Prod.mk.inj hsave
  exact ⟨d, toOption_eq_some.1 hd, _, Prod.ext hfile rfl, by decide +kernel, hfiles⟩

end JointProb.Distribution
