/-
  JointProb — distributions in files.

  * `Distribution.ofFile` reads a specification, in the format that the
    extension of the file tells;
  * `Distribution.save` writes a distribution as a table.
-/
import JointProb.FileSystem.Basic
import JointProb.Spec.Build
import JointProb.Spec.Serialize

namespace JointProb.Distribution

variable {α : Type}

/-- The distribution that a file describes; a file of unknown format is read
    as a table. -/
def ofFile [Scalar α] (settings : Settings α) (fs : FileSystem) (p : Path) :
    Except (Failure α) (Distribution α) :=
  match fs.readText? p with
  | none => .error .file
  | some text => (ofText settings none ((Format.ofPath? p).getD .table) text).mapError .spec

/-- The extension of a file that is being written. -/
def temporaryExtension : String := Format.table.extension ++ ".tmp"

/-- Write a distribution to a file.  The text written, or why there is none,
    and the file system afterwards. -/
def save [DecimalText α] (d : Distribution α) (fs : FileSystem) (p : Path) :
    Except (Failure α) String × FileSystem :=
  match d.serialize with
  | .error e => (.error (.spec e), fs)
  | .ok text =>
    match fs.replaceFile p temporaryExtension text.toUTF8 with
    | (true, fs) => (.ok text, fs)
    | (false, fs) => (.error .file, fs)

end JointProb.Distribution
