/-
  JointProb — the two formats of specifications.

  * `Format.table` lists joint probabilities, `Format.network` conditional
    ones;
  * `Format.ofPath?` tells the format of a file by its extension.
-/
import JointProb.FileSystem.Path
import JointProb.Text.Cut

namespace JointProb

/-- A format of specifications. -/
inductive Format where
  | table
  | network
deriving DecidableEq, Repr

namespace Format

/-- The name of a format. -/
def name : Format → String
  | table => "joint_table"
  | network => "network"

/-- The extension of files in a format. -/
def extension : Format → String
  | table => "inp"
  | network => "net"

/-- The format of a file, if its extension is that of one in any case of its
    letters. -/
def ofPath? (p : Path) : Option Format :=
  p.extension?.bind fun e =>
    [table, network].find? fun f => Text.equalUpToCase e.toList f.extension.toList

end Format

end JointProb
