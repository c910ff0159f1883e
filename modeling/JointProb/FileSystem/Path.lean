/-
  JointProb — paths.

  * `Path` is what stands between the slashes of a path; `Path.names` leaves
    out the pieces that stay where they are;
  * `Path.text` keeps such pieces between two names;
  * `Path.extension?` is what follows the last dot of the file name, and
    `Path.withExtension` replaces it;
  * `Path.isUsable` and `Path.nameFits` are the limits of file systems.
-/

namespace JointProb

/-- A path below some directory. -/
structure Path where
  /-- What stands between the slashes, as it is written. -/
  pieces : List String
deriving DecidableEq, Repr

namespace Path

/-- The path that a text denotes. -/
def ofString (s : String) : Path := ⟨(s.toList.splitOn '/').map String.ofList⟩

/-- Whether a piece stays where it is: it is empty or a single dot. -/
def staysHere (piece : String) : Bool := piece == "" || piece == "."

variable (p : Path)

/-! ## Names -/

/-- The names along a path; `..` goes one directory up. -/
def names : List String := p.pieces.filter fun piece => !staysHere piece

/-- Whether only a directory can be at the end: the path ends in a slash or a
    single dot. -/
def directoryOnly : Bool := p.pieces.getLast?.any staysHere

/-- The pieces from the first name to the last one. -/
def core : List String :=
  ((p.pieces.dropWhile staysHere).reverse.dropWhile staysHere).reverse

/-- The text of a path from its first name to its last one. -/
def text : String := "/".intercalate p.core

/-- The path of a name in a directory; a slash at the end of the path is the
    one in front of the name. -/
def child (name : String) : Path :=
  match p.pieces.getLast? with
  | some "" => ⟨p.pieces.dropLast ++ [name]⟩
  | _ => ⟨p.pieces ++ [name]⟩

/-- The path of the directory. -/
def parent : Path := ⟨p.core.dropLast⟩

/-! ## Extensions -/

/-- The last name, unless it goes up a directory. -/
def fileName? : Option String := p.names.getLast?.filter (· != "..")

/-- The part of a file name in front of its last dot, and the part behind it;
    a dot at the start does not count. -/
def splitName (name : String) : String × Option String :=
  match name.toList.reverse.splitOn '.' with
  | ending :: rest@(_ :: _) =>
    let stem := (['.'].intercalate rest).reverse
    if stem.isEmpty then (name, none)
    else (String.ofList stem, some (String.ofList ending.reverse))
  | _ => (name, none)

/-- What follows the last dot of the file name. -/
def extension? : Option String := p.fileName?.bind fun name => (splitName name).2

/-- The path with another extension.  Without its old one `..y` is `..`, which
    is no file name and gets no new one; a slash or a single dot at the end of
    the path keeps it a name. -/
def withExtension (extension : String) : Path :=
  match p.fileName? with
  | none => p
  | some name =>
    let (stem, old) := splitName name
    if stem = "." && old.isSome && !p.directoryOnly then p.parent.child ".."
    else p.parent.child (stem ++ "." ++ extension)

/-! ## Limits -/

/-- Whether a name is not too long for an entry of a directory. -/
def nameFits (name : String) : Bool := name.utf8ByteSize ≤ 255

/-- Whether a path can be given to a file system: it is not too long, and the
    null character, which would end it, is not in it. -/
def isUsable : Bool :=
  let written := "/".intercalate p.pieces
  written.utf8ByteSize < 4096 && !written.toList.contains '\x00'

end Path

end JointProb
