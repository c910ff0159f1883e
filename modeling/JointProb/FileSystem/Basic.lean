/-
  JointProb — file systems.

  A file system says what stands at some places; a place is the list of names
  on the way down to it.

  * `FileSystem.find?` follows a path, where `..` leads one directory up;
  * `FileSystem.write?` and `FileSystem.move?` change one place, or fail and
    change nothing;
  * `FileSystem.makeDirectories` goes as far as it can;
  * `FileSystem.replaceFile` combines them such that no file is ever half
    written.
-/
import JointProb.FileSystem.Path

namespace JointProb

/-- What stands at a place. -/
inductive Entry where
  | file (content : ByteArray)
  | directory

/-- The entries of a file system by their places. -/
structure FileSystem where
  entries : List (List String × Entry)

namespace FileSystem

/-- A file system with nothing but its root. -/
def empty : FileSystem := ⟨[]⟩

variable (fs : FileSystem)

/-! ## Places -/

/-- What stands at a place; the root is a directory. -/
def entry? (place : List String) : Option Entry :=
  if place.isEmpty then some .directory else fs.entries.lookup place

/-- Whether a directory stands at a place. -/
def isDirectory (place : List String) : Bool :=
  match fs.entry? place with
  | some .directory => true
  | _ => false

/-- The file system without what stands at a place. -/
def erase (place : List String) : FileSystem := ⟨fs.entries.filter (·.1 != place)⟩

/-- The file system with an entry at a place. -/
def insert (place : List String) (e : Entry) : FileSystem :=
  ⟨(place, e) :: (fs.erase place).entries⟩

/-! ## Paths -/

/-- The place that a name leads to from a directory.  Nothing is above the root,
    and a name that is too long leads nowhere. -/
def next? (place : List String) (name : String) : Option (List String) :=
  if name = ".." then if place.isEmpty then none else some place.dropLast
  else if Path.nameFits name then some (place ++ [name])
  else none

/-- The place that names lead to from a directory. -/
def follow? (place : List String) : List String → Option (List String)
  | [] => some place
  | name :: names =>
    if fs.isDirectory place then
      match next? place name with
      | some place => follow? place names
      | none => none
    else none

/-- The place that a path leads to. -/
def locate? (p : Path) : Option (List String) :=
  if p.isUsable then
    (fs.follow? [] p.names).filter fun place => !p.directoryOnly || fs.isDirectory place
  else none

/-- What stands at the end of a path. -/
def find? (p : Path) : Option Entry := (fs.locate? p).bind fs.entry?

/-- Whether a path leads to a file. -/
def isFile (p : Path) : Bool :=
  match fs.find? p with
  | some (.file _) => true
  | _ => false

/-- The text of a file. -/
def readText? (p : Path) : Option String :=
  match fs.find? p with
  | some (.file content) => String.fromUTF8? content
  | _ => none

/-- The places of all files, in order of their texts. -/
def files : List String :=
  let places := fs.entries.filterMap fun (place, e) =>
    match e with
    | .file _ => some ("/".intercalate place)
    | .directory => none
  places.mergeSort fun p q => decide (p ≤ q)

/-! ## Changes -/

/-- The file system with a file at the end of a path, where no directory may
    stand. -/
def write? (p : Path) (content : ByteArray) : Option FileSystem :=
  match fs.locate? p with
  | none => none
  | some place => if fs.isDirectory place then none else some (fs.insert place (.file content))

/-- The file system with the file of one path at the end of another one, where
    no directory may stand. -/
def move? (p q : Path) : Option FileSystem :=
  match fs.locate? p, fs.find? p with
  | some place, some (.file content) => (fs.erase place).write? q content
  | _, _ => none

/-- Make directories at all places on the way along names.  Whether that works,
    and what the file system is afterwards: the directories in front of the
    place where it fails stay. -/
def makeDirectoriesFrom (place : List String) : List String → FileSystem → Bool × FileSystem
  | [], fs => (true, fs)
  | name :: names, fs =>
    match next? place name with
    | none => (false, fs)
    | some place =>
      match fs.entry? place with
      | some .directory => makeDirectoriesFrom place names fs
      | some (.file _) => (false, fs)
      | none => makeDirectoriesFrom place names (fs.insert place .directory)

/-- Make directories along a path. -/
def makeDirectories (p : Path) : Bool × FileSystem :=
  if p.isUsable then makeDirectoriesFrom [] p.names fs else (false, fs)

/-- Put a file at the end of a path by writing another file beside it, with
    some extension, which then moves there.  Whether that works, and what the
    file system is afterwards: if the move fails, the other file stays. -/
def replaceFile (p : Path) (extension : String) (content : ByteArray) : Bool × FileSystem :=
  match fs.makeDirectories p.parent with
  | (false, fs) => (false, fs)
  | (true, fs) =>
    match fs.write? (p.withExtension extension) content with
    | none => (false, fs)
    | some fs =>
      match fs.move? (p.withExtension extension) p with
      | none => (false, fs)
      | some fs => (true, fs)

/-- The file system with an entry at the end of a path and directories on the
    way. -/
def add? (p : Path) (e : Entry) : Option FileSystem :=
  let directory := match e with
    | .directory => p
    | .file _ => p.parent
  match fs.makeDirectories directory, e with
  | (true, fs), .directory => some fs
  | (true, fs), .file content => fs.write? p content
  | (false, _), _ => none

end FileSystem

end JointProb
