import WorkQueue.Bytes.Basic
import WorkQueue.Error
import WorkQueue.Files.Path

/-!
# File trees

A `FileTree` is the contents of a directory and of those around it. A `Location` lists the names on
the way to a file or directory; the empty location is the working directory.

`locate` follows the text of a path. The operations fail as those of an operating system do: with
`noSuchFile` where the way ends, `notADirectory` where a file stands in the way, `isADirectory`
where a file was wanted, `nameTooLong` where a name or path is too long.

Operations that change files are actions `FileM`. What has been done before an error stays.
-/

namespace WorkQueue

/-- What stands at a location. -/
inductive Node where
  | directory
  | file (bytes : Bytes)
deriving DecidableEq, Repr

/-- The names on the way to a file or directory. The way begins with a slash at the root, and with
`..` above the working directory. -/
abbrev Location := List String

/-- Files and directories by location. -/
structure FileTree where
  nodes : List (Location × Node)
deriving DecidableEq, Repr

/-- Where a path leads: the directory before its last name, that name unless the path ends in a
dot or two, and whether a slash follows it. -/
structure Target where
  directory : Location
  name : Option String
  slash : Bool
deriving DecidableEq, Repr

/-- An action on files. -/
abbrev FileM := EStateM FileError FileTree

namespace Location

/-- The root of all files. -/
def root : Location := ["/"]

/-- Where a path starts from. -/
def start (path : String) : Location := if Path.isAbsolute path then root else []

/-- Whether a location is the working directory or one of the directories above it. -/
def isUpward (loc : Location) : Bool := loc.all (· == "..")

/-- The directory in which a location is. -/
def parent (loc : Location) : Location :=
  if loc = root then root
  else if isUpward loc then loc ++ [".."]
  else loc.dropLast

end Location

namespace FileTree

/-- The directory without any files. -/
def empty : FileTree := ⟨[]⟩

instance : Inhabited FileTree := ⟨empty⟩

/-- What stands at a location. -/
def node? (tree : FileTree) (loc : Location) : Option Node :=
  if loc = Location.root ∨ Location.isUpward loc then some .directory else tree.nodes.lookup loc

/-- The tree with something else at a location. -/
def set (tree : FileTree) (loc : Location) (node : Node) : FileTree :=
  ⟨(loc, node) :: tree.nodes.filter fun n => n.1 != loc⟩

/-- The tree with nothing at a location. -/
def remove (tree : FileTree) (loc : Location) : FileTree :=
  ⟨tree.nodes.filter fun n => n.1 != loc⟩

/-- The bytes of the file at a location. -/
def bytes? (tree : FileTree) (loc : Location) : Option Bytes :=
  match tree.node? loc with
  | some (.file bytes) => some bytes
  | _ => none

/-- Adds bytes to the end of the file at a location. -/
def append (tree : FileTree) (loc : Location) (bytes : Bytes) : FileTree :=
  tree.set loc (.file ((tree.bytes? loc).getD [] ++ bytes))

/-- The tree with the file at `source` moved to `dest`, in place of what is there. -/
def move (tree : FileTree) (source dest : Location) : FileTree :=
  match tree.bytes? source with
  | some bytes => (tree.remove source).set dest (.file bytes)
  | none => tree

/-- The names in a directory, sorted. -/
def list (tree : FileTree) (loc : Location) : List String :=
  (tree.nodes.filterMap fun n =>
    if n.1.dropLast = loc then n.1.getLast? else none).mergeSort (· ≤ ·)

/-! ## Paths -/

/-- How many bytes a name may have. -/
def nameLimit : Nat := 255

/-- How many bytes a path may have. -/
def pathLimit : Nat := 4095

/-- What stands under a name in a directory, if anything does. -/
def child? (tree : FileTree) (loc : Location) (name : String) : Except FileError (Option Node) :=
  if nameLimit < name.utf8ByteSize then .error .nameTooLong
  else .ok (tree.node? (loc ++ [name]))

/-- Goes through directories, one for each segment. -/
def walk (tree : FileTree) (loc : Location) : List String → Except FileError Location
  | [] => .ok loc
  | segment :: rest =>
    if Path.isVoid segment then walk tree loc rest
    else if segment = ".." then walk tree (Location.parent loc) rest
    else
      match tree.child? loc segment with
      | .error e => .error e
      | .ok none => .error .noSuchFile
      | .ok (some (.file _)) => .error .notADirectory
      | .ok (some .directory) => walk tree (loc ++ [segment]) rest

/-- Follows a path up to its last segment. -/
def locate (tree : FileTree) (path : String) : Except FileError Target :=
  if '\x00' ∈ path.toList then .error .nulInName
  else if path = "" then .error .noSuchFile
  else if pathLimit < path.utf8ByteSize then .error .nameTooLong
  else
    let segments := Path.segments path
    let core := (segments.reverse.dropWhile (· == "")).reverse
    let slash := core.length < segments.length
    match core.getLast? with
    | none => .ok ⟨Location.start path, none, slash⟩
    | some last =>
      if last = "." ∨ last = ".." then do
        let loc ← tree.walk (Location.start path) core
        return ⟨loc, none, slash⟩
      else do
        let loc ← tree.walk (Location.start path) core.dropLast
        return ⟨loc, some last, slash⟩

/-- What a path leads to. -/
def find (tree : FileTree) (path : String) : Except FileError (Location × Node) := do
  let target ← tree.locate path
  match target.name with
  | none => return (target.directory, .directory)
  | some name =>
    let loc := target.directory ++ [name]
    match ← tree.child? target.directory name with
    | none => throw .noSuchFile
    | some (.file bytes) => if target.slash then throw .notADirectory else return (loc, .file bytes)
    | some .directory => return (loc, .directory)

/-- Whether a path leads to a file or directory. -/
def has (tree : FileTree) (path : String) : Bool := (tree.find path).isOk

/-- Whether a path leads to a directory. -/
def hasDirectory (tree : FileTree) (path : String) : Bool :=
  match tree.find path with
  | .ok (_, .directory) => true
  | _ => false

/-- The bytes of the file that a path leads to. -/
def read (tree : FileTree) (path : String) : Except FileError Bytes := do
  match ← tree.find path with
  | (_, .file bytes) => return bytes
  | (_, .directory) => throw .isADirectory

/-- The text of the file that a path leads to. -/
def readText (tree : FileTree) (path : String) : Except FileError String := do
  let bytes ← tree.read path
  match String.fromUTF8? bytes.toByteArray with
  | some text => return text
  | none => throw .notText

/-! ## Making files and directories -/

/-- Where the file of a path is; it is created if it is missing. -/
def openFile (path : String) : FileM Location := do
  let tree ← get
  let target ← MonadExcept.ofExcept (tree.locate path)
  match target.name with
  | none => throw .isADirectory
  | some name =>
    if target.slash then throw .isADirectory
    let loc := target.directory ++ [name]
    match ← MonadExcept.ofExcept (tree.child? target.directory name) with
    | none => modify (·.set loc (.file []))
    | some (.file _) => pure ()
    | some .directory => throw .isADirectory
    return loc

/-- Makes a directory. -/
def makeDirectory (path : String) : FileM Unit := do
  let tree ← get
  let target ← MonadExcept.ofExcept (tree.locate path)
  match target.name with
  | none => throw .alreadyExists
  | some name =>
    match ← MonadExcept.ofExcept (tree.child? target.directory name) with
    | none => modify (·.set (target.directory ++ [name]) .directory)
    | some _ => throw .alreadyExists

/-- Makes a directory unless it is there. -/
def ensureDirectory (path : String) : FileM Unit :=
  tryCatch (makeDirectory path) fun e => do
    if !(← get).hasDirectory path then throw e

/-- Makes the first of the directories that are given from the innermost to the outermost. If that
cannot be done without the others, it makes them before. -/
def makeInnermost : List String → FileM Unit
  | [] => pure ()
  | path :: outer =>
    tryCatch (ensureDirectory path) fun e => do
      if e ≠ .noSuchFile then throw e
      makeInnermost outer
      ensureDirectory path

/-- Makes the directory that a path leads to, and those that it goes through. -/
def makeDirectories (path : String) : FileM Unit := makeInnermost (Path.ways path).reverse

/-- Makes the directories that a path goes through before its last name. -/
def makeParents (path : String) : FileM Unit :=
  match (Path.ways path).dropLast.getLast? with
  | none => pure ()
  | some parent => makeDirectories parent

end FileTree

end WorkQueue
