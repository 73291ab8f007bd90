import SpillSort.Failure

/-!
# Disks

A disk is a tree of directories and files. Names in the tree and contents are apart: a file that is
removed while someone has it open keeps its content for them.

* `Disk.enter` follows a path to a directory; a component may be missing, or be a file.
* `Disk.makeDirectories` makes a directory and all that are missing above it, and accepts one that
  is there already.
* `Disk.createFile` makes a new file and refuses a name in use; `Disk.openFile` finds a file or a
  directory.
* A disk may also fail for reasons of its own, foreseen in `troubles`.
-/

namespace SpillSort.Spill

/-- The names on the way from a place to the root, the place's own name first. -/
abbrev Place := List String

/-- What stands between the slashes of a path. -/
def components : List Char → List (List Char)
  | [] => [[]]
  | '/' :: cs => [] :: components cs
  | c :: cs =>
    match components cs with
    | [] => [[c]]
    | name :: names => (c :: name) :: names

/-- A path as the place it names. -/
def Place.ofPath (path : String) : Place :=
  (((components path.toList).filter fun c => c ≠ [] ∧ c ≠ ['.']).map String.ofList).reverse

/-- The path of something called `name` in the directory at a path. -/
def childPath (directory name : String) : String :=
  if directory.endsWith "/" then directory ++ name else directory ++ "/" ++ name

/-- A path, last character first, without slashes and dots at its end that do not count. -/
def dropTrailing : List Char → List Char
  | '/' :: cs => dropTrailing cs
  | '.' :: '/' :: cs => dropTrailing cs
  | cs => cs

/-- The path of the directory that something at a path is in. It is empty for the working directory,
and there is none for the root. -/
def parentPath? (path : String) : Option String :=
  match dropTrailing path.toList.reverse with
  | [] => none
  | cs =>
    let up := cs.dropWhile (· ≠ '/')
    match up, dropTrailing up with
    | [], _ => some ""
    | _, [] => some "/"
    | _, up => some (String.ofList up.reverse)

/-- The content of a file, whatever its name. -/
abbrev ContentId := Nat

/-- What a place holds. -/
inductive Node where
  | directory
  | file (content : ContentId)
  deriving DecidableEq, Repr

/-- A tree of directories and files, and the contents of all files that ever were in it. -/
structure Disk where
  tree : List (Place × Node) := []
  contents : Array ByteArray := #[]
  /-- What the next operations fail with, if anything, whatever else is the case. -/
  troubles : List (Option DiskFault) := []
  deriving Inhabited

namespace Disk

/-- What a place holds; the root is a directory. -/
def node? (d : Disk) (p : Place) : Option Node :=
  if p.isEmpty then some .directory else d.tree.lookup p

/-- Puts something at a place. -/
def put (d : Disk) (p : Place) (n : Node) : Disk :=
  { d with tree := (p, n) :: d.tree.filter (·.1 ≠ p) }

/-- Whether a place lies at or below another. -/
def below (p q : Place) : Bool := p.isSuffixOf q

/-- Most bytes of a name. -/
def longestName : Nat := 255

/-- The place of a name in a directory; two dots name the directory above. -/
def step (p : Place) (c : String) : Except DiskFault Place :=
  if c = ".." then .ok p.tail
  else if longestName < c.utf8ByteSize then .error .nameTooLong
  else .ok (c :: p)

/-- The directory that a path leads to. -/
def enter (d : Disk) : Place → Except DiskFault Place
  | [] => .ok []
  | c :: up => do
    let p ← step (← d.enter up) c
    match d.node? p with
    | some .directory => pure p
    | some (.file _) => throw .notADirectory
    | none => throw .notFound

/-- The place a path names, and what it holds; the directories above have to be there. -/
def find (d : Disk) (path : Place) : Except DiskFault (Place × Option Node) :=
  if path.any (·.toList.contains '\x00') then .error .nulInName
  else
    match path with
    | [] => .ok ([], some .directory)
    | c :: up => do
      let p ← step (← d.enter up) c
      pure (p, d.node? p)

/-- Whether a path leads to a directory. -/
def isDirectory (d : Disk) (path : Place) : Bool := (d.enter path).toOption.isSome

/-- Makes one directory. -/
def makeDirectory (d : Disk) (path : Place) : Except DiskFault Disk := do
  match ← d.find path with
  | (_, some _) => throw .alreadyExists
  | (p, none) => pure (d.put p .directory)

/-- Makes a directory and those missing above it. -/
def makeDirectories (d : Disk) : Place → Except DiskFault Disk
  | [] => .ok d
  | c :: up =>
    let settle (d : Disk) : Except DiskFault Disk → Except DiskFault Disk
      | .ok d' => .ok d'
      | .error e => if d.isDirectory (c :: up) then .ok d else .error e
    match d.makeDirectory (c :: up) with
    | .error .notFound => do
      let d ← d.makeDirectories up
      settle d (d.makeDirectory (c :: up))
    | made => settle d made

/-- The next trouble, and the disk with that behind it. -/
def nextTrouble (d : Disk) : Option DiskFault × Disk :=
  match d.troubles with
  | [] => (none, d)
  | t :: rest => (t, { d with troubles := rest })

/-- Makes a new empty file. -/
def createFile (d : Disk) (path : String) : Except DiskFault (ContentId × Disk) := do
  match ← d.find (.ofPath path) with
  | (_, some _) => throw .alreadyExists
  | (p, none) =>
    let { tree, contents, troubles } := d.put p (.file d.contents.size)
    pure (contents.size, { tree, contents := contents.push .empty, troubles })

/-- Opens a file for writing at its end, and makes it if it is missing. -/
def openEnd (d : Disk) (path : String) : Except DiskFault (ContentId × Disk) := do
  match ← d.find (.ofPath path) with
  | (_, some .directory) => throw .isADirectory
  | (_, some (.file c)) => if path.endsWith "/" then throw .notADirectory else pure (c, d)
  | (_, none) => if path.endsWith "/" then throw .isADirectory else d.createFile path

/-- Writes at the end of a content. -/
def append (d : Disk) (c : ContentId) (bytes : ByteArray) : Disk :=
  let { tree, contents, troubles } := d
  { tree, contents := contents.modify c (· ++ bytes), troubles }

/-- Finds what a path names, for reading. -/
def openFile (d : Disk) (path : String) : Except DiskFault Node := do
  match ← d.find (.ofPath path) with
  | (_, some n) => pure n
  | (_, none) => throw .notFound

/-- The content of what was opened; a directory has none. -/
def read (d : Disk) : Node → Except DiskFault ByteArray
  | .directory => .error .isADirectory
  | .file c => .ok (d.contents.getD c .empty)

/-- Replaces a content. -/
def write (d : Disk) (c : ContentId) (bytes : ByteArray) : Disk :=
  let { tree, contents, troubles } := d
  { tree, contents := contents.setIfInBounds c bytes, troubles }

/-- Writes at the start of a content, over what is there. -/
def overwrite (d : Disk) (c : ContentId) (bytes : ByteArray) : Disk :=
  let old := d.contents.getD c .empty
  d.write c (bytes ++ old.extract bytes.size old.size)

/-- What was written last is written over. -/
theorem overwrite_write (d : Disk) (c : ContentId) (old bytes : ByteArray) :
    (d.write c old).overwrite c bytes = d.write c (bytes ++ old.extract bytes.size old.size) := by
  by_cases hc : c < d.contents.size
  · simp [overwrite, write, Array.getD, hc, Array.setIfInBounds_setIfInBounds]
  · simp [overwrite, write, Array.setIfInBounds_eq_of_size_le (Nat.le_of_not_lt hc)]

/-- A disk with one directory, and files with contents at some paths. -/
def ofFiles (directory : String) (files : List (String × ByteArray)) : Disk :=
  files.foldl (fun d (path, bytes) =>
    let d := (d.makeDirectories (Place.ofPath path).tail).toOption.getD d
    match d.createFile path with
    | .ok (c, d) => d.write c bytes
    | .error _ => d) { tree := [(.ofPath directory, .directory)] }

/-- Removes the name of a file. -/
def removeFile (d : Disk) (path : String) : Except DiskFault Disk := do
  match ← d.find (.ofPath path) with
  | (p, some (.file _)) => pure { d with tree := d.tree.filter (·.1 ≠ p) }
  | (_, some .directory) => throw .isADirectory
  | (_, none) => throw .notFound

/-- Removes a directory with everything below it. -/
def removeTree (d : Disk) (path : String) : Disk :=
  match d.enter (.ofPath path) with
  | .ok p => { d with tree := d.tree.filter fun e => !below p e.1 }
  | .error _ => d

/-- The names in a directory. -/
def list (d : Disk) (path : String) : List String :=
  match d.enter (.ofPath path) with
  | .ok p => d.tree.filterMap fun e => if e.1.tail = p then e.1.head? else none
  | .error _ => []

/-- The paths of all that is in some directories. -/
def entries (d : Disk) (directories : List String) : List String :=
  directories.flatMap fun p => (d.list p).map (childPath p)


end Disk

end SpillSort.Spill
