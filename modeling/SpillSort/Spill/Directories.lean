import SpillSort.Spill.Disk

/-!
# Spill directories

Spill files are dealt out over several directories in turn.
-/

namespace SpillSort.Spill

/-- Directories in their order, and how many files were dealt out. -/
structure Directories where
  paths : Array String
  dealt : Nat := 0
  deriving Inhabited

namespace Directories

/-- Makes one spill directory. -/
def prepare (d : Disk) (path : String) : Except Failure Disk :=
  if path.isEmpty then .error (.config "sort.spill_dirs contains an empty path")
  else
    (d.makeDirectories (.ofPath path)).mapError fun e =>
      .config s!"create spill directory {path} failed: {e.message}"

/-- Makes the directories at `paths`, of which there has to be one. Those before a faulty one stay
made. -/
def ofPaths (paths : List String) (d : Disk) : Except Failure Directories × Disk :=
  if paths.isEmpty then (.error (.config "sort.spill_dirs is empty"), d)
  else
    go paths d
where
  /-- Makes the directories of a part of the list. -/
  go : List String → Disk → Except Failure Directories × Disk
    | [], d => (.ok { paths := paths.toArray }, d)
    | p :: ps, d =>
      match prepare d p with
      | .ok d => go ps d
      | .error e => (.error e, d)

/-- The directory whose turn it is. -/
def next (s : Directories) : String × Directories :=
  ((s.paths[s.dealt % s.paths.size]?).getD "", { s with dealt := s.dealt + 1 })

end Directories

end SpillSort.Spill
