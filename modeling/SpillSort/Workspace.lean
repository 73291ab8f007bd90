import SpillSort.Journal
import SpillSort.Fragment
import SpillSort.Spill.Codec
import SpillSort.Spill.Directories

/-!
# Workspaces

What a running sort shares with its surroundings: the ledger, the disk, the place of its spill
files, the cancel flag, its journal, and the fragment it belongs to.

* `Work` is the type of steps that may fail and work in a workspace.
* `Work.rescue` cleans up after a failed step and lets the failure pass.
-/

namespace SpillSort

/-- A flag that anyone may raise and nobody lowers. `countdown` foresees that it rises by itself
after so many more looks at it. -/
structure CancelFlag where
  raised : Bool := false
  countdown : Option Nat := none
  deriving DecidableEq, Repr

/-- Looks at the flag. -/
def CancelFlag.look (f : CancelFlag) : Bool × CancelFlag :=
  match f.raised, f.countdown with
  | true, _ | _, some 0 => (true, { raised := true, countdown := none })
  | false, some (n + 1) => (false, { f with countdown := some n })
  | false, none => (false, f)

/-- Where and how spill files are made: directories in turn, a common stem of their names, and a
number for each. -/
structure Spiller where
  directories : Spill.Directories
  codec : Spill.Codec
  stem : String
  made : Nat := 0

/-- The surroundings of a sort. -/
structure Workspace where
  ledger : Memory.Ledger
  disk : Spill.Disk
  spiller : Spiller
  cancel : CancelFlag := {}
  /-- The notices so far, the latest last. -/
  journal : Array Notice := #[]
  fragment : Fragment
  /-- The path of the sort's node in the profile of the fragment. -/
  node : List String := []

/-- A step that cannot fail. -/
abbrev Action := StateM Workspace

/-- A step that may fail; what it did up to then stays done. -/
abbrev Work := ExceptT Failure (StateM Workspace)

namespace Workspace

/-- A workspace whose spill files go to directories that are made for them. -/
def create (directories : List String) (codec : Spill.Codec) (stem : String) (fragment : Fragment)
    (ledger : Memory.Ledger) (disk : Spill.Disk) : Except Failure Workspace :=
  let (made, disk) := Spill.Directories.ofPaths directories disk
  made.map fun directories =>
    { ledger, disk, spiller := { directories, codec, stem }, fragment }

/-- Applies a change of the ledger. -/
def onLedger (f : Memory.Ledger → Memory.Ledger) : Action Unit :=
  modify fun { ledger, disk, spiller, cancel, journal, fragment, node } =>
    { ledger := f ledger, disk, spiller, cancel, journal, fragment, node }

/-- Applies a step of the ledger. -/
def withLedger {α : Type} (f : Memory.Ledger → α × Memory.Ledger) : Action α :=
  modifyGet fun { ledger, disk, spiller, cancel, journal, fragment, node } =>
    let (a, ledger) := f ledger
    (a, { ledger, disk, spiller, cancel, journal, fragment, node })

/-- Applies a change of the disk. -/
def onDisk (f : Spill.Disk → Spill.Disk) : Action Unit :=
  modify fun { ledger, disk, spiller, cancel, journal, fragment, node } =>
    { ledger, disk := f disk, spiller, cancel, journal, fragment, node }

/-- Notes something. -/
def note (n : Notice) : Action Unit :=
  modify fun { ledger, disk, spiller, cancel, journal, fragment, node } =>
    { ledger, disk, spiller, cancel, journal := journal.push n, fragment, node }

/-- Changes the counter called `k` in the child at `path` of the sort's node. -/
def count (path : List String) (k : String) (f : Counter → Counter) : Action Unit :=
  modify fun { ledger, disk, spiller, cancel, journal, fragment, node } =>
    let { query, instanceId, tracker, profile, error } := fragment
    { ledger, disk, spiller, cancel, journal, node
      fragment :=
        { query, instanceId, tracker, error
          profile := profile.onPath (node ++ path) fun p => p.onCounter k f } }

/-- Looks at the cancel flag. -/
def cancelled : Action Bool :=
  modifyGet fun w =>
    let (b, cancel) := w.cancel.look
    (b, { w with cancel })

/-- Raises the cancel flag. -/
def raiseCancel : Action Unit := modify fun w => { w with cancel := { raised := true } }

/-- Drops one holder of each charge. -/
def dropAll (cs : List Memory.ChargeId) : Action Unit := onLedger fun l => l.dropAll cs

/-- The path of the next spill file. Its number and its directory count as used from now on. -/
def nextSpillPath : Action String :=
  modifyGet fun w =>
    let s := w.spiller
    let (directory, directories) := s.directories.next
    (Spill.childPath directory s!"{s.stem}_{s.made}.arrow",
      { w with spiller := { s with directories, made := s.made + 1 } })

/-- Removes a file that is no longer needed. A missing one is fine; anything else is noted. -/
def removeFile (path : String) : Action Unit := do
  match (← get).disk.removeFile path with
  | .ok disk => onDisk fun _ => disk
  | .error .notFound => pure ()
  | .error e => note (.removalFailed path e)

end Workspace

namespace Work

/-- Runs a step and, if it fails, cleans up. -/
def rescue {m : Type → Type} [Monad m] [MonadLiftT Action m] {α : Type} (x : ExceptT Failure m α)
    (cleanup : Action Unit) : ExceptT Failure m α :=
  ExceptT.mk do
    match ← x.run with
    | .ok a => pure (.ok a)
    | .error e => do
      liftM cleanup
      pure (.error e)

/-- Fails with the disk's next trouble, if there is one. -/
def brace (context : String) : Work Unit := do
  match (← get).disk.nextTrouble with
  | (some fault, disk) => do
    Workspace.onDisk fun _ => disk
    throw (.io context fault)
  | (none, disk) => Workspace.onDisk fun _ => disk

/-- The value of a disk operation, whose faults become failures in a context. -/
def ofDisk {α : Type} (context : String) (x : Except DiskFault α) : Work α :=
  match x with
  | .ok a => pure a
  | .error fault => throw (.io context fault)

end Work

end SpillSort
