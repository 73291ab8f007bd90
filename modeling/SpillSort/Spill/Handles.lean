import SpillSort.Named
import SpillSort.Spill.Damage
import SpillSort.Spill.File

/-!
# Handles of spill files

Writers, finished files and readers under the names of those who use them. `Handles.perform` is what
comes of one use; what a use replaces or drops is let go of.
-/

namespace SpillSort.Spill

/-- One use of spill files. Names of nobody are passed over. -/
inductive Use where
  | create (name : String) (schema : Schema)
  | append (name : String) (batch : Batch)
  | finish (name : String)
  | dropWriter (name : String)
  | dropFile (name : String)
  /-- Opens a file; without a schema of its own, for batches of the file's. -/
  | openReader (name file : String) (schema? : Option Schema)
  | read (name : String)
  | damage (name : String) (d : Damage)
  | removeTree (directory : String)

/-- All handles. -/
structure Handles where
  writers : Named Writer := []
  files : Named SpillFile := []
  readers : Named Reader := []

/-- A step that works on handles and may fail. -/
abbrev HandleWork := ExceptT Failure (StateT Handles Action)

namespace Handles

/-- A step that does not look at the handles. -/
def lift {α : Type} (x : Work α) : HandleWork α := ExceptT.mk (StateT.lift x.run)

/-- Lets go of everything. -/
def drop (h : Handles) : Action Unit := do
  h.writers.forM fun w => w.2.abandon
  h.files.forM fun f => f.2.drop

/-- Lets go of the writer of a name, if there is one. -/
def dropWriter (h : Handles) (name : String) : Action Handles := do
  (h.writers.lookup name).forM Writer.abandon
  pure { h with writers := h.writers.erase name }

/-- Lets go of the file of a name, if there is one. -/
def dropFile (h : Handles) (name : String) : Action Handles := do
  (h.files.lookup name).forM SpillFile.drop
  pure { h with files := h.files.erase name }

/-- Uses a handle. Reading answers a batch, if there is one left. -/
def perform [MessageFormat] (u : Use) : HandleWork (Option Batch) := do
  let h ← getThe Handles
  match u with
  | .create name schema => do
    let w ← lift (Writer.create schema)
    let h ← h.dropWriter name
    set { h with writers := h.writers.set name w }
    pure none
  | .append name b =>
    match h.writers.lookup name with
    | none => pure none
    | some w => do
      let w ← lift (w.append b)
      set { h with writers := h.writers.set name w }
      pure none
  | .finish name =>
    match h.writers.lookup name with
    | none => pure none
    | some w => do
      let h := { h with writers := h.writers.erase name }
      set h
      let f ← lift w.finish
      let h ← h.dropFile name
      set { h with files := h.files.set name f }
      pure none
  | .dropWriter name => do
    set (← h.dropWriter name)
    pure none
  | .dropFile name => do
    set (← h.dropFile name)
    pure none
  | .openReader name file schema? =>
    match h.files.lookup file with
    | none => pure none
    | some f => do
      let r ← lift (Reader.open f.path (schema?.getD f.schema))
      set { h with readers := h.readers.set name r }
      pure none
  | .read name =>
    match h.readers.lookup name with
    | none => pure none
    | some r => do
      let (step, r) := r.next
      set { h with readers := h.readers.set name r }
      lift step
  | .damage name d => do
    (h.files.lookup name).forM fun f => Workspace.onDisk fun disk => d.apply f.path disk
    pure none
  | .removeTree directory => do
    Workspace.onDisk (·.removeTree directory)
    pure none

end Handles

end SpillSort.Spill
