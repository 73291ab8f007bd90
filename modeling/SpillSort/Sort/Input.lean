import SpillSort.Data.Chunk
import SpillSort.Spill.Disk

/-!
# The input of a sort

What a sort pulls its batches from, as a script of pulls. A pull has an outcome, and other things
may have happened by then: memory ran short, someone raised the cancel flag or changed the disk. A
script that has run out goes on with the end of the input.
-/

namespace SpillSort

/-- What comes out of the input. -/
inductive Event where
  | batch (chunk : Chunk)
  | endOfInput
  | stop
  /-- Nothing now, something later. -/
  | notYet

namespace Event

/-- The rows an event brings. -/
def rows : Event → Nat
  | batch chunk => chunk.length
  | _ => 0

/-- The charges an event holds. -/
def charges : Event → List Memory.ChargeId
  | batch chunk => chunk.charge?.toList
  | _ => []

end Event

/-- One pull. -/
structure Pull where
  outcome : Except Failure Event
  /-- Memory ran short where the batches come from. -/
  pressure : Bool := false
  /-- Someone raised the cancel flag. -/
  cancels : Bool := false
  /-- What others did to the disk. -/
  onDisk : Spill.Disk → Spill.Disk := id

/-- The charges held for the outcome of a pull. -/
def Pull.charges (p : Pull) : List Memory.ChargeId :=
  match p.outcome with
  | .ok e => e.charges
  | .error _ => []

/-- The pulls still to come, a shortage of memory nobody asked about yet, and what was asked for so
far. -/
structure Input where
  script : List Pull
  pressure : Bool := false
  pulls : Nat := 0
  kills : Nat := 0

namespace Input

/-- The next pull. -/
def next (i : Input) : Pull × Input :=
  match i.script with
  | [] => ({ outcome := .ok .endOfInput }, { i with pulls := i.pulls + 1 })
  | p :: rest =>
    (p, { i with script := rest, pressure := i.pressure || p.pressure, pulls := i.pulls + 1 })

/-- Whether memory ran short since this was last asked. -/
def takePressure (i : Input) : Bool × Input := (i.pressure, { i with pressure := false })

/-- The input is told to stop. -/
def kill (i : Input) : Input := { i with kills := i.kills + 1 }

/-- The rows of the pulls still to come. -/
def rows (i : Input) : Nat :=
  total (i.script.map fun p => (p.outcome.toOption.map Event.rows).getD 0)

/-- The charges held for the pulls still to come. -/
def charges (i : Input) : List Memory.ChargeId := i.script.flatMap Pull.charges

end Input

end SpillSort
