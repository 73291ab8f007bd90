import SpillSort.Sort.Operator

/-!
# Sessions

A session is an operator in its workspace together with the outputs its consumer holds. A `Call` is
one thing that the consumer or the surroundings do to it, and `Session.perform` is what comes of it.

* `Session.next` pulls one output, `Session.drain` pulls until there is none.
* `Session.run` makes calls one after the other.
* `Session.end` lets go of the operator and of all outputs.
-/

namespace SpillSort

/-- What a consumer or the surroundings do to a sort. -/
inductive Call where
  | buildSchema
  /-- Pulls an output; the consumer keeps it or lets go of it at once. -/
  | next (keep : Bool)
  /-- Pulls outputs until there is none, and lets go of each at once. -/
  | drain
  /-- Lets go of the outputs that were kept. -/
  | letGo
  | kill
  | close
  /-- Someone raises the cancel flag. -/
  | cancel
  /-- Memory runs short where the batches come from. -/
  | pressure
  /-- Others use memory. -/
  | memory (f : Memory.Forest → Memory.Forest)
  /-- Others change the disk. -/
  | disk (f : Spill.Disk → Spill.Disk)

/-- What a call answers. -/
inductive Reply where
  | nothing
  | schema (r : Except Failure (Option Schema))
  | poll (p : Except Failure Poll)
  | polls (ps : List (Except Failure Poll))

/-- An operator in its workspace, and the outputs that its consumer holds. -/
structure Session where
  operator : Operator
  workspace : Workspace
  held : List Output := []

namespace Session

/-- Runs a step of the operator. -/
def act {α : Type} (x : OperatorAction α) (s : Session) : α × Session :=
  let { operator, workspace, held } := s
  let ((a, operator), workspace) := (x.run operator).run workspace
  (a, { operator, workspace, held })

/-- Pulls an output. -/
def next (keep : Bool) (s : Session) : Except Failure Poll × Session :=
  let (p, s) := s.act Operator.next
  match p.toOption.bind Poll.output? with
  | none => (p, s)
  | some o =>
    if keep then (p, { s with held := o :: s.held })
    else (p, (s.act (o.drop : Action Unit)).2)

/-- Pulls at most `count` outputs, until there is none, after those in `found`. -/
def pulls : (count : Nat) → (found : List (Except Failure Poll)) → Session →
    List (Except Failure Poll) × Session
  | 0, found, s => (found.reverse, s)
  | count + 1, found, s =>
    let (p, s) := s.next false
    match p.toOption.bind Poll.output? with
    | none => ((p :: found).reverse, s)
    | some _ => pulls count (p :: found) s

/-- Most outputs there can still be, each of which has a row at least. -/
def rowsLeft (s : Session) : Nat :=
  s.operator.rowsProcessed + ((s.operator.pending?.map Event.rows).getD 0 + s.operator.input.rows)

/-- Pulls outputs until there is none. -/
def drain (s : Session) : List (Except Failure Poll) × Session := pulls (s.rowsLeft + 1) [] s

/-- Makes a call. -/
def perform (s : Session) : Call → Reply × Session
  | .buildSchema =>
    let (r, s) := s.act Operator.buildSchema
    (.schema r, s)
  | .next keep =>
    let (p, s) := s.next keep
    (.poll p, s)
  | .drain =>
    let (ps, s) := s.drain
    (.polls ps, s)
  | .letGo =>
    let held := s.held
    (.nothing, ({ s with held := [] }.act (held.forM fun o => (o.drop : Action Unit))).2)
  | .kill => (.nothing, (s.act Operator.kill).2)
  | .close => (.nothing, (s.act Operator.close).2)
  | .cancel => (.nothing, (s.act (Workspace.raiseCancel : Action Unit)).2)
  | .pressure => (.nothing, (s.act (modify fun op =>
      { op with input := { op.input with pressure := true } })).2)
  | .memory f => (.nothing, (s.act (Workspace.onLedger (·.onForest f) : Action Unit)).2)
  | .disk f => (.nothing, (s.act (Workspace.onDisk f : Action Unit)).2)

/-- Makes calls one after the other. -/
def run : List Call → Session → List Reply × Session
  | [], s => ([], s)
  | c :: cs, s =>
    let (r, s) := s.perform c
    let (rs, s) := run cs s
    (r :: rs, s)

/-- Lets go of the operator and of all outputs. -/
def «end» (s : Session) : Workspace :=
  ((s.act (do
    Operator.drop
    s.held.forM fun o => (o.drop : Action Unit))).2).workspace

end Session

end SpillSort
