import SpillSort.Memory.Ledger
import SpillSort.Text.Decimal

/-!
# Profiles

A profile is a tree of named nodes, each with information strings and counters. Children are found
by name, so a node is reached by the path of names below the root.

* `Profile.onChild` and `Profile.addCounter` make what is not there yet and keep what is.
* `Profile.render` prints a tree.
* `Profile.attach` copies a tree of trackers below a node. Trackers of one label below one parent
  share a node, which then shows the last of them.
-/

namespace SpillSort

/-- What a counter counts. -/
inductive CounterUnit where
  | count
  | bytes
  | nanoseconds
  deriving DecidableEq, Repr

/-- A value with its unit; values wrap around at 64 bits. -/
structure Counter where
  unit : CounterUnit
  value : Int64 := 0
  deriving DecidableEq, Repr

namespace Counter

/-- The value with its unit; times are shown in milliseconds. -/
def render (c : Counter) : String :=
  match c.unit with
  | .count => toString c.value
  | .bytes => s!"{c.value} B"
  | .nanoseconds => Text.thousandths (Float.ofInt c.value.toInt / 1000000.0) ++ "ms"

/-- The sum with `delta`. -/
def add (delta : Int64) (c : Counter) : Counter := { c with value := c.value + delta }

/-- The value replaced. -/
def set (value : Int64) (c : Counter) : Counter := { c with value }

/-- The larger of the value and `value`. -/
def raise (value : Int64) (c : Counter) : Counter :=
  { c with value := if c.value < value then value else c.value }

end Counter

/-- Writes `k` into a table kept in order of its keys. -/
def insertKey {α : Type} (k : String) (v : α) : List (String × α) → List (String × α)
  | [] => [(k, v)]
  | (k', v') :: rest =>
    if k = k' then (k, v) :: rest
    else if k < k' then (k, v) :: (k', v') :: rest
    else (k', v') :: insertKey k v rest

/-- A node with its information strings and counters in order of their names, and its children in
order of creation. -/
inductive Profile where
  | node (name : String) (infos : List (String × String)) (counters : List (String × Counter))
      (children : List Profile)

namespace Profile

/-- A node with nothing in it. -/
def empty (name : String) : Profile := .node name [] [] []

/-- The name of a node. -/
def name : Profile → String
  | node n _ _ _ => n

/-- The information strings of a node. -/
def infos : Profile → List (String × String)
  | node _ i _ _ => i

/-- The counters of a node. -/
def counters : Profile → List (String × Counter)
  | node _ _ c _ => c

/-- The children of a node. -/
def children : Profile → List Profile
  | node _ _ _ cs => cs

/-- The first child called `k`. -/
def child? (p : Profile) (k : String) : Option Profile := p.children.find? (·.name = k)

/-- The node at the end of a path of names. -/
def at? : List String → Profile → Option Profile
  | [], p => some p
  | k :: ks, p => (p.child? k).bind (at? ks)

/-- Changes the first profile called `k` in a list, which is added at the end if missing. -/
def onNamed (k : String) (f : Profile → Profile) : List Profile → List Profile
  | [] => [f (empty k)]
  | c :: cs => if c.name = k then f c :: cs else c :: onNamed k f cs

/-- Changes the child called `k`, which is made if missing. -/
def onChild (k : String) (f : Profile → Profile) : Profile → Profile
  | node n i c cs => node n i c (onNamed k f cs)

/-- Changes the node at the end of a path; nodes missing on the way are made. -/
def onPath : List String → (Profile → Profile) → Profile → Profile
  | [], f, p => f p
  | k :: ks, f, p => p.onChild k (onPath ks f)

/-- Writes an information string. -/
def setInfo (k v : String) : Profile → Profile
  | node n i c cs => node n (insertKey k v i) c cs

/-- The information string under `k`. -/
def info? (p : Profile) (k : String) : Option String := p.infos.lookup k

/-- The counter called `k`. -/
def counter? (p : Profile) (k : String) : Option Counter := p.counters.lookup k

/-- The value of a counter of the node at a path. -/
def value? (p : Profile) (path : List String) (k : String) : Option Int64 :=
  ((p.at? path).bind (·.counter? k)).map Counter.value

/-- A counter called `k`; one that is there already keeps its unit and value. -/
def addCounter (k : String) (unit : CounterUnit) : Profile → Profile
  | node n i c cs =>
    match c.lookup k with
    | some _ => node n i c cs
    | none => node n i (insertKey k { unit } c) cs

/-- Changes the counter called `k`, if there is one. -/
def onCounter (k : String) (f : Counter → Counter) : Profile → Profile
  | node n i c cs =>
    match c.lookup k with
    | some x => node n i (insertKey k (f x) c) cs
    | none => node n i c cs

/-- Sets the counter called `k`, which is made with `unit` if missing. -/
def setCounter (k : String) (unit : CounterUnit) (value : Int64) (p : Profile) : Profile :=
  (p.addCounter k unit).onCounter k (Counter.set value)

/-! ## Printing -/

mutual

/-- The lines of a profile at a depth: name, information strings, counters, children. -/
def lines (depth : Nat) : Profile → List String
  | node n i c cs =>
    let indent := String.ofList (List.replicate (2 * depth) ' ')
    [s!"{indent}{n}:"] ++ i.map (fun (k, v) => s!"{indent}   - {k}: {v}")
      ++ c.map (fun (k, v) => s!"{indent}   - {k}: {v.render}") ++ childLines (depth + 1) cs

/-- The lines of several profiles at one depth. -/
def childLines (depth : Nat) : List Profile → List String
  | [] => []
  | c :: cs => lines depth c ++ childLines depth cs

end

/-- The text of a profile, each line ended by a line feed. -/
def render (p : Profile) : String := String.join ((p.lines 0).map (· ++ "\n"))

/-! ## Trackers in a profile -/

mutual

/-- Writes a tracker into a node, and the trackers below it into children named by label. -/
def fill : Memory.Ledger.TrackerTree → Profile → Profile
  | .node label current peak below, p =>
    fillChildren below
      (((p.setInfo "Label" label).setCounter "CurrentMemoryBytes" .bytes current).setCounter
        "PeakMemoryBytes" .bytes peak)

/-- Writes each tracker of a list into the child named by its label. -/
def fillChildren : List Memory.Ledger.TrackerTree → Profile → Profile
  | [], p => p
  | t :: ts, p => fillChildren ts (p.onChild t.label fun q => fill t q)

end

/-- Copies a tree of trackers below the child `MemTracker`. -/
def attach (t : Memory.Ledger.TrackerTree) (p : Profile) : Profile :=
  p.onChild "MemTracker" (fill t)

end Profile

end SpillSort
