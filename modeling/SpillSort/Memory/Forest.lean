/-!
# Trackers

Memory is accounted for in a forest of trackers. A tracker has a limit, where a negative one means
none, and everything consumed on it is consumed on all its ancestors too.

* `Forest.consume` charges unconditionally, `Forest.tryConsume` only if every limit on the path to
  the root admits it, and `Forest.release` gives back.
* `Forest.tryConsume` goes up the path and takes everything back at the first tracker that it takes
  over its limit; `Forest.refusal?` names this tracker ahead of time.
-/

namespace SpillSort.Memory

/-- A position in the forest; ancestors have smaller positions. -/
abbrev TrackerId := Nat

/-- One node of the forest. -/
structure Tracker where
  label : String
  /-- Most bytes that may be current; negative for no limit. -/
  limit : Int64
  /-- The ancestors, nearest first. -/
  ancestors : List TrackerId
  /-- Whether whoever made the tracker still holds it. -/
  held : Bool := true
  current : Int64 := 0
  peak : Int64 := 0
  allocated : Int64 := 0
  deallocated : Int64 := 0
  deriving Repr

namespace Tracker

/-- Whether the tracker limits anything. -/
def limited (t : Tracker) : Bool := 0 ≤ t.limit

/-- Whether `bytes` more stay within the limit. -/
def admits (bytes : Int64) (t : Tracker) : Bool := !t.limited || t.current + bytes ≤ t.limit

/-- `bytes` more are current. -/
def charge (bytes : Int64) (t : Tracker) : Tracker :=
  let current := t.current + bytes
  { t with
    current
    allocated := t.allocated + bytes
    peak := if t.peak < current then current else t.peak }

/-- `bytes` more are current; the books do not have them yet. -/
def raise (bytes : Int64) (t : Tracker) : Tracker := { t with current := t.current + bytes }

/-- `bytes` that were raised are taken back. -/
def lower (bytes : Int64) (t : Tracker) : Tracker := { t with current := t.current - bytes }

/-- `bytes` that were raised enter the books. -/
def book (bytes : Int64) (t : Tracker) : Tracker :=
  { t with
    allocated := t.allocated + bytes
    peak := if t.peak < t.current then t.current else t.peak }

/-- Whether more is current than the limit allows. -/
def exceeded (t : Tracker) : Bool := t.limited && t.limit < t.current

/-- `bytes` fewer are current. -/
def credit (bytes : Int64) (t : Tracker) : Tracker :=
  { t with current := t.current - bytes, deallocated := t.deallocated + bytes }

end Tracker

/-- A refused request: the exceeded tracker, its limit, what was current on it, what was asked. -/
structure LimitExceeded where
  label : String
  limit : Int64
  current : Int64
  requested : Int64
  deriving DecidableEq, Repr

/-- The text of a refused request. -/
def LimitExceeded.message (e : LimitExceeded) : String :=
  s!"memory limit exceeded on tracker '{e.label}': limit={e.limit} current={e.current} " ++
    s!"requested={e.requested}"

/-- All trackers, in order of creation. -/
structure Forest where
  trackers : Array Tracker := #[]
  deriving Repr

namespace Forest

/-- The tracker at `id`. -/
def get? (f : Forest) (id : TrackerId) : Option Tracker := f.trackers[id]?

/-- Bytes current on `id`. -/
def current (f : Forest) (id : TrackerId) : Int64 := ((f.get? id).map Tracker.current).getD 0

/-- The label of `id`. -/
def label (f : Forest) (id : TrackerId) : String := ((f.get? id).map Tracker.label).getD ""

/-- A tracker and its ancestors, nearest first. -/
def path (f : Forest) (id : TrackerId) : List TrackerId :=
  id :: ((f.get? id).map Tracker.ancestors).getD []

/-- The parent of `id`. -/
def parent? (f : Forest) (id : TrackerId) : Option TrackerId :=
  (f.get? id).bind fun t => t.ancestors.head?

/-- The limit of the nearest limited proper ancestor. -/
def nearestAncestorLimit (f : Forest) (id : TrackerId) : Option Int64 :=
  ((f.path id).tail.filterMap f.get?).find? Tracker.limited |>.map Tracker.limit

/-- A new tracker without a parent. -/
def addRoot (f : Forest) (label : String) (limit : Int64) : TrackerId × Forest :=
  (f.trackers.size, { trackers := f.trackers.push { label, limit, ancestors := [] } })

/-- A new tracker below `parent`. -/
def addChild (f : Forest) (label : String) (limit : Int64) (parent : TrackerId) :
    TrackerId × Forest :=
  (f.trackers.size, { trackers := f.trackers.push { label, limit, ancestors := f.path parent } })

/-- Changes the listed trackers, one after the other. -/
def modifyAll (f : Forest) (ids : List TrackerId) (g : Tracker → Tracker) : Forest :=
  { trackers := ids.foldl (fun ts j => ts.modify j g) f.trackers }

/-- Changes every tracker on the path from `id` to its root. -/
def onPath (f : Forest) (id : TrackerId) (g : Tracker → Tracker) : Forest :=
  f.modifyAll (f.path id) g

/-- Charges `bytes` to `id` and its ancestors, whatever their limits. -/
def consume (f : Forest) (id : TrackerId) (bytes : Int64) : Forest :=
  if bytes ≤ 0 then f else f.onPath id (Tracker.charge bytes)

/-- The nearest tracker on the path from `id` to its root that does not admit `bytes` more, if there
is one. -/
def refusal? (f : Forest) (id : TrackerId) (bytes : Int64) : Option LimitExceeded :=
  if bytes ≤ 0 then none
  else
    (((f.path id).filterMap f.get?).find? fun t => !t.admits bytes).map fun t =>
      ⟨t.label, t.limit, t.current, bytes⟩

/-- Raises `bytes` on the trackers of a path, nearest first. At the first one that is exceeded then,
it is lowered again, and so are those `raised` before it. -/
def raiseAll (bytes : Int64) : (raised path : List TrackerId) → Forest →
    Except LimitExceeded Unit × Forest
  | _, [], f => (.ok (), f)
  | raised, id :: path, f =>
    let f := f.modifyAll [id] (Tracker.raise bytes)
    match (f.get? id).filter Tracker.exceeded with
    | none => raiseAll bytes (raised ++ [id]) path f
    | some t =>
      (.error ⟨t.label, t.limit, t.current - bytes, bytes⟩,
        f.modifyAll (id :: raised) (Tracker.lower bytes))

/-- Charges `bytes` to `id` and its ancestors unless one of them would be exceeded. -/
def tryConsume (f : Forest) (id : TrackerId) (bytes : Int64) :
    Except LimitExceeded Unit × Forest :=
  if bytes ≤ 0 then (.ok (), f)
  else
    match f.raiseAll bytes [] (f.path id) with
    | (.ok (), f) => (.ok (), f.modifyAll (f.path id) (Tracker.book bytes))
    | (.error e, f) => (.error e, f)

/-- Gives `bytes` back on `id` and its ancestors. -/
def release (f : Forest) (id : TrackerId) (bytes : Int64) : Forest :=
  if bytes ≤ 0 then f else f.onPath id (Tracker.credit bytes)

/-- Whoever made `id` lets go of it. -/
def letGo (f : Forest) (id : TrackerId) : Forest :=
  { trackers := f.trackers.modify id fun t => { t with held := false } }

end Forest

end SpillSort.Memory
