import SpillSort.Data.Chunk
import SpillSort.Named

/-!
# Holders

Who holds what: trackers, bare charges and chunks under the names of their holders. A `Deed` is one
thing that a holder does, and `Holders.perform` is what comes of it.

* A deed that is refused, or that names a row which is not there, changes nothing.
* Whoever takes a name in use lets go of what was held under it.
-/

namespace SpillSort

/-- Something that holders do. Trackers are given by name; an unknown name stands for none. -/
inductive Deed where
  | addTracker (name label : String) (limit : Int64) (parent? : Option String)
  | dropTracker (name : String)
  | consume (tracker : String) (bytes : Int64)
  | release (tracker : String) (bytes : Int64)
  | tryConsume (tracker : String) (bytes : Int64)
  | charge (name tracker : String) (bytes : Int64)
  | tryCharge (name tracker : String) (bytes : Int64)
  | moveCharge (name tracker : String)
  | dropCharge (name : String)
  | addChunk (name : String) (batch : Batch) (tracker? : Option String)
  | copyChunk (name source : String)
  | sliceChunk (name source : String) (offset length : Nat)
  | moveChunk (name tracker : String)
  | dropChunk (name : String)

/-- What comes of a deed. -/
inductive Deed.Outcome where
  | done
  | refused (e : Memory.LimitExceeded)
  | outOfRange

/-- Everything that is held, and the ledger of it. -/
structure Holders where
  ledger : Memory.Ledger := {}
  trackers : Named Memory.TrackerId := []
  charges : Named Memory.ChargeId := []
  chunks : Named Chunk := []

namespace Holders

/-- The tracker with a name. -/
def tracker (h : Holders) (name : String) : Memory.TrackerId :=
  (h.trackers.lookup name).getD h.ledger.forest.trackers.size

/-- The chunk with a name. -/
def chunk (h : Holders) (name : String) : Chunk :=
  (h.chunks.lookup name).getD { batch := default }

/-- Changes the trackers. -/
def onForest (f : Memory.Forest → Memory.Forest) (h : Holders) : Holders :=
  { h with ledger := h.ledger.onForest f }

/-- Lets go of a tracker. -/
def dropTracker (name : String) (h : Holders) : Holders :=
  (match h.trackers.lookup name with
    | some id => h.onForest (·.letGo id)
    | none => h : Holders)

/-- Gives a name to a new tracker. -/
def addTracker (name label : String) (limit : Int64) (parent? : Option String) (h : Holders) :
    Holders :=
  let (id, ledger) := match parent? with
    | some p => h.ledger.addChild label limit (h.tracker p)
    | none => h.ledger.addRoot label limit
  let trackers := h.trackers.set name id
  { ({ h with ledger }.dropTracker name) with trackers }

/-- Gives a name to a charge. -/
def keepCharge (name : String) (c : Memory.ChargeId) (h : Holders) : Holders :=
  { h with
    ledger := h.ledger.dropAll (h.charges.lookup name).toList
    charges := h.charges.set name c }

/-- Gives a name to a chunk. -/
def keepChunk (name : String) (c : Chunk) (h : Holders) : Holders :=
  { h with
    ledger := (h.chunks.lookup name).elim h.ledger fun old => old.drop h.ledger
    chunks := h.chunks.set name c }

/-- Does a deed. -/
def perform (h : Holders) : Deed → Deed.Outcome × Holders
  | .addTracker name label limit parent? => (.done, h.addTracker name label limit parent?)
  | .dropTracker name =>
    (.done, { h.dropTracker name with trackers := h.trackers.erase name })
  | .consume tracker bytes => (.done, h.onForest (·.consume (h.tracker tracker) bytes))
  | .release tracker bytes => (.done, h.onForest (·.release (h.tracker tracker) bytes))
  | .tryConsume tracker bytes =>
    match h.ledger.forest.tryConsume (h.tracker tracker) bytes with
    | (.ok (), forest) => (.done, h.onForest fun _ => forest)
    | (.error e, forest) => (.refused e, h.onForest fun _ => forest)
  | .charge name tracker bytes =>
    let (c, ledger) := h.ledger.charge (h.tracker tracker) bytes
    (.done, { h with ledger }.keepCharge name c)
  | .tryCharge name tracker bytes =>
    match h.ledger.tryCharge (h.tracker tracker) bytes with
    | (.ok c, ledger) => (.done, { h with ledger }.keepCharge name c)
    | (.error e, _) => (.refused e, h)
  | .moveCharge name tracker =>
    (.done, { h with
      ledger := (h.charges.lookup name).elim h.ledger fun c =>
        h.ledger.transfer c (h.tracker tracker) })
  | .dropCharge name =>
    (.done, { h with
      ledger := h.ledger.dropAll (h.charges.lookup name).toList
      charges := h.charges.erase name })
  | .addChunk name batch tracker? =>
    let (c, ledger) := match tracker? with
      | some t => Chunk.tracked batch (h.tracker t) h.ledger
      | none => ({ batch }, h.ledger)
    (.done, { h with ledger }.keepChunk name c)
  | .copyChunk name source =>
    let (c, ledger) := (h.chunk source).copy h.ledger
    (.done, { h with ledger }.keepChunk name c)
  | .sliceChunk name source offset length =>
    if ((h.chunk source).batch.slice? offset length).isNone then (.outOfRange, h)
    else
      let (c, ledger) := (h.chunk source).slice offset length h.ledger
      (.done, { h with ledger }.keepChunk name c)
  | .moveChunk name tracker =>
    let (c, ledger) := (h.chunk name).transfer (h.tracker tracker) h.ledger
    (.done, { h with ledger, chunks := h.chunks.set name c })
  | .dropChunk name =>
    (.done, { h with ledger := (h.chunk name).drop h.ledger, chunks := h.chunks.erase name })

/-- Does deeds one after the other. -/
def run (deeds : List Deed) (h : Holders) : Holders :=
  deeds.foldl (fun h d => (h.perform d).2) h

end Holders

end SpillSort
