import SpillSort.Memory.Forest
import SpillSort.Failure

/-!
# Charges

A charge is an amount of bytes held on a tracker. Several holders may share one; it is given back
when the last of them lets go, and moving it through any one holder moves it for all.

* `Ledger.charge` and `Ledger.tryCharge` open a charge with one holder.
* `Ledger.share`, `Ledger.drop` and `Ledger.transfer` add a holder, remove one, and move the charge.
* A lease holds many charges at once and is itself shared: `Ledger.lease`, `Ledger.shareLease` and
  `Ledger.dropLease`.
* `Ledger.tree` is the tree of trackers still in use below a tracker.
-/

namespace SpillSort.Memory

/-- A byte count as a signed word; one that does not fit counts as the largest. -/
def clampBytes (bytes : Nat) : Int64 :=
  if bytes < 9223372036854775808 then Int64.ofNat bytes else Int64.maxValue

/-- A refused request as a failure. -/
def LimitExceeded.failure (e : LimitExceeded) : Failure := .outOfMemory e.message

/-- Bytes held on a tracker by a number of holders; without holders it is closed. -/
structure Charge where
  tracker : TrackerId
  bytes : Int64
  holders : Nat
  deriving Repr

/-- The position of a charge in its ledger. -/
abbrev ChargeId := Nat

/-- Charges held together by a number of holders; the last of them lets go of them all. -/
structure Lease where
  charges : List ChargeId
  holders : Nat
  deriving Repr

/-- The position of a lease in its ledger. -/
abbrev LeaseId := Nat

/-- The trackers, and every charge and lease ever opened. -/
structure Ledger where
  forest : Forest := {}
  charges : Array Charge := #[]
  leases : Array Lease := #[]
  deriving Repr, Inhabited

namespace Ledger

/-- Applies a change of the forest. -/
def onForest (l : Ledger) (g : Forest → Forest) : Ledger :=
  let { forest, charges, leases } := l
  { forest := g forest, charges, leases }

/-- A new tracker without a parent. -/
def addRoot (l : Ledger) (label : String) (limit : Int64) : TrackerId × Ledger :=
  let (id, forest) := l.forest.addRoot label limit
  (id, { l with forest })

/-- A new tracker below `parent`. -/
def addChild (l : Ledger) (label : String) (limit : Int64) (parent : TrackerId) :
    TrackerId × Ledger :=
  let (id, forest) := l.forest.addChild label limit parent
  (id, { l with forest })

/-- Records an amount that is already consumed on the forest. -/
def record (l : Ledger) (id : TrackerId) (bytes : Int64) : ChargeId × Ledger :=
  let { forest, charges, leases } := l
  (charges.size, { forest, charges := charges.push { tracker := id, bytes, holders := 1 }, leases })

/-- Opens a charge of `bytes` on `id`, whatever the limits. -/
def charge (l : Ledger) (id : TrackerId) (bytes : Int64) : ChargeId × Ledger :=
  (l.onForest fun f => f.consume id bytes).record id bytes

/-- Opens a charge of `bytes` on `id` if every limit admits it. -/
def tryCharge (l : Ledger) (id : TrackerId) (bytes : Int64) :
    Except LimitExceeded ChargeId × Ledger :=
  match l.forest.refusal? id bytes with
  | some e => (.error e, l)
  | none =>
    let (c, l) := l.charge id bytes
    (.ok c, l)

/-- One more holder of a charge. -/
def share (l : Ledger) (c : ChargeId) : Ledger :=
  let { forest, charges, leases } := l
  { forest, charges := charges.modify c fun x => { x with holders := x.holders + 1 }, leases }

/-- One holder fewer; the last one gives the bytes back. -/
def drop (l : Ledger) (c : ChargeId) : Ledger :=
  match l.charges[c]? with
  | none => l
  | some x =>
    let { forest, charges, leases } := l
    { forest := if x.holders = 1 then forest.release x.tracker x.bytes else forest
      charges := charges.modify c fun x => { x with holders := x.holders - 1 }
      leases }

/-- Drops one holder of each listed charge. -/
def dropAll (l : Ledger) (cs : List ChargeId) : Ledger := cs.foldl drop l

/-- One more holder of each listed charge. -/
def shareAll (l : Ledger) (cs : List ChargeId) : Ledger := cs.foldl share l

/-- Moves a charge to `id` for all its holders: first given back, then consumed, so that a common
ancestor never counts it twice. -/
def transfer (l : Ledger) (c : ChargeId) (id : TrackerId) : Ledger :=
  match l.charges[c]? with
  | none => l
  | some x =>
    if x.tracker = id then l
    else
      let { forest, charges, leases } := l
      { forest := (forest.release x.tracker x.bytes).consume id x.bytes
        charges := charges.modify c fun x => { x with tracker := id }
        leases }

/-! ## Leases -/

/-- Hands one holder of each charge over to a new lease. -/
def lease (l : Ledger) (cs : List ChargeId) : LeaseId × Ledger :=
  let { forest, charges, leases } := l
  (leases.size, { forest, charges, leases := leases.push { charges := cs, holders := 1 } })

/-- One more holder of a lease. -/
def shareLease (l : Ledger) (i : LeaseId) : Ledger :=
  let { forest, charges, leases } := l
  { forest, charges, leases := leases.modify i fun x => { x with holders := x.holders + 1 } }

/-- One holder of a lease fewer; the last one drops its charges. -/
def dropLease (l : Ledger) (i : LeaseId) : Ledger :=
  match l.leases[i]? with
  | none => l
  | some x =>
    let { forest, charges, leases } := l
    let l : Ledger :=
      { forest, charges, leases := leases.modify i fun x => { x with holders := x.holders - 1 } }
    if x.holders = 1 then l.dropAll x.charges else l

/-! ## Looking up -/

/-- The tracker a charge is on. -/
def trackerOf? (l : Ledger) (c : ChargeId) : Option TrackerId :=
  (l.charges[c]?).map Charge.tracker

/-- Bytes current on a tracker. -/
def current (l : Ledger) (id : TrackerId) : Int64 := l.forest.current id

/-- The bytes of a charge. -/
def bytesOf (l : Ledger) (c : ChargeId) : Int64 := ((l.charges[c]?).map Charge.bytes).getD 0

/-! ## Trackers in use -/

/-- The trackers named directly: held by their makers, or bearing a charge that has holders. -/
def pinned (l : Ledger) : List TrackerId :=
  (List.range l.forest.trackers.size).filter (fun i => ((l.forest.get? i).map (·.held)).getD false)
    ++ (l.charges.toList.filter (0 < ·.holders)).map Charge.tracker

/-- A tracker is in use while it, or a tracker below it, is named directly. -/
def inUse (l : Ledger) (id : TrackerId) : Bool :=
  l.pinned.any fun j => (l.forest.path j).contains id

/-- The trackers in use right below `id`, in order of creation. -/
def children (l : Ledger) (id : TrackerId) : List TrackerId :=
  (List.range l.forest.trackers.size).filter fun j =>
    id < j && l.forest.parent? j == some id && l.inUse j

/-- What is shown of a tracker, and of those in use below it. -/
inductive TrackerTree where
  | node (label : String) (current peak : Int64) (children : List TrackerTree)

/-- The label at the root of a tree. -/
def TrackerTree.label : TrackerTree → String
  | node label _ _ _ => label

theorem lt_of_mem_children {l : Ledger} {id j : TrackerId} (h : j ∈ l.children id) :
    id < j ∧ j < l.forest.trackers.size := by
  simp only [children, List.mem_filter, List.mem_range, Bool.and_eq_true, decide_eq_true_eq] at h
  exact ⟨h.2.1.1, h.1⟩

/-- The tree of trackers in use from `id` down. -/
def tree (l : Ledger) (id : TrackerId) : TrackerTree :=
  let t := (l.forest.get? id).getD { label := "", limit := -1, ancestors := [] }
  .node t.label t.current t.peak
    ((l.children id).attach.map fun ⟨j, h⟩ =>
      have := lt_of_mem_children h
      l.tree j)
termination_by l.forest.trackers.size - id
decreasing_by exact Nat.sub_lt_sub_left (Nat.lt_trans this.1 this.2) this.1

end Ledger

end SpillSort.Memory
