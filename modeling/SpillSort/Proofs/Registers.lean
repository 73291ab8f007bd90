import SpillSort.Data.Holders
import SpillSort.Proofs.Trackers

/-!
# What deeds say is held

A register follows the deeds of holders and never looks at a ledger or at what chunks carry with
them: a new charge is entered, a copy or a slice of a chunk holds what its original holds, a move is a
move of the charge, and a name that is taken or dropped holds nothing of what it held.

* `Register.enter` is what one deed changes, `Register.told` what many do one after the other.
* `Holders.register` is what ledger and chunks say instead, and `register_perform` that a deed changes
  it as it changes a register.
-/

namespace SpillSort

open Memory

/-- Whether a deed consumes or gives back bytes that no charge stands for. -/
def Deed.bare : Deed → Bool
  | .consume .. | .release .. | .tryConsume .. => true
  | _ => false

/-- Trackers by name, the place and the bytes of every charge ever opened, and what is held: charges by
name, and for a chunk its batch and the charge it has a part in. -/
structure Register where
  made : Nat := 0
  trackers : Named TrackerId := []
  opened : Array (TrackerId × Int64) := #[]
  charges : Named ChargeId := []
  chunks : Named (Batch × Option ChargeId) := []

namespace Register

variable (r : Register)

/-- The tracker with a name. -/
def tracker (name : String) : TrackerId := (r.trackers.lookup name).getD r.made

/-- The chunk with a name. -/
def chunk (name : String) : Batch × Option ChargeId := (r.chunks.lookup name).getD (default, none)

/-- The charges that are held, once for each holder. -/
def held : List ChargeId := r.charges.map Prod.snd ++ r.chunks.filterMap fun x => x.2.2

/-- A charge is opened, and held under a name. -/
def opening (name : String) (place : TrackerId) (bytes : Int64) : Register :=
  { r with opened := r.opened.push (place, bytes), charges := r.charges.set name r.opened.size }

/-- A chunk comes to a tracker with the charge it has, or is charged there unless it has no bytes. -/
def bring (name : String) (c : Batch × Option ChargeId) (place : TrackerId) : Register :=
  match c.2 with
  | some i =>
    { r with
      opened := r.opened.modify i fun x => (place, x.2)
      chunks := r.chunks.set name c }
  | none =>
    let bytes := clampBytes c.1.bytes
    if bytes = 0 then { r with chunks := r.chunks.set name c }
    else
      { r with
        opened := r.opened.push (place, bytes)
        chunks := r.chunks.set name (c.1, some r.opened.size) }

/-- What a deed changes, given what came of it. -/
def enter (outcome : Deed.Outcome) : Deed → Register
  | .addTracker name .. =>
    { r with made := r.made + 1, trackers := r.trackers.set name r.made }
  | .dropTracker name => { r with trackers := r.trackers.erase name }
  | .consume .. | .release .. | .tryConsume .. => r
  | .charge name place bytes => r.opening name (r.tracker place) bytes
  | .tryCharge name place bytes =>
    match outcome with
    | .done => r.opening name (r.tracker place) bytes
    | _ => r
  | .moveCharge name place =>
    match r.charges.lookup name with
    | some c => { r with opened := r.opened.modify c fun x => (r.tracker place, x.2) }
    | none => r
  | .dropCharge name => { r with charges := r.charges.erase name }
  | .addChunk name batch none => { r with chunks := r.chunks.set name (batch, none) }
  | .addChunk name batch (some place) => r.bring name (batch, none) (r.tracker place)
  | .copyChunk name source => { r with chunks := r.chunks.set name (r.chunk source) }
  | .sliceChunk name source offset length =>
    match outcome with
    | .done =>
      let (batch, charge?) := r.chunk source
      { r with chunks := r.chunks.set name (batch.slice offset length, charge?) }
    | _ => r
  | .moveChunk name place => r.bring name (r.chunk name) (r.tracker place)
  | .dropChunk name => { r with chunks := r.chunks.erase name }

/-- What deeds say that are done one after the other. -/
def told (deeds : List Deed) (h : Holders) (r : Register) : Register :=
  match deeds with
  | [] => r
  | d :: ds => told ds (h.perform d).2 (r.enter (h.perform d).1 d)

/-- The bytes that are held on a tracker and on those below it, given the paths of a forest. -/
def live (path : TrackerId → List TrackerId) (t : TrackerId) : Nat :=
  total (r.opened.toList.mapIdx fun c x =>
    if c ∈ r.held ∧ t ∈ path x.1 then x.2.toNatClampNeg else 0)

/-- The charge that a deed moves, and where to. -/
def moved? : Deed → Option (ChargeId × TrackerId)
  | .moveCharge name place => (r.charges.lookup name).map (·, r.tracker place)
  | .moveChunk name place => (r.chunk name).2.map (·, r.tracker place)
  | _ => none

end Register

namespace Memory.Ledger

variable {l : Ledger} {c : ChargeId} {id : TrackerId} {bytes : Int64}

/-- How many trackers there are, and where each charge is with its bytes. -/
def layout (l : Ledger) : Nat × Array (TrackerId × Int64) :=
  (l.forest.trackers.size, l.charges.map fun x => (x.tracker, x.bytes))

/-- A change of who holds a charge. -/
theorem layout_modify {f : Forest} {g : Charge → Charge}
    (hsize : f.trackers.size = l.forest.trackers.size)
    (hg : ∀ x, ((g x).tracker, (g x).bytes) = (x.tracker, x.bytes)) :
    ({ l with forest := f, charges := l.charges.modify c g } : Ledger).layout = l.layout := by
  refine Prod.ext hsize (Array.ext_getElem? fun i => ?_)
  simp only [layout, Array.getElem?_map, Array.getElem?_modify]
  split
  · rw [Option.map_map]
    exact congrArg (fun k => (l.charges[i]?).map k) (funext hg)
  · rfl

theorem layout_shareAll (cs : List ChargeId) : (l.shareAll cs).layout = l.layout := by
  induction cs generalizing l with
  | nil => rfl
  | cons c cs ih => exact ih.trans (layout_modify rfl fun _ => rfl)

theorem layout_dropAll (cs : List ChargeId) : (l.dropAll cs).layout = l.layout := by
  induction cs generalizing l with
  | nil => rfl
  | cons c cs ih =>
    refine ih.trans ?_
    rcases hc : l.charges[c]? with _ | x
    · simp only [drop, hc]
    · rw [drop_of_some hc]
      refine layout_modify ?_ fun _ => rfl
      split
      · exact Forest.size_release
      · rfl

theorem layout_charge :
    (l.charge id bytes).2.layout = (l.layout.1, l.layout.2.push (id, bytes)) :=
  Prod.ext Forest.size_consume Array.map_push

theorem layout_transfer :
    (l.transfer c id).layout = (l.layout.1, l.layout.2.modify c fun x => (id, x.2)) := by
  refine Prod.ext (l.size_transfer c id) (Array.ext_getElem? fun i => ?_)
  simp only [layout, charges_transfer, Array.getElem?_map, Array.getElem?_modify]
  split
  · rw [Option.map_map, Option.map_map]
    rfl
  · rfl

end Memory.Ledger

namespace Holders

variable (h : Holders)

/-- What the ledger says of charges, and chunks of the part they have in one. -/
def register : Register where
  made := h.ledger.layout.1
  trackers := h.trackers
  opened := h.ledger.layout.2
  charges := h.charges
  chunks := Named.mapValues (fun c => (c.batch, c.charge?)) h.chunks

theorem held_register : h.register.held =
    h.charges.map Prod.snd ++ h.chunks.filterMap fun x => x.2.charge? := by
  simp only [Register.held, register, Named.mapValues, List.filterMap_map]
  rfl

theorem chunk_register (name : String) :
    h.register.chunk name = ((h.chunk name).batch, (h.chunk name).charge?) := by
  rw [Register.chunk, register, Named.lookup_mapValues, chunk]
  cases h.chunks.lookup name <;> rfl

variable {h} {l : Ledger}

/-- Another ledger with the same trackers and charges. -/
theorem register_ledger (hl : l.layout = h.ledger.layout) :
    ({ h with ledger := l } : Holders).register = h.register := by
  simp only [register, hl]

theorem register_dropTracker (name : String) : (h.dropTracker name).register = h.register := by
  unfold dropTracker
  split
  · refine register_ledger (Prod.ext ?_ rfl)
    exact Array.size_modify
  · rfl

theorem register_keepCharge (name : String) (c : ChargeId) :
    (h.keepCharge name c).register =
      { h.register with charges := h.register.charges.set name c } := by
  simp only [register, keepCharge, Ledger.layout_dropAll]

theorem register_keepChunk (name : String) (c : Chunk) :
    (h.keepChunk name c).register =
      { h.register with chunks := h.register.chunks.set name (c.batch, c.charge?) } := by
  have hl : ((h.chunks.lookup name).elim h.ledger fun old => old.drop h.ledger).layout =
      h.ledger.layout := by
    cases h.chunks.lookup name with
    | none => rfl
    | some old => exact Ledger.layout_dropAll _
  simp only [register, keepChunk, hl, Named.mapValues_set]

/-- A charge that is opened under a name. -/
theorem register_charge (name : String) (id : TrackerId) (bytes : Int64) :
    { { h with ledger := (h.ledger.charge id bytes).2 }.register with
      charges := h.charges.set name (h.ledger.charge id bytes).1 } =
      h.register.opening name id bytes := by
  have hid : (h.ledger.charge id bytes).1 = h.ledger.layout.2.size := by
    simp [Ledger.charge, Ledger.record, Ledger.layout, Ledger.onForest]
  simp only [register, Register.opening, Ledger.layout_charge, hid]

/-- A chunk that comes to a tracker. -/
theorem register_transfer (name : String) (c : Chunk) (id : TrackerId) :
    ({ h with
        ledger := (c.transfer id h.ledger).2
        chunks := h.chunks.set name (c.transfer id h.ledger).1 } : Holders).register =
      h.register.bring name (c.batch, c.charge?) id := by
  unfold Chunk.transfer Register.bring
  rcases ha : c.account? with _ | a
  · have hnone : c.charge? = none := by rw [Chunk.charge?, ha]; rfl
    simp only [hnone]
    split
    · simp only [register, Named.mapValues_set, hnone]
    · simp only [register, Named.mapValues_set, Ledger.layout_charge]
      rw [Ledger.charge, Ledger.record, Ledger.layout, Array.size_map]
      rfl
  · have hsome : c.charge? = some a.charge := by rw [Chunk.charge?, ha]; rfl
    simp only [hsome, register, Named.mapValues_set, Ledger.layout_transfer]

/-- A new tracker that takes a name. -/
theorem register_addTracker (name label : String) (limit : Int64) (parent? : Option String) :
    (h.addTracker name label limit parent?).register =
      { h.register with
        made := h.register.made + 1
        trackers := h.trackers.set name h.register.made } := by
  have hdrop : ∀ l : Ledger, ∀ trackers, l.layout = (h.register.made + 1, h.register.opened) →
      ({ { h with ledger := l }.dropTracker name with trackers } : Holders).register =
        { h.register with made := h.register.made + 1, trackers } := fun l trackers hl => by
    have hsame := register_dropTracker (h := { h with ledger := l }) name
    refine (congrArg (fun r : Register => { r with trackers }) hsame).trans ?_
    simp only [register, hl]
  cases parent? with
  | none => exact hdrop _ _ (Prod.ext (Array.size_push _) rfl)
  | some p => exact hdrop _ _ (Prod.ext (Array.size_push _) rfl)

/-- What a deed changes is what a register is told of it. -/
theorem register_perform {d : Deed} (hd : d.bare = false) :
    (h.perform d).2.register = h.register.enter (h.perform d).1 d := by
  cases d with
  | addTracker name label limit parent? => exact register_addTracker name label limit parent?
  | dropTracker name =>
    exact congrArg (fun r : Register => { r with trackers := h.trackers.erase name })
      (register_dropTracker name)
  | consume t bytes => cases hd
  | release t bytes => cases hd
  | tryConsume t bytes => cases hd
  | charge name t bytes =>
    exact (register_keepCharge name _).trans (register_charge name (h.tracker t) bytes)
  | tryCharge name t bytes =>
    simp only [perform, Ledger.tryCharge]
    cases h.ledger.forest.refusal? (h.tracker t) bytes with
    | some e => rfl
    | none => exact (register_keepCharge name _).trans (register_charge name (h.tracker t) bytes)
  | moveCharge name t =>
    simp only [perform, Register.enter]
    cases hc : h.charges.lookup name with
    | none => simp only [register, hc, Option.elim_none]
    | some c =>
      simp only [register, hc, Option.elim_some, Ledger.layout_transfer, Register.tracker]
      rfl
  | dropCharge name => simp only [perform, register, Ledger.layout_dropAll, Register.enter]
  | addChunk name batch t? =>
    cases t? with
    | none => exact register_keepChunk name { batch }
    | some t =>
      have hb := register_transfer (h := h) name { batch } (h.tracker t)
      simp only [perform, Chunk.tracked, register_keepChunk]
      simp only [register, Named.mapValues_set] at hb ⊢
      exact hb
  | copyChunk name source =>
    simp only [perform, Chunk.copy, register_keepChunk, Register.enter, chunk_register]
    rw [register_ledger (Ledger.layout_shareAll _)]
  | sliceChunk name source offset length =>
    simp only [perform, Chunk.slice]
    split
    · rfl
    · simp only [register_keepChunk, Register.enter, chunk_register]
      rw [register_ledger (Ledger.layout_shareAll _)]
      rfl
  | moveChunk name t =>
    simp only [perform, Register.enter, chunk_register]
    exact register_transfer name (h.chunk name) (h.tracker t)
  | dropChunk name =>
    simp only [perform, register, Chunk.drop, Ledger.layout_dropAll, Register.enter,
      Named.mapValues_erase]

end Holders

end SpillSort
