import Mathlib.Data.List.TakeWhile
import SpillSort.Proofs.MemoryMerges
import SpillSort.Proofs.Rules

/-!
# What an operator has staged

An operator that takes in its input holds all slices staged so far: those of each group on disk
merged, those in memory each in a group of its own, and all in the order in which they arrived.

* `Operator.Stages` is that invariant; `Operator.Keeps` is about resources alone, and all that is left
  of it after a failure.
* `Operator.spill_spec` and `Operator.keepSlice_spec` are the two steps that change groups, and
  `Operator.stageSlices_spec` does all slices of a chunk.
-/

namespace SpillSort

open Memory Spill

variable {E : Surroundings} {w : Workspace} {R S : Resources} {order : RowOrder}

/-! ## Slices in key order -/

/-- The rows of a slice as sorting it in place leaves them. -/
def RowOrder.sortedTable (o : RowOrder) (b : Batch) : List Row :=
  (sortRows o ⟨o.keyRows b, 0⟩ (List.range b.rows)).map b.row

theorem sortRows_eq (order : RowOrder) (keys : EncodedKeys) (rows : List Nat) :
    sortRows order keys rows =
      (InPlace.arrange (fun a b => order.lt (keys.row a) (keys.row b)) rows).mergeSort
        fun a b => order.le (keys.row a) (keys.row b) :=
  (order.preordering.comap keys.row).stableSort_eq _

theorem sortRows_perm (order : RowOrder) (keys : EncodedKeys) (rows : List Nat) :
    (sortRows order keys rows).Perm rows := by
  rw [sortRows_eq]
  exact (List.mergeSort_perm _ _).trans (InPlace.arrange_perm _ _)

/-- Only the keys of the rows matter. -/
theorem sortRows_congr {order : RowOrder} {keys keys' : EncodedKeys} (h : keys.rows = keys'.rows)
    (rows : List Nat) : sortRows order keys rows = sortRows order keys' rows := by
  have hrow : keys.row = keys'.row := funext fun i => by rw [EncodedKeys.row, EncodedKeys.row, h]
  rw [sortRows, sortRows, hrow]

theorem RowOrder.sortedTable_perm (o : RowOrder) (b : Batch) :
    (o.sortedTable b).Perm b.table :=
  (sortRows_perm _ _ _).map _

theorem RowOrder.length_sortedTable (o : RowOrder) (b : Batch) :
    (o.sortedTable b).length = b.rows :=
  (o.sortedTable_perm b).length_eq.trans b.length_table

namespace RowOrder

/-- The rows of a slice as they lie when the in-place sort stops moving equal keys past each other. -/
def arranged (o : RowOrder) (b : Batch) : List Row :=
  (InPlace.arrange (fun i j => o.lt (EncodedKeys.row ⟨o.keyRows b, 0⟩ i)
    (EncodedKeys.row ⟨o.keyRows b, 0⟩ j)) (List.range b.rows)).map b.row

theorem sortedTable_eq (o : RowOrder) {b : Batch} (hs : b.schema = o.schema) :
    o.sortedTable b = (o.arranged b).mergeSort o.rowLe := by
  rw [sortedTable, sortRows_eq, arranged, List.map_mergeSort]
  intro i hi j hj
  have hlt : ∀ k ∈ InPlace.arrange (fun i j => o.lt (EncodedKeys.row ⟨o.keyRows b, 0⟩ i)
      (EncodedKeys.row ⟨o.keyRows b, 0⟩ j)) (List.range b.rows), k < b.rows := fun k hk =>
    List.mem_range.mp ((InPlace.arrange_perm _ _).mem_iff.mp hk)
  rw [rowLe, o.row_keyRows hs (hlt i hi), o.row_keyRows hs (hlt j hj)]

theorem inOrder_sortedTable (o : RowOrder) {b : Batch} (hs : b.schema = o.schema) :
    InOrder o.rowLe (o.sortedTable b) := by
  rw [o.sortedTable_eq hs]
  exact o.rowLe_preordering.inOrder_mergeSort _

end RowOrder

/-- The run is a slice, sorted through a selection that orders all its rows. -/
structure SortedRun.Sorts (order : RowOrder) (run : SortedRun) (b : Batch) : Prop where
  batch : run.chunk.batch = b
  keys : order.encode b = .ok run.keys
  nonempty : 0 < b.rows
  small : b.rows ≤ maxSelectionRows
  selection : ∃ s, run.selection? = some s ∧ s.offsets.toList.Perm (List.range b.rows)
  reads : run.Reads order (order.sortedTable b)

theorem RowOrder.encode_rows {o : RowOrder} {b : Batch} {keys : EncodedKeys}
    (h : o.encode b = .ok keys) : keys.rows = o.keyRows b := by
  unfold RowOrder.encode at h
  split at h
  · cases h
  · obtain rfl := Except.ok.inj h
    rfl

theorem RowSelection.identityOffsets_eq {n : Nat} (h : n ≤ maxSelectionRows) :
    (identityOffsets n).toList = List.range n := by
  rw [identityOffsets, Array.toList_map, Array.toList_range]
  refine (List.map_congr_left fun i hi => ?_).trans (List.map_id _)
  exact Nat.mod_eq_of_lt (Nat.lt_of_lt_of_le (List.mem_range.mp hi) h)

/-- Encoded keys and the positions sorted by them put a slice in order. -/
theorem SortedRun.sorts_of_encode {run : SortedRun} {s : RowSelection}
    (hkeys : order.encode run.chunk.batch = .ok run.keys) (hpos : 0 < run.length)
    (hsmall : run.length ≤ maxSelectionRows) (hs : run.selection? = some s)
    (hoffsets : s.offsets.toList = sortRows order run.keys (List.range run.length)) :
    run.Sorts order run.chunk.batch := by
  obtain ⟨hschema, hkey⟩ := order.encode_ok hkeys
  have hperm : s.offsets.toList.Perm (List.range run.length) := hoffsets ▸ sortRows_perm ..
  have hlength : s.offsets.size = run.length := by
    rw [← Array.length_toList, hperm.length_eq, List.length_range]
  have hrows : run.rows = s.offsets.toList := by
    refine List.ext_getElem (by simp [rows, hlength]) fun i h₁ h₂ => ?_
    have hi : i < s.offsets.size := by simpa using h₂
    simp [rows, rowAt, hs, RowSelection.row, Array.getD_eq_getD_getElem?, hi]
  have hin : ∀ i < run.length, run.rowAt i < run.length := fun i hi => by
    have hmem : run.rowAt i ∈ run.rows := List.mem_map_of_mem (List.mem_range.mpr hi)
    exact List.mem_range.mp (hperm.mem_iff.mp (hrows ▸ hmem))
  have htable : order.sortedTable run.chunk.batch = (List.range run.length).map run.rowOf := by
    rw [RowOrder.sortedTable, sortRows_congr (RowOrder.encode_rows hkeys).symm]
    show (sortRows order run.keys (List.range run.length)).map run.chunk.batch.row = _
    rw [← hoffsets, ← hrows, rows, List.map_map]
    rfl
  exact ⟨rfl, hkeys, hpos, hsmall, ⟨s, hs, hperm⟩, hschema, hin,
    fun i hi => order.size_encode hkeys ▸ hin i hi, fun i hi => hkey _ (hin i hi), htable,
    order.inOrder_sortedTable hschema⟩

/-- Sorting a slice through a selection that covers it. -/
theorem SortedRun.sort_spec {chunk : Chunk} {selection : RowSelection}
    (hoffsets : selection.offsets = RowSelection.identityOffsets chunk.length)
    (hpos : 0 < chunk.length) (hsmall : chunk.length ≤ maxSelectionRows)
    (ho : Owns E w (selection.held + (chunk.held + S))) (tracker : TrackerId) :
    Gives (SortedRun.sort order chunk selection tracker)
      (fun run w => run.Sorts order chunk.batch ∧ Owns E w (run.held + S))
      (fun _ w => Owns E w (selection.held + (chunk.held + S))) w := by
  unfold SortedRun.sort
  split
  · simpa only [Gives.bind_iff, Gives.throw_iff] using ho
  simp only [Gives.bind_iff, Gives.except_iff, ofKeys, Gives.lift_iff, Ensures.bind_iff,
    Ensures.pure_iff]
  split
  · next keys hk =>
    have hk' : order.encode chunk.batch = .ok keys := by
      unfold Except.mapError at hk
      split at hk
      · cases hk
      · next ho => exact ho.trans (congrArg _ (Except.ok.inj hk))
    refine (ho.charge tracker _).mono fun c w ho => ⟨?_, ho.cast ?_⟩
    · refine sorts_of_encode (s := { selection with offsets := _ }) hk' hpos hsmall rfl ?_
      rw [hoffsets, RowSelection.identityOffsets_eq hsmall]
      rfl
    · simp only [held_eq, orderCharges, RowSelection.held, Option.bind_some, Resources.charges_cons,
        ← Multiset.singleton_add]
      abel
  · exact ho

/-! ## The groups of an operator -/

namespace Operator

/-- An operator without its groups. -/
def bare (op : Operator) : Operator :=
  { op with
    resident := #[], spilled := #[]
    monitor := { maxAllocation := 0, threshold := 0, groupSize := 0 } }

/-- The groups own the resources. -/
def KeepsGroups (op : Operator) (R : Resources) : Prop :=
  ∃ S T, Shared SortedGroup.Keeps op.resident.toList S ∧
    Shared SortedGroup.Keeps op.spilled.toList T ∧ R = S + T

/-- A group on disk has the rows of its slices, merged stably. -/
structure OldPart (order : RowOrder) (p : SortedGroup × List Batch) (S : Resources) : Prop where
  part : SortedGroup.Part order (p.1, (p.2.flatMap order.sortedTable).mergeSort order.rowLe) S
  spilled : ∃ head file, p.1 = .spilled (some head) file
  nonempty : p.2.flatMap order.sortedTable ≠ []

/-- A group in memory is one slice. -/
structure NewPart (order : RowOrder) (p : SortedGroup × Batch) (S : Resources) : Prop where
  sorted : ∃ run, p.1 = .resident run ∧ run.Sorts order p.2 ∧ S = run.held

/-- The groups have the slices staged so far, the older ones on disk. -/
structure Stages (order : RowOrder) (op : Operator) (staged : List Batch) (R : Resources) :
    Prop where
  groups : ∃ (old : List (SortedGroup × List Batch)) (new : List (SortedGroup × Batch)) (S T : _),
    op.spilled.toList = old.map Prod.fst ∧ op.resident.toList = new.map Prod.fst ∧
      staged = old.flatMap Prod.snd ++ new.map Prod.snd ∧ Shared (NewPart order) new S ∧
      Shared (OldPart order) old T ∧ R = S + T
  totalRows : op.monitor.totalRows = min maxCount (total (staged.map Batch.rows))

variable {op : Operator} {staged : List Batch}

theorem NewPart.part {p : SortedGroup × Batch} (h : NewPart order p S) :
    SortedGroup.Part order (p.1, order.sortedTable p.2) S := by
  obtain ⟨run, hg, hs, rfl⟩ := h.sorted
  rw [hg]
  refine ⟨⟨hs.reads.sorted, _, [], ?_, hs.reads, rfl, rfl⟩, hs.reads.length_eq.symm⟩
  rw [List.flatMap_nil, List.append_nil]

/-- A slice in memory has rows. -/
theorem NewPart.sortedTable_ne_nil {p : SortedGroup × Batch} (h : NewPart order p S) :
    order.sortedTable p.2 ≠ [] := by
  obtain ⟨run, -, hs, -⟩ := h.sorted
  intro hnil
  have hlen := order.length_sortedTable p.2
  rw [hnil] at hlen
  exact absurd hlen.symm (Nat.ne_of_gt hs.nonempty)

theorem NewPart.not_spilled {p : SortedGroup × Batch} (h : NewPart order p S) :
    p.1.spilled? = none := by
  obtain ⟨run, hg, -⟩ := h.sorted
  rw [hg]
  rfl

theorem Stages.keeps (h : op.Stages order staged R) : op.KeepsGroups R := by
  obtain ⟨old, new, S, T, hold, hnew, -, hS, hT, rfl⟩ := h.groups
  refine ⟨S, T, ?_, ?_, rfl⟩
  · rw [hnew]
    exact hS.map fun _ _ _ hp => hp.part.holds.keeps
  · rw [hold]
    exact hT.map fun _ _ _ hp => hp.part.holds.keeps

theorem Stages.congr {op' : Operator} (h : op.Stages order staged R)
    (hr : op'.resident = op.resident) (hs : op'.spilled = op.spilled)
    (ht : op'.monitor.totalRows = op.monitor.totalRows) : op'.Stages order staged R :=
  ⟨by rw [hr, hs]; exact h.groups, ht.trans h.totalRows⟩

/-- As long as no rows were counted there are no groups. -/
theorem Stages.eq_nil (h : op.Stages order staged R) (h0 : op.monitor.totalRows = 0) :
    op.resident = #[] ∧ op.spilled = #[] ∧ staged = [] ∧ R = 0 := by
  obtain ⟨old, new, U, V, hold, hnew, hstaged, hU, hV, rfl⟩ := h.groups
  have htotal := h.totalRows
  rw [h0, maxCount] at htotal
  have hzero : ∀ b ∈ staged, order.sortedTable b = [] := by
    intro b hb
    have hle := total_le_of_mem (List.mem_map_of_mem (f := Batch.rows) hb)
    apply List.eq_nil_of_length_eq_zero
    rw [order.length_sortedTable]
    omega
  have hnone : old = [] := by
    rw [List.eq_nil_iff_forall_not_mem]
    intro p hp
    obtain ⟨_, _, -, hpart⟩ := hV.exists_part hp
    refine hpart.nonempty (List.flatMap_eq_nil_iff.mpr fun b hb => hzero b ?_)
    rw [hstaged]
    exact List.mem_append_left _ (List.mem_flatMap_of_mem hp hb)
  have hnone' : new = [] := by
    rw [List.eq_nil_iff_forall_not_mem]
    intro p hp
    obtain ⟨_, _, -, hpart⟩ := hU.exists_part hp
    refine hpart.sortedTable_ne_nil (hzero p.2 ?_)
    rw [hstaged]
    exact List.mem_append_right _ (List.mem_map_of_mem hp)
  subst hnone hnone'
  cases hU
  cases hV
  exact ⟨by simpa using hnew, by simpa using hold, hstaged, rfl⟩

/-! ## Spilling -/

theorem spillCandidates_eq {groups : Array SortedGroup} (h : ∀ g ∈ groups, g.spilled? = none) :
    (spillCandidates groups).1 = groups.toList.take (groups.size / 2) ∧
      (spillCandidates groups).2.toList = groups.toList.drop (groups.size / 2) := by
  have hchosen : (spillCandidates groups).1 = groups.toList.take (groups.size / 2) := by
    simp only [spillCandidates, Array.toList_extract, List.extract_eq_take_drop, List.drop_zero,
      Nat.sub_zero]
    refine List.takeWhile_eq_self_iff.mpr fun g hg => ?_
    have hg' : g ∈ groups := Array.mem_toList_iff.mp (List.mem_of_mem_take hg)
    simp [SortedGroup.isSpilled, h g hg']
  refine ⟨hchosen, ?_⟩
  have hrest : (spillCandidates groups).2 =
      groups.extract (spillCandidates groups).1.length groups.size := rfl
  have hlen : (groups.toList.take (groups.size / 2)).length = groups.size / 2 := by
    rw [List.length_take, Array.length_toList]
    omega
  rw [hrest, hchosen, hlen, Array.toList_extract, List.extract_eq_take_drop, ← Array.length_toList]
  exact List.take_of_length_le (by rw [List.length_drop])

/-- What comes of a step that may change the groups: either they have all slices that were staged, or
what is left of them. -/
def Kept (E : Surroundings) (order : RowOrder) (S : Resources) (op : Operator)
    (staged : List Batch) (s : Operator × Workspace) : Prop :=
  ∃ R', s.1.bare = op.bare ∧ s.1.Stages order staged R' ∧ Owns E s.2 (R' + S)

def Lost (E : Surroundings) (S : Resources) (op : Operator) (s : Operator × Workspace) : Prop :=
  ∃ R', s.1.bare = op.bare ∧ s.1.KeepsGroups R' ∧ Owns E s.2 (R' + S)

/-- The slices in memory are split into those chosen for a spill and those that stay. -/
theorem Stages.halves (h : op.Stages order staged R) :
    ∃ (old : List (SortedGroup × List Batch)) (chosen kept : List (SortedGroup × Batch))
      (U₁ U₂ V : Resources), op.spilled.toList = old.map Prod.fst ∧
      (spillCandidates op.resident).1 = chosen.map Prod.fst ∧
      op.withoutChosen.resident.toList = kept.map Prod.fst ∧
      staged = old.flatMap Prod.snd ++ (chosen.map Prod.snd ++ kept.map Prod.snd) ∧
      Shared (NewPart order) chosen U₁ ∧ Shared (NewPart order) kept U₂ ∧
      Shared (OldPart order) old V ∧ R = U₁ + U₂ + V := by
  obtain ⟨old, new, U, V, hold, hnew, hstaged, hU, hV, rfl⟩ := h.groups
  have hmem : ∀ g ∈ op.resident, g.spilled? = none := by
    intro g hg
    rw [← Array.mem_toList_iff, hnew] at hg
    obtain ⟨p, hp, rfl⟩ := List.mem_map.mp hg
    obtain ⟨_, _, -, hpart⟩ := hU.exists_part hp
    exact hpart.not_spilled
  obtain ⟨hchosen, hrest⟩ := spillCandidates_eq hmem
  rw [hnew] at hchosen hrest
  generalize op.resident.size / 2 = half at hchosen hrest
  rw [← List.map_take] at hchosen
  rw [← List.map_drop] at hrest
  rw [← List.take_append_drop half new] at hU
  obtain ⟨U₁, U₂, rfl, hU₁, hU₂⟩ := hU.of_append
  refine ⟨old, new.take half, new.drop half, U₁, U₂, V, hold, hchosen, hrest, ?_, hU₁, hU₂, hV, rfl⟩
  rw [hstaged, ← List.map_append, List.take_append_drop]

/-- Merging slices that all have rows makes a group on disk of them. -/
theorem mergeAndSpill_chosen {chosen : List (SortedGroup × Batch)} {U : Resources}
    (hU : Shared (NewPart order) chosen U) (hne : chosen ≠ []) (hw : Owns E w (U + S))
    (tracker : TrackerId) (chunkRows : Nat) :
    Gives (mergeAndSpill order tracker chunkRows (chosen.map Prod.fst))
      (fun made? w => ∃ made R', made? = some made ∧
        OldPart order (made.group, chosen.map Prod.snd) R' ∧ Owns E w (R' + S))
      (fun _ w => Owns E w S) w := by
  have hparts : Shared (SortedGroup.Part order)
      (chosen.map fun p => (p.1, order.sortedTable p.2)) U := hU.map fun _ _ _ hp => hp.part
  have hfst : (chosen.map fun p => (p.1, order.sortedTable p.2)).map Prod.fst =
      chosen.map Prod.fst := by
    rw [List.map_map]
    rfl
  have hflat : (chosen.map fun p => (p.1, order.sortedTable p.2)).flatMap Prod.snd =
      (chosen.map Prod.snd).flatMap order.sortedTable := by
    rw [List.flatMap_map, List.flatMap_map]
  have hrows : (chosen.map Prod.snd).flatMap order.sortedTable ≠ [] := by
    intro hnil
    obtain ⟨p, hp⟩ := List.exists_mem_of_ne_nil chosen hne
    obtain ⟨_, _, -, hpart⟩ := hU.exists_part hp
    exact hpart.sortedTable_ne_nil (List.flatMap_eq_nil_iff.mp hnil p.2 (List.mem_map_of_mem hp))
  rw [← hfst]
  refine (mergeAndSpill_spec hparts hw tracker chunkRows).mono (fun made? w hmade => ?_)
    fun _ _ hw => hw
  rw [hflat] at hmade
  cases made? with
  | none => exact absurd hmade.1 hrows
  | some made =>
    obtain ⟨R', hpart, hgroup, hw⟩ := hmade
    exact ⟨made, R', rfl, ⟨hpart, hgroup, hrows⟩, hw⟩

/-- Spilling merges the older half of the slices in memory and keeps all others as they are. -/
theorem spill_spec (ho : op.order? = some order) (h : op.Stages order staged R)
    (hw : Owns E w (R + S)) (reason : SpillReason) :
    Gives (spill reason) (fun _ => Kept E order S op staged) (fun _ => Lost E S op) (op, w) := by
  obtain ⟨old, chosen, kept, U₁, U₂, V, hold, hchosen, hkept, hstaged, hU₁, hU₂, hV, rfl⟩ := h.halves
  refine gives_spill (fun hnone => absurd (ho.symm.trans hnone) nofun)
    (fun _ journal _ hempty => ?_) fun order' journal ho' hne => ?_
  · obtain rfl : chosen = [] := by simpa [hchosen] using hempty
    exact ⟨_, rfl, ⟨⟨old, kept, _, V, hold, hkept, hstaged, hU₁.append hU₂, hV, rfl⟩, h.totalRows⟩, hw⟩
  · obtain rfl : order = order' := Option.some.inj (ho.symm.trans ho')
    have hne : chosen ≠ [] := by simpa [hchosen] using hne
    have hw : Owns E { w with journal } (U₁ + (U₂ + V + S)) := hw.cast (by abel)
    rw [hchosen]
    refine (mergeAndSpill_chosen hU₁ hne hw _ _).mono (fun made? w hmade => ?_) fun _ w hw => ?_
    · obtain ⟨made, R', rfl, hpart, hw⟩ := hmade
      refine ⟨U₂ + (V + R'), rfl, ⟨⟨old ++ [(made.group, chosen.map Prod.snd)], kept, U₂, V + R', ?_,
        hkept, ?_, hU₂, hV.append ?_, rfl⟩, h.totalRows⟩, hw.cast (by abel)⟩
      · show (op.spilled.push made.group).toList = _
        rw [Array.toList_push, hold, List.map_append]
        rfl
      · rw [hstaged, List.flatMap_append, List.flatMap_singleton, List.append_assoc]
      · rw [← add_zero R']
        exact .cons hpart .nil
    · refine ⟨_, rfl, ⟨U₂, V, ?_, ?_, rfl⟩, hw⟩
      · show Shared SortedGroup.Keeps op.withoutChosen.resident.toList U₂
        rw [hkept]
        exact hU₂.map fun _ _ _ hp => hp.part.holds.keeps
      · show Shared SortedGroup.Keeps op.spilled.toList V
        rw [hold]
        exact hV.map fun _ _ _ hp => hp.part.holds.keeps

/-! ## Keeping slices -/

theorem trySelection_spec (hw : Owns E w S) (rows : Nat) :
    Ensures (trySelection rows) (fun r s => ∀ v, r = .ok v → s.1 = op ∧
      v.offsets = RowSelection.identityOffsets rows ∧ Owns E s.2 (v.held + S)) (op, w) := by
  unfold trySelection
  simp only [Ensures.bind_iff, Ensures.get_layer_iff, Ensures.lift_layer_iff]
  refine (hw.allocateRows rows op.tracker).mono fun r _ h v hv => ⟨trivial, ?_⟩
  subst hv
  exact h

theorem allocateSelection_spec (ho : op.order? = some order) (h : op.Stages order staged R)
    (hw : Owns E w (R + S)) (rows : Nat) :
    Gives (allocateSelection rows)
      (fun v s => v.offsets = RowSelection.identityOffsets rows ∧
        Kept E order (v.held + S) op staged s)
      (fun _ => Lost E S op) (op, w) := by
  refine (gives_allocateSelection (Q := Kept E order S op staged) ⟨R, rfl, h, hw⟩
    fun journal => spill_spec ho h (hw.journal journal) _).mono (fun v t ht => ?_) fun _ t ht => ?_
  · obtain ⟨u, ⟨R', hb, hst, hw⟩, hgranted⟩ := ht
    obtain ⟨hop, hv, hw⟩ := hgranted.holds fun journal =>
      trySelection_spec (hw.journal journal) rows
    exact ⟨hv, R', hop ▸ hb, hop ▸ hst, hw.cast (by abel)⟩
  · rcases ht with ht | ⟨u, ⟨R', hb, hst, hw⟩, _, _, -, rfl, -⟩
    · exact ht
    · exact ⟨R', hb, hst.keeps, hw⟩

/-- Counting what is kept takes nothing away. -/
theorem countKept_spec (hw : Owns E w R) (op : Operator) (run : SortedRun) :
    Ensures (countKept op run) (fun _ w => Owns E w R) w :=
  hw

/-- A slice that is kept comes last among those that were staged. -/
theorem keepSlice_spec (ho : op.order? = some order) (h : op.Stages order staged R) {chunk : Chunk}
    (hpos : 0 < chunk.length) (hsmall : chunk.length ≤ maxSelectionRows)
    (hw : Owns E w (R + (chunk.held + S))) :
    Gives (keepSlice order chunk) (fun _ => Kept E order S op (staged ++ [chunk.batch]))
      (fun _ => Lost E S op) (op, w) := by
  refine gives_keepSlice (allocateSelection_spec ho h hw chunk.length) (fun v s hs => ?_)
    fun _ s hs => ?_
  · obtain ⟨hv, R', hb, hst, hw⟩ := hs
    have hw' : Owns E s.2 (v.held + (chunk.held + (R' + S))) := hw.cast (by abel)
    refine (SortedRun.sort_spec hv hpos hsmall hw' s.1.tracker).mono (fun run w hs => ?_)
      fun _ w hw => ?_
    · obtain ⟨hrun, hw⟩ := hs
      refine (countKept_spec hw s.1 run).mono fun _ w hw => ?_
      obtain ⟨old, new, U, V, hold, hnew, hstaged, hU, hV, rfl⟩ := hst.groups
      refine ⟨U + run.held + V, hb, ⟨⟨old, new ++ [(.resident run, chunk.batch)], U + run.held, V, hold,
        ?_, ?_, hU.append ?_, hV, rfl⟩, ?_⟩, hw.cast (by abel)⟩
      · show (s.1.resident.push (.resident run)).toList = _
        rw [Array.toList_push, hnew, List.map_append]
        rfl
      · rw [hstaged, List.map_append, List.append_assoc]
        rfl
      · rw [← add_zero run.held]
        exact .cons ⟨run, rfl, hrun, rfl⟩ .nil
      · have hlen : run.length = chunk.batch.rows := by
          rw [SortedRun.length, Chunk.length, hrun.batch]
        show min maxCount (s.1.monitor.totalRows + run.length) = _
        rw [hst.totalRows, List.map_append, total_append, hlen]
        simp only [List.map_cons, List.map_nil, total_cons, total_nil]
        omega
    · exact hw.dropAll.mono fun _ w hw => hw.dropChunk.mono fun _ w hw => ⟨R', hb, hst.keeps, hw⟩
  · obtain ⟨R', hb, hk, hw⟩ := hs
    have hw' : Owns E s.2 (chunk.held + (R' + S)) := hw.cast (by abel)
    exact hw'.dropChunk.mono fun _ w hw => ⟨R', hb, hk, hw⟩

theorem relieve_spec (ho : op.order? = some order) (h : op.Stages order staged R)
    (hw : Owns E w (R + S)) :
    Gives relieve (fun _ => Kept E order S op staged) (fun _ => Lost E S op) (op, w) :=
  gives_relieve (fun _ => spill_spec ho h hw _) ⟨R, rfl, h, hw⟩

theorem stageSlice_spec (ho : op.order? = some order) (h : op.Stages order staged R) {chunk : Chunk}
    (hpos : 0 < chunk.length) (hsmall : chunk.length ≤ maxSelectionRows)
    (hw : Owns E w (R + (chunk.held + S))) :
    Gives (stageSlice order chunk) (fun _ => Kept E order S op (staged ++ [chunk.batch]))
      (fun _ => Lost E S op) (op, w) := by
  unfold stageSlice
  rw [Gives.bind_iff]
  refine (keepSlice_spec ho h hpos hsmall hw).mono (fun _ s hs => ?_) fun _ _ hs => hs
  obtain ⟨R', hb, hst, hw⟩ := hs
  have ho' : s.1.order? = some order := (congrArg Operator.order? hb).trans ho
  refine (relieve_spec ho' hst hw).mono (fun _ t ht => ?_) fun _ t ht => ?_
  · obtain ⟨R'', hb', ht⟩ := ht
    exact ⟨R'', hb'.trans hb, ht⟩
  · obtain ⟨R'', hb', ht⟩ := ht
    exact ⟨R'', hb'.trans hb, ht⟩

/-- The slices of a chunk are staged in order. -/
theorem stageSlices_spec {chunk : Chunk} : ∀ {slices : List (Nat × Nat)} {op : Operator}
    {staged : List Batch} {R : Resources} {w : Workspace}, op.order? = some order →
    op.Stages order staged R → (∀ s ∈ slices, 0 < s.2 ∧ s.2 ≤ maxSelectionRows) →
    Owns E w (R + (chunk.held + S)) →
    Gives (stageSlices order chunk slices)
      (fun _ => Kept E order (chunk.held + S) op
        (staged ++ slices.map fun s => chunk.batch.slice s.1 s.2))
      (fun _ => Lost E (chunk.held + S) op) (op, w)
  | [], op, staged, R, w, ho, h, hs, hw => by
    unfold stageSlices
    refine Gives.pure_iff.mpr ⟨R, rfl, ?_, hw⟩
    rwa [List.map_nil, List.append_nil]
  | (offset, length) :: slices, op, staged, R, w, ho, h, hs, hw => by
    obtain ⟨⟨hpos, hsmall⟩, hs⟩ := List.forall_mem_cons.mp hs
    unfold stageSlices
    simp only [Gives.bind_iff, Gives.lift_layer_iff]
    have hw' : Owns E w (chunk.held + (R + S)) := hw.cast (by abel)
    refine (hw'.slice offset length).mono fun slice w hw => ?_
    obtain ⟨hbatch, hw⟩ := hw
    have hlen : slice.length = length := by rw [Chunk.length, hbatch]; rfl
    have hw' : Owns E w (R + (slice.held + (chunk.held + S))) := hw.cast (by abel)
    refine (stageSlice_spec ho h (hlen ▸ hpos) (hlen ▸ hsmall) hw').mono (fun _ s ht => ?_)
      fun _ _ ht => ht
    obtain ⟨R', hb, hst, hw⟩ := ht
    have ho' : s.1.order? = some order := (congrArg Operator.order? hb).trans ho
    refine (stageSlices_spec ho' hst hs hw).mono (fun _ t ht => ?_) fun _ t ht => ?_
    · obtain ⟨R'', hb', hst', hw⟩ := ht
      rw [hbatch, List.append_assoc, List.singleton_append] at hst'
      exact ⟨R'', hb'.trans hb, hst', hw⟩
    · obtain ⟨R'', hb', ht⟩ := ht
      exact ⟨R'', hb'.trans hb, ht⟩

end Operator

end SpillSort
