import SpillSort.Proofs.Ends

/-!
# Serving

Once its input has ended an operator merges what it staged and hands out the rows in key order, from
memory or out of streams.

* `Operator.finalize_spec` turns the slices staged into the rows to serve.
* `Operator.output_spec` hands out the next of them.
-/

namespace SpillSort

open Memory Spill

variable {E : Surroundings} {w : Workspace} {R S U : Resources} {script : List Pull}
  {order : RowOrder} {left : List Row}

/-- The rows of some slices, sorted: each slice in itself, and all of them stably. -/
def RowOrder.sortedTables (order : RowOrder) (slices : List Batch) : List Row :=
  (slices.flatMap order.sortedTable).mergeSort order.rowLe

theorem RowOrder.length_sortedTables (order : RowOrder) (slices : List Batch) :
    (order.sortedTables slices).length = total (slices.map Batch.rows) := by
  rw [sortedTables, List.length_mergeSort]
  induction slices with
  | nil => rfl
  | cons b bs ih =>
    rw [List.flatMap_cons, List.length_append, ih, order.length_sortedTable, List.map_cons, total_cons]

/-- A final merge with the rows it has left to serve. -/
inductive Stage.Serves (order : RowOrder) : Stage → List Row → Resources → Prop where
  | memory {m : MemoryMerge} {left : List Row} :
    m.Holds order left → Serves order (.finalMemory m) left {.lease m.lease}
  | merge {m : Merger} {xs : List Source} {U : Resources} (rows : Nat) :
    m.Holds order xs (fun _ => False) U →
    Serves order (.finalMerge m rows) (Source.merged order xs) U

theorem Stage.Serves.keeps {stage : Stage} (h : stage.Serves order left U) : stage.Keeps U := by
  cases h with
  | memory => exact rfl
  | merge _ hm => exact hm.keeps

namespace Operator

variable {op op' : Operator} {s : Operator × Workspace} {staged : List Batch}

/-! ## From groups to rows -/

/-- The groups of an operator with the rows of each. -/
theorem Stages.parts (h : op.Stages order staged R) :
    ∃ ps : List (SortedGroup × List Row), op.spilled.toList ++ op.resident.toList = ps.map Prod.fst ∧
      (ps.flatMap Prod.snd).mergeSort order.rowLe = order.sortedTables staged ∧
      Shared (SortedGroup.Part order) ps R ∧
      (op.spilled.isEmpty → ∀ p ∈ ps, p.2.length ≤ maxSelectionRows) := by
  obtain ⟨old, new, U, V, hold, hnew, hstaged, hU, hV, rfl⟩ := h.groups
  refine ⟨old.map (fun p => (p.1, order.sortedTables p.2)) ++
    new.map fun p => (p.1, order.sortedTable p.2), ?_, ?_, ?_, ?_⟩
  · rw [hold, hnew, List.map_append, List.map_map, List.map_map]
    rfl
  · have hflat : (old.map fun p => (p.1, order.sortedTables p.2)).flatMap Prod.snd =
        ((old.map fun p => p.2.flatMap order.sortedTable).map
          fun rows => rows.mergeSort order.rowLe).flatten := by
      rw [List.flatMap_map, List.map_map, List.flatMap_def]
      rfl
    have hsingles : (new.map fun p => (p.1, order.sortedTable p.2)).flatMap Prod.snd =
        (new.map Prod.snd).flatMap order.sortedTable := by
      rw [List.flatMap_map, List.flatMap_map]
    have holdest : (old.map fun p => p.2.flatMap order.sortedTable).flatten =
        (old.flatMap Prod.snd).flatMap order.sortedTable := by
      rw [List.flatMap_assoc, List.flatMap_def]
    have hle := order.rowLe_preordering
    rw [RowOrder.sortedTables, hstaged, List.flatMap_append, List.flatMap_append, hflat, hsingles,
      ← holdest, ← hle.mergeSort_mergeSort_append, hle.mergeSort_flatten_map,
      hle.mergeSort_mergeSort_append]
  · rw [add_comm]
    exact (hV.map fun _ _ _ hp => hp.part).append (hU.map fun _ _ _ hp => hp.part)
  · intro hempty p hp
    have hnone : old = [] := by
      rw [Array.isEmpty_iff.mp hempty] at hold
      simpa using hold.symm
    rw [hnone, List.map_nil, List.nil_append] at hp
    obtain ⟨q, hq, rfl⟩ := List.mem_map.mp hp
    obtain ⟨_, _, -, hpart⟩ := hU.exists_part hq
    obtain ⟨run, -, hs, -⟩ := hpart.sorted
    rw [order.length_sortedTable]
    exact hs.small

/-- Without rows there are no groups. -/
theorem Has.eq_nil (h : op.Has staged R) (h0 : op.rowsProcessed = 0) :
    op.resident = #[] ∧ op.spilled = #[] ∧ staged = [] ∧ R = 0 := by
  unfold Has at h
  split at h
  · exact h.eq_nil h0
  · obtain ⟨hr, hs, -, rfl, rfl⟩ := h
    exact ⟨hr, hs, rfl, rfl⟩

/-- An operator without groups, in some stage. -/
def servingAt (op : Operator) (stage : Stage) : Operator :=
  { op with resident := #[], spilled := #[], stage }

/-- What comes of the slices staged when the input has ended. -/
def Finalized (E : Surroundings) (S : Resources) (op : Operator) (staged : List Batch)
    (s : Operator × Workspace) : Prop :=
  ∃ stage, s.1 = op.servingAt stage ∧
    (staged = [] ∧ stage = .done ∧ Owns E s.2 S ∨
      ∃ order U, op.order? = some order ∧ stage.Serves order (order.sortedTables staged) U ∧
        Owns E s.2 (U + S))

theorem mergeStreams_spec {ps : List (SortedGroup × List Row)}
    (hparts : Shared (SortedGroup.Part order) ps R)
    (hsorted : (ps.flatMap Prod.snd).mergeSort order.rowLe = order.sortedTables staged)
    (ho : op.order? = some order) (hw : Owns E w (R + S)) :
    Gives (mergeStreams order (ps.map Prod.fst)) (fun _ => Finalized E S op staged)
      (fun _ s => s.1 = op.servingAt .ingesting ∧ Owns E s.2 S) (op.servingAt .ingesting, w) := by
  have hholds : Shared (fun (p : SortedGroup × List Row) S => p.1.Holds order p.2 S) ps R :=
    hparts.mono fun _ _ _ hp => hp.holds
  refine gives_mergeStreams fun journal => (Merger.ofGroups_spec hholds op.tracker
    (hw.journal journal)).mono (fun m w hs => ?_) fun _ w hw => ⟨rfl, hw⟩
  obtain ⟨xs, U, hrows, hm, -, hw⟩ := hs
  have hmerged : Source.merged order xs = order.sortedTables staged := by
    rw [Source.merged, List.flatMap_def, hrows, ← List.flatMap_def, hsorted]
  refine (enter_ended rfl hw _).mono fun _ s hs => ?_
  exact ⟨_, hs.1, .inr ⟨order, U, ho, hmerged ▸ .merge _ hm, hs.2⟩⟩

theorem finalize_spec (h : op.Has staged R) (hstage : op.stage = .ingesting)
    (hw : Owns E w (R + S)) :
    Gives finalize (fun _ => Finalized E S op staged)
      (fun _ s => s.1 = op.servingAt .ingesting ∧ Owns E s.2 S) (op, w) := by
  have hat : ({ op with resident := #[], spilled := #[] } : Operator) = op.servingAt .ingesting := by
    rw [servingAt, hstage]
  refine gives_finalize (fun hzero => ?_) (fun hrows ho => ?_) (fun order _ ho hempty => ?_)
    fun order _ ho _ => ?_
  · obtain ⟨hr, hs, rfl, rfl⟩ := h.eq_nil hzero
    refine (enter_ended (by rw [hstage]; rfl) (hw.cast (zero_add S)) .done).mono fun _ s ht => ?_
    have hat : { op with stage := .done } = op.servingAt .done := by
      simp only [servingAt, hr, hs]
    exact ⟨.done, ht.1.trans hat, .inl ⟨rfl, rfl, ht.2⟩⟩
  · rw [Has, ho] at h
    exact absurd h.2.2.1 hrows
  · obtain ⟨ps, hgroups, hsorted, hparts, hsmall⟩ := (h.stages ho).parts
    dsimp only
    rw [hat, hgroups]
    refine (MemoryMerge.build_spec hparts (hsmall (Array.isEmpty_iff.mpr hempty)) hw op.tracker _).mono
      (fun r w hs journal => ?_) fun _ w hw => ⟨rfl, hw⟩
    cases r with
    | refused reason => exact mergeStreams_spec hparts hsorted ho (hs.journal journal)
    | merged m =>
      obtain ⟨hm, hw⟩ := hs
      refine (enter_ended rfl (hw.journal journal) _).mono fun _ s hs => ?_
      exact ⟨_, hs.1, .inr ⟨order, {.lease m.lease}, ho, hsorted ▸ .memory hm, hs.2⟩⟩
  · obtain ⟨ps, hgroups, hsorted, hparts, -⟩ := (h.stages ho).parts
    dsimp only
    rw [hat, hgroups]
    exact mergeStreams_spec hparts hsorted ho hw

end Operator

/-! ## Outputs -/

namespace Output

/-- What an output holds. -/
def held : Output → Resources
  | rows _ => 0
  | window v => {.lease v.lease}

/-- The output has these rows. -/
def Holds (order : RowOrder) (o : Output) (rows : List Row) : Prop :=
  match o with
  | .rows b => b.schema = order.schema ∧ b.table = rows
  | .window v => v.Holds order rows

theorem Holds.length_eq {o : Output} {rows : List Row} (h : o.Holds order rows) :
    o.length = rows.length := by
  cases o with
  | rows b => rw [length, ← h.2, Batch.length_table]
  | window v => rw [length, h.entries, List.length_map, Array.length_toList]

theorem drop_spec {o : Output} (hw : Owns E w (o.held + S)) :
    Ensures o.drop (fun _ w => Owns E w S) w := by
  cases o with
  | rows b => exact Ensures.pure_iff.mpr (hw.cast (zero_add S))
  | window v => exact Window.drop_spec hw

/-- An output with rows can be read if there are columns. -/
theorem toBatch_spec {o : Output} {rows : List Row} (h : o.Holds order rows)
    (hcolumns : order.schema.fields ≠ []) (hne : rows ≠ []) :
    ∃ b, o.toBatch = .ok b ∧ b.schema = order.schema ∧ b.table = rows := by
  cases o with
  | rows b => exact ⟨b, rfl, h⟩
  | window v => exact Window.gather_spec h hcolumns hne

end Output

namespace Operator

/-- What comes of asking for the next output, if `left` are the rows to serve. -/
def Served (E : Surroundings) (order : RowOrder) (S : Resources) (op : Operator) (left : List Row)
    (o? : Option Output) (s : Operator × Workspace) : Prop :=
  ∃ stage, s.1 = { op with stage } ∧
    match o? with
    | none => left = [] ∧ ∃ U, stage.Keeps U ∧ Owns E s.2 (U + S)
    | some o => ∃ front rest U, left = front ++ rest ∧ front ≠ [] ∧ o.Holds order front ∧
        stage.Serves order rest U ∧ Owns E s.2 (o.held + (U + S))

theorem output_spec {op : Operator} (h : op.stage.Serves order left U) (hw : Owns E w (U + S)) :
    Gives output (Served E order S op left)
      (fun _ s => ∃ stage U, s.1 = { op with stage } ∧ stage.Keeps U ∧ Owns E s.2 (U + S))
      (op, w) := by
  refine gives_output (fun m hs => ?_) (fun m rows hs => ?_) (fun hs => ?_) fun hs => ?_
  · rw [hs] at h
    obtain ⟨hm⟩ := h
    refine (MemoryMerge.nextWindow_spec hm hw _).mono fun r w hs => ⟨_, rfl, ?_⟩
    obtain ⟨v?, m'⟩ := r
    obtain ⟨hlease, hs⟩ := hs
    cases v? with
    | none =>
      obtain ⟨hnil, rfl, hw⟩ := hs
      exact ⟨hnil, _, rfl, hw⟩
    | some v =>
      obtain ⟨-, hsize, front, rest, hleft, hfront, hrest, hw⟩ := hs
      refine ⟨front, rest, _, hleft, ?_, hfront, .memory hrest, ?_⟩
      · rintro rfl
        have hlen := congrArg List.length hfront.entries
        rw [List.length_map, Array.length_toList] at hlen
        exact hsize hlen.symm
      · rw [← hlease] at hw
        exact hw
  · rw [hs] at h
    obtain ⟨⟩ | ⟨_, hm⟩ := h
    refine (Merger.nextChunk_spec hm hw rows).mono (fun chunk? s hs => ?_) fun _ s hs => ?_
    · cases chunk? with
      | none =>
        obtain ⟨hnil, _, U, -, hm, -, hw⟩ := hs
        exact ⟨_, rfl, hnil, U, hm.keeps, hw⟩
      | some chunk =>
        obtain ⟨xs, U, hleft, hschema, hpos, -, hm, -, hw⟩ := hs
        refine hw.dropChunk.mono fun _ w hw => ⟨_, rfl, ?_⟩
        refine ⟨chunk.batch.table, Source.merged order xs, U, hleft, ?_, ⟨hschema, rfl⟩,
          .merge rows hm, hw.cast (zero_add _).symm⟩
        intro hnil
        rw [Chunk.length, ← Batch.length_table, hnil] at hpos
        exact absurd hpos (Nat.lt_irrefl 0)
    · obtain ⟨U, hk, hw⟩ := hs
      exact ⟨_, U, rfl, hk, hw⟩
  · rw [hs] at h
    cases h
  · rcases hs with hs | hs | hs
    all_goals
      rw [hs] at h
      cases h

end Operator

end SpillSort
