import SpillSort.Proofs.Comparisons
import SpillSort.Proofs.Sessions
import SpillSort.Proofs.StagingStates

/-!
# What comes out

A sort that is drained has handed out all rows of its input: each slice sorted by itself, and all of
them merged so that of equal keys the slice that arrived first comes first. Nothing else has a say in
it, neither the memory there was nor what was spilled.

Sorting a slice in place may change the order of rows with equal keys. It does not if the slice is
short (`RowOrder.sortedTable_of_few`), and if the rows themselves are equal it does not show
(`RowOrder.sortedTable_of_equal`); then the outputs are the stable sort of the input
(`Session.outputs_sorted`).
-/

namespace SpillSort

open Memory Spill

variable {script : List Pull} {order : RowOrder} {all : List Batch}

/-! ## Slices -/

namespace RowOrder

/-- Few rows are sorted stably. -/
theorem sortedTable_of_few (o : RowOrder) {b : Batch} (hs : b.schema = o.schema)
    (hb : b.rows ≤ InPlace.mostInserted) : o.sortedTable b = b.table.mergeSort o.rowLe := by
  rw [o.sortedTable_eq hs, arranged, InPlace.arrange_of_length_le _ (by simpa using hb), Batch.table]

/-- Rows that are equal when their keys are can be sorted in one way only. -/
theorem sortedTable_of_equal (o : RowOrder) {b : Batch} (hs : b.schema = o.schema)
    (hb : ∀ r ∈ b.table, ∀ r' ∈ b.table, ties o.rowLe r r' → r = r') :
    o.sortedTable b = b.table.mergeSort o.rowLe := by
  have hperm := o.sortedTable_perm b
  have hperm' := List.mergeSort_perm b.table o.rowLe
  refine List.Perm.eq_of_pairwise (fun r r' hr hr' hle hle' => ?_) (o.inOrder_sortedTable hs)
    (o.rowLe_preordering.inOrder_mergeSort _) (hperm.trans hperm'.symm)
  exact hb r (hperm.mem_iff.mp hr) r' (hperm'.mem_iff.mp hr') (by rw [ties, hle, hle']; rfl)

/-! ## All slices -/

theorem inOrder_sortedTables (o : RowOrder) (bs : List Batch) : InOrder o.rowLe (o.sortedTables bs) :=
  o.rowLe_preordering.inOrder_mergeSort _

theorem sortedTables_perm (o : RowOrder) (bs : List Batch) :
    (o.sortedTables bs).Perm (bs.flatMap Batch.table) := by
  refine (List.mergeSort_perm _ _).trans ?_
  induction bs with
  | nil => exact .refl _
  | cons b bs ih =>
    rw [List.flatMap_cons, List.flatMap_cons]
    exact (o.sortedTable_perm b).append ih

/-- If each slice is sorted stably, so are all of them. -/
theorem sortedTables_eq (o : RowOrder) {bs : List Batch}
    (h : ∀ b ∈ bs, o.sortedTable b = b.table.mergeSort o.rowLe) :
    o.sortedTables bs = (bs.flatMap Batch.table).mergeSort o.rowLe := by
  have hmap : bs.flatMap o.sortedTable =
      ((bs.map Batch.table).map fun rows => rows.mergeSort o.rowLe).flatten := by
    rw [List.flatMap_congr h, List.map_map, List.flatMap_def]
    rfl
  rw [sortedTables, hmap, o.rowLe_preordering.mergeSort_flatten_map, List.flatMap_def]

end RowOrder

/-- The slices of batches have all their rows, in order. -/
theorem tables_flatMap_slices (bs : List Batch) :
    (bs.flatMap Batch.slices).flatMap Batch.table = bs.flatMap Batch.table := by
  rw [List.flatMap_assoc]
  refine List.flatMap_congr fun b _ => ?_
  rw [Batch.slices, List.flatMap_map]
  exact b.tables_slices

theorem total_rows_slices (bs : List Batch) :
    total ((bs.flatMap Batch.slices).map Batch.rows) = (bs.flatMap Batch.table).length := by
  rw [← tables_flatMap_slices, List.length_flatMap]
  simp only [Batch.length_table]
  rfl

theorem exists_pull_of_mem_arriving {b : Batch} (h : b ∈ arriving script) :
    ∃ p ∈ script, p.batch? = some b := by
  induction script with
  | nil => cases h
  | cons p script ih =>
    rw [arriving_cons] at h
    rcases List.mem_append.mp h with hb | hb
    · exact ⟨p, List.mem_cons_self, by simpa using hb⟩
    · split at hb
      · obtain ⟨q, hq, hqb⟩ := ih hb
        exact ⟨q, List.mem_cons_of_mem _ hq, hqb⟩
      · cases hb

theorem schema_of_mem_slices {b s : Batch} (h : s ∈ b.slices) : s.schema = b.schema := by
  obtain ⟨_, -, rfl⟩ := List.mem_map.mp h
  rfl

/-! ## Outputs -/

/-- An order for the rows of a schema: it reads one of their columns at least. -/
structure RowOrder.Fits (order : RowOrder) (schema : Schema) : Prop where
  schema_eq : order.schema = schema
  columns : order.columns ≠ []

/-- There are fields where there are columns to read. -/
theorem RowOrder.Fits.fields {order : RowOrder} {schema : Schema} (h : order.Fits schema) :
    order.schema.fields ≠ [] := by
  obtain ⟨i, -⟩ := List.exists_mem_of_ne_nil _ h.columns
  exact List.ne_nil_of_length_pos (Nat.zero_lt_of_lt i.isLt)

/-- Keys that are resolved are an order for their schema. -/
theorem RowOrder.resolve_fits {schema : Schema} {keys : List SortKey} {order : RowOrder}
    (h : RowOrder.resolve schema keys = .ok order) : order.Fits schema := by
  obtain ⟨hkeys, columns, hreads, rfl⟩ := resolve_ok_iff.mp h
  refine ⟨rfl, fun hnil => hkeys ?_⟩
  have hlength := hreads.resolved.length_eq
  rw [show columns = [] from hnil] at hlength
  exact List.eq_nil_of_length_eq_zero hlength

theorem RowOrder.resolve_ok {schema : Schema} {keys : List SortKey} {order : RowOrder}
    (h : RowOrder.resolve schema keys = .ok order) :
    order.schema = schema ∧ order.schema.fields ≠ [] :=
  ⟨(resolve_fits h).schema_eq, (resolve_fits h).fields⟩

namespace Session

variable {name : String} {options : SortOptions} {pressure : Bool} {stem : String}
  {fragment : Fragment} {ledger : Ledger} {disk : Disk} {s : Operator × Workspace} {first : Operator}
  {schema : Schema} {rows : List Row}

/-- Outputs that were handed out can be read, one batch for each. -/
theorem Shown.mapM_toBatch {os : List Output} (h : Shown first script os rows)
    (hmade : ∀ o, first.MadeFor script o → o = order) (hfields : order.schema.fields ≠ []) :
    ∃ bs, os.mapM Output.toBatch = .ok bs ∧ bs.flatMap Batch.table = rows := by
  obtain ⟨fronts, rfl, hs⟩ := h
  induction hs with
  | nil => exact ⟨[], rfl, rfl⟩
  | cons ho _ ih =>
    obtain ⟨o, ho, hfront, hne⟩ := ho
    obtain rfl := hmade o ho
    obtain ⟨b, hb, -, htable⟩ := Output.toBatch_spec hfront hfields hne
    obtain ⟨bs, hbs, htables⟩ := ih
    refine ⟨b :: bs, ?_, ?_⟩
    · rw [List.mapM_cons, hb, hbs]
      rfl
    · rw [List.flatMap_cons, htable, htables, List.flatten_cons]

/-- **A drained sort has handed out its input in key order.** Whatever the options, the limits of
memory and the shortages, and whatever else is asked of the sort in between: if a pull answers that
the sort is done and none failed or stopped, the outputs are the slices of all batches, each sorted
in place, merged stably. They have each row once; and they are the stable sort of the input if each
slice is short, or its rows are equal where their keys are. -/
theorem outputs_sorted (hs : Operator.create name options .byColumns { script, pressure } stem
      fragment ledger disk = .ok s)
    (hschema : ∀ p ∈ script, ∀ b, p.batch? = some b → b.schema = schema)
    (horder : RowOrder.resolve schema options.keys = .ok order)
    (hscript : ∀ p ∈ script, LeavesFiles p.onDisk) (flag : CancelFlag) (cs : List Call)
    (hcs : ∀ c ∈ cs, c.Quiet ∧ ¬c.Ends)
    (hfine : ∀ r ∈ ((begin s flag).run cs).1, r.Fine)
    (hdone : ∃ r ∈ ((begin s flag).run cs).1, .ok .done ∈ r.pulls) :
    ∃ bs, (((begin s flag).run cs).1.flatMap Reply.outputs).mapM Output.toBatch = .ok bs ∧
      bs.flatMap Batch.table = order.sortedTables ((arriving script).flatMap Batch.slices) ∧
      (bs.flatMap Batch.table).Perm ((arriving script).flatMap Batch.table) ∧
      InOrder order.rowLe (bs.flatMap Batch.table) ∧
      ((∀ b ∈ (arriving script).flatMap Batch.slices, b.rows ≤ InPlace.mostInserted ∨
          ∀ r ∈ b.table, ∀ r' ∈ b.table, ties order.rowLe r r' → r = r') →
        bs.flatMap Batch.table =
          ((arriving script).flatMap Batch.table).mergeSort order.rowLe) := by
  obtain ⟨hresolved, hfields⟩ := RowOrder.resolve_ok horder
  have hfresh := create_fresh hs
  have hfirst : s.1.makeOrder = .byColumns ∧ s.1.options = options := by
    obtain ⟨-, v, -, hop, -⟩ := Operator.create_ok hs
    rw [hop]
    exact ⟨rfl, rfl⟩
  have hmade : ∀ o, s.1.MadeFor script o → o = order := by
    rintro o ⟨p, hp, b, hb, ho⟩
    rw [hfirst.1, hfirst.2, hschema p hp b hb, OrderMaker.byColumns, horder] at ho
    exact (Except.ok.inj ho).symm
  have hrun := begin_run_spec hs hscript flag cs fun c hc => (hcs c hc).1
  obtain ⟨rows, hshown, hworking⟩ := hrun.goes (fun c hc => (hcs c hc).2) hfine
  obtain ⟨r, hr, hpoll⟩ := hdone
  have hended := hrun.ended (.inr ⟨r, hr, .inl ⟨_, hpoll, rfl⟩⟩)
  have hfinished := hworking.finished_of_over hfresh hended.isOver
  have hrows : rows = order.sortedTables ((arriving script).flatMap Batch.slices) := by
    have hcomplete := hfinished.complete
    unfold Operator.Complete at hcomplete
    split at hcomplete
    · next o ho =>
      obtain ⟨taken, hd, -⟩ := hfinished.isOver.rest
      rw [hmade o (hd.madeFor hfinished.core ho)] at hcomplete
      simpa using hcomplete
    · obtain ⟨hnil, hall⟩ := hcomplete
      rw [hall]
      simpa [RowOrder.sortedTables] using hnil
  obtain ⟨bs, hbs, htables⟩ := hshown.mapM_toBatch hmade hfields
  rw [hrows] at htables
  refine ⟨bs, hbs, htables, ?_, ?_, fun hslices => ?_⟩
  · rw [htables, ← tables_flatMap_slices]
    exact order.sortedTables_perm _
  · rw [htables]
    exact order.inOrder_sortedTables _
  · rw [htables, ← tables_flatMap_slices]
    refine order.sortedTables_eq fun b hb => ?_
    have hbs : b.schema = order.schema := by
      obtain ⟨b', hb', hslice⟩ := List.mem_flatMap.mp hb
      obtain ⟨p, hp, hpb⟩ := exists_pull_of_mem_arriving hb'
      rw [schema_of_mem_slices hslice, hschema p hp b' hpb, hresolved]
    rcases hslices b hb with hfew | hequal
    · exact order.sortedTable_of_few hbs hfew
    · exact order.sortedTable_of_equal hbs hequal

end Session

/-! ## Sorts to look at -/

namespace Sample

/-- The order of the first column. -/
def byKey : RowOrder := ⟨schema, [⟨0, by decide⟩], [.scalar .int32], [(SortKey.asc "k").order]⟩

/-- Options under which nothing is spilled. -/
def roomy : SortOptions := { keys := [.asc "k"], directories := ["/spill"] }

/-- One batch of 21 rows, of which the fourth has the least key and all others have the same. -/
def twentyOne : List (Int × Int) :=
  (List.range 21).map fun i => (if i = 3 then 0 else 1, Int.ofNat i)

/-- The second value of a row. -/
def payload (r : Row) : Option Int :=
  match r.getD 1 .null with
  | .int i => some i
  | _ => none

/-- The replies to two pulls. -/
def twoPulls (options : SortOptions) (script : List Pull) : Except Failure (List Reply) :=
  (operator options script).map fun s => ((Session.begin s {}).run [.next true, .next true]).1

theorem twoPulls_eq {options : SortOptions} {script : List Pull} {s : Operator × Workspace}
    (hs : operator options script = .ok s) :
    twoPulls options script = .ok ((Session.begin s {}).run [.next true, .next true]).1 := by
  rw [twoPulls, hs]
  rfl

/-- What a pull says, at a glance. -/
inductive Glance where
  | rows
  | done
  | stopped
  | other
  deriving DecidableEq

def glance : Reply → Glance
  | .poll (.ok (.newSchema _)) => .rows
  | .poll (.ok .done) => .done
  | .poll (.ok .stopped) => .stopped
  | _ => .other

theorem exists_of_glance {r : Reply} (h : glance r = .rows) : ∃ o, r = .poll (.ok (.newSchema o)) := by
  unfold glance at h
  split at h
  · exact ⟨_, rfl⟩
  all_goals cases h

theorem eq_done_of_glance {r : Reply} (h : glance r = .done) : r = .poll (.ok .done) := by
  unfold glance at h
  split at h
  case h_2 => rfl
  all_goals cases h

theorem eq_stopped_of_glance {r : Reply} (h : glance r = .stopped) : r = .poll (.ok .stopped) := by
  unfold glance at h
  split at h
  case h_3 => rfl
  all_goals cases h

/-- The rows come out in one go. -/
theorem exists_of_glances {rs : List Reply} (h : rs.map glance = [.rows, .done]) :
    ∃ o, rs = [.poll (.ok (.newSchema o)), .poll (.ok .done)] := by
  obtain ⟨r, rs, rfl, hr, hrs⟩ := List.map_eq_cons_iff.mp h
  obtain ⟨r', rs, rfl, hr', hrs⟩ := List.map_eq_cons_iff.mp hrs
  obtain rfl := List.map_eq_nil_iff.mp hrs
  obtain ⟨o, rfl⟩ := exists_of_glance hr
  obtain rfl := eq_done_of_glance hr'
  exact ⟨o, rfl⟩

/-- Two of three batches are spilled, and their rows come out in one go. -/
theorem threeBatches_pulled : passes options threeBatches fun s =>
    let a := (Session.begin s {}).run [.next true, .next true]
    a.1.map glance == [.rows, .done] && a.2.operator.monitor.spillCount == 2 := by
  decide +kernel

end Sample

namespace Session

/-- Three batches, two of which were spilled, come out in one output: their rows in key order, and of
equal keys those of the earlier batch first. -/
theorem outputs_sorted_three_batches : ∃ rs bs, Sample.twoPulls Sample.options Sample.threeBatches =
      .ok rs ∧ (rs.flatMap Reply.outputs).mapM Output.toBatch = .ok bs ∧
      bs.flatMap Batch.table =
        ((arriving Sample.threeBatches).flatMap Batch.table).mergeSort Sample.byKey.rowLe := by
  obtain ⟨s, hs, hrun⟩ := Sample.exists_of_passes Sample.threeBatches_pulled
  obtain ⟨o, hpolls⟩ := Sample.exists_of_glances (beq_iff_eq.mp (Bool.and_eq_true_iff.mp hrun).1)
  have hschema : ∀ p ∈ Sample.threeBatches, ∀ b, p.batch? = some b → b.schema = Sample.schema := by
    simp only [Sample.threeBatches, List.forall_mem_cons, List.not_mem_nil, false_imp_iff,
      implies_true, and_true]
    refine ⟨?_, ?_, ?_⟩ <;> rintro _ ⟨⟩ <;> rfl
  have horder : RowOrder.resolve Sample.schema Sample.options.keys = .ok Sample.byKey := rfl
  obtain ⟨bs, hbs, -, -, -, hstable⟩ := outputs_sorted hs hschema horder
    Sample.threeBatches_quiet {} [.next true, .next true] (by simp [Call.Quiet, Call.Ends])
    (by simp [hpolls, Reply.Fine, Reply.pulls, Fine, Reply.schemaFailure?])
    (by simp [hpolls, Reply.pulls])
  refine ⟨_, bs, Sample.twoPulls_eq hs, hbs, hstable fun b hb => .inl ?_⟩
  revert b
  decide

/-- Rows with equal keys need not keep their order: one batch of 21 rows that nothing else happens to
does not come out as its stable sort. -/
theorem outputs_unstable_twenty_one_rows : ∃ o b,
    Sample.twoPulls Sample.roomy [Sample.pull Sample.twentyOne] =
      .ok [.poll (.ok (.newSchema o)), .poll (.ok .done)] ∧
    RowOrder.resolve Sample.schema Sample.roomy.keys = .ok Sample.byKey ∧
    o.toBatch = .ok b ∧
    b.table ≠ (Sample.batch Sample.twentyOne).table.mergeSort Sample.byKey.rowLe := by
  have hpasses : Sample.passes Sample.roomy [Sample.pull Sample.twentyOne] fun s =>
      let rs := ((Session.begin s {}).run [.next true, .next true]).1
      rs.map Sample.glance == [.rows, .done] &&
        (rs.flatMap Reply.outputs).all fun o => o.toBatch.toOption.any fun b =>
          b.table.map Sample.payload !=
            (stableSort Sample.byKey.rowLe (Sample.batch Sample.twentyOne).table).map Sample.payload := by
    decide +kernel
  obtain ⟨s, hs, hrun⟩ := Sample.exists_of_passes hpasses
  rw [Bool.and_eq_true, beq_iff_eq] at hrun
  obtain ⟨o, hrs⟩ := Sample.exists_of_glances hrun.1
  have hother := List.all_eq_true.mp hrun.2 o (by rw [hrs]; exact List.mem_cons_self)
  cases hb : o.toBatch with
  | error e =>
    rw [hb] at hother
    cases hother
  | ok b =>
    rw [hb] at hother
    have hne : b.table.map Sample.payload ≠
        (stableSort Sample.byKey.rowLe (Sample.batch Sample.twentyOne).table).map Sample.payload :=
      bne_iff_ne.mp hother
    rw [(Sample.byKey.rowLe_preordering).stableSort_eq] at hne
    exact ⟨o, b, by rw [Sample.twoPulls_eq hs, hrs], rfl, hb,
      fun htable => hne (congrArg (List.map Sample.payload) htable)⟩

end Session

end SpillSort
