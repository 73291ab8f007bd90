import SpillSort.Proofs.GlobalMerges
import SpillSort.Proofs.Spilling
import SpillSort.Sort.InMemory

/-!
# What merging in memory makes

If it is not refused, a merge in memory has all rows of its groups in key order, rows with equal keys
in the order of their groups, and serves them window by window.

* `MemoryMerge.build_spec` is about the merge, `MemoryMerge.nextWindow_spec` about a window.
* `Addressed.mergeRuns_eq` says that the rows of all runs are merged stably.
-/

namespace SpillSort

open Memory Spill

variable {E : Surroundings} {w : Workspace} {R S : Resources} {order : RowOrder}

/-! ## Merging selections -/

/-- The row that an entry names. -/
def entryRow (batches : Array Batch) (e : UInt32) : Row :=
  Batch.rowAt batches (GlobalSelection.batchOf e, GlobalSelection.rowOf e)

/-- Batches of one schema can be addressed together, unless there are too many. -/
theorem HyperBatch.ofBatches_eq {schema : Schema} {batches : Array Batch}
    (hfew : batches.size ≤ maxSelectionBatches) (hschemas : ∀ b ∈ batches, b.schema = schema) :
    ofBatches schema batches = .ok { schema, batches } := by
  have hnone : batches.findIdx? (fun b => b.schema ≠ schema) = none := by
    simpa [Array.findIdx?_eq_none_iff] using hschemas
  rw [ofBatches, if_neg (Nat.not_lt.mpr hfew), hnone]

/-- Runs that can be addressed, each with the rows it reads. -/
structure Addressed (order : RowOrder) (runs : List SortedRun) (rows : List (List Row)) : Prop where
  reads : List.Forall₂ (SortedRun.Reads order) runs rows
  small : ∀ r ∈ runs, r.length ≤ maxSelectionRows
  few : runs.length ≤ maxSelectionBatches

theorem SortedRun.Reads.inKeyOrder {r : SortedRun} {rows : List Row} (h : r.Reads order rows)
    (hsmall : r.length ≤ maxSelectionRows) : r.InKeyOrder order := by
  refine ⟨hsmall, h.inRange, h.keyed, ?_⟩
  have hs := h.sorted
  rw [h.eq_map, InOrder, List.pairwise_map] at hs
  rw [InOrder, List.pairwise_map]
  refine hs.imp_of_mem fun {p q} hp hq hle => ?_
  rw [h.keyAt p (List.mem_range.mp hp), h.keyAt q (List.mem_range.mp hq)]
  exact hle

namespace Addressed

variable {runs : List SortedRun} {rows : List (List Row)}

theorem reads_of_mem (h : Addressed order runs rows) {r : SortedRun} (hr : r ∈ runs) :
    ∃ rs, r.Reads order rs := by
  obtain ⟨i, hi⟩ := List.mem_iff_getElem?.mp hr
  have hlen := h.reads.length_eq
  have hlt := (List.getElem?_eq_some_iff.mp hi).1
  have hread := List.Forall₂.get h.reads hlt (by omega)
  obtain ⟨_, rfl⟩ := List.getElem?_eq_some_iff.mp hi
  exact ⟨_, hread⟩

theorem inKeyOrder (h : Addressed order runs rows) {r : SortedRun} (hr : r ∈ runs) :
    r.InKeyOrder order := by
  obtain ⟨rs, hreads⟩ := h.reads_of_mem hr
  exact hreads.inKeyOrder (h.small r hr)

theorem schemas (h : Addressed order runs rows) : ∀ b ∈ batchesOf runs, b.schema = order.schema := by
  intro b hb
  obtain ⟨r, hr, rfl⟩ := List.mem_map.mp (List.mem_toArray.mp hb)
  obtain ⟨_, hreads⟩ := h.reads_of_mem hr
  exact hreads.schema

theorem ofBatches_eq (h : Addressed order runs rows) :
    HyperBatch.ofBatches order.schema (batchesOf runs) = .ok ⟨order.schema, batchesOf runs⟩ :=
  HyperBatch.ofBatches_eq (by simpa [batchesOf] using h.few) h.schemas

/-- An entry of a run names its row, and has its keys. -/
theorem entry (h : Addressed order runs rows) {r : SortedRun} {i p : Nat} (hi : runs[i]? = some r)
    (hp : p < r.length) :
    let e := GlobalSelection.pack i (r.rowAt p)
    Batch.holds (batchesOf runs) (GlobalSelection.batchOf e, GlobalSelection.rowOf e) ∧
      entryRow (batchesOf runs) e = r.rowOf p ∧
      GlobalMerge.key? (keysOf runs) e = some (order.key (r.rowOf p)) := by
  have hr : r ∈ runs := List.mem_of_getElem? hi
  obtain ⟨rs, hreads⟩ := h.reads_of_mem hr
  obtain ⟨hbatchOf, hrowOf, hkey, hholds⟩ := (h.inKeyOrder hr).entry h.few hi hp
  have hbatch : (batchesOf runs)[i]? = some r.chunk.batch := by simp [batchesOf, hi]
  refine ⟨hholds, ?_, hkey.trans (congrArg some (hreads.keyAt p hp))⟩
  rw [entryRow, hbatchOf, hrowOf, Batch.rowAt, Array.getD_eq_getD_getElem?, hbatch]
  rfl

theorem le_iff (h : Addressed order runs rows) {a b : UInt32} (ha : a ∈ entriesOf runs)
    (hb : b ∈ entriesOf runs) : GlobalMerge.entryLe order (keysOf runs) a b =
      order.rowLe (entryRow (batchesOf runs) a) (entryRow (batchesOf runs) b) := by
  obtain ⟨i, r, p, hi, hp, rfl⟩ := mem_entriesOf ha
  obtain ⟨j, s, q, hj, hq, rfl⟩ := mem_entriesOf hb
  obtain ⟨-, hra, hka⟩ := h.entry hi hp
  obtain ⟨-, hrb, hkb⟩ := h.entry hj hq
  rw [GlobalMerge.entryLe, hka, hkb, hra, hrb]
  rfl

theorem map_entriesOf (h : Addressed order runs rows) :
    (entriesOf runs).map (entryRow (batchesOf runs)) = rows.flatten := by
  have hrow : ∀ {i : Nat} {r : SortedRun}, runs[i]? = some r →
      (r.entries i).map (entryRow (batchesOf runs)) = (List.range r.length).map r.rowOf := by
    intro i r hi
    rw [SortedRun.entries, SortedRun.rows, List.map_map, List.map_map]
    refine List.map_congr_left fun p hp => ?_
    exact (h.entry hi (List.mem_range.mp hp)).2.1
  rw [entriesOf, segmentsOf, List.map_flatten, List.map_map]
  refine congrArg List.flatten (List.ext_getElem ?_ fun i h₁ h₂ => ?_)
  · simpa using h.reads.length_eq
  · have hlt : i < runs.length := by simpa using h₁
    have hread := List.Forall₂.get h.reads hlt h₂
    simp only [List.getElem_map, List.getElem_zipIdx, Function.comp_apply, Nat.zero_add]
    rw [hrow (List.getElem?_eq_getElem hlt)]
    exact hread.eq_map.symm

theorem total_length (h : Addressed order runs rows) :
    total (runs.map SortedRun.length) = rows.flatten.length := by
  rw [← length_entriesOf, ← h.map_entriesOf, List.length_map]

/-- The entries of all runs are merged stably by the keys of their rows. -/
theorem mergeRuns_eq (h : Addressed order runs rows) {src dst : Array UInt32}
    (hsrc : src.size = rows.flatten.length) (hdst : dst.size = rows.flatten.length) :
    ∃ entries, mergeRuns order runs src dst = some entries ∧
      entries.toList.map (entryRow (batchesOf runs)) = rows.flatten.mergeSort order.rowLe ∧
      ∀ e ∈ entries, Batch.holds (batchesOf runs)
        (GlobalSelection.batchOf e, GlobalSelection.rowOf e) := by
  rw [← h.total_length] at hsrc hdst
  refine ⟨_, mergeRuns_eq_mergeSort (fun r hr => h.inKeyOrder hr) h.few hsrc hdst, ?_,
    fun e he => ?_⟩
  · rw [List.map_mergeSort (r := GlobalMerge.entryLe order (keysOf runs))
      (s := order.rowLe) (f := entryRow (batchesOf runs)) fun a ha b hb => h.le_iff ha hb,
      h.map_entriesOf]
  · obtain ⟨i, r, p, hi, hp, rfl⟩ := mem_entriesOf (by simpa using he)
    exact (h.entry hi hp).1

end Addressed

/-! ## Groups in memory -/

namespace SortedGroup

/-- The runs of groups in memory, which hold all that the groups hold. -/
theorem runs_of_part {ps : List (SortedGroup × List Row)} (h : Shared (Part order) ps R)
    (hmem : ∀ p ∈ ps, p.1.spilled? = none) (hsmall : ∀ p ∈ ps, p.2.length ≤ maxSelectionRows) :
    let runs := (ps.map Prod.fst).filterMap head?
    ∃ rows, List.Forall₂ (SortedRun.Reads order) runs rows ∧
      (∀ r ∈ runs, r.length ≤ maxSelectionRows) ∧ rows.flatten = ps.flatMap Prod.snd ∧
      R = .charges (runs.flatMap fun r => r.chunk.charge?.toList) +
        .charges (runs.flatMap SortedRun.orderCharges) := by
  intro runs
  induction h with
  | nil => exact ⟨[], .nil, by simp [runs], rfl, by simp [runs]⟩
  | @cons p ps U V hp _ ih =>
    obtain ⟨hp0, hps⟩ := List.forall_mem_cons.mp hmem
    obtain ⟨hle, hsmall⟩ := List.forall_mem_cons.mp hsmall
    obtain ⟨rows, hreads, hshort, hflat, rfl⟩ := ih hps hsmall
    obtain ⟨front, bs, hrows, hfront, hs⟩ := hp.holds.parts
    rw [hp0] at hs
    obtain ⟨rfl, rfl⟩ := hs
    rw [List.flatMap_nil, List.append_nil] at hrows
    rcases hh : p.1.head? with _ | run
    · rw [hh] at hfront
      have hruns : runs = (ps.map Prod.fst).filterMap head? := by
        simp only [runs, List.map_cons, List.filterMap_cons, hh]
      rw [hruns]
      refine ⟨rows, hreads, hshort, ?_, ?_⟩
      · rw [hflat, List.flatMap_cons, hrows, hfront, List.nil_append]
      · simp [charges, hh]
    · rw [hh] at hfront
      have hruns : runs = run :: (ps.map Prod.fst).filterMap head? := by
        simp only [runs, List.map_cons, List.filterMap_cons, hh]
      rw [hruns]
      refine ⟨front :: rows, .cons hfront hreads, List.forall_mem_cons.mpr ⟨?_, hshort⟩, ?_, ?_⟩
      · rwa [← hfront.length_eq, ← hrows]
      · rw [List.flatten_cons, hflat, List.flatMap_cons, hrows]
      · simp only [charges, hh, Option.map_some, Option.getD_some, SortedRun.charges,
          Resources.charges_append, List.flatMap_cons]
        abel

end SortedGroup

namespace MemoryMerge

/-- Two selections with room for all rows are charged, or nothing is. -/
theorem allocate_spec (ho : Owns E w R) (tracker : TrackerId) (rows : Nat) :
    Ensures (allocate tracker rows) (fun r w =>
      match r with
      | .error _ => Owns E w R
      | .ok (s, aux) => s.entries.size = rows ∧ aux.entries.size = rows ∧
        Owns E w (aux.held + (s.held + R))) w := by
  have h₁ := ho.tryCharge tracker (clampBytes (GlobalSelection.bytesFor rows))
  revert h₁
  simp only [allocate, Workspace.withLedger, GlobalSelection.allocate, Ensures.modifyGet_iff]
  rcases w.ledger.tryCharge tracker (clampBytes (GlobalSelection.bytesFor rows)) with ⟨e | c, l⟩
  · intro h₁
    exact (by simpa [Except.toOption] using h₁ : Owns E _ R)
  · intro h₁
    have h₂ := Owns.tryCharge h₁ tracker (clampBytes (GlobalSelection.bytesFor rows))
    revert h₂
    simp only [Workspace.withLedger, Ensures.modifyGet_iff, Except.map]
    rcases l.tryCharge tracker (clampBytes (GlobalSelection.bytesFor rows)) with ⟨e | d, l⟩
    · intro h₂
      exact (show Owns E _ (.charges [c] + R) by simpa [Except.toOption] using h₂).dropAll
    · exact fun h₂ => ⟨Array.size_replicate, Array.size_replicate, h₂⟩

/-- The merge has all its rows in its selection, and serves them from its position on. -/
structure Holds (order : RowOrder) (m : MemoryMerge) (rows : List Row) : Prop where
  schema : m.batches.schema = order.schema
  schemas : ∀ b ∈ m.batches.batches, b.schema = order.schema
  inRange : ∀ e ∈ m.selection.entries, Batch.holds m.batches.batches
    (GlobalSelection.batchOf e, GlobalSelection.rowOf e)
  entries : rows = (m.selection.entries.toList.drop m.position).map (entryRow m.batches.batches)

theorem build_spec {ps : List (SortedGroup × List Row)} (h : Shared (SortedGroup.Part order) ps R)
    (hsmall : ∀ p ∈ ps, p.2.length ≤ maxSelectionRows) (ho : Owns E w (R + S))
    (tracker : TrackerId) (maxBytes : Nat) :
    Gives (build order tracker maxBytes (ps.map Prod.fst))
      (fun r w =>
        match r with
        | .refused _ => Owns E w (R + S)
        | .merged m => m.Holds order ((ps.flatMap Prod.snd).mergeSort order.rowLe) ∧
          Owns E w (.lease m.lease ::ₘ S))
      (fun _ w => Owns E w S) w := by
  refine gives_build (fun _ _ _ => ho) (fun _ => ho) (fun _ => ho) (fun _ => allocate_spec ho tracker _)
    (fun _ _ ho => ho) fun hgroups selection aux w ho => ?_
  intro runs held chosen
  obtain ⟨hselection, haux, ho⟩ := ho
  have hnone : ∀ p ∈ ps, p.1.spilled? = none := by
    simpa [SortedGroup.isSpilled] using hgroups.resident
  obtain ⟨rows, hreads, hshort, hflat, rfl⟩ := SortedGroup.runs_of_part h hnone hsmall
  have ha : Addressed order runs rows :=
    ⟨hreads, hshort, (List.length_filterMap_le ..).trans hgroups.few⟩
  have htotal : total ((ps.map Prod.fst).map SortedGroup.rows) = rows.flatten.length := by
    rw [List.map_map, hflat]
    exact SortedGroup.total_rows h
  rw [htotal] at hselection haux
  obtain ⟨entries, hentries, hmerge, hin⟩ := ha.mergeRuns_eq hselection haux
  obtain rfl : chosen = entries := congrArg (Option.getD · #[]) hentries
  have ho' : Owns E w (.charges (aux.charge?.toList ++ runs.flatMap SortedRun.orderCharges) +
      (.charges (selection.charge?.toList ++ runs.flatMap fun r => r.chunk.charge?.toList) + S)) := by
    refine ho.cast ?_
    simp only [GlobalSelection.held, Resources.charges_append]
    abel
  refine ho'.dropAll.mono fun _ w ho => ?_
  simp only [show HyperBatch.ofBatches order.schema (runs.map fun r => r.chunk.batch).toArray = _
    from ha.ofBatches_eq]
  exact ⟨⟨rfl, ha.schemas, hin, hflat ▸ hmerge.symm⟩, ho.onLedger (by simp) fun _ _ ha => ha.lease⟩

theorem drop_spec {m : MemoryMerge} (ho : Owns E w (.lease m.lease ::ₘ S)) :
    Ensures m.drop (fun _ w => Owns E w S) w :=
  ho.onLedger (by simp) fun _ _ ha => ha.dropLease

end MemoryMerge

namespace Window

/-- The window has these rows, which can be gathered from it. -/
structure Holds (order : RowOrder) (v : Window) (rows : List Row) : Prop where
  schema : v.batches.schema = order.schema
  schemas : ∀ b ∈ v.batches.batches, b.schema = order.schema
  inRange : ∀ e ∈ v.entries, Batch.holds v.batches.batches
    (GlobalSelection.batchOf e, GlobalSelection.rowOf e)
  entries : rows = v.entries.toList.map (entryRow v.batches.batches)

theorem drop_spec {v : Window} (ho : Owns E w (.lease v.lease ::ₘ S)) :
    Ensures v.drop (fun _ w => Owns E w S) w :=
  ho.onLedger (by simp) fun _ _ ha => ha.dropLease

/-- A window with rows can be gathered if there are columns. -/
theorem gather_spec {v : Window} {rows : List Row} (h : v.Holds order rows)
    (hcolumns : order.schema.fields ≠ []) (hne : rows ≠ []) :
    ∃ b, v.gather = .ok b ∧ b.schema = order.schema ∧ b.table = rows := by
  have hbatches : v.batches.batches ≠ #[] := by
    intro hnil
    obtain ⟨e, he⟩ := List.exists_mem_of_ne_nil v.entries.toList (by
      intro hnil
      rw [h.entries, hnil] at hne
      exact hne rfl)
    have := h.inRange e (by simpa using he)
    rw [Batch.holds, hnil] at this
    cases this
  have hfields : v.batches.schema.fields ≠ [] := by rwa [h.schema]
  have hinRange : ∀ i ∈ v.entries.map fun e => (GlobalSelection.batchOf e, GlobalSelection.rowOf e),
      Batch.holds v.batches.batches i := by
    intro i hi
    obtain ⟨e, he, rfl⟩ := Array.mem_map.mp hi
    exact h.inRange e he
  obtain ⟨b, hb⟩ := Batch.gather_eq hfields hbatches hinRange
  obtain ⟨hs, -, ht⟩ := Batch.gather_ok (by rw [h.schema]; exact h.schemas) hb
  refine ⟨b, hb, hs.trans h.schema, ht.trans ?_⟩
  rw [h.entries, Array.toList_map, List.map_map]
  rfl

end Window

namespace MemoryMerge

/-- The next window has the next rows, and all of them are served when there is none. -/
theorem nextWindow_spec {m : MemoryMerge} {rows : List Row} (h : m.Holds order rows)
    (ho : Owns E w (.lease m.lease ::ₘ S)) (maxRows : Nat) :
    Ensures (m.nextWindow maxRows) (fun r w =>
      r.2.lease = m.lease ∧
      match r.1 with
      | none => rows = [] ∧ r.2 = m ∧ Owns E w (.lease m.lease ::ₘ S)
      | some v => v.lease = m.lease ∧ v.entries.size ≠ 0 ∧ ∃ front rest, rows = front ++ rest ∧
          v.Holds order front ∧ r.2.Holds order rest ∧
          Owns E w (.lease v.lease ::ₘ .lease m.lease ::ₘ S)) w := by
  refine ensures_nextWindow (fun hle => ?_) fun hlt => ?_
  · refine ⟨rfl, ?_, rfl, ho⟩
    rw [h.entries, List.drop_eq_nil_of_le (by simpa [totalRows] using hle), List.map_nil]
  · have hshare : Ensures (Workspace.onLedger fun l => l.shareLease m.lease)
        (fun _ w => Owns E w (.lease m.lease ::ₘ .lease m.lease ::ₘ S)) w :=
      ho.onLedger (by simp) fun _ _ ha => ha.shareLease (Multiset.mem_cons_self _ _)
    refine hshare.mono fun _ w ho => ⟨rfl, rfl, ?_, ?_⟩
    · simp only [GlobalSelection.window, totalRows, Array.size_extract] at hlt ⊢
      omega
    · generalize hn : min (max maxRows 1) (m.totalRows - m.position) = n
      have hwindow : (m.selection.window m.position n).toList =
          (m.selection.entries.toList.drop m.position).take n := by
        simp [GlobalSelection.window]
      refine ⟨_, _, ?_, ⟨h.schema, h.schemas, fun e he => h.inRange e ?_, rfl⟩,
        ⟨h.schema, h.schemas, h.inRange, rfl⟩, ho⟩
      · rw [hwindow, ← List.map_append, ← List.drop_drop, List.take_append_drop]
        exact h.entries
      · have he' : e ∈ (m.selection.window m.position n).toList := by simpa using he
        rw [hwindow] at he'
        simpa using List.mem_of_mem_drop (List.mem_of_mem_take he')

end MemoryMerge

end SpillSort
