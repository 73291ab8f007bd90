import SpillSort.Proofs.Intake

/-!
# The states while an operator takes in

Between its creation and the end of its input an operator goes through states in which every slice
that came in lies in one of its groups. A state is reached by keeping slices and by spilling, in any
order and for any reason, while everything else goes its own way.

* `Operator.Staging` are these states, with the slices staged so far; `Operator.ingest_staging` says
  that taking in goes through them.
* `Operator.Partitions` is what holds of the groups in each of them.
-/

namespace SpillSort

open Memory Spill

variable {E : Surroundings} {w : Workspace} {R S : Resources} {order : RowOrder}

namespace Operator

/-- Something happens that is neither the keeping of a slice nor a spill: groups, files and the number
of rows stay, and so does an order. -/
structure Elsewhere (s t : Operator × Workspace) : Prop where
  resident : t.1.resident = s.1.resident
  spilled : t.1.spilled = s.1.spilled
  totalRows : t.1.monitor.totalRows = s.1.monitor.totalRows
  order? : s.1.order? = none ∨ t.1.order? = s.1.order?
  tree : t.2.disk.tree = s.2.disk.tree
  contents : t.2.disk.contents = s.2.disk.contents

/-- The states of an operator that takes in its input, with the slices staged so far. -/
inductive Staging : Operator × Workspace → List Batch → Prop where
  | create {name : String} {options : SortOptions} {makeOrder : OrderMaker} {input : Input}
    {stem : String} {fragment : Fragment} {ledger : Ledger} {disk : Disk} {s : Operator × Workspace} :
    Operator.create name options makeOrder input stem fragment ledger disk = .ok s → Staging s []
  | elsewhere {s t : Operator × Workspace} {staged : List Batch} :
    Staging s staged → Elsewhere s t → Staging t staged
  | spill {s t : Operator × Workspace} {staged : List Batch} (reason : SpillReason) :
    Staging s staged → Stateful.outcome (spill reason).run s = (.ok (), t) → Staging t staged
  | keepSlice {s t : Operator × Workspace} {staged : List Batch} {order : RowOrder} {chunk : Chunk} :
    Staging s staged → s.1.order? = some order → 0 < chunk.length →
    chunk.length ≤ maxSelectionRows →
    Stateful.outcome (keepSlice order chunk).run s = (.ok (), t) →
    Staging t (staged ++ [chunk.batch])

/-- A group on disk stands for some slices: its run in memory and the batches of its file, one after
the other, have the rows of these slices merged stably. -/
def OnDisk (order : RowOrder) (disk : Disk) (g : SortedGroup) (slices : List Batch) : Prop :=
  ∃ head file content bytes front bs, g = .spilled (some head) file ∧
    disk.openFile file.path = .ok (.file content) ∧ disk.read (.file content) = .ok bytes ∧
    FileHolds bytes bs ∧ head.Reads order front ∧
    front ++ bs.flatMap Batch.table = (slices.flatMap order.sortedTable).mergeSort order.rowLe ∧
    (front ++ bs.flatMap Batch.table).Perm (slices.flatMap Batch.table) ∧
    g.rows = (front ++ bs.flatMap Batch.table).length

/-- A group in memory stands for a slice, and reads it through a selection in key order. -/
def InMemory (order : RowOrder) (g : SortedGroup) (slice : Batch) : Prop :=
  ∃ run selection, g = .resident run ∧ run.chunk.batch = slice ∧ g.rows = slice.rows ∧
    0 < slice.rows ∧ slice.rows ≤ maxSelectionRows ∧ run.selection? = some selection ∧
    selection.offsets.size = slice.rows ∧ selection.offsets.toList.Perm (List.range slice.rows) ∧
    order.encode slice = .ok run.keys ∧
    InOrder order.le ((List.range slice.rows).map run.keyAt)

/-- The groups partition the slices staged so far in the order in which they arrived, those on disk
before those in memory, and the monitor has counted their rows. -/
structure Partitions (s : Operator × Workspace) (staged : List Batch) : Prop where
  groups : ∃ segments singles, staged = segments.flatten ++ singles ∧
    ((s.1.spilled = #[] ∧ s.1.resident = #[] ∧ segments = [] ∧ singles = []) ∨
      ∃ order, s.1.order? = some order ∧
        List.Forall₂ (OnDisk order s.2.disk) s.1.spilled.toList segments ∧
        List.Forall₂ (InMemory order) s.1.resident.toList singles)
  totalRows : s.1.monitor.totalRows =
    min maxCount (total ((s.1.spilled.toList ++ s.1.resident.toList).map SortedGroup.rows))

end Operator

/-! ## What holds in all of them -/

/-- Surroundings in which nobody keeps books, and the flag may do as it likes. -/
def Surroundings.careless (base : Disk) : Surroundings :=
  ⟨none, base, fun _ => True, fun _ _ => trivial, trivial⟩

theorem Owns.careless_iff {base : Disk} :
    Owns (.careless base) w R ↔
      ∃ fs : List Disk.Placed, (fs.map (·.2) : List HeldFile) = R.files ∧ base.Keeps w.disk fs :=
  ⟨fun h => h.disk, fun h => ⟨fun _ hb => (by cases hb), h, trivial⟩⟩

/-- Who holds nothing may leave the disk as it is. -/
theorem Owns.nothing (w : Workspace) : Owns (.careless w.disk) w 0 :=
  careless_iff.mpr ⟨[], rfl, .nil _⟩

/-- Charges do not matter when nobody keeps books. -/
theorem Owns.careless_charges {base : Disk} (h : Owns (.careless base) w R) (cs : List ChargeId) :
    Owns (.careless base) w (.charges cs + R) := by
  rw [careless_iff] at h ⊢
  simpa using h

namespace SortOptions

variable {o : SortOptions}

theorem outputRows_pos (h : o.check = .ok ()) : 0 < o.outputRows := by
  refine Nat.pos_of_ne_zero fun hzero => ?_
  unfold check at h
  rw [if_pos hzero] at h
  repeat' split at h
  all_goals cases h

/-- The output rows bound the rows of a merged chunk. -/
theorem chunkRows_le (o : SortOptions) (order : RowOrder) :
    max (o.chunkRows order) 1 ≤ max o.outputRows 1 := by
  unfold chunkRows SpillSort.chunkRows
  omega

end SortOptions

namespace Operator

theorem Has.elsewhere {s t : Operator × Workspace} {staged : List Batch} (h : s.1.Has staged R)
    (he : Elsewhere s t) : t.1.Has staged R := by
  rcases he.order? with ho | ho
  · rw [Has, ho] at h
    obtain ⟨hr, hs, ht, rfl, rfl⟩ := h
    have hr' := he.resident.trans hr
    have hs' := he.spilled.trans hs
    have ht' := he.totalRows.trans ht
    unfold Has
    split
    · exact Has.stages_nil hr' hs' ht' _
    · exact ⟨hr', hs', ht', rfl, rfl⟩
  · exact h.congr he.resident he.spilled ho he.totalRows

/-- What an operator is when it was made. -/
theorem create_ok {name : String} {options : SortOptions} {makeOrder : OrderMaker} {input : Input}
    {stem : String} {fragment : Fragment} {ledger : Ledger} {disk : Disk} {s : Operator × Workspace}
    (h : Operator.create name options makeOrder input stem fragment ledger disk = .ok s) :
    options.check = .ok () ∧ ∃ v,
      Workspace.create options.directories options.codec stem fragment ledger disk = .ok v ∧
      s.1 =
        { name, options, input, makeOrder
          tracker := (ledger.addChild name options.maxAllocation fragment.tracker).1
          monitor :=
            { maxAllocation := options.maxAllocation.toInt, threshold := options.threshold
              groupSize := options.groupSize } } ∧
      s.2 =
        { v with
          ledger := (ledger.addChild name options.maxAllocation fragment.tracker).2
          fragment :=
            { fragment with profile := fragment.profile.onChild name (profileNode options) }
          node := [name] } := by
  simp only [Operator.create, bind, Except.bind] at h
  split at h
  · cases h
  · next hcheck =>
    split at h
    · cases h
    · next v hv =>
      obtain rfl := Except.ok.inj h
      exact ⟨hcheck, v, hv, rfl, rfl⟩

/-- In every state the operator holds the slices staged so far, and the disk has their files. -/
theorem Staging.has {s : Operator × Workspace} {staged : List Batch} (h : Staging s staged) :
    ∃ base R, s.1.Has staged R ∧ Owns (.careless base) s.2 R := by
  induction h with
  | @create name options makeOrder input stem fragment ledger disk s hs =>
    obtain ⟨-, v, -, hop, -⟩ := create_ok hs
    rw [hop]
    exact ⟨s.2.disk, 0, ⟨rfl, rfl, rfl, rfl, rfl⟩, Owns.careless_iff.mpr ⟨[], rfl, .nil _⟩⟩
  | elsewhere _ he ih =>
    obtain ⟨base, R, hst, hw⟩ := ih
    refine ⟨base, R, hst.elsewhere he, ?_⟩
    rw [Owns.careless_iff] at hw ⊢
    obtain ⟨fs, hfs, hk⟩ := hw
    exact ⟨fs, hfs, hk.congr he.tree he.contents⟩
  | @spill s t staged reason _ ht ih =>
    obtain ⟨base, R, hst, hw⟩ := ih
    have hspec := spill_has (S := 0) hst (by rwa [add_zero]) reason
    unfold Gives Ensures at hspec
    rw [ht] at hspec
    obtain ⟨R', -, hst, hw⟩ := hspec
    exact ⟨base, R', hst, by rwa [add_zero] at hw⟩
  | @keepSlice s t staged order chunk _ ho hpos hsmall ht ih =>
    obtain ⟨base, R, hst, hw⟩ := ih
    have hw' := (hw.careless_charges chunk.charge?.toList).cast (add_comm ..)
    have hspec := keepSlice_spec (S := 0) ho (hst.stages ho) hpos hsmall (by rwa [add_zero])
    unfold Gives Ensures at hspec
    rw [ht] at hspec
    obtain ⟨R', hb, hst, hw⟩ := hspec
    exact ⟨base, R', .of_order hst ((congrArg Operator.order? hb).trans ho), by rwa [add_zero] at hw⟩

theorem OldPart.onDisk {p : SortedGroup × List Batch} (h : OldPart order p S)
    (hw : Owns E w (S + R)) : OnDisk order w.disk p.1 p.2 := by
  obtain ⟨head, file, hg⟩ := h.spilled
  obtain ⟨front, bs, hrows, hfront, hs⟩ := h.part.holds.parts
  simp only [hg, SortedGroup.spilled] at hfront hs
  obtain ⟨f, hf, rfl, hfile, -⟩ := hs
  rw [Multiset.cons_add] at hw
  obtain ⟨hopen, hread⟩ := hw.openFile
  refine ⟨head, file, f.content, f.bytes, front, bs, hg, hf ▸ hopen, hread, hfile.1, hfront,
    hrows.symm, ?_, ?_⟩
  · rw [← hrows]
    exact (List.mergeSort_perm _ _).trans
      (List.Perm.flatMap_left _ fun b _ => order.sortedTable_perm b)
  · rw [h.part.rows, hrows]

theorem NewPart.inMemory {p : SortedGroup × Batch} (h : NewPart order p S) :
    InMemory order p.1 p.2 := by
  obtain ⟨run, hg, hs, -⟩ := h.sorted
  obtain ⟨selection, hsel, hperm⟩ := hs.selection
  have hlen : run.length = p.2.rows := by rw [SortedRun.length, Chunk.length, hs.batch]
  refine ⟨run, selection, hg, hs.batch, by rw [hg]; exact hlen, hs.nonempty, hs.small, hsel, ?_,
    hperm, hs.keys, ?_⟩
  · rw [← Array.length_toList, hperm.length_eq, List.length_range]
  · have hin := hs.reads.sorted
    rw [hs.reads.eq_map, InOrder, List.pairwise_map, hlen] at hin
    rw [InOrder, List.pairwise_map]
    refine hin.imp_of_mem fun {i j} hi hj hle => ?_
    rw [hs.reads.keyAt i (hlen ▸ List.mem_range.mp hi), hs.reads.keyAt j (hlen ▸ List.mem_range.mp hj)]
    exact hle

theorem Stages.partitions {s : Operator × Workspace} {staged : List Batch}
    (h : s.1.Stages order staged R) (ho : s.1.order? = some order) (hw : Owns E s.2 R) :
    Partitions s staged := by
  obtain ⟨old, new, U, V, hold, hnew, hstaged, hU, hV, rfl⟩ := h.groups
  have hdisk : ∀ p ∈ old, OnDisk order s.2.disk p.1 p.2 := by
    intro p hp
    obtain ⟨S, T, rfl, hpart⟩ := hV.exists_part hp
    exact hpart.onDisk (R := T + U) (hw.cast (by abel))
  have hmemory : ∀ p ∈ new, InMemory order p.1 p.2 := by
    intro p hp
    obtain ⟨_, _, -, hpart⟩ := hU.exists_part hp
    exact hpart.inMemory
  refine ⟨⟨old.map Prod.snd, new.map Prod.snd, ?_, .inr ⟨order, ho, ?_, ?_⟩⟩, ?_⟩
  · rw [hstaged, List.flatMap_def]
  · rw [hold, List.forall₂_map_left_iff, List.forall₂_map_right_iff, List.forall₂_same]
    exact hdisk
  · rw [hnew, List.forall₂_map_left_iff, List.forall₂_map_right_iff, List.forall₂_same]
    exact hmemory
  · rw [h.totalRows, hstaged, hold, hnew, List.map_append, List.map_append, total_append,
      total_append, List.map_map, List.map_map, List.map_map]
    have hnewrows : new.map (Batch.rows ∘ Prod.snd) = new.map (SortedGroup.rows ∘ Prod.fst) := by
      refine List.map_congr_left fun p hp => ?_
      obtain ⟨_, _, -, -, hrows, -⟩ := hmemory p hp
      exact hrows.symm
    have holdrows : ∀ qs : List (SortedGroup × List Batch),
        (∀ p ∈ qs, OnDisk order s.2.disk p.1 p.2) →
        total ((qs.flatMap Prod.snd).map Batch.rows) =
          total (qs.map (SortedGroup.rows ∘ Prod.fst)) := by
      intro qs hqs
      induction qs with
      | nil => rfl
      | cons q qs ih =>
        obtain ⟨hq, hqs⟩ := List.forall_mem_cons.mp hqs
        obtain ⟨_, _, _, _, front, bs, -, -, -, -, -, -, hperm, hrows⟩ := hq
        have hlen : (q.2.flatMap Batch.table).length = total (q.2.map Batch.rows) := by
          induction q.2 with
          | nil => rfl
          | cons b bs ihb => simp [ihb]
        rw [List.flatMap_cons, List.map_append, total_append, ih hqs, List.map_cons, total_cons,
          Function.comp_apply, hrows, hperm.length_eq, hlen]
    rw [hnewrows, holdrows old hdisk]

/-- In every state the groups partition the slices staged so far. -/
theorem Staging.partitions {s : Operator × Workspace} {staged : List Batch}
    (h : Staging s staged) : Partitions s staged := by
  obtain ⟨base, R, hst, hw⟩ := h.has
  have hst' := hst
  unfold Has at hst
  split at hst
  · next order ho => exact hst.partitions ho hw
  · obtain ⟨hr, hs, ht, rfl, rfl⟩ := hst
    refine ⟨⟨[], [], rfl, .inl ⟨hs, hr, rfl, rfl⟩⟩, ?_⟩
    rw [hr, hs, ht]
    rfl

/-! ## Taking in goes through them -/

variable {s t : Operator × Workspace} {staged : List Batch}

theorem Elsewhere.refl (s : Operator × Workspace) : Elsewhere s s := ⟨rfl, rfl, rfl, .inr rfl, rfl, rfl⟩

/-- Changes of the workspace away from the files. -/
theorem Elsewhere.workspace {op : Operator} {w w' : Workspace} (h : w'.disk = w.disk) :
    Elsewhere (op, w) (op, w') :=
  ⟨rfl, rfl, rfl, .inr rfl, by rw [h], by rw [h]⟩

/-- So are steps of the ledger. -/
theorem withLedger_elsewhere {α : Type} (op : Operator) (w : Workspace) (f : Ledger → α × Ledger) :
    Ensures (Workspace.withLedger f)
      (fun a w' => a = (f w.ledger).1 ∧ Elsewhere (op, w) (op, w')) w :=
  ⟨rfl, .workspace rfl⟩

theorem onLedger_elsewhere (op : Operator) (w : Workspace) (f : Ledger → Ledger) :
    Ensures (Workspace.onLedger f) (fun _ w' => Elsewhere (op, w) (op, w')) w :=
  .workspace rfl

theorem spill_staging (h : Staging s staged) (reason : SpillReason) :
    Gives (spill reason) (fun _ t => Staging t staged) (fun _ _ => True) s :=
  Gives.of_outcome.mono (fun _ _ ht => h.spill reason ht) fun _ _ _ => trivial

theorem keepSlice_staging {chunk : Chunk} (h : Staging s staged) (ho : s.1.order? = some order)
    (hpos : 0 < chunk.length) (hsmall : chunk.length ≤ maxSelectionRows) :
    Gives (keepSlice order chunk)
      (fun _ t => Staging t (staged ++ [chunk.batch]) ∧ t.1.order? = some order)
      (fun _ _ => True) s := by
  obtain ⟨base, R, hst, hw⟩ := h.has
  have hw' := (hw.careless_charges chunk.charge?.toList).cast (add_comm ..)
  have hspec := keepSlice_spec (S := 0) ho (hst.stages ho) hpos hsmall (by rwa [add_zero])
  refine (Gives.of_outcome.and hspec).mono (fun _ t ht => ?_) fun _ _ _ => trivial
  obtain ⟨hout, R', hb, -⟩ := ht
  exact ⟨h.keepSlice ho hpos hsmall hout, (congrArg Operator.order? hb).trans ho⟩

theorem spill_order (h : Staging s staged) (reason : SpillReason) :
    Gives (spill reason) (fun _ t => t.1.order? = s.1.order?) (fun _ _ => True) s := by
  obtain ⟨base, R, hst, hw⟩ := h.has
  refine (spill_has (S := 0) hst (by rwa [add_zero]) reason).mono (fun _ t ht => ?_) fun _ _ _ => trivial
  obtain ⟨R', hb, -⟩ := ht
  exact (congrArg Operator.order? hb :)

theorem relieve_staging (h : Staging s staged) :
    Gives relieve (fun _ t => Staging t staged ∧ t.1.order? = s.1.order?) (fun _ _ => True) s := by
  refine gives_relieve (fun _ => ?_) ⟨h, rfl⟩
  exact ((spill_staging h _).and (spill_order h _)).mono (fun _ _ ht => ht) fun _ _ _ => trivial

theorem stageSlices_staging (chunk : Chunk) : ∀ {slices : List (Nat × Nat)}
    {s : Operator × Workspace} {staged : List Batch}, Staging s staged → s.1.order? = some order →
    (∀ x ∈ slices, 0 < x.2 ∧ x.2 ≤ maxSelectionRows) →
    Gives (stageSlices order chunk slices)
      (fun _ t => Staging t (staged ++ slices.map fun x => chunk.batch.slice x.1 x.2))
      (fun _ _ => True) s
  | [], s, staged, h, _, _ => by
    unfold stageSlices
    rw [Gives.pure_iff, List.map_nil, List.append_nil]
    exact h
  | (offset, length) :: slices, s, staged, h, ho, hs => by
    obtain ⟨⟨hpos, hsmall⟩, hs⟩ := List.forall_mem_cons.mp hs
    unfold stageSlices stageSlice
    simp only [Gives.bind_iff, Gives.lift_layer_iff]
    refine (withLedger_elsewhere s.1 s.2 _).mono fun slice w hw => ?_
    obtain ⟨hslice, hw⟩ := hw
    have hbatch : slice.batch = chunk.batch.slice offset length := by rw [hslice]; rfl
    have hlen : slice.length = length := by rw [Chunk.length, hbatch]; rfl
    refine (keepSlice_staging (h.elsewhere hw) ho (hlen ▸ hpos) (hlen ▸ hsmall)).mono
      (fun _ t ht => ?_) fun _ _ _ => trivial
    refine (relieve_staging ht.1).mono (fun _ u hu => ?_) fun _ _ _ => trivial
    have hrest := stageSlices_staging chunk hu.1 (hu.2.trans ht.2) hs
    rwa [hbatch, List.append_assoc, List.singleton_append] at hrest

theorem orderFor_elsewhere (s : Operator × Workspace) (schema : Schema) :
    Gives (orderFor schema) (fun order t => Elsewhere s t ∧ t.1.order? = some order)
      (fun _ _ => True) s := by
  exact gives_orderFor (fun _ ho _ => ⟨.refl s, ho⟩) (fun _ _ _ => trivial)
    (fun _ _ ho _ => ⟨⟨rfl, rfl, rfl, .inl ho, rfl, rfl⟩, rfl⟩) fun _ _ _ => trivial

theorem addBatch_staging {chunk : Chunk} (h : Staging s staged) :
    Gives (addBatch chunk)
      (fun _ t => Staging t (staged ++ chunk.batch.slices))
      (fun _ _ => True) s := by
  refine gives_addBatch ((orderFor_elsewhere s _).mono (fun order t ht => ?_) fun _ _ _ =>
    .of_forall fun _ _ => trivial)
  have ht' := h.elsewhere ht.1
  refine ⟨fun hzero => ?_, fun _ => ?_⟩
  · have hnil : chunk.batch.slices = [] := by
      have hrows : chunk.batch.rows = 0 := hzero
      rw [Batch.slices, hrows]
      rfl
    rw [hnil, List.append_nil]
    exact (onLedger_elsewhere t.1 t.2 _).mono fun _ w hw => ht'.elsewhere hw
  · refine (withLedger_elsewhere t.1 t.2 _).mono fun c w hc => ?_
    obtain ⟨hc, hw⟩ := hc
    have hbatch : c.batch = chunk.batch := hc ▸ chunk.batch_transfer ..
    refine (stageSlices_staging c (ht'.elsewhere hw) ht.2 slices_bounds).mono
      (fun _ u hu => ?_) fun _ u _ => ?_
    · rw [Chunk.length, hbatch] at hu
      exact (onLedger_elsewhere u.1 u.2 _).mono fun _ w hw => hu.elsewhere hw
    · exact Ensures.of_forall fun _ _ => trivial

theorem Staging.asked (h : Staging s staged) :
    Staging ({ s.1 with input := s.1.input.takePressure.2 }, s.2) staged :=
  h.elsewhere ⟨rfl, rfl, rfl, .inr rfl, rfl, rfl⟩

theorem relieveInput_staging (h : Staging s staged) :
    Gives relieveInput (fun _ t => Staging t staged) (fun _ _ => True) s := by
  have hnoted : ∀ journal, Staging
      ({ s.1 with monitor := s.1.monitor.onOutOfMemory.2 }, { s.2 with journal }) staged :=
    fun _ => h.elsewhere ⟨rfl, rfl, rfl, .inr rfl, rfl, rfl⟩
  exact gives_relieveInput (fun journal _ => spill_staging (hnoted journal) _) hnoted

theorem nextEvent_elsewhere (hquiet : ∀ p ∈ s.1.input.script, LeavesFiles p.onDisk) :
    Gives nextEvent (fun _ t => Elsewhere s t) (fun _ _ => True) s := by
  obtain ⟨htree, hcontents⟩ := Input.quiet_next hquiet s.2.disk
  refine gives_nextEvent (fun _ _ => ⟨rfl, rfl, rfl, .inr rfl, rfl, rfl⟩) fun _ => ?_
  exact gives_pull (fun _ _ => ⟨rfl, rfl, rfl, .inr rfl, htree, hcontents⟩) fun _ _ => trivial

/-- Looking at the cancel flag is one of the changes away from the files. -/
theorem cancelled_elsewhere (op : Operator) (w : Workspace) :
    Ensures Workspace.cancelled (fun _ w' => Elsewhere (op, w) (op, w')) w :=
  .workspace rfl

/-- Taking in goes through states of staging, and what was pulled is staged in each of them. -/
theorem ingest_staging {script : List Pull} {base : Disk}
    (hscript : ∀ p ∈ script, LeavesFiles p.onDisk) : ∀ (count : Nat) {op : Operator} {w : Workspace}
    {staged : List Batch} {taken : List ChargeId} {R : Resources}, Staging (op, w) staged →
    Takes (.careless base) script 0 (op, w) staged taken R →
    Gives (ingest count)
      (fun _ t => ∃ staged' taken' R', Staging t staged' ∧
        Takes (.careless base) script 0 t staged' taken' R')
      (fun _ _ => True) (op, w)
  | 0, op, w, staged, taken, R, hst, h => by
    unfold ingest
    exact Gives.pure_iff.mpr ⟨staged, taken, R, hst, h⟩
  | count + 1, op, w, staged, taken, R, hst, h => by
    refine gives_ingest_succ
      (Q := fun e s => Comes (.careless base) script 0 op e s staged taken R ∧ Staging s staged)
      (R := fun e s => ∃ R, Comes (.careless base) script 0 op e s staged taken R ∧
        Staging s staged) ?_ (fun e s hc => ⟨R, hc.1.takePressure, hc.2.asked⟩) (fun e s hc => ?_)
      fun e s hc => ?_
    · refine (h.owns.cancelled.and (cancelled_elsewhere op w)).mono fun b w' hw => ?_
      have hst : Staging (op, w') staged := hst.elsewhere hw.2
      have h : Takes (.careless base) script 0 (op, w') staged taken R :=
        ⟨h.has, h.draws, h.pulled, hw.1.2⟩
      refine ⟨fun _ => trivial, fun _ => ?_⟩
      exact ((nextEvent_spec hscript h).and (nextEvent_elsewhere (h.draws.quiet hscript))).mono
        (fun _ _ hs => ⟨hs.1, hst.elsewhere hs.2⟩) fun _ _ _ => trivial
    · have hc' := hc.1.takePressure
      refine ((relieveInput_spec hc'.has hc'.owns).and (relieveInput_staging hc.2.asked)).mono
        (fun _ t ht => ?_) fun _ _ _ => .of_forall fun _ _ => trivial
      obtain ⟨⟨R', hb, hhas, hw⟩, hst⟩ := ht
      exact ⟨R', hc'.of_bare hb hhas hw, hst⟩
    obtain ⟨R, hc, hst⟩ := hc
    cases e with
    | endOfInput => exact Gives.pure_iff.mpr ⟨staged, taken, R, hst, (hc.takes_of_none rfl).1⟩
    | stop => exact Gives.pure_iff.mpr ⟨staged, taken, R, hst, (hc.takes_of_none rfl).1⟩
    | notYet => exact Gives.throw_iff.mpr trivial
    | batch chunk =>
      rw [stageEvent, Gives.bind_iff]
      refine ((addBatch_spec hc.has (fun _ hb => by cases hb) hc.owns).and
        (addBatch_staging hst)).mono (fun _ t ht => ?_) fun _ _ _ => trivial
      obtain ⟨⟨R', order, hsh, hset, ho, hstages, hw⟩, hst⟩ := ht
      exact ingest_staging hscript count hst (hc.takes_of_batch hsh hset ho hstages hw).1

theorem prime_staging (hquiet : ∀ p ∈ s.1.input.script, LeavesFiles p.onDisk)
    (hp : s.1.pending? = none) (h : Staging s staged) :
    Gives prime (fun _ t => Staging t staged) (fun _ _ => True) s := by
  refine gives_prime ((gives_nextEvent_iff hp).mp ((nextEvent_elsewhere hquiet).mono
    (fun e t ht => ?_) fun _ _ _ => trivial))
  have hwait : ∀ {t : Operator × Workspace}, Staging t staged →
      Staging ({ t.1 with pending? := some e }, t.2) staged :=
    fun h => h.elsewhere ⟨rfl, rfl, rfl, .inr rfl, rfl, rfl⟩
  have ht := h.elsewhere ht
  cases e with
  | notYet => trivial
  | endOfInput => exact hwait ht
  | stop => exact hwait ht
  | batch chunk =>
    exact (orderFor_elsewhere t _).mono (fun order u hu => hwait (ht.elsewhere hu.1)) fun _ _ _ =>
      .of_forall fun _ _ => trivial

/-- The slices of all batches that were pulled are staged, except for a batch that was pulled ahead. -/
def AllStaged (script : List Pull) (s : Operator × Workspace) : Prop :=
  ∃ staged, Staging s staged ∧
    ((script.take s.1.input.pulls).filterMap Pull.batch?).flatMap Batch.slices =
      staged ++ (s.1.pending?.bind Event.batch?).toList.flatMap Batch.slices

/-- An operator that was just made takes in its input, and nobody keeps books of it. -/
theorem create_takes {name : String} {options : SortOptions} {makeOrder : OrderMaker}
    {script : List Pull} {pressure : Bool} {stem : String} {fragment : Fragment} {ledger : Ledger}
    {disk : Disk} (h : Operator.create name options makeOrder { script, pressure } stem fragment
      ledger disk = .ok s) : Takes (.careless s.2.disk) script 0 s [] [] 0 := by
  obtain ⟨-, v, -, hop, -⟩ := create_ok h
  refine ⟨?_, ?_, ?_, Owns.careless_iff.mpr ⟨[], ?_, .nil _⟩⟩
  · rw [hop]
    exact ⟨rfl, rfl, rfl, rfl, rfl⟩
  · rw [hop]
    exact ⟨rfl, by simp, by simp [pendingCharges], by simp, fun _ => rfl, by simp⟩
  · rw [hop]
    rfl
  · simp

/-- **The staging invariant.** In every state of staging the groups partition the slices staged so
far, and an operator that takes in its input, after one event ahead of time or without it, has all
slices that came in staged in such a state. -/
theorem groups_partition_slices :
    (∀ s staged, Staging s staged → Partitions s staged) ∧
    ∀ {name options makeOrder script pressure stem fragment ledger disk s},
      Operator.create name options makeOrder { script, pressure } stem fragment ledger disk = .ok s →
      (∀ p ∈ script, LeavesFiles p.onDisk) →
      ∀ count,
        Gives (ingest count) (fun _ t => AllStaged script t) (fun _ _ => True) s ∧
        Gives (do let _ ← prime; ingest count) (fun _ t => AllStaged script t) (fun _ _ => True) s := by
  refine ⟨fun s staged h => h.partitions, fun {name options makeOrder script pressure stem fragment
    ledger disk s} hs hscript count => ?_⟩
  have hst : Staging s [] := .create hs
  have htakes := create_takes hs
  have hcount : ∀ {t : Operator × Workspace} {staged taken R}, Staging t staged →
      Takes (.careless s.2.disk) script 0 t staged taken R →
      Gives (ingest count) (fun _ t => AllStaged script t) (fun _ _ => True) t := by
    intro t staged taken R hst h
    refine (ingest_staging hscript count hst h).mono (fun _ u hu => ?_) fun _ _ _ => trivial
    obtain ⟨staged, taken, R, hst, h⟩ := hu
    exact ⟨staged, hst, h.pulled⟩
  refine ⟨hcount hst htakes, ?_⟩
  obtain ⟨-, v, -, hop, -⟩ := create_ok hs
  have ho : s.1.order? = none := by rw [hop]
  have hp : s.1.pending? = none := by rw [hop]
  have hquiet : ∀ p ∈ s.1.input.script, LeavesFiles p.onDisk := by
    rw [hop]
    exact hscript
  rw [Gives.bind_iff]
  refine ((prime_spec hscript htakes ho hp).and (prime_staging hquiet hp hst)).mono (fun _ t ht => ?_)
    fun _ _ _ => trivial
  exact hcount ht.2 ht.1.2.1

end Operator

/-! ## A sort to look at -/

namespace Sample

/-- Two columns, of which the first one is the key. -/
def schema : Schema := ⟨[.mk "k" (.scalar .int32) false [], .mk "v" (.scalar .int32) false []]⟩

/-- A batch of some rows. -/
def batch (rows : List (Int × Int)) : Batch :=
  .ofColumns schema rows.length
    #[(rows.map fun r => Value.int r.1).toArray, (rows.map fun r => Value.int r.2).toArray]

/-- A pull that brings a batch nobody is charged for. -/
def pull (rows : List (Int × Int)) : Pull := { outcome := .ok (.batch ⟨batch rows, none⟩) }

/-- Options under which two groups in memory are one too many. -/
def options : SortOptions :=
  { keys := [.asc "k"], directories := ["/spill"], threshold := 1, groupSize := 1 }

/-- A sort of the batches of a script, on an empty disk. -/
def operator (options : SortOptions) (script : List Pull) : Except Failure (Operator × Workspace) :=
  let (fragment, ledger) := Fragment.start ⟨1, 2⟩ ⟨3, 4⟩ (-1)
  Operator.create "SORT" options .byColumns { script } "rows" fragment ledger {}

/-- Three batches, two of which are spilled on the way. -/
def threeBatches : List Pull := [pull [(2, 1), (1, 2)], pull [(1, 3), (3, 4)], pull [(1, 5)]]

theorem threeBatches_quiet : ∀ p ∈ threeBatches, LeavesFiles p.onDisk := by
  simp [threeBatches, pull, LeavesFiles]

theorem exists_operator (script : List Pull) : ∃ s, operator options script = .ok s := ⟨_, rfl⟩

/-- Whether a sort of the batches of a script comes up, and is as it should be. -/
def passes (options : SortOptions) (script : List Pull) (test : Operator × Workspace → Bool) : Bool :=
  match operator options script with
  | .ok s => test s
  | .error _ => false

theorem exists_of_passes {options : SortOptions} {script : List Pull}
    {test : Operator × Workspace → Bool} (h : passes options script test) :
    ∃ s, operator options script = .ok s ∧ test s := by
  unfold passes at h
  split at h
  · next s hs => exact ⟨s, hs, h⟩
  · cases h

end Sample

namespace Operator

/-- Three batches lie in two groups on disk and one in memory. -/
theorem groups_partition_three_batches : ∃ s t staged,
    Sample.operator Sample.options Sample.threeBatches = .ok s ∧
      Stateful.outcome (ingest 5).run s = (.ok true, t) ∧
      t.1.spilled.size = 2 ∧ t.1.resident.size = 1 ∧
      staged = (Sample.threeBatches.filterMap Pull.batch?).flatMap Batch.slices ∧
      Partitions t staged := by
  have hpasses : Sample.passes Sample.options Sample.threeBatches fun s =>
      let a := Stateful.outcome (ingest 5).run s
      a.1.toOption == some true && a.2.1.spilled.size == 2 && a.2.1.resident.size == 1 &&
        a.2.1.input.pulls == 4 && a.2.1.pending?.isNone := by
    decide +kernel
  obtain ⟨s, hs, hrun⟩ := Sample.exists_of_passes hpasses
  obtain ⟨hpartitions, htaken⟩ := groups_partition_slices
  have hall := (htaken hs Sample.threeBatches_quiet 5).1
  unfold Gives Ensures at hall
  dsimp only at hrun
  generalize ht : Stateful.outcome (ingest 5).run s = a at hall hrun
  obtain ⟨r, t⟩ := a
  simp only [Bool.and_eq_true, beq_iff_eq, Option.isNone_iff_eq_none] at hrun
  obtain ⟨⟨⟨⟨hr, hspilled⟩, hresident⟩, hpulls⟩, hpending⟩ := hrun
  obtain rfl : r = .ok true := by
    cases r with
    | ok goesOn => exact congrArg _ (Option.some.inj hr)
    | error e => cases hr
  obtain ⟨staged, hst, hpulled⟩ := hall
  refine ⟨s, t, staged, hs, ht, hspilled, hresident, ?_, hpartitions t staged hst⟩
  rw [hpulls, hpending, List.take_of_length_le (by decide)] at hpulled
  simpa using hpulled.symm

end Operator

end SpillSort
