import Mathlib.Tactic.Abel
import SpillSort.Proofs.MergeRules
import SpillSort.Proofs.SpillFiles

/-!
# What groups hold

A group holds rows in key order and the resources to read them: charges for what is in memory, and
the file of what is on disk. Reading its next run takes rows off its front.

* `SortedRun.Reads` says which rows a run reads, `SortedGroup.Holds` which rows a group has left.
* `SortedGroup.Keeps` is about the resources alone; it is all that matters once something failed.
* `SortedGroup.nextRun_spec` is the reading of a run, `SortedGroup.drop_spec` the end of a group.
-/

namespace SpillSort

open Memory Spill

variable {E : Surroundings} {w : Workspace} {R : Resources} {order : RowOrder}

/-! ## Runs -/

namespace SortedRun

/-- What a run holds. -/
def held (run : SortedRun) : Resources := .charges run.charges

/-- The row at a position of the key order. -/
def rowOf (run : SortedRun) (position : Nat) : Row := run.chunk.batch.row (run.rowAt position)

/-- The run reads these rows, in the order of their keys. -/
structure Reads (order : RowOrder) (run : SortedRun) (rows : List Row) : Prop where
  schema : run.chunk.batch.schema = order.schema
  inRange : ∀ i < run.length, run.rowAt i < run.length
  keyed : ∀ i < run.length, run.rowAt i < run.keys.rows.size
  keyAt : ∀ i < run.length, run.keyAt i = order.key (run.rowOf i)
  eq_map : rows = (List.range run.length).map run.rowOf
  sorted : InOrder order.rowLe rows

theorem Reads.length_eq {run : SortedRun} {rows : List Row} (h : run.Reads order rows) :
    rows.length = run.length := by
  rw [h.eq_map, List.length_map, List.length_range]

theorem held_eq (run : SortedRun) :
    run.held = run.chunk.held + .charges run.orderCharges := by
  rw [held, charges, Resources.charges_append]
  rfl

theorem drop_spec {run : SortedRun} (h : Owns E w (run.held + R)) :
    Ensures run.drop (fun _ w => Owns E w R) w :=
  h.dropAll

theorem ofKeys_spec {chunk : Chunk} (h : Owns E w (chunk.held + R)) (keys : EncodedKeys)
    (tracker : TrackerId) :
    Ensures (ofKeys chunk keys none tracker)
      (fun run w => run.chunk = chunk ∧ run.keys = keys ∧ run.selection? = none ∧
        Owns E w (run.held + R)) w := by
  unfold ofKeys
  simp only [Ensures.bind_iff, Ensures.pure_iff]
  refine (h.charge tracker _).mono fun c w h => ⟨trivial, trivial, trivial, h.cast ?_⟩
  simp only [held_eq, orderCharges, Option.bind_none, Option.toList_none, Resources.charges_cons,
    Resources.charges_nil, ← Multiset.singleton_add]
  abel

/-- A run without a selection reads the rows of its batch. -/
theorem reads_table {run : SortedRun} (hs : run.selection? = none)
    (hk : order.encode run.chunk.batch = .ok run.keys)
    (ho : InOrder order.rowLe run.chunk.batch.table) : run.Reads order run.chunk.batch.table := by
  obtain ⟨hschema, hkeys⟩ := order.encode_ok hk
  have hat : ∀ i, run.rowAt i = i := fun i => by simp [rowAt, hs]
  refine ⟨hschema, fun i hi => by rwa [hat], fun i hi => ?_, fun i hi => ?_, ?_, ho⟩
  · rw [hat, order.size_encode hk]
    exact hi
  · rw [keyAt, rowOf, hat]
    exact hkeys i hi
  · refine List.map_congr_left fun i _ => ?_
    rw [rowOf, hat]

end SortedRun

/-! ## Groups -/

namespace SortedGroup

/-- The file of a group on disk. As long as it was not opened, the group knows how many rows it has. -/
def FileOf (s : SpilledRuns) (f : HeldFile) (bs : List Batch) : Prop :=
  match s.reader? with
  | none => FileHolds f.bytes bs ∧ s.file.rows = total (bs.map Batch.rows)
  | some r => r.Holds f bs

/-- The group owns the resources. -/
def Keeps (g : SortedGroup) (R : Resources) : Prop :=
  match g.spilled? with
  | none => R = Resources.charges g.charges
  | some s => ∃ f, f.path = s.file.path ∧ R = .file f ::ₘ Resources.charges g.charges

/-- The group has these rows left, and owns the resources to read them. -/
structure Holds (order : RowOrder) (g : SortedGroup) (rows : List Row) (R : Resources) : Prop where
  inOrder : InOrder order.rowLe rows
  parts : ∃ front bs, rows = front ++ bs.flatMap Batch.table ∧
    (match g.head? with
      | none => front = []
      | some run => run.Reads order front) ∧
    (match g.spilled? with
      | none => bs = [] ∧ R = Resources.charges g.charges
      | some s => ∃ f, f.path = s.file.path ∧ R = .file f ::ₘ Resources.charges g.charges ∧
        FileOf s f bs ∧ ∀ b ∈ bs, b.schema = order.schema)

theorem Holds.keeps {g : SortedGroup} {rows : List Row} (h : g.Holds order rows R) : g.Keeps R := by
  obtain ⟨front, bs, -, -, hs⟩ := h.parts
  unfold Keeps
  split at hs
  · exact hs.2
  · obtain ⟨f, hf, hR, -⟩ := hs
    exact ⟨f, hf, hR⟩

/-- Letting go of a group gives up its resources. -/
theorem drop_spec {g : SortedGroup} {S : Resources} (hg : g.Keeps S) (h : Owns E w (S + R)) :
    Ensures g.drop (fun _ w => Owns E w R) w := by
  unfold Keeps at hg
  unfold drop
  simp only [Ensures.bind_iff]
  split at hg
  · next hs =>
    subst hg
    refine h.dropAll.mono fun _ w h => ?_
    simpa only [hs, Ensures.pure_iff] using h
  · next s hs =>
    obtain ⟨f, hf, rfl⟩ := hg
    rw [Multiset.cons_add, ← Multiset.add_cons] at h
    refine h.dropAll.mono fun _ w h => ?_
    simp only [hs]
    rw [SpillFile.drop, ← hf]
    exact h.removeFile

theorem dropAll_spec {gs : List SortedGroup} {S : Resources} (hg : Shared Keeps gs S)
    (h : Owns E w (S + R)) : Ensures (dropAll gs) (fun _ w => Owns E w R) w := by
  induction hg generalizing w with
  | nil => simpa [dropAll] using h
  | cons hx _ ih =>
    rw [dropAll, Ensures.bind_iff]
    rw [add_assoc] at h
    exact (drop_spec hx h).mono fun _ w h => ih h

/-! ## Reading -/

theorem restore_spec {b : Batch} (h : Owns E w R) (tracker : TrackerId)
    (ho : InOrder order.rowLe b.table) :
    Gives (restore order tracker b)
      (fun run w => run.Reads order b.table ∧ Owns E w (run.held + R)) (fun _ w => Owns E w R) w := by
  refine gives_restore (h.count _ _ _) (fun keys w h hk => ?_) fun _ _ h _ => h
  refine (h.tracked b tracker).mono fun chunk w hchunk => ?_
  obtain ⟨hb, h⟩ := hchunk
  refine (SortedRun.ofKeys_spec h keys tracker).mono fun run w hmade => ?_
  obtain ⟨hc, hkeys, hs, h⟩ := hmade
  have hrun : run.chunk.batch = b := hc ▸ hb
  rw [← hrun]
  exact ⟨SortedRun.reads_table hs (by rw [hrun, hkeys]; exact hk) (hrun ▸ ho), h⟩

/-- What comes of an attempt to read a run, if `rows` were left: the run has rows off the front of
them, and what has become of the group has the others. -/
def Taken (E : Surroundings) (order : RowOrder) (R : Resources) (rows : List Row)
    (result : Except Failure (Option SortedRun) × SortedGroup) (w : Workspace) : Prop :=
  match result.1 with
  | .ok none => rows = [] ∧ ∃ S, result.2.Holds order [] S ∧ Owns E w (S + R)
  | .ok (some run) => ∃ front rest S, rows = front ++ rest ∧ front ≠ [] ∧ run.Reads order front ∧
      result.2.Holds order rest S ∧ Owns E w (run.held + S + R)
  | .error _ => ∃ S, result.2.Keeps S ∧ Owns E w (S + R)

/-- A group that has only batches of its file left. -/
theorem holds_file {g : SortedGroup} {s : SpilledRuns} {f : HeldFile} {bs : List Batch}
    (hhead : g.head? = none) (hs : g.spilled? = some s) (hf : f.path = s.file.path)
    (hbs : FileOf s f bs) (hschema : ∀ b ∈ bs, b.schema = order.schema)
    (ho : InOrder order.rowLe (bs.flatMap Batch.table)) :
    g.Holds order (bs.flatMap Batch.table) {.file f} := by
  refine ⟨ho, [], bs, rfl, ?_, ?_⟩
  · rw [hhead]
  · rw [hs]
    exact ⟨f, hf, by simp [charges, hhead], hbs, hschema⟩

theorem holds_reader {g : SortedGroup} {s : SpilledRuns} {f : HeldFile} {r : Reader} {bs : List Batch}
    (hhead : g.head? = none) (hf : f.path = s.file.path) (hr : r.Holds f bs)
    (hschema : ∀ b ∈ bs, b.schema = order.schema)
    (ho : InOrder order.rowLe (bs.flatMap Batch.table)) :
    Holds order { g with spilled? := some { s with reader? := some r } } (bs.flatMap Batch.table)
      {.file f} :=
  holds_file (s := { s with reader? := some r }) hhead rfl hf hr hschema ho

theorem restoreNext_spec (tracker : TrackerId) {f : HeldFile} {s : SpilledRuns} {g : SortedGroup}
    (hf : f.path = s.file.path) (hhead : g.head? = none) :
    ∀ {bs : List Batch} {r : Reader} {w : Workspace}, r.Holds f bs →
      (∀ b ∈ bs, b.schema = order.schema) → InOrder order.rowLe (bs.flatMap Batch.table) →
      Owns E w (.file f ::ₘ R) →
      Ensures (restoreNext order tracker r.pending r) (fun result w =>
        Taken E order R (bs.flatMap Batch.table)
          (result.1, { g with spilled? := some { s with reader? := some result.2 } }) w) w
  | [], r, w, hr, hs, ho, h => by
    rw [Reader.pending_eq_nil hr]
    unfold restoreNext
    rw [Ensures.pure_iff]
    exact ⟨rfl, _, holds_reader hhead hf hr hs ho, h⟩
  | b :: bs, r, w, hr, hs, ho, h => by
    obtain ⟨e, rest, hp, hrest, hb⟩ := Reader.batchAt_spec h hr
    obtain ⟨hsb, hsbs⟩ := List.forall_mem_cons.mp hs
    obtain ⟨hob, hobs, -⟩ := List.pairwise_append.mp (List.flatMap_cons ▸ ho)
    have hkeep : ∀ {w}, Owns E w (.file f ::ₘ R) → ∃ S,
        Keeps { g with spilled? := some { s with reader? := some (r.advance rest) } } S ∧
          Owns E w (S + R) := fun h =>
      ⟨_, (holds_reader hhead hf hrest hsbs hobs).keeps, h⟩
    rw [hp]
    refine ensures_restoreNext_cons (R := fun run w => run.Reads order b.table ∧
      Owns E w (run.held + .file f ::ₘ R)) ?_ (fun run w hrun hlen => ?_) fun run w hrun hlen => ?_
    · refine hb.mono (fun b' w hbatch => ?_) fun _ w h => hkeep h
      obtain ⟨-, -, hbt, h⟩ := hbatch
      rw [← hbt]
      exact (restore_spec h tracker (hbt ▸ hob)).mono (fun _ _ h => h) fun _ w h => hkeep h
    · obtain ⟨hr, h⟩ := hrun
      have hnil : b.table = [] := List.eq_nil_of_length_eq_zero (hr.length_eq.trans hlen)
      rw [List.flatMap_cons, hnil, List.nil_append]
      refine (SortedRun.drop_spec h).mono fun _ w h => ?_
      exact restoreNext_spec tracker hf hhead hrest hsbs hobs h
    · obtain ⟨hr, h⟩ := hrun
      refine ⟨b.table, _, _, List.flatMap_cons, fun hnil => hlen ?_, hr,
        holds_reader hhead hf hrest hsbs hobs, h.cast ?_⟩
      · rw [← hr.length_eq, hnil, List.length_nil]
      · rw [add_assoc, Multiset.singleton_add]

/-- Reading the next run on disk. -/
theorem nextSpilled_spec {g : SortedGroup} {rows : List Row} {S : Resources}
    (hg : g.Holds order rows S) (hhead : g.head? = none) (tracker : TrackerId)
    (h : Owns E w (S + R)) :
    Ensures (g.nextSpilled order tracker) (Taken E order R rows) w := by
  obtain ⟨ho, front, bs, rfl, hfront, hs⟩ := id hg
  rw [hhead] at hfront
  subst hfront
  have hch : Resources.charges g.charges = 0 := by simp [charges, hhead]
  refine ensures_nextSpilled (fun hsp => ?_) (fun s r hsp hreader => ?_) fun s hsp hreader => ?_
  · rw [hsp] at hs
    obtain ⟨rfl, rfl⟩ := hs
    exact ⟨rfl, _, hg, h⟩
  · rw [hsp] at hs
    obtain ⟨f, hf, rfl, hfile, hschema⟩ := hs
    rw [hch, Multiset.cons_add, zero_add] at h
    rw [FileOf, hreader] at hfile
    exact restoreNext_spec tracker hf hhead hfile hschema ho h
  · rw [hsp] at hs
    obtain ⟨f, hf, rfl, hfile, hschema⟩ := hs
    rw [hch, Multiset.cons_add, zero_add] at h
    rw [FileOf, hreader] at hfile
    rw [← hf]
    refine (Reader.open_spec h hfile.1 _).mono (fun r w hopen => ?_) fun e w h => ?_
    · exact restoreNext_spec tracker hf hhead hopen.1 hschema ho hopen.2
    · refine ⟨_, hg.keeps, h.cast ?_⟩
      rw [hch, Multiset.cons_add, zero_add]

/-- What is left of a group once its run in memory is taken. -/
theorem Holds.take_head {g : SortedGroup} {rows : List Row} {S : Resources} {run : SortedRun}
    (hg : g.Holds order rows S) (hhead : g.head? = some run) :
    ∃ front rest T, rows = front ++ rest ∧ run.Reads order front ∧
      Holds order { g with head? := none } rest T ∧ S = run.held + T := by
  obtain ⟨ho, front, bs, rfl, hfront, hs⟩ := hg
  rw [hhead] at hfront
  have hob := (List.pairwise_append.mp ho).2.1
  split at hs
  · next hsp =>
    refine ⟨front, _, 0, rfl, hfront, ⟨hob, [], bs, rfl, rfl, ?_⟩, ?_⟩
    · simp only [hsp]
      exact ⟨hs.1, rfl⟩
    · simp [hs.2, charges, hhead, SortedRun.held]
  · next s hsp =>
    obtain ⟨f, hf, hS, hfile, hschema⟩ := hs
    refine ⟨front, _, {.file f}, rfl, hfront, ⟨hob, [], bs, rfl, rfl, ?_⟩, ?_⟩
    · simp only [hsp]
      exact ⟨f, hf, rfl, hfile, hschema⟩
    · simp [hS, charges, hhead, SortedRun.held, ← Multiset.singleton_add, add_comm]

/-- Reading the next run of a group. -/
theorem nextRun_spec {g : SortedGroup} {rows : List Row} {S : Resources}
    (hg : g.Holds order rows S) (tracker : TrackerId) (h : Owns E w (S + R)) :
    Ensures (g.nextRun order tracker) (Taken E order R rows) w := by
  refine ensures_nextRun (fun hhead => nextSpilled_spec hg hhead tracker h)
    (fun run hhead hlen => ?_) fun run hhead hlen => ?_
  · obtain ⟨front, rest, T, rfl, hfront, hT, rfl⟩ := hg.take_head hhead
    rw [add_assoc] at h
    have hnil : front = [] := List.eq_nil_of_length_eq_zero (hfront.length_eq.trans hlen)
    rw [hnil, List.nil_append]
    refine (SortedRun.drop_spec h).mono fun _ w h => ?_
    exact nextSpilled_spec hT rfl tracker h
  · obtain ⟨front, rest, T, rfl, hfront, hT, rfl⟩ := hg.take_head hhead
    refine ⟨front, rest, T, rfl, fun hnil => hlen ?_, hfront, hT, h⟩
    rw [← hfront.length_eq, hnil, List.length_nil]

end SortedGroup

end SpillSort
