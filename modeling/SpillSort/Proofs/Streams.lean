import SpillSort.Proofs.GlobalMerges
import SpillSort.Proofs.Reliable
import SpillSort.Proofs.Spilling
import SpillSort.Proofs.StagingStates

/-!
# Streams of merged chunks

Chunk by chunk, whatever lengths are asked for, a merge hands out the rows of its groups in the order
of their keys, of their groups and of their positions in these.

* `TaggedRow.Precedes` is this order; it leaves only one way to put the rows.
* `cuts` is what comes of any rows when they are taken off from the front.
* `Merger.chunks_cuts` is the run of a merge from any state, `Merger.chunks_exact` the whole merge.
-/

namespace SpillSort

open Memory Spill

variable {E : Surroundings} {w : Workspace} {R S : Resources} {order : RowOrder}
  {kind : RowOrder → Disk → SortedGroup → Prop}

/-! ## Rows of many groups -/

/-- A row, the group it comes from, and its position in this group. -/
abbrev TaggedRow := Row × Nat × Nat

/-- The rows of groups, group by group. -/
def tagged (groups : List (List Row)) : List TaggedRow :=
  groups.zipIdx.flatMap fun (rows, g) => rows.zipIdx.map fun (row, i) => (row, g, i)

/-- The first row comes from an earlier group, or from an earlier position of the same group. -/
def TaggedRow.Earlier (a b : TaggedRow) : Prop := a.2.1 < b.2.1 ∨ a.2.1 = b.2.1 ∧ a.2.2 < b.2.2

/-- The order by keys, groups and positions. -/
def TaggedRow.Precedes (order : RowOrder) (a b : TaggedRow) : Prop :=
  order.rowLe a.1 b.1 ∧ (order.rowLe b.1 a.1 → a.Earlier b)

instance (a b : TaggedRow) : Decidable (a.Earlier b) := inferInstanceAs (Decidable (_ ∨ _))

instance (order : RowOrder) (a b : TaggedRow) : Decidable (a.Precedes order b) :=
  inferInstanceAs (Decidable (_ ∧ _))

/-- No two rows precede each other, so rows can be put in this order in one way only. -/
theorem TaggedRow.eq_of_precedes {xs ys : List TaggedRow} (h : xs.Perm ys)
    (hxs : xs.Pairwise (Precedes order)) (hys : ys.Pairwise (Precedes order)) : xs = ys := by
  refine h.eq_of_pairwise (fun a b _ _ hab hba => ?_) hxs hys
  have hearlier : a.Earlier b ∧ b.Earlier a := ⟨hab.2 hba.1, hba.2 hab.1⟩
  unfold Earlier at hearlier
  omega

theorem map_fst_tagged (groups : List (List Row)) : (tagged groups).map Prod.fst = groups.flatten := by
  have hrows : ∀ (rows : List Row) (g : Nat),
      (rows.zipIdx.map fun (row, i) => ((row, g, i) : TaggedRow)).map Prod.fst = rows := by
    intro rows g
    rw [List.map_map]
    exact List.zipIdx_map_fst 0 rows
  rw [tagged, List.map_flatMap]
  simp only [hrows]
  rw [List.flatMap_def, List.zipIdx_map_fst]

theorem pairwise_tagged (groups : List (List Row)) :
    (tagged groups).Pairwise TaggedRow.Earlier := by
  rw [tagged, List.flatMap_def]
  refine List.pairwise_flatten.mpr ⟨fun l hl => ?_, ?_⟩
  · obtain ⟨⟨rows, g⟩, -, rfl⟩ := List.mem_map.mp hl
    rw [List.pairwise_map, List.pairwise_iff_getElem]
    intro i j hi hj hlt
    simp [TaggedRow.Earlier, hlt]
  · rw [List.pairwise_map, List.pairwise_iff_getElem]
    intro i j hi hj hlt a ha b hb
    simp only [List.getElem_zipIdx, Nat.zero_add, List.mem_map] at ha hb
    obtain ⟨x, -, rfl⟩ := ha
    obtain ⟨y, -, rfl⟩ := hb
    exact .inl hlt

/-- The rows of groups in order. -/
def interleaved (order : RowOrder) (groups : List (List Row)) : List TaggedRow :=
  (tagged groups).mergeSort fun a b => order.rowLe a.1 b.1

theorem precedes_interleaved (order : RowOrder) (groups : List (List Row)) :
    (interleaved order groups).Pairwise (TaggedRow.Precedes order) :=
  (order.rowLe_preordering.comap Prod.fst).pairwise_mergeSort_of (pairwise_tagged groups)

theorem map_fst_interleaved (order : RowOrder) (groups : List (List Row)) :
    (interleaved order groups).map Prod.fst = groups.flatten.mergeSort order.rowLe := by
  rw [interleaved, List.map_mergeSort (s := order.rowLe) (f := Prod.fst) fun _ _ _ _ => rfl,
    map_fst_tagged]

/-- With keys there are columns. -/
theorem RowOrder.fields_ne_nil (o : RowOrder) (h : o.columns ≠ []) : o.schema.fields ≠ [] := by
  obtain ⟨k, -⟩ := List.exists_mem_of_ne_nil _ h
  exact List.ne_nil_of_length_pos (Nat.lt_of_le_of_lt (Nat.zero_le _) k.isLt)

/-! ## Chunks -/

/-- What comes of taking rows off the front, at least one at a time as long as there are any: each
time the rows taken, and how many are left. -/
def cuts (rows : List Row) : List Nat → List (Option (List Row) × Nat)
  | [] => []
  | n :: ns =>
    let rest := rows.drop (max n 1)
    (if rows = [] then none else some (rows.take (max n 1)), rest.length) :: cuts rest ns

theorem cuts_nil (n : Nat) (ns : List Nat) : cuts [] (n :: ns) = (none, 0) :: cuts [] ns := by
  simp [cuts]

theorem cuts_append {front rest : List Row} {n : Nat} (ns : List Nat) (hne : front ≠ [])
    (hfront : front.length = min (max n 1) (front ++ rest).length) :
    cuts (front ++ rest) (n :: ns) = (some front, rest.length) :: cuts rest ns := by
  have hparts := take_drop_of_length_eq_min hfront
  rw [cuts, if_neg (by simp [hne]), hparts.1, hparts.2]

namespace Merger

variable {m : Merger} {xs : List Source}

/-- Merges chunks of at most so many rows, one after the other, and notes how many rows are left
behind each. -/
def chunks : List Nat → MergeWork (List (Option Chunk × Nat))
  | [] => pure []
  | n :: ns => do
    let chunk? ← nextChunk n
    let m ← get
    let rest ← chunks ns
    pure ((chunk?, m.rowsLeft) :: rest)

/-- The rows of a chunk, and how many are left behind it. -/
def view (c : Option Chunk × Nat) : Option (List Row) × Nat := (c.1.map fun c => c.batch.table, c.2)

/-- The rows of all chunks. -/
def chunkRows (cs : List (Option Chunk × Nat)) : List Row :=
  (cs.filterMap Prod.fst).flatMap fun c => c.batch.table

/-- The chunks are of the order's schema and cut off the front of some rows as they were asked for,
and the merge has all rows behind them left. -/
structure Cut (order : RowOrder) (rows : List Row) (counts : List Nat)
    (cs : List (Option Chunk × Nat)) (m : Merger) : Prop where
  views : cs.map view = cuts rows counts
  schemas : ∀ c ∈ cs, ∀ chunk ∈ c.1, chunk.batch.schema = order.schema
  rest : ∃ rest, rows = chunkRows cs ++ rest ∧ m.rowsLeft = rest.length

/-- What every step of a merge has to keep for chunks to follow each other. -/
structure Steady (E : Surroundings) (order : RowOrder) (Q : Merger → Workspace → Prop)
    (fails : Prop) : Prop where
  nextChunk : ∀ {m : Merger} {xs : List Source} {R S : Resources} {w : Workspace} (n : Nat),
    m.Holds order xs (fun _ => False) R → Q m w → Owns E w (R + S) →
    Gives (nextChunk n)
      (fun c? t => Merged E order S m (max n 1) (Source.merged order xs) c? t ∧ Q t.1 t.2)
      (fun _ _ => fails) (m, w)

/-- Chunks that follow each other are cut off the front of the rows that a merge has left. -/
theorem chunks_cuts {Q : Merger → Workspace → Prop} {fails : Prop}
    (hsteady : Steady E order Q fails) (counts : List Nat) (h : m.Holds order xs (fun _ => False) R)
    (hQ : Q m w) (hleft : m.rowsLeft = (Source.merged order xs).length) (ho : Owns E w (R + S)) :
    Gives (chunks counts) (fun cs t => Cut order (Source.merged order xs) counts cs t.1)
      (fun _ _ => fails) (m, w) := by
  induction counts generalizing m xs R S w with
  | nil => exact Gives.pure_iff.mpr ⟨rfl, by simp, _, rfl, hleft⟩
  | cons n ns ih =>
    unfold chunks
    rw [Gives.bind_iff]
    refine (hsteady.nextChunk n h hQ ho).mono (fun chunk? t ht => ?_) fun _ _ hf => hf
    obtain ⟨hmerged, hQ⟩ := ht
    simp only [Gives.bind_iff, Gives.get_layer_iff, Gives.pure_iff]
    cases chunk? with
    | none =>
      obtain ⟨hnil, ys, R', hys, hm, hrows, ho⟩ := hmerged
      have hleft' : t.1.rowsLeft = (Source.merged order ys).length := by
        rw [hrows, hleft, hnil, hys]
      refine (ih hm hQ hleft' ho).mono (fun cs u hcs => ?_) fun _ _ hf => hf
      obtain ⟨hviews, hschemas, rest, hrest, hlast⟩ := hcs
      have hnone : ∀ chunk ∈ (none : Option Chunk), chunk.batch.schema = order.schema :=
        fun chunk hchunk => absurd hchunk (Option.not_mem_none chunk)
      refine ⟨?_, List.forall_mem_cons.mpr ⟨hnone, hschemas⟩, rest, ?_, hlast⟩
      · rw [List.map_cons, hviews, hys, hnil, cuts_nil, hleft', hys]
        rfl
      · rw [hnil, ← hys]
        exact hrest
    | some chunk =>
      obtain ⟨ys, R', hrows, hschema, hpos, hlength, hm, hrest, ho⟩ := hmerged
      have hlen : chunk.batch.table.length = chunk.length := chunk.batch.length_table
      have hleft' : t.1.rowsLeft = (Source.merged order ys).length := by
        rw [hrest, hleft, hrows, List.length_append, hlen]
        omega
      rw [add_left_comm] at ho
      refine (ih hm hQ hleft' ho).mono (fun cs u hcs => ?_) fun _ _ hf => hf
      obtain ⟨hviews, hschemas, rest, hall, hlast⟩ := hcs
      refine ⟨?_, List.forall_mem_cons.mpr ⟨fun c hc => ?_, hschemas⟩, rest, ?_, hlast⟩
      · have hne : chunk.batch.table ≠ [] := fun hnil => by
          rw [hnil, List.length_nil] at hlen
          omega
        rw [hrows, ← hlen] at hlength
        rw [List.map_cons, hviews, hrows, cuts_append ns hne hlength, hleft']
        rfl
      · obtain rfl := Option.some.inj hc
        exact hschema
      · rw [hrows, hall, ← List.append_assoc]
        rfl

theorem steady (E : Surroundings) (order : RowOrder) : Steady E order (fun _ _ => True) True :=
  ⟨fun n h _ ho => (nextChunk_spec h ho n).mono (fun _ _ ht => ⟨ht, trivial⟩) fun _ _ _ => trivial⟩

/-- A merge of groups that can be read does not fail. -/
theorem steady_reliable (hkind : Reliable kind) (hfields : order.schema.fields ≠ []) (disk : Disk) :
    Steady E order (fun m w => m.Draws kind disk ∧ w.disk = disk) False := by
  refine ⟨fun n h hQ ho => ?_⟩
  obtain ⟨hdraws, rfl⟩ := hQ
  exact nextChunk_reliable hkind h hdraws hfields ho n

/-- **Merging groups, chunk by chunk.** Groups are given with the rows that their runs have one after
the other, in key order. Whatever lengths are asked for, the chunks have the rows of all groups in the
order of their keys, of their groups and of their positions in these: each time as many as asked for,
but at least one, and fewer only at the end; no chunk if no row is left; and the rows left are always
counted right. None of this fails unless a file cannot be read. -/
theorem chunks_exact {ps : List (SortedGroup × List Row)} (hkeys : order.columns ≠ [])
    (hparts : Shared (SortedGroup.Part order) ps R) (ho : Owns E w (R + S)) (tracker : TrackerId)
    (counts : List Nat) :
    ∃ rows : List TaggedRow, rows.Perm (tagged (ps.map Prod.snd)) ∧
      rows.Pairwise (TaggedRow.Precedes order) ∧
      Gives (ofGroups order tracker (ps.map Prod.fst))
        (fun m v => m.rowsLeft = rows.length ∧
          Gives (chunks counts) (fun cs t => Cut order (rows.map Prod.fst) counts cs t.1)
            (fun _ _ => ¬∀ p ∈ ps, p.1.Sound order w.disk) (m, v))
        (fun _ _ => ¬∀ p ∈ ps, p.1.Sound order w.disk) w := by
  refine ⟨interleaved order (ps.map Prod.snd), List.mergeSort_perm .., precedes_interleaved ..,
    ?_⟩
  have hstart := ofGroups_spec (hparts.mono fun _ _ _ hp => hp.holds) tracker ho
  -- a merge that was started has the rows of all groups
  have hrun : ∀ {m : Merger} {v : Workspace} {Q : Merger → Workspace → Prop} {fails : Prop},
      Steady E order Q fails → Q m v →
      (∃ xs R', xs.map Source.rows = ps.map Prod.snd ∧ m.Holds order xs (fun _ => False) R' ∧
        m.rowsLeft = total (ps.map fun p => p.1.rows) ∧ Owns E v (R' + S)) →
      m.rowsLeft = (interleaved order (ps.map Prod.snd)).length ∧
        Gives (chunks counts)
          (fun cs t => Cut order ((interleaved order (ps.map Prod.snd)).map Prod.fst) counts cs t.1)
          (fun _ _ => fails) (m, v) := by
    intro m v Q fails hsteady hQ ⟨xs, R', hxs, hm, hleft, ho⟩
    have hmerged : Source.merged order xs =
        (interleaved order (ps.map Prod.snd)).map Prod.fst := by
      rw [Source.merged, List.flatMap_def, hxs, map_fst_interleaved]
    have hlength : (interleaved order (ps.map Prod.snd)).length =
        total (ps.map fun p => p.1.rows) := by
      rw [SortedGroup.total_rows hparts, ← List.length_map (f := Prod.fst), map_fst_interleaved,
        (List.mergeSort_perm _ _).length_eq, List.flatMap_def]
    rw [← hmerged]
    refine ⟨hleft.trans hlength.symm, chunks_cuts hsteady counts hm hQ ?_ ho⟩
    rw [hleft, hmerged, List.length_map, hlength]
  by_cases hsound : ∀ p ∈ ps, p.1.Sound order w.disk
  · have hgroups : ∀ g ∈ ps.map Prod.fst, g.Sound order w.disk := by
      intro g hg
      obtain ⟨p, hp, rfl⟩ := List.mem_map.mp hg
      exact hsound p hp
    refine (hstart.and (ofGroups_reliable reliable_sound hgroups tracker)).mono
      (fun m v hm => ?_) fun _ _ hf => hf.2.elim
    obtain ⟨hlength, hchunks⟩ := hrun (steady_reliable reliable_sound
      (order.fields_ne_nil hkeys) w.disk) hm.2 hm.1
    exact ⟨hlength, hchunks.mono (fun _ _ h => h) fun _ _ hf => hf.elim⟩
  · refine hstart.mono (fun m v hm => ?_) fun _ _ _ => hsound
    obtain ⟨hlength, hchunks⟩ := hrun (steady E order) trivial hm
    exact ⟨hlength, hchunks.mono (fun _ _ h => h) fun _ _ _ => hsound⟩

end Merger

namespace Sample

/-- Rows of one number each, with their groups and positions. -/
def tags (rows : List (Int × Nat × Nat)) : List TaggedRow :=
  rows.map fun (k, g, i) => ([.int k], g, i)

/-- What a run with its keys reads through its selection. -/
theorem reads_runOf (ks : List Int) (offsets : Array Nat) {rows : List Row}
    (hsorted : InOrder ascending.rowLe rows)
    (hin : ∀ i < ks.length, (runOf ks offsets).rowAt i < ks.length)
    (hkeys : (List.range ks.length).map (runOf ks offsets).keyAt = rows.map ascending.key)
    (heq : rows = (List.range ks.length).map (runOf ks offsets).rowOf) :
    (runOf ks offsets).Reads ascending rows := by
  rw [heq, List.map_map] at hkeys
  refine ⟨rfl, hin, fun i hi => ?_, fun i hi => ?_, heq, hsorted⟩
  · simpa [runOf] using hin i hi
  · exact List.map_inj_left.mp hkeys i (List.mem_range.mpr hi)

end Sample

/-- A group in memory and one whose file has an empty batch, merged in chunks of two, one and up to
five rows. -/
theorem Merger.chunks_exact_two_groups :
    Gives (Spill.Writer.writeAll Sample.ascending.schema
        [Spill.Sample.batchOf [2, 3], Spill.Sample.batchOf [], Spill.Sample.batchOf [5]])
      (fun f v => Gives (ofGroups Sample.ascending 0 [.resident (Sample.runOf [4, 2] #[1, 0]),
            .spilled (some (Sample.runOf [1] #[0])) f])
        (fun m u => m.rowsLeft = 6 ∧ Gives (chunks [2, 0, 5, 1])
          (fun cs _ => cs.map view =
            [(some [[.int 1], [.int 2]], 4), (some [[.int 2]], 3),
              (some [[.int 3], [.int 4], [.int 5]], 0), (none, 0)])
          (fun _ _ => False) (m, u))
        (fun _ _ => False) v)
      (fun _ _ => False) Spill.Sample.workspace := by
  obtain ⟨c, d, hd⟩ := Spill.Sample.exists_createFile
  have hshort : ∀ b ∈ [Spill.Sample.batchOf [2, 3], Spill.Sample.batchOf [], Spill.Sample.batchOf [5]],
      b.rows ≤ Spill.Writer.mostRows ∧ b.schema = Sample.ascending.schema := by
    simp [Spill.Sample.batchOf, Batch.ofColumns, Spill.Writer.mostRows, Sample.ascending,
      Spill.Sample.numbers]
  have hsound := Spill.Writer.writeAll_sound (w := Spill.Sample.workspace) rfl hd
    (fun b hb => (hshort b hb).1) (by decide +kernel) (by decide) fun b hb => (hshort b hb).2
  refine ((Spill.Writer.writeAll_spec (Owns.nothing Spill.Sample.workspace) _ _).and hsound).mono
    ?_ fun _ _ hf => hf.2
  rintro f v ⟨⟨held, hpath, hheld, hrows, ho⟩, hfile, hv⟩
  have hresident : (Sample.runOf [4, 2] #[1, 0]).Reads Sample.ascending [[.int 2], [.int 4]] :=
    Sample.reads_runOf _ _ (by decide +kernel) (by decide) rfl rfl
  have hhead : (Sample.runOf [1] #[0]).Reads Sample.ascending [[.int 1]] :=
    Sample.reads_runOf _ _ (by decide +kernel) (by decide) rfl rfl
  have hsorted : InOrder Sample.ascending.rowLe
      [[.int 1], [.int 2], [.int 3], [.int 5]] := by decide +kernel
  have hparts : Shared (SortedGroup.Part Sample.ascending)
      [(.resident (Sample.runOf [4, 2] #[1, 0]), [[.int 2], [.int 4]]),
        (.spilled (some (Sample.runOf [1] #[0])) f, [[.int 1], [.int 2], [.int 3], [.int 5]])]
      (Resources.charges [0] + (.file held ::ₘ Resources.charges [0] + 0)) := by
    refine .cons ⟨⟨by decide +kernel, _, [], rfl, hresident, rfl, rfl⟩, rfl⟩
      (.cons ⟨⟨hsorted, _, _, rfl, hhead, held, hpath, rfl, ⟨hheld, hrows⟩, ?_⟩, ?_⟩ .nil)
    · exact fun b hb => (hshort b hb).2
    · simp only [SortedGroup.spilled, hrows]
      rfl
  have howns : Owns (.careless Spill.Sample.workspace.disk) v
      (Resources.charges [0] + (.file held ::ₘ Resources.charges [0] + 0) + 0) :=
    ((ho.careless_charges [0]).careless_charges [0]).cast (by
      simp only [← Multiset.singleton_add]
      abel)
  obtain ⟨rows, hperm, hpairwise, hmerge⟩ := chunks_exact (by simp [Sample.ascending]) hparts
    howns 0 [2, 0, 5, 1]
  have heq : rows =
      Sample.tags [(1, 1, 0), (2, 0, 0), (2, 1, 1), (3, 1, 2), (4, 0, 1), (5, 1, 3)] := by
    refine TaggedRow.eq_of_precedes (hperm.trans ?_) hpairwise (by decide +kernel)
    show (Sample.tags [(2, 0, 0), (4, 0, 1), (1, 1, 0), (2, 1, 1), (3, 1, 2), (5, 1, 3)]).Perm _
    exact List.Perm.map _ (by decide)
  have hgroups : ∀ p ∈ [(SortedGroup.resident (Sample.runOf [4, 2] #[1, 0]),
        [[Value.int 2], [Value.int 4]]),
      (.spilled (some (Sample.runOf [1] #[0])) f, [[.int 1], [.int 2], [.int 3], [.int 5]])],
      p.1.Sound Sample.ascending v.disk := by
    simpa [SortedGroup.Sound, SortedGroup.resident, SortedGroup.spilled] using ⟨hv, hfile⟩
  subst heq
  exact hmerge.mono
    (fun m u hm => ⟨hm.1, hm.2.mono (fun cs t hcs => hcs.views) fun _ _ hf => hf hgroups⟩)
    fun _ _ hf => hf hgroups

end SpillSort
