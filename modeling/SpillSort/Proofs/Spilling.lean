import SpillSort.Proofs.Mergers
import SpillSort.Sort.Spill

/-!
# What spilling makes

A spill turns groups into one that has all their rows in key order, the first of them in memory and
the others in a file. If it fails, neither the groups nor the file are there any more.

* `portions` are the lengths of parts of one size that rows are cut into.
* `SortedGroup.Part` is what a group with known rows answers for, counted as the group counts them.
* `SpillOutcome.Made` says what the new group has. `mergeAndSpill_made` is the theorem, and
  `SpillOutcome.appendChunks_spec` the part of it that is about the file.
-/

namespace SpillSort

open Memory Spill

variable {E : Surroundings} {w : Workspace} {R S : Resources} {order : RowOrder}

/-! ## Portions -/

/-- The lengths of the portions that a number of rows is handed out in. -/
def portions (size rows : Nat) : List Nat :=
  List.replicate (rows / size) size ++ if rows % size = 0 then [] else [rows % size]

theorem portions_zero (size : Nat) : portions size 0 = [] := by simp [portions]

/-- The first portion is full, unless it is the last one. -/
theorem portions_front {size n rest : Nat} (hpos : 0 < n) (hn : n = min size (n + rest)) :
    portions size (n + rest) = n :: portions size rest := by
  rcases Nat.lt_or_ge (n + rest) size with hlt | hle
  · obtain rfl : rest = 0 := by omega
    rw [Nat.add_zero] at hlt ⊢
    rw [portions_zero, portions, Nat.div_eq_of_lt hlt, Nat.mod_eq_of_lt hlt,
      if_neg (Nat.ne_of_gt hpos)]
    rfl
  · obtain rfl : n = size := by omega
    rw [portions, portions, Nat.add_div_left rest hpos, Nat.add_mod_left, List.replicate_succ]
    rfl

/-- Behind full portions comes one more. -/
theorem portions_add {size rows n : Nat} (hrows : size ∣ rows) (hn : 0 < n) (hle : n ≤ size) :
    portions size (rows + n) = portions size rows ++ [n] := by
  obtain ⟨k, rfl⟩ := hrows
  have hsize : 0 < size := by omega
  rw [portions, portions, Nat.mul_add_div hsize, Nat.mul_add_mod, Nat.mul_mod_right,
    Nat.mul_div_cancel_left k hsize, if_pos rfl, List.append_nil]
  rcases Nat.lt_or_eq_of_le hle with hlt | rfl
  · rw [Nat.div_eq_of_lt hlt, Nat.mod_eq_of_lt hlt, if_neg (by omega), Nat.add_zero]
  · rw [Nat.div_self hn, Nat.mod_self, if_pos rfl, List.append_nil, List.replicate_succ']

/-- There are as many portions as the rows fill, and one more for what is left over. -/
theorem length_portions {size : Nat} (hsize : 0 < size) (rows : Nat) :
    (portions size rows).length = (rows + size - 1) / size := by
  have hrows := Nat.div_add_mod rows size
  have hmod := Nat.mod_lt rows hsize
  rw [portions, List.length_append, List.length_replicate]
  split
  · next h0 =>
    rw [h0, Nat.add_zero] at hrows
    have hadd : rows + size - 1 = size * (rows / size) + (size - 1) := by omega
    rw [hadd, Nat.mul_add_div hsize, Nat.div_eq_of_lt (Nat.sub_lt hsize Nat.one_pos)]
    rfl
  · next h0 =>
    have hadd : rows + size - 1 = size * (rows / size + 1) + (rows % size - 1) := by
      rw [Nat.mul_add]
      omega
    rw [hadd, Nat.mul_add_div hsize, Nat.div_eq_of_lt (show rows % size - 1 < size by omega)]
    rfl

theorem mem_portions {size rows n : Nat} (hsize : 0 < size) (h : n ∈ portions size rows) :
    0 < n ∧ n ≤ size := by
  have hmod := Nat.mod_lt rows hsize
  rcases List.mem_append.mp h with h | h
  · obtain rfl := List.eq_of_mem_replicate h
    exact ⟨hsize, Nat.le_refl _⟩
  · split at h
    · cases h
    · obtain rfl := List.mem_singleton.mp h
      omega

/-- A front part of rows that is as long as it may be. -/
theorem take_drop_of_length_eq_min {α : Type} {front rest : List α} {n : Nat}
    (h : front.length = min n (front ++ rest).length) :
    (front ++ rest).take n = front ∧ (front ++ rest).drop n = rest := by
  rw [List.length_append] at h
  by_cases hlong : n ≤ front.length + rest.length
  · have hlen : n = front.length := by omega
    rw [hlen]
    exact ⟨List.take_left, List.drop_left⟩
  · obtain rfl : rest = [] := List.eq_nil_of_length_eq_zero (by omega)
    have hle : (front ++ []).length ≤ n := by simp at hlong ⊢; omega
    rw [List.take_of_length_le hle, List.drop_eq_nil_of_le hle]
    exact ⟨List.append_nil front, rfl⟩

/-! ## Groups -/

/-- A group with the rows it has, which it counts right. -/
structure SortedGroup.Part (order : RowOrder) (p : SortedGroup × List Row) (S : Resources) :
    Prop where
  holds : p.1.Holds order p.2 S
  rows : p.1.rows = p.2.length

theorem SortedGroup.total_rows {ps : List (SortedGroup × List Row)}
    (h : Shared (Part order) ps R) :
    total (ps.map fun p => p.1.rows) = (ps.flatMap Prod.snd).length := by
  induction h with
  | nil => rfl
  | cons hp _ ih => rw [List.map_cons, total_cons, hp.rows, ih, List.flatMap_cons, List.length_append]

/-! ## Files -/

namespace SpillOutcome

variable {m : Merger} {xs : List Source}

/-- The file takes all rows that the merger has left. -/
theorem appendChunks_spec (chunkRows : Nat) : ∀ (count : Nat) {m : Merger} {xs : List Source}
    {R : Resources} {wr : Writer} {bs : List Batch} {w : Workspace},
    m.Holds order xs (fun _ => False) R → (Source.merged order xs).length = m.rowsLeft →
    m.rowsLeft ≤ count → wr.Holds bs → Owns E w (.file wr.file ::ₘ (R + S)) →
    Gives (appendChunks chunkRows count wr)
      (fun wr' s => ∃ cs R', wr'.Holds (bs ++ cs) ∧ wr'.file = wr.file ∧ wr'.schema = wr.schema ∧
        cs.flatMap Batch.table = Source.merged order xs ∧ (∀ c ∈ cs, c.schema = order.schema) ∧
        cs.map Batch.rows = portions (max chunkRows 1) (Source.merged order xs).length ∧
        s.1.Keeps R' ∧ Owns E s.2 (.file wr.file ::ₘ (R' + S)))
      (fun _ s => ∃ R', s.1.Keeps R' ∧ Owns E s.2 (R' + S)) (m, w)
  | 0, m, xs, R, wr, bs, w, h, hlen, hle, hw, ho => by
    unfold appendChunks
    rw [Gives.pure_iff]
    have hnil : Source.merged order xs = [] := List.eq_nil_of_length_eq_zero (by omega)
    refine ⟨[], R, by rwa [List.append_nil], rfl, rfl, hnil.symm, by simp, ?_, h.keeps, ho⟩
    rw [hnil, List.length_nil, portions_zero]
    rfl
  | count + 1, m, xs, R, wr, bs, w, h, hlen, hle, hw, ho => by
    have hnext := Merger.nextChunk_spec h (by rwa [← Multiset.add_cons] at ho) chunkRows
    refine gives_appendChunks_succ (hnext.mono (fun _ _ hs => hs) fun _ s hs => ?_)
      (fun s hs => ?_) fun chunk s hs => ?_
    · obtain ⟨R', hm, ho⟩ := hs
      rw [Multiset.add_cons] at ho
      exact (Writer.abandon_spec ho).mono fun _ w ho => ⟨R', hm, ho⟩
    · obtain ⟨hnil, _, R', -, hm, -, ho⟩ := hs
      rw [Multiset.add_cons] at ho
      refine ⟨[], R', by rwa [List.append_nil], rfl, rfl, hnil.symm, by simp, ?_, hm.keeps, ho⟩
      rw [hnil, List.length_nil, portions_zero]
      rfl
    · obtain ⟨ys, R', hmerged, hschema, hpos, hlength, hm, hleft, ho⟩ := hs
      refine ho.cancelled.mono fun raised w hb => ?_
      have ho := hb.2
      rw [Multiset.add_cons] at ho
      split
      · refine ho.dropChunk.mono fun _ w ho => ?_
        exact (Writer.abandon_spec ho).mono fun _ w ho => ⟨R', hm.keeps, ho⟩
      · refine (Writer.append_spec ho hw chunk.batch).mono (fun wr' w hwr => ?_) fun _ w ho => ?_
        · obtain ⟨hw', hf, hs, ho⟩ := hwr
          refine ho.dropChunk.mono fun _ w ho => ?_
          have htotal : (Source.merged order xs).length =
              chunk.length + (Source.merged order ys).length := by
            rw [hmerged, List.length_append, Batch.length_table]
            rfl
          have hlen' : (Source.merged order ys).length = s.1.rowsLeft := by
            rw [hleft]
            omega
          refine (appendChunks_spec chunkRows count hm hlen' (by omega) hw' (hf ▸ ho)).mono
            (fun wr'' s hs => ?_) fun _ _ hs => hs
          obtain ⟨cs, R'', hw'', hf', hs', hcs, hschemas, hlengths, hk, ho⟩ := hs
          refine ⟨chunk.batch :: cs, R'', ?_, hf'.trans hf, hs'.trans hs, ?_,
            List.forall_mem_cons.mpr ⟨hschema, hschemas⟩, ?_, hk, hf ▸ ho⟩
          · rwa [List.append_assoc, List.singleton_append] at hw''
          · rw [List.flatMap_cons, hcs, hmerged]
          · rw [htotal] at hlength
            rw [List.map_cons, hlengths, htotal, portions_front hpos hlength]
            rfl
        · refine ho.dropChunk.mono fun _ w ho => ?_
          exact (Writer.abandon_spec ho).mono fun _ w ho => ⟨R', hm.keeps, ho⟩

/-- The first chunk and the file have all rows of a merger between them. -/
def Written (E : Surroundings) (order : RowOrder) (S : Resources) (chunkRows : Nat) (rows : List Row)
    (result : Option (Chunk × SpillFile)) (s : Merger × Workspace) : Prop :=
  match result with
  | none => rows = [] ∧ ∃ R', s.1.Keeps R' ∧ Owns E s.2 (R' + S)
  | some (first, file) => ∃ f bs R', f.path = file.path ∧ FileHolds f.bytes bs ∧
      (∀ b ∈ bs, b.schema = order.schema) ∧ file.rows = total (bs.map Batch.rows) ∧
      rows = first.batch.table ++ bs.flatMap Batch.table ∧
      first.length = min (max chunkRows 1) rows.length ∧
      bs.map Batch.rows = portions (max chunkRows 1) (rows.length - first.length) ∧ s.1.Keeps R' ∧
      Owns E s.2 (R' + (first.held + (.file f ::ₘ S)))

/-- The same once the merger is let go of. -/
def Parted (E : Surroundings) (order : RowOrder) (S : Resources) (chunkRows : Nat) (rows : List Row)
    (result : Option (Chunk × SpillFile)) (w : Workspace) : Prop :=
  match result with
  | none => rows = [] ∧ Owns E w S
  | some (first, file) => ∃ f bs, f.path = file.path ∧ FileHolds f.bytes bs ∧
      (∀ b ∈ bs, b.schema = order.schema) ∧ file.rows = total (bs.map Batch.rows) ∧
      rows = first.batch.table ++ bs.flatMap Batch.table ∧
      first.length = min (max chunkRows 1) rows.length ∧
      bs.map Batch.rows = portions (max chunkRows 1) (rows.length - first.length) ∧
      Owns E w (first.held + (.file f ::ₘ S))

theorem Written.drop {chunkRows : Nat} {rows : List Row} {result : Option (Chunk × SpillFile)}
    {s : Merger × Workspace} (h : Written E order S chunkRows rows result s) :
    Ensures s.1.drop (fun _ => Parted E order S chunkRows rows result) s.2 := by
  rcases result with _ | ⟨first, file⟩
  · obtain ⟨hnil, R', hk, ho⟩ := h
    exact (Merger.drop_spec hk ho).mono fun _ w ho => ⟨hnil, ho⟩
  · obtain ⟨f, bs, R', hf, hfile, hschemas, hrows, hall, hfirst, hlengths, hk, ho⟩ := h
    refine (Merger.drop_spec hk ho).mono fun _ w ho => ?_
    exact ⟨f, bs, hf, hfile, hschemas, hrows, hall, hfirst, hlengths, ho⟩

theorem writeChunks_spec (h : m.Holds order xs (fun _ => False) R)
    (hlen : (Source.merged order xs).length = m.rowsLeft) (ho : Owns E w (R + S)) (schema : Schema)
    (chunkRows : Nat) :
    Gives (writeChunks schema chunkRows) (Written E order S chunkRows (Source.merged order xs))
      (fun _ s => ∃ R', s.1.Keeps R' ∧ Owns E s.2 (R' + S)) (m, w) := by
  refine gives_writeChunks (Merger.nextChunk_spec h ho chunkRows) (fun s hs => ?_)
    fun first s hs => ?_
  · obtain ⟨hnil, _, R', -, hm, -, ho⟩ := hs
    exact ⟨hnil, R', hm.keeps, ho⟩
  obtain ⟨ys, R', hmerged, hschema, -, hlength, hm, hleft, ho⟩ := hs
  have hlen' : (Source.merged order ys).length = s.1.rowsLeft := by
    rw [hmerged, List.length_append, Batch.length_table] at hlen
    rw [hleft, Chunk.length]
    omega
  -- a failure lets go of the first chunk
  have hdrop : ∀ {m : Merger} {w : Workspace} {R' : Resources}, m.Keeps R' →
      Owns E w (R' + (first.held + S)) → Ensures (Workspace.onLedger first.drop)
        (fun _ w => ∃ R', m.Keeps R' ∧ Owns E w (R' + S)) w := fun hk ho =>
    Owns.dropChunk (by rwa [add_left_comm] at ho) |>.mono fun _ w ho => ⟨_, hk, ho⟩
  rw [add_left_comm] at ho
  refine (Writer.create_spec ho schema).mono (fun wr w hwr => ?_)
    fun _ w ho => hdrop hm.keeps ho
  obtain ⟨hw, -, ho⟩ := hwr
  refine (appendChunks_spec chunkRows _ hm hlen' (Nat.le_refl _) hw ho).mono
    (fun wr' s hs => ?_) fun _ s hs => ?_
  · obtain ⟨cs, R'', hw', hf, -, hcs, hschemas, hlengths, hk, ho⟩ := hs
    rw [← hf] at ho
    refine (Writer.finish_spec ho).mono (fun file w hfile => ?_) fun _ w ho => hdrop hk ho
    obtain ⟨hpath, -, hrows, ho⟩ := hfile
    rw [List.nil_append] at hw'
    refine ⟨wr'.finishedFile, cs, R'', hpath.symm, ⟨wr', hw', rfl⟩, hschemas,
      hrows.trans hw'.rows, ?_, hlength, ?_, hk, ho.cast ?_⟩
    · rw [hmerged, hcs]
    · have hrest : (Source.merged order ys).length =
          (Source.merged order xs).length - first.length := by
        rw [hmerged, List.length_append, Batch.length_table]
        exact (Nat.add_sub_cancel_left ..).symm
      rw [hlengths, hrest]
    · rw [Multiset.add_cons, Multiset.add_cons]
  · obtain ⟨R'', hk, ho⟩ := hs
    exact hdrop hk ho

/-- The new group of a spill has the first of some rows in memory, as they lie, and the others in a
file, in messages of one length. -/
structure Made (order : RowOrder) (chunkRows : Nat) (rows : List Row) (o : SpillOutcome)
    (head : SortedRun) (file : SpillFile) (f : HeldFile) (bs : List Batch) : Prop where
  group : o.group = .spilled (some head) file
  spilledRows : o.spilledRows = file.rows
  path : f.path = file.path
  stored : FileHolds f.bytes bs
  schemas : ∀ b ∈ bs, b.schema = order.schema
  counted : file.rows = total (bs.map Batch.rows)
  inOrder : InOrder order.rowLe rows
  reads : head.Reads order (rows.take (max chunkRows 1))
  unselected : head.selection? = none
  rest : bs.flatMap Batch.table = rows.drop (max chunkRows 1)
  lengths : bs.map Batch.rows = portions (max chunkRows 1) (rows.length - max chunkRows 1)

namespace Made

variable {chunkRows : Nat} {rows : List Row} {o : SpillOutcome} {head : SortedRun} {file : SpillFile}
  {f : HeldFile} {bs : List Batch}

/-- Head and file have all rows between them. -/
theorem length_eq (h : Made order chunkRows rows o head file f bs) :
    head.length + file.rows = rows.length := by
  have hfile : total (bs.map Batch.rows) = (bs.flatMap Batch.table).length := by
    rw [List.length_flatMap]
    refine congrArg List.sum (List.map_congr_left fun b _ => ?_)
    exact b.length_table.symm
  rw [← h.reads.length_eq, h.counted, hfile, h.rest, ← List.length_append, List.take_append_drop]

/-- The group answers for all rows, and owns what it needs to read them. -/
theorem part (h : Made order chunkRows rows o head file f bs) :
    SortedGroup.Part order (o.group, rows) (.file f ::ₘ head.held) := by
  rw [h.group]
  refine ⟨⟨h.inOrder, _, bs, ?_, h.reads, f, h.path, ?_, ⟨h.stored, h.counted⟩, h.schemas⟩, ?_⟩
  · rw [h.rest, List.take_append_drop]
  · simp [SortedGroup.charges, SortedGroup.spilled, SortedRun.held]
  · exact h.length_eq

end Made

/-- The new group has what the first chunk and the file have. -/
theorem ofFile_made {chunkRows : Nat} {first : Chunk} {file : SpillFile} {f : HeldFile}
    {bs : List Batch} {rows : List Row} (hf : f.path = file.path) (hfile : FileHolds f.bytes bs)
    (hschemas : ∀ b ∈ bs, b.schema = order.schema) (hrows : file.rows = total (bs.map Batch.rows))
    (hin : InOrder order.rowLe rows) (hall : rows = first.batch.table ++ bs.flatMap Batch.table)
    (hfirst : first.length = min (max chunkRows 1) rows.length)
    (hlengths : bs.map Batch.rows = portions (max chunkRows 1) (rows.length - first.length))
    (ho : Owns E w (first.held + (.file f ::ₘ S))) (tracker : TrackerId)
    (mergedGroups releasedBytes : Nat) :
    Gives (ofFile order tracker mergedGroups releasedBytes first file)
      (fun o w => ∃ head, Made order chunkRows rows o head file f bs ∧
        Owns E w (.file f ::ₘ head.held + S))
      (fun _ w => Owns E w S) w := by
  refine gives_ofFile (fun keys hk => ?_) fun e _ => ?_
  · refine (SortedRun.ofKeys_spec ho keys tracker).mono fun run w hmade => ?_
    obtain ⟨hc, hkeys, hs, ho⟩ := hmade
    refine (ho.count _ _ _).mono fun _ w ho => (ho.count _ _ _).mono fun _ w ho =>
      (ho.count _ _ _).mono fun _ w ho => (ho.note _).mono fun _ w ho => ?_
    have hparts : rows.take (max chunkRows 1) = first.batch.table ∧
        rows.drop (max chunkRows 1) = bs.flatMap Batch.table := by
      rw [hall] at hfirst ⊢
      exact take_drop_of_length_eq_min (first.batch.length_table.trans hfirst)
    have hreads : run.Reads order (rows.take (max chunkRows 1)) := by
      rw [hall] at hin
      rw [hparts.1, ← hc]
      rw [← hc] at hk hin
      exact SortedRun.reads_table hs (hkeys ▸ hk) (List.pairwise_append.mp hin).1
    have hsame : rows.length - first.length = rows.length - max chunkRows 1 := by omega
    refine ⟨run, ⟨rfl, rfl, hf, hfile, hschemas, hrows, hin, hreads, hs, hparts.2.symm,
      hsame ▸ hlengths⟩, ho.cast ?_⟩
    rw [Multiset.add_cons, Multiset.cons_add]
  · rw [SpillFile.drop, ← hf]
    rw [Multiset.add_cons] at ho
    exact ho.removeFile.mono fun _ w ho => ho.dropChunk

end SpillOutcome

/-- Spilling groups makes one group of all their rows, the first of them in memory, or leaves nothing
of them. -/
theorem mergeAndSpill_made {ps : List (SortedGroup × List Row)}
    (h : Shared (SortedGroup.Part order) ps R) (ho : Owns E w (R + S)) (tracker : TrackerId)
    (chunkRows : Nat) :
    Gives (mergeAndSpill order tracker chunkRows (ps.map Prod.fst))
      (fun o? w =>
        match o? with
        | none => ps.flatMap Prod.snd = [] ∧ Owns E w S
        | some o => ∃ head file f bs, SpillOutcome.Made order chunkRows
            ((ps.flatMap Prod.snd).mergeSort order.rowLe) o head file f bs ∧
          Owns E w (.file f ::ₘ head.held + S))
      (fun _ w => Owns E w S) w := by
  have hin := order.rowLe_preordering.inOrder_mergeSort (ps.flatMap Prod.snd)
  refine gives_mergeAndSpill (R := SpillOutcome.Parted E order S chunkRows
      ((ps.flatMap Prod.snd).mergeSort order.rowLe)) (fun hempty => ?_) (fun _ => ?_)
    (fun _ hs => ?_) fun first file w hs => ?_
  · obtain rfl : ps = [] := by simpa using hempty
    cases h
    exact ⟨rfl, by simpa using ho⟩
  · refine (Merger.ofGroups_spec (h.mono fun _ _ _ hp => hp.holds) tracker ho).mono
      (fun m w hs => ?_) fun _ _ ho => ho
    obtain ⟨xs, R', hxs, hm, hleft, ho⟩ := hs
    have hflat : xs.flatMap Source.rows = ps.flatMap Prod.snd := by
      rw [List.flatMap_def, hxs, ← List.flatMap_def]
    have hlen : (Source.merged order xs).length = m.rowsLeft := by
      rw [hleft, SortedGroup.total_rows h, Source.merged, List.length_mergeSort, hflat]
    have hwrite := SpillOutcome.writeChunks_spec hm hlen ho order.schema chunkRows
    rw [Source.merged, hflat] at hwrite
    refine hwrite.mono (fun _ _ hs => hs.drop) fun e s hs => ?_
    obtain ⟨R'', hk, ho⟩ := hs
    exact Merger.drop_spec hk ho
  · exact ⟨List.perm_nil.mp (hs.1 ▸ (List.mergeSort_perm _ _).symm), hs.2⟩
  · obtain ⟨f, bs, hf, hfile, hschemas, hrows, hall, hfirst, hlengths, ho⟩ := hs
    refine (SpillOutcome.ofFile_made hf hfile hschemas hrows hin hall hfirst hlengths ho tracker _
      _).mono (fun o w hs => ?_) fun _ _ ho => ho
    obtain ⟨head, hmade⟩ := hs
    exact ⟨head, file, f, bs, hmade⟩

/-- What the new group has is all that counts of it later. -/
theorem mergeAndSpill_spec {ps : List (SortedGroup × List Row)}
    (h : Shared (SortedGroup.Part order) ps R) (ho : Owns E w (R + S)) (tracker : TrackerId)
    (chunkRows : Nat) :
    Gives (mergeAndSpill order tracker chunkRows (ps.map Prod.fst))
      (fun o? w =>
        match o? with
        | none => ps.flatMap Prod.snd = [] ∧ Owns E w S
        | some o => ∃ R', SortedGroup.Part order
            (o.group, (ps.flatMap Prod.snd).mergeSort order.rowLe) R' ∧
          (∃ head file, o.group = .spilled (some head) file) ∧ Owns E w (R' + S))
      (fun _ w => Owns E w S) w := by
  refine (mergeAndSpill_made h ho tracker chunkRows).mono (fun o? w ho => ?_) fun _ _ ho => ho
  cases o? with
  | none => exact ho
  | some o =>
    obtain ⟨head, file, f, bs, hmade, ho⟩ := ho
    exact ⟨_, hmade.part, ⟨head, file, hmade.group⟩, ho⟩

end SpillSort
