import SpillSort.Proofs.FileRules

/-!
# Rules for the steps of a merge

There is one rule for each step by which groups are read, merged and spilled. It says which cases the
step has and what it does in each of them; a part that has a rule of its own stays as it is, with a
condition for what comes after it.

* `SortedGroup.gives_restore`, `ensures_restoreNext_cons`, `ensures_nextSpilled` and `ensures_nextRun`
  are about reading a group: an empty run is dropped, and the next one is read.
* `Merger.gives_load`, `gives_loadAll_succ` and `gives_ofGroups` are about the loaded runs,
  `gives_pick_succ` and `gives_nextChunk` about rows and chunks.
* `SpillOutcome.gives_appendChunks_succ`, `gives_writeChunks`, `gives_ofFile` and
  `gives_mergeAndSpill` are about a spill, and who cleans up after a failure.
* `MemoryMerge.gives_build` and `ensures_nextWindow` are about merging in memory.
-/

namespace SpillSort

open Memory Spill

variable {order : RowOrder} {tracker : TrackerId} {w : Workspace}

/-! ## Reading groups -/

namespace SortedGroup

variable {g : SortedGroup}

/-- The rows of a batch are counted before it turns out whether it has keys. -/
theorem gives_restore {batch : Batch} {R : Workspace → Prop} {P : SortedRun → Workspace → Prop}
    {E : Failure → Workspace → Prop}
    (hcount : Ensures
      (Workspace.count ["Spill"] "RestoreRows" (·.add (Int64.ofNat batch.rows))) (fun _ => R) w)
    (hkeys : ∀ keys v, R v → order.encode batch = .ok keys →
      Ensures (Workspace.withLedger (Chunk.tracked batch tracker))
        (fun chunk => Ensures (SortedRun.ofKeys chunk keys none tracker) P) v)
    (hfault : ∀ e v, R v → order.encode batch = .error e → E e.failure v) :
    Gives (restore order tracker batch) P E w := by
  unfold restore
  simp only [Gives.bind_iff, Gives.lift_iff, Gives.except_iff]
  refine hcount.mono fun _ v hv => ?_
  rcases he : order.encode batch with e | keys
  · exact hfault e v hv he
  · exact hkeys keys v hv he

/-- The run of an entry comes next, unless it is empty. -/
theorem ensures_restoreNext_cons {e : Entry} {es : List Entry} {r : Reader}
    {R : SortedRun → Workspace → Prop}
    {Q : Except Failure (Option SortedRun) × Reader → Workspace → Prop}
    (hread : Gives (r.batchAt e)
      (fun b => Gives (restore order tracker b) R fun f => Q (.error f, r.advance es))
      (fun f => Q (.error f, r.advance es)) w)
    (hempty : ∀ run v, R run v → run.length = 0 →
      Ensures run.drop (fun _ => Ensures (restoreNext order tracker es (r.advance es)) Q) v)
    (hrows : ∀ run v, R run v → run.length ≠ 0 → Q (.ok (some run), r.advance es) v) :
    Ensures (restoreNext order tracker (e :: es) r) Q w := by
  unfold restoreNext
  simp only [Ensures.bind_iff, Gives.run_iff, Gives.bind_iff, Ensures.pure_iff]
  refine hread.mono (fun b v hv => ?_) fun _ _ h => h
  refine hv.mono (fun run u hu => ?_) fun _ _ h => h
  split
  · next hzero =>
    rw [Ensures.bind_iff]
    exact hempty run u hu hzero
  · next hne => exact Ensures.pure_iff.mpr (hrows run u hu hne)

/-- The file of a group is opened the first time. -/
theorem ensures_nextSpilled {Q : Except Failure (Option SortedRun) × SortedGroup → Workspace → Prop}
    (hnone : g.spilled? = none → Q (.ok none, g) w)
    (hopened : ∀ s r, g.spilled? = some s → s.reader? = some r →
      Ensures (restoreNext order tracker r.pending r)
        (fun a => Q (a.1, { g with spilled? := some { s with reader? := some a.2 } })) w)
    (hclosed : ∀ s, g.spilled? = some s → s.reader? = none →
      Gives (Reader.open s.file.path s.file.schema)
        (fun r => Ensures (restoreNext order tracker r.pending r)
          fun a => Q (a.1, { g with spilled? := some { s with reader? := some a.2 } }))
        (fun e => Q (.error e, g)) w) :
    Ensures (g.nextSpilled order tracker) Q w := by
  unfold nextSpilled
  split
  · next hs => exact Ensures.pure_iff.mpr (hnone hs)
  next s hs =>
  split
  · next r hr =>
    simp only [Ensures.bind_iff, Ensures.pure_iff]
    exact hopened s r hs hr
  · next hr =>
    simp only [Ensures.bind_iff, Gives.run_iff, Ensures.pure_iff]
    exact hclosed s hs hr

/-- The run in memory comes first, unless it is empty. -/
theorem ensures_nextRun {Q : Except Failure (Option SortedRun) × SortedGroup → Workspace → Prop}
    (hnone : g.head? = none → Ensures (g.nextSpilled order tracker) Q w)
    (hempty : ∀ run, g.head? = some run → run.length = 0 →
      Ensures run.drop
        (fun _ => Ensures (nextSpilled order tracker { g with head? := none }) Q) w)
    (hrows : ∀ run, g.head? = some run → run.length ≠ 0 →
      Q (.ok (some run), { g with head? := none }) w) :
    Ensures (g.nextRun order tracker) Q w := by
  unfold nextRun
  split
  · next hhead => exact hnone hhead
  next run hhead =>
  dsimp only
  split
  · next hzero => exact Ensures.bind_iff.mpr (hempty run hhead hzero)
  · next hne => exact Ensures.pure_iff.mpr (hrows run hhead hne)

end SortedGroup

/-! ## Loading runs -/

namespace Merger

variable {m : Merger} {s : Merger × Workspace}

/-- What comes of a run that was read for a source, whose loaded run is gone. -/
def Loading (m : Merger) (source : Nat) (P : Unit → Merger × Workspace → Prop)
    (E : Failure → Merger × Workspace → Prop) (a : Except Failure (Option SortedRun) × SortedGroup)
    (v : Workspace) : Prop :=
  match a.1 with
  | .error e => E e ((m.retire source).setGroup source a.2, v)
  | .ok none => P () ((m.retire source).setGroup source a.2, v)
  | .ok (some run) => P () (((m.retire source).setGroup source a.2).accept source run, v)

/-- The loaded run of a source is let go of before the next one is read. -/
theorem gives_load {source : Nat} {P : Unit → Merger × Workspace → Prop}
    {E : Failure → Merger × Workspace → Prop} (hnone : m.groups[source]? = none → P () (m, w))
    (hgroup : ∀ g, m.groups[source]? = some g →
      Ensures (Workspace.dropAll (((m.cursor? source).map fun c => c.run.charges).getD []))
        (fun _ => Ensures (g.nextRun m.order m.tracker) (Loading m source P E)) w) :
    Gives (load source) P E (m, w) := by
  unfold load
  simp only [Gives.bind_iff, Gives.get_layer_iff]
  split
  · next g hg =>
    simp only [Gives.bind_iff, Gives.lift_layer_iff, Gives.modify_layer_iff]
    refine (hgroup g hg).mono fun _ v hv => hv.mono fun a u hu => ?_
    obtain ⟨e | _ | run, g'⟩ := a
    · exact Gives.throw_iff.mpr hu
    · exact Gives.pure_iff.mpr hu
    · exact Gives.modify_layer_iff.mpr hu
  · next hg => exact Gives.pure_iff.mpr (hnone hg)

theorem gives_loadAll_succ {count source : Nat} {P : Unit → Merger × Workspace → Prop}
    {E : Failure → Merger × Workspace → Prop}
    (h : Gives (load source) (fun _ => Gives (loadAll count (source + 1)) P E) E s) :
    Gives (loadAll (count + 1) source) P E s := by
  unfold loadAll
  exact Gives.bind_iff.mpr h

/-- A merge of groups before any run is loaded. -/
def unloaded (order : RowOrder) (tracker : TrackerId) (groups : List SortedGroup) : Merger where
  order := order
  tracker := tracker
  groups := groups.toArray
  cursors := Array.replicate groups.length none
  rowsLeft := total (groups.map SortedGroup.rows)

/-- If a run cannot be loaded, all groups are let go of. -/
theorem gives_ofGroups {groups : List SortedGroup} {P : Merger → Workspace → Prop}
    {E : Failure → Workspace → Prop}
    (h : Gives (loadAll groups.length 0) (fun _ s => P s.1 s.2)
      (fun e s => Ensures s.1.drop (fun _ => E e) s.2) (unloaded order tracker groups, w)) :
    Gives (ofGroups order tracker groups) P E w := by
  unfold ofGroups
  simp only [Gives.mk_iff, Ensures.bind_iff, Ensures.run_layer_iff, Gives.run_iff]
  refine Gives.mono h (fun _ s hs => Ensures.pure_iff.mpr hs) fun e s hs => ?_
  exact hs.mono fun _ v hv => Ensures.pure_iff.mpr hv

/-! ## Picking rows -/

/-- Taking a candidate changes nothing but the frontier. -/
theorem popCandidate_eq_with (m : Merger) : ∃ frontier, m.popCandidate.2 = { m with frontier } := by
  simp only [popCandidate]
  split
  · exact ⟨_, rfl⟩
  · exact ⟨_, rfl⟩

theorem popCandidate_eq_none {m₁ : Merger} (h : m.popCandidate = (none, m₁)) :
    m.frontier.pop? m.order = none ∧ m₁ = { m with frontier := .empty } := by
  simp only [popCandidate] at h
  split at h
  · next hp => exact ⟨hp, (Prod.mk.inj h).2.symm⟩
  · cases h

theorem popCandidate_eq_some {c : Candidate} {m₁ : Merger} (h : m.popCandidate = (some c, m₁)) :
    ∃ f, m.frontier.pop? m.order = some (c, f) ∧ m₁ = { m with frontier := f } := by
  simp only [popCandidate] at h
  split at h
  · cases h
  · next hp =>
    cases h
    exact ⟨_, hp, rfl⟩

/-- Taking a row changes nothing but the cursors and the frontier. -/
theorem takeRow_eq_with (m : Merger) (source : Nat) :
    ∃ cursors frontier, (m.takeRow source).2 = { m with cursors, frontier } := by
  unfold takeRow
  split
  · exact ⟨_, _, rfl⟩
  dsimp only
  split
  · exact ⟨_, _, rfl⟩
  · exact ⟨_, _, rfl⟩

/-- So does taking the row of a candidate. -/
theorem eq_with_of_takeRow {c? : Option Candidate} {m₁ m₂ : Merger} {source : Nat}
    {row? : Option ((Nat × Nat) × Bool)} (hpop : m.popCandidate = (c?, m₁))
    (htake : m₁.takeRow source = (row?, m₂)) :
    ∃ cursors frontier, m₂ = { m with cursors, frontier } := by
  obtain ⟨f, hm₁⟩ := m.popCandidate_eq_with
  obtain ⟨cursors, f', hm₂⟩ := m₁.takeRow_eq_with source
  rw [hpop] at hm₁
  rw [htake] at hm₂
  obtain rfl : m₁ = _ := hm₁
  exact ⟨cursors, f', hm₂⟩

theorem takeRow_eq_none {source : Nat} {m₁ : Merger} (h : m.takeRow source = (none, m₁)) :
    m.cursor? source = none ∧ m₁ = m := by
  unfold takeRow at h
  split at h
  · next hc => exact ⟨hc, (Prod.mk.inj h).2.symm⟩
  dsimp only at h
  split at h
  · cases h
  · cases h

/-- The row is that of the cursor, which moves on unless it was the last one of its run. -/
theorem takeRow_eq_some {source : Nat} {row : Nat × Nat} {last : Bool} {m₁ : Merger}
    (h : m.takeRow source = (some (row, last), m₁)) :
    ∃ c, m.cursor? source = some c ∧ row = (c.slot, c.run.rowAt c.position) ∧
      if last then c.run.length ≤ c.position + 1 ∧ m₁ = m
      else c.position + 1 < c.run.length ∧ m₁ =
        { m with
          cursors := m.cursors.setIfInBounds source (some { c with position := c.position + 1 })
          frontier := m.frontier.push m.order ⟨c.run.keyAt (c.position + 1), source⟩ } := by
  unfold takeRow at h
  split at h
  · cases h
  next c hc =>
  dsimp only at h
  split at h
  · next hlt =>
    cases h
    exact ⟨c, hc, rfl, hlt, rfl⟩
  · next hge =>
    cases h
    exact ⟨c, hc, rfl, Nat.not_lt.mp hge, rfl⟩

/-- The source of the candidate gives a row; after the last one of its run it loads the next run. -/
theorem gives_pick_succ {count : Nat} {picked : Array (Nat × Nat)}
    {P : Array (Nat × Nat) → Merger × Workspace → Prop} {E : Failure → Merger × Workspace → Prop}
    (hdone : ∀ m₁, m.popCandidate = (none, m₁) → P picked (m₁, w))
    (hmissing : ∀ c m₁ m₂, m.popCandidate = (some c, m₁) → m₁.takeRow c.source = (none, m₂) →
      Gives (pick count picked) P E (m₂, w))
    (hrow : ∀ c m₁ row m₂, m.popCandidate = (some c, m₁) →
      m₁.takeRow c.source = (some (row, false), m₂) →
        Gives (pick count (picked.push row)) P E (m₂, w))
    (hlast : ∀ c m₁ row m₂, m.popCandidate = (some c, m₁) →
      m₁.takeRow c.source = (some (row, true), m₂) →
        Gives (load c.source) (fun _ => Gives (pick count (picked.push row)) P E) E (m₂, w)) :
    Gives (pick (count + 1) picked) P E (m, w) := by
  unfold pick
  simp only [Gives.bind_iff, Gives.modifyGet_layer_iff]
  rcases hpop : m.popCandidate with ⟨_ | c, m₁⟩
  · exact Gives.pure_iff.mpr (hdone m₁ hpop)
  simp only [Gives.bind_iff, Gives.modifyGet_layer_iff]
  rcases htake : m₁.takeRow c.source with ⟨_ | ⟨row, _ | _⟩, m₂⟩
  · exact hmissing c m₁ m₂ hpop htake
  · exact hrow c m₁ row m₂ hpop htake
  · exact Gives.bind_iff.mpr (hlast c m₁ row m₂ hpop htake)

/-- Without a row nothing is merged; otherwise the rows that were picked are copied, and only then the
merge is done with them. -/
theorem gives_nextChunk {maxRows : Nat} {R : Array (Nat × Nat) → Merger × Workspace → Prop}
    {P : Option Chunk → Merger × Workspace → Prop} {E : Failure → Merger × Workspace → Prop}
    (hpick : Gives (pick (max maxRows 1) #[]) R E s)
    (hnone : ∀ t, R #[] t → P none ({ t.1 with arena := #[] }, t.2))
    (hchunk : ∀ picked t batch, R picked t → picked ≠ #[] →
      t.1.order.copyRows t.1.arena picked = .ok batch →
        Ensures (Workspace.withLedger (Chunk.tracked batch t.1.tracker))
          (fun chunk v => P (some chunk) (t.1.settle picked.size, v)) t.2)
    (hfault : ∀ picked t e, R picked t → picked ≠ #[] →
      t.1.order.copyRows t.1.arena picked = .error e → E (.column e) t) :
    Gives (nextChunk maxRows) P E s := by
  unfold nextChunk
  rw [Gives.bind_iff]
  refine hpick.mono (fun picked t ht => ?_) fun _ _ h => h
  split
  · next hempty =>
    obtain rfl := Array.isEmpty_iff.mp hempty
    simp only [Gives.bind_iff, Gives.modify_layer_iff, Gives.pure_iff]
    exact hnone t ht
  next hne =>
  have hne : picked ≠ #[] := fun he => hne (Array.isEmpty_iff.mpr he)
  simp only [Gives.bind_iff, Gives.get_layer_iff]
  split
  · next batch hb =>
    simp only [Gives.bind_iff, Gives.pure_iff, Gives.modify_layer_iff, Gives.map_iff,
      Gives.lift_layer_iff]
    exact hchunk picked t batch ht hne hb
  · next e he =>
    simp only [Gives.bind_iff, Gives.throw_iff]
    exact hfault picked t e ht hne he

end Merger

/-! ## Spills -/

namespace SpillOutcome

variable {s : Merger × Workspace}

/-- Whenever appending ends early, the file is given up and the chunk is let go of. -/
theorem gives_appendChunks_succ {chunkRows count : Nat} {wr : Writer}
    {R : Option Chunk → Merger × Workspace → Prop} {P : Writer → Merger × Workspace → Prop}
    {E : Failure → Merger × Workspace → Prop}
    (hnext : Gives (Merger.nextChunk chunkRows) R
      (fun e t => Ensures wr.abandon (fun _ v => E e (t.1, v)) t.2) s)
    (hnone : ∀ t, R none t → P wr t)
    (hchunk : ∀ chunk t, R (some chunk) t → Ensures Workspace.cancelled (fun raised v =>
      if raised then
        Ensures (Workspace.onLedger chunk.drop)
          (fun _ => Ensures wr.abandon fun _ u => E .cancelled (t.1, u)) v
      else
        Gives (wr.append chunk.batch)
          (fun wr' => Ensures (Workspace.onLedger chunk.drop)
            fun _ u => Gives (appendChunks chunkRows count wr') P E (t.1, u))
          (fun e => Ensures (Workspace.onLedger chunk.drop)
            fun _ => Ensures wr.abandon fun _ u => E e (t.1, u)) v) t.2) :
    Gives (appendChunks chunkRows (count + 1) wr) P E s := by
  unfold appendChunks
  rw [Gives.bind_iff, Gives.rescue_layer_iff]
  refine hnext.mono (fun chunk? t ht => ?_) fun _ _ h => h
  split
  · exact Gives.pure_iff.mpr (hnone t ht)
  next chunk =>
  simp only [Gives.bind_iff, Gives.lift_layer_iff]
  refine (hchunk chunk t ht).mono fun raised v hv => ?_
  split
  · next hup =>
    rw [if_pos hup] at hv
    simp only [Gives.bind_iff, Gives.lift_layer_iff, Gives.throw_iff]
    exact hv
  · next hup =>
    rw [if_neg hup] at hv
    simp only [Gives.bind_iff, Gives.rescue_layer_iff, Gives.inMerge_iff, Gives.lift_layer_iff,
      Ensures.bind_iff]
    exact hv

/-- Once there is a first chunk, a failure lets go of it. -/
theorem gives_writeChunks {schema : Schema} {chunkRows : Nat}
    {R : Option Chunk → Merger × Workspace → Prop}
    {P : Option (Chunk × SpillFile) → Merger × Workspace → Prop}
    {E : Failure → Merger × Workspace → Prop} (hnext : Gives (Merger.nextChunk chunkRows) R E s)
    (hnone : ∀ t, R none t → P none t)
    (hfirst : ∀ first t, R (some first) t →
      let dropped (e : Failure) (m : Merger) (v : Workspace) : Prop :=
        Ensures (Workspace.onLedger first.drop) (fun _ u => E e (m, u)) v
      Gives (Writer.create schema)
        (fun wr v => Gives (appendChunks chunkRows t.1.rowsLeft wr)
          (fun wr' u => Gives wr'.finish (fun file x => P (some (first, file)) (u.1, x))
            (fun e => dropped e u.1) u.2)
          (fun e u => dropped e u.1 u.2) (t.1, v))
        (fun e => dropped e t.1) t.2) :
    Gives (writeChunks schema chunkRows) P E s := by
  unfold writeChunks
  rw [Gives.bind_iff]
  refine hnext.mono (fun first? t ht => ?_) fun _ _ h => h
  split
  · exact Gives.pure_iff.mpr (hnone t ht)
  next first =>
  simp only [Gives.rescue_layer_iff, Gives.bind_iff, Gives.inMerge_iff, Gives.get_layer_iff,
    Gives.pure_iff]
  exact hfirst first t ht

/-- The new group is counted and noted as soon as its head has keys. -/
theorem gives_ofFile {mergedGroups releasedBytes : Nat} {first : Chunk} {file : SpillFile}
    {P : SpillOutcome → Workspace → Prop} {E : Failure → Workspace → Prop}
    (hkeys : ∀ keys, order.encode first.batch = .ok keys →
      Ensures (SortedRun.ofKeys first keys none tracker)
        (fun head => Ensures (Workspace.count ["Spill"] "SpillCount" (·.add 1))
          fun _ => Ensures (Workspace.count ["Spill"] "SpillRows" (·.add (clampBytes file.rows)))
            fun _ => Ensures (Workspace.count ["Spill"] "SpillBytes" (·.add (clampBytes file.bytes)))
              fun _ => Ensures (Workspace.note
                  (.spillFinished file.path mergedGroups file.rows head.length releasedBytes))
                fun _ => P { group := .spilled (some head) file, mergedGroups, releasedBytes
                             retainedBytes := head.bytes, spilledRows := file.rows
                             spilledBytes := file.bytes }) w)
    (hfault : ∀ e, order.encode first.batch = .error e →
      Ensures file.drop (fun _ => Ensures (Workspace.onLedger first.drop) fun _ => E e.failure) w) :
    Gives (ofFile order tracker mergedGroups releasedBytes first file) P E w := by
  unfold ofFile
  simp only [Gives.bind_iff, Gives.rescue_iff, Gives.except_iff, Gives.lift_iff, Gives.pure_iff,
    Ensures.bind_iff]
  rcases he : order.encode first.batch with e | keys
  · exact hfault e he
  · exact hkeys keys he

end SpillOutcome

/-- The merger is let go of whether or not its chunks were written. -/
theorem gives_mergeAndSpill {chunkRows : Nat} {groups : List SortedGroup}
    {R : Option (Chunk × SpillFile) → Workspace → Prop} {P : Option SpillOutcome → Workspace → Prop}
    {E : Failure → Workspace → Prop} (hempty : groups = [] → P none w)
    (hwrite : groups ≠ [] → Gives (Merger.ofGroups order tracker groups)
      (fun m v => Gives (SpillOutcome.writeChunks order.schema chunkRows)
        (fun made? t => Ensures t.1.drop (fun _ => R made?) t.2)
        (fun e t => Ensures t.1.drop (fun _ => E e) t.2) (m, v)) E w)
    (hnone : ∀ v, R none v → P none v)
    (hfile : ∀ first file v, R (some (first, file)) v →
      Gives (SpillOutcome.ofFile order tracker groups.length (SortedGroup.totalBytes groups)
        first file) (fun o => P (some o)) E v) :
    Gives (mergeAndSpill order tracker chunkRows groups) P E w := by
  unfold mergeAndSpill
  split
  · next hnil => exact Gives.pure_iff.mpr (hempty (List.isEmpty_iff.mp hnil))
  next hne =>
  have hne : groups ≠ [] := fun he => hne (List.isEmpty_iff.mpr he)
  simp only [Gives.bind_iff, Gives.lift_iff, Ensures.run_layer_iff, Gives.run_iff, Gives.except_iff]
  refine (hwrite hne).mono (fun m v hv => ?_) fun _ _ h => h
  refine hv.mono (fun made? t ht => ht.mono fun _ u hu => ?_) fun _ _ h => h
  rcases made? with _ | ⟨first, file⟩
  · exact Gives.pure_iff.mpr (hnone u hu)
  · exact Gives.map_iff.mpr (hfile first file u hu)

/-! ## Merging in memory -/

namespace MemoryMerge

/-- Groups that are merged in memory if both selections are granted. -/
structure Addressable (maxBytes : Nat) (groups : List SortedGroup) : Prop where
  resident : ∀ g ∈ groups, g.isSpilled = false
  few : groups.length ≤ maxSelectionBatches
  small : SortedGroup.totalBytes groups ≤ maxBytes

/-- A refusal comes before anything is let go of. -/
theorem gives_build {maxBytes : Nat} {groups : List SortedGroup}
    {R : Except String (GlobalSelection × GlobalSelection) → Workspace → Prop}
    {P : Attempt → Workspace → Prop} {E : Failure → Workspace → Prop}
    (hspilled : ∀ g ∈ groups, g.isSpilled = true → P (.refused "spilled groups present") w)
    (hmany : maxSelectionBatches < groups.length →
      P (.refused s!"{groups.length} batches exceed SV4 addressing") w)
    (hlarge : maxBytes < SortedGroup.totalBytes groups →
      P (.refused s!"{SortedGroup.totalBytes groups} resident bytes exceed {maxBytes}") w)
    (hallocate : Addressable maxBytes groups →
      Ensures (allocate tracker (total (groups.map SortedGroup.rows))) R w)
    (hdenied : ∀ reason v, R (.error reason) v → P (.refused reason) v)
    (hgranted : Addressable maxBytes groups → ∀ selection aux v, R (.ok (selection, aux)) v →
      let runs := groups.filterMap SortedGroup.head?
      let held := selection.charge?.toList ++ runs.flatMap fun r => r.chunk.charge?.toList
      let entries := (mergeRuns order runs selection.entries aux.entries).getD #[]
      Ensures (Workspace.dropAll (aux.charge?.toList ++ runs.flatMap SortedRun.orderCharges))
        (fun _ u =>
          match HyperBatch.ofBatches order.schema (runs.map fun r => r.chunk.batch).toArray with
          | .error e => Ensures (Workspace.dropAll held) (fun _ => E (.column e)) u
          | .ok batches => Ensures (Workspace.withLedger fun l => l.lease held)
            (fun lease =>
              P (.merged { batches, selection := { selection with entries }, lease })) u) v) :
    Gives (build order tracker maxBytes groups) P E w := by
  unfold build
  extract_lets bytes
  split
  · next hany =>
    obtain ⟨g, hg, hs⟩ := List.any_eq_true.mp hany
    exact Gives.pure_iff.mpr (hspilled g hg hs)
  next hnone =>
  split
  · next h => exact Gives.pure_iff.mpr (hmany h)
  next hfew =>
  split
  · next h => exact Gives.pure_iff.mpr (hlarge h)
  next hsmall =>
  have hgroups : Addressable maxBytes groups :=
    ⟨by simpa using hnone, Nat.not_lt.mp hfew, Nat.not_lt.mp hsmall⟩
  simp only [Gives.bind_iff, Gives.lift_iff]
  refine (hallocate hgroups).mono fun r v hv => ?_
  rcases r with reason | ⟨selection, aux⟩
  · exact Gives.pure_iff.mpr (hdenied reason v hv)
  simp only [Gives.bind_iff, Gives.lift_iff]
  refine (hgranted hgroups selection aux v hv).mono fun _ u hu => ?_
  split
  · next e he =>
    rw [he] at hu
    simp only [Gives.bind_iff, Gives.lift_iff, Gives.throw_iff]
    exact hu
  · next batches hb =>
    rw [hb] at hu
    simp only [Gives.bind_iff, Gives.lift_iff, Gives.pure_iff]
    exact hu

/-- The lease is shared with a window before it is handed out. -/
theorem ensures_nextWindow {m : MemoryMerge} {maxRows : Nat}
    {Q : Option Window × MemoryMerge → Workspace → Prop}
    (hdone : m.totalRows ≤ m.position → Q (none, m) w)
    (hwindow : m.position < m.totalRows →
      let length := min (max maxRows 1) (m.totalRows - m.position)
      Ensures (Workspace.onLedger fun l => l.shareLease m.lease) (fun _ =>
        Q (some { batches := m.batches, entries := m.selection.window m.position length
                  lease := m.lease },
          { m with position := m.position + length })) w) :
    Ensures (m.nextWindow maxRows) Q w := by
  unfold nextWindow
  split
  · next hle => exact Ensures.pure_iff.mpr (hdone hle)
  · next hlt =>
    simp only [Ensures.bind_iff, Ensures.pure_iff]
    exact hwindow (Nat.not_le.mp hlt)

end MemoryMerge

end SpillSort
